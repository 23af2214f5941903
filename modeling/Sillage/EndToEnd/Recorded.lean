import Sillage.Reader.Collection
import Sillage.Writer.Recovery
import Sillage.Writer.Runs

/-!
# What the writer recorded, as the reader finds it

The archive that a writer leaves in a stream's directory is a collection of chunks for
the reader: the catalog scan finds exactly its sealed chunks, their payloads decode to
the recorded messages and their indexes, as far as they can be parsed, index them.
-/

namespace Sillage

open LittleEndian Chunk Directory Names OpenChunk

/-- The chunk of an index as the catalog lists it, sealed for some reason. -/
def entryOf (k : Codecs) (stream : Stream) (cfg : WriterConfig) (idx : Nat)
    (arrivals : List Arrival) (reason : String) : ChunkEntry where
  stream := stream
  startSlot := idx * cfg.slotsPerChunk
  endSlotExclusive := idx * cfg.slotsPerChunk + cfg.slotsPerChunk
  zstPath := chunkName cfg idx "zst"
  idxPath := chunkName cfg idx "idx"
  «meta» := sidecar stream (holding k stream cfg idx 0 arrivals)
    (k.zstdEncode (payload k arrivals)) reason

/-- Messages that chunks can hold: each lies in the chunk of its slot, which is the one that
the reader extracts from it, and neither their number nor their size exceeds 32 bits. -/
structure Recordable (k : Codecs) (cfg : WriterConfig) (contents : Nat → List Arrival) :
    Prop where
  within : ∀ idx, ∀ a ∈ contents idx, a.slot / cfg.slotsPerChunk = idx
  fits : ∀ idx, ∀ a ∈ contents idx, Fits cfg a.slot
  slots : ∀ idx, ∀ a ∈ contents idx, extractSlot a.msg.inner = some a.slot
  few : ∀ idx, (contents idx).length < u32Bound
  small : ∀ idx, ∀ a ∈ contents idx, (k.prostEncode a.msg.inner).length < u32Bound

variable {k : Codecs} {stream : Stream} {cfg : WriterConfig} {dir : Dir}
  {contents : Nat → List Arrival}

/-- The bounds of a chunk with messages fit 64 bits. -/
theorem Recordable.bounds (recordable : Recordable k cfg contents) {idx : Nat}
    (filled : contents idx ≠ []) : idx * cfg.slotsPerChunk + cfg.slotsPerChunk < u64Bound := by
  obtain ⟨a, member⟩ := List.exists_mem_of_ne_nil _ filled
  have range := (recordable.fits idx a member).range
  rwa [recordable.within idx a member] at range

/-- The catalog scan recognises the sidecar of a sealed chunk. -/
theorem scanEntry_sealed (json : k.JsonRoundTrips) {idx : Nat} {arrivals : List Arrival}
    {reason : String} (files : SealedFiles k stream cfg dir idx arrivals reason)
    (bounds : idx * cfg.slotsPerChunk + cfg.slotsPerChunk < u64Bound) :
    ChunkCatalog.scanEntry k stream dir (chunkName cfg idx "meta.json") =
      some (entryOf k stream cfg idx arrivals reason) := by
  have compressed : dir.lookup (stem (idx * cfg.slotsPerChunk)
      (idx * cfg.slotsPerChunk + cfg.slotsPerChunk) ++ ".zst".toList) =
        some (k.zstdEncode (payload k arrivals)) := files.compressed
  have index : dir.lookup (stem (idx * cfg.slotsPerChunk)
      (idx * cfg.slotsPerChunk + cfg.slotsPerChunk) ++ ".idx".toList) =
        some ((holding k stream cfg idx 0 arrivals).indexBytes k) := files.index
  have stripped : stripSuffix metaSuffix (chunkName cfg idx "meta.json") = some
      (stem (idx * cfg.slotsPerChunk) (idx * cfg.slotsPerChunk + cfg.slotsPerChunk)) :=
    stripSuffix_append _ _
  exact ChunkCatalog.scanEntry_iff.mpr ⟨_, _, _,
    { stripped
      parts := splitOnce_stem _ _
      startRead := parseU64_padded _ (Nat.lt_of_le_of_lt (Nat.le_add_right _ _) bounds)
      stopRead := parseU64_padded _ bounds
      stream := rfl
      zstPath := rfl
      idxPath := rfl
      payload := Option.isSome_of_eq_some compressed
      index := Option.isSome_of_eq_some index
      sidecar := ⟨_, files.sidecar, json _⟩
      version := rfl }⟩

/-- The catalog scan finds the sealed chunks and nothing else. -/
theorem scanEntry_archive (json : k.JsonRoundTrips) (archive : Archive k stream cfg dir contents)
    (recordable : Recordable k cfg contents) {name : FileName} {entry : ChunkEntry} :
    ChunkCatalog.scanEntry k stream dir name = some entry ↔ ∃ idx reason, contents idx ≠ [] ∧
      SealedFiles k stream cfg dir idx (contents idx) reason ∧
      name = chunkName cfg idx "meta.json" ∧
      entry = entryOf k stream cfg idx (contents idx) reason := by
  constructor
  · intro scanned
    obtain ⟨text, _, _, found⟩ := ChunkCatalog.scanEntry_iff.mp scanned
    obtain ⟨bytes, stored, -⟩ := found.sidecar
    obtain ⟨idx, ext, filled, final, rfl⟩ := archive.only name bytes stored
    by_cases sidecarName : ext = "meta.json"
    · subst sidecarName
      obtain ⟨reason, files⟩ := archive.chunks idx filled
      rw [scanEntry_sealed json files (recordable.bounds filled)] at scanned
      exact ⟨idx, reason, filled, files, rfl, (Option.some.inj scanned).symm⟩
    · exact nomatch (Recovery.stripSuffix_other cfg idx final sidecarName).symm.trans
        found.stripped
  · rintro ⟨idx, reason, filled, files, rfl, rfl⟩
    exact scanEntry_sealed json files (recordable.bounds filled)

/-- A chunk that is sealed in the directory of its stream. -/
def Sealed (cfg : WriterConfig) (reader : Reader) (contents : Stream → Nat → List Arrival)
    (entry : ChunkEntry) : Prop :=
  ∃ idx reason, contents entry.stream idx ≠ [] ∧
    SealedFiles reader.codecs entry.stream cfg (reader.files entry.stream) idx
      (contents entry.stream idx) reason ∧
    entry = entryOf reader.codecs entry.stream cfg idx (contents entry.stream idx) reason

/-- The messages that were recorded in a chunk. -/
def recordedIn (cfg : WriterConfig) (contents : Stream → Nat → List Arrival)
    (entry : ChunkEntry) : List SubscribeUpdate :=
  (contents entry.stream (entry.startSlot / cfg.slotsPerChunk)).map (fun a => a.msg.inner)

section Archives

variable {reader : Reader} {recorded : Stream → Nat → List Arrival}

/-- The messages of a sealed chunk are those of its index. -/
theorem recordedIn_entryOf (positive : 0 < cfg.slotsPerChunk) (stream : Stream) (idx : Nat)
    (arrivals : List Arrival) (reason : String) :
    recordedIn cfg recorded (entryOf k stream cfg idx arrivals reason) =
      (recorded stream idx).map (fun a => a.msg.inner) := by
  simp [recordedIn, entryOf, Nat.mul_div_cancel _ positive]

/-- The sidecar tells why a chunk was sealed. -/
theorem sealedFiles_reason (json : k.JsonRoundTrips) {idx : Nat} {arrivals : List Arrival}
    {reason reason' : String} (files : SealedFiles k stream cfg dir idx arrivals reason)
    (files' : SealedFiles k stream cfg dir idx arrivals reason') : reason = reason' := by
  have bytes := Option.some.inj (files.sidecar.symm.trans files'.sidecar)
  have sidecars := (json _).symm.trans ((congrArg k.jsonDecode bytes).trans (json _))
  exact congrArg ChunkMeta.sealedReason (Option.some.inj sidecars)

/-- The chunks that are sealed are told apart by stream and start slot. -/
theorem sealed_distinguished (json : reader.codecs.JsonRoundTrips)
    (positive : 0 < cfg.slotsPerChunk) :
    Reader.Distinguished (Sealed cfg reader recorded) := by
  rintro entry other ⟨idx, reason, -, files, same⟩ ⟨idx', reason', -, files', same'⟩ stream start
  have starts : idx * cfg.slotsPerChunk = idx' * cfg.slotsPerChunk := by
    rw [same, same'] at start
    exact start
  obtain rfl := Nat.eq_of_mul_eq_mul_right positive starts
  rw [← stream] at files' same'
  obtain rfl := sealedFiles_reason json files files'
  rw [same, same']

/-- The sealed chunks of a stream do not overlap. -/
theorem sealed_apart {entry other : ChunkEntry} (isSealed : Sealed cfg reader recorded entry)
    (isSealed' : Sealed cfg reader recorded other) (less : entry.startSlot < other.startSlot) :
    entry.endSlotExclusive ≤ other.startSlot := by
  obtain ⟨idx, reason, -, -, same⟩ := isSealed
  obtain ⟨idx', reason', -, -, same'⟩ := isSealed'
  rw [same, same'] at less ⊢
  change idx * cfg.slotsPerChunk < idx' * cfg.slotsPerChunk at less
  have next := Nat.lt_of_mul_lt_mul_right less
  have bound := Nat.mul_le_mul_right cfg.slotsPerChunk (Nat.succ_le_of_lt next)
  rw [Nat.succ_mul] at bound
  exact bound

/-- The archives of a writer are a collection for the reader. -/
def archived (roundTrip : reader.codecs.RoundTrip) (positive : 0 < cfg.slotsPerChunk)
    (recordable : ∀ stream, Recordable reader.codecs cfg (recorded stream)) :
    Collection reader where
  held := Sealed cfg reader recorded
  messages := recordedIn cfg recorded
  distinguished := sealed_distinguished roundTrip.json positive
  ranged := by
    rintro entry ⟨idx, reason, -, -, same⟩
    rw [same]
    exact Nat.lt_add_of_pos_right positive
  inRange := by
    rintro entry ⟨idx, reason, -, -, same⟩ update member
    rw [same, recordedIn_entryOf positive] at member
    obtain ⟨a, isRecorded, rfl⟩ := List.mem_map.mp member
    have chunk := (recordable _).within idx a isRecorded
    refine ⟨a.slot, (recordable _).slots idx a isRecorded, ?_⟩
    rw [same]
    subst chunk
    exact ⟨Nat.div_mul_le_self _ _, Nat.lt_div_mul_add positive⟩
  few := by
    rintro entry ⟨idx, reason, -, -, same⟩
    rw [same, recordedIn_entryOf positive, List.length_map]
    exact (recordable _).few idx
  indexed := by
    rintro entry index ⟨idx, reason, -, files, same⟩ parsed
    have messages : recordedIn cfg recorded entry =
        (recorded entry.stream idx).map (fun a => a.msg.inner) := by
      rw [same, recordedIn_entryOf positive]
      rfl
    have few := (recordable entry.stream).few idx
    have file : reader.idxFile entry =
        some ((holding reader.codecs entry.stream cfg idx 0 (recorded entry.stream idx)).indexBytes
          reader.codecs) := by
      rw [same]
      exact files.index
    rw [messages]
    rw [file, indexBytes] at parsed
    simp only [holding] at parsed
    rw [indexed_observeFrom _ _ (by rw [List.length_map]; exact few.le)] at parsed
    refine Filter.indexes_parsed roundTrip.msgpack roundTrip.msgpackDelimited roundTrip.roaring
      entry.stream _ (idx * cfg.slotsPerChunk) (idx * cfg.slotsPerChunk + cfg.slotsPerChunk)
      index ?_
    rw [List.length_map]
    exact parsed
  decodes := by
    rintro entry ⟨idx, reason, -, files, same⟩
    have messages : recordedIn cfg recorded entry =
        (recorded entry.stream idx).map (fun a => a.msg.inner) := by
      rw [same, recordedIn_entryOf positive]
      rfl
    have file : reader.zstFile entry = some (reader.codecs.zstdEncode
        (payload reader.codecs (recorded entry.stream idx))) := by
      rw [same]
      exact files.compressed
    obtain ⟨chunk, decoded, ordinals⟩ := decodeChunk_updates roundTrip.zstd roundTrip.prost
      ((recorded entry.stream idx).map (fun a => a.msg.inner)) (by
        intro update member
        obtain ⟨a, isRecorded, rfl⟩ := List.mem_map.mp member
        exact (recordable _).small idx a isRecorded)
    refine ⟨chunk, ?_, messages ▸ ordinals⟩
    rw [file, payload, ← decoded, List.map_map]
    rfl

/-- What a scan of an archive finds is sealed in it. -/
theorem sealed_of_scanned (json : reader.codecs.JsonRoundTrips)
    (archives : ∀ stream, Archive reader.codecs stream cfg (reader.files stream) (recorded stream))
    (recordable : ∀ stream, Recordable reader.codecs cfg (recorded stream)) {stream : Stream}
    {name : FileName} {entry : ChunkEntry} (scanned : ChunkCatalog.scanEntry reader.codecs stream
      (reader.files stream) name = some entry) : Sealed cfg reader recorded entry := by
  obtain rfl := ChunkCatalog.scanEntry_stream scanned
  obtain ⟨idx, reason, filled, files, -, same⟩ :=
    (scanEntry_archive json (archives _) (recordable _)).mp scanned
  exact ⟨idx, reason, filled, files, same⟩

/-- A scan of archives finds sealed chunks only, whatever part of a directory is listed. -/
theorem scan_sealed (json : reader.codecs.JsonRoundTrips)
    (archives : ∀ stream, Archive reader.codecs stream cfg (reader.files stream) (recorded stream))
    (recordable : ∀ stream, Recordable reader.codecs cfg (recorded stream))
    {listing : Stream → List FileName} {entry : ChunkEntry}
    (holds : (ChunkCatalog.scan reader.codecs reader.files listing).Holds entry) :
    Sealed cfg reader recorded entry := by
  obtain ⟨-, name, -, scanned⟩ := ChunkCatalog.scanStream_found _ _ _ _ _ _ holds
  exact sealed_of_scanned json archives recordable scanned

/-- The catalog of scanned archives holds the sealed chunks, in whatever order the
directories are listed. -/
theorem scan_holds (json : reader.codecs.JsonRoundTrips) (positive : 0 < cfg.slotsPerChunk)
    (archives : ∀ stream, Archive reader.codecs stream cfg (reader.files stream) (recorded stream))
    (recordable : ∀ stream, Recordable reader.codecs cfg (recorded stream))
    {listing : Stream → List FileName}
    (listed : ∀ stream name, name ∈ listing stream ↔ name ∈ (reader.files stream).keys)
    (entry : ChunkEntry) :
    (ChunkCatalog.scan reader.codecs reader.files listing).Holds entry ↔
      Sealed cfg reader recorded entry := by
  constructor
  · exact scan_sealed json archives recordable
  · rintro ⟨idx, reason, filled, files, same⟩
    have scanned : ChunkCatalog.scanEntry reader.codecs entry.stream (reader.files entry.stream)
        (chunkName cfg idx "meta.json") = some entry :=
      (scanEntry_archive json (archives _) (recordable _)).mpr
        ⟨idx, reason, filled, files, rfl, same⟩
    refine ChunkCatalog.scanStream_finds ((listed _ _).mpr ?_) scanned ?_
    · exact AList.mem_keys.mp (AList.lookup_isSome.mp (by simp [files.sidecar]))
    · intro name _ other found start
      exact sealed_distinguished json positive other entry
        (sealed_of_scanned json archives recordable found)
        ⟨idx, reason, filled, files, same⟩ (ChunkCatalog.scanEntry_stream found) start

end Archives

end Sillage
