import Sillage.Common.PlainCodecs
import Sillage.Reader.Listing

/-!
# The names of chunks

Five components read the names of chunks: the scan of the uploader and the resume point
of the writer, the listing of the bucket, the syncer's scan of the cache and the catalog.
One format writes them. Every component reads what the format writes, for all slots. The
converse holds of the names whose numbers are written as the format writes them, and of
no others that are recognised: the parsers accept missing padding, superfluous zeros and
a leading plus, and the resume point does not look at the start slot at all.
-/

namespace Sillage

open LittleEndian Directory Names Decimal Listing

namespace Naming

/-- The files beside a sidecar are there, and the sidecar is readable. -/
def Stocked (k : Codecs) (dir : Dir) (name : FileName) : Prop :=
  ∀ stem, stripSuffix metaSuffix name = some stem →
    (dir.lookup (stem ++ ".zst".toList)).isSome ∧ (dir.lookup (stem ++ ".idx".toList)).isSome ∧
      ∃ bytes sidecar, dir.lookup name = some bytes ∧ k.jsonDecode bytes = some sidecar ∧
        sidecar.schemaVersion = Chunk.schemaVersion

/-- No marker stands beside a sidecar. -/
def Unmarked (dir : Dir) (name : FileName) : Prop :=
  ∀ stem, stripSuffix metaSuffix name = some stem →
    dir.lookup (Uploader.withExtension stem "uploaded") = none

/-- Every component reads the names that are written for two slots as these slots. -/
structure RoundTrip (k : Codecs) (stream : Stream) (start stop : Nat) : Prop where
  held : ChunkKey.ofSidecar stream (chunkFile start stop "meta.json") = some ⟨stream, start, stop⟩
  catalog : ∀ dir, Stocked k dir (chunkFile start stop "meta.json") → ∃ entry,
    ChunkCatalog.scanEntry k stream dir (chunkFile start stop "meta.json") = some entry ∧
      entry.startSlot = start ∧ entry.endSlotExclusive = stop
  pending : ∀ dir, Unmarked dir (chunkFile start stop "meta.json") →
    Uploader.pendingOf stream dir (chunkFile start stop "meta.json") =
      some ⟨stream, stem start stop, start, stop⟩
  resumed : Recovery.sealedEndSlot (chunkFile start stop "meta.json") = some stop
  listed : ∀ ext ∈ finalExtensions, parseKey (Uploader.objectKey stream start stop ext) =
    some (⟨stream.asStr.toList, start, stop⟩, ext.toList)

/-- A component that recognises a name or its key recognises what is written for the
slots that it reads. -/
structure Written (k : Codecs) (stream : Stream) (name : FileName) : Prop where
  held : ∀ key, ChunkKey.ofSidecar stream name = some key → name = key.file "meta.json"
  catalog : ∀ dir entry, ChunkCatalog.scanEntry k stream dir name = some entry →
    name = chunkFile entry.startSlot entry.endSlotExclusive "meta.json"
  pending : ∀ dir chunk, Uploader.pendingOf stream dir name = some chunk →
    name = chunkFile chunk.startSlot chunk.endSlot "meta.json"
  resumed : ∀ stop, Recovery.sealedEndSlot name = some stop →
    ∃ start < u64Bound, name = chunkFile start stop "meta.json"
  listed : ∀ ext ∈ finalExtensions, ∀ group,
    parseKey (keyOf stream name) = some (group, ext.toList) →
      keyOf stream name = Uploader.objectKey stream group.startSlot group.endSlot ext

/-- All components recognise a sidecar's name, or none does. -/
structure Agreed (k : Codecs) (stream : Stream) (name : FileName) : Prop where
  held : (ChunkKey.ofSidecar stream name).isSome ↔ (Recovery.sealedEndSlot name).isSome
  catalog : ∀ dir, Stocked k dir name →
    ((ChunkCatalog.scanEntry k stream dir name).isSome ↔ (Recovery.sealedEndSlot name).isSome)
  pending : ∀ dir, Unmarked dir name →
    ((Uploader.pendingOf stream dir name).isSome ↔ (Recovery.sealedEndSlot name).isSome)
  listed : (∃ group, parseKey (keyOf stream name) = some (group, "meta.json".toList)) ↔
    (Recovery.sealedEndSlot name).isSome

/-- The objects and files under the names that are rebuilt from slots are there. -/
structure Rebuilt (keys : List (List Char)) (files : Files) : Prop where
  downloaded : ∀ chunk ∈ listChunks keys, ∀ ext ∈ finalExtensions,
    Uploader.objectKey chunk.stream chunk.startSlot chunk.endSlot ext ∈ keys
  swept : ∀ key ∈ Sync.localChunks files, key.file "meta.json" ∈ (files key.stream).keys
  uploaded : ∀ chunk ∈ Uploader.scanPending files,
    chunk.base = stem chunk.startSlot chunk.endSlot ∧
      chunkFile chunk.startSlot chunk.endSlot "meta.json" ∈ (files chunk.stream).keys

/-- If the two texts of a name are recognised as slots, both are runs of digits with the
padding of the format. In a sidecar's name it is enough that the second is recognised. -/
def Padded (name : FileName) : Prop :=
  ∀ start stop, ∀ ext ∈ finalExtensions, Shaped name start stop ext →
    (parseU64 stop).isSome → (ext = "meta.json" ∨ (parseU64 start).isSome) →
      (parseU64 start).isSome ∧ Canonical 12 start ∧ Canonical 12 stop

variable {k : Codecs} {stream : Stream} {dir : Dir} {name : FileName}

/-! ## What each component recognises -/

/-- The suffix of a sidecar is its extension behind a dot. -/
theorem metaSuffix_eq : metaSuffix = '.' :: "meta.json".toList := by decide

/-- A sidecar is named by the stem of its chunk and the suffix. -/
theorem chunkFile_sidecar (start stop : Nat) :
    chunkFile start stop "meta.json" = stem start stop ++ metaSuffix := by
  rw [metaSuffix_eq, chunkFile]

/-- A sidecar's name with a dash is shaped, and conversely. -/
theorem shaped_sidecar_iff {start stop : List Char} :
    Shaped name start stop "meta.json" ↔
      ∃ stem, stripSuffix metaSuffix name = some stem ∧ splitOnce stem = some (start, stop) := by
  constructor
  · rintro ⟨parts, undashed⟩
    rw [← metaSuffix_eq] at parts
    exact ⟨start ++ '-' :: stop, parts ▸ stripSuffix_append _ _,
      splitOnce_iff.mpr ⟨rfl, undashed⟩⟩
  · rintro ⟨stem, stripped, split⟩
    obtain ⟨rfl, undashed⟩ := splitOnce_iff.mp split
    refine ⟨?_, undashed⟩
    rw [← metaSuffix_eq]
    exact stripSuffix_some stripped

/-- The local chunks are those whose sidecar has a name that reads as theirs. -/
theorem ofSidecar_iff (key : ChunkKey) : ChunkKey.ofSidecar stream name = some key ↔
    key.stream = stream ∧ Reads name "meta.json" key.startSlot key.endSlot := by
  simp only [ChunkKey.ofSidecar, Option.bind_eq_bind, Option.bind_eq_some_iff]
  constructor
  · rintro ⟨stem, stripped, ⟨start, stop⟩, split, startSlot, parsed, endSlot, parsed', same⟩
    obtain rfl := Option.some.inj same
    exact ⟨rfl, start, stop, shaped_sidecar_iff.mpr ⟨stem, stripped, split⟩, parsed, parsed'⟩
  · rintro ⟨rfl, start, stop, shaped, parsed, parsed'⟩
    obtain ⟨stem, stripped, split⟩ := shaped_sidecar_iff.mp shaped
    exact ⟨stem, stripped, (start, stop), split, key.startSlot, parsed, key.endSlot, parsed', rfl⟩

/-- A scanned entry has the slots that the name of its sidecar reads as. -/
theorem scanEntry_reads {entry : ChunkEntry}
    (scanned : ChunkCatalog.scanEntry k stream dir name = some entry) :
    Reads name "meta.json" entry.startSlot entry.endSlotExclusive := by
  obtain ⟨text, start, stop, found⟩ := ChunkCatalog.scanEntry_iff.mp scanned
  exact ⟨start, stop, shaped_sidecar_iff.mpr ⟨text, found.stripped, found.parts⟩, found.startRead,
    found.stopRead⟩

/-- A sidecar whose name reads as slots, and that has what a scan asks for beside it, is scanned
with these. -/
theorem scanEntry_of_reads {startSlot endSlot : Nat} (stocked : Stocked k dir name)
    (reads : Reads name "meta.json" startSlot endSlot) :
    ∃ entry, ChunkCatalog.scanEntry k stream dir name = some entry ∧
      entry.startSlot = startSlot ∧ entry.endSlotExclusive = endSlot := by
  obtain ⟨start, stop, shaped, parsed, parsed'⟩ := reads
  obtain ⟨stem, stripped, split⟩ := shaped_sidecar_iff.mp shaped
  obtain ⟨payload, index, bytes, sidecar, stored, decoded, version⟩ := stocked stem stripped
  refine ⟨⟨stream, startSlot, endSlot, stem ++ ".zst".toList, stem ++ ".idx".toList, sidecar⟩, ?_,
    rfl, rfl⟩
  exact ChunkCatalog.scanEntry_iff.mpr ⟨stem, start, stop, stripped, split, parsed, parsed', rfl,
    rfl, rfl, payload, index, ⟨bytes, stored, decoded⟩, version⟩

/-- A pending chunk has the slots that its sidecar's name reads as, and the stem of that name
as its base. -/
theorem pendingOf_some {chunk : PendingChunk}
    (pending : Uploader.pendingOf stream dir name = some chunk) :
    chunk.stream = stream ∧ name = chunk.base ++ metaSuffix ∧
      Reads name "meta.json" chunk.startSlot chunk.endSlot := by
  simp only [Uploader.pendingOf, Option.bind_eq_bind, Option.bind_eq_some_iff] at pending
  obtain ⟨stem, stripped, pending⟩ := pending
  by_cases marked : (dir.lookup (Uploader.withExtension stem "uploaded")).isSome
  · rw [if_pos marked] at pending
    cases pending
  · simp only [if_neg marked, Option.bind_eq_some_iff] at pending
    obtain ⟨startSlot, parsed, endSlot, parsed', same⟩ := pending
    obtain rfl := Option.some.inj same
    refine ⟨rfl, stripSuffix_some stripped, ?_⟩
    cases split : splitOnce stem with
    | none =>
      -- without a dash the second text is empty, which is no number
      rw [split] at parsed'
      cases parsed'
    | some parts =>
      rw [split] at parsed parsed'
      exact ⟨parts.1, parts.2, shaped_sidecar_iff.mpr ⟨stem, stripped, split⟩, parsed, parsed'⟩

/-- An unmarked sidecar whose name reads as slots is pending with these. -/
theorem pendingOf_of_reads (stream : Stream) {startSlot endSlot : Nat} (unmarked : Unmarked dir name)
    (reads : Reads name "meta.json" startSlot endSlot) :
    ∃ base, name = base ++ metaSuffix ∧
      Uploader.pendingOf stream dir name = some ⟨stream, base, startSlot, endSlot⟩ := by
  obtain ⟨start, stop, shaped, parsed, parsed'⟩ := reads
  obtain ⟨stem, stripped, split⟩ := shaped_sidecar_iff.mp shaped
  refine ⟨stem, stripSuffix_some stripped, ?_⟩
  simp only [Uploader.pendingOf, stripped, unmarked stem stripped, split, parsed, parsed',
    Option.bind_eq_bind, Option.bind_some, Option.isSome_none, Bool.false_eq_true, if_false,
    Option.getD_some]

/-- The resume point does not look at the start slot. -/
theorem sealedEndSlot_iff {endSlot : Nat} : Recovery.sealedEndSlot name = some endSlot ↔
    ∃ start stop, Shaped name start stop "meta.json" ∧ parseU64 stop = some endSlot := by
  rw [Recovery.sealedEndSlot]
  constructor
  · intro sealed
    cases stripped : stripSuffix metaSuffix name with
    | none =>
      rw [stripped] at sealed
      cases sealed
    | some stem =>
      rw [stripped] at sealed
      cases split : splitOnce stem with
      | none =>
        simp only [split] at sealed
        cases sealed
      | some parts =>
        simp only [split] at sealed
        exact ⟨parts.1, parts.2, shaped_sidecar_iff.mpr ⟨stem, stripped, split⟩, sealed⟩
  · rintro ⟨start, stop, shaped, parsed⟩
    obtain ⟨stem, stripped, split⟩ := shaped_sidecar_iff.mp shaped
    rw [stripped]
    simp only [split]
    exact parsed

/-- The keys of objects that a listing accepts are those whose names read as the slots of their
group. -/
theorem parseKey_iff {ext : String} (final : ext ∈ finalExtensions) (group : GroupKey) :
    parseKey (keyOf stream name) = some (group, ext.toList) ↔
      group.streamStr = stream.asStr.toList ∧ Reads name ext group.startSlot group.endSlot := by
  rw [parseKey_keyOf, ← parseFile_iff final, Option.map_eq_some_iff]
  constructor
  · rintro ⟨⟨startSlot, endSlot, ext'⟩, parsed, same⟩
    obtain ⟨rfl, rfl⟩ := Prod.mk.inj same
    exact ⟨rfl, parsed⟩
  · rintro ⟨known, parsed⟩
    exact ⟨(group.startSlot, group.endSlot, ext.toList), parsed, by rw [← known]⟩

/-! ## What the format writes -/

/-- The name of a file of a chunk has the shape of one. -/
theorem shaped_chunkFile (start stop : Nat) (ext : String) :
    Shaped (chunkFile start stop ext) (padded 12 start) (padded 12 stop) ext :=
  ⟨rfl, not_mem_padded 12 start '-' (by decide)⟩

/-- The name of a file of a chunk reads as its slots. -/
theorem reads_chunkFile {start stop : Nat} (fits : start < u64Bound) (fits' : stop < u64Bound)
    (ext : String) : Reads (chunkFile start stop ext) ext start stop :=
  ⟨_, _, shaped_chunkFile start stop ext, parseU64_padded start fits, parseU64_padded stop fits'⟩

/-- A number is written with the padding of the format if its text has it. -/
theorem canonical_of_padded (n : Nat) : Canonical 12 (padded 12 n) :=
  (canonical_iff (by decide)).mpr (by rw [padded_value])

/-- A numeral in its only spelling is the padded one. -/
theorem eq_padded {text : List Char} {n : Nat} (parsed : parseU64 text = some n)
    (canonical : Canonical 12 text) : text = padded 12 n := by
  have printed := (canonical_iff (by decide)).mp canonical
  have same : parseU64 (padded 12 (Nat.ofDigitChars 10 text 0)) = some n := printed ▸ parsed
  rw [← parseU64_padded_eq same] at printed
  exact printed

/-- A padded name that is recognised is the one that is written for its slots. -/
theorem Padded.written (isPadded : Padded name) {ext : String} (final : ext ∈ finalExtensions)
    {startSlot endSlot : Nat} (reads : Reads name ext startSlot endSlot) :
    name = chunkFile startSlot endSlot ext := by
  obtain ⟨start, stop, shaped, parsed, parsed'⟩ := reads
  have recognised : (parseU64 start).isSome := Option.isSome_of_eq_some parsed
  obtain ⟨-, canonical, canonical'⟩ := isPadded start stop ext final shaped
    (Option.isSome_of_eq_some parsed') (.inr recognised)
  rw [shaped.parts, eq_padded parsed canonical, eq_padded parsed' canonical']
  rfl

/-- In a padded name the start slot is recognised with the end slot. -/
theorem Padded.reads (isPadded : Padded name) {endSlot : Nat}
    (sealed : Recovery.sealedEndSlot name = some endSlot) :
    ∃ startSlot, Reads name "meta.json" startSlot endSlot := by
  obtain ⟨start, stop, shaped, parsed'⟩ := sealedEndSlot_iff.mp sealed
  obtain ⟨recognised, -, -⟩ := isPadded start stop "meta.json" (by decide) shaped
    (Option.isSome_of_eq_some parsed') (.inl rfl)
  obtain ⟨startSlot, parsed⟩ := Option.isSome_iff_exists.mp recognised
  exact ⟨startSlot, start, stop, shaped, parsed, parsed'⟩

/-- A sidecar whose name reads as slots counts as sealed for the recovery. -/
theorem sealed_of_reads {startSlot endSlot : Nat}
    (reads : Reads name "meta.json" startSlot endSlot) :
    (Recovery.sealedEndSlot name).isSome := by
  obtain ⟨start, stop, shaped, -, parsed'⟩ := reads
  exact Option.isSome_of_eq_some (sealedEndSlot_iff.mpr ⟨start, stop, shaped, parsed'⟩)

/-- The name of a chunk is read back by all that read names. -/
theorem roundTrip (k : Codecs) (stream : Stream) {start stop : Nat} (fits : start < u64Bound)
    (fits' : stop < u64Bound) : RoundTrip k stream start stop where
  held := (ofSidecar_iff _).mpr ⟨rfl, reads_chunkFile fits fits' "meta.json"⟩
  catalog := fun _ stocked => scanEntry_of_reads stocked (reads_chunkFile fits fits' "meta.json")
  pending := by
    intro dir unmarked
    obtain ⟨base, shape, pending⟩ := pendingOf_of_reads stream unmarked
      (reads_chunkFile fits fits' "meta.json")
    rw [chunkFile_sidecar] at shape
    obtain rfl : stem start stop = base := List.append_cancel_right shape
    exact pending
  resumed := sealedEndSlot_iff.mpr
    ⟨_, _, shaped_chunkFile start stop "meta.json", parseU64_padded stop fits'⟩
  listed := fun ext final =>
    (parseKey_iff final ⟨_, start, stop⟩).mpr ⟨rfl, reads_chunkFile fits fits' ext⟩

/-- Of padded names every component recognises what is written. -/
theorem Padded.law (isPadded : Padded name) : Written k stream name := by
  have sidecar : "meta.json" ∈ finalExtensions := by decide
  constructor
  case held =>
    intro key recognised
    exact isPadded.written sidecar ((ofSidecar_iff _).mp recognised).2
  case catalog =>
    intro dir entry scanned
    exact isPadded.written sidecar (scanEntry_reads scanned)
  case pending =>
    intro dir chunk pending
    exact isPadded.written sidecar (pendingOf_some pending).2.2
  case resumed =>
    intro stop sealed
    obtain ⟨start, reads⟩ := isPadded.reads sealed
    have fits : start < u64Bound := by
      obtain ⟨_, _, -, parsed, -⟩ := reads
      exact parseBelow_lt parsed
    exact ⟨start, fits, isPadded.written sidecar reads⟩
  case listed =>
    intro ext final group parsed
    have formatted := isPadded.written final ((parseKey_iff final _).mp parsed).2
    exact congrArg (keyOf stream) formatted

/-- Padded sidecars are recognised by all components alike. -/
theorem Padded.agreed (isPadded : Padded name) : Agreed k stream name := by
  have read : (Recovery.sealedEndSlot name).isSome →
      ∃ startSlot endSlot, Reads name "meta.json" startSlot endSlot := by
    intro sealed
    obtain ⟨endSlot, sealed⟩ := Option.isSome_iff_exists.mp sealed
    obtain ⟨startSlot, reads⟩ := isPadded.reads sealed
    exact ⟨startSlot, endSlot, reads⟩
  constructor
  case held =>
    constructor
    · intro recognised
      obtain ⟨key, recognised⟩ := Option.isSome_iff_exists.mp recognised
      exact sealed_of_reads ((ofSidecar_iff _).mp recognised).2
    · intro sealed
      obtain ⟨startSlot, endSlot, reads⟩ := read sealed
      exact Option.isSome_of_eq_some
        ((ofSidecar_iff ⟨stream, startSlot, endSlot⟩).mpr ⟨rfl, reads⟩)
  case catalog =>
    intro dir stocked
    constructor
    · intro recognised
      obtain ⟨entry, scanned⟩ := Option.isSome_iff_exists.mp recognised
      exact sealed_of_reads (scanEntry_reads scanned)
    · intro sealed
      obtain ⟨startSlot, endSlot, reads⟩ := read sealed
      obtain ⟨entry, scanned, -⟩ := scanEntry_of_reads stocked reads
      exact Option.isSome_of_eq_some scanned
  case pending =>
    intro dir unmarked
    constructor
    · intro recognised
      obtain ⟨chunk, pending⟩ := Option.isSome_iff_exists.mp recognised
      exact sealed_of_reads (pendingOf_some pending).2.2
    · intro sealed
      obtain ⟨startSlot, endSlot, reads⟩ := read sealed
      obtain ⟨base, -, pending⟩ := pendingOf_of_reads stream unmarked reads
      exact Option.isSome_of_eq_some pending
  case listed =>
    constructor
    · rintro ⟨group, parsed⟩
      exact sealed_of_reads ((parseKey_iff (by decide) _).mp parsed).2
    · intro sealed
      obtain ⟨startSlot, endSlot, reads⟩ := read sealed
      exact ⟨⟨stream.asStr.toList, startSlot, endSlot⟩, (parseKey_iff (by decide) _).mpr ⟨rfl, reads⟩⟩

/-- Names of which only what is written is recognised are padded. -/
theorem Written.padded (written : Written k stream name) : Padded name := by
  intro start stop ext final shaped recognised' recognised
  obtain ⟨endSlot, parsed'⟩ := Option.isSome_iff_exists.mp recognised'
  have formatted : ∃ startSlot < u64Bound, ∃ endSlot, name = chunkFile startSlot endSlot ext := by
    rcases recognised with rfl | recognised
    · obtain ⟨startSlot, fits, shape⟩ :=
        written.resumed endSlot (sealedEndSlot_iff.mpr ⟨start, stop, shaped, parsed'⟩)
      exact ⟨startSlot, fits, endSlot, shape⟩
    · obtain ⟨startSlot, parsed⟩ := Option.isSome_iff_exists.mp recognised
      have listed := written.listed ext final ⟨stream.asStr.toList, startSlot, endSlot⟩
        ((parseKey_iff final _).mpr ⟨rfl, start, stop, shaped, parsed, parsed'⟩)
      exact ⟨startSlot, parseBelow_lt parsed, endSlot,
        (List.cons.inj (List.append_cancel_left listed)).2⟩
  obtain ⟨startSlot, fits, endSlot, rfl⟩ := formatted
  obtain ⟨rfl, rfl⟩ := shaped.unique (shaped_chunkFile startSlot endSlot ext)
  exact ⟨Option.isSome_of_eq_some (parseU64_padded startSlot fits), canonical_of_padded startSlot,
    canonical_of_padded endSlot⟩

/-! ## What is rebuilt -/

/-- Where all names are padded, what is rebuilt from slots is what was listed. -/
theorem rebuilt_of_padded {keys : List (List Char)} {files : Files}
    (paddedKeys : ∀ stream name, keyOf stream name ∈ keys → Padded name)
    (paddedFiles : ∀ stream, ∀ name ∈ (files stream).keys, Padded name) : Rebuilt keys files where
  downloaded := by
    intro chunk listed ext final
    obtain ⟨key, isKey, parsed⟩ := mem_listChunks listed ext final
    obtain ⟨name, rfl, -⟩ := parseKey_some parsed
    have isPadded : Padded name := paddedKeys chunk.stream name isKey
    have reads := ((parseKey_iff final _).mp parsed).2
    have formatted : keyOf chunk.stream name =
        Uploader.objectKey chunk.stream chunk.startSlot chunk.endSlot ext :=
      congrArg (keyOf chunk.stream) (isPadded.written final reads)
    exact formatted ▸ isKey
  swept := by
    intro key isHeld
    obtain ⟨stream, -, found⟩ := List.mem_flatMap.mp (List.mem_toFinset.mp isHeld)
    obtain ⟨name, present, recognised⟩ := List.mem_filterMap.mp found
    obtain ⟨rfl, reads⟩ := (ofSidecar_iff _).mp recognised
    have formatted : name = key.file "meta.json" :=
      (paddedFiles key.stream name present).written (by decide) reads
    exact formatted ▸ present
  uploaded := by
    intro chunk waiting
    obtain ⟨stream, -, found⟩ := List.mem_flatMap.mp
      ((List.perm_insertionSort Uploader.precedes _).mem_iff.mp waiting)
    obtain ⟨name, present, pending⟩ := List.mem_filterMap.mp found
    obtain ⟨rfl, shape, reads⟩ := pendingOf_some pending
    have formatted := (paddedFiles chunk.stream name present).written (by decide) reads
    refine ⟨?_, formatted ▸ present⟩
    rw [shape, chunkFile_sidecar] at formatted
    exact List.append_cancel_right formatted

/-- All components read what the format writes. A name is recognised only as written, and
by all components alike, if and only if its numbers are padded as in the format. Where all
names are, the objects and files under the rebuilt names are those that were listed. -/
theorem chunk_names_iff (k : Codecs) :
    (∀ stream start stop, start < u64Bound → stop < u64Bound → RoundTrip k stream start stop) ∧
    (∀ stream name, Written k stream name ∧ Agreed k stream name ↔ Padded name) ∧
    ∀ keys files, (∀ stream name, keyOf stream name ∈ keys → Padded name) →
      (∀ stream, ∀ name ∈ (files stream).keys, Padded name) → Rebuilt keys files := by
  refine ⟨?_, ?_, ?_⟩
  · intro stream start stop fits fits'
    exact roundTrip k stream fits fits'
  · intro stream name
    constructor
    · exact fun law => law.1.padded
    · exact fun isPadded => ⟨isPadded.law, isPadded.agreed⟩
  · intro keys files paddedKeys paddedFiles
    exact rebuilt_of_padded paddedKeys paddedFiles

/-- The names of the chunk from slot 5 to slot 10 are read by all components, and its
sidecar's name is recognised as written and by all alike. -/
theorem chunk_names_iff_five :
    RoundTrip PlainCodecs.plain .tx 5 10 ∧
      Written PlainCodecs.plain .tx (chunkFile 5 10 "meta.json") ∧
        Agreed PlainCodecs.plain .tx (chunkFile 5 10 "meta.json") := by
  refine ⟨(chunk_names_iff PlainCodecs.plain).1 .tx 5 10 (by decide) (by decide), ?_⟩
  refine ((chunk_names_iff PlainCodecs.plain).2.1 .tx _).mpr ?_
  intro start stop ext final shaped recognised' recognised
  simp only [finalExtensions, List.mem_cons, List.not_mem_nil, or_false] at final
  rcases final with rfl | rfl | rfl
  · have last : (chunkFile 5 10 "meta.json").getLast? = some 't' := by
      rw [shaped.parts, List.getLast?_append, List.getLast?_cons]
      rfl
    exact absurd last (by decide +kernel)
  · have last : (chunkFile 5 10 "meta.json").getLast? = some 'x' := by
      rw [shaped.parts, List.getLast?_append, List.getLast?_cons]
      rfl
    exact absurd last (by decide +kernel)
  · obtain ⟨rfl, rfl⟩ := shaped.unique (shaped_chunkFile 5 10 "meta.json")
    exact ⟨by decide +kernel, canonical_of_padded 5, canonical_of_padded 10⟩

/-- The keys of a chunk whose slots are written without padding. -/
def bareKeys : List (List Char) :=
  ["chunks/tx/5-10.zst", "chunks/tx/5-10.idx", "chunks/tx/5-10.meta.json"].map String.toList

/-- A chunk without padding is listed, but none of its objects has a rebuilt key; its
sidecar is held under another name; and the resume point recognises a sidecar whose first
text is no number, which the syncer does not recognise. -/
theorem bare_names_recognised :
    ¬ Rebuilt bareKeys (fun _ => ∅) ∧
    ¬ Written PlainCodecs.plain .tx "5-10.meta.json".toList ∧
    ¬ Agreed PlainCodecs.plain .tx "abc-5.meta.json".toList := by
  refine ⟨?_, ?_, ?_⟩
  · intro rebuilt
    have listed :
        ⟨.tx, 5, 10, "chunks/tx/000000000005-000000000010".toList⟩ ∈ listChunks bareKeys := by
      decide +kernel
    have rebuiltKey := rebuilt.downloaded _ listed "zst" (by decide)
    exact absurd rebuiltKey (by decide +kernel)
  · intro written
    have recognised : ChunkKey.ofSidecar .tx "5-10.meta.json".toList = some ⟨.tx, 5, 10⟩ := by
      decide +kernel
    exact absurd (written.held _ recognised) (by decide +kernel)
  · intro agreed
    have ignored : ¬ (ChunkKey.ofSidecar .tx "abc-5.meta.json".toList).isSome := by decide +kernel
    exact ignored (agreed.held.mpr (by decide +kernel))

end Naming

end Sillage
