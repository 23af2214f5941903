import Mathlib.Data.Finset.Card
import Mathlib.Data.Finset.Max
import Sillage.Writer.Chunker

/-!
# What a chunker has recorded

A ledger is the abstract view of a chunker: its watermark, which chunks are open,
and the messages appended to each chunk so far. A chunk that holds messages and is
not open is sealed. The chunker represents a ledger when every open chunk and
every file on disk is determined by it.

Each operation of the chunker is one move of the ledger.
-/

namespace Sillage

open LittleEndian Idx Chunk Directory Names

namespace OpenChunk

/-- The index of a list of updates; ordinals are narrowed to 32 bits. -/
def indexed (stream : Stream) (updates : List SubscribeUpdate) : IndexBuilder :=
  updates.zipIdx.foldl
    (fun index entry => IndexBuilder.observe index (entry.2 % u32Bound) entry.1)
    (IndexBuilder.forStream stream)

/-- The payload of a list of messages before compression. -/
def payload (k : Codecs) (arrivals : List Arrival) : Bytes :=
  framed (arrivals.map (fun a => k.prostEncode a.msg.inner))

/-- The open chunk of an index that holds the given messages. -/
def holding (k : Codecs) (stream : Stream) (cfg : WriterConfig) (idx opening : Nat)
    (arrivals : List Arrival) : OpenChunk where
  startSlot := idx * cfg.slotsPerChunk
  endSlotExclusive := idx * cfg.slotsPerChunk + cfg.slotsPerChunk
  encoder := some (payload k arrivals)
  messageCount := arrivals.length
  uncompressedBytes := (payload k arrivals).length
  firstMessageSlot := (arrivals.map (·.slot)).min?
  lastMessageSlot := (arrivals.map (·.slot)).max?
  recvNsFirst := (arrivals.map (·.msg.wallNs)).min?
  recvNsLast := (arrivals.map (·.msg.wallNs)).max?
  lastActivity := (arrivals.getLast?.map (·.now)).getD opening
  index := indexed stream (arrivals.map (·.msg.inner))

/-- The minimum behind one more number. -/
theorem min?_concat (items : List Nat) (item : Nat) :
    (items ++ [item]).min? = some (items.min?.elim item (min · item)) := by
  cases items with
  | nil => rfl
  | cons first rest => simp only [List.cons_append, List.min?_cons', List.foldl_append,
      List.foldl_cons, List.foldl_nil, Option.elim_some]

/-- The maximum behind one more number. -/
theorem max?_concat (items : List Nat) (item : Nat) :
    (items ++ [item]).max? = some (items.max?.elim item (max · item)) := by
  cases items with
  | nil => rfl
  | cons first rest => simp only [List.cons_append, List.max?_cons', List.foldl_append,
      List.foldl_cons, List.foldl_nil, Option.elim_some]

/-- The index behind one more message. -/
theorem indexed_concat (stream : Stream) (updates : List SubscribeUpdate)
    (update : SubscribeUpdate) :
    indexed stream (updates ++ [update]) =
      IndexBuilder.observe (indexed stream updates) (updates.length % u32Bound) update := by
  simp [indexed, List.zipIdx_append]

/-- The payload behind one more message. -/
theorem payload_concat (k : Codecs) (arrivals : List Arrival) (a : Arrival) :
    payload k (arrivals ++ [a]) =
      payload k arrivals ++ writeLenPrefixed [] (k.prostEncode a.msg.inner) := by
  simp [payload, framed_append, writeLenPrefixed]

/-- Appending to a chunk that holds some messages holds one more. -/
theorem append_holding (k : Codecs) (stream : Stream) (cfg : WriterConfig) (idx opening : Nat)
    (arrivals : List Arrival) (a : Arrival) :
    (holding k stream cfg idx opening arrivals).append k a =
      .ok (holding k stream cfg idx opening (arrivals ++ [a])) := by
  simp only [append, holding, payload_concat, List.map_append, List.map_cons, List.map_nil,
    List.length_append, List.length_cons, List.length_nil, min?_concat, max?_concat,
    indexed_concat, List.length_map, List.getLast?_append, List.getLast?_singleton,
    Option.some_or, Option.map_some, Option.getD_some]

/-- While the ordinals fit, the index is that of observing the updates in order. -/
theorem indexed_observeFrom (stream : Stream) (updates : List SubscribeUpdate)
    (fits : updates.length ≤ u32Bound) :
    indexed stream updates =
      IndexBuilder.observeFrom (IndexBuilder.forStream stream) 0 updates := by
  have general : ∀ (later : List SubscribeUpdate) (offset : Nat) (builder : IndexBuilder),
      offset + later.length ≤ u32Bound →
      (later.zipIdx offset).foldl
        (fun index entry => IndexBuilder.observe index (entry.2 % u32Bound) entry.1) builder =
        IndexBuilder.observeFrom builder offset later := by
    intro later
    induction later with
    | nil => exact fun _ _ _ => rfl
    | cons update rest inductionHypothesis =>
      intro offset builder within
      simp only [List.length_cons] at within
      simp only [List.zipIdx_cons, List.foldl_cons, IndexBuilder.observeFrom]
      rw [inductionHypothesis _ _ (by omega), Nat.mod_eq_of_lt (by omega)]
  exact general updates 0 _ (by omega)

end OpenChunk

open OpenChunk

/-- The extensions of a sealed chunk's files. -/
def finalExtensions : List String := ["zst", "idx", "meta.json"]

/-- A file of the chunk with the given index. -/
def chunkName (cfg : WriterConfig) (idx : Nat) (ext : String) : FileName :=
  chunkFile (idx * cfg.slotsPerChunk) (idx * cfg.slotsPerChunk + cfg.slotsPerChunk) ext

/-- Files of a lane are told apart by index and extension. -/
theorem chunkName_injective {cfg : WriterConfig} (positive : 0 < cfg.slotsPerChunk)
    {idx idx' : Nat} {ext ext' : String} (same : chunkName cfg idx ext = chunkName cfg idx' ext') :
    idx = idx' ∧ ext = ext' := by
  obtain ⟨starts, -, exts⟩ := chunkFile_injective same
  exact ⟨Nat.eq_of_mul_eq_mul_right positive starts, exts⟩

/-- Files of one chunk are told apart by extension. -/
@[simp] theorem chunkName_ext {cfg : WriterConfig} {idx : Nat} {ext ext' : String} :
    chunkName cfg idx ext = chunkName cfg idx ext' ↔ ext = ext' :=
  ⟨fun same => (chunkFile_injective same).2.2, fun same => same ▸ rfl⟩

/-- The files of a chunk that is held are named after its index. -/
@[simp] theorem holding_file (k : Codecs) (stream : Stream) (cfg : WriterConfig)
    (idx opening : Nat) (arrivals : List Arrival) (ext : String) :
    (holding k stream cfg idx opening arrivals).file ext = chunkName cfg idx ext := rfl

/-- The three files that sealing the given messages leaves behind. -/
structure SealedFiles (k : Codecs) (stream : Stream) (cfg : WriterConfig) (dir : Dir) (idx : Nat)
    (arrivals : List Arrival) (reason : String) : Prop where
  compressed : dir.lookup (chunkName cfg idx "zst") = some (k.zstdEncode (payload k arrivals))
  index : dir.lookup (chunkName cfg idx "idx") =
    some ((holding k stream cfg idx 0 arrivals).indexBytes k)
  sidecar : dir.lookup (chunkName cfg idx "meta.json") =
    some (k.jsonEncode (OpenChunk.sidecar stream (holding k stream cfg idx 0 arrivals)
      (k.zstdEncode (payload k arrivals)) reason))

/-- A directory in which every chunk with messages is sealed and nothing else lies. -/
structure Archive (k : Codecs) (stream : Stream) (cfg : WriterConfig) (dir : Dir)
    (contents : Nat → List Arrival) : Prop where
  chunks : ∀ idx, contents idx ≠ [] →
    ∃ reason, SealedFiles k stream cfg dir idx (contents idx) reason
  only : ∀ name content, dir.lookup name = some content →
    ∃ idx ext, contents idx ≠ [] ∧ ext ∈ finalExtensions ∧ name = chunkName cfg idx ext

/-- The empty directory archives nothing. -/
theorem archive_empty (k : Codecs) (stream : Stream) (cfg : WriterConfig) :
    Archive k stream cfg ∅ (fun _ => []) :=
  ⟨by simp, by simp⟩

/-- The abstract view of a chunker. -/
structure Ledger where
  watermark : Option Nat
  opened : Finset Nat
  contents : Nat → List Arrival

/-- A chunker represents a ledger: the same chunks are open, each holds its messages,
and the directory holds the files of the sealed chunks and the payloads in progress. -/
structure Represents (k : Codecs) (stream : Stream) (cfg : WriterConfig) (s : Chunker)
    (l : Ledger) : Prop where
  sameStream : s.stream = stream
  sameCfg : s.cfg = cfg
  sameWatermark : s.watermarkSlot = l.watermark
  opened : ∀ idx, idx ∈ s.open ↔ idx ∈ l.opened
  holds : ∀ idx chunk, s.open[idx]? = some chunk →
    ∃ opening, chunk = holding k stream cfg idx opening (l.contents idx)
  chunks : ∀ idx, idx ∉ l.opened → l.contents idx ≠ [] →
    ∃ reason, SealedFiles k stream cfg s.baseDir idx (l.contents idx) reason
  only : ∀ name content, s.baseDir.lookup name = some content →
    (∃ idx ∈ l.opened, name = chunkName cfg idx "zst.partial") ∨
      ∃ idx ext, idx ∉ l.opened ∧ l.contents idx ≠ [] ∧ ext ∈ finalExtensions ∧
        name = chunkName cfg idx ext

/-- Over an archive a new chunker represents the ledger of what is sealed there. -/
theorem represents_new {k : Codecs} {stream : Stream} {cfg : WriterConfig} {dir : Dir}
    {contents : Nat → List Arrival} (archive : Archive k stream cfg dir contents) :
    Represents k stream cfg (Chunker.new stream cfg dir) ⟨none, ∅, contents⟩ where
  sameStream := rfl
  sameCfg := rfl
  sameWatermark := rfl
  opened idx := by simp [Chunker.new]
  holds idx chunk found := by simp [Chunker.new] at found
  chunks idx _ full := archive.chunks idx full
  only name content found := by
    obtain ⟨idx, ext, full, final, same⟩ := archive.only name content found
    exact .inr ⟨idx, ext, by simp, full, final, same⟩

/-- With nothing open, the directory of a chunker is the archive of its ledger. -/
theorem Represents.archive {k : Codecs} {stream : Stream} {cfg : WriterConfig} {s : Chunker}
    {l : Ledger} (represents : Represents k stream cfg s l) (closed : l.opened = ∅) :
    Archive k stream cfg s.baseDir l.contents where
  chunks idx full := represents.chunks idx (by simp [closed]) full
  only name content found := by
    rcases represents.only name content found with ⟨idx, member, -⟩ | ⟨idx, ext, -, full, final, same⟩
    · simp [closed] at member
    · exact ⟨idx, ext, full, final, same⟩

namespace Ledger

/-- Raise the watermark. -/
def advance (slot : Nat) (l : Ledger) : Ledger :=
  { l with watermark := some (l.watermark.elim slot (max · slot)) }

/-- A chunk is opened. -/
def begin (idx : Nat) (l : Ledger) : Ledger := { l with opened := insert idx l.opened }

/-- A message is appended to a chunk. -/
def record (idx : Nat) (a : Arrival) (l : Ledger) : Ledger :=
  { l with contents := Function.update l.contents idx (l.contents idx ++ [a]) }

/-- A set of chunks is sealed. -/
def close (sealed : Finset Nat) (l : Ledger) : Ledger := { l with opened := l.opened \ sealed }

/-- Every open chunk holds a message, and its successors fit 64 bits. -/
structure Settled (l : Ledger) : Prop where
  filled : ∀ idx ∈ l.opened, l.contents idx ≠ []
  within : ∀ idx ∈ l.opened, idx + sealLookaheadChunks < u64Bound

end Ledger

section Moves

variable {k : Codecs} {stream : Stream} {cfg : WriterConfig} {s : Chunker} {l : Ledger}

/-- Raising the watermark keeps the chunker and the ledger in step. -/
theorem represents_advance (slot : Nat) (represents : Represents k stream cfg s l) :
    Represents k stream cfg (s.advance slot) (l.advance slot) :=
  { represents with
    sameWatermark := by simp [Chunker.advance, Ledger.advance, represents.sameWatermark] }

/-- Files of an open chunk are told apart by extension. -/
theorem file_injective (chunk : OpenChunk) {ext ext' : String} :
    chunk.file ext = chunk.file ext' ↔ ext = ext' :=
  ⟨fun same => (chunkFile_injective same).2.2, fun same => same ▸ rfl⟩

/-- Sealing leaves the three final files, removes the temporary ones and touches
nothing else. -/
theorem lookup_sealSteps (dir : Dir) (chunk : OpenChunk) (written : Bytes) (reason : String)
    (asked : FileName) :
    (perform dir (chunk.sealSteps k stream written reason)).lookup asked =
      if asked = chunk.file "zst" then some (k.zstdEncode written)
      else if asked = chunk.file "idx" then some (chunk.indexBytes k)
      else if asked = chunk.file "meta.json" then
        some (k.jsonEncode (sidecar stream chunk (k.zstdEncode written) reason))
      else if asked = chunk.file "zst.partial" ∨ asked = chunk.file "idx.partial" ∨
          asked = chunk.file "meta.json.partial" then none
      else dir.lookup asked := by
  simp only [perform, sealSteps, List.foldl_cons, List.foldl_nil]
  simp only [lookup_renamed, lookup_write, lookup_create, file_injective, String.reduceEq,
    if_true, if_false]
  -- the same name may stand in several tests; decide which of the six was asked for
  by_cases zst : asked = chunk.file "zst"
  · simp [zst, file_injective]
  by_cases idx : asked = chunk.file "idx"
  · simp [idx, file_injective]
  by_cases sidecar : asked = chunk.file "meta.json"
  · simp [sidecar, file_injective]
  by_cases zstPartial : asked = chunk.file "zst.partial"
  · simp [zstPartial, file_injective]
  by_cases idxPartial : asked = chunk.file "idx.partial"
  · simp [idxPartial, file_injective]
  by_cases metaPartial : asked = chunk.file "meta.json.partial"
  · simp [metaPartial, file_injective]
  simp [zst, idx, sidecar, zstPartial, idxPartial, metaPartial]

/-- An open chunk of a represented ledger, with the messages it holds. -/
theorem Represents.chunk (represents : Represents k stream cfg s l) {idx : Nat}
    (member : idx ∈ l.opened) :
    ∃ opening, s.open[idx]? = some (holding k stream cfg idx opening (l.contents idx)) := by
  have isOpen : idx ∈ s.open := (represents.opened idx).mpr member
  rw [Std.TreeMap.mem_iff_isSome_getElem?] at isOpen
  obtain ⟨chunk, found⟩ := Option.isSome_iff_exists.mp isOpen
  obtain ⟨opening, same⟩ := represents.holds idx chunk found
  exact ⟨opening, same ▸ found⟩

/-- Sealing a chunk leaves its three files. -/
theorem sealedFiles_perform (dir : Dir) (idx opening : Nat) (arrivals : List Arrival)
    (reason : String) :
    SealedFiles k stream cfg (perform dir ((holding k stream cfg idx opening arrivals).sealSteps k
      stream (payload k arrivals) reason)) idx arrivals reason where
  compressed := by simp [lookup_sealSteps]
  index := by
    simp only [lookup_sealSteps, holding_file, chunkName_ext, String.reduceEq, if_true, if_false]
    rfl
  sidecar := by
    simp only [lookup_sealSteps, holding_file, chunkName_ext, String.reduceEq, if_true, if_false]
    rfl

/-- The files of one chunk are not those of another. -/
theorem lookup_sealSteps_other (positive : 0 < cfg.slotsPerChunk) (dir : Dir)
    {idx other opening : Nat} (distinct : other ≠ idx) (arrivals : List Arrival) (written : Bytes)
    (reason ext : String) :
    (perform dir ((holding k stream cfg idx opening arrivals).sealSteps k stream written
      reason)).lookup (chunkName cfg other ext) = dir.lookup (chunkName cfg other ext) := by
  have apart : ∀ ext', chunkName cfg other ext ≠ chunkName cfg idx ext' :=
    fun ext' same => distinct (chunkName_injective positive same).1
  simp [lookup_sealSteps, apart]

/-- Sealing an open chunk closes it in the ledger; a chunk is only sealed with
messages in it. -/
theorem represents_seal (positive : 0 < cfg.slotsPerChunk) (reason : String)
    (represents : Represents k stream cfg s l) {idx : Nat} (member : idx ∈ l.opened)
    (filled : l.contents idx ≠ []) :
    ∃ s', Chunker.sealChunk k reason idx s = .ok s' ∧
      Represents k stream cfg s' (l.close {idx}) := by
  obtain ⟨opening, found⟩ := represents.chunk member
  obtain ⟨sameStream, sameCfg, sameWatermark, opened, holds, chunks, only⟩ := represents
  refine ⟨{ s with
      «open» := s.open.erase idx
      baseDir := perform s.baseDir ((holding k stream cfg idx opening (l.contents idx)).sealSteps
        k s.stream (payload k (l.contents idx)) reason) },
    by simp only [Chunker.sealChunk, found]; rfl, sameStream, sameCfg, sameWatermark, ?_, ?_, ?_,
    ?_⟩
  · intro i
    simp only [Std.TreeMap.mem_erase, ne_eq, Std.LawfulEqCmp.compare_eq_iff_eq, opened,
      Ledger.close, Finset.mem_sdiff, Finset.mem_singleton]
    rw [and_comm, eq_comm]
  · intro i chunk stored
    refine holds i chunk ?_
    rw [Std.TreeMap.getElem?_erase] at stored
    split at stored
    · cases stored
    · exact stored
  · intro i closed full
    simp only [sameStream]
    by_cases same : i = idx
    · subst same
      exact ⟨reason, sealedFiles_perform _ _ _ _ _⟩
    · have wasClosed : i ∉ l.opened := fun wasOpen => closed (by simp [Ledger.close, wasOpen, same])
      obtain ⟨before, files⟩ := chunks i wasClosed full
      exact ⟨before, (lookup_sealSteps_other positive _ same _ _ _ _).trans files.compressed,
        (lookup_sealSteps_other positive _ same _ _ _ _).trans files.index,
        (lookup_sealSteps_other positive _ same _ _ _ _).trans files.sidecar⟩
  · intro name content stored
    have finals : ∀ ext ∈ finalExtensions, name = chunkName cfg idx ext →
        ∃ i ext', i ∉ l.opened \ {idx} ∧ l.contents i ≠ [] ∧ ext' ∈ finalExtensions ∧
          name = chunkName cfg i ext' := fun ext final same => ⟨idx, ext, by simp, filled, final, same⟩
    rw [lookup_sealSteps] at stored
    split at stored
    · next same => exact .inr (finals "zst" (by decide) same)
    split at stored
    · next same => exact .inr (finals "idx" (by decide) same)
    split at stored
    · next same => exact .inr (finals "meta.json" (by decide) same)
    split at stored
    · cases stored
    · next others =>
      rcases only name content stored with ⟨i, wasOpen, named⟩ | ⟨i, ext, wasClosed, full, final, named⟩
      · refine .inl ⟨i, ?_, named⟩
        have distinct : i ≠ idx := by
          rintro rfl
          exact others (.inl named)
        simp [Ledger.close, wasOpen, distinct]
      · exact .inr ⟨i, ext, by simp [Ledger.close, wasClosed], full, final, named⟩

/-- Opening a chunk that was never used begins it in the ledger; a chunk that is
sealed stays as it is. -/
theorem represents_open (positive : 0 < cfg.slotsPerChunk) (now : Nat)
    (represents : Represents k stream cfg s l) {idx : Nat} (unopened : idx ∉ l.opened)
    (fits : idx * cfg.slotsPerChunk + cfg.slotsPerChunk < u64Bound) :
    ∃ s', Chunker.openChunk now idx s = .ok s' ∧
      Represents k stream cfg s' (if l.contents idx = [] then l.begin idx else l) := by
  have notOpen : ¬ s.open.contains idx = true := by
    rw [Std.TreeMap.contains_iff_mem, represents.opened]
    exact unopened
  have original := represents
  obtain ⟨rfl, rfl, sameWatermark, opened, holds, chunks, only⟩ := represents
  have start : checkedMul u64Bound idx s.cfg.slotsPerChunk = .ok (idx * s.cfg.slotsPerChunk) :=
    if_pos (by omega)
  have stop : checkedAdd (idx * s.cfg.slotsPerChunk) s.cfg.slotsPerChunk =
      .ok (idx * s.cfg.slotsPerChunk + s.cfg.slotsPerChunk) := if_pos fits
  simp only [Chunker.openChunk, notOpen, if_false, start, stop, bind, Except.bind,
    Bool.false_eq_true, OpenChunk.file]
  change ∃ s', (if (s.baseDir.lookup (chunkName s.cfg idx "zst")).isSome ∨
    (s.baseDir.lookup (chunkName s.cfg idx "meta.json")).isSome then _ else _) = _ ∧ _
  by_cases unused : l.contents idx = []
  · have absent : ∀ ext ∈ finalExtensions, s.baseDir.lookup (chunkName s.cfg idx ext) = none := by
      intro ext final
      cases stored : s.baseDir.lookup (chunkName s.cfg idx ext) with
      | none => rfl
      | some content =>
        rcases only _ content stored with ⟨i, wasOpen, named⟩ | ⟨i, ext', _, full, _, named⟩
        · exact absurd ((chunkName_injective positive named).1 ▸ wasOpen) unopened
        · exact absurd unused ((chunkName_injective positive named).1 ▸ full)
    rw [absent "zst" (by decide), absent "meta.json" (by decide), if_neg (by simp), if_pos unused]
    refine ⟨{ s with
        baseDir := FileStep.apply s.baseDir (.create (chunkName s.cfg idx "zst.partial"))
        «open» := s.open.insert idx (holding k s.stream s.cfg idx now []) },
      rfl, rfl, rfl, sameWatermark, ?_, ?_, ?_, ?_⟩
    · intro i
      simp only [Std.TreeMap.mem_insert, Std.LawfulEqCmp.compare_eq_iff_eq, opened, Ledger.begin,
        Finset.mem_insert]
      rw [eq_comm]
    · intro i chunk stored
      rw [Std.TreeMap.getElem?_insert] at stored
      split at stored
      · next same =>
        have isIdx : idx = i := Std.LawfulEqCmp.compare_eq_iff_eq.mp same
        subst isIdx
        exact ⟨now, by simpa [Ledger.begin, unused] using (Option.some.inj stored).symm⟩
      · exact holds i chunk stored
    · intro i closed full
      have wasClosed : i ∉ l.opened := fun wasOpen => closed (by simp [Ledger.begin, wasOpen])
      obtain ⟨reason, files⟩ := chunks i wasClosed full
      have other : ∀ ext, chunkName s.cfg i ext ≠ chunkName s.cfg idx "zst.partial" := by
        intro ext same
        exact full ((chunkName_injective positive same).1 ▸ unused)
      exact ⟨reason, (lookup_untouched _ _ _ (by simpa [FileStep.touches] using other _)).trans
          files.compressed,
        (lookup_untouched _ _ _ (by simpa [FileStep.touches] using other _)).trans files.index,
        (lookup_untouched _ _ _ (by simpa [FileStep.touches] using other _)).trans files.sidecar⟩
    · intro name content stored
      rw [lookup_create] at stored
      split at stored
      · next named => exact .inl ⟨idx, by simp [Ledger.begin], named⟩
      · rcases only name content stored with ⟨i, wasOpen, named⟩ | ⟨i, ext, wasClosed, full, final, named⟩
        · exact .inl ⟨i, by simp [Ledger.begin, wasOpen], named⟩
        · refine .inr ⟨i, ext, ?_, full, final, named⟩
          have distinct : i ≠ idx := by
            rintro rfl
            exact full unused
          simp [Ledger.begin, wasClosed, distinct]
  · obtain ⟨reason, files⟩ := chunks idx unopened unused
    have taken : (s.baseDir.lookup (chunkName s.cfg idx "zst")).isSome = true := by
      simp [files.compressed]
    rw [if_pos (.inl taken), if_neg unused]
    exact ⟨s, rfl, original⟩

/-- Appending to an open chunk records the message. -/
theorem represents_append (represents : Represents k stream cfg s l) {idx : Nat} (a : Arrival)
    (member : idx ∈ l.opened) :
    ∃ s', Chunker.appendTo k idx a s = .ok (.appended, s') ∧
      Represents k stream cfg s' (l.record idx a) := by
  obtain ⟨opening, found⟩ := represents.chunk member
  obtain ⟨sameStream, sameCfg, sameWatermark, opened, holds, chunks, only⟩ := represents
  simp only [Chunker.appendTo, found, append_holding, bind, Except.bind]
  refine ⟨_, rfl, sameStream, sameCfg, sameWatermark, ?_, ?_, ?_, ?_⟩
  · intro i
    simp only [Std.TreeMap.mem_insert, Std.LawfulEqCmp.compare_eq_iff_eq, opened, Ledger.record,
      or_iff_right_iff_imp]
    exact fun same => same ▸ member
  · intro i chunk stored
    rw [Std.TreeMap.getElem?_insert] at stored
    split at stored
    · next same =>
      have isIdx : idx = i := Std.LawfulEqCmp.compare_eq_iff_eq.mp same
      subst isIdx
      exact ⟨opening, by simpa [Ledger.record] using (Option.some.inj stored).symm⟩
    · next other =>
      have distinct : i ≠ idx := fun same => other (Std.LawfulEqCmp.compare_eq_iff_eq.mpr same.symm)
      simpa [Ledger.record, Function.update_of_ne distinct] using holds i chunk stored
  · intro i closed full
    have distinct : i ≠ idx := fun same => closed (same ▸ member)
    simp only [Ledger.record, Function.update_of_ne distinct] at full ⊢
    exact chunks i closed full
  · intro name content stored
    rcases only name content stored with opened | ⟨i, ext, wasClosed, full, final, named⟩
    · exact .inl opened
    · have distinct : i ≠ idx := fun same => wasClosed (same ▸ member)
      exact .inr ⟨i, ext, wasClosed, by simpa [Ledger.record, Function.update_of_ne distinct],
        final, named⟩

/-- A message whose chunk is not open is not recorded. -/
theorem represents_refused (represents : Represents k stream cfg s l) {idx : Nat} (a : Arrival)
    (unopened : idx ∉ l.opened) : Chunker.appendTo k idx a s = .ok (.alreadySealed, s) := by
  have missing : s.open[idx]? = none := by
    cases found : s.open[idx]? with
    | none => rfl
    | some chunk =>
      have isOpen : idx ∈ s.open := Std.TreeMap.mem_iff_isSome_getElem?.mpr (by simp [found])
      exact absurd ((represents.opened idx).mp isOpen) unopened
  simp [Chunker.appendTo, missing]

end Moves

end Sillage
