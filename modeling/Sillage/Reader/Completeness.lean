import Sillage.Common.PlainCodecs
import Sillage.Reader.Catalog

/-!
# Which chunks a scan keeps

The catalog of a stream is keyed by start slot, while a chunk is named by its start and
its end. Here is when a scan keeps every complete chunk that is listed, whatever the
order of the listing, and answers every range with exactly the chunks in it.
-/

namespace Sillage

open LittleEndian Chunk Directory Names

namespace ChunkCatalog

/-- The catalog holds every complete chunk of the directories and answers a range with
exactly those that overlap it, each once, by ascending start. -/
structure Complete (k : Codecs) (files : Files) (catalog : ChunkCatalog) : Prop where
  holds : ∀ stream name entry, scanEntry k stream (files stream) name = some entry →
    catalog.Holds entry
  ranges : ∀ stream fromSlot toSlotExclusive entry,
    entry ∈ catalog.chunksInRange stream fromSlot toSlotExclusive ↔
      (∃ name, scanEntry k stream (files stream) name = some entry) ∧
        entry.startSlot < toSlotExclusive ∧ fromSlot < entry.endSlotExclusive
  once : ∀ stream fromSlot toSlotExclusive,
    (catalog.chunksInRange stream fromSlot toSlotExclusive).Nodup
  ascending : ∀ stream fromSlot toSlotExclusive,
    (catalog.chunksInRange stream fromSlot toSlotExclusive).Pairwise
      (fun first second => first.startSlot ≤ second.startSlot)

/-- No two complete chunks of one stream share a start slot. -/
def StartsApart (k : Codecs) (files : Files) : Prop :=
  ∀ stream name name' entry entry', scanEntry k stream (files stream) name = some entry →
    scanEntry k stream (files stream) name' = some entry' →
    entry.startSlot = entry'.startSlot → name = name'

variable {k : Codecs} {stream : Stream} {dir : Dir} {name : FileName} {entry : ChunkEntry}

/-- A complete chunk is known by its sidecar, which lies in the directory. -/
theorem scanEntry_name (scanned : scanEntry k stream dir name = some entry) :
    name ∈ dir.keys ∧
      ∃ stem, name = stem ++ metaSuffix ∧ entry.zstPath = stem ++ ".zst".toList := by
  obtain ⟨text, _, _, found⟩ := scanEntry_iff.mp scanned
  obtain ⟨bytes, stored, -⟩ := found.sidecar
  exact ⟨(mem_keys_iff dir name).mpr ⟨bytes, stored⟩, text, stripSuffix_some found.stripped,
    found.zstPath⟩

/-- Two names of one entry are the same. -/
theorem scanEntry_injective {name' : FileName}
    (scanned : scanEntry k stream dir name = some entry)
    (scanned' : scanEntry k stream dir name' = some entry) : name = name' := by
  obtain ⟨-, stem, rfl, path⟩ := scanEntry_name scanned
  obtain ⟨-, stem', rfl, path'⟩ := scanEntry_name scanned'
  rw [List.append_cancel_right (path.symm.trans path')]

/-- An entry is found in a scan only if it is scanned from its stream's directory. -/
theorem holds_scan {files : Files} {listing : Stream → List FileName}
    (held : (scan k files listing).Holds entry) :
    ∃ name, scanEntry k entry.stream (files entry.stream) name = some entry := by
  obtain ⟨-, name, -, scanned⟩ := scanStream_found k entry.stream (files entry.stream) _ _ _ held
  exact ⟨name, scanned⟩

/-- A complete catalog tells the chunks of a stream apart by their starts. -/
theorem Complete.startsApart {files : Files} {catalog : ChunkCatalog}
    (complete : Complete k files catalog) : StartsApart k files := by
  intro stream name name' entry entry' scanned scanned' sameStart
  have held : catalog.Holds entry := complete.holds stream name entry scanned
  have held' : catalog.Holds entry' := complete.holds stream name' entry' scanned'
  rw [Holds, scanEntry_stream scanned, sameStart] at held
  rw [Holds, scanEntry_stream scanned'] at held'
  obtain rfl := Option.some.inj (held.symm.trans held')
  exact scanEntry_injective scanned scanned'

/-- A scan of the directories, in whatever order they are listed, is complete exactly if no
two complete chunks of one stream share a start slot. -/
theorem scan_complete_iff (k : Codecs) (files : Files) (listing : Stream → List FileName)
    (listed : ∀ stream, (listing stream).Perm (files stream).keys) :
    Complete k files (scan k files listing) ↔ StartsApart k files := by
  refine ⟨Complete.startsApart, fun apart => ?_⟩
  have holds : ∀ stream name entry, scanEntry k stream (files stream) name = some entry →
      (scan k files listing).Holds entry := by
    intro stream name entry scanned
    have member : name ∈ listing stream := (listed stream).mem_iff.mpr (scanEntry_name scanned).1
    rw [Holds, scanEntry_stream scanned]
    refine scanStream_finds member scanned (fun other _ found foundScan sameStart => ?_)
    obtain rfl := apart stream other name found entry foundScan scanned sameStart
    exact Option.some.inj (foundScan.symm.trans scanned)
  constructor
  case holds => exact holds
  case ranges =>
    intro stream fromSlot toSlotExclusive entry
    rw [mem_chunksInRange]
    constructor
    · rintro ⟨rfl, held, below, above⟩
      exact ⟨holds_scan held, below, above⟩
    · rintro ⟨⟨name, scanned⟩, below, above⟩
      exact ⟨scanEntry_stream scanned, holds stream name entry scanned, below, above⟩
  case once =>
    intro stream fromSlot toSlotExclusive
    exact (chunksInRange_ascending _ stream fromSlot toSlotExclusive).imp
      (fun less same => absurd (congrArg ChunkEntry.startSlot same) less.ne)
  case ascending =>
    intro stream fromSlot toSlotExclusive
    exact (chunksInRange_ascending _ stream fromSlot toSlotExclusive).imp Nat.le_of_lt

/-- The files of a complete chunk, added to a directory. -/
def addTrio (start stop : Nat) (dir : Dir) : Dir :=
  let sidecar : ChunkMeta := ⟨schemaVersion, "tx", start, stop, some start, some start, 1, 0, 0,
    none, none, "watermark", []⟩
  perform dir [.write (chunkFile start stop "zst") [], .write (chunkFile start stop "idx") [],
    .write (chunkFile start stop "meta.json") (PlainCodecs.plain.jsonEncode sidecar)]

/-- The directories of a cache whose transaction directory is given. -/
def txOnly (dir : Dir) : Files := fun stream => if stream = .tx then dir else ∅

/-- Overlapping chunks with different starts are all kept. -/
theorem scan_complete_iff_overlapping :
    let files := txOnly (addTrio 500 2000 (addTrio 0 1000 ∅))
    Complete PlainCodecs.plain files
      (scan PlainCodecs.plain files (fun stream => (files stream).keys)) := by
  intro files
  refine (scan_complete_iff PlainCodecs.plain files _ (fun _ => .refl _)).mpr ?_
  have apart : ∀ stream, ∀ name ∈ (files stream).keys, ∀ name' ∈ (files stream).keys,
      (scanEntry PlainCodecs.plain stream (files stream) name).isSome = true →
      (scanEntry PlainCodecs.plain stream (files stream) name).map ChunkEntry.startSlot =
        (scanEntry PlainCodecs.plain stream (files stream) name').map ChunkEntry.startSlot →
      name = name' := by
    intro stream
    cases stream <;> decide +kernel
  intro stream name name' entry entry' scanned scanned' sameStart
  exact apart stream name (scanEntry_name scanned).1 name' (scanEntry_name scanned').1
    (by rw [scanned]; rfl) (by rw [scanned, scanned', Option.map_some, Option.map_some, sameStart])

/-- Of two chunks with one start the scan keeps one. -/
theorem scan_drops_chunk :
    let files := txOnly (addTrio 0 2000 (addTrio 0 1000 ∅))
    ¬ Complete PlainCodecs.plain files
      (scan PlainCodecs.plain files (fun stream => (files stream).keys)) := by
  intro files complete
  have found : ∀ stop, stop = 1000 ∨ stop = 2000 →
      ((scanEntry PlainCodecs.plain .tx (files .tx) (chunkFile 0 stop "meta.json")).map
        ChunkEntry.startSlot) = some 0 := by
    rintro stop (rfl | rfl) <;> decide +kernel
  obtain ⟨short, scanned, start⟩ := Option.map_eq_some_iff.mp (found 1000 (.inl rfl))
  obtain ⟨long, scanned', start'⟩ := Option.map_eq_some_iff.mp (found 2000 (.inr rfl))
  have same := complete.startsApart .tx _ _ short long scanned scanned' (start.trans start'.symm)
  exact absurd (chunkFile_injective same).2.1 (by decide)

end ChunkCatalog

end Sillage
