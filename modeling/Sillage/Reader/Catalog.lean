import Sillage.Common.Codecs
import Sillage.Common.Names

/-!
# The catalog of local chunks

A scan goes through the sidecars of every stream's directory and keeps each chunk
whose three files are present and whose sidecar is readable. The order in which a
directory is listed is a parameter; of two sidecars with one start slot the later
one is kept.
-/

namespace Sillage

open LittleEndian Chunk Directory Names

/-- The directories of the three streams. -/
abbrev Files := Stream → Dir

/-- A chunk of the catalog. The paths are names in the directory of its stream. -/
structure ChunkEntry where
  stream : Stream
  startSlot : Nat
  endSlotExclusive : Nat
  zstPath : FileName
  idxPath : FileName
  «meta» : ChunkMeta
deriving DecidableEq

/-- The chunks of every stream by start slot. A stream without chunks has an empty map. -/
structure ChunkCatalog where
  streams : Stream → Std.TreeMap Nat ChunkEntry
  keyed : ∀ (stream : Stream) (start : Nat) (entry : ChunkEntry),
    (streams stream)[start]? = some entry →
      entry.stream = stream ∧ entry.startSlot = start

/-- The chunks of a stream: their number, the first start slot, and the end of the
chunk with the last start slot. -/
structure StreamSummary where
  stream : Stream
  count : Nat
  minStart : Option Nat
  maxEnd : Option Nat
deriving DecidableEq

namespace ChunkCatalog

/-- The chunk behind a file name, if that is the sidecar of a complete chunk. -/
def scanEntry (k : Codecs) (stream : Stream) (dir : Dir) (name : FileName) :
    Option ChunkEntry := do
  let stem ← stripSuffix metaSuffix name
  let (start, stop) ← splitOnce stem
  let startSlot ← parseU64 start
  let endSlotExclusive ← parseU64 stop
  let zstPath := stem ++ ".zst".toList
  let idxPath := stem ++ ".idx".toList
  let _ ← dir.lookup zstPath
  let _ ← dir.lookup idxPath
  let metaBytes ← dir.lookup name
  let sidecar ← k.jsonDecode metaBytes
  if sidecar.schemaVersion = Chunk.schemaVersion then
    some { stream, startSlot, endSlotExclusive, zstPath, idxPath, «meta» := sidecar }
  else none

/-- What is scanned of a chunk: the texts around the dash of a sidecar's name are its slots, its
files lie beside the sidecar, and that is readable. -/
structure ScannedAs (k : Codecs) (stream : Stream) (dir : Dir) (name text start stop : FileName)
    (entry : ChunkEntry) : Prop where
  stripped : stripSuffix metaSuffix name = some text
  parts : splitOnce text = some (start, stop)
  startRead : parseU64 start = some entry.startSlot
  stopRead : parseU64 stop = some entry.endSlotExclusive
  stream : entry.stream = stream
  zstPath : entry.zstPath = text ++ ".zst".toList
  idxPath : entry.idxPath = text ++ ".idx".toList
  payload : (dir.lookup entry.zstPath).isSome
  index : (dir.lookup entry.idxPath).isSome
  sidecar : ∃ bytes, dir.lookup name = some bytes ∧ k.jsonDecode bytes = some entry.meta
  version : entry.meta.schemaVersion = Chunk.schemaVersion

/-- A sidecar is scanned as a chunk exactly if its name, its content and the files beside it are
as they must be. -/
theorem scanEntry_iff {k : Codecs} {stream : Stream} {dir : Dir} {name : FileName}
    {entry : ChunkEntry} : scanEntry k stream dir name = some entry ↔
    ∃ text start stop, ScannedAs k stream dir name text start stop entry := by
  constructor
  · intro scanned
    simp only [scanEntry, Option.bind_eq_bind, Option.bind_eq_some_iff] at scanned
    obtain ⟨text, stripped, ⟨start, stop⟩, parts, startSlot, startRead, endSlot, stopRead, _,
      payload, _, index, bytes, stored, sidecar, decoded, kept⟩ := scanned
    split at kept
    · next version =>
      obtain rfl := Option.some.inj kept
      exact ⟨text, start, stop, stripped, parts, startRead, stopRead, rfl, rfl, rfl,
        Option.isSome_of_eq_some payload, Option.isSome_of_eq_some index, ⟨bytes, stored, decoded⟩,
        version⟩
    · cases kept
  · rintro ⟨text, start, stop, scanned⟩
    obtain ⟨stream', startSlot, endSlot, zstPath, idxPath, sidecar⟩ := entry
    obtain ⟨stripped, parts, startRead, stopRead, rfl, rfl, rfl, payload, index,
      ⟨bytes, stored, decoded⟩, version⟩ := scanned
    obtain ⟨_, payload⟩ := Option.isSome_iff_exists.mp payload
    obtain ⟨_, index⟩ := Option.isSome_iff_exists.mp index
    simp only [scanEntry, stripped, parts, startRead, stopRead, payload, index, stored, decoded,
      Option.bind_eq_bind, Option.bind_some]
    exact if_pos version

/-- Take the chunk behind a name into the map of its stream. -/
def insertEntry (k : Codecs) (stream : Stream) (dir : Dir) (tree : Std.TreeMap Nat ChunkEntry)
    (name : FileName) : Std.TreeMap Nat ChunkEntry :=
  match scanEntry k stream dir name with
  | some entry => tree.insert entry.startSlot entry
  | none => tree

/-- The map of a stream whose directory is listed in the given order. -/
def scanStream (k : Codecs) (stream : Stream) (dir : Dir) (names : List FileName) :
    Std.TreeMap Nat ChunkEntry :=
  names.foldl (insertEntry k stream dir) ∅

/-- What is scanned in the directory of a stream is of that stream. -/
theorem scanEntry_stream {k : Codecs} {stream : Stream} {dir : Dir} {name : FileName}
    {entry : ChunkEntry} (scanned : scanEntry k stream dir name = some entry) :
    entry.stream = stream := by
  obtain ⟨_, _, _, found⟩ := scanEntry_iff.mp scanned
  exact found.stream

/-- Every entry of a scanned map lies under its own start slot and comes from a listed
sidecar. -/
theorem scanStream_found (k : Codecs) (stream : Stream) (dir : Dir) (names : List FileName)
    (start : Nat) (entry : ChunkEntry)
    (found : (scanStream k stream dir names)[start]? = some entry) :
    entry.startSlot = start ∧ ∃ name ∈ names, scanEntry k stream dir name = some entry := by
  have general : ∀ (names : List FileName) (tree : Std.TreeMap Nat ChunkEntry),
      (names.foldl (insertEntry k stream dir) tree)[start]? = some entry →
      tree[start]? = some entry ∨
        entry.startSlot = start ∧ ∃ name ∈ names, scanEntry k stream dir name = some entry := by
    intro names
    induction names with
    | nil => exact fun tree found => .inl found
    | cons name rest inductionHypothesis =>
      intro tree found
      rcases inductionHypothesis _ found with earlier | ⟨same, other, member, scanned⟩
      · cases scanned : scanEntry k stream dir name with
        | none =>
          simp only [insertEntry, scanned] at earlier
          exact .inl earlier
        | some own =>
          simp only [insertEntry, scanned, Std.TreeMap.getElem?_insert] at earlier
          split at earlier
          · next here =>
            obtain rfl := Option.some.inj earlier
            exact .inr ⟨Std.LawfulEqCmp.compare_eq_iff_eq.mp here, name, by simp, scanned⟩
          · exact .inl earlier
      · exact .inr ⟨same, other, by simp [member], scanned⟩
  rcases general names ∅ found with impossible | result
  · simp at impossible
  · exact result

/-- A listed sidecar is found when no other listed one yields a different chunk with its
start slot. -/
theorem scanStream_finds {k : Codecs} {stream : Stream} {dir : Dir} {names : List FileName}
    {name : FileName} {entry : ChunkEntry} (member : name ∈ names)
    (scanned : scanEntry k stream dir name = some entry)
    (unique : ∀ other ∈ names, ∀ found, scanEntry k stream dir other = some found →
      found.startSlot = entry.startSlot → found = entry) :
    (scanStream k stream dir names)[entry.startSlot]? = some entry := by
  have general : ∀ (names : List FileName) (tree : Std.TreeMap Nat ChunkEntry),
      (∀ other ∈ names, ∀ found, scanEntry k stream dir other = some found →
        found.startSlot = entry.startSlot → found = entry) →
      (name ∈ names ∨ tree[entry.startSlot]? = some entry) →
      (names.foldl (insertEntry k stream dir) tree)[entry.startSlot]? = some entry := by
    intro names
    induction names with
    | nil => exact fun tree _ found => found.resolve_left (List.not_mem_nil)
    | cons first rest inductionHypothesis =>
      intro tree unique found
      obtain ⟨uniqueFirst, uniqueRest⟩ := List.forall_mem_cons.mp unique
      refine inductionHypothesis _ uniqueRest ?_
      by_cases later : name ∈ rest
      · exact .inl later
      refine .inr ?_
      cases yields : scanEntry k stream dir first with
      | none =>
        rw [insertEntry, yields]
        refine found.resolve_left (fun listed => ?_)
        rcases List.mem_cons.mp listed with rfl | isLater
        · simp [scanned] at yields
        · exact later isLater
      | some own =>
        rw [insertEntry, yields, Std.TreeMap.getElem?_insert]
        split
        · next here =>
          exact congrArg some (uniqueFirst own yields (Std.LawfulEqCmp.compare_eq_iff_eq.mp here))
        · next elsewhere =>
          refine found.resolve_left (fun listed => ?_)
          rcases List.mem_cons.mp listed with rfl | isLater
          · obtain rfl := Option.some.inj (scanned.symm.trans yields)
            exact elsewhere Std.ReflCmp.compare_self
          · exact later isLater
  exact general names ∅ unique (.inl member)

/-- Scan the directories of all streams. -/
def scan (k : Codecs) (files : Files) (listing : Stream → List FileName) : ChunkCatalog where
  streams stream := scanStream k stream (files stream) (listing stream)
  keyed stream start entry found := by
    obtain ⟨same, name, -, scanned⟩ := scanStream_found k stream (files stream) _ start entry found
    exact ⟨scanEntry_stream scanned, same⟩

/-- The chunks of a stream that overlap a range of slots, by ascending start slot. -/
def chunksInRange (catalog : ChunkCatalog) (stream : Stream) (fromSlot toSlotExclusive : Nat) :
    List ChunkEntry :=
  (((catalog.streams stream).toList.filter (fun item => item.1 < toSlotExclusive)).filter
    (fun item => fromSlot < item.2.endSlotExclusive)).map Prod.snd

/-- A summary for every stream that has chunks. -/
def summary (catalog : ChunkCatalog) : List StreamSummary :=
  Stream.all.filterMap (fun stream =>
    let tree := (catalog.streams stream).toList
    if tree = [] then none
    else some
      { stream
        count := tree.length
        minStart := tree.head?.map Prod.fst
        maxEnd := tree.getLast?.map (fun item => item.2.endSlotExclusive) })

/-- The largest end over all streams. -/
def newestEndSlot (catalog : ChunkCatalog) : Option Nat :=
  (catalog.summary.filterMap StreamSummary.maxEnd).max?

/-- The catalog holds a chunk. -/
def Holds (catalog : ChunkCatalog) (entry : ChunkEntry) : Prop :=
  (catalog.streams entry.stream)[entry.startSlot]? = some entry

variable {catalog : ChunkCatalog}

/-- The chunks of a stream are listed under their start slots. -/
theorem mem_toList {stream : Stream} {item : Nat × ChunkEntry} :
    item ∈ (catalog.streams stream).toList ↔
      item.1 = item.2.startSlot ∧ item.2.stream = stream ∧ catalog.Holds item.2 := by
  obtain ⟨start, entry⟩ := item
  rw [Std.TreeMap.mem_toList_iff_getElem?_eq_some]
  constructor
  · intro found
    obtain ⟨rfl, rfl⟩ := catalog.keyed stream start entry found
    exact ⟨rfl, rfl, found⟩
  · rintro ⟨same, inStream, found⟩
    dsimp only at same inStream found
    subst same inStream
    exact found

/-- The map of a stream is listed by strictly ascending start slot. -/
theorem toList_ascending (catalog : ChunkCatalog) (stream : Stream) :
    (catalog.streams stream).toList.Pairwise
      (fun first second => first.2.startSlot < second.2.startSlot) := by
  have ordered : (catalog.streams stream).toList.Pairwise
      (fun first second => compare first.1 second.1 = .lt) := Std.TreeMap.ordered_keys_toList
  refine ordered.imp_of_mem (fun first second less => ?_)
  obtain ⟨same, -, -⟩ := mem_toList.mp first
  obtain ⟨same', -, -⟩ := mem_toList.mp second
  rw [← same, ← same']
  exact Nat.compare_eq_lt.mp less

/-- A chunk is in range when it is held and overlaps the range. -/
theorem mem_chunksInRange {stream : Stream} {fromSlot toSlotExclusive : Nat}
    {entry : ChunkEntry} :
    entry ∈ catalog.chunksInRange stream fromSlot toSlotExclusive ↔
      entry.stream = stream ∧ catalog.Holds entry ∧ entry.startSlot < toSlotExclusive ∧
        fromSlot < entry.endSlotExclusive := by
  simp only [chunksInRange, List.mem_map, List.mem_filter, mem_toList, decide_eq_true_eq]
  constructor
  · rintro ⟨⟨start, _⟩, ⟨⟨⟨same, inStream, held⟩, below⟩, above⟩, rfl⟩
    dsimp only at same inStream held below above
    subst same
    exact ⟨inStream, held, below, above⟩
  · rintro ⟨same, held, below, above⟩
    exact ⟨⟨entry.startSlot, entry⟩, ⟨⟨⟨rfl, same, held⟩, below⟩, above⟩, rfl⟩

/-- Chunks of a range come in the order of their start slots. -/
theorem chunksInRange_ascending (catalog : ChunkCatalog) (stream : Stream)
    (fromSlot toSlotExclusive : Nat) :
    (catalog.chunksInRange stream fromSlot toSlotExclusive).Pairwise
      (fun first second => first.startSlot < second.startSlot) := by
  rw [chunksInRange, List.pairwise_map]
  exact ((toList_ascending catalog stream).filter _).filter _

/-- Every range is nonempty. -/
def Ranged (catalog : ChunkCatalog) : Prop :=
  ∀ entry, catalog.Holds entry → entry.startSlot < entry.endSlotExclusive

/-- A summary of a stream tells its bounds. -/
theorem mem_summary {stream : StreamSummary} : stream ∈ catalog.summary ↔
    (catalog.streams stream.stream).toList ≠ [] ∧
      stream.count = (catalog.streams stream.stream).toList.length ∧
      stream.minStart = (catalog.streams stream.stream).toList.head?.map Prod.fst ∧
      stream.maxEnd = (catalog.streams stream.stream).toList.getLast?.map
        (fun item => item.2.endSlotExclusive) := by
  simp only [summary, List.mem_filterMap, Stream.mem_all, true_and]
  constructor
  · rintro ⟨asked, made⟩
    split at made
    · cases made
    · next nonempty =>
      obtain rfl := Option.some.inj made
      exact ⟨nonempty, rfl, rfl, rfl⟩
  · rintro ⟨nonempty, count, minStart, maxEnd⟩
    refine ⟨stream.stream, ?_⟩
    rw [if_neg nonempty, ← count, ← minStart, ← maxEnd]

/-- The end in the summary of a stream is that of its chunk with the last start. -/
theorem maxEnd_spec {stream : StreamSummary} (member : stream ∈ catalog.summary) :
    ∃ last, catalog.Holds last ∧ last.stream = stream.stream ∧
      stream.maxEnd = some last.endSlotExclusive ∧
      ∀ other, catalog.Holds other → other.stream = stream.stream →
        other.startSlot ≤ last.startSlot := by
  obtain ⟨nonempty, -, -, maxEnd⟩ := mem_summary.mp member
  obtain ⟨⟨start, last⟩, isLast⟩ := Option.ne_none_iff_exists'.mp
    (mt List.getLast?_eq_none_iff.mp nonempty)
  obtain ⟨-, inStream, held⟩ := mem_toList.mp (List.mem_of_getLast? isLast)
  refine ⟨last, held, inStream, by simp [maxEnd, isLast], fun other isHeld sameStream => ?_⟩
  have among : (other.startSlot, other) ∈ (catalog.streams stream.stream).toList :=
    mem_toList.mpr ⟨rfl, sameStream, isHeld⟩
  have ascending := toList_ascending catalog stream.stream
  obtain ⟨front, split⟩ := List.getLast?_eq_some_iff.mp isLast
  rw [split] at ascending among
  rcases List.mem_append.mp among with before | own
  · exact ((List.pairwise_append.mp ascending).2.2 _ before _ (List.mem_singleton_self _)).le
  · obtain ⟨-, rfl⟩ := Prod.mk.inj (List.mem_singleton.mp own)
    exact le_rfl

/-- A chunk puts its stream into the summary. -/
theorem summary_of_holds {entry : ChunkEntry} (held : catalog.Holds entry) :
    ∃ stream ∈ catalog.summary, stream.stream = entry.stream := by
  have member : (entry.startSlot, entry) ∈ (catalog.streams entry.stream).toList :=
    mem_toList.mpr ⟨rfl, rfl, held⟩
  exact ⟨⟨entry.stream, (catalog.streams entry.stream).toList.length,
      (catalog.streams entry.stream).toList.head?.map Prod.fst,
      (catalog.streams entry.stream).toList.getLast?.map (fun item => item.2.endSlotExclusive)⟩,
    mem_summary.mpr ⟨List.ne_nil_of_mem member, rfl, rfl, rfl⟩, rfl⟩

/-- Every chunk starts below the newest end. The chunk that starts last in its stream
ends above every start in it. -/
theorem start_below_newest (ranged : catalog.Ranged) {entry : ChunkEntry}
    (held : catalog.Holds entry) : entry.startSlot < catalog.newestEndSlot.getD 0 := by
  obtain ⟨stream, member, same⟩ := summary_of_holds held
  obtain ⟨last, heldLast, -, maxEnd, latest⟩ := maxEnd_spec member
  have least := latest entry held same.symm
  have listed : last.endSlotExclusive ∈ catalog.summary.filterMap StreamSummary.maxEnd :=
    List.mem_filterMap.mpr ⟨stream, member, maxEnd⟩
  have ends := ranged last heldLast
  cases newest : catalog.newestEndSlot with
  | none =>
    rw [List.max?_eq_none_iff.mp newest] at listed
    cases listed
  | some newestEnd =>
    have bound := (List.max?_eq_some_iff.mp newest).2 _ listed
    simp only [Option.getD_some]
    omega

end ChunkCatalog

end Sillage
