import Mathlib.Data.Finset.Lattice.Fold
import Mathlib.Data.List.Sort
import Mathlib.Order.Lattice.Nat
import Sillage.Reader.Catalog

/-!
# The syncer

The syncer mirrors the bucket into the local directories. A cycle lists the bucket,
downloads the listed chunks of the retention window that are not held locally,
sweeps the chunks that have left the window, and publishes a fresh scan when one of
the two has done something. Downloads go file by file, each under a temporary name
first; the sweep removes the files of a chunk one after the other. Downloads of
different chunks touch different files, so that their steps commute.
-/

namespace Sillage

open LittleEndian Directory Names

/-- What identifies a chunk in a directory and in the bucket. Nothing else of a listed
chunk is read. -/
structure ChunkKey where
  stream : Stream
  startSlot : Nat
  endSlot : Nat
deriving DecidableEq

namespace ChunkKey

/-- The slots of the chunk fit 64 bits. -/
def Fits (key : ChunkKey) : Prop := key.startSlot < u64Bound ∧ key.endSlot < u64Bound

/-- A file of the chunk. -/
def file (key : ChunkKey) (ext : String) : FileName := chunkFile key.startSlot key.endSlot ext

/-- The chunk whose sidecar has the given name. -/
def ofSidecar (stream : Stream) (name : FileName) : Option ChunkKey := do
  let stem ← stripSuffix metaSuffix name
  let (start, stop) ← splitOnce stem
  let startSlot ← parseU64 start
  let endSlot ← parseU64 stop
  some ⟨stream, startSlot, endSlot⟩

end ChunkKey

namespace Sync

/-- The chunks whose sidecar lies in a directory. -/
def localChunks (files : Files) : Finset ChunkKey :=
  (Stream.all.flatMap
    (fun stream => (files stream).keys.filterMap (ChunkKey.ofSidecar stream))).toFinset

/-- The slots of the retention window; products are narrowed to 64 bits. -/
def retentionSlots (retentionHours : Nat) : Nat :=
  retentionHours * 3600 % u64Bound * 5 % u64Bound / 2

/-- The order of the downloads: by the name of the stream, then by start slot. -/
def precedes (a b : ChunkKey) : Prop :=
  a.stream.asStr < b.stream.asStr ∨
    a.stream.asStr = b.stream.asStr ∧ a.startSlot ≤ b.startSlot

/-- Two chunks are in order by comparing stream and start. -/
instance : DecidableRel precedes := fun a b =>
  inferInstanceAs (Decidable (a.stream.asStr < b.stream.asStr ∨
    a.stream.asStr = b.stream.asStr ∧ a.startSlot ≤ b.startSlot))

/-- The newest end among listed chunks; zero when there are none. -/
def newestListed (remote : List ChunkKey) : Nat := (remote.map ChunkKey.endSlot).max?.getD 0

/-- The newest end among held chunks; zero when there are none. -/
def newestHeld (held : Finset ChunkKey) : Nat := held.sup ChunkKey.endSlot

/-- The listed chunks of the window below the newest listed end that are not held. -/
def diffForSync (held : Finset ChunkKey) (remote : List ChunkKey) (retentionHours : Nat) :
    List ChunkKey :=
  let cutoff := newestListed remote - retentionSlots retentionHours
  ((remote.filter (fun key => cutoff ≤ key.endSlot)).filter (fun key => key ∉ held)).insertionSort
    precedes

/-- The held chunks that lie below the window of the newest held end. -/
def evicted (held : Finset ChunkKey) (retentionHours : Nat) : Finset ChunkKey :=
  held.filter (fun key => key.endSlot < newestHeld held - retentionSlots retentionHours)

/-- An order in which a set of chunks is iterated. -/
structure SetOrder where
  list : Finset ChunkKey → List ChunkKey
  nodup : ∀ held, (list held).Nodup
  lists : ∀ held key, key ∈ list held ↔ key ∈ held

/-- One change of a directory of some stream. -/
def applyOn (files : Files) (step : Stream × FileStep) : Files :=
  Function.update files step.1 (FileStep.apply (files step.1) step.2)

/-- Changes of directories, one after the other. -/
def performOn (files : Files) (steps : List (Stream × FileStep)) : Files := steps.foldl applyOn files

/-- How the download of one file ends. -/
inductive Ending where
  | fetchFails
  | renameFails (content : Bytes)
  | lands (content : Bytes)
deriving DecidableEq

/-- The download of one file: what failed attempts leave under its temporary name, one
after the other, and how it ends. An attempt that fails before it creates the file
leaves nothing. -/
structure Fetch where
  leftovers : List Bytes
  ending : Ending
deriving DecidableEq

/-- The extensions of a chunk's files, in the order in which they are downloaded and
removed. -/
def trio : List String := ["zst", "idx", "meta.json"]

/-- A temporary file is created, and its content written. -/
def fillSteps (temporary : FileName) (content : Bytes) : List FileStep :=
  [.create temporary, .write temporary content]

/-- The steps of downloading one file. -/
def fetchSteps (key : ChunkKey) (ext : String) (fetch : Fetch) : List FileStep :=
  let temporary := key.file (ext ++ ".partial")
  fetch.leftovers.flatMap (fillSteps temporary) ++
    match fetch.ending with
    | .fetchFails => []
    | .renameFails content => fillSteps temporary content
    | .lands content => fillSteps temporary content ++ [.rename temporary (key.file ext)]

/-- The steps of downloading some files of a chunk, and whether all of them landed. The
first file that does not land ends the download. -/
def downloadSteps (key : ChunkKey) (fetch : String → Fetch) : List String → List FileStep × Bool
  | [] => ([], true)
  | ext :: rest =>
      match (fetch ext).ending with
      | .lands _ =>
          let later := downloadSteps key fetch rest
          (fetchSteps key ext (fetch ext) ++ later.1, later.2)
      | _ => (fetchSteps key ext (fetch ext), false)

/-- The steps of `download_chunk` on the disk. -/
def chunkSteps (key : ChunkKey) (fetch : String → Fetch) : List (Stream × FileStep) :=
  (downloadSteps key fetch trio).1.map (fun step => (key.stream, step))

/-- Download the files of a chunk, and say whether all have landed. -/
def downloadChunk (key : ChunkKey) (fetch : String → Fetch) (files : Files) : Files × Bool :=
  (performOn files (chunkSteps key fetch), (downloadSteps key fetch trio).2)

/-- Download some chunks and count those that succeed. -/
def downloadAll (fetch : ChunkKey → String → Fetch) (keys : List ChunkKey) (files : Files) :
    Files × Nat :=
  keys.foldl
    (fun state key =>
      let result := downloadChunk key (fetch key) state.1
      (result.1, if result.2 then state.2 + 1 else state.2))
    (files, 0)

/-- The removals of a chunk's files. A removal that the file system refuses is logged and
passed over. -/
def removals (refuses : Stream → FileName → Bool) (key : ChunkKey) : List (Stream × FileStep) :=
  (trio.filter (fun ext => !refuses key.stream (key.file ext))).map
    (fun ext => (key.stream, .remove (key.file ext)))

/-- The chunks that a sweep removes, in the order in which it visits them. -/
def victims (order : SetOrder) (retentionHours : Nat) (files : Files) : List ChunkKey :=
  (order.list (localChunks files)).filter
    (fun key => key ∈ evicted (localChunks files) retentionHours)

/-- The changes of a sweep, in their order. -/
def sweepSteps (order : SetOrder) (refuses : Stream → FileName → Bool) (retentionHours : Nat)
    (files : Files) : List (Stream × FileStep) :=
  (victims order retentionHours files).flatMap (removals refuses)

/-- Remove the chunks that have left the window, and count them, whether or not their files
could be removed. -/
def sweepRetention (order : SetOrder) (refuses : Stream → FileName → Bool) (retentionHours : Nat)
    (files : Files) : Files × Nat :=
  (performOn files (sweepSteps order refuses retentionHours files),
    (victims order retentionHours files).length)

/-- Remove the temporary files. -/
def sweepPartials (files : Files) : Files := fun stream =>
  ((files stream).keys.filter (fun name => partialSuffix <:+ name)).foldl
    (fun dir name => FileStep.apply dir (.remove name)) (files stream)

/-! ## The windows of downloading and evicting -/

section Windows

variable {held : Finset ChunkKey} {remote : List ChunkKey} {retentionHours : Nat} {key : ChunkKey}

/-- What is downloaded is listed, in the window, and not held. -/
theorem mem_diffForSync : key ∈ diffForSync held remote retentionHours ↔
    key ∈ remote ∧ newestListed remote - retentionSlots retentionHours ≤ key.endSlot ∧
      key ∉ held := by
  simp only [diffForSync, List.mem_insertionSort, List.mem_filter, decide_eq_true_eq, and_assoc]

/-- What is evicted is held and below the window. -/
theorem mem_evicted : key ∈ evicted held retentionHours ↔
    key ∈ held ∧ key.endSlot < newestHeld held - retentionSlots retentionHours := by
  simp [evicted]

/-- A listed chunk ends no later than the newest. -/
theorem le_newestListed (listed : key ∈ remote) : key.endSlot ≤ newestListed remote := by
  have member : key.endSlot ∈ remote.map ChunkKey.endSlot := List.mem_map_of_mem listed
  obtain ⟨newest, isNewest⟩ := Option.ne_none_iff_exists'.mp
    (mt List.max?_eq_none_iff.mp (List.ne_nil_of_mem member))
  rw [newestListed, isNewest, Option.getD_some]
  exact (List.max?_eq_some_iff.mp isNewest).2 _ member

/-- No held chunk ends behind the newest end. -/
theorem le_newestHeld (isHeld : key ∈ held) : key.endSlot ≤ newestHeld held :=
  Finset.le_sup (f := ChunkKey.endSlot) isHeld

/-- The newest end of two sets is that of one of them. -/
theorem newestHeld_union (first second : Finset ChunkKey) :
    newestHeld (first ∪ second) = max (newestHeld first) (newestHeld second) :=
  Finset.sup_union

/-- Chunks of the listing end no later than the newest listed one. -/
theorem newestHeld_le_listed {downloaded : Finset ChunkKey}
    (listed : ∀ key ∈ downloaded, key ∈ remote) : newestHeld downloaded ≤ newestListed remote :=
  Finset.sup_le (fun key member => le_newestListed (listed key member))

/-- The newest end stays when the chunks below its window go. -/
theorem newestHeld_sdiff (held : Finset ChunkKey) (retentionHours : Nat) :
    newestHeld (held \ evicted held retentionHours) = newestHeld held := by
  apply le_antisymm (Finset.sup_mono Finset.sdiff_subset)
  apply Finset.sup_le
  intro key isHeld
  by_cases goes : key ∈ evicted held retentionHours
  · -- what goes ends before the newest chunk, which stays
    obtain ⟨newest, isNewest, ends⟩ := Finset.exists_mem_eq_sup held ⟨key, isHeld⟩ ChunkKey.endSlot
    have stays : newest ∈ held \ evicted held retentionHours := by
      rw [Finset.mem_sdiff, mem_evicted]
      refine ⟨isNewest, fun gone => ?_⟩
      have below : newest.endSlot < held.sup ChunkKey.endSlot - retentionSlots retentionHours :=
        gone.2
      omega
    have most := le_newestHeld isHeld
    rw [newestHeld, ends] at most
    exact most.trans (le_newestHeld stays)
  · exact le_newestHeld (Finset.mem_sdiff.mpr ⟨isHeld, goes⟩)

/-- A second sweep finds nothing. -/
theorem evicted_sdiff (held : Finset ChunkKey) (retentionHours : Nat) :
    evicted (held \ evicted held retentionHours) retentionHours = ∅ := by
  apply Finset.eq_empty_of_forall_notMem
  intro key gone
  rw [mem_evicted, newestHeld_sdiff, Finset.mem_sdiff, mem_evicted] at gone
  exact gone.1.2 ⟨gone.1.1, gone.2⟩

/-- The held chunks behind a cycle that downloads some chunks. -/
def heldAfter (held downloaded : Finset ChunkKey) (retentionHours : Nat) : Finset ChunkKey :=
  (held ∪ downloaded) \ evicted (held ∪ downloaded) retentionHours

/-- No listed chunk of the download window lies below the window of the newest held
chunk. -/
def Aligned (held : Finset ChunkKey) (remote : List ChunkKey) (retentionHours : Nat) : Prop :=
  ∀ key ∈ remote, newestListed remote - retentionSlots retentionHours ≤ key.endSlot →
    newestHeld held - retentionSlots retentionHours ≤ key.endSlot

/-- A cache that holds nothing newer than the listing is aligned with it. -/
theorem aligned_of_le (newest : newestHeld held ≤ newestListed remote) :
    Aligned held remote retentionHours :=
  fun _ _ inWindow => (Nat.sub_le_sub_right newest _).trans inWindow

/-- In an aligned cache no chunk of the download window is evicted. -/
theorem Aligned.keeps (aligned : Aligned held remote retentionHours) {downloaded : Finset ChunkKey}
    (listed : ∀ key ∈ downloaded, key ∈ remote) (isListed : key ∈ remote)
    (inWindow : newestListed remote - retentionSlots retentionHours ≤ key.endSlot) :
    key ∉ evicted (held ∪ downloaded) retentionHours := by
  rw [mem_evicted, newestHeld_union]
  rintro ⟨-, below⟩
  have own := aligned key isListed inWindow
  have newest := newestHeld_le_listed listed
  omega

/-- The sweep behind a cycle spares what the cycle downloads, and a cycle whose downloads
all succeed leaves the next one nothing to do, exactly when the cache is aligned with
the listing. -/
theorem sweep_spares_downloads_iff (held : Finset ChunkKey) (remote : List ChunkKey)
    (retentionHours : Nat) :
    ((∀ downloaded : Finset ChunkKey,
        (∀ key ∈ downloaded, key ∈ diffForSync held remote retentionHours) →
        ∀ key ∈ diffForSync held remote retentionHours,
          key ∉ evicted (held ∪ downloaded) retentionHours) ∧
      (let next := heldAfter held (diffForSync held remote retentionHours).toFinset retentionHours
       diffForSync next remote retentionHours = [] ∧ evicted next retentionHours = ∅)) ↔
      Aligned held remote retentionHours := by
  constructor
  · rintro ⟨spared, settled, -⟩ key isListed inWindow
    by_contra low
    have below : ∀ downloaded : Finset ChunkKey,
        key.endSlot < newestHeld (held ∪ downloaded) - retentionSlots retentionHours := by
      intro downloaded
      rw [newestHeld_union]
      omega
    by_cases isHeld : key ∈ held
    · -- a listed chunk that is held goes, and is selected again
      have gone : key ∈ evicted (held ∪ (diffForSync held remote retentionHours).toFinset)
          retentionHours := mem_evicted.mpr ⟨Finset.mem_union_left _ isHeld, below _⟩
      have again : key ∈ diffForSync
          (heldAfter held (diffForSync held remote retentionHours).toFinset retentionHours) remote
            retentionHours :=
        mem_diffForSync.mpr ⟨isListed, inWindow, fun stays => (Finset.mem_sdiff.mp stays).2 gone⟩
      rw [settled] at again
      cases again
    · -- a listed chunk that is not held is downloaded and goes
      have selected : key ∈ diffForSync held remote retentionHours :=
        mem_diffForSync.mpr ⟨isListed, inWindow, isHeld⟩
      have one : ∀ other ∈ ({key} : Finset ChunkKey),
          other ∈ diffForSync held remote retentionHours := by
        intro other same
        rw [Finset.mem_singleton.mp same]
        exact selected
      exact spared {key} one key selected
        (mem_evicted.mpr ⟨Finset.mem_union_right _ (Finset.mem_singleton_self key), below _⟩)
  · intro aligned
    have fromListing : ∀ key ∈ (diffForSync held remote retentionHours).toFinset, key ∈ remote :=
      fun key member => (mem_diffForSync.mp (List.mem_toFinset.mp member)).1
    refine ⟨fun downloaded among key selected => ?_, ?_, evicted_sdiff _ _⟩
    · obtain ⟨isListed, inWindow, -⟩ := mem_diffForSync.mp selected
      exact aligned.keeps (fun other member => (mem_diffForSync.mp (among other member)).1)
        isListed inWindow
    · rw [List.eq_nil_iff_forall_not_mem]
      intro key again
      obtain ⟨isListed, inWindow, missing⟩ := mem_diffForSync.mp again
      apply missing
      apply Finset.mem_sdiff.mpr
      refine ⟨?_, aligned.keeps fromListing isListed inWindow⟩
      by_cases isHeld : key ∈ held
      · exact Finset.mem_union_left _ isHeld
      · exact Finset.mem_union_right _
          (List.mem_toFinset.mpr (mem_diffForSync.mpr ⟨isListed, inWindow, isHeld⟩))

/-- A chunk of a bucket that has lost its newest chunks is downloaded and evicted at once,
and selected again in the next cycle. -/
theorem sweep_evicts_download :
    let stale : ChunkKey := ⟨.tx, 0, 1000⟩
    let newest : ChunkKey := ⟨.tx, 99000, 100000⟩
    stale ∈ diffForSync {newest} [stale] 1 ∧ stale ∈ evicted ({newest} ∪ {stale}) 1 ∧
      stale ∈ diffForSync (heldAfter {newest} {stale} 1) [stale] 1 := by
  decide +kernel

end Windows

end Sync

end Sillage
