import Sillage.Common.PlainCodecs
import Sillage.Foundation.SharedCache
import Sillage.Reader.Plan

/-!
# The caches of a reader

All subscriptions of a reader share one cache of decoded chunks and one of parsed indexes. An
access to either is a lookup under the lock, a decoding or parsing outside of it, and a store
under the lock again, and the accesses of the subscriptions come between one another.
-/

namespace Sillage

/-- The accesses to the cache of decoded chunks. -/
abbrev ChunkAccesses := Lru.Shared CacheKey DecodedChunk DecodeError

/-- The accesses to the cache of parsed indexes. -/
abbrev IndexAccesses := Lru.Shared IndexCacheKey ChunkIndex IndexError

namespace ChunkAccesses

/-- A part of some access to the decoded chunks takes place. -/
def Step (reader : Reader) : ChunkAccesses → Lru.Act CacheKey DecodedChunk DecodeError →
    ChunkAccesses → Prop :=
  Lru.Shared.Step DecodedChunk.heapBytes reader.chunkBudgetBytes

end ChunkAccesses

namespace IndexAccesses

/-- A part of some access to the parsed indexes takes place. -/
def Step (reader : Reader) : IndexAccesses → Lru.Act IndexCacheKey ChunkIndex IndexError →
    IndexAccesses → Prop :=
  Lru.Shared.Step reader.indexHeapBytes reader.indexBudgetBytes

end IndexAccesses

/-- Whatever the budgets, and in whatever order the parts of whichever accesses come, both
caches are sound whenever their lock is free: the byte count is what the values take, the two
maps have the same keys, the ticks are distinct and below the next one, and a store leaves
the new entry and those used last that fit the budget with it. -/
theorem caches_sound (reader : Reader) :
    (∀ moments last, Path (ChunkAccesses.Step reader) Lru.Shared.fresh moments last →
      last.Sound DecodedChunk.heapBytes reader.chunkBudgetBytes ∧
        ∀ moment ∈ moments, moment.2.Sound DecodedChunk.heapBytes reader.chunkBudgetBytes) ∧
    (∀ moments last, Path (IndexAccesses.Step reader) Lru.Shared.fresh moments last →
      last.Sound reader.indexHeapBytes reader.indexBudgetBytes ∧
        ∀ moment ∈ moments, moment.2.Sound reader.indexHeapBytes reader.indexBudgetBytes) := by
  constructor
  · intro moments last path
    exact Lru.sound_of_path path
  · intro moments last path
    exact Lru.sound_of_path path

/-- A reader whose cache of decoded chunks has room for three bytes. -/
def threeBytes : Reader := ⟨PlainCodecs.plain, fun _ => ∅, 1, 3, fun _ => 1⟩

/-- Two callers decode one chunk at the same time and both get what the first one stores. The
chunk makes room for the next one. -/
theorem caches_sound_race :
    ∃ last : ChunkAccesses, last.Sound DecodedChunk.heapBytes 3 ∧
      last.accesses.map Lru.Access.returned = [true, true, true] ∧
      last.cache.map.keys = [⟨.tx, 100⟩] ∧ last.cache.used = 2 ∧ last.cache.tick = 3 := by
  refine ⟨_, ((caches_sound threeBytes).1 _ _
    (.cons (show ChunkAccesses.Step threeBytes _ (.begins ⟨.tx, 0⟩) _ from rfl)
    (.cons (show ChunkAccesses.Step threeBytes _ (.begins ⟨.tx, 0⟩) _ from rfl)
    (.cons (show ChunkAccesses.Step threeBytes _ (.part 0 (.ok ⟨[], []⟩)) _ from rfl)
    (.cons (show ChunkAccesses.Step threeBytes _ (.part 1 (.ok ⟨[], []⟩)) _ from rfl)
    (.cons (show ChunkAccesses.Step threeBytes _ (.part 0 (.ok ⟨[1, 2], []⟩)) _ from rfl)
    (.cons (show ChunkAccesses.Step threeBytes _ (.part 1 (.ok ⟨[1, 2], []⟩)) _ from rfl)
    (.cons (show ChunkAccesses.Step threeBytes _ (.part 0 (.ok ⟨[], []⟩)) _ from rfl)
    (.cons (show ChunkAccesses.Step threeBytes _ (.part 1 (.ok ⟨[], []⟩)) _ from rfl)
    (.cons (show ChunkAccesses.Step threeBytes _ (.begins ⟨.tx, 100⟩) _ from rfl)
    (.cons (show ChunkAccesses.Step threeBytes _ (.part 2 (.ok ⟨[], []⟩)) _ from rfl)
    (.cons (show ChunkAccesses.Step threeBytes _ (.part 2 (.ok ⟨[3, 4], []⟩)) _ from rfl)
    (.cons (show ChunkAccesses.Step threeBytes _ (.part 2 (.ok ⟨[], []⟩)) _ from rfl)
    (.nil _)))))))))))))).1, rfl, rfl, rfl, rfl⟩

end Sillage
