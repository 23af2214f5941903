import Sillage.Reader.Completeness
import Sillage.Reader.Floor

/-!
# The reported head

The summary of a stream tells the end of the chunk that starts last, and calls it the largest
end. The head of the catalog is the largest of these, and a replay is planned up to the head.
Nothing keeps a chunk from reaching beyond one that starts later. Here is when the head is
what it is called.
-/

namespace Sillage

/-- Why a call for the head fails. -/
inductive HeadError where
  | refused (status : Status)
  | notFound (message : String)
deriving DecidableEq

namespace ChunkCatalog

open Directory

/-- The newest slot held for any stream. -/
def latestSlot (catalog : ChunkCatalog) : Option Nat :=
  (catalog.summary.filterMap StreamSummary.maxEnd).max?

/-- The answer to a client that asks for the head. -/
def reportLatest (catalog : ChunkCatalog) (authTokens : List String) (metadata : MetadataMap) :
    Except HeadError Nat :=
  match validateAuth authTokens metadata with
  | .error status => .error (.refused status)
  | .ok _ =>
      match catalog.latestSlot with
      | some slot => .ok slot
      | none => .error (.notFound "no chunks available")

/-- The slot that the reader reports as the newest. -/
def getSlot (catalog : ChunkCatalog) (authTokens : List String) (metadata : MetadataMap) :
    Except HeadError Nat :=
  catalog.reportLatest authTokens metadata

/-- The block height is answered like the slot. -/
def getBlockHeight (catalog : ChunkCatalog) (authTokens : List String) (metadata : MetadataMap) :
    Except HeadError Nat :=
  catalog.reportLatest authTokens metadata

/-- A slot is the greatest end of the chunks of some streams. -/
structure IsHead (catalog : ChunkCatalog) (asked : Stream → Bool) (head : Nat) : Prop where
  reached : ∃ entry, catalog.Holds entry ∧ asked entry.stream = true ∧
    entry.endSlotExclusive = head
  greatest : ∀ entry, catalog.Holds entry → asked entry.stream = true →
    entry.endSlotExclusive ≤ head

/-- The head is reported as it is: in the summaries, for the catalog, by the two calls and as
the end of every plan, which leaves out no chunk that starts before its own end. -/
structure ReportsHead (catalog : ChunkCatalog) : Prop where
  summaries : ∀ stream ∈ catalog.summary, ∃ head, stream.maxEnd = some head ∧
    catalog.IsHead (· = stream.stream) head
  newest : ∀ head, catalog.newestEndSlot = some head ↔ catalog.IsHead (fun _ => true) head
  calls : ∀ (authTokens : List String) (metadata : MetadataMap) (client : ClientId),
    validateAuth authTokens metadata = .ok client → ∀ head,
      (catalog.getSlot authTokens metadata = .ok head ↔ catalog.IsHead (fun _ => true) head) ∧
      (catalog.getBlockHeight authTokens metadata = .ok head ↔ catalog.IsHead (fun _ => true) head)
  plans : ∀ (reader : Reader) (parsed : SubscriptionFilters) (cache : IndexCache)
    (explicit : Option Nat) (plan : ReplayPlan) (after : IndexCache),
    reader.planReplay catalog parsed cache explicit = .ok (plan, after) →
      catalog.IsHead (fun _ => true) plan.toSlotExclusive ∧
      ∀ entry, catalog.Holds entry → entry.startSlot < entry.endSlotExclusive →
        entry.startSlot < plan.toSlotExclusive ∧
        (entry ∈ catalog.chunksInRange entry.stream plan.fromSlot plan.toSlotExclusive ↔
          plan.fromSlot < entry.endSlotExclusive)

/-- In every stream the chunk that starts last ends last. -/
def EndsLast (catalog : ChunkCatalog) : Prop :=
  ∀ last, catalog.Holds last →
    (∀ other, catalog.Holds other → other.stream = last.stream →
      other.startSlot ≤ last.startSlot) →
    ∀ entry, catalog.Holds entry → entry.stream = last.stream →
      entry.endSlotExclusive ≤ last.endSlotExclusive

variable {catalog : ChunkCatalog}

/-- Where chunks end in the order of their starts, a summary tells the greatest end. -/
theorem EndsLast.isHead (endsLast : catalog.EndsLast) {stream : StreamSummary}
    (member : stream ∈ catalog.summary) :
    ∃ head, stream.maxEnd = some head ∧ catalog.IsHead (· = stream.stream) head := by
  obtain ⟨last, held, inStream, maxEnd, latest⟩ := maxEnd_spec member
  refine ⟨last.endSlotExclusive, maxEnd, ⟨last, held, by simp [inStream], rfl⟩, ?_⟩
  intro entry isHeld isAsked
  have sameStream : entry.stream = last.stream := (of_decide_eq_true isAsked).trans inStream.symm
  exact endsLast last held (fun other otherHeld same => latest other otherHeld
    (same.trans inStream)) entry isHeld sameStream

/-- Conversely, a stream whose summary tells the greatest end ends with its last chunk. -/
theorem endsLast_of_summaries (summaries : ∀ stream ∈ catalog.summary, ∃ head,
      stream.maxEnd = some head ∧ catalog.IsHead (· = stream.stream) head) :
    catalog.EndsLast := by
  intro last held latest entry isHeld sameStream
  obtain ⟨stream, member, inStream⟩ := summary_of_holds held
  obtain ⟨last', held', inStream', maxEnd, latest'⟩ := maxEnd_spec member
  obtain ⟨head, told, isHead⟩ := summaries stream member
  obtain rfl := Option.some.inj (maxEnd.symm.trans told)
  -- the two chunks with the last start are one
  have sameStart : last.startSlot = last'.startSlot :=
    Nat.le_antisymm (latest' last held inStream.symm)
      (latest last' held' (inStream'.trans inStream))
  have same : last = last' := by
    have found := held
    have found' := held'
    rw [Holds] at found found'
    rw [sameStart, ← inStream, ← inStream', found'] at found
    exact (Option.some.inj found).symm
  subst same
  exact isHead.greatest entry isHeld (by simp [sameStream, inStream])

/-- The largest of the ends in the summaries is the greatest end of all chunks. -/
theorem EndsLast.newest (endsLast : catalog.EndsLast) (head : Nat) :
    catalog.newestEndSlot = some head ↔ catalog.IsHead (fun _ => true) head := by
  rw [newestEndSlot, List.max?_eq_some_iff]
  simp only [List.mem_filterMap]
  constructor
  · rintro ⟨⟨stream, member, told⟩, greatest⟩
    obtain ⟨head', told', isHead⟩ := endsLast.isHead member
    obtain rfl := Option.some.inj (told.symm.trans told')
    obtain ⟨entry, held, -, ends⟩ := isHead.reached
    refine ⟨⟨entry, held, rfl, ends⟩, fun other isHeld _ => ?_⟩
    obtain ⟨own, inSummary, same⟩ := summary_of_holds isHeld
    obtain ⟨ownHead, ownTold, ownIsHead⟩ := endsLast.isHead inSummary
    exact (ownIsHead.greatest other isHeld (by simp [same])).trans
      (greatest ownHead ⟨own, inSummary, ownTold⟩)
  · rintro ⟨⟨entry, held, -, rfl⟩, greatest⟩
    obtain ⟨stream, member, same⟩ := summary_of_holds held
    obtain ⟨head, told, isHead⟩ := endsLast.isHead member
    have equal : head = entry.endSlotExclusive := by
      obtain ⟨other, isHeld, -, rfl⟩ := isHead.reached
      exact Nat.le_antisymm (greatest other isHeld rfl)
        (isHead.greatest entry held (by simp [same]))
    refine ⟨⟨stream, member, equal ▸ told⟩, ?_⟩
    rintro ends ⟨other, inSummary, otherTold⟩
    obtain ⟨otherHead, told', otherIsHead⟩ := endsLast.isHead inSummary
    obtain rfl := Option.some.inj (otherTold.symm.trans told')
    obtain ⟨reached, isHeld, -, rfl⟩ := otherIsHead.reached
    exact greatest reached isHeld rfl

/-- A client that is let in is told the head of the catalog. -/
theorem reportLatest_ok_iff {authTokens : List String} {metadata : MetadataMap} {client : ClientId}
    (allowed : validateAuth authTokens metadata = .ok client) (head : Nat) :
    catalog.reportLatest authTokens metadata = .ok head ↔ catalog.newestEndSlot = some head := by
  rw [reportLatest, allowed, show catalog.latestSlot = catalog.newestEndSlot from rfl]
  cases catalog.newestEndSlot <;> simp

/-- An accepted plan ends with the head of the catalog, and there is one. -/
theorem toSlotExclusive_of_accepted {reader : Reader} {parsed : SubscriptionFilters}
    {cache after : IndexCache} {explicit : Option Nat} {plan : ReplayPlan}
    (accepted : reader.planReplay catalog parsed cache explicit = .ok (plan, after)) :
    catalog.newestEndSlot = some plan.toSlotExclusive := by
  rw [Reader.planReplay] at accepted
  cases available : Reader.firstAvailable catalog parsed with
  | none =>
    rw [available] at accepted
    cases accepted
  | some first =>
    rw [available] at accepted
    have stop : plan.toSlotExclusive = catalog.newestEndSlot.getD 0 := by
      cases started : Reader.startSlot first explicit with
      | error error => simp [started, bind, Except.bind] at accepted
      | ok fromSlot =>
        simp only [started, bind, Except.bind] at accepted
        split at accepted
        · cases accepted
        · cases accepted
          rfl
    -- the floor is the start of a chunk, so that there is a head
    obtain ⟨entry, held, -, -⟩ := (isFloor_iff.mp available).reached
    obtain ⟨stream, member, -⟩ := summary_of_holds held
    obtain ⟨last, -, -, told, -⟩ := maxEnd_spec member
    have listed : last.endSlotExclusive ∈ catalog.summary.filterMap StreamSummary.maxEnd :=
      List.mem_filterMap.mpr ⟨stream, member, told⟩
    obtain ⟨head, isNewest⟩ := Option.ne_none_iff_exists'.mp
      (mt List.max?_eq_none_iff.mp (List.ne_nil_of_mem listed))
    rw [stop, newestEndSlot, isNewest, Option.getD_some]

/-- The head is reported as it is exactly if in every stream the chunk that starts last ends
last. -/
theorem reportsHead_iff (catalog : ChunkCatalog) : catalog.ReportsHead ↔ catalog.EndsLast := by
  constructor
  · exact fun reports => endsLast_of_summaries reports.summaries
  · intro endsLast
    constructor
    case summaries => exact fun stream member => endsLast.isHead member
    case newest => exact endsLast.newest
    case calls =>
      intro authTokens metadata client allowed head
      rw [getSlot, getBlockHeight, reportLatest_ok_iff allowed, endsLast.newest]
      exact ⟨Iff.rfl, Iff.rfl⟩
    case plans =>
      intro reader parsed cache explicit plan after accepted
      have isHead := (endsLast.newest _).mp (toSlotExclusive_of_accepted accepted)
      refine ⟨isHead, fun entry held ranged => ?_⟩
      have below := Nat.lt_of_lt_of_le ranged (isHead.greatest entry held rfl)
      refine ⟨below, ?_⟩
      rw [mem_chunksInRange]
      exact ⟨fun inRange => inRange.2.2.2, fun above => ⟨rfl, held, below, above⟩⟩

/-- Of two nested chunks the summary tells the end of the inner one; and a chunk whose name
puts its end before its start cuts an earlier one out of every plan. -/
theorem scanned_head_low :
    let scanned (dir : Dir) : ChunkCatalog :=
      scan PlainCodecs.plain (txOnly dir) (fun stream => (txOnly dir stream).keys)
    let nested := scanned (addTrio 500 600 (addTrio 0 1000 ∅))
    let reversed := scanned (addTrio 700 100 (addTrio 600 1000 ∅))
    (nested.newestEndSlot = some 600 ∧ nested.getSlot [] ⟨none, none⟩ = .ok 600 ∧
      ((nested.streams .tx)[0]?.map ChunkEntry.endSlotExclusive) = some 1000) ∧
    reversed.newestEndSlot = some 100 ∧
      ((reversed.streams .tx)[600]?.map ChunkEntry.endSlotExclusive) = some 1000 ∧
      reversed.chunksInRange .tx 0 100 = [] := by
  decide +kernel

/-- Chunks that do not overlap end in the order of their starts. -/
theorem endsLast_of_disjoint (ranged : catalog.Ranged)
    (disjoint : ∀ first second, catalog.Holds first → catalog.Holds second →
      first.stream = second.stream → first.startSlot < second.startSlot →
        first.endSlotExclusive ≤ second.startSlot) : catalog.EndsLast := by
  intro last held latest entry isHeld sameStream
  rcases Nat.lt_or_eq_of_le (latest entry isHeld sameStream) with before | same
  · exact (disjoint entry last isHeld held sameStream before).trans (ranged last held).le
  · have equal : entry = last := by
      have found := isHeld
      rw [Holds, sameStream, same, held] at found
      exact (Option.some.inj found).symm
    rw [equal]

end ChunkCatalog

end Sillage
