import Sillage.EndToEnd.Fidelity
import Sillage.Reader.Follow

/-!
# What a follower has delivered

The passes of a follower serve one catalog after the other. Each but the last is drained,
and each starts behind the slot that was sent last. Since that slot is all that a follower
remembers, it sends a message twice when a pass ends on a lower slot than it has sent,
and misses a message that lands behind it.
-/

namespace Sillage

open LittleEndian KWayMerge

variable {reader : Reader} {collection : Collection reader} {filters : SubscriptionFilters}

/-- A pass served its catalog. -/
structure Pass.Served (collection : Collection reader) (filters : SubscriptionFilters)
    (pass : Pass) (whole taken : List (Stream × Peeked)) : Prop where
  holds : ∀ entry, pass.catalog.Holds entry → collection.held entry
  serves : collection.Serves filters pass.catalog pass.plan.fromSlot pass.outcome whole taken

/-- The passes of a follower, with the slot that was sent last. -/
inductive Trace (collection : Collection reader) (filters : SubscriptionFilters) :
    List Pass → Option Nat → Prop where
  | none : Trace collection filters [] none
  | pass (passes : List Pass) (lastSlot : Option Nat) (pass : Pass)
      (whole taken : List (Stream × Peeked)) (earlier : Trace collection filters passes lastSlot)
      (drained : ∀ before ∈ passes, before.outcome.stats.drained = true)
      (start : ∀ slot, lastSlot = some slot → pass.plan.fromSlot = slot + 1)
      (served : pass.Served collection filters whole taken) :
      Trace collection filters (passes ++ [pass]) (pass.outcome.stats.lastSlot.or lastSlot)

/-- A follower between two turns: its passes are drained, its caches agree with the
collection, and it has its first plan left only before the first pass. -/
structure Following (collection : Collection reader) (ctx : FollowContext) (s : FollowState) :
    Prop where
  trace : Trace collection ctx.filters s.passes s.total.lastSlot
  drained : ∀ pass ∈ s.passes, pass.outcome.stats.drained = true
  indexes : s.indexCache.Holds (reader.IndexAgrees collection.held)
  chunks : s.chunkCache.Holds (ChunkAgrees reader (collection.PlansOf ctx.filters))
  first : ∀ catalog plan, s.planned = some (catalog, plan) → s.total.lastSlot = none ∧
    (∀ entry, catalog.Holds entry → collection.held entry) ∧
    Reader.Covers reader catalog ctx.filters ctx.filters.fromSlot plan

/-- What one more pass has sent comes behind what the others have. -/
theorem handedOver_append (passes : List Pass) (pass : Pass) :
    handedOver (passes ++ [pass]) = handedOver passes ++ pass.outcome.sent := by
  simp [handedOver]

/-- The messages due in a pass of a trace. -/
theorem Pass.Served.due_of_sent {pass : Pass} {whole taken : List (Stream × Peeked)}
    (served : pass.Served collection filters whole taken) {sent : Stream × Sent}
    (member : sent ∈ pass.outcome.sent) :
    ∃ entry item, pass.catalog.Holds entry ∧ item ∈ collection.selected filters entry ∧
      pass.plan.fromSlot ≤ item.slot ∧ sent = (entry.stream, Replay.handed item) := by
  rw [served.serves.sent] at member
  obtain ⟨⟨stream, item⟩, isTaken, rfl⟩ := List.mem_map.mp member
  obtain ⟨entry, isHeld, rfl, chosen, above⟩ :=
    Collection.mem_due.mp (served.serves.due_of_mem isTaken)
  exact ⟨entry, item, isHeld, chosen, above, rfl⟩

/-- A drained pass has sent every selected message from its slot on. -/
theorem Pass.Served.sent_of_selected {pass : Pass} {whole taken : List (Stream × Peeked)}
    (served : pass.Served collection filters whole taken)
    (drained : pass.outcome.stats.drained = true) {entry : ChunkEntry}
    (isHeld : pass.catalog.Holds entry) {item : Peeked}
    (chosen : item ∈ collection.selected filters entry) (above : pass.plan.fromSlot ≤ item.slot) :
    (entry.stream, Replay.handed item) ∈ pass.outcome.sent := by
  rw [served.serves.sent]
  exact List.mem_map_of_mem (f := Replay.toSent) (served.serves.mem_of_due drained
    (Collection.mem_due.mpr ⟨entry, isHeld, rfl, chosen, above⟩))

/-- A pass sends from its slot on, and its last slot is one of those sent. -/
theorem Pass.Served.lastSlot_above {pass : Pass} {whole taken : List (Stream × Peeked)}
    (served : pass.Served collection filters whole taken) {slot : Nat}
    (last : pass.outcome.stats.lastSlot = some slot) : pass.plan.fromSlot ≤ slot := by
  rw [served.serves.lastSlot] at last
  obtain ⟨item, isLast, rfl⟩ := Option.map_eq_some_iff.mp last
  obtain ⟨-, -, -, -, above⟩ :=
    Collection.mem_due.mp (served.serves.due_of_mem (List.mem_of_getLast? isLast))
  exact above

/-- The pass ends on the greatest slot that is due. -/
def Pass.EndsHigh (collection : Collection reader) (filters : SubscriptionFilters) (pass : Pass) :
    Prop :=
  KWayMerge.EndsHigh Peeked.slot (collection.due filters pass.catalog pass.plan.fromSlot)

/-- A drained pass that ends high has sent no slot above the last one. -/
theorem Pass.Served.below_last {pass : Pass} {whole taken : List (Stream × Peeked)}
    (served : pass.Served collection filters whole taken)
    (drained : pass.outcome.stats.drained = true) (high : pass.EndsHigh collection filters)
    {sent : Stream × Sent} (member : sent ∈ pass.outcome.sent) :
    ∃ slot, pass.outcome.stats.lastSlot = some slot ∧ sent.2.slot ≤ slot := by
  have all := served.serves.drained drained
  subst all
  rw [served.serves.sent] at member
  obtain ⟨item, isTaken, rfl⟩ := List.mem_map.mp member
  cases last : taken.getLast? with
  | none =>
    rw [List.getLast?_eq_none_iff.mp last] at isTaken
    cases isTaken
  | some final =>
    have bound := (merged_ends_high served.serves.merged final last).mp high item isTaken
    exact ⟨final.2.slot, by rw [served.serves.lastSlot, last]; rfl, bound⟩

namespace Trace

/-- Every pass but the last is drained. -/
theorem drained_before {passes : List Pass} {lastSlot : Option Nat}
    (trace : Trace collection filters passes lastSlot) :
    ∀ pass ∈ passes.dropLast, pass.outcome.stats.drained = true := by
  cases trace with
  | none => simp
  | pass passes lastSlot pass whole taken earlier drained start served => simpa using drained

/-- Every pass served its catalog. -/
theorem served {passes : List Pass} {lastSlot : Option Nat}
    (trace : Trace collection filters passes lastSlot) :
    ∀ pass ∈ passes, ∃ whole taken, pass.Served collection filters whole taken := by
  induction trace with
  | none => simp
  | pass passes lastSlot pass whole taken earlier drained start served inductionHypothesis =>
    intro one member
    rcases List.mem_append.mp member with before | last
    · exact inductionHypothesis one before
    · obtain rfl := List.mem_singleton.mp last
      exact ⟨whole, taken, served⟩

/-- Drained passes that end high have sent no slot above the last one. -/
theorem below_last {passes : List Pass} {lastSlot : Option Nat}
    (trace : Trace collection filters passes lastSlot)
    (drained : ∀ pass ∈ passes, pass.outcome.stats.drained = true)
    (high : ∀ pass ∈ passes, pass.EndsHigh collection filters) {sent : Stream × Sent}
    (member : sent ∈ handedOver passes) : ∃ slot, lastSlot = some slot ∧ sent.2.slot ≤ slot := by
  induction trace with
  | none => simp [handedOver] at member
  | pass passes lastSlot pass whole taken earlier _ start served inductionHypothesis =>
    rw [handedOver_append] at member
    rcases List.mem_append.mp member with before | here
    · obtain ⟨slot, isLast, below⟩ := inductionHypothesis
        (fun one isOne => drained one (by simp [isOne]))
        (fun one isOne => high one (by simp [isOne])) before
      cases last : pass.outcome.stats.lastSlot with
      | none => exact ⟨slot, isLast, below⟩
      | some slot' =>
        have above := served.lastSlot_above last
        rw [start slot isLast] at above
        exact ⟨slot', rfl, by omega⟩
    · obtain ⟨slot, isLast, below⟩ :=
        served.below_last (drained pass (by simp)) (high pass (by simp)) here
      exact ⟨slot, by simp [isLast], below⟩

/-- The origins of the messages that passes have sent. -/
theorem once_of_high {passes : List Pass} {lastSlot : Option Nat}
    (trace : Trace collection filters passes lastSlot)
    (high : ∀ pass ∈ passes.dropLast, pass.EndsHigh collection filters) :
    ((handedOver passes).map (fun sent => sent.2.origin)).Nodup := by
  induction trace with
  | none => simp [handedOver]
  | pass passes lastSlot pass whole taken earlier drained start served inductionHypothesis =>
    rw [List.dropLast_concat] at high
    rw [handedOver_append, List.map_append]
    refine List.Nodup.append (inductionHypothesis
      (fun one member => high one (List.dropLast_subset _ member))) served.serves.nodup ?_
    intro origin before here
    obtain ⟨sent, isSent, rfl⟩ := List.mem_map.mp before
    obtain ⟨sent', isSent', same⟩ := List.mem_map.mp here
    -- the message would have one slot below and one above the slot sent last
    obtain ⟨slot, isLast, below⟩ := earlier.below_last drained high isSent
    obtain ⟨entry', item', isHeld', chosen', above, rfl⟩ := served.due_of_sent isSent'
    obtain ⟨first, isFirst, member⟩ := List.mem_flatMap.mp isSent
    obtain ⟨_, _, served'⟩ := earlier.served first isFirst
    obtain ⟨entry, item, isHeld, chosen, -, rfl⟩ := served'.due_of_sent member
    obtain ⟨-, rfl⟩ := Collection.selected_unique (served'.holds entry isHeld)
      (served.holds entry' isHeld') chosen chosen' same.symm
    rw [start slot isLast] at above
    simp only [Replay.handed] at below
    omega

/-- Passes over growing catalogs that send no message twice end high, but for the last. -/
theorem high_of_once {passes : List Pass} {lastSlot : Option Nat}
    (trace : Trace collection filters passes lastSlot)
    (drained : ∀ pass ∈ passes, pass.outcome.stats.drained = true)
    (grow : passes.Pairwise (fun first second =>
      ∀ entry, first.catalog.Holds entry → second.catalog.Holds entry))
    (once : ((handedOver passes).map (fun sent => sent.2.origin)).Nodup) :
    ∀ pass ∈ passes.dropLast, pass.EndsHigh collection filters := by
  induction trace with
  | none => simp
  | pass passes lastSlot pass whole taken earlier _ start served inductionHypothesis =>
    rw [List.dropLast_concat]
    rw [handedOver_append, List.map_append] at once
    obtain ⟨growBefore, -, growHere⟩ := List.pairwise_append.mp grow
    have before := inductionHypothesis (fun one member => drained one (by simp [member]))
      growBefore once.of_append_left
    cases earlier with
    | none => simp
    | pass passes lastSlot previous whole' taken' earlier' _ start' served' =>
      rw [List.dropLast_concat] at before
      intro one member
      rcases List.mem_append.mp member with isBefore | isPrevious
      · exact before one isBefore
      · obtain rfl := List.mem_singleton.mp isPrevious
        have all := served'.serves.drained (drained one (by simp))
        subst all
        cases last : taken'.getLast? with
        | none =>
          intro i item greatest
          have emitted := (mem_merged served'.serves.merged (i, item)).mpr greatest.1
          rw [List.getLast?_eq_none_iff.mp last] at emitted
          cases emitted
        | some final =>
          refine (merged_ends_high served'.serves.merged final last).mpr (fun item emitted => ?_)
          by_contra later
          have sentLast : one.outcome.stats.lastSlot = some final.2.slot := by
            rw [served'.serves.lastSlot, last]
            rfl
          have resumed := start final.2.slot (by simp [sentLast])
          obtain ⟨entry, isHeld, stream, chosen, -⟩ :=
            Collection.mem_due.mp (served'.serves.due_of_mem emitted)
          -- the next pass sends the message again
          have again := served.sent_of_selected (drained pass (by simp))
            (growHere one (by simp) pass (by simp) entry isHeld) chosen (by omega)
          have sent : (entry.stream, Replay.handed item.2) ∈ one.outcome.sent := by
            rw [served'.serves.sent, stream]
            exact List.mem_map_of_mem (f := Replay.toSent) emitted
          have twice := List.disjoint_of_nodup_append once
          refine twice (List.mem_map.mpr ⟨_, ?_, rfl⟩) (List.mem_map.mpr ⟨_, again, rfl⟩)
          rw [handedOver_append]
          exact List.mem_append_right _ sent

end Trace

/-- A pass that misses nothing: every subscribed message of its catalog from the session's
first slot on has been handed over by the end of the pass. -/
def Complete (collection : Collection reader) (filters : SubscriptionFilters) (firstSlot : Nat)
    (passes : List Pass) (pass : Pass) : Prop :=
  ∀ entry, pass.catalog.Holds entry → ∀ item ∈ collection.selected filters entry,
    firstSlot ≤ item.slot → (entry.stream, Replay.handed item) ∈ handedOver passes

/-- No subscribed message from the session's first slot on that lands with a pass, in a chunk
that no earlier one had, lies below the slot from which the pass is planned. -/
def LandsAhead (collection : Collection reader) (filters : SubscriptionFilters) (firstSlot : Nat)
    (earlier : List Pass) (pass : Pass) : Prop :=
  ∀ entry, pass.catalog.Holds entry → (∀ before ∈ earlier, ¬ before.catalog.Holds entry) →
    ∀ item ∈ collection.selected filters entry, firstSlot ≤ item.slot →
      pass.plan.fromSlot ≤ item.slot

/-- The first pass whose catalog holds a chunk. -/
theorem exists_first_holding (passes : List Pass) (entry : ChunkEntry)
    (somewhere : ∃ pass ∈ passes, pass.catalog.Holds entry) :
    ∃ earlier pass later, passes = earlier ++ pass :: later ∧ pass.catalog.Holds entry ∧
      ∀ before ∈ earlier, ¬ before.catalog.Holds entry := by
  induction passes with
  | nil => simp at somewhere
  | cons pass rest inductionHypothesis =>
    by_cases here : pass.catalog.Holds entry
    · exact ⟨[], pass, rest, rfl, here, by simp⟩
    · have later : ∃ pass ∈ rest, pass.catalog.Holds entry := by
        obtain ⟨other, member, holds⟩ := somewhere
        rcases List.mem_cons.mp member with rfl | isLater
        · exact absurd holds here
        · exact ⟨other, isLater, holds⟩
      obtain ⟨earlier, first, after, split, holds, fresh⟩ := inductionHypothesis later
      refine ⟨pass :: earlier, first, after, by rw [split, List.cons_append], holds, ?_⟩
      exact List.forall_mem_cons.mpr ⟨here, fresh⟩

namespace Trace

/-- A message that landed behind its pass's slot was not sent. -/
theorem landsAhead_of_complete {passes : List Pass} {lastSlot : Option Nat}
    (trace : Trace collection filters passes lastSlot) {earlier later : List Pass} {pass : Pass}
    (split : passes = earlier ++ pass :: later) {firstSlot : Nat}
    (complete : Complete collection filters firstSlot (earlier ++ [pass]) pass) :
    LandsAhead collection filters firstSlot earlier pass := by
  intro entry isHeld fresh item chosen above
  have isPass : pass ∈ passes := by simp [split]
  obtain ⟨_, _, served⟩ := trace.served pass isPass
  have sent := complete entry isHeld item chosen above
  obtain ⟨one, isOne, member⟩ := List.mem_flatMap.mp sent
  have isAmong : one ∈ passes := by
    rw [split]
    rcases List.mem_append.mp isOne with before | here
    · exact List.mem_append_left _ before
    · simp [List.mem_singleton.mp here]
  obtain ⟨_, _, servedOne⟩ := trace.served one isAmong
  obtain ⟨other, item', otherHeld, chosen', above', same⟩ := servedOne.due_of_sent member
  have origins : item.origin = item'.origin :=
    congrArg (fun sent : Stream × Sent => sent.2.origin) same
  obtain ⟨rfl, rfl⟩ := Collection.selected_unique (served.holds entry isHeld)
    (servedOne.holds other otherHeld) chosen chosen' origins
  rcases List.mem_append.mp isOne with before | here
  · exact absurd otherHeld (fresh one before)
  · obtain rfl := List.mem_singleton.mp here
    exact above'

/-- When nothing landed behind, a drained pass misses nothing. The first pass whose catalog
held a chunk has sent its messages. -/
theorem complete_of_landsAhead {passes : List Pass} {lastSlot : Option Nat}
    (trace : Trace collection filters passes lastSlot) {firstSlot : Nat}
    (ahead : ∀ earlier pass later, passes = earlier ++ pass :: later →
      pass.outcome.stats.drained = true →
      LandsAhead collection filters firstSlot earlier pass)
    {earlier later : List Pass} {pass : Pass} (split : passes = earlier ++ pass :: later)
    (drained : pass.outcome.stats.drained = true) :
    Complete collection filters firstSlot (earlier ++ [pass]) pass := by
  intro entry isHeld item chosen above
  obtain ⟨front, first, rest, isSplit, firstHolds, fresh⟩ :=
    exists_first_holding (earlier ++ [pass]) entry ⟨pass, by simp, isHeld⟩
  have whole : passes = front ++ first :: (rest ++ later) := by
    rw [split, ← List.singleton_append, ← List.append_assoc, isSplit, List.append_assoc,
      List.cons_append]
  have isFirst : first ∈ earlier ++ [pass] := by simp [isSplit]
  have firstDrained : first.outcome.stats.drained = true := by
    rcases List.mem_append.mp isFirst with before | here
    · refine trace.drained_before first ?_
      rw [split, List.dropLast_append_cons]
      exact List.mem_append_left _ before
    · exact List.mem_singleton.mp here ▸ drained
  obtain ⟨_, _, served⟩ := trace.served first (by simp [whole])
  exact List.mem_flatMap.mpr ⟨first, isFirst, served.sent_of_selected firstDrained firstHolds
    chosen (ahead front first _ whole firstDrained entry firstHolds fresh item chosen above)⟩

end Trace

namespace Follow

variable {ctx : FollowContext}

/-- The plan of a turn covers its catalog, from behind the slot sent last. -/
theorem nextPlan_covers {turn : Turn} {s : FollowState} (following : Following collection ctx s)
    (published : ∀ entry, turn.catalog.Holds entry → collection.held entry)
    {catalog : ChunkCatalog} {plan : ReplayPlan} {indexCache : IndexCache}
    (next : nextPlan reader ctx turn s = .ok (catalog, plan, indexCache)) :
    (∀ entry, catalog.Holds entry → collection.held entry) ∧
    (∃ explicit, Reader.Covers reader catalog ctx.filters explicit plan) ∧
    (∀ slot, s.total.lastSlot = some slot → plan.fromSlot = slot + 1) ∧
    indexCache.Holds (reader.IndexAgrees collection.held) := by
  cases left : s.planned with
  | some first =>
    obtain ⟨catalog', plan'⟩ := first
    simp only [nextPlan, left, Except.ok.injEq, Prod.mk.injEq] at next
    obtain ⟨rfl, rfl, rfl⟩ := next
    obtain ⟨fresh, holds, covers⟩ := following.first _ _ left
    exact ⟨holds, ⟨_, covers⟩, by simp [fresh], following.indexes⟩
  | none =>
    simp only [nextPlan, left, bind, Except.bind] at next
    cases resume : resumeFrom ctx s.total.lastSlot with
    | error reason => simp [resume] at next
    | ok explicit =>
      rw [resume] at next
      dsimp only at next
      cases accepted : reader.planReplay turn.catalog ctx.filters s.indexCache explicit with
      | error error => simp [accepted] at next
      | ok made =>
        rw [accepted] at next
        obtain ⟨rfl, rfl⟩ : turn.catalog = catalog ∧ made = (plan, indexCache) := by
          simpa using next
        obtain ⟨covers, agrees⟩ := Reader.planReplay_inv collection.distinguished published
          following.indexes accepted
        refine ⟨published, ⟨explicit, covers⟩, fun slot last => ?_, agrees⟩
        obtain ⟨first, -, -, start⟩ := covers.start
        rw [start]
        simp only [resumeFrom, last] at resume
        split at resume
        · rw [← Except.ok.inj resume]
          rfl
        · cases resume

/-- One turn adds at most one pass, and goes on only behind a drained one. -/
theorem followTurn_trace {turn : Turn} {s : FollowState} (following : Following collection ctx s)
    (published : ∀ entry, turn.catalog.Holds entry → collection.held entry) :
    match followTurn reader ctx turn s with
    | .continues s' => Following collection ctx s'
    | .ends _ s' => Trace collection ctx.filters s'.passes s'.total.lastSlot := by
  rcases followTurn_cases reader ctx turn s with
    ends | ⟨reason, -, ends⟩ | ⟨catalog, plan, indexCache, next, drives⟩
  · rw [ends]
    exact following.trace
  · rw [ends]
    exact following.trace
  · obtain ⟨holds, ⟨explicit, covers⟩, start, indexes⟩ := nextPlan_covers following published next
    obtain ⟨outcome, whole, taken, done, serves, chunks⟩ :=
      Collection.replay_serves Collection.oneFile holds covers
        (fun _ => Collection.plansOf_has holds covers) following.chunks turn.drive s.pacer
    rcases drives with ⟨error, failed, -⟩ | ⟨returned, done', settles⟩
    · cases done.symm.trans failed
    obtain rfl := Except.ok.inj (done.symm.trans done')
    have trace : Trace collection ctx.filters (s.passes ++ [⟨catalog, plan, outcome⟩])
        (addStats s.total outcome.stats).lastSlot := by
      rw [addStats_lastSlot]
      exact .pass _ _ ⟨catalog, plan, outcome⟩ whole taken following.trace following.drained
        start ⟨holds, serves⟩
    rw [settles]
    rcases settle_cases ctx turn outcome.stats (passed s ⟨catalog, plan, outcome⟩ indexCache) with
      ⟨-, ends⟩ | ⟨drained, ⟨deadline, goesOn⟩ | ⟨-, ends⟩ | ends⟩
    · rw [ends]
      exact trace
    · rw [goesOn]
      refine ⟨trace, fun pass member => ?_, indexes, chunks, by simp [passed]⟩
      rcases List.mem_append.mp member with before | last
      · exact following.drained pass before
      · exact List.mem_singleton.mp last ▸ drained
    · rw [ends]
      exact trace
    · rw [ends]
      exact trace

/-- A run of turns makes a trace of passes. -/
theorem followLoop_trace (env : Nat → Turn)
    (published : ∀ round entry, (env round).catalog.Holds entry → collection.held entry)
    (turns round : Nat) {s : FollowState} (following : Following collection ctx s) :
    Trace collection ctx.filters (followLoop reader ctx env turns round s).1.passes
      (followLoop reader ctx env turns round s).1.total.lastSlot :=
  followLoop_keeps reader ctx (Following collection ctx)
    (fun s => Trace collection ctx.filters s.passes s.total.lastSlot)
    (fun round _ following => followTurn_trace following (published round))
    (fun _ following => following.trace) turns round following

/-- A follower whose first plan was accepted makes a trace of passes. -/
theorem followReplay_trace (env : Nat → Turn) (turns now : Nat)
    (published : ∀ round entry, (env round).catalog.Holds entry → collection.held entry)
    {catalog : ChunkCatalog} (holds : ∀ entry, catalog.Holds entry → collection.held entry)
    {indexCache indexCache' : IndexCache} {chunkCache : ChunkCache} {plan : ReplayPlan}
    (indexes : indexCache.Holds (reader.IndexAgrees collection.held))
    (chunks : chunkCache.Holds (ChunkAgrees reader (collection.PlansOf ctx.filters)))
    (accepted : reader.planReplay catalog ctx.filters indexCache ctx.filters.fromSlot =
      .ok (plan, indexCache')) :
    ∃ lastSlot, Trace collection ctx.filters
      (followReplay reader ctx env turns now catalog plan indexCache' chunkCache).1.passes
        lastSlot := by
  obtain ⟨covers, indexes'⟩ :=
    Reader.planReplay_inv collection.distinguished holds indexes accepted
  refine ⟨_, followLoop_trace env published turns 0 ⟨.none, by simp, indexes', chunks, ?_⟩⟩
  intro catalog' plan' same
  obtain ⟨rfl, rfl⟩ := Prod.mk.inj (Option.some.inj same)
  exact ⟨rfl, holds, covers⟩

/-- A follower sends no message twice when every pass but the last ends on the greatest slot
that is due in it. Over catalogs that only grow it sends one twice otherwise, as soon as its
passes are drained. -/
theorem followReplay_once (collection : Collection reader) (ctx : FollowContext)
    (env : Nat → Turn) (turns now : Nat) (catalog : ChunkCatalog) (plan : ReplayPlan)
    (indexCache indexCache' : IndexCache) (chunkCache : ChunkCache)
    (published : ∀ round entry, (env round).catalog.Holds entry → collection.held entry)
    (holds : ∀ entry, catalog.Holds entry → collection.held entry)
    (indexes : indexCache.Holds (reader.IndexAgrees collection.held))
    (chunks : chunkCache.Holds (ChunkAgrees reader (collection.PlansOf ctx.filters)))
    (accepted : reader.planReplay catalog ctx.filters indexCache ctx.filters.fromSlot =
      .ok (plan, indexCache')) :
    let passes :=
      (followReplay reader ctx env turns now catalog plan indexCache' chunkCache).1.passes
    ((∀ pass ∈ passes.dropLast, pass.EndsHigh collection ctx.filters) →
      ((handedOver passes).map (fun sent => sent.2.origin)).Nodup) ∧
    ((∀ pass ∈ passes, pass.outcome.stats.drained = true) →
      passes.Pairwise (fun first second =>
        ∀ entry, first.catalog.Holds entry → second.catalog.Holds entry) →
      ((handedOver passes).map (fun sent => sent.2.origin)).Nodup →
        ∀ pass ∈ passes.dropLast, pass.EndsHigh collection ctx.filters) := by
  obtain ⟨lastSlot, trace⟩ :=
    followReplay_trace env turns now published holds indexes chunks accepted
  exact ⟨trace.once_of_high, trace.high_of_once⟩

/-- The catalog in which the chunks of some of the streams have landed. -/
def landed (cfg : WriterConfig) (ops : Stream → List Chunker.Op) (streams : List Stream) :
    ChunkCatalog :=
  ChunkCatalog.scan PlainCodecs.plain (readerOf cfg ops).files
    (fun stream => if stream ∈ streams then ((readerOf cfg ops).files stream).keys else [])

/-- What has landed in the catalog is held in the collection. -/
theorem landed_held {cfg : WriterConfig} {ops : Stream → List Chunker.Op} (sound : Sound cfg ops)
    (streams : List Stream) (entry : ChunkEntry) (holds : (landed cfg ops streams).Holds entry) :
    sound.collection.held entry :=
  scan_sealed PlainCodecs.plain_roundTrip.json sound.archives sound.recordable holds

/-- A subscription to everything that is never paced and waits for a second. -/
def unpaced : FollowContext where
  filters := everything
  pacing := ⟨false, id, 0, 0⟩
  idleTimeout := 10 ^ 9

/-- Turns over one catalog, with a subscriber that takes every message at once. -/
def steady (catalog : ChunkCatalog) : Nat → Turn := fun _ => ⟨false, catalog, promptly, 0, false⟩

/-- The passes in two turns of a follower that is accepted when some streams have landed and
goes on when all have. -/
def twoPasses (cfg : WriterConfig) (ops : Stream → List Chunker.Op) (early : List Stream)
    (plan : ReplayPlan) (indexCache : IndexCache) : List Pass :=
  (followReplay (readerOf cfg ops) unpaced (steady (landed cfg ops Stream.all)) 2 0
    (landed cfg ops early) plan indexCache Lru.Cache.new).1.passes

/-- The first plan of such a follower, with the passes. -/
def twoTurns (cfg : WriterConfig) (ops : Stream → List Chunker.Op) (early : List Stream) :
    Option (ReplayPlan × IndexCache × List Pass) := do
  let (plan, indexCache) ← ((readerOf cfg ops).planReplay (landed cfg ops early) everything
    Lru.Cache.new none).toOption
  some (plan, indexCache, twoPasses cfg ops early plan indexCache)

/-- The first plan of such a follower is accepted. -/
theorem twoTurns_accepted {cfg : WriterConfig} {ops : Stream → List Chunker.Op}
    {early : List Stream} {plan : ReplayPlan} {indexCache : IndexCache} {passes : List Pass}
    (turned : twoTurns cfg ops early = some (plan, indexCache, passes)) :
    (readerOf cfg ops).planReplay (landed cfg ops early) unpaced.filters Lru.Cache.new
        unpaced.filters.fromSlot = .ok (plan, indexCache) ∧
      passes = twoPasses cfg ops early plan indexCache := by
  simp only [twoTurns, Option.bind_eq_bind, Option.bind_eq_some_iff] at turned
  obtain ⟨⟨plan', indexCache'⟩, planned, same⟩ := turned
  obtain ⟨rfl, rest⟩ := Prod.mk.inj (Option.some.inj same)
  obtain ⟨rfl, rfl⟩ := Prod.mk.inj rest
  exact ⟨ok_of_toOption planned, rfl⟩

/-- Blocks of two slots, in order of arrival. -/
def blocks (first second : Nat) : Stream → List Chunker.Op
  | .block => [.ingest ⟨0, ⟨0, Replay.bareBlock first⟩, first⟩,
      .ingest ⟨0, ⟨0, Replay.bareBlock second⟩, second⟩]
  | _ => []

/-- Two blocks whose slots fit keep what the callers promise. -/
theorem blocks_sound {first second : Nat} (fits : Fits ⟨1000, 100, 4⟩ first)
    (fits' : Fits ⟨1000, 100, 4⟩ second)
    (small : (PlainCodecs.plain.prostEncode (Replay.bareBlock first)).length < 2 ^ 32)
    (small' : (PlainCodecs.plain.prostEncode (Replay.bareBlock second)).length < 2 ^ 32) :
    Sound ⟨1000, 100, 4⟩ (blocks first second) where
  positive := by decide
  capped := by decide
  short stream := by cases stream <;> simp [blocks]
  fits stream := by cases stream <;> simp [blocks, fits, fits']
  slots stream := by
    cases stream <;> simp [blocks, extractSlot, Replay.bareBlock, Replay.bare]
  small stream := by
    cases stream with
    | block => exact List.forall_mem_cons.mpr ⟨small, List.forall_mem_cons.mpr ⟨small', by simp⟩⟩
    | _ => simp [blocks]

/-- Blocks that arrive in slot order are sent once. -/
theorem followReplay_once_blocks :
    ∃ plan indexCache passes, twoTurns ⟨1000, 100, 4⟩ (blocks 10 20) Stream.all =
        some (plan, indexCache, passes) ∧
      ((handedOver passes).map (fun sent => sent.2.origin)).Nodup := by
  have sound : Sound ⟨1000, 100, 4⟩ (blocks 10 20) := blocks_sound
    ⟨by decide, by decide, by decide⟩ ⟨by decide, by decide, by decide⟩ (by decide +kernel)
    (by decide +kernel)
  have accepted : (twoTurns ⟨1000, 100, 4⟩ (blocks 10 20) Stream.all).isSome = true := by
    decide +kernel
  obtain ⟨⟨plan, indexCache, passes⟩, turned⟩ := Option.isSome_iff_exists.mp accepted
  obtain ⟨planned, rfl⟩ := twoTurns_accepted turned
  refine ⟨plan, indexCache, _, turned, ?_⟩
  have published := fun (_ : Nat) => landed_held sound Stream.all
  have inOrder := sound.inOrder (fun stream => by cases stream <;> simp [blocks])
  obtain ⟨lastSlot, trace⟩ := followReplay_trace (steady _) 2 0 published
    (landed_held sound Stream.all) Lru.holds_new Lru.holds_new planned
  refine (followReplay_once sound.collection unpaced _ 2 0 _ plan Lru.Cache.new indexCache
    Lru.Cache.new published (landed_held sound Stream.all) Lru.holds_new Lru.holds_new planned).1
    (fun pass member => endsHigh_of_sorted (fun stream => ?_))
  obtain ⟨_, _, served⟩ := trace.served pass (List.dropLast_subset _ member)
  exact Collection.due_sorted inOrder sound.apart served.holds _ stream

/-- A block of slot 20 that arrived before one of slot 10 is sent in the first pass and, since
that ends on slot 10, again in the second. -/
theorem followReplay_repeats :
    ∃ sound : Sound ⟨1000, 100, 4⟩ (blocks 20 10), ∃ plan indexCache passes,
      twoTurns ⟨1000, 100, 4⟩ (blocks 20 10) Stream.all = some (plan, indexCache, passes) ∧
      (∀ entry, (landed ⟨1000, 100, 4⟩ (blocks 20 10) Stream.all).Holds entry →
        sound.collection.held entry) ∧
      ¬ ((handedOver passes).map (fun sent => sent.2.origin)).Nodup := by
  have sound : Sound ⟨1000, 100, 4⟩ (blocks 20 10) := blocks_sound
    ⟨by decide, by decide, by decide⟩ ⟨by decide, by decide, by decide⟩ (by decide +kernel)
    (by decide +kernel)
  have computed : (twoTurns ⟨1000, 100, 4⟩ (blocks 20 10) Stream.all).map (fun session =>
      (handedOver session.2.2).map (fun sent => sent.2.origin)) =
        some [⟨.block, 0, 0⟩, ⟨.block, 0, 1⟩, ⟨.block, 0, 0⟩] := by decide +kernel
  obtain ⟨⟨plan, indexCache, passes⟩, turned, origins⟩ := Option.map_eq_some_iff.mp computed
  refine ⟨sound, plan, indexCache, passes, turned, landed_held sound Stream.all, ?_⟩
  rw [origins]
  decide

/-- A drained pass of a follower misses nothing exactly when no message lands behind the
slot from which a drained pass is planned. -/
theorem followReplay_complete_iff (collection : Collection reader) (ctx : FollowContext)
    (env : Nat → Turn) (turns now : Nat) (catalog : ChunkCatalog) (plan : ReplayPlan)
    (indexCache indexCache' : IndexCache) (chunkCache : ChunkCache)
    (published : ∀ round entry, (env round).catalog.Holds entry → collection.held entry)
    (holds : ∀ entry, catalog.Holds entry → collection.held entry)
    (indexes : indexCache.Holds (reader.IndexAgrees collection.held))
    (chunks : chunkCache.Holds (ChunkAgrees reader (collection.PlansOf ctx.filters)))
    (accepted : reader.planReplay catalog ctx.filters indexCache ctx.filters.fromSlot =
      .ok (plan, indexCache')) :
    let passes :=
      (followReplay reader ctx env turns now catalog plan indexCache' chunkCache).1.passes
    (∀ earlier pass later, passes = earlier ++ pass :: later →
      pass.outcome.stats.drained = true →
      Complete collection ctx.filters plan.fromSlot (earlier ++ [pass]) pass) ↔
    (∀ earlier pass later, passes = earlier ++ pass :: later →
      pass.outcome.stats.drained = true →
      LandsAhead collection ctx.filters plan.fromSlot earlier pass) := by
  obtain ⟨lastSlot, trace⟩ :=
    followReplay_trace env turns now published holds indexes chunks accepted
  constructor
  · intro complete earlier pass later split drained
    exact trace.landsAhead_of_complete split (complete earlier pass later split drained)
  · intro ahead earlier pass later split drained
    exact trace.complete_of_landsAhead ahead split drained

/-- A transaction of slot 20 and an account of slot 10. -/
def crossed : Stream → List Chunker.Op
  | .tx => [.ingest ⟨0, ⟨0, Replay.bareTx 20⟩, 20⟩]
  | .acct => [.ingest ⟨0, ⟨0, Replay.bareAcct 10⟩, 10⟩]
  | .block => []

/-- The two lanes that cross keep it, too. -/
theorem crossed_sound : Sound ⟨1000, 100, 4⟩ crossed where
  positive := by decide
  capped := by decide
  short stream := by cases stream <;> decide
  fits stream := by
    cases stream <;> simp only [crossed, Chunker.arrivals_ingest, Chunker.arrivals_nil,
      List.forall_mem_cons, List.not_mem_nil, false_imp_iff, implies_true, and_true]
    · exact ⟨by decide, by decide, by decide⟩
    · exact ⟨by decide, by decide, by decide⟩
  slots stream := by cases stream <;> decide
  small stream := by cases stream <;> decide +kernel

/-- Whether the account's chunk, which lands when the transaction has been sent, is missed is
decided by where it lies. -/
theorem followReplay_complete_iff_crossed :
    ∃ plan indexCache passes, twoTurns ⟨1000, 100, 4⟩ crossed [.tx] =
        some (plan, indexCache, passes) ∧
      ((∀ earlier pass later, passes = earlier ++ pass :: later →
        pass.outcome.stats.drained = true → Complete crossed_sound.collection everything
          plan.fromSlot (earlier ++ [pass]) pass) ↔
      (∀ earlier pass later, passes = earlier ++ pass :: later →
        pass.outcome.stats.drained = true → LandsAhead crossed_sound.collection everything
          plan.fromSlot earlier pass)) := by
  have accepted : (twoTurns ⟨1000, 100, 4⟩ crossed [.tx]).isSome = true := by decide +kernel
  obtain ⟨⟨plan, indexCache, passes⟩, turned⟩ := Option.isSome_iff_exists.mp accepted
  obtain ⟨planned, rfl⟩ := twoTurns_accepted turned
  exact ⟨plan, indexCache, _, turned, followReplay_complete_iff crossed_sound.collection unpaced _
    2 0 _ plan Lru.Cache.new indexCache Lru.Cache.new
    (fun _ => landed_held crossed_sound Stream.all) (landed_held crossed_sound [.tx])
    Lru.holds_new Lru.holds_new planned⟩

/-- The account's chunk lands below the slot behind the transaction: the second pass, which is
planned on it and drained, does not send it. -/
theorem followReplay_skips :
    ∃ plan indexCache passes, twoTurns ⟨1000, 100, 4⟩ crossed [.tx] =
        some (plan, indexCache, passes) ∧
      (∀ entry, (landed ⟨1000, 100, 4⟩ crossed [.tx]).Holds entry →
        (landed ⟨1000, 100, 4⟩ crossed Stream.all).Holds entry) ∧
      ¬ (∀ earlier pass later, passes = earlier ++ pass :: later →
        pass.outcome.stats.drained = true → Complete crossed_sound.collection everything
          plan.fromSlot (earlier ++ [pass]) pass) := by
  have computed : (twoTurns ⟨1000, 100, 4⟩ crossed [.tx]).map (fun session =>
      (session.1.fromSlot, session.2.2.map (fun pass => pass.outcome.stats.drained),
        (handedOver session.2.2).map Prod.fst, session.2.2.map (fun pass =>
          (crossed_sound.collection.due everything pass.catalog 0 .acct).length))) =
        some (0, [true, true], [.tx], [0, 1]) := by decide +kernel
  obtain ⟨⟨plan, indexCache, passes⟩, turned, values⟩ := Option.map_eq_some_iff.mp computed
  simp only [Prod.mk.injEq] at values
  obtain ⟨start, drained, streams, landed⟩ := values
  refine ⟨plan, indexCache, passes, turned, fun entry holds => ?_, fun complete => ?_⟩
  · exact (scan_holds PlainCodecs.plain_roundTrip.json crossed_sound.positive
      crossed_sound.archives crossed_sound.recordable
      (fun stream name => by simp [Stream.mem_all]) entry).mpr
        (landed_held crossed_sound [.tx] entry holds)
  · obtain ⟨first, rest, rfl, -, drainedRest⟩ := List.map_eq_cons_iff.mp drained
    obtain ⟨second, rest, rfl, isDrained, drainedNone⟩ := List.map_eq_cons_iff.mp drainedRest
    obtain rfl := List.map_eq_nil_iff.mp drainedNone
    simp only [List.map_cons, List.map_nil, List.cons.injEq, and_true] at landed
    obtain ⟨item, isDue⟩ := List.exists_mem_of_length_pos (landed.2 ▸ Nat.one_pos)
    obtain ⟨entry, isHeld, stream, chosen, above⟩ := Collection.mem_due.mp isDue
    have sent := complete [first] second [] rfl isDrained entry isHeld item chosen (start ▸ above)
    have among := List.mem_map_of_mem (f := Prod.fst) sent
    rw [List.singleton_append, streams] at among
    have isTx : entry.stream = .tx := List.mem_singleton.mp among
    exact absurd (stream.symm.trans isTx) (by decide)

end Follow

end Sillage
