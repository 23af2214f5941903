import Sillage.Reader.Collection

/-!
# Following the catalog

A follower drives the plan it was accepted with, and then plans and drives one replay
after the other, each from behind the slot it sent last, on whatever catalog is
published at that time. It ends when a replay ends early, when it cannot plan, when it
is stopped, or when nothing came for the idle timeout.

The published catalogs, the clock and the subscriber are parameters, one value for each
turn of the loop. The passes are collected, each with the catalog it was planned on; the
source keeps only their statistics.
-/

namespace Sillage

open LittleEndian

/-- What happens around one turn of the loop: whether it is stopped at the top, the
catalog in case the turn plans, what happens around the iterations of its replay, the
clock behind the replay, and whether the stop comes while it waits for more chunks. -/
structure Turn where
  stopped : Bool
  catalog : ChunkCatalog
  drive : Nat → Iteration
  now : Nat
  interrupted : Bool

/-- What a follower is given: the filters, the pacing, and how long it may be idle. -/
structure FollowContext where
  filters : SubscriptionFilters
  pacing : PacingConfig
  idleTimeout : Nat

/-- A driven replay, with the catalog it was planned on. -/
structure Pass where
  catalog : ChunkCatalog
  plan : ReplayPlan
  outcome : Replay.Outcome

/-- Why a follower ends. Sums of slots are checked, here as in the chunker: behind the greatest
slot there is none to resume from, and the source panics there or, built without overflow
checks, would start over at slot 0. What is narrowed instead are the products that hours and
receive times go through. -/
inductive FollowEnd where
  | stopped
  | overflow
  | cannotPlan (error : PlanError)
  | failed (error : ReplayError)
  | passEnded
  | idle
deriving DecidableEq

/-- What a follower carries from turn to turn. The passes are kept as a record; the source keeps
their sums only. -/
structure FollowState where
  planned : Option (ChunkCatalog × ReplayPlan)
  total : ReplayStats
  pacer : Pacer
  idleDeadline : Nat
  indexCache : IndexCache
  chunkCache : ChunkCache
  passes : List Pass

/-- One turn goes on or ends the follower. -/
inductive FollowProgress where
  | continues (s : FollowState)
  | ends (reason : FollowEnd) (s : FollowState)

namespace Follow

variable (reader : Reader) (ctx : FollowContext)

/-- The statistics with those of one more pass. -/
def addStats (total pass : ReplayStats) : ReplayStats :=
  { total with
    sent := total.sent + pass.sent
    bytes := total.bytes + pass.bytes
    lagMax := max total.lagMax pass.lagMax
    lastSlot := if pass.lastSlot.isSome then pass.lastSlot else total.lastSlot }

/-- The slot to plan from: behind the last one sent, or the requested one. -/
def resumeFrom (lastSlot : Option Nat) : Except FollowEnd (Option Nat) :=
  match lastSlot with
  | some slot => if slot + 1 < u64Bound then .ok (some (slot + 1)) else .error .overflow
  | none => .ok ctx.filters.fromSlot

/-- The plan of this turn: the one left from accepting the follower, or a new one. -/
def nextPlan (turn : Turn) (s : FollowState) :
    Except FollowEnd (ChunkCatalog × ReplayPlan × IndexCache) :=
  match s.planned with
  | some (catalog, plan) => .ok (catalog, plan, s.indexCache)
  | none => do
      let resume ← resumeFrom ctx s.total.lastSlot
      match reader.planReplay turn.catalog ctx.filters s.indexCache resume with
      | .error error => .error (.cannotPlan error)
      | .ok (plan, indexCache) => .ok (turn.catalog, plan, indexCache)

/-- What follows a pass. -/
def settle (turn : Turn) (pass : ReplayStats) (s : FollowState) : FollowProgress :=
  if !pass.drained then .ends .passEnded { s with total := { s.total with drained := false } }
  else if 0 < pass.sent then
    .continues { s with idleDeadline := turn.now + ctx.idleTimeout }
  else if s.idleDeadline ≤ turn.now then .ends .idle s
  else if turn.interrupted then .ends .stopped s
  else .continues s

/-- One turn of the loop. -/
def followTurn (turn : Turn) (s : FollowState) : FollowProgress :=
  if turn.stopped then .ends .stopped s
  else
    match nextPlan reader ctx turn s with
    | .error reason => .ends reason { s with total := { s.total with drained := false } }
    | .ok (catalog, plan, indexCache) =>
        match Replay.driveReplay reader turn.drive plan s.chunkCache s.pacer with
        | .error error => .ends (.failed error) s
        | .ok outcome => settle ctx turn outcome.stats
            { s with
              planned := none
              total := addStats s.total outcome.stats
              pacer := outcome.pacer
              indexCache
              chunkCache := outcome.cache
              passes := s.passes ++ [⟨catalog, plan, outcome⟩] }

/-- The last slot is that of the pass, if it has sent anything. -/
theorem addStats_lastSlot (total pass : ReplayStats) :
    (addStats total pass).lastSlot = pass.lastSlot.or total.lastSlot := by
  cases sent : pass.lastSlot <;> simp [addStats, sent]

/-- What follows a pass: it ends the follower because it is not drained or because nothing
came, or the follower is stopped, or it goes on. -/
theorem settle_cases (turn : Turn) (pass : ReplayStats) (s : FollowState) :
    pass.drained = false ∧ settle ctx turn pass s =
        .ends .passEnded { s with total := { s.total with drained := false } } ∨
      pass.drained = true ∧
        ((∃ deadline, settle ctx turn pass s = .continues { s with idleDeadline := deadline }) ∨
          pass.sent = 0 ∧ settle ctx turn pass s = .ends .idle s ∨
          settle ctx turn pass s = .ends .stopped s) := by
  rw [settle]
  by_cases drained : pass.drained = true
  · refine .inr ⟨drained, ?_⟩
    simp only [drained, Bool.not_true, Bool.false_eq_true, if_false]
    by_cases sent : 0 < pass.sent
    · exact .inl ⟨_, if_pos sent⟩
    · simp only [if_neg sent]
      by_cases late : s.idleDeadline ≤ turn.now
      · exact .inr (.inl ⟨Nat.eq_zero_of_not_pos sent, if_pos late⟩)
      · simp only [if_neg late]
        by_cases interrupted : turn.interrupted = true
        · exact .inr (.inr (if_pos interrupted))
        · exact .inl ⟨s.idleDeadline, if_neg interrupted⟩
  · rw [Bool.not_eq_true] at drained
    exact .inl ⟨drained, by simp [drained]⟩

/-- The state behind one more pass. -/
def passed (s : FollowState) (pass : Pass) (indexCache : IndexCache) : FollowState :=
  { s with
    planned := none
    total := addStats s.total pass.outcome.stats
    pacer := pass.outcome.pacer
    indexCache
    chunkCache := pass.outcome.cache
    passes := s.passes ++ [pass] }

/-- What a turn does: it is stopped, it cannot plan, its replay fails, or it has made one more
pass and settles. -/
theorem followTurn_cases (turn : Turn) (s : FollowState) :
    followTurn reader ctx turn s = .ends .stopped s ∨
      (∃ reason, nextPlan reader ctx turn s = .error reason ∧ followTurn reader ctx turn s =
        .ends reason { s with total := { s.total with drained := false } }) ∨
      ∃ catalog plan indexCache, nextPlan reader ctx turn s = .ok (catalog, plan, indexCache) ∧
        ((∃ error, Replay.driveReplay reader turn.drive plan s.chunkCache s.pacer = .error error ∧
            followTurn reader ctx turn s = .ends (.failed error) s) ∨
          ∃ outcome, Replay.driveReplay reader turn.drive plan s.chunkCache s.pacer = .ok outcome ∧
            followTurn reader ctx turn s = settle ctx turn outcome.stats
              (passed s ⟨catalog, plan, outcome⟩ indexCache)) := by
  rw [followTurn]
  by_cases stopped : turn.stopped = true
  · exact .inl (if_pos stopped)
  · simp only [if_neg stopped]
    refine .inr ?_
    cases next : nextPlan reader ctx turn s with
    | error reason => exact .inl ⟨reason, rfl, rfl⟩
    | ok found =>
      obtain ⟨catalog, plan, indexCache⟩ := found
      refine .inr ⟨catalog, plan, indexCache, rfl, ?_⟩
      dsimp only
      cases done : Replay.driveReplay reader turn.drive plan s.chunkCache s.pacer with
      | error error => exact .inl ⟨error, rfl, rfl⟩
      | ok outcome => exact .inr ⟨outcome, rfl, rfl⟩

/-- At most `turns` turns from the given one on, and why the follower ended if it did. -/
def followLoop (env : Nat → Turn) : Nat → Nat → FollowState → FollowState × Option FollowEnd
  | 0, _, s => (s, none)
  | turns + 1, round, s =>
      match followTurn reader ctx (env round) s with
      | .ends reason s => (s, some reason)
      | .continues s => followLoop env turns (round + 1) s

/-- What the turns that go on establish one after the other holds of a follower that has not
ended, and what the turn that ends it establishes of one that has. -/
theorem followLoop_runs {env : Nat → Turn} (going : Nat → FollowState → Prop)
    (ended : FollowEnd → FollowState → Prop)
    (step : ∀ round count s, going count s →
      match followTurn reader ctx (env round) s with
      | .continues s' => going (count + 1) s'
      | .ends reason s' => ended reason s')
    (turns round count : Nat) {s : FollowState} (goes : going count s) :
    match followLoop reader ctx env turns round s with
    | (s', none) => going (count + turns) s'
    | (s', some reason) => ended reason s' := by
  induction turns generalizing round count s with
  | zero => exact goes
  | succ turns inductionHypothesis =>
    have turned := step round count s goes
    rw [followLoop]
    cases progress : followTurn reader ctx (env round) s with
    | ends reason s' =>
      rw [progress] at turned
      exact turned
    | continues s' =>
      rw [progress] at turned
      have later := inductionHypothesis (round + 1) (count + 1) turned
      rw [Nat.add_right_comm] at later
      exact later

/-- What every turn keeps holds of a follower, whether it has ended or not. -/
theorem followLoop_keeps {env : Nat → Turn} (going kept : FollowState → Prop)
    (step : ∀ round s, going s →
      match followTurn reader ctx (env round) s with
      | .continues s' => going s'
      | .ends _ s' => kept s')
    (weaker : ∀ s, going s → kept s) (turns round : Nat) {s : FollowState} (goes : going s) :
    kept (followLoop reader ctx env turns round s).1 := by
  have run := followLoop_runs reader ctx (fun _ => going) (fun _ => kept)
    (fun round _ => step round) turns round 0 goes
  rcases ended : followLoop reader ctx env turns round s with ⟨s', _ | reason⟩
  · rw [ended] at run
    exact weaker s' run
  · rw [ended] at run
    exact run

/-- Follow from an accepted plan. -/
def followReplay (env : Nat → Turn) (turns now : Nat) (catalog : ChunkCatalog) (plan : ReplayPlan)
    (indexCache : IndexCache) (chunkCache : ChunkCache) : FollowState × Option FollowEnd :=
  followLoop reader ctx env turns 0
    { planned := some (catalog, plan)
      total := { sent := 0, bytes := 0, lagMax := 0, lastSlot := none, drained := true }
      pacer := Pacer.ofConfig ctx.pacing
      idleDeadline := now + ctx.idleTimeout
      indexCache
      chunkCache
      passes := [] }

end Follow

/-- The messages that the passes have handed to the subscriber. -/
def handedOver (passes : List Pass) : List (Stream × Sent) :=
  passes.flatMap (fun pass => pass.outcome.sent)

end Sillage
