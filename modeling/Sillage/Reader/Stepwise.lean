import Mathlib.Logic.Relation
import Sillage.Reader.Expectations

/-!
# Following, one step after the other

The loops of a replay and of a follower are given what happens around each of their rounds
beforehand. Taken as steps, with what happens around each of them found out when it is
taken, they lead to the same ends.
-/

namespace Sillage

open LittleEndian Idx Relation

/-- What happens around the rounds of a loop, with one more of them first. -/
def preceded {α : Type} (now : α) (env : Nat → α) : Nat → α
  | 0 => now
  | round + 1 => env round

namespace Replay

variable {reader : Reader} {fromSlot : Nat}

/-- One iteration that goes on. -/
def Iterates (reader : Reader) (fromSlot : Nat) (s s' : DriveState) : Prop :=
  ∃ now, driveStep reader fromSlot now s = .ok (.continues s')

/-- A loop reads what happens from its round on only. -/
theorem driveLoop_preceded (now : Iteration) (env : Nat → Iteration) (fuel : Nat) (round : Nat)
    (s : DriveState) :
    driveLoop reader fromSlot (preceded now env) fuel (round + 1) s =
      driveLoop reader fromSlot env fuel round s := by
  induction fuel generalizing round s with
  | zero => rfl
  | succ fuel inductionHypothesis =>
    rw [driveLoop, driveLoop, preceded]
    simp only [bind, Except.bind]
    split
    · rfl
    · split
      · rfl
      · exact inductionHypothesis _ _

/-- An iteration that goes on has taken a message, and sent it unless its slot is below the
requested one. -/
theorem Iterates.takes {s s' : DriveState} (iterates : Iterates reader fromSlot s s') :
    ∃ winner slot item,
      dequeue reader s.cursors s.cache = .ok (some (winner, slot, item), s'.cursors, s'.cache) ∧
        s'.sent = s.sent ++ if slot < fromSlot then [] else [toSent (winner, item)] := by
  obtain ⟨now, stepped⟩ := iterates
  rw [driveStep_eq] at stepped
  cases taken : dequeue reader s.cursors s.cache with
  | error error =>
    rw [taken] at stepped
    cases stepped
  | ok found =>
    obtain ⟨head, cursors, cache⟩ := found
    rw [taken] at stepped
    cases head with
    | none => cases stepped
    | some head =>
      obtain ⟨winner, slot, item⟩ := head
      simp only [Except.map, deliver] at stepped
      by_cases below : slot < fromSlot
      · simp only [below, if_true] at stepped
        cases stepped
        exact ⟨winner, slot, item, rfl, by simp [below]⟩
      · simp only [below, if_false] at stepped
        rcases @emit_spec reader now winner item { s with cursors, cache } with
          ⟨s₁, emitted, sameCursors, sameCache, -, sends⟩ | ⟨exit, s₁, taken, ended, -⟩
        · rw [emitted] at stepped
          cases stepped
          refine ⟨winner, slot, item, ?_, ?_⟩
          · rw [sameCursors, sameCache]
          · simpa [below] using sends.sent
        · rw [ended] at stepped
          cases stepped

/-- An iteration takes one message off the cursors. -/
theorem Iterates.left {s s' : DriveState} (iterates : Iterates reader fromSlot s s') :
    left s'.cursors + 1 = left s.cursors := by
  obtain ⟨winner, slot, item, taken, -⟩ := iterates.takes
  exact dequeue_left taken

/-- The messages that some iterations take are the first of those that a loop takes, and they
have sent what is from the requested slot on of these. -/
theorem heads_of_iterates {start s : DriveState}
    (iterates : ReflTransGen (Iterates reader fromSlot) start s) (slotted : Slotted start.cursors) :
    ∃ taken, Replay.left s.cursors + taken.length = Replay.left start.cursors ∧
      (∀ fuel, heads reader (fuel + taken.length) start.cursors start.cache =
        taken ++ heads reader fuel s.cursors s.cache) ∧
      s.sent = start.sent ++ (fromOn fromSlot taken).map toSent := by
  induction iterates using ReflTransGen.head_induction_on with
  | refl => exact ⟨[], rfl, fun _ => rfl, (List.append_nil _).symm⟩
  | @head start next first _ inductionHypothesis =>
    have less := first.left
    obtain ⟨winner, slot, item, took, sent⟩ := first.takes
    obtain ⟨isSlot, -, -, -, slotted'⟩ := dequeue_origins slotted took
    obtain ⟨taken, counted, front, later⟩ := inductionHypothesis slotted'
    refine ⟨(winner, item) :: taken, ?_, fun fuel => ?_, ?_⟩
    · rw [List.length_cons]
      omega
    · rw [List.length_cons, ← Nat.add_assoc, heads, took]
      dsimp only
      rw [front, List.cons_append]
    · rw [later, sent, isSlot, List.append_assoc]
      congr 1
      by_cases below : item.slot < fromSlot
      · simp [below, fromOn]
      · simp [below, fromOn, Nat.le_of_not_lt below]

/-- What an iteration makes of a loop, if it does not go on. -/
inductive Finishes (reader : Reader) (fromSlot : Nat) (s : DriveState) :
    Except ReplayError (Exit × DriveState) → Prop where
  | ends {now : Iteration} {exit : Exit} {s' : DriveState}
      (stepped : driveStep reader fromSlot now s = .ok (.ends exit s')) :
      Finishes reader fromSlot s (.ok (exit, s'))
  | fails {now : Iteration} {error : ReplayError}
      (stepped : driveStep reader fromSlot now s = .error error) :
      Finishes reader fromSlot s (.error error)

/-- Some iterations and a last one are a loop that has enough of them. -/
theorem driveLoop_of_iterates {start s : DriveState}
    {result : Except ReplayError (Exit × DriveState)}
    (iterates : ReflTransGen (Iterates reader fromSlot) start s)
    (finishes : Finishes reader fromSlot s result) {fuel : Nat} (enough : left start.cursors < fuel) :
    ∃ env, driveLoop reader fromSlot env fuel 0 start = result := by
  induction iterates using ReflTransGen.head_induction_on generalizing fuel with
  | refl =>
    obtain ⟨fuel, rfl⟩ := Nat.exists_eq_succ_of_ne_zero (Nat.ne_of_gt (Nat.zero_lt_of_lt enough))
    cases finishes with
    | @ends now exit s' stepped =>
      refine ⟨fun _ => now, ?_⟩
      simp only [driveLoop, stepped, bind, Except.bind]
    | @fails now error stepped =>
      refine ⟨fun _ => now, ?_⟩
      simp only [driveLoop, stepped, bind, Except.bind]
  | @head start next first rest inductionHypothesis =>
    obtain ⟨fuel, rfl⟩ := Nat.exists_eq_succ_of_ne_zero (Nat.ne_of_gt (Nat.zero_lt_of_lt enough))
    have less := first.left
    obtain ⟨now, stepped⟩ := first
    obtain ⟨env, looped⟩ := @inductionHypothesis fuel (by omega)
    refine ⟨preceded now env, ?_⟩
    rw [driveLoop, preceded, stepped]
    exact (driveLoop_preceded now env fuel 0 next).trans looped

/-- What a replay returns behind its loop. -/
def outcomeOf (exit : Exit) (s : DriveState) : Outcome where
  stats :=
    { sent := s.emitted
      bytes := s.bytes
      lagMax := s.lagMax
      lastSlot := s.lastSlot
      drained := exit = .drained }
  exit := exit
  sent := s.sent
  pacer := s.pacer
  cache := s.cache

/-- Some iterations and a last one are a replay. -/
theorem driveReplay_of_iterates {plan : ReplayPlan} {cache : ChunkCache} {pacer : Pacer}
    {s : DriveState} {result : Except ReplayError (Exit × DriveState)}
    (iterates : ReflTransGen (Iterates reader plan.fromSlot) (begun plan cache pacer) s)
    (finishes : Finishes reader plan.fromSlot s result) :
    ∃ env, driveReplay reader env plan cache pacer =
      result.map (fun ended => outcomeOf ended.1 ended.2) := by
  obtain ⟨env, looped⟩ := driveLoop_of_iterates iterates finishes (left_opening plan)
  exact ⟨env, by rw [driveReplay_eq, looped]; rfl⟩

/-- Some iterations of a replay have sent a part, from the front, of what is planned from its
start on. -/
theorem sent_of_iterates {plan : ReplayPlan} {cache : ChunkCache} {pacer : Pacer} {s : DriveState}
    (iterates : ReflTransGen (Iterates reader plan.fromSlot) (begun plan cache pacer) s) :
    s.sent <+: (fromOn plan.fromSlot (toTake reader plan cache)).map toSent := by
  obtain ⟨taken, counted, front, sent⟩ := heads_of_iterates iterates (opening_origins plan).1
  have enough := left_opening plan
  have few : taken.length ≤ bound plan := by
    have same : left (begun plan cache pacer).cursors = left (opening plan) := rfl
    omega
  have whole := front (bound plan - taken.length)
  rw [Nat.sub_add_cancel few] at whole
  have all : toTake reader plan cache =
      taken ++ heads reader (bound plan - taken.length) s.cursors s.cache := whole
  have split : fromOn plan.fromSlot (toTake reader plan cache) = fromOn plan.fromSlot taken ++
      fromOn plan.fromSlot (heads reader (bound plan - taken.length) s.cursors s.cache) := by
    rw [all]
    exact List.filter_append ..
  rw [sent, split, List.map_append]
  exact List.prefix_append _ _

end Replay

namespace Follow

variable {reader : Reader} {ctx : FollowContext}

/-- One turn that goes on. -/
def Goes (reader : Reader) (ctx : FollowContext) (s s' : FollowState) : Prop :=
  ∃ turn, followTurn reader ctx turn s = .continues s'

/-- A loop whose first turn is behind it goes on with the others. -/
theorem followLoop_preceded (turn : Turn) (env : Nat → Turn) (turns round : Nat) (s : FollowState) :
    followLoop reader ctx (preceded turn env) turns (round + 1) s =
      followLoop reader ctx env turns round s := by
  induction turns generalizing round s with
  | zero => rfl
  | succ turns inductionHypothesis =>
    rw [followLoop, followLoop, preceded]
    cases followTurn reader ctx (env round) s with
    | ends reason s' => rfl
    | continues s' => exact inductionHypothesis _ _

/-- Some turns are a loop, and so are some turns and what comes behind them. -/
theorem followLoop_of_goes {start s : FollowState} (goes : ReflTransGen (Goes reader ctx) start s)
    (behind : Nat → Turn) (more : Nat) :
    ∃ env turns, followLoop reader ctx env turns 0 start =
      followLoop reader ctx behind more 0 s := by
  induction goes using ReflTransGen.head_induction_on with
  | refl => exact ⟨behind, more, rfl⟩
  | @head start next first _ inductionHypothesis =>
    obtain ⟨turn, turned⟩ := first
    obtain ⟨env, turns, looped⟩ := inductionHypothesis
    refine ⟨preceded turn env, turns + 1, ?_⟩
    rw [followLoop, preceded, turned]
    exact (followLoop_preceded turn env turns 0 next).trans looped

/-- A follower as it starts with an accepted plan. -/
def started (ctx : FollowContext) (now : Nat) (catalog : ChunkCatalog) (plan : ReplayPlan)
    (indexCache : IndexCache) (chunkCache : ChunkCache) : FollowState where
  planned := some (catalog, plan)
  total := { sent := 0, bytes := 0, lagMax := 0, lastSlot := none, drained := true }
  pacer := Pacer.ofConfig ctx.pacing
  idleDeadline := now + ctx.idleTimeout
  indexCache := indexCache
  chunkCache := chunkCache
  passes := []

/-- The last turn of a follower that some turns lead to. -/
def Ends (reader : Reader) (ctx : FollowContext) (start : FollowState) (reason : FollowEnd)
    (s : FollowState) : Prop :=
  ∃ before turn, ReflTransGen (Goes reader ctx) start before ∧
    followTurn reader ctx turn before = .ends reason s

/-- Where turns lead a follower, as its loop does. -/
theorem followReplay_of_goes {now : Nat} {catalog : ChunkCatalog} {plan : ReplayPlan}
    {indexCache : IndexCache} {chunkCache : ChunkCache} {s : FollowState}
    (goes : ReflTransGen (Goes reader ctx) (started ctx now catalog plan indexCache chunkCache) s) :
    ∃ env turns, followReplay reader ctx env turns now catalog plan indexCache chunkCache =
      (s, none) := by
  obtain ⟨env, turns, looped⟩ := followLoop_of_goes goes
    (fun _ => ⟨false, catalog, fun _ => ⟨0, false, .sent, 0⟩, 0, false⟩) 0
  exact ⟨env, turns, looped⟩

/-- The end that turns lead to is that of a whole follower. -/
theorem followReplay_of_ends {now : Nat} {catalog : ChunkCatalog} {plan : ReplayPlan}
    {indexCache : IndexCache} {chunkCache : ChunkCache} {reason : FollowEnd} {s : FollowState}
    (ends : Ends reader ctx (started ctx now catalog plan indexCache chunkCache) reason s) :
    ∃ env turns, followReplay reader ctx env turns now catalog plan indexCache chunkCache =
      (s, some reason) := by
  obtain ⟨before, turn, goes, ended⟩ := ends
  obtain ⟨env, turns, looped⟩ := followLoop_of_goes goes (fun _ => turn) 1
  refine ⟨env, turns, looped.trans ?_⟩
  rw [followLoop, ended]

end Follow

end Sillage
