import Sillage.Reader.Connection

/-!
# The replay task is a follower

Between any two of its steps the replay task is somewhere in a turn of a follower: at its
top, in an iteration of its pass, or behind it. What has gone into the channel by then are
the messages of the passes so far, and the status that a client is told last says how the
follower ended.
-/

namespace Sillage

open LittleEndian Idx Relation

/-! ## What a turn of a follower consists of -/

namespace Follow

variable {reader : Reader} {ctx : FollowContext} {turn other : Turn} {s s' : FollowState}

/-- Planning looks at nothing of a turn but its catalog. -/
theorem nextPlan_congr (same : turn.catalog = other.catalog) :
    nextPlan reader ctx turn s = nextPlan reader ctx other s := by
  rw [nextPlan, nextPlan, same]

/-- Settling looks at nothing of a turn but the clock and the interruption. -/
theorem settle_congr {pass : ReplayStats} (sameNow : turn.now = other.now)
    (sameInterrupted : turn.interrupted = other.interrupted) :
    settle ctx turn pass s = settle ctx other pass s := by
  rw [settle, settle, sameNow, sameInterrupted]

/-- A turn that is not stopped, plans, and drives its plan to an end. -/
theorem followTurn_drives {catalog : ChunkCatalog} {plan : ReplayPlan} {indexCache : IndexCache}
    {outcome : Replay.Outcome} (running : turn.stopped = false)
    (next : nextPlan reader ctx turn s = .ok (catalog, plan, indexCache))
    (drove : Replay.driveReplay reader turn.drive plan s.chunkCache s.pacer = .ok outcome) :
    followTurn reader ctx turn s =
      settle ctx turn outcome.stats (passed s ⟨catalog, plan, outcome⟩ indexCache) := by
  rw [followTurn, running, next]
  dsimp only
  rw [drove]
  rfl

/-- A turn whose replay fails. -/
theorem followTurn_fails {catalog : ChunkCatalog} {plan : ReplayPlan} {indexCache : IndexCache}
    {error : ReplayError} (running : turn.stopped = false)
    (next : nextPlan reader ctx turn s = .ok (catalog, plan, indexCache))
    (drove : Replay.driveReplay reader turn.drive plan s.chunkCache s.pacer = .error error) :
    followTurn reader ctx turn s = .ends (.failed error) s := by
  rw [followTurn, running, next]
  dsimp only
  rw [drove]
  rfl

/-- A turn that does not find a plan. -/
theorem followTurn_unplanned {reason : FollowEnd} (running : turn.stopped = false)
    (next : nextPlan reader ctx turn s = .error reason) :
    followTurn reader ctx turn s =
      .ends reason { s with total := { s.total with drained := false } } := by
  rw [followTurn, running, next]
  rfl

/-- A drained pass ends a follower that has been idle for too long; otherwise the follower
goes on, at once if the pass has sent something. If not, it waits, which a stop ends. -/
theorem settle_drained {pass : ReplayStats} (drained : pass.drained = true) :
    settle ctx turn pass s = .ends .idle s ∧ pass.sent = 0 ∨
      (∃ deadline, settle ctx turn pass s = .continues { s with idleDeadline := deadline }) ∧
        0 < pass.sent ∨
      pass.sent = 0 ∧ ∀ interrupted, settle ctx { turn with interrupted } pass s =
        if interrupted then .ends .stopped s else .continues s := by
  by_cases sent : 0 < pass.sent
  · exact .inr (.inl ⟨⟨turn.now + ctx.idleTimeout, by simp [settle, drained, sent]⟩, sent⟩)
  · by_cases late : s.idleDeadline ≤ turn.now
    · exact .inl ⟨by simp [settle, drained, sent, late], Nat.eq_zero_of_not_pos sent⟩
    · exact .inr (.inr ⟨Nat.eq_zero_of_not_pos sent, fun interrupted => by
        simp [settle, drained, sent, late]⟩)

end Follow

/-! ## What the passes of a follower have sent -/

/-- A pass that was drained: it has sent all that was planned from its start on. -/
structure Pass.Complete (reader : Reader) (pass : Pass) : Prop where
  drained : pass.outcome.exit = .drained
  accepted : ∃ cache, Replay.AllAccepted reader pass.plan cache pass.outcome

namespace Follow

variable {reader : Reader} {ctx : FollowContext} {turn : Turn} {s s' start : FollowState}

/-- The passes of a turn: one more, and complete if the follower goes on. -/
theorem followTurn_passes (complete : ∀ pass ∈ s.passes, pass.Complete reader) :
    match followTurn reader ctx turn s with
    | .continues s' => ∀ pass ∈ s'.passes, pass.Complete reader
    | .ends reason s' => reason ≠ .passEnded → ∀ pass ∈ s'.passes, pass.Complete reader := by
  rcases followTurn_cases reader ctx turn s with stopped | ⟨reason, -, ended⟩ |
    ⟨catalog, plan, indexCache, -, ⟨error, -, ended⟩ | ⟨outcome, drove, settled⟩⟩
  · rw [stopped]
    exact fun _ => complete
  · rw [ended]
    exact fun _ => complete
  · rw [ended]
    exact fun _ => complete
  · rw [settled]
    have whole : outcome.stats.drained = true →
        ∀ pass ∈ s.passes ++ [⟨catalog, plan, outcome⟩], pass.Complete reader := by
      intro drained pass member
      rcases List.mem_append.mp member with earlier | last
      · exact complete pass earlier
      · rw [List.mem_singleton.mp last]
        obtain ⟨exit, drive, -, -, -, same⟩ := Replay.driveReplay_counts drove
        obtain ⟨accepted, -⟩ := (Replay.driveReplay_accounts drove).2.2.2.mp drained
        refine ⟨?_, _, accepted⟩
        rw [same] at drained ⊢
        exact of_decide_eq_true drained
    rcases settle_cases ctx turn outcome.stats (passed s ⟨catalog, plan, outcome⟩ indexCache) with
      ⟨-, ended⟩ | ⟨drained, ⟨deadline, goes⟩ | ⟨-, ended⟩ | ended⟩
    · rw [ended]
      exact fun early => absurd rfl early
    · rw [goes]
      exact whole drained
    · rw [ended]
      exact fun _ => whole drained
    · rw [ended]
      exact fun _ => whole drained

/-- All passes of a follower that goes on are complete. -/
theorem passes_of_goes (goes : ReflTransGen (Goes reader ctx) start s) (fresh : start.passes = []) :
    ∀ pass ∈ s.passes, pass.Complete reader := by
  induction goes with
  | refl =>
    intro pass member
    rw [fresh] at member
    cases member
  | tail _ step inductionHypothesis =>
    obtain ⟨turn, turned⟩ := step
    have kept := @followTurn_passes reader ctx turn _ inductionHypothesis
    rw [turned] at kept
    exact kept

/-- All passes of a follower that ends behind a drained one are complete. -/
theorem passes_of_ends {reason : FollowEnd} (ends : Ends reader ctx start reason s)
    (fresh : start.passes = []) (whole : reason ≠ .passEnded) :
    ∀ pass ∈ s.passes, pass.Complete reader := by
  obtain ⟨before, turn, goes, ended⟩ := ends
  have kept := @followTurn_passes reader ctx turn _ (passes_of_goes goes fresh)
  rw [ended] at kept
  exact kept whole

end Follow

namespace Replay

variable {reader : Reader}

/-- How handing a message over ends a replay, if it does. -/
def exitOf (cancelled : Bool) (outcome : SendOutcome) : Exit :=
  if cancelled then .shutdown
  else
    match outcome with
    | .sent => .lagDrop
    | .timedOut => .timedOut
    | .closed => .closed

/-- The messages sent by handing one over. -/
def sentBy (cancelled : Bool) (outcome : SendOutcome) (winner : Stream) (item : Peeked) :
    List (Stream × Sent) :=
  if cancelled = false ∧ outcome = .sent then [toSent (winner, item)] else []

/-- Handing a message over sends it if the channel takes it, and ends the replay otherwise. -/
theorem emit_outcome (now : Iteration) (winner : Stream) (item : Peeked) (s : DriveState) :
    match emit reader now winner item s with
    | .continues s' => now.cancelled = false ∧ now.outcome = .sent ∧ s'.cursors = s.cursors ∧
        s'.sent = s.sent ++ sentBy now.cancelled now.outcome winner item
    | .ends exit s' => exit = exitOf now.cancelled now.outcome ∧
        s'.sent = s.sent ++ sentBy now.cancelled now.outcome winner item := by
  rw [emit]
  rcases s.pacer.target now.targetNow item.recvNs with ⟨target, pacer⟩
  dsimp only
  cases cancelled : now.cancelled with
  | true => simp [exitOf, sentBy]
  | false =>
    cases outcome : now.outcome with
    | timedOut => simp [exitOf, sentBy]
    | closed => simp [exitOf, sentBy]
    | sent =>
      dsimp only
      rcases pacer.observeEmit now.emitNow target with ⟨_ | lag | lag, pacer⟩ <;>
        simp [exitOf, sentBy, toSent, handed]

end Replay

/-! ## Where the replay task is -/

namespace Connection

/-- What a client is told at the end of a follower. -/
def finalStatus (texts : ErrorTexts) (reason : FollowEnd) (s : FollowState) : Option Status :=
  match reason with
  | .cannotPlan error => some ⟨.outOfRange, error.text texts⟩
  | .failed (.decode error) => some ⟨.internal, texts.decode error⟩
  | .passEnded => s.passes.getLast?.bind (fun pass => Task.notice pass.outcome.exit)
  | _ => none

/-- A pass under way: the follower has come to plan it, and its loop has come to an iteration. -/
structure Underway (reader : Reader) (ctx : FollowContext) (start s : FollowState) (d : Driving)
    (drive : DriveState) : Prop where
  goes : ReflTransGen (Follow.Goes reader ctx) start s
  planned : ∃ catalog, Follow.nextPlan reader ctx (turnOn catalog 0) s =
    .ok (d.catalog, d.plan, d.indexCache)
  iterates : ReflTransGen (Replay.Iterates reader d.plan.fromSlot)
    (Replay.begun d.plan s.chunkCache s.pacer) drive

/-- A head in hand is what the iteration has come to deliver. -/
def InHand (reader : Reader) (ctx : FollowContext) (start s : FollowState) (d : Driving)
    (head : Head) : Prop :=
  ∃ drive, Underway reader ctx start s d drive ∧ d.drive.sent = drive.sent ∧
    ∀ now, Replay.driveStep reader d.plan.fromSlot now drive =
      .ok (Replay.emit reader now head.winner head.item d.drive)

/-- What is kept beside the passes of a follower is a pass that failed. -/
def Cut (reader : Reader) (ctx : FollowContext) (start : FollowState) (reason : FollowEnd)
    (s : FollowState) (cut : Option Driving) : Prop :=
  cut = none ∨ (∃ error, reason = .failed error) ∧
    ∃ d, Underway reader ctx start s d d.drive ∧ cut = some d

/-- What a pass that failed has sent. -/
def sentShort : Option Driving → List (Stream × Sent)
  | none => []
  | some d => d.drive.sent

namespace Task

/-- Where in its follower the task is. -/
def Traced (reader : Reader) (ctx : FollowContext) (texts : ErrorTexts) (start : FollowState)
    (t : Task) : Prop :=
  match t.stage with
  | .turning => ReflTransGen (Follow.Goes reader ctx) start t.follower
  | .merging d => Underway reader ctx start t.follower d d.drive
  | .pacing d head => InHand reader ctx start t.follower d head
  | .sending d head => InHand reader ctx start t.follower d head
  | .idling => ∃ (before : FollowState) (turn : Turn),
      ReflTransGen (Follow.Goes reader ctx) start before ∧
        ∀ interrupted : Bool, Follow.followTurn reader ctx { turn with interrupted } before =
          if interrupted then .ends .stopped t.follower else .continues t.follower
  | .notifying status s reason cut => ReflTransGen (Follow.Goes reader ctx) start t.follower ∧
      Follow.Ends reader ctx start reason s ∧ Cut reader ctx start reason s cut ∧
      finalStatus texts reason s = some status
  | .notified s reason cut => Follow.Ends reader ctx start reason s ∧
      Cut reader ctx start reason s cut
  | .returned reason cut => Follow.Ends reader ctx start reason t.follower ∧
      Cut reader ctx start reason t.follower cut

/-- The messages that the task has sent. -/
def sent (t : Task) : List (Stream × Sent) :=
  match t.stage with
  | .merging d => handedOver t.follower.passes ++ d.drive.sent
  | .pacing d _ => handedOver t.follower.passes ++ d.drive.sent
  | .sending d _ => handedOver t.follower.passes ++ d.drive.sent
  | .notifying _ s _ cut => handedOver s.passes ++ sentShort cut
  | .notified s _ cut => handedOver s.passes ++ sentShort cut
  | .returned _ cut => handedOver t.follower.passes ++ sentShort cut
  | _ => handedOver t.follower.passes

/-- What holds of the end of the follower, as soon as it is settled. -/
def Concluded (holds : FollowEnd → FollowState → Prop) (t : Task) : Prop :=
  match t.stage with
  | .notifying _ s reason _ => holds reason s
  | .notified s reason _ => holds reason s
  | .returned reason _ => holds reason t.follower
  | _ => True

/-- The end of the follower once the client has been told of it, if it is told anything. -/
def conclusion (t : Task) : Option (FollowEnd × FollowState) :=
  match t.stage with
  | .notified s reason _ => some (reason, s)
  | .returned reason _ => some (reason, t.follower)
  | _ => none

/-- A task that has returned has told the client what there was to tell. -/
theorem conclusion_of_returned {t : Task} (returned : t.stage.hasReturned = true) :
    ∃ reason, t.conclusion = some (reason, t.follower) := by
  obtain ⟨follower, stage⟩ := t
  cases stage with
  | returned reason cut => exact ⟨reason, rfl⟩
  | _ => cases returned

/-- A follower that was not made to end. -/
def Unforced (reason : FollowEnd) (s : FollowState) : Prop :=
  reason ≠ .stopped ∧ ∀ pass ∈ s.passes, pass.outcome.exit ≠ .shutdown

/-- A follower whose messages have not been refused. -/
def Unrefused (_ : FollowEnd) (s : FollowState) : Prop :=
  ∀ pass ∈ s.passes, pass.outcome.exit ≠ .closed

/-- What a step leads to that puts no status into the channel. -/
structure Leads (reader : Reader) (ctx : FollowContext) (texts : ErrorTexts) (start : FollowState)
    (stop refused : Bool) (messages : List (Stream × Sent)) (t : Task) : Prop where
  traced : t.Traced reader ctx texts start
  sent : t.sent = messages
  silent : ∀ reason s, t.conclusion = some (reason, s) → finalStatus texts reason s = none
  unforced : stop = false → t.Concluded Unforced
  unrefused : refused = false → t.Concluded Unrefused

variable {reader : Reader} {ctx : FollowContext} {texts : ErrorTexts} {start : FollowState}
  {stop refused : Bool} {t : Task}

/-- A follower whose passes are complete was not shut down in one. -/
theorem unforced_of_complete {reason : FollowEnd} {s : FollowState} (notStopped : reason ≠ .stopped)
    (complete : ∀ pass ∈ s.passes, pass.Complete reader) : Unforced reason s := by
  refine ⟨notStopped, fun pass member isShutdown => ?_⟩
  cases (complete pass member).drained.symm.trans isShutdown

/-- Nor did a client refuse one of their messages. -/
theorem unrefused_of_complete {reason : FollowEnd} {s : FollowState}
    (complete : ∀ pass ∈ s.passes, pass.Complete reader) : Unrefused reason s := by
  intro pass member isClosed
  cases (complete pass member).drained.symm.trans isClosed

/-- The end of the follower, without a word to the client. -/
theorem leads_ended {reason : FollowEnd} {s : FollowState} {cut : Option Driving}
    (ends : Follow.Ends reader ctx start reason s) (isCut : Cut reader ctx start reason s cut)
    (silent : finalStatus texts reason s = none) (unforced : stop = false → Unforced reason s)
    (unrefused : refused = false → Unrefused reason s) :
    Leads reader ctx texts start stop refused (handedOver s.passes ++ sentShort cut)
      (ended reason s cut) := by
  refine ⟨⟨ends, isCut⟩, rfl, fun other _ same => ?_, unforced, unrefused⟩
  cases same
  exact silent

/-- The end of the follower, with a word to the client. -/
theorem leads_notifying {status : Status} {reason : FollowEnd} {s : FollowState}
    {cut : Option Driving} (goes : ReflTransGen (Follow.Goes reader ctx) start t.follower)
    (ends : Follow.Ends reader ctx start reason s) (isCut : Cut reader ctx start reason s cut)
    (final : finalStatus texts reason s = some status) (unforced : stop = false → Unforced reason s)
    (unrefused : refused = false → Unrefused reason s) :
    Leads reader ctx texts start stop refused (handedOver s.passes ++ sentShort cut)
      { t with stage := .notifying status s reason cut } :=
  ⟨⟨goes, ends, isCut, final⟩, rfl, by rintro _ _ ⟨⟩, unforced, unrefused⟩

/-- The top of a turn. -/
theorem turn_leads (goes : ReflTransGen (Follow.Goes reader ctx) start t.follower)
    (fresh : start.passes = []) (catalog : ChunkCatalog) :
    Leads reader ctx texts start stop refused (handedOver t.follower.passes)
      (t.turn reader ctx texts stop catalog) := by
  have complete := Follow.passes_of_goes goes fresh
  rw [← List.append_nil (handedOver t.follower.passes)]
  cases stop with
  | true =>
    have ends : Follow.Ends reader ctx start .stopped t.follower :=
      ⟨t.follower, { turnOn catalog 0 with stopped := true }, goes, rfl⟩
    exact leads_ended ends (.inl rfl) rfl nofun (fun _ => unrefused_of_complete complete)
  | false =>
    rw [turn]
    simp only [Bool.false_eq_true, if_false]
    cases next : Follow.nextPlan reader ctx (turnOn catalog 0) t.follower with
    | error reason =>
      have ends : Follow.Ends reader ctx start reason
          { t.follower with total := { t.follower.total with drained := false } } :=
        ⟨t.follower, turnOn catalog 0, goes, Follow.followTurn_unplanned rfl next⟩
      rcases Follow.nextPlan_fails next with ⟨rfl, -⟩ | ⟨error, rfl⟩
      · exact leads_ended ends (.inl rfl) rfl (fun _ => unforced_of_complete nofun complete)
          (fun _ => unrefused_of_complete complete)
      · exact leads_notifying goes ends (.inl rfl) rfl (fun _ => unforced_of_complete nofun complete)
          (fun _ => unrefused_of_complete complete)
    | ok found =>
      obtain ⟨planned, plan, indexCache⟩ := found
      exact ⟨⟨goes, ⟨catalog, next⟩, .refl⟩, rfl, by rintro _ _ ⟨⟩, fun _ => trivial,
        fun _ => trivial⟩

/-- The passes of the follower behind one more. -/
theorem passed_passes (d : Driving) (exit : Exit) (drive : DriveState) :
    (t.passed d exit drive).passes =
      t.follower.passes ++ [⟨d.catalog, d.plan, Replay.outcomeOf exit drive⟩] := rfl

/-- What the pass has sent comes behind what the others have. -/
theorem handedOver_passed (d : Driving) (exit : Exit) (drive : DriveState) :
    handedOver (t.passed d exit drive).passes = handedOver t.follower.passes ++ drive.sent := by
  rw [passed_passes, handedOver, handedOver, List.flatMap_append]
  simp [Replay.outcomeOf]

/-- An iteration that ends the pass. -/
theorem settles_of_underway {d : Driving} {drive last : DriveState} {exit : Exit}
    {now : Iteration} (underway : Underway reader ctx start t.follower d drive)
    (stepped : Replay.driveStep reader d.plan.fromSlot now drive = .ok (.ends exit last)) :
    ∃ catalog env, ∀ clock interrupted,
      Follow.followTurn reader ctx ⟨false, catalog, env, clock, interrupted⟩ t.follower =
        Follow.settle ctx ⟨false, catalog, env, clock, interrupted⟩
          (Replay.outcomeOf exit last).stats (t.passed d exit last) := by
  obtain ⟨catalog, next⟩ := underway.planned
  obtain ⟨env, drove⟩ := Replay.driveReplay_of_iterates underway.iterates (.ends stepped)
  refine ⟨catalog, env, fun clock interrupted => Follow.followTurn_drives rfl ?_ drove⟩
  rw [← next]
  exact Follow.nextPlan_congr rfl

/-- The end of a pass that is drained. -/
theorem settle_leads {d : Driving} {drive last : DriveState} {now : Iteration}
    (underway : Underway reader ctx start t.follower d drive) (fresh : start.passes = [])
    (stepped : Replay.driveStep reader d.plan.fromSlot now drive = .ok (.ends .drained last))
    (clock : Nat) :
    Leads reader ctx texts start stop refused (handedOver t.follower.passes ++ last.sent)
      (t.settle ctx clock d last) := by
  obtain ⟨catalog, env, turned⟩ := settles_of_underway underway stepped
  have turnedOn : ∀ interrupted : Bool,
      Follow.followTurn reader ctx ⟨false, catalog, env, clock, interrupted⟩ t.follower =
        Follow.settle ctx { turnOn d.catalog clock with interrupted }
          (Replay.outcomeOf .drained last).stats (t.passed d .drained last) :=
    fun interrupted => (turned clock interrupted).trans (Follow.settle_congr rfl rfl)
  rw [← handedOver_passed d .drained last, ← List.append_nil (handedOver _), settle]
  rcases @Follow.settle_drained ctx (turnOn d.catalog clock) (t.passed d .drained last)
    (Replay.outcomeOf .drained last).stats rfl with
    ⟨ended, -⟩ | ⟨⟨deadline, goes⟩, some⟩ | ⟨none, waits⟩
  · rw [ended]
    have ends : Follow.Ends reader ctx start .idle (t.passed d .drained last) :=
      ⟨t.follower, _, underway.goes, (turnedOn false).trans ended⟩
    have complete := Follow.passes_of_ends ends fresh nofun
    exact leads_ended ends (.inl rfl) rfl (fun _ => unforced_of_complete nofun complete)
      (fun _ => unrefused_of_complete complete)
  · rw [goes]
    have sent : 0 < last.emitted := some
    simp only [sent, if_true]
    exact ⟨underway.goes.tail ⟨_, (turnedOn false).trans goes⟩, (List.append_nil _).symm,
      by rintro _ _ ⟨⟩, fun _ => trivial, fun _ => trivial⟩
  · have goes := waits false
    rw [show ({ turnOn d.catalog clock with interrupted := false } : Turn) = turnOn d.catalog clock
      from rfl] at goes
    rw [goes]
    have sent : ¬ 0 < last.emitted := Nat.not_lt.mpr (Nat.le_of_eq none)
    simp only [Bool.false_eq_true, if_false, sent]
    exact ⟨⟨t.follower, ⟨false, catalog, env, clock, false⟩, underway.goes, fun interrupted =>
      (turnedOn interrupted).trans (waits interrupted)⟩, (List.append_nil _).symm,
      by rintro _ _ ⟨⟩, fun _ => trivial, fun _ => trivial⟩

/-- Handing a message over, as the signal and the channel have it. -/
theorem emit_leads {d : Driving} {head : Head} (inHand : InHand reader ctx start t.follower d head)
    (fresh : start.passes = []) (cancelled : Bool) (outcome : SendOutcome) (now : Nat)
    (signalled : cancelled = true → stop = true)
    (gone : cancelled = false → outcome = .closed → refused = true) :
    Leads reader ctx texts start stop refused (handedOver t.follower.passes ++ d.drive.sent ++
        Replay.sentBy cancelled outcome head.winner head.item)
      (t.emit reader d head cancelled outcome now) := by
  obtain ⟨drive, underway, -, delivers⟩ := inHand
  have stepped := delivers ⟨head.targetNow, cancelled, outcome, now⟩
  have told := @Replay.emit_outcome reader ⟨head.targetNow, cancelled, outcome, now⟩
    head.winner head.item d.drive
  have complete := Follow.passes_of_goes underway.goes fresh
  rw [emit]
  cases emitted : Replay.emit reader ⟨head.targetNow, cancelled, outcome, now⟩ head.winner head.item
      d.drive with
  | continues last =>
    rw [emitted] at stepped told
    obtain ⟨-, -, -, sent⟩ := told
    rw [List.append_assoc, ← sent]
    refine ⟨⟨underway.goes, underway.planned, underway.iterates.tail ⟨_, stepped⟩⟩, rfl,
      by rintro _ _ ⟨⟩, fun _ => trivial, fun _ => trivial⟩
  | ends exit last =>
    rw [emitted] at stepped told
    have isExit : exit = Replay.exitOf cancelled outcome := told.1
    rw [List.append_assoc, ← told.2, ← handedOver_passed d exit last,
      ← List.append_nil (handedOver _), behind]
    obtain ⟨catalog, env, turned⟩ := settles_of_underway underway stepped
    have notDrained : exit ≠ .drained := by
      rw [isExit]
      cases cancelled <;> cases outcome <;> decide
    have undrained : (Replay.outcomeOf exit last).stats.drained = false := decide_eq_false notDrained
    have ends : Follow.Ends reader ctx start .passEnded
        { t.passed d exit last with
          total := { (t.passed d exit last).total with drained := false } } := by
      refine ⟨t.follower, ⟨false, catalog, env, 0, false⟩, underway.goes, ?_⟩
      rw [turned, Follow.settle, undrained]
      rfl
    have exits : ∀ pass ∈ (t.passed d exit last).passes, pass.outcome.exit ≠ .drained →
        pass.outcome.exit = exit := by
      intro pass member early
      rw [passed_passes] at member
      rcases List.mem_append.mp member with earlier | isLast
      · exact absurd (complete pass earlier).drained early
      · rw [List.mem_singleton.mp isLast]
        rfl
    have final : finalStatus texts .passEnded
        { t.passed d exit last with
          total := { (t.passed d exit last).total with drained := false } } = notice exit := by
      rw [finalStatus, passed_passes, List.getLast?_concat]
      rfl
    have unforced : stop = false → Unforced .passEnded
        { t.passed d exit last with
          total := { (t.passed d exit last).total with drained := false } } := by
      intro running
      have notCancelled : cancelled = false := by
        cases cancelled with
        | true => cases running.symm.trans (signalled rfl)
        | false => rfl
      refine ⟨by rintro ⟨⟩, fun pass member isShutdown => ?_⟩
      have same := exits pass member (by rw [isShutdown]; decide)
      rw [isShutdown, isExit, notCancelled] at same
      cases outcome <;> cases same
    have unrefused : refused = false → Unrefused .passEnded
        { t.passed d exit last with
          total := { (t.passed d exit last).total with drained := false } } := by
      intro held pass member isClosed
      have same := exits pass member (by rw [isClosed]; decide)
      rw [isClosed, isExit] at same
      cases cancelled with
      | true => cases same
      | false =>
        cases outcome with
        | closed => cases held.symm.trans (gone rfl rfl)
        | sent => cases same
        | timedOut => cases same
    cases noticed : notice exit with
    | none => exact leads_ended ends (.inl rfl) (final.trans noticed) unforced unrefused
    | some status =>
      exact leads_notifying underway.goes ends (.inl rfl) (final.trans noticed) unforced unrefused

/-- The top of an iteration. -/
theorem take_leads {d : Driving} (underway : Underway reader ctx start t.follower d d.drive)
    (fresh : start.passes = []) (clock : Nat) :
    Leads reader ctx texts start stop refused (handedOver t.follower.passes ++ d.drive.sent)
      (t.take reader ctx texts clock d) := by
  have complete := Follow.passes_of_goes underway.goes fresh
  have steps := fun now => Replay.driveStep_eq reader d.plan.fromSlot now d.drive
  rw [take]
  cases taken : Replay.dequeue reader d.drive.cursors d.drive.cache with
  | error error =>
    rw [taken] at steps
    obtain ⟨catalog, next⟩ := underway.planned
    obtain ⟨env, drove⟩ := Replay.driveReplay_of_iterates underway.iterates
      (.fails (steps ⟨0, false, .sent, 0⟩))
    have ends : Follow.Ends reader ctx start (.failed error) t.follower := by
      refine ⟨t.follower, { turnOn catalog 0 with drive := env }, underway.goes, ?_⟩
      exact Follow.followTurn_fails rfl ((Follow.nextPlan_congr rfl).trans next) drove
    have unforced : stop = false → Unforced (.failed error) t.follower :=
      fun _ => unforced_of_complete (by rintro ⟨⟩) complete
    have unrefused : refused = false → Unrefused (.failed error) t.follower :=
      fun _ => unrefused_of_complete complete
    have isCut : Cut reader ctx start (.failed error) t.follower (some d) :=
      .inr ⟨⟨error, rfl⟩, d, underway, rfl⟩
    cases error with
    | decode error => exact leads_notifying underway.goes ends isCut rfl unforced unrefused
    | panic => exact leads_ended ends isCut rfl unforced unrefused
    | unfinished => exact leads_ended ends isCut rfl unforced unrefused
  | ok found =>
    obtain ⟨head, cursors, cache⟩ := found
    rw [taken] at steps
    cases head with
    | none => exact settle_leads underway fresh (steps ⟨0, false, .sent, 0⟩) clock
    | some head =>
      obtain ⟨winner, slot, item⟩ := head
      simp only [Except.map, Replay.deliver] at steps
      dsimp only
      by_cases below : slot < d.plan.fromSlot
      · simp only [below, if_true] at steps ⊢
        exact ⟨⟨underway.goes, underway.planned,
          underway.iterates.tail ⟨⟨0, false, .sent, 0⟩, steps _⟩⟩, rfl,
          by rintro _ _ ⟨⟩, fun _ => trivial, fun _ => trivial⟩
      · simp only [below, if_false] at steps ⊢
        exact ⟨⟨d.drive, ⟨underway.goes, underway.planned, underway.iterates⟩, rfl, steps⟩, rfl,
          by rintro _ _ ⟨⟩, fun _ => trivial, fun _ => trivial⟩

/-- What a step of the task does: what it puts into the channel, and what is told by it. -/
structure Moves (reader : Reader) (ctx : FollowContext) (texts : ErrorTexts)
    (start : FollowState) (stop : Bool) (t : Task) (channel : Channel Item) (items : List Item)
    (channel' : Channel Item) (t' : Task) : Prop where
  open' : t.stage.hasReturned = false
  traced : t'.Traced reader ctx texts start
  enters : items = [] ∧ channel' = channel ∨ ∃ item, items = [item] ∧ channel.Queues item channel'
  sent : t'.sent = t.sent ++ items.filterMap Item.message
  answers : items.filterMap Item.answer = []
  speaks : items = [] ∧ t'.conclusion = t.conclusion ∨ t.conclusion = none ∧
    (t'.conclusion = none → items.filterMap Item.final = []) ∧
    ∀ reason s, t'.conclusion = some (reason, s) →
      items.filterMap Item.final <+: (finalStatus texts reason s).toList ∧
        (channel.hasReceiver = true →
          items.filterMap Item.final = (finalStatus texts reason s).toList)
  unforced : stop = false → t.Concluded Unforced → t'.Concluded Unforced
  unrefused : channel.hasReceiver = true → t.Concluded Unrefused → t'.Concluded Unrefused

/-- A step that puts at most a message into the channel. -/
theorem Leads.moves {channel channel' : Channel Item} {items : List Item} {t' : Task}
    (leads : Leads reader ctx texts start stop (!channel.hasReceiver)
      (t.sent ++ items.filterMap Item.message) t')
    (isOpen : t.conclusion = none)
    (moved : items = [] ∧ channel' = channel ∨
      ∃ message, items = [.update message] ∧ channel.Queues (.update message) channel') :
    Moves reader ctx texts start stop t channel items channel' t' := by
  have plain : items.filterMap Item.answer = [] ∧ items.filterMap Item.final = [] := by
    rcases moved with ⟨rfl, -⟩ | ⟨message, rfl, -⟩ <;> exact ⟨rfl, rfl⟩
  have notReturned : t.stage.hasReturned = false := by
    by_contra returned
    obtain ⟨reason, concluded⟩ := conclusion_of_returned (Bool.eq_true_of_not_eq_false returned)
    cases isOpen.symm.trans concluded
  refine ⟨notReturned, leads.traced, ?_, leads.sent, plain.1,
    .inr ⟨isOpen, fun _ => plain.2, ?_⟩,
    fun running _ => leads.unforced running, fun held _ => leads.unrefused (by rw [held]; rfl)⟩
  · rcases moved with same | ⟨message, one, queues⟩
    · exact .inl same
    · exact .inr ⟨_, one, queues⟩
  · intro reason s same
    rw [plain.2, leads.silent reason s same]
    exact ⟨List.prefix_rfl, fun _ => rfl⟩

/-- Every step of the replay task goes on in its follower. -/
theorem step_moves {channel channel' : Channel Item} {items : List Item} {t' : Task}
    {action : ReplayAction} (traced : t.Traced reader ctx texts start) (fresh : start.passes = [])
    (done : t.step reader ctx texts stop channel action = some (items, channel', t')) :
    Moves reader ctx texts start stop t channel items channel' t' := by
  obtain ⟨follower, stage⟩ := t
  cases action with
  | turn catalog =>
    cases stage with
    | turning =>
      cases done
      refine Leads.moves ?_ rfl (.inl ⟨rfl, rfl⟩)
      rw [List.filterMap_nil, List.append_nil]
      exact turn_leads traced fresh catalog
    | _ => cases done
  | take now =>
    cases stage with
    | merging d =>
      cases done
      refine Leads.moves ?_ rfl (.inl ⟨rfl, rfl⟩)
      rw [List.filterMap_nil, List.append_nil]
      exact take_leads traced fresh now
    | _ => cases done
  | due =>
    cases stage with
    | pacing d head =>
      cases done
      refine Leads.moves ?_ rfl (.inl ⟨rfl, rfl⟩)
      exact ⟨traced, (List.append_nil _).symm, by rintro _ _ ⟨⟩, fun _ => trivial,
        fun _ => trivial⟩
    | _ => cases done
  | cancelled =>
    cases stage with
    | pacing d head =>
      simp only [step] at done
      split at done
      · next stopped =>
        cases done
        refine Leads.moves ?_ rfl (.inl ⟨rfl, rfl⟩)
        refine emit_leads traced fresh true .closed 0 ?_ ?_
        · exact fun _ => stopped
        · exact nofun
      · cases done
    | idling =>
      simp only [step] at done
      split at done
      · next stopped =>
        cases done
        obtain ⟨before, turn, goes, turned⟩ := traced
        have ends : Follow.Ends reader ctx start .stopped follower :=
          ⟨before, _, goes, turned true⟩
        have complete := Follow.passes_of_ends ends fresh nofun
        refine Leads.moves ?_ rfl (.inl ⟨rfl, rfl⟩)
        exact leads_ended ends (.inl rfl) rfl (fun running => by cases running.symm.trans stopped)
          (fun _ => unrefused_of_complete complete)
      · cases done
    | _ => cases done
  | send now =>
    cases stage with
    | sending d head =>
      simp only [step] at done
      split at done
      · next behind queued =>
        cases done
        have queues := Channel.send_queued queued
        refine Leads.moves ?_ rfl (.inr ⟨_, rfl, queues⟩)
        refine emit_leads traced fresh false .sent now ?_ ?_
        · exact nofun
        · exact nofun
      · cases done
      · next closed =>
        cases done
        refine Leads.moves ?_ rfl (.inl ⟨rfl, rfl⟩)
        refine emit_leads traced fresh false .closed now ?_ (fun _ _ => ?_)
        · exact nofun
        · rw [Channel.send_closed_iff.mp closed]
          rfl
    | _ => cases done
  | timeOut =>
    cases stage with
    | sending d head =>
      simp only [step] at done
      split at done
      · cases done
        refine Leads.moves ?_ rfl (.inl ⟨rfl, rfl⟩)
        refine emit_leads traced fresh false .timedOut 0 ?_ ?_
        · exact nofun
        · exact nofun
      · cases done
    | _ => cases done
  | notify =>
    cases stage with
    | notifying status s reason cut =>
      obtain ⟨-, ends, isCut, final⟩ := traced
      simp only [step] at done
      split at done
      · next behind queued =>
        cases done
        refine ⟨rfl, ⟨ends, isCut⟩, .inr ⟨_, rfl, Channel.send_queued queued⟩,
          (List.append_nil _).symm, rfl, .inr ⟨rfl, by rintro ⟨⟩, fun other s' same => ?_⟩,
          fun _ => id, fun _ => id⟩
        cases same
        rw [final]
        exact ⟨List.prefix_rfl, fun _ => rfl⟩
      · cases done
      · next closed =>
        cases done
        refine ⟨rfl, ⟨ends, isCut⟩, .inl ⟨rfl, rfl⟩, (List.append_nil _).symm, rfl,
          .inr ⟨rfl, by rintro ⟨⟩, fun other s' same => ⟨List.nil_prefix, fun held => ?_⟩⟩,
          fun _ => id, fun _ => id⟩
        cases held.symm.trans (Channel.send_closed_iff.mp closed)
    | _ => cases done
  | finish =>
    cases stage with
    | notified s reason cut =>
      cases done
      exact ⟨rfl, traced, .inl ⟨rfl, rfl⟩, (List.append_nil _).symm, rfl, .inl ⟨rfl, rfl⟩,
        fun _ => id, fun _ => id⟩
    | _ => cases done
  | poll =>
    cases stage with
    | idling =>
      cases done
      obtain ⟨before, turn, goes, turned⟩ := traced
      refine Leads.moves ?_ rfl (.inl ⟨rfl, rfl⟩)
      exact ⟨goes.tail ⟨_, turned false⟩, (List.append_nil _).symm, by rintro _ _ ⟨⟩,
        fun _ => trivial, fun _ => trivial⟩
    | _ => cases done

end Task

end Connection

end Sillage
