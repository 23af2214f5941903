import Sillage.Reader.Merge

/-!
# When the lag policy drops a subscriber

A subscriber keeps up when the wait for the target is all that takes time: it accepts
every message at once, and the next one is at hand. Against such a subscriber the clock
stands at the latest target so far, so that the lag of a message is what it is due before
the messages sent ahead of it. A replay is dropped exactly when that reaches the limit.
-/

namespace Sillage

open KWayMerge

namespace Pacer

/-- When a timestamp is due in a replay that begins at the given time with the given first
timestamp, unless the pacer has its anchor already. -/
def due (pacer : Pacer) (clock first ts : Nat) : Nat :=
  let (anchorTs, anchorReal) := pacer.anchor.getD (first, clock)
  anchorReal + pacer.scale (ts - anchorTs)

/-- No timestamp is due as much as the limit before the replay begins, or before one ahead
of it. -/
def InTime (pacer : Pacer) (clock : Nat) (stamps : List Nat) : Prop :=
  ∀ first ∈ stamps.head?,
    (∀ ts ∈ stamps, clock < pacer.due clock first ts + pacer.lagDrop) ∧
    stamps.Pairwise (fun earlier later =>
      pacer.due clock first earlier < pacer.due clock first later + pacer.lagDrop)

/-- A pacer that paces, drops, and has no delay for the timestamp of its anchor. -/
structure Paces (pacer : Pacer) : Prop where
  enabled : pacer.enabled = true
  limits : 0 < pacer.lagDrop
  zero : pacer.scale 0 = 0

/-- No time passes in no time. -/
theorem atSpeedOne_zero : atSpeedOne 0 = 0 := by
  rw [atSpeedOne, Rounding.significant_zero, Nat.zero_min]

/-- Longer times stay longer. -/
theorem atSpeedOne_mono : Monotone atSpeedOne :=
  fun _ _ le => Nat.le_min.mpr ⟨(Nat.min_le_left _ _).trans (Rounding.significant_mono (by decide) le),
    Nat.min_le_right _ _⟩

variable {pacer : Pacer}

/-- The pacer once a timestamp has come: the first one anchors it. -/
def anchored (pacer : Pacer) (clock ts : Nat) : Pacer :=
  { pacer with anchor := some (pacer.anchor.getD (ts, clock)) }

/-- Without a timestamp a message is due at once. -/
theorem target_none (clock : Nat) : pacer.target clock none = (clock, pacer) := by
  rw [target]
  split <;> rfl

/-- A timestamp is due as the anchor says, and there is an anchor from then on. -/
theorem target_some (paces : pacer.Paces) (clock ts : Nat) :
    pacer.target clock (some ts) = (pacer.due clock ts ts, pacer.anchored clock ts) := by
  rw [target, if_neg (by simp [paces.enabled])]
  cases anchor : pacer.anchor with
  | none => simp [due, anchored, anchor, paces.zero]
  | some anchor' =>
    simp only [due, anchored, anchor, Option.getD_some]
    rw [← anchor]

/-- What a pacer keeps while it judges emissions. -/
structure Keeps (pacer after : Pacer) : Prop extends SameLimits pacer after where
  anchor : after.anchor = pacer.anchor

/-- A pacer that keeps its settings goes on pacing. -/
theorem Keeps.paces {after : Pacer} (keeps : pacer.Keeps after) (paces : pacer.Paces) :
    after.Paces :=
  ⟨keeps.enabled.trans paces.enabled, keeps.lagDrop.symm ▸ paces.limits,
    keeps.scale.symm ▸ paces.zero⟩

/-- Anchoring does not stop a pacer. -/
theorem anchored_paces (paces : pacer.Paces) (clock ts : Nat) : (pacer.anchored clock ts).Paces :=
  ⟨paces.enabled, paces.limits, paces.zero⟩

/-- The pacing of what is left depends on what is kept alone. -/
theorem Keeps.inTime {after : Pacer} (keeps : pacer.Keeps after) (clock : Nat)
    (stamps : List Nat) : after.InTime clock stamps ↔ pacer.InTime clock stamps := by
  have sameDue : after.due = pacer.due := by
    funext clock first ts
    rw [due, due, keeps.anchor, keeps.scale]
  rw [InTime, InTime, sameDue, keeps.lagDrop]

/-- An emission at the later of the clock and the target is dropped when the target lies as
much as the limit behind the clock, and otherwise tolerated. -/
theorem observeEmit_spec (paces : pacer.Paces) (clock target : Nat) :
    (target + pacer.lagDrop ≤ clock ∧
      ∃ lag, pacer.observeEmit (max clock target) target = (.drop lag, pacer)) ∨
    (clock < target + pacer.lagDrop ∧ ∃ action after,
      pacer.observeEmit (max clock target) target = (action, after) ∧
        (∀ lag, action ≠ .drop lag) ∧ pacer.Keeps after) := by
  have limits := paces.limits
  have unchanged : pacer.Keeps pacer := ⟨⟨rfl, rfl, rfl⟩, rfl⟩
  rw [observeEmit, if_neg (by simp [paces.enabled])]
  by_cases onTime : max clock target ≤ target
  · refine .inr ⟨by omega, .ok, pacer, by rw [if_pos onTime], by simp, unchanged⟩
  · rw [if_neg onTime]
    by_cases late : pacer.lagDrop ≤ max clock target - target
    · exact .inl ⟨by omega, _, if_pos late⟩
    · refine .inr ⟨by omega, ?_⟩
      rw [if_neg late]
      split
      · exact ⟨_, _, rfl, by simp, ⟨rfl, rfl, rfl⟩, rfl⟩
      · exact ⟨_, _, rfl, by simp, unchanged⟩

/-- Nothing is late where nothing is sent. -/
theorem inTime_nil (pacer : Pacer) (clock : Nat) : pacer.InTime clock [] := by
  intro first isFirst
  cases isFirst

/-- The first timestamp is in time by the clock, and the others by the clock once it is
sent. -/
theorem inTime_cons (pacer : Pacer) (clock ts : Nat) (rest : List Nat) :
    pacer.InTime clock (ts :: rest) ↔
      clock < pacer.due clock ts ts + pacer.lagDrop ∧
        (pacer.anchored clock ts).InTime (max clock (pacer.due clock ts ts)) rest := by
  have sameDue : ∀ now first, (pacer.anchored clock ts).due now first = pacer.due clock ts := by
    intro now first
    funext later
    simp [due, anchored]
  have sameLimit : (pacer.anchored clock ts).lagDrop = pacer.lagDrop := rfl
  simp only [InTime, sameDue, sameLimit, List.head?_cons, Option.mem_some_iff, forall_eq',
    List.forall_mem_cons, List.pairwise_cons]
  cases rest with
  | nil => simp
  | cons next rest =>
    simp only [List.head?_cons, Option.mem_some_iff, forall_eq', max_lt_iff]
    constructor
    · rintro ⟨⟨now, fromStart⟩, ahead, pairs⟩
      exact ⟨now, fun later member => ⟨fromStart later member, ahead later member⟩, pairs⟩
    · rintro ⟨now, both, pairs⟩
      exact ⟨⟨now, fun later member => (both later member).1⟩,
        fun later member => (both later member).2, pairs⟩

/-- Timestamps that never decrease are in time for a pacer without an anchor. -/
theorem inTime_of_sorted (paces : pacer.Paces) (fresh : pacer.anchor = none)
    (mono : Monotone pacer.scale) (clock : Nat) {stamps : List Nat}
    (sorted : stamps.Pairwise (· ≤ ·)) : pacer.InTime clock stamps := by
  have limits := paces.limits
  intro first isFirst
  have later : ∀ ts, clock ≤ pacer.due clock first ts := by
    intro ts
    simp [due, fresh]
  have ordered : ∀ {earlier later}, earlier ≤ later →
      pacer.due clock first earlier ≤ pacer.due clock first later := by
    intro earlier later le
    have scaled := mono (Nat.sub_le_sub_right le first)
    simpa [due, fresh] using scaled
  constructor
  · intro ts _
    have bound := later ts
    omega
  · refine sorted.imp (fun le => ?_)
    have bound := ordered le
    omega

end Pacer

namespace Replay

variable (reader : Reader)

/-- The messages that the loop takes off its cursors at or above the requested slot, in
their order. -/
def emissions (fromSlot : Nat) :
    Nat → (Stream → Option StreamCursor) → ChunkCache → List Peeked
  | 0, _, _ => []
  | fuel + 1, cursors, cache =>
      match dequeue reader cursors cache with
      | .ok (some (_, slot, item), cursors, cache) =>
          if slot < fromSlot then emissions fromSlot fuel cursors cache
          else item :: emissions fromSlot fuel cursors cache
      | _ => []

/-- The receive times of messages, of those that have one. -/
def stamps (items : List Peeked) : List Nat := items.filterMap Peeked.recvNs

/-- An iteration of a subscriber that keeps up: the wait for the target is all that takes
time. -/
structure Prompt (clock target : Nat) (now : Iteration) : Prop where
  begins : now.targetNow = clock
  accepted : now.outcome = .sent
  ends : now.emitNow = max clock target

/-- The subscriber keeps up in every iteration, the next beginning when the last ends. -/
def KeepsUp (fromSlot : Nat) (env : Nat → Iteration) : Nat → Nat → Nat → DriveState → Prop
  | 0, _, _, _ => True
  | fuel + 1, round, clock, s =>
      match dequeue reader s.cursors s.cache with
      | .ok (some (winner, slot, item), cursors, cache) =>
          if slot < fromSlot then
            KeepsUp fromSlot env fuel (round + 1) clock { s with cursors, cache }
          else
            Prompt clock (s.pacer.target clock item.recvNs).1 (env round) ∧
            ∀ s', emit reader (env round) winner item { s with cursors, cache } = .continues s' →
              KeepsUp fromSlot env fuel (round + 1) (env round).emitNow s'
      | _ => True

variable {reader}

/-- The pacer and the clock after a message. -/
def paced (pacer : Pacer) (clock : Nat) : Option Nat → Pacer × Nat
  | none => (pacer, clock)
  | some ts => (pacer.anchored clock ts, max clock (pacer.due clock ts ts))

/-- A message is in time if the clock is not too far behind its timestamp. -/
def OnTime (pacer : Pacer) (clock : Nat) (recvNs : Option Nat) : Prop :=
  ∀ ts ∈ recvNs, clock < pacer.due clock ts ts + pacer.lagDrop

/-- The first message is in time, and the others are with the clock and the anchor behind it. -/
theorem inTime_stamps (pacer : Pacer) (clock : Nat) (item : Peeked) (rest : List Peeked) :
    pacer.InTime clock (stamps (item :: rest)) ↔ OnTime pacer clock item.recvNs ∧
      (paced pacer clock item.recvNs).1.InTime (paced pacer clock item.recvNs).2 (stamps rest) := by
  cases stamp : item.recvNs with
  | none => simp [stamps, stamp, OnTime, paced]
  | some ts => simp [stamps, stamp, OnTime, paced, Pacer.inTime_cons]

/-- The target of a message, and the pacer after it. -/
theorem target_paced {pacer : Pacer} (paces : pacer.Paces) (clock : Nat) (recvNs : Option Nat) :
    ∃ target, pacer.target clock recvNs = (target, (paced pacer clock recvNs).1) ∧
      max clock target = (paced pacer clock recvNs).2 ∧ (paced pacer clock recvNs).1.Paces ∧
      (OnTime pacer clock recvNs ↔
        clock < target + (paced pacer clock recvNs).1.lagDrop) := by
  cases recvNs with
  | none =>
    have limits := paces.limits
    refine ⟨clock, Pacer.target_none clock, Nat.max_self clock, paces, ?_⟩
    simp only [OnTime, paced, Option.not_mem_none, false_implies, implies_true, true_iff]
    omega
  | some ts =>
    refine ⟨pacer.due clock ts ts, Pacer.target_some paces clock ts, rfl,
      Pacer.anchored_paces paces clock ts, ?_⟩
    simp [OnTime, paced, Pacer.anchored]

/-- Handing a message to a subscriber that keeps up ends the replay for its lag exactly
when the message is not in time; otherwise it goes on unless the replay is cancelled. -/
theorem emit_prompt {now : Iteration} {winner : Stream} {item : Peeked} {s : DriveState}
    {clock : Nat} (paces : s.pacer.Paces)
    (prompt : Prompt clock (s.pacer.target clock item.recvNs).1 now) :
    (now.cancelled = true ∧ ∃ s', emit reader now winner item s = .ends .shutdown s') ∨
    (now.cancelled = false ∧ ¬ OnTime s.pacer clock item.recvNs ∧
      ∃ s', emit reader now winner item s = .ends .lagDrop s') ∨
    (now.cancelled = false ∧ OnTime s.pacer clock item.recvNs ∧
      ∃ s', emit reader now winner item s = .continues s' ∧ s'.cursors = s.cursors ∧
        s'.cache = s.cache ∧ (paced s.pacer clock item.recvNs).1.Keeps s'.pacer) := by
  obtain ⟨target, aimed, latest, paces', onTime⟩ := target_paced paces clock item.recvNs
  obtain ⟨begins, accepted, ends⟩ := prompt
  rw [aimed] at ends
  by_cases cancelled : now.cancelled = true
  · refine .inl ⟨cancelled, { s with pacer := (paced s.pacer clock item.recvNs).1 }, ?_⟩
    simp [emit, begins, aimed, cancelled]
  · have notCancelled : now.cancelled = false := by simpa using cancelled
    rcases Pacer.observeEmit_spec paces' clock target with
      ⟨late, lag, judged⟩ | ⟨early, action, after, judged, tolerated, keeps⟩
    · refine .inr (.inl ⟨notCancelled, fun inTime => ?_, ?_⟩)
      · have bound := onTime.mp inTime
        omega
      · simp only [emit, begins, aimed, notCancelled, accepted, ends, judged, Bool.false_eq_true,
          if_false]
        exact ⟨_, rfl⟩
    · refine .inr (.inr ⟨notCancelled, onTime.mpr early, ?_⟩)
      simp only [emit, begins, aimed, notCancelled, accepted, ends, judged, Bool.false_eq_true,
        if_false]
      cases action with
      | drop lag => exact absurd rfl (tolerated lag)
      | warn lag => exact ⟨_, rfl, rfl, rfl, keeps⟩
      | ok => exact ⟨_, rfl, rfl, rfl, keeps⟩

/-- A loop that the lag policy ends. -/
def Drops (reader : Reader) (fromSlot : Nat) (env : Nat → Iteration) (fuel round : Nat)
    (s : DriveState) : Prop :=
  ∃ s', driveLoop reader fromSlot env fuel round s = .ok (.lagDrop, s')

/-- Against a subscriber that keeps up, the lag policy ends the loop only if some message is
not in time, and does so then unless the replay is cancelled. -/
theorem driveLoop_drops {fromSlot : Nat} {env : Nat → Iteration} (fuel : Nat) :
    ∀ {round clock : Nat} {s : DriveState}, s.pacer.Paces →
      KeepsUp reader fromSlot env fuel round clock s →
      (s.pacer.InTime clock (stamps (emissions reader fromSlot fuel s.cursors s.cache)) →
        ¬ Drops reader fromSlot env fuel round s) ∧
      (¬ s.pacer.InTime clock (stamps (emissions reader fromSlot fuel s.cursors s.cache)) →
        (∀ k, (env k).cancelled = false) → Drops reader fromSlot env fuel round s) := by
  induction fuel with
  | zero =>
    intro round clock s paces keepsUp
    refine ⟨fun _ => ?_, fun late => absurd (Pacer.inTime_nil _ _) late⟩
    rintro ⟨s', dropped⟩
    simp [driveLoop] at dropped
  | succ fuel inductionHypothesis =>
    intro round clock s paces keepsUp
    rw [KeepsUp] at keepsUp
    rw [emissions]
    simp only [Drops, driveLoop, driveStep_eq, bind, Except.bind]
    cases taken : dequeue reader s.cursors s.cache with
    | error error =>
      refine ⟨fun _ => ?_, fun late => absurd (Pacer.inTime_nil _ _) late⟩
      rintro ⟨s', dropped⟩
      simp [Except.map] at dropped
    | ok found =>
      obtain ⟨head, cursors, cache⟩ := found
      cases head with
      | none =>
        refine ⟨fun _ => ?_, fun late => absurd (Pacer.inTime_nil _ _) late⟩
        rintro ⟨s', dropped⟩
        simp [Except.map, deliver] at dropped
      | some head =>
        obtain ⟨winner, slot, item⟩ := head
        rw [taken] at keepsUp
        simp only [Except.map, deliver] at keepsUp ⊢
        by_cases below : slot < fromSlot
        · simp only [below, if_true] at keepsUp ⊢
          exact @inductionHypothesis _ clock { s with cursors, cache } paces keepsUp
        · simp only [below, if_false] at keepsUp ⊢
          obtain ⟨prompt, goesOn⟩ := keepsUp
          rw [inTime_stamps]
          rcases @emit_prompt reader (env round) winner item { s with cursors, cache } clock paces
              prompt with
            ⟨cancelled, s', ended⟩ | ⟨running, late, s', ended⟩ |
              ⟨running, onTime, s', continued, sameCursors, sameCache, keeps⟩
          · rw [ended]
            refine ⟨fun _ => ?_, fun _ never => ?_⟩
            · rintro ⟨s'', dropped⟩
              simp at dropped
            · rw [never round] at cancelled
              cases cancelled
          · rw [ended]
            exact ⟨fun inTime => absurd inTime.1 late, fun _ _ => ⟨s', rfl⟩⟩
          · rw [continued]
            have next := goesOn s' continued
            obtain ⟨target, aimed, latest, paces', -⟩ := target_paced paces clock item.recvNs
            rw [prompt.ends, aimed, latest] at next
            have rest := inductionHypothesis (keeps.paces paces') next
            rw [keeps.inTime, sameCursors, sameCache] at rest
            exact ⟨fun inTime => rest.1 inTime.2, fun late never =>
              rest.2 (fun inTime => late ⟨onTime, inTime⟩) never⟩

/-- Only the iterations to come matter to whether a subscriber keeps up. -/
theorem keepsUp_congr {fromSlot : Nat} {env env' : Nat → Iteration} (fuel : Nat) :
    ∀ {round clock : Nat} {s : DriveState}, (∀ k, round ≤ k → env k = env' k) →
      KeepsUp reader fromSlot env fuel round clock s →
      KeepsUp reader fromSlot env' fuel round clock s := by
  induction fuel with
  | zero => exact fun _ keepsUp => keepsUp
  | succ fuel inductionHypothesis =>
    intro round clock s same keepsUp
    have sameLater : ∀ k, round + 1 ≤ k → env k = env' k := fun k later => same k (by omega)
    rw [KeepsUp] at keepsUp ⊢
    cases taken : dequeue reader s.cursors s.cache with
    | error error => trivial
    | ok found =>
      obtain ⟨head, cursors, cache⟩ := found
      cases head with
      | none => trivial
      | some head =>
        obtain ⟨winner, slot, item⟩ := head
        rw [taken] at keepsUp
        by_cases below : slot < fromSlot
        · simp only [below, if_true] at keepsUp ⊢
          exact inductionHypothesis sameLater keepsUp
        · simp only [below, if_false] at keepsUp ⊢
          rw [← same round (Nat.le_refl _)]
          exact ⟨keepsUp.1, fun s' continued =>
            inductionHypothesis sameLater (keepsUp.2 s' continued)⟩

/-- A subscriber can keep up with any replay, without a shutdown. -/
theorem exists_keepsUp (reader : Reader) (fromSlot fuel : Nat) :
    ∀ (round clock : Nat) (s : DriveState), ∃ env : Nat → Iteration,
      (∀ k, (env k).cancelled = false) ∧ KeepsUp reader fromSlot env fuel round clock s := by
  induction fuel with
  | zero => exact fun round clock s => ⟨fun _ => ⟨clock, false, .sent, clock⟩, fun _ => rfl, trivial⟩
  | succ fuel inductionHypothesis =>
    intro round clock s
    cases taken : dequeue reader s.cursors s.cache with
    | error error =>
      refine ⟨fun _ => ⟨clock, false, .sent, clock⟩, fun _ => rfl, ?_⟩
      rw [KeepsUp, taken]
      trivial
    | ok found =>
      obtain ⟨head, cursors, cache⟩ := found
      cases head with
      | none =>
        refine ⟨fun _ => ⟨clock, false, .sent, clock⟩, fun _ => rfl, ?_⟩
        rw [KeepsUp, taken]
        trivial
      | some head =>
        obtain ⟨winner, slot, item⟩ := head
        by_cases below : slot < fromSlot
        · obtain ⟨env, never, keepsUp⟩ :=
            inductionHypothesis (round + 1) clock { s with cursors, cache }
          refine ⟨env, never, ?_⟩
          rw [KeepsUp, taken]
          simpa only [below, if_true] using keepsUp
        · -- this iteration is prompt, and the ones after it are those of what is left
          let target := (s.pacer.target clock item.recvNs).1
          let now : Iteration := ⟨clock, false, .sent, max clock target⟩
          have later : ∃ env : Nat → Iteration, (∀ k, (env k).cancelled = false) ∧
              ∀ s', emit reader now winner item { s with cursors, cache } = .continues s' →
                KeepsUp reader fromSlot env fuel (round + 1) now.emitNow s' := by
            cases handed : emit reader now winner item { s with cursors, cache } with
            | ends exit s' =>
              exact ⟨fun _ => ⟨clock, false, .sent, clock⟩, fun _ => rfl,
                fun _ continued => by cases continued⟩
            | continues s' =>
              obtain ⟨env, never, keepsUp⟩ := inductionHypothesis (round + 1) now.emitNow s'
              refine ⟨env, never, fun s'' continued => ?_⟩
              cases continued
              exact keepsUp
          obtain ⟨env, never, keepsUp⟩ := later
          refine ⟨Function.update env round now, fun k => ?_, ?_⟩
          · by_cases here : k = round
            · rw [here, Function.update_self]
            · rw [Function.update_of_ne here]
              exact never k
          · rw [KeepsUp, taken]
            simp only [below, if_false, Function.update_self]
            refine ⟨⟨rfl, rfl, rfl⟩, fun s' continued => ?_⟩
            apply keepsUp_congr fuel _ (keepsUp s' continued)
            intro k after
            rw [Function.update_of_ne (show k ≠ round by omega)]

/-- A subscriber that keeps up with the replay of a plan that begins at the given time. -/
def KeepsUpWith (reader : Reader) (plan : ReplayPlan) (cache : ChunkCache) (pacer : Pacer)
    (clock : Nat) (env : Nat → Iteration) : Prop :=
  KeepsUp reader plan.fromSlot env (bound plan) 0 clock (begun plan cache pacer)

/-- The messages that a replay of a plan emits, in the order of the merge. -/
def emitted (reader : Reader) (plan : ReplayPlan) (cache : ChunkCache) : List Peeked :=
  emissions reader plan.fromSlot (bound plan) (opening plan) cache

/-- A replay that keeps up is never dropped for its lag. -/
def NeverDropped (reader : Reader) (plan : ReplayPlan) (cache : ChunkCache) (pacer : Pacer)
    (clock : Nat) : Prop :=
  ∀ env, KeepsUpWith reader plan cache pacer clock env →
    ∀ outcome, driveReplay reader env plan cache pacer = .ok outcome → outcome.exit ≠ .lagDrop

/-- A replay ends for its lag when its loop does. -/
theorem driveReplay_drops (reader : Reader) (env : Nat → Iteration) (plan : ReplayPlan)
    (cache : ChunkCache) (pacer : Pacer) :
    (∃ outcome, driveReplay reader env plan cache pacer = .ok outcome ∧ outcome.exit = .lagDrop) ↔
      Drops reader plan.fromSlot env (bound plan) 0 (begun plan cache pacer) := by
  rw [driveReplay_eq, Drops]
  cases driveLoop reader plan.fromSlot env (bound plan) 0 (begun plan cache pacer) with
  | error error => simp [Except.map]
  | ok found =>
    obtain ⟨exit, s⟩ := found
    simp [Except.map]

/-- Where every message is sent in time, no lag ends the replay. -/
theorem neverDropped_of_inTime {plan : ReplayPlan} {cache : ChunkCache} {pacer : Pacer}
    {clock : Nat} (paces : pacer.Paces)
    (inTime : pacer.InTime clock (stamps (emitted reader plan cache))) :
    NeverDropped reader plan cache pacer clock := by
  intro env keepsUp outcome done dropped
  apply (driveLoop_drops (bound plan) (s := begun plan cache pacer) paces keepsUp).1 inTime
  exact (driveReplay_drops reader env plan cache pacer).mp ⟨outcome, done, dropped⟩

/-- Where no lag ends the replay, every message is sent in time. -/
theorem inTime_of_neverDropped {plan : ReplayPlan} {cache : ChunkCache} {pacer : Pacer}
    {clock : Nat} (paces : pacer.Paces) (never : NeverDropped reader plan cache pacer clock) :
    pacer.InTime clock (stamps (emitted reader plan cache)) := by
  by_contra late
  obtain ⟨env, running, keepsUp⟩ :=
    exists_keepsUp reader plan.fromSlot (bound plan) 0 clock (begun plan cache pacer)
  have drops := (driveLoop_drops (bound plan) (s := begun plan cache pacer) paces keepsUp).2 late
    running
  obtain ⟨outcome, done, dropped⟩ := (driveReplay_drops reader env plan cache pacer).mpr drops
  exact never env keepsUp outcome done dropped

/-- What the loop emits is the merge of what the cursors hold, from the requested slot on. -/
theorem emissions_merged {plans : ChunkPlan → Prop} {fromSlot : Nat}
    {held : Stream → List Peeked} {out : List (Stream × Peeked)}
    (merged : Merged Peeked.slot held out) :
    ∀ {fuel : Nat} {cursors : Stream → Option StreamCursor} {cache : ChunkCache},
      out.length < fuel → Valid reader plans cursors cache → queues reader cursors = held →
      emissions reader fromSlot fuel cursors cache = (fromOn fromSlot out).map Prod.snd := by
  induction merged with
  | done queues drained =>
    intro fuel cursors cache enough valid holds
    obtain ⟨fuel, rfl⟩ := Nat.exists_eq_succ_of_ne_zero (Nat.ne_of_gt enough)
    obtain ⟨cursors', cache', taken, -⟩ := dequeue_drained valid (holds ▸ drained)
    rw [emissions, taken]
    rfl
  | emit queues winner item rest later leads merged inductionHypothesis =>
    intro fuel cursors cache enough valid holds
    obtain ⟨fuel, rfl⟩ := Nat.exists_eq_succ_of_ne_zero (Nat.ne_of_gt (Nat.zero_lt_of_lt enough))
    obtain ⟨cursors', cache', taken, left, valid'⟩ := dequeue_leads valid (holds ▸ leads)
    rw [holds] at left
    have behind := inductionHypothesis (Nat.lt_of_succ_lt_succ enough) valid' left
    rw [emissions, taken]
    by_cases below : item.slot < fromSlot
    · simp [below, behind, fromOn]
    · simp [below, behind, fromOn, Nat.le_of_not_lt below]

/-- What a replay over decodable chunks emits is the merge of what its plan offers. -/
theorem emitted_merged {plans : ChunkPlan → Prop} {plan : ReplayPlan}
    (oneFile : OneFile reader plans) (among : ∀ chunkPlan, Has plan chunkPlan → plans chunkPlan)
    (decodable : ∀ chunkPlan, Has plan chunkPlan → chunkPlan.union ≠ ∅ →
      ∃ chunk, Decodes reader chunkPlan chunk)
    {cache : ChunkCache} (agrees : cache.Holds (ChunkAgrees reader plans))
    {out : List (Stream × Peeked)} (merged : Merged Peeked.slot (offered reader plan) out) :
    emitted reader plan cache = (fromOn plan.fromSlot out).map Prod.snd := by
  obtain ⟨holds, valid⟩ := opening_valid oneFile among decodable agrees
  exact emissions_merged merged (offered_length merged) valid holds

/-- The receive times of every stream of a plan never decrease. -/
def Steady (reader : Reader) (plan : ReplayPlan) : Prop :=
  ∀ stream, (stamps (offered reader plan stream)).Pairwise (· ≤ ·)

/-- The merge of a plan that has one stream only is that stream. -/
theorem merged_alone {plan : ReplayPlan} {stream : Stream} {out : List (Stream × Peeked)}
    (merged : Merged Peeked.slot (offered reader plan) out)
    (alone : ∀ other, other ≠ stream → plan.plansPerStream other = []) :
    out.map Prod.snd = offered reader plan stream := by
  have own : ∀ item ∈ out, item.1 = stream := by
    intro item member
    by_contra other
    have among := (mem_merged merged item).mp member
    simp [offered, alone _ other, streamItems] at among
  rw [← merged_restrict merged stream, List.filter_eq_self.mpr (by simpa using own)]

/-- A subscriber that keeps up with one stream alone, whose receive times never decrease, is
never dropped for its lag at speed 1. -/
theorem neverDropped_alone {plans : ChunkPlan → Prop} {plan : ReplayPlan} {pacer : Pacer}
    (paces : pacer.Paces) (speed : pacer.scale = atSpeedOne) (fresh : pacer.anchor = none)
    (oneFile : OneFile reader plans) (among : ∀ chunkPlan, Has plan chunkPlan → plans chunkPlan)
    (decodable : ∀ chunkPlan, Has plan chunkPlan → chunkPlan.union ≠ ∅ →
      ∃ chunk, Decodes reader chunkPlan chunk)
    {cache : ChunkCache} (agrees : cache.Holds (ChunkAgrees reader plans)) {stream : Stream}
    (alone : ∀ other, other ≠ stream → plan.plansPerStream other = [])
    (steady : Steady reader plan) (clock : Nat) :
    NeverDropped reader plan cache pacer clock := by
  obtain ⟨out, merged⟩ := exists_merged Peeked.slot (offered reader plan)
  apply neverDropped_of_inTime paces
  apply Pacer.inTime_of_sorted paces fresh (speed ▸ Pacer.atSpeedOne_mono)
  rw [emitted_merged oneFile among decodable agrees merged]
  have whole : ((fromOn plan.fromSlot out).map Prod.snd).Sublist (offered reader plan stream) := by
    rw [← merged_alone merged alone]
    exact (List.filter_sublist).map Prod.snd
  exact (steady stream).sublist (whole.filterMap Peeked.recvNs)

/-- A subscriber that keeps up with a replay at speed 1 is never dropped for its lag exactly
when no message is due as much as the limit before the replay begins, or before a message
that the merge emits ahead of it. -/
theorem lag_drop_iff (reader : Reader) (plan : ReplayPlan) (cache : ChunkCache) (pacer : Pacer)
    (clock : Nat) (enabled : pacer.enabled = true) (speed : pacer.scale = atSpeedOne)
    (limits : 0 < pacer.lagDrop) :
    NeverDropped reader plan cache pacer clock ↔
      pacer.InTime clock (stamps (emitted reader plan cache)) := by
  have paces : pacer.Paces := ⟨enabled, limits, speed ▸ Pacer.atSpeedOne_zero⟩
  exact ⟨inTime_of_neverDropped paces, neverDropped_of_inTime paces⟩

/-- An update of a kind that was created at a second. -/
def createdAt (seconds : Nat) (update : SubscribeUpdate) : SubscribeUpdate :=
  { update with createdAt := some ⟨seconds, 0⟩ }

/-- A reader of a transaction chunk whose slots 10 and 11 were created at 0 and 100 s, and of
a block chunk whose slot 11 was created at 1 s. -/
def skewed : Reader where
  codecs := PlainCodecs.plain
  files
    | .tx => AList.singleton ['t'] (Chunk.framed
        ([createdAt 0 (bareTx 10), createdAt 100 (bareTx 11)].map PlainCodecs.plain.prostEncode))
    | .acct => ∅
    | .block => AList.singleton ['b'] (Chunk.framed
        ([createdAt 1 (bareBlock 11)].map PlainCodecs.plain.prostEncode))
  indexBudgetBytes := 0
  chunkBudgetBytes := 1000
  indexHeapBytes _ := 0

/-- A new pacer at speed 1 with a limit on the lag. -/
def limited (lagDropMs : Nat) : Pacer :=
  Pacer.ofConfig { enabled := true, scale := atSpeedOne, lagWarnMs := 5000, lagDropMs }

/-- The messages of both chunks by slot have the transaction of 100 s before the block of 1 s. -/
theorem skewed_stamps :
    stamps (emitted skewed twoStreamsPlan Lru.Cache.new) = [0, 100 * 10 ^ 9, 10 ^ 9] := by
  decide +kernel

/-- With a limit of 30 s the block is late by 99 s: a subscriber that keeps up is dropped,
though neither stream goes back in time. -/
theorem keepingUp_dropped :
    Steady skewed twoStreamsPlan ∧ (limited 30000).enabled = true ∧
      (limited 30000).scale = atSpeedOne ∧ 0 < (limited 30000).lagDrop ∧
      ¬ NeverDropped skewed twoStreamsPlan Lru.Cache.new (limited 30000) 0 := by
  refine ⟨?_, rfl, rfl, by decide, fun never => ?_⟩
  · intro stream
    cases stream <;> decide +kernel
  · have inTime := inTime_of_neverDropped ⟨rfl, by decide, Pacer.atSpeedOne_zero⟩ never
    rw [skewed_stamps] at inTime
    have pairs := (inTime 0 rfl).2
    revert pairs
    decide +kernel

/-- With a limit of 100 s nobody who keeps up with these chunks is dropped, and with one of
30 s somebody is. -/
theorem lag_drop_iff_skewed :
    NeverDropped skewed twoStreamsPlan Lru.Cache.new (limited 100000) 0 ∧
      ¬ NeverDropped skewed twoStreamsPlan Lru.Cache.new (limited 30000) 0 := by
  constructor
  · rw [lag_drop_iff skewed twoStreamsPlan Lru.Cache.new (limited 100000) 0 rfl rfl (by decide),
      skewed_stamps]
    intro first isFirst
    obtain rfl := Option.some.inj isFirst
    exact ⟨by decide +kernel, by decide +kernel⟩
  · rw [lag_drop_iff skewed twoStreamsPlan Lru.Cache.new (limited 30000) 0 rfl rfl (by decide),
      skewed_stamps]
    intro inTime
    have pairs := (inTime 0 rfl).2
    revert pairs
    decide +kernel

end Replay

end Sillage
