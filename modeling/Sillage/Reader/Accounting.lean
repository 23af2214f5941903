import Sillage.Reader.Follow
import Sillage.Reader.Lag

/-!
# What a replay accounts for

A replay takes the planned messages off its cursors one after the other, whatever they
decode to, and counts what the channel accepts. The messages that it takes do not depend
on the clock or the subscriber, as long as it goes on. Bytes and slots are noted when a
message is accepted, but the message is counted only behind the verdict on its lag; a
replay that ends for its lag has accepted one message more than it counts.
-/

namespace Sillage

open LittleEndian Idx

/-- The slot of an update; zero without one. -/
def slotOf (update : SubscribeUpdate) : Nat := (extractSlot update).getD 0

/-- The places of the messages of a plan, in order. -/
def originsOf (plan : ChunkPlan) : List Origin :=
  (ordinals plan.union).map (fun ord => ⟨plan.stream, plan.entry.startSlot, ord⟩)

/-- The places of the messages of a stream's plans. -/
def plannedOrigins (plans : List ChunkPlan) : List Origin := plans.flatMap originsOf

namespace StreamCursor

/-- The places of the messages left of the current chunk. -/
def currentOrigins (cursor : StreamCursor) : List Origin :=
  match cursor.currentOrds, openPlan cursor.plans cursor.planIdx with
  | some ords, some plan => ords.map (fun ord => ⟨plan.stream, plan.entry.startSlot, ord⟩)
  | _, _ => []

/-- The places of the messages that a cursor has still to give, whether they decode or
not. -/
def origins (cursor : StreamCursor) : List Origin :=
  cursor.peeked.toList.map Peeked.origin ++ cursor.currentOrigins ++
    plannedOrigins (cursor.plans.drop cursor.planIdx)

/-- The head of a cursor has the slot of its update. -/
def Slotted (cursor : StreamCursor) : Prop :=
  ∀ item, cursor.peeked = some item → item.slot = slotOf item.update

variable {reader : Reader} {cursor cursor' : StreamCursor} {item : Option Peeked}

/-- An exhausted chunk has no messages left. -/
theorem currentOrigins_exhausted (exhausted : cursor.currentOrds.getD [] = []) :
    cursor.currentOrigins = [] := by
  rw [currentOrigins]
  split
  · next ords plan same _ =>
    rw [same, Option.getD_some] at exhausted
    rw [exhausted, List.map_nil]
  · rfl

/-- Decoding an ordinal turns its place into that of the head. -/
theorem decodeNext_origins {ord : Nat} {rest : List Nat} (idle : cursor.peeked = none)
    (ords : cursor.currentOrds = some (ord :: rest))
    (done : decodeNext reader cursor ord rest = .ok (item, cursor')) :
    cursor'.origins = cursor.origins ∧ cursor'.peeked = item ∧ item ≠ none ∧ cursor'.Slotted := by
  unfold decodeNext at done
  split at done
  · next decoded plan _ here =>
    split at done
    · cases done
    · next msg _ =>
      cases done
      refine ⟨?_, rfl, Option.some_ne_none _, ?_⟩
      · simp [origins, currentOrigins, idle, ords, here, peekedAt]
      · rintro item shown
        cases shown
        rfl
  · cases done

/-- Skipping plans with empty bitmaps skips no place. -/
theorem skipEmpty_origins (plans : List ChunkPlan) (planIdx : Nat) (suffix : List ChunkPlan)
    (suffixEq : suffix = plans.drop planIdx) :
    match skipEmpty suffix planIdx with
    | (none, after) => plannedOrigins suffix = [] ∧ plans.drop after = []
    | (some plan, after) => plannedOrigins suffix =
        originsOf plan ++ plannedOrigins (plans.drop after) := by
  induction suffix generalizing planIdx with
  | nil => exact ⟨rfl, suffixEq.symm⟩
  | cons plan rest inductionHypothesis =>
    have behind : rest = plans.drop (planIdx + 1) := by
      rw [← List.tail_drop, ← suffixEq]
      rfl
    rw [skipEmpty]
    by_cases empty : plan.union = ∅
    · rw [if_pos empty]
      have skipped := inductionHypothesis (planIdx + 1) behind
      have nothing : plannedOrigins (plan :: rest) = plannedOrigins rest := by
        simp [plannedOrigins, originsOf, (ordinals_eq_nil plan.union).mpr empty]
      rw [nothing]
      exact skipped
    · rw [if_neg empty]
      dsimp only
      rw [← behind]
      rfl

/-- Opening a plan turns its places into those of the current chunk; nothing is opened only
when nothing is left. -/
theorem openNext_origins {cache cache' : ChunkCache} (idle : cursor.peeked = none)
    (exhausted : cursor.currentOrds.getD [] = [])
    (done : openNext reader cursor cache = .ok (item, cursor', cache')) :
    cursor'.origins = cursor.origins ∧ cursor'.peeked = item ∧
      (item = none → cursor'.origins = []) ∧ cursor'.Slotted := by
  have skipped := skipEmpty_origins cursor.plans cursor.planIdx _ rfl
  have opened := skipEmpty_spec reader cursor.plans cursor.planIdx _ rfl
  have held : cursor.origins = plannedOrigins (cursor.plans.drop cursor.planIdx) := by
    simp [origins, idle, currentOrigins_exhausted exhausted]
  unfold openNext at done
  split at done
  · next after found =>
    rw [found] at skipped
    cases done
    have nothing : ({ cursor with planIdx := after } : StreamCursor).origins = [] := by
      have current : ({ cursor with planIdx := after } : StreamCursor).currentOrigins = [] :=
        currentOrigins_exhausted exhausted
      rw [origins, current]
      simp [idle, skipped.2, plannedOrigins]
    refine ⟨nothing.trans (held.trans skipped.1).symm, idle, fun _ => nothing, ?_⟩
    intro item shown
    cases idle.symm.trans shown
  · next plan after found =>
    rw [found] at skipped opened
    dsimp only at skipped opened
    obtain ⟨full, -, here, -⟩ := opened
    split at done
    · cases done
    · next decoded cache₁ _ =>
      split at done
      · next ord rest ords =>
        simp only [bind, Except.bind] at done
        split at done
        · cases done
        · next made decodedNext =>
          cases done
          have begun : (some (ordinals plan.union) : Option (List Nat)) = some (ord :: rest) :=
            congrArg some ords
          obtain ⟨kept, shown, isSome, slotted⟩ := @decodeNext_origins reader
            { cursor with
              planIdx := after
              currentDecoded := some decoded
              currentOrds := some (ordinals plan.union) } _ _ _ _ idle begun decodedNext
          refine ⟨kept.trans ?_, shown, fun isNone => absurd isNone isSome, slotted⟩
          rw [held, skipped]
          simp [origins, currentOrigins, idle, here, originsOf]
      · next ords => exact absurd ((ordinals_eq_nil plan.union).mp ords) full

/-- Peeking keeps the places, and shows nothing only when none is left. -/
theorem peek_origins {cache cache' : ChunkCache} (slotted : cursor.Slotted)
    (done : cursor.peek reader cache = .ok (item, cursor', cache')) :
    cursor'.origins = cursor.origins ∧ cursor'.peeked = item ∧
      (item = none → cursor'.origins = []) ∧ cursor'.Slotted := by
  unfold peek at done
  split at done
  · next head shown =>
    cases done
    exact ⟨rfl, shown, fun isNone => absurd isNone (Option.some_ne_none _), slotted⟩
  · next idle =>
    split at done
    · next ord rest ords =>
      simp only [bind, Except.bind] at done
      split at done
      · cases done
      · next made decoded =>
        cases done
        obtain ⟨kept, shown, isSome, slotted'⟩ := decodeNext_origins idle ords decoded
        exact ⟨kept, shown, fun isNone => absurd isNone isSome, slotted'⟩
    · next ords => exact openNext_origins idle (by rw [ords]; rfl) done
    · next ords => exact openNext_origins idle (by rw [ords]; rfl) done

/-- Taking the head takes its place. -/
theorem takePeeked_origins {head : Peeked} (taken : cursor.takePeeked = some (head, cursor')) :
    cursor.peeked = some head ∧ cursor.origins = head.origin :: cursor'.origins ∧
      cursor'.Slotted := by
  obtain ⟨own, shown, same⟩ := Option.map_eq_some_iff.mp taken
  cases same
  refine ⟨shown, ?_, ?_⟩
  · simp [origins, currentOrigins, shown]
  · rintro item impossible
    cases impossible

end StreamCursor

namespace Replay

variable {reader : Reader}

/-- The places that a stream's cursor has still to give. -/
def originsAt (cursors : Stream → Option StreamCursor) (stream : Stream) : List Origin :=
  (cursors stream).elim [] StreamCursor.origins

/-- The heads of all cursors have the slots of their updates. -/
def Slotted (cursors : Stream → Option StreamCursor) : Prop :=
  ∀ stream cursor, cursors stream = some cursor → cursor.Slotted

/-- A best head is shown by its cursor. -/
def Shown (cursors : Stream → Option StreamCursor) (best : Option (Stream × Nat)) : Prop :=
  ∀ winner slot, best = some (winner, slot) →
    ∃ cursor item, cursors winner = some cursor ∧ cursor.peeked = some item ∧ item.slot = slot

/-- A cursor that moves on without losing a message leaves all streams with theirs. -/
theorem originsAt_update {cursors : Stream → Option StreamCursor} {stream : Stream}
    {cursor cursor' : StreamCursor} (found : cursors stream = some cursor)
    (same : cursor'.origins = cursor.origins) (other : Stream) :
    originsAt (Function.update cursors stream (some cursor')) other = originsAt cursors other := by
  by_cases here : other = stream
  · subst here
    simp [originsAt, found, same]
  · simp [originsAt, Function.update_of_ne here]

/-- The best of a stream's head and those before is one of them. -/
theorem choose_eq {stream winner : Stream} {best : Option (Stream × Nat)} {item : Option Peeked}
    {slot : Nat} (chosen : choose stream best item = some (winner, slot)) :
    best = some (winner, slot) ∨ winner = stream := by
  cases item with
  | none => exact .inl chosen
  | some item =>
    rw [choose] at chosen
    split at chosen
    · cases chosen
      exact .inr rfl
    · exact .inl chosen

/-- There is no best head only without any. -/
theorem choose_none {stream : Stream} {best : Option (Stream × Nat)} {item : Option Peeked}
    (chosen : choose stream best item = none) : best = none ∧ item = none := by
  cases item with
  | none => exact ⟨chosen, rfl⟩
  | some item =>
    rw [choose] at chosen
    split at chosen
    · cases chosen
    · next later =>
      subst chosen
      exact absurd rfl later

/-- The best head is still shown once a further stream shows its own. -/
theorem shown_choose {cursors : Stream → Option StreamCursor} {stream : Stream}
    {cursor' : StreamCursor} {best : Option (Stream × Nat)} {item : Option Peeked}
    (shown : Shown cursors best)
    (other : ∀ slot, best ≠ some (stream, slot)) (isShown : cursor'.peeked = item) :
    Shown (Function.update cursors stream (some cursor')) (choose stream best item) := by
  have kept : Shown (Function.update cursors stream (some cursor')) best := by
    intro winner slot same
    obtain ⟨holder, head, has, isHead, isSlot⟩ := shown winner slot same
    have apart : winner ≠ stream := by
      rintro rfl
      exact other slot same
    exact ⟨holder, head, by rw [Function.update_of_ne apart, has], isHead, isSlot⟩
  cases item with
  | none => exact kept
  | some item =>
    rw [choose]
    split
    · intro winner slot same
      cases same
      exact ⟨cursor', item, by rw [Function.update_self], isShown, rfl⟩
    · exact kept

/-- Peeking at a list of streams keeps all places, and finds no head only when the streams
have none left. -/
theorem peekStreams_origins {todo : List Stream} (distinct : todo.Nodup)
    {cursors cursors' : Stream → Option StreamCursor} {cache cache' : ChunkCache}
    {best best' : Option (Stream × Nat)} (slotted : Slotted cursors) (shown : Shown cursors best)
    (fresh : ∀ winner slot, best = some (winner, slot) → winner ∉ todo)
    (done : peekStreams reader todo cursors cache best = .ok (best', cursors', cache')) :
    (∀ stream, originsAt cursors' stream = originsAt cursors stream) ∧ Slotted cursors' ∧
      Shown cursors' best' ∧
      (best' = none → best = none ∧ ∀ stream ∈ todo, originsAt cursors stream = []) := by
  induction todo generalizing cursors cache best with
  | nil =>
    cases done
    exact ⟨fun _ => rfl, slotted, shown, fun isNone => ⟨isNone, fun _ member => nomatch member⟩⟩
  | cons stream rest inductionHypothesis =>
    obtain ⟨apart, distinctRest⟩ := List.nodup_cons.mp distinct
    rw [peekStreams] at done
    split at done
    · next absent =>
      obtain ⟨kept, slotted', shown', none'⟩ := inductionHypothesis distinctRest slotted shown
        (fun winner slot same member => fresh winner slot same (List.mem_cons_of_mem _ member)) done
      refine ⟨kept, slotted', shown', fun isNone => ?_⟩
      obtain ⟨before, later⟩ := none' isNone
      exact ⟨before, List.forall_mem_cons.mpr ⟨by rw [originsAt, absent]; rfl, later⟩⟩
    · next cursor found =>
      simp only [bind, Except.bind] at done
      split at done
      · cases done
      · next made peeked =>
        obtain ⟨item, cursor₁, cache₁⟩ := made
        dsimp only at done
        obtain ⟨same, isShown, empty, own⟩ :=
          StreamCursor.peek_origins (slotted stream cursor found) peeked
        have unchanged := @originsAt_update cursors stream cursor cursor₁ found same
        have slotted₁ : Slotted (Function.update cursors stream (some cursor₁)) :=
          Tables.forall_update_some slotted own
        have shown₁ : Shown (Function.update cursors stream (some cursor₁))
            (choose stream best item) :=
          shown_choose shown (fun slot same =>
            fresh stream slot same List.mem_cons_self) isShown
        have fresh₁ : ∀ winner slot, choose stream best item = some (winner, slot) →
            winner ∉ rest := by
          intro winner slot chosen
          rcases choose_eq chosen with kept | rfl
          · exact fun member => fresh winner slot kept (List.mem_cons_of_mem _ member)
          · exact apart
        obtain ⟨kept, slotted', shown', none'⟩ :=
          inductionHypothesis distinctRest slotted₁ shown₁ fresh₁ done
        refine ⟨fun other => (kept other).trans (unchanged other), slotted', shown', ?_⟩
        intro isNone
        obtain ⟨chosen, later⟩ := none' isNone
        obtain ⟨before, nothing⟩ := choose_none chosen
        refine ⟨before, List.forall_mem_cons.mpr ⟨?_, fun other member => ?_⟩⟩
        · have left := empty nothing
          rw [same] at left
          rw [originsAt, found]
          exact left
        · exact (unchanged other).symm.trans (later other member)

/-- Taking a head takes it off the places of its stream; none is there to take only when no
place is left. -/
theorem dequeue_origins {cursors cursors' : Stream → Option StreamCursor}
    {cache cache' : ChunkCache} {head : Option (Stream × Nat × Peeked)} (slotted : Slotted cursors)
    (done : dequeue reader cursors cache = .ok (head, cursors', cache')) :
    match head with
    | none => ∀ stream, originsAt cursors stream = []
    | some (winner, slot, item) => slot = item.slot ∧ item.slot = slotOf item.update ∧
        originsAt cursors winner = item.origin :: originsAt cursors' winner ∧
        (∀ other, other ≠ winner → originsAt cursors' other = originsAt cursors other) ∧
        Slotted cursors' := by
  simp only [dequeue, bind, Except.bind] at done
  split at done
  · cases done
  · next made peeked =>
    obtain ⟨best, cursors₁, cache₁⟩ := made
    have nothing : Shown cursors none := fun _ _ impossible => by cases impossible
    obtain ⟨kept, slotted₁, shown, empty⟩ := peekStreams_origins (by decide) slotted nothing
      (fun _ _ impossible => by cases impossible) peeked
    cases best with
    | none =>
      cases done
      exact fun stream => (empty rfl).2 stream (Stream.mem_all stream)
    | some best =>
      obtain ⟨winner, slot⟩ := best
      dsimp only at done
      split at done
      · cases done
      · next item cursor taken =>
        cases done
        obtain ⟨holder, has, taken'⟩ := Option.bind_eq_some_iff.mp taken
        obtain ⟨isHead, places, slotted'⟩ := StreamCursor.takePeeked_origins taken'
        obtain ⟨cursor₁, item₁, has₁, isHead₁, isSlot⟩ := shown winner slot rfl
        obtain rfl := Option.some.inj (has.symm.trans has₁)
        obtain rfl := Option.some.inj (isHead.symm.trans isHead₁)
        refine ⟨isSlot.symm, slotted₁ winner _ has _ isHead, ?_, fun other apart => ?_,
          Tables.forall_update_some slotted₁ slotted'⟩
        · rw [← kept, originsAt, originsAt, has, Function.update_self]
          exact places
        · rw [← kept, originsAt, originsAt, Function.update_of_ne apart]

/-- The messages that the loop takes off its cursors for as long as it goes on, each with its
stream. -/
def heads (reader : Reader) :
    Nat → (Stream → Option StreamCursor) → ChunkCache → List (Stream × Peeked)
  | 0, _, _ => []
  | fuel + 1, cursors, cache =>
      match dequeue reader cursors cache with
      | .ok (some (winner, _, item), cursors, cache) =>
          (winner, item) :: heads reader fuel cursors cache
      | _ => []

/-- The places of the messages of one stream among those of all. -/
def placesOn (stream : Stream) (items : List (Stream × Peeked)) : List Origin :=
  (items.filter (fun item => item.1 = stream)).map (fun item => item.2.origin)

/-- The loop takes messages at the places of its cursors, in order, and each has the slot of
its update. -/
theorem heads_origins (fuel : Nat) {cursors : Stream → Option StreamCursor} {cache : ChunkCache}
    (slotted : Slotted cursors) :
    (∀ stream, placesOn stream (heads reader fuel cursors cache) <+: originsAt cursors stream) ∧
      ∀ item ∈ heads reader fuel cursors cache, item.2.slot = slotOf item.2.update := by
  induction fuel generalizing cursors cache with
  | zero => exact ⟨fun _ => List.nil_prefix, fun _ member => nomatch member⟩
  | succ fuel inductionHypothesis =>
    rw [heads]
    split
    · next winner slot item cursors' cache' taken =>
      obtain ⟨-, isSlot, first, others, slotted'⟩ := dequeue_origins slotted taken
      obtain ⟨front, slots⟩ := @inductionHypothesis cursors' cache' slotted'
      refine ⟨fun stream => ?_, List.forall_mem_cons.mpr ⟨isSlot, slots⟩⟩
      by_cases here : stream = winner
      · subst here
        rw [first]
        simpa [placesOn] using front stream
      · rw [← others stream here]
        simpa [placesOn, Ne.symm here] using front stream
    · exact ⟨fun _ => List.nil_prefix, fun _ member => nomatch member⟩

/-- How the pacer judges the emission of a message, and the pacer after it. -/
def judge (now : Iteration) (pacer : Pacer) (item : Peeked) : LagAction × Pacer :=
  (pacer.target now.targetNow item.recvNs).2.observeEmit now.emitNow
    (pacer.target now.targetNow item.recvNs).1

/-- A lag that ends the replay. -/
def isDrop : LagAction → Bool
  | .drop _ => true
  | .warn _ => false
  | .ok => false

/-- The channel accepts one of the messages from a slot on, all those before it in time, and
the pacer judges it too late. -/
def dropsLate (fromSlot : Nat) (env : Nat → Iteration) :
    Nat → Pacer → List (Stream × Peeked) → Bool
  | _, _, [] => false
  | round, pacer, (_, item) :: rest =>
      if item.slot < fromSlot then dropsLate fromSlot env (round + 1) pacer rest
      else
        !(env round).cancelled && (env round).outcome = .sent &&
          (isDrop (judge (env round) pacer item).1 ||
            dropsLate fromSlot env (round + 1) (judge (env round) pacer item).2 rest)

/-- Handing a message over goes on with the message sent and counted, ends with the message
sent but judged too late, or ends without the message. -/
theorem emit_accounts (now : Iteration) (winner : Stream) (item : Peeked) (s : DriveState) :
    ((now.cancelled = false ∧ now.outcome = .sent ∧ isDrop (judge now s.pacer item).1 = false) ∧
      ∃ s', emit reader now winner item s = .continues s' ∧ s'.cursors = s.cursors ∧
        s'.cache = s.cache ∧ s'.pacer = (judge now s.pacer item).2 ∧
        s'.emitted = s.emitted + 1 ∧ Sends reader s s' [(winner, item)]) ∨
    ((now.cancelled = false ∧ now.outcome = .sent ∧ isDrop (judge now s.pacer item).1 = true) ∧
      ∃ s', emit reader now winner item s = .ends .lagDrop s' ∧ s'.emitted = s.emitted ∧
        Sends reader s s' [(winner, item)]) ∨
    ((now.cancelled = true ∨ now.outcome ≠ .sent) ∧
      ∃ exit s', emit reader now winner item s = .ends exit s' ∧ exit ≠ .drained ∧
        exit ≠ .lagDrop ∧ s'.emitted = s.emitted ∧ Sends reader s s' []) := by
  rw [emit, judge]
  rcases s.pacer.target now.targetNow item.recvNs with ⟨target, pacer⟩
  by_cases cancelled : now.cancelled = true
  · refine .inr (.inr ⟨.inl cancelled, .shutdown, { s with pacer }, ?_, by decide, by decide, rfl,
      sends_none rfl rfl rfl⟩)
    simp [cancelled]
  · have running : now.cancelled = false := by simpa using cancelled
    simp only [running, Bool.false_eq_true, if_false]
    cases outcome : now.outcome with
    | timedOut => exact .inr (.inr ⟨.inr (by decide), .timedOut, _, rfl, by decide, by decide, rfl,
        sends_none rfl rfl rfl⟩)
    | closed => exact .inr (.inr ⟨.inr (by decide), .closed, _, rfl, by decide, by decide, rfl,
        sends_none rfl rfl rfl⟩)
    | sent =>
      dsimp only
      rcases pacer.observeEmit now.emitNow target with ⟨_ | lag | lag, pacer⟩
      · exact .inl ⟨⟨trivial, rfl, rfl⟩, _, rfl, rfl, rfl, rfl, rfl, rfl, rfl, by simp [handed]⟩
      · exact .inl ⟨⟨trivial, rfl, rfl⟩, _, rfl, rfl, rfl, rfl, rfl, rfl, rfl, by simp [handed]⟩
      · exact .inr (.inl ⟨⟨trivial, rfl, rfl⟩, _, rfl, rfl, rfl, rfl, by simp [handed]⟩)

/-- What a loop that ended has accepted of the messages that it was to take, and what it has
counted of that: one message less if it ended for its lag. -/
structure Counts (reader : Reader) (before after : DriveState) (exit : Exit) (late : Bool)
    (whole accepted : List (Stream × Peeked)) : Prop where
  sends : Sends reader before after accepted
  front : accepted <+: whole
  counted : after.emitted + late.toNat = before.emitted + accepted.length
  late : exit = .lagDrop ↔ late = true
  drained : exit = .drained → accepted = whole
  early : exit ≠ .drained → exit ≠ .lagDrop → accepted ≠ whole

/-- Below the requested slot nothing is sent or judged. -/
theorem Counts.skip {before after : DriveState} {exit : Exit} {late : Bool}
    {whole accepted : List (Stream × Peeked)} {cursors : Stream → Option StreamCursor}
    {cache : ChunkCache}
    (counts : Counts reader { before with cursors, cache } after exit late whole accepted) :
    Counts reader before after exit late whole accepted :=
  ⟨⟨counts.sends.sent, counts.sends.lastSlot, counts.sends.bytes⟩, counts.front, counts.counted,
    counts.late, counts.drained, counts.early⟩

/-- A message that is sent and counted comes ahead of the others. -/
theorem Counts.cons {before next after : DriveState} {exit : Exit} {late : Bool}
    {whole accepted : List (Stream × Peeked)} {item : Stream × Peeked}
    (sends : Sends reader before next [item]) (emitted : next.emitted = before.emitted + 1)
    (counts : Counts reader next after exit late whole accepted) :
    Counts reader before after exit late (item :: whole) (item :: accepted) := by
  obtain ⟨sends', front, counted, isLate, drained, early⟩ := counts
  refine ⟨sends_trans sends sends', List.cons_prefix_cons.mpr ⟨rfl, front⟩, ?_, isLate, ?_, ?_⟩
  · rw [List.length_cons]
    omega
  · exact fun isDrained => congrArg (item :: ·) (drained isDrained)
  · exact fun notDrained notLate same => early notDrained notLate (List.cons.inj same).2

/-- A loop that ends has found nothing left, has skipped a message below the requested slot, or
has handed one over; behind the last two it goes on, or handing over has ended it. -/
theorem driveLoop_cases {fromSlot fuel round : Nat} {env : Nat → Iteration} {exit : Exit}
    {s s' : DriveState} (slotted : Slotted s.cursors)
    (done : driveLoop reader fromSlot env (fuel + 1) round s = .ok (exit, s')) :
    (∃ cursors cache, dequeue reader s.cursors s.cache = .ok (none, cursors, cache) ∧
      exit = .drained ∧ s' = { s with cursors, cache }) ∨
    ∃ winner item cursors cache,
      dequeue reader s.cursors s.cache = .ok (some (winner, item.slot, item), cursors, cache) ∧
      Slotted cursors ∧
      ((item.slot < fromSlot ∧
          driveLoop reader fromSlot env fuel (round + 1) { s with cursors, cache } =
            .ok (exit, s')) ∨
        (¬ item.slot < fromSlot ∧
          (emit reader (env round) winner item { s with cursors, cache } = .ends exit s' ∨
            ∃ s₁, emit reader (env round) winner item { s with cursors, cache } = .continues s₁ ∧
              driveLoop reader fromSlot env fuel (round + 1) s₁ = .ok (exit, s')))) := by
  simp only [driveLoop, driveStep_eq, bind, Except.bind] at done
  cases found : dequeue reader s.cursors s.cache with
  | error error =>
    rw [found] at done
    cases done
  | ok made =>
    obtain ⟨head, cursors, cache⟩ := made
    rw [found] at done
    cases head with
    | none =>
      cases done
      exact .inl ⟨cursors, cache, rfl, rfl, rfl⟩
    | some head =>
      obtain ⟨winner, slot, item⟩ := head
      obtain ⟨isSlot, -, -, -, slotted'⟩ := dequeue_origins slotted found
      obtain rfl := isSlot
      refine .inr ⟨winner, item, cursors, cache, rfl, slotted', ?_⟩
      simp only [Except.map, deliver] at done
      by_cases below : item.slot < fromSlot
      · simp only [below, if_true] at done
        exact .inl ⟨below, done⟩
      · simp only [below, if_false] at done
        refine .inr ⟨below, ?_⟩
        cases delivered : emit reader (env round) winner item { s with cursors, cache } with
        | ends exit' s₁ =>
          rw [delivered] at done
          cases done
          exact .inl rfl
        | continues s₁ =>
          rw [delivered] at done
          exact .inr ⟨s₁, rfl, done⟩

/-- A loop that ends has accepted messages from the front of those that it was to take, and
counted them but for one judged too late. -/
theorem driveLoop_counts {fromSlot : Nat} {env : Nat → Iteration} {exit : Exit} {s' : DriveState}
    (fuel : Nat) {round : Nat} {s : DriveState} (slotted : Slotted s.cursors)
    (done : driveLoop reader fromSlot env fuel round s = .ok (exit, s')) :
    ∃ accepted, Counts reader s s' exit
      (dropsLate fromSlot env round s.pacer (heads reader fuel s.cursors s.cache))
      (fromOn fromSlot (heads reader fuel s.cursors s.cache)) accepted := by
  induction fuel generalizing round s with
  | zero => cases done
  | succ fuel inductionHypothesis =>
    rcases driveLoop_cases slotted done with
      ⟨cursors, cache, found, rfl, rfl⟩ | ⟨winner, item, cursors, cache, found, slotted', next⟩
    · rw [heads, found]
      exact ⟨[], sends_none rfl rfl rfl, List.prefix_rfl, rfl, by simp [dropsLate], fun _ => rfl,
        fun notDrained => absurd rfl notDrained⟩
    rw [heads, found]
    dsimp only
    rcases next with ⟨below, done⟩ | ⟨above, delivered⟩
    · obtain ⟨accepted, counts⟩ := @inductionHypothesis _ { s with cursors, cache } slotted' done
      have skipped : fromOn fromSlot ((winner, item) :: heads reader fuel cursors cache) =
          fromOn fromSlot (heads reader fuel cursors cache) :=
        List.filter_cons_of_neg (by simpa using below)
      rw [skipped, dropsLate, if_pos below]
      exact ⟨accepted, counts.skip⟩
    · have kept : fromOn fromSlot ((winner, item) :: heads reader fuel cursors cache) =
          (winner, item) :: fromOn fromSlot (heads reader fuel cursors cache) :=
        List.filter_cons_of_pos (by simpa using above)
      rw [kept, dropsLate, if_neg above]
      rcases @emit_accounts reader (env round) winner item { s with cursors, cache } with
        ⟨⟨running, accepts, inTime⟩, s₁, continued, sameCursors, sameCache, samePacer, emitted,
          sends⟩ |
        ⟨⟨running, accepts, late⟩, s₁, ended, emitted, sends⟩ |
        ⟨refused, exit₁, s₁, ended, notDrained, notLate, emitted, sends⟩
      · rw [continued] at delivered
        obtain impossible | ⟨s₂, same, done⟩ := delivered
        · cases impossible
        obtain rfl := Progress.continues.inj same
        obtain ⟨accepted, counts⟩ := inductionHypothesis (by rw [sameCursors]; exact slotted') done
        rw [sameCursors, sameCache, samePacer] at counts
        rw [running, accepts, inTime]
        simp only [Bool.not_false, decide_true, Bool.true_and, Bool.false_or]
        exact ⟨(winner, item) :: accepted, (counts.cons sends emitted).skip⟩
      · rw [ended] at delivered
        obtain same | ⟨s₂, impossible, -⟩ := delivered
        · cases same
          rw [running, accepts, late]
          refine ⟨[(winner, item)], ⟨sends.sent, sends.lastSlot, sends.bytes⟩,
            List.cons_prefix_cons.mpr ⟨rfl, List.nil_prefix⟩, ?_, by simp,
            (fun impossible => by cases impossible), fun _ notLate => absurd rfl notLate⟩
          exact congrArg (· + 1) emitted
        · cases impossible
      · rw [ended] at delivered
        obtain same | ⟨s₂, impossible, -⟩ := delivered
        · cases same
          have never : (!(env round).cancelled && decide ((env round).outcome = .sent)) = false := by
            rcases refused with cancelled | notSent
            · rw [cancelled]
              rfl
            · rw [decide_eq_false notSent, Bool.and_false]
          rw [never, Bool.false_and]
          exact ⟨[], ⟨sends.sent, sends.lastSlot, sends.bytes⟩, List.nil_prefix, emitted,
            by simp [notLate], fun isDrained => absurd isDrained notDrained,
            fun _ _ => (List.cons_ne_nil _ _).symm⟩
        · cases impossible

/-- A loop that ends as drained has taken messages at all places of its cursors. -/
theorem driveLoop_places {fromSlot : Nat} {env : Nat → Iteration} {s' : DriveState}
    (fuel : Nat) {round : Nat} {s : DriveState} (slotted : Slotted s.cursors)
    (done : driveLoop reader fromSlot env fuel round s = .ok (.drained, s')) (stream : Stream) :
    placesOn stream (heads reader fuel s.cursors s.cache) = originsAt s.cursors stream := by
  induction fuel generalizing round s with
  | zero => cases done
  | succ fuel inductionHypothesis =>
    rcases driveLoop_cases slotted done with
      ⟨cursors, cache, found, -⟩ | ⟨winner, item, cursors, cache, found, slotted', next⟩
    · rw [heads, found]
      exact (dequeue_origins slotted found stream).symm
    have behind : placesOn stream (heads reader fuel cursors cache) = originsAt cursors stream := by
      rcases next with ⟨-, done⟩ | ⟨-, delivered⟩
      · exact @inductionHypothesis _ { s with cursors, cache } slotted' done
      · rcases @emit_accounts reader (env round) winner item { s with cursors, cache } with
          ⟨-, s₁, continued, sameCursors, sameCache, -⟩ | ⟨-, s₁, ended, -⟩ |
          ⟨-, exit₁, s₁, ended, notDrained, -⟩
        · rw [continued] at delivered
          obtain impossible | ⟨s₂, same, done⟩ := delivered
          · cases impossible
          obtain rfl := Progress.continues.inj same
          have later := inductionHypothesis (by rw [sameCursors]; exact slotted') done
          rw [sameCursors, sameCache] at later
          exact later
        · rw [ended] at delivered
          obtain impossible | ⟨s₂, impossible, -⟩ := delivered <;> cases impossible
        · rw [ended] at delivered
          obtain same | ⟨s₂, impossible, -⟩ := delivered
          · exact absurd (Progress.ends.inj same).1 notDrained
          · cases impossible
    obtain ⟨-, -, first, others, -⟩ := dequeue_origins slotted found
    rw [heads, found]
    dsimp only
    by_cases here : stream = winner
    · subst here
      rw [first, ← behind]
      simp [placesOn]
    · rw [← others stream here, ← behind]
      simp [placesOn, Ne.symm here]

/-- The messages that a replay of a plan is to take, with their streams. -/
def toTake (reader : Reader) (plan : ReplayPlan) (cache : ChunkCache) : List (Stream × Peeked) :=
  heads reader (bound plan) (opening plan) cache

/-- Every planned message at or above the requested slot has been accepted: the messages to
take are those at all planned places, and the accepted ones are those from the slot on. -/
structure AllAccepted (reader : Reader) (plan : ReplayPlan) (cache : ChunkCache)
    (outcome : Outcome) : Prop where
  places : ∀ stream, placesOn stream (toTake reader plan cache) =
    plannedOrigins (plan.plansPerStream stream)
  accepted : outcome.sent = (fromOn plan.fromSlot (toTake reader plan cache)).map toSent

/-- The statistics of a replay are those of the messages that the channel accepted, and it is
drained when these are all and no lag ended it. -/
structure Exact (reader : Reader) (plan : ReplayPlan) (cache : ChunkCache) (outcome : Outcome) :
    Prop where
  sent : outcome.stats.sent = outcome.sent.length
  bytes : outcome.stats.bytes =
    (outcome.sent.map (fun item => (reader.codecs.prostEncode item.2.update).length)).sum
  lastSlot : outcome.stats.lastSlot = outcome.sent.getLast?.map (fun item => slotOf item.2.update)
  drained : outcome.stats.drained = true ↔
    AllAccepted reader plan cache outcome ∧ outcome.exit ≠ .lagDrop

/-- The cursors of a new replay have all that was planned before them. -/
theorem opening_origins (plan : ReplayPlan) :
    Slotted (opening plan) ∧
      ∀ stream, originsAt (opening plan) stream = plannedOrigins (plan.plansPerStream stream) := by
  refine ⟨fun stream cursor has => ?_, fun stream => ?_⟩
  · by_cases empty : plan.plansPerStream stream = []
    · simp [opening, empty] at has
    · simp only [opening, if_neg empty, Option.some.injEq] at has
      rw [← has]
      rintro item impossible
      cases impossible
  · by_cases empty : plan.plansPerStream stream = []
    · simp [originsAt, opening, empty, plannedOrigins]
    · simp [originsAt, opening, empty, StreamCursor.origins, StreamCursor.currentOrigins,
        StreamCursor.new]

/-- A replay that returns is its loop, which has counted the messages that the channel
accepted. -/
theorem driveReplay_counts {env : Nat → Iteration} {plan : ReplayPlan} {cache : ChunkCache}
    {pacer : Pacer} {outcome : Outcome}
    (done : driveReplay reader env plan cache pacer = .ok outcome) :
    ∃ exit s accepted,
      driveLoop reader plan.fromSlot env (bound plan) 0 (begun plan cache pacer) = .ok (exit, s) ∧
      Counts reader (begun plan cache pacer) s exit
        (dropsLate plan.fromSlot env 0 pacer (toTake reader plan cache))
        (fromOn plan.fromSlot (toTake reader plan cache)) accepted ∧
      outcome =
        { stats :=
            { sent := s.emitted
              bytes := s.bytes
              lagMax := s.lagMax
              lastSlot := s.lastSlot
              drained := exit = .drained }
          exit
          sent := s.sent
          pacer := s.pacer
          cache := s.cache } := by
  rw [driveReplay_eq] at done
  cases ended : driveLoop reader plan.fromSlot env (bound plan) 0 (begun plan cache pacer) with
  | error error =>
    rw [ended] at done
    cases done
  | ok found =>
    obtain ⟨exit, s⟩ := found
    rw [ended] at done
    obtain ⟨accepted, counts⟩ := driveLoop_counts (bound plan) (s := begun plan cache pacer)
      (opening_origins plan).1 ended
    exact ⟨exit, s, accepted, rfl, counts, (Except.ok.inj done).symm⟩

/-- A replay that returns counts one message less than it has accepted if it ends for its lag,
and has all else right. -/
theorem driveReplay_accounts {env : Nat → Iteration} {plan : ReplayPlan} {cache : ChunkCache}
    {pacer : Pacer} {outcome : Outcome}
    (done : driveReplay reader env plan cache pacer = .ok outcome) :
    outcome.stats.sent + (dropsLate plan.fromSlot env 0 pacer (toTake reader plan cache)).toNat =
        outcome.sent.length ∧
      outcome.stats.bytes =
        (outcome.sent.map (fun item => (reader.codecs.prostEncode item.2.update).length)).sum ∧
      outcome.stats.lastSlot =
        outcome.sent.getLast?.map (fun item => slotOf item.2.update) ∧
      (outcome.stats.drained = true ↔
        AllAccepted reader plan cache outcome ∧ outcome.exit ≠ .lagDrop) := by
  obtain ⟨slotted, places⟩ := opening_origins plan
  obtain ⟨exit, s, accepted, ended, counts, rfl⟩ := driveReplay_counts done
  have sent : s.sent = accepted.map toSent := by simp [counts.sends.sent, begun]
  have counted := counts.counted
  have slots : ∀ item ∈ accepted, item.2.slot = slotOf item.2.update := by
    intro item member
    have among := List.mem_of_mem_filter (counts.front.subset member)
    exact (heads_origins (bound plan) slotted).2 item among
  refine ⟨?_, ?_, ?_, ?_⟩
  · dsimp only
    rw [sent, List.length_map]
    simpa [begun, toTake] using counted
  · dsimp only
    rw [counts.sends.bytes, sent, List.map_map]
    simp only [begun, Nat.zero_add]
    rfl
  · dsimp only
    rw [counts.sends.lastSlot, sent, List.getLast?_map, Option.map_map]
    cases last : accepted.getLast? with
    | none => rfl
    | some item =>
      exact congrArg some (slots item (List.mem_of_mem_getLast? last))
  · simp only [decide_eq_true_eq]
    constructor
    · rintro rfl
      refine ⟨⟨fun stream => ?_, ?_⟩, by decide⟩
      · rw [← places stream]
        exact driveLoop_places (bound plan) (s := begun plan cache pacer) slotted ended stream
      · rw [sent, counts.drained rfl]
    · rintro ⟨⟨-, all⟩, notLate⟩
      by_contra notDrained
      apply counts.early notDrained notLate
      apply counts.front.eq_of_length
      rw [sent] at all
      have same := congrArg List.length all
      rwa [List.length_map, List.length_map] at same

end Replay

namespace Follow

/-- The totals of a follower are those of its passes. -/
structure Totals (s : FollowState) : Prop where
  sent : s.total.sent = (s.passes.map (fun pass => pass.outcome.stats.sent)).sum
  bytes : s.total.bytes = (s.passes.map (fun pass => pass.outcome.stats.bytes)).sum
  lagMax : s.total.lagMax = (s.passes.map (fun pass => pass.outcome.stats.lagMax)).foldl max 0
  lastSlot : s.total.lastSlot =
    (s.passes.filterMap (fun pass => pass.outcome.stats.lastSlot)).getLast?

variable {reader : Reader} {ctx : FollowContext}

/-- What a follower is left with when it goes on or ends. -/
def reached : FollowProgress → FollowState
  | .continues s => s
  | .ends _ s => s

/-- A turn keeps the totals those of the passes. -/
theorem followTurn_totals (turn : Turn) {s : FollowState} (totals : Totals s) :
    Totals (reached (followTurn reader ctx turn s)) := by
  rcases followTurn_cases reader ctx turn s with
    ends | ⟨reason, -, ends⟩ | ⟨catalog, plan, indexCache, -, ⟨error, -, ends⟩ | ⟨outcome, -, settles⟩⟩
  · rw [ends]
    exact totals
  · rw [ends]
    exact ⟨totals.sent, totals.bytes, totals.lagMax, totals.lastSlot⟩
  · rw [ends]
    exact totals
  have added : Totals (passed s ⟨catalog, plan, outcome⟩ indexCache) := by
    refine ⟨?_, ?_, ?_, ?_⟩
    · simp [passed, addStats, totals.sent]
    · simp [passed, addStats, totals.bytes]
    · simp [passed, addStats, totals.lagMax]
    · cases last : outcome.stats.lastSlot with
      | none => simp [passed, addStats, last, totals.lastSlot]
      | some slot => simp [passed, addStats, last]
  -- but for the mark, the totals and the passes stay as they are
  rw [settles]
  rcases settle_cases ctx turn outcome.stats (passed s ⟨catalog, plan, outcome⟩ indexCache) with
    ⟨-, ends⟩ | ⟨-, ⟨deadline, goesOn⟩ | ⟨-, ends⟩ | ends⟩
  · rw [ends]
    exact ⟨added.sent, added.bytes, added.lagMax, added.lastSlot⟩
  · rw [goesOn]
    exact ⟨added.sent, added.bytes, added.lagMax, added.lastSlot⟩
  · rw [ends]
    exact added
  · rw [ends]
    exact added

/-- So do all turns. -/
theorem followLoop_totals (env : Nat → Turn) (turns : Nat) {round : Nat} {s : FollowState}
    (totals : Totals s) : Totals (followLoop reader ctx env turns round s).1 := by
  refine followLoop_keeps reader ctx Totals Totals (fun round s totals => ?_) (fun _ => id) turns
    round totals
  have kept := @followTurn_totals reader ctx (env round) s totals
  cases turned : followTurn reader ctx (env round) s with
  | ends reason s' =>
    rw [turned] at kept
    exact kept
  | continues s' =>
    rw [turned] at kept
    exact kept

end Follow

namespace Replay

/-- The statistics of a replay that returns are exact if and only if no message that the
channel accepts is judged too late; the totals of a follower are always those of its
passes. -/
theorem statistics_exact_iff (reader : Reader) :
    (∀ env plan cache pacer outcome, driveReplay reader env plan cache pacer = .ok outcome →
      (Exact reader plan cache outcome ↔
        dropsLate plan.fromSlot env 0 pacer (toTake reader plan cache) = false)) ∧
    ∀ ctx env turns now catalog plan indexCache chunkCache,
      Follow.Totals
        (Follow.followReplay reader ctx env turns now catalog plan indexCache chunkCache).1 := by
  constructor
  · intro env plan cache pacer outcome done
    obtain ⟨sent, bytes, lastSlot, drained⟩ := driveReplay_accounts done
    constructor
    · intro exact
      rw [← exact.sent] at sent
      exact Bool.toNat_eq_zero.mp (Nat.left_eq_add.mp sent.symm)
    · intro inTime
      rw [inTime] at sent
      exact ⟨sent, bytes, lastSlot, drained⟩
  · intro ctx env turns now catalog plan indexCache chunkCache
    apply Follow.followLoop_totals
    exact ⟨rfl, rfl, rfl, rfl⟩

/-- A subscriber whose channel accepts everything, with every emission seen at one time. -/
def acceptsAt (emitNow : Nat) (_ : Nat) : Iteration := ⟨0, false, .sent, emitNow⟩

/-- The statistics are exact when all emissions are seen at the time of the first target. -/
theorem statistics_exact_iff_skewed :
    ∃ outcome, driveReplay skewed (acceptsAt 0) twoStreamsPlan Lru.Cache.new (limited 30000) =
      .ok outcome ∧ Exact skewed twoStreamsPlan Lru.Cache.new outcome := by
  have returns : (driveReplay skewed (acceptsAt 0) twoStreamsPlan Lru.Cache.new
      (limited 30000)).toOption.isSome = true := by decide +kernel
  cases done : driveReplay skewed (acceptsAt 0) twoStreamsPlan Lru.Cache.new (limited 30000) with
  | error error =>
    rw [done] at returns
    cases returns
  | ok outcome =>
    exact ⟨outcome, rfl, ((statistics_exact_iff skewed).1 _ _ _ _ outcome done).mpr
      (by decide +kernel)⟩

/-- When the first emission is seen 30 s behind its target, the replay is dropped with one
message accepted and none counted. -/
theorem lateMessage_uncounted :
    ∃ outcome, driveReplay skewed (acceptsAt (30 * 10 ^ 9)) twoStreamsPlan Lru.Cache.new
        (limited 30000) = .ok outcome ∧
      outcome.sent.length = 1 ∧ outcome.stats.sent = 0 ∧
      ¬ Exact skewed twoStreamsPlan Lru.Cache.new outcome := by
  have counts : (driveReplay skewed (acceptsAt (30 * 10 ^ 9)) twoStreamsPlan Lru.Cache.new
      (limited 30000)).toOption.map (fun outcome => (outcome.sent.length, outcome.stats.sent)) =
      some (1, 0) := by decide +kernel
  cases done : driveReplay skewed (acceptsAt (30 * 10 ^ 9)) twoStreamsPlan Lru.Cache.new
      (limited 30000) with
  | error error =>
    rw [done] at counts
    cases counts
  | ok outcome =>
    rw [done] at counts
    obtain ⟨accepted, counted⟩ := Prod.mk.inj (Option.some.inj counts)
    refine ⟨outcome, rfl, accepted, counted, fun exact => ?_⟩
    have same := exact.sent
    rw [accepted, counted] at same
    cases same

end Replay

end Sillage
