import Sillage.Common.PlainCodecs
import Sillage.Foundation.KWayMerge
import Sillage.Reader.Cursor

/-!
# A replay merges its streams

The loop of a replay performs, one iteration at a time, the merge of what its cursors
hold by slot and stream. A drained replay has sent all of the merge that is at or above
the requested slot; any other one has sent a part from the front.
-/

namespace Sillage

open LittleEndian Idx KWayMerge

namespace Replay

variable {reader : Reader} {plans : ChunkPlan → Prop}

/-- What the cursors of a replay hold. -/
def queues (reader : Reader) (cursors : Stream → Option StreamCursor) (stream : Stream) :
    List Peeked :=
  (cursors stream).elim [] (StreamCursor.remaining reader)

/-- The cursors are sound and the cache is that of their chunks. -/
structure Valid (reader : Reader) (plans : ChunkPlan → Prop)
    (cursors : Stream → Option StreamCursor) (cache : ChunkCache) : Prop where
  sound : ∀ stream cursor, cursors stream = some cursor → cursor.Sound reader plans
  agrees : cache.Holds (ChunkAgrees reader plans)

/-- The best head among some streams, shown by its cursor. -/
def Best (reader : Reader) (cursors : Stream → Option StreamCursor) (seen : Stream → Prop) :
    Option (Stream × Nat) → Prop
  | none => ∀ stream, seen stream → queues reader cursors stream = []
  | some (winner, slot) => ∃ cursor item, cursors winner = some cursor ∧
      cursor.peeked = some item ∧ item.slot = slot ∧
      ∀ stream, seen stream → ∀ other tail, queues reader cursors stream = other :: tail →
        Before Peeked.slot (winner, item) (stream, other)

/-- A head that a cursor shows is the first message it holds. -/
theorem remaining_head {cursor : StreamCursor} {item : Peeked} (shown : cursor.peeked = some item) :
    (cursor.remaining reader).head? = some item := by
  simp [StreamCursor.remaining, shown]

/-- Replacing a cursor by one that holds the same leaves the queues as they are. -/
theorem queues_update {cursors : Stream → Option StreamCursor} {stream : Stream}
    {cursor cursor' : StreamCursor} (found : cursors stream = some cursor)
    (same : cursor'.remaining reader = cursor.remaining reader) :
    queues reader (Function.update cursors stream (some cursor')) = queues reader cursors := by
  funext other
  by_cases here : other = stream
  · subst here
    simp [queues, found, same]
  · simp [queues, Function.update_of_ne here]

/-- A head comes after the best one. -/
def Follows : Option (Stream × Nat) → Stream → Peeked → Prop
  | none, _, _ => False
  | some (winner, slot), stream, item =>
      slot < item.slot ∨ (slot = item.slot ∧ winner ≤ stream)

/-- A candidate that does not precede the best head follows it. -/
theorem follows_of_not_precedes {winner stream : Stream} {slot : Nat} {item : Peeked}
    (later : ¬ precedes (item.slot, stream) (some (winner, slot)) = true) :
    Follows (some (winner, slot)) stream item := by
  simp only [precedes, decide_eq_true_eq, not_or, not_and, not_lt] at later
  obtain ⟨above, tie⟩ := later
  rcases lt_or_eq_of_le above with less | same
  · exact .inl less
  · exact .inr ⟨same, tie same.symm⟩

/-- The best head stays the best when what one more stream offers follows it. -/
theorem best_extend {cursors : Stream → Option StreamCursor} {seen : Stream → Prop}
    {best : Option (Stream × Nat)} {stream : Stream} (isBest : Best reader cursors seen best)
    (follows : ∀ other tail, queues reader cursors stream = other :: tail →
      Follows best stream other) :
    Best reader cursors (fun other => seen other ∨ other = stream) best := by
  cases best with
  | none =>
    rintro other (before | rfl)
    · exact isBest other before
    · by_contra nonempty
      obtain ⟨head, tail, queue⟩ := List.exists_cons_of_ne_nil nonempty
      exact follows head tail queue
  | some best =>
    obtain ⟨cursor, item, has, shown, slot, least⟩ := isBest
    refine ⟨cursor, item, has, shown, slot, ?_⟩
    rintro other (before | rfl) head tail queue
    · exact least other before head tail queue
    · rw [Before, slot]
      exact follows head tail queue

/-- A head that precedes the best one is the best with its own stream. -/
theorem best_first {cursors : Stream → Option StreamCursor} {seen : Stream → Prop}
    {best : Option (Stream × Nat)} {stream : Stream} {cursor : StreamCursor} {item : Peeked}
    {tail : List Peeked} (isBest : Best reader cursors seen best)
    (has : cursors stream = some cursor) (shown : cursor.peeked = some item)
    (queue : queues reader cursors stream = item :: tail)
    (first : precedes (item.slot, stream) best = true) :
    Best reader cursors (fun other => seen other ∨ other = stream)
      (some (stream, item.slot)) := by
  refine ⟨cursor, item, has, shown, rfl, ?_⟩
  rintro other (before | rfl) head later queue'
  · cases best with
    | none =>
      rw [isBest other before] at queue'
      cases queue'
    | some best =>
      obtain ⟨-, bestItem, -, -, slot, least⟩ := isBest
      have ahead : Before Peeked.slot (stream, item) (best.1, bestItem) := by
        simp only [precedes, decide_eq_true_eq] at first
        rcases first with less | ⟨same, index⟩
        · exact .inl (slot ▸ less)
        · exact .inr ⟨same.trans slot.symm, index.le⟩
      exact before_trans ahead (least other before head later queue')
  · rw [queue] at queue'
    obtain ⟨rfl, rfl⟩ := List.cons.inj queue'
    exact before_refl _ _

/-- Peeking at a list of streams picks the best head among them and those seen before. -/
theorem peekStreams_spec (todo : List Stream) {cursors : Stream → Option StreamCursor}
    {cache : ChunkCache} {best : Option (Stream × Nat)} {seen : Stream → Prop}
    (valid : Valid reader plans cursors cache) (isBest : Best reader cursors seen best) :
    ∃ best' cursors' cache', peekStreams reader todo cursors cache best =
        .ok (best', cursors', cache') ∧ queues reader cursors' = queues reader cursors ∧
      Valid reader plans cursors' cache' ∧
      Best reader cursors' (fun stream => seen stream ∨ stream ∈ todo) best' := by
  induction todo generalizing cursors cache best seen with
  | nil => exact ⟨best, cursors, cache, rfl, rfl, valid, by simpa using isBest⟩
  | cons stream rest inductionHypothesis =>
    have regroup : (fun other => (seen other ∨ other = stream) ∨ other ∈ rest) =
        fun other => seen other ∨ other ∈ stream :: rest := by
      funext other
      simp [or_assoc]
    cases found : cursors stream with
    | none =>
      have still : Best reader cursors (fun other => seen other ∨ other = stream) best := by
        refine best_extend isBest (fun other tail queue => ?_)
        simp [queues, found] at queue
      obtain ⟨best', cursors', cache', done, same, valid', isBest'⟩ :=
        inductionHypothesis valid still
      exact ⟨best', cursors', cache', by simp [peekStreams, found, done], same, valid',
        regroup ▸ isBest'⟩
    | some cursor =>
      obtain ⟨item, cursor', cache₁, peeked, isHead, kept, shown, sound', agrees'⟩ :=
        StreamCursor.peek_spec (valid.sound stream cursor found) valid.agrees
      have valid₁ : Valid reader plans (Function.update cursors stream (some cursor')) cache₁ := by
        refine ⟨fun other has here => ?_, agrees'⟩
        by_cases same : other = stream
        · subst same
          simp only [Function.update_self, Option.some.injEq] at here
          exact here ▸ sound'
        · rw [Function.update_of_ne same] at here
          exact valid.sound other has here
      have unchanged : queues reader (Function.update cursors stream (some cursor')) =
          queues reader cursors := queues_update found kept
      -- the best head so far is still shown by its cursor
      have bestStays : Best reader (Function.update cursors stream (some cursor')) seen best := by
        cases best with
        | none => exact fun other before => unchanged ▸ isBest other before
        | some best =>
          obtain ⟨winner, slot⟩ := best
          obtain ⟨bestCursor, bestItem, has, bestShown, isSlot, least⟩ := isBest
          have least' := least
          rw [← unchanged] at least'
          by_cases same : winner = stream
          · subst same
            obtain rfl := Option.some.inj (found.symm.trans has)
            refine ⟨cursor', bestItem, by simp, ?_, isSlot, least'⟩
            rw [shown, isHead, remaining_head bestShown]
          · exact ⟨bestCursor, bestItem, by rw [Function.update_of_ne same, has], bestShown, isSlot,
              least'⟩
      have queueHere : queues reader (Function.update cursors stream (some cursor')) stream =
          cursor.remaining reader := by
        rw [unchanged]
        simp [queues, found]
      -- the best head among the streams before and this one
      have better : Best reader (Function.update cursors stream (some cursor'))
          (fun other => seen other ∨ other = stream) (choose stream best item) := by
        cases item with
        | none =>
          have empty : cursor.remaining reader = [] := List.head?_eq_none_iff.mp isHead.symm
          exact best_extend bestStays (fun other tail queue => by
            rw [queueHere, empty] at queue
            cases queue)
        | some item =>
          obtain ⟨tail, held⟩ := List.head?_eq_some_iff.mp isHead.symm
          have queue := queueHere.trans held
          by_cases first : precedes (item.slot, stream) best = true
          · rw [choose, if_pos first]
            exact best_first bestStays (by simp) shown queue first
          · rw [choose, if_neg first]
            cases best with
            | none => exact absurd rfl first
            | some best =>
              refine best_extend bestStays (fun other later queue' => ?_)
              rw [queue] at queue'
              obtain ⟨rfl, rfl⟩ := List.cons.inj queue'
              exact follows_of_not_precedes first
      obtain ⟨best', cursors', cache', done, same, valid', isBest'⟩ :=
        inductionHypothesis valid₁ better
      refine ⟨best', cursors', cache', ?_, same.trans unchanged, valid', regroup ▸ isBest'⟩
      rw [← done]
      simp [peekStreams, found, peeked, bind, Except.bind]

/-- What a message becomes when it is handed to the subscriber. -/
def handed (item : Peeked) : Sent := ⟨item.origin, item.slot, setFilters item.update item.names⟩

/-- A message that was taken off a cursor, as it goes to the client. -/
def toSent (item : Stream × Peeked) : Stream × Sent := (item.1, handed item.2)

/-- The state after messages have been handed over, as far as it records them. -/
structure Sends (reader : Reader) (before after : DriveState) (taken : List (Stream × Peeked)) :
    Prop where
  sent : after.sent = before.sent ++ taken.map toSent
  lastSlot : after.lastSlot = (taken.getLast?.map (fun item => item.2.slot)).or before.lastSlot
  bytes : after.bytes = before.bytes + (taken.map (fun item =>
    (reader.codecs.prostEncode (handed item.2).update).length)).sum

/-- A step that sends nothing. -/
theorem sends_none {before after : DriveState} (sent : after.sent = before.sent)
    (lastSlot : after.lastSlot = before.lastSlot) (bytes : after.bytes = before.bytes) :
    Sends reader before after [] :=
  ⟨by simp [sent], by simp [lastSlot], by simp [bytes]⟩

/-- What two parts of a replay send comes one behind the other. -/
theorem sends_trans {s t u : DriveState} {first second : List (Stream × Peeked)}
    (before : Sends reader s t first) (after : Sends reader t u second) :
    Sends reader s u (first ++ second) := by
  refine ⟨?_, ?_, ?_⟩
  · rw [after.sent, before.sent, List.map_append, List.append_assoc]
  · rw [after.lastSlot, before.lastSlot, List.getLast?_append]
    cases second.getLast? <;> simp
  · rw [after.bytes, before.bytes, List.map_append, List.sum_append, Nat.add_assoc]

/-- Handing a message over either goes on, with the message sent, or ends the replay, with
the message sent or not. -/
theorem emit_spec (now : Iteration) (winner : Stream) (item : Peeked) (s : DriveState) :
    (∃ s', emit reader now winner item s = .continues s' ∧ s'.cursors = s.cursors ∧
      s'.cache = s.cache ∧ s'.emitted = s.emitted + 1 ∧ Sends reader s s' [(winner, item)]) ∨
    (∃ exit s' taken, emit reader now winner item s = .ends exit s' ∧ exit ≠ .drained ∧
      s'.cache = s.cache ∧ taken <+: [(winner, item)] ∧ Sends reader s s' taken) := by
  rw [emit]
  cases s.pacer.target now.targetNow item.recvNs with
  | mk target pacer =>
    by_cases cancelled : now.cancelled = true
    · exact .inr ⟨.shutdown, { s with pacer }, [], by simp [cancelled], by decide, rfl,
        List.nil_prefix, sends_none rfl rfl rfl⟩
    · simp only [cancelled, Bool.false_eq_true, if_false]
      cases now.outcome with
      | timedOut =>
        exact .inr ⟨.timedOut, _, [], rfl, by decide, rfl, List.nil_prefix,
          sends_none rfl rfl rfl⟩
      | closed =>
        exact .inr ⟨.closed, _, [], rfl, by decide, rfl, List.nil_prefix,
          sends_none rfl rfl rfl⟩
      | sent =>
        simp only
        cases pacer.observeEmit now.emitNow target with
        | mk action pacer =>
          cases action with
          | drop lag =>
            exact .inr ⟨.lagDrop, _, [(winner, item)], rfl, by decide, rfl, List.prefix_rfl,
              ⟨rfl, rfl, by simp [handed]⟩⟩
          | warn lag => exact .inl ⟨_, rfl, rfl, rfl, rfl, rfl, rfl, by simp [handed]⟩
          | ok => exact .inl ⟨_, rfl, rfl, rfl, rfl, rfl, rfl, by simp [handed]⟩

/-- Peeking at all streams finds that nothing is left or what leads the merge. -/
theorem peekAll_spec {cursors : Stream → Option StreamCursor} {cache : ChunkCache}
    (valid : Valid reader plans cursors cache) :
    ∃ best cursors' cache', peekStreams reader Stream.all cursors cache none =
        .ok (best, cursors', cache') ∧ queues reader cursors' = queues reader cursors ∧
      Valid reader plans cursors' cache' ∧ Best reader cursors' (fun _ => True) best := by
  have nothing : Best reader cursors (fun _ => False) none := fun _ impossible => impossible.elim
  obtain ⟨best, cursors', cache', done, same, valid', isBest⟩ :=
    peekStreams_spec Stream.all valid nothing
  exact ⟨best, cursors', cache', done, same, valid', by simpa [Stream.mem_all] using isBest⟩

/-- The best head of the cursors, taken off its own. -/
def dequeue (reader : Reader) (cursors : Stream → Option StreamCursor) (cache : ChunkCache) :
    Except ReplayError
      (Option (Stream × Nat × Peeked) × (Stream → Option StreamCursor) × ChunkCache) := do
  let (best, cursors, cache) ← peekStreams reader Stream.all cursors cache none
  match best with
  | none => .ok (none, cursors, cache)
  | some (winner, slot) =>
      match (cursors winner).bind StreamCursor.takePeeked with
      | none => .error .panic
      | some (item, cursor) =>
          .ok (some (winner, slot, item), Function.update cursors winner (some cursor), cache)

/-- What an iteration does with the head that it took. -/
def deliver (reader : Reader) (fromSlot : Nat) (now : Iteration) (s : DriveState) :
    Option (Stream × Nat × Peeked) → Progress
  | none => .ends .drained s
  | some (winner, slot, item) =>
      if slot < fromSlot then .continues s else emit reader now winner item s

/-- An iteration takes the best head and delivers it. -/
theorem driveStep_eq (reader : Reader) (fromSlot : Nat) (now : Iteration) (s : DriveState) :
    driveStep reader fromSlot now s =
      (dequeue reader s.cursors s.cache).map (fun (taken, cursors, cache) =>
        deliver reader fromSlot now { s with cursors, cache } taken) := by
  simp only [driveStep, dequeue, bind, Except.bind]
  cases peekStreams reader Stream.all s.cursors s.cache none with
  | error error => rfl
  | ok found =>
    obtain ⟨best, cursors, cache⟩ := found
    cases best with
    | none => rfl
    | some best =>
      obtain ⟨winner, slot⟩ := best
      dsimp only
      cases (cursors winner).bind StreamCursor.takePeeked with
      | none => rfl
      | some taken =>
        simp only [Except.map, deliver]
        split <;> rfl

/-- Without messages left there is no head to take. -/
theorem dequeue_drained {cursors : Stream → Option StreamCursor} {cache : ChunkCache}
    (valid : Valid reader plans cursors cache) (empty : ∀ i, queues reader cursors i = []) :
    ∃ cursors' cache', dequeue reader cursors cache = .ok (none, cursors', cache') ∧
      cache'.Holds (ChunkAgrees reader plans) := by
  obtain ⟨best, cursors', cache', done, same, valid', isBest⟩ := peekAll_spec valid
  cases best with
  | none =>
    exact ⟨cursors', cache', by simp [dequeue, done, bind, Except.bind], valid'.agrees⟩
  | some best =>
    obtain ⟨cursor, item, has, shown, -, -⟩ := isBest
    have head : (cursor.remaining reader).head? = some item := remaining_head shown
    have nothing : queues reader cursors' best.1 = [] := by rw [same, empty]
    simp only [queues, has, Option.elim] at nothing
    rw [nothing] at head
    cases head

/-- Otherwise the head that is taken is the message that leads the merge. -/
theorem dequeue_leads {cursors : Stream → Option StreamCursor} {cache : ChunkCache}
    {winner : Stream} {item : Peeked} {rest : List Peeked}
    (valid : Valid reader plans cursors cache)
    (leads : Leads Peeked.slot (queues reader cursors) winner item rest) :
    ∃ cursors' cache', dequeue reader cursors cache =
        .ok (some (winner, item.slot, item), cursors', cache') ∧
      queues reader cursors' = Function.update (queues reader cursors) winner rest ∧
      Valid reader plans cursors' cache' := by
  obtain ⟨best, peeked, cache', done, same, valid', isBest⟩ := peekAll_spec valid
  cases best with
  | none =>
    have nothing := isBest winner trivial
    rw [same, leads.head] at nothing
    cases nothing
  | some best =>
    obtain ⟨stream, slot⟩ := best
    obtain ⟨cursor, head, has, shown, rfl, least⟩ := isBest
    obtain ⟨cursor', taken, held, sound⟩ :=
      StreamCursor.takePeeked_spec (valid'.sound stream cursor has) shown
    have queue : queues reader peeked stream = head :: cursor'.remaining reader := by
      simp [queues, has, held]
    have leads' : Leads Peeked.slot (queues reader peeked) stream head
        (cursor'.remaining reader) := ⟨queue, fun j b tail => least j trivial b tail⟩
    rw [same] at leads'
    obtain ⟨rfl, rfl, rfl⟩ := leads_unique leads leads'
    refine ⟨Function.update peeked winner (some cursor'), cache', ?_, ?_, ?_, valid'.agrees⟩
    · simp only [dequeue, done, bind, Except.bind, has, Option.bind, taken]
    · rw [← same]
      funext other
      by_cases here : other = winner
      · subst here
        simp [queues]
      · simp [queues, Function.update_of_ne here]
    · intro other cursor'' found
      by_cases here : other = winner
      · subst here
        simp only [Function.update_self, Option.some.injEq] at found
        exact found ▸ sound
      · rw [Function.update_of_ne here] at found
        exact valid'.sound other cursor'' found

/-- Without messages left an iteration ends the replay as drained. -/
theorem driveStep_drained {fromSlot : Nat} {now : Iteration} {s : DriveState}
    (valid : Valid reader plans s.cursors s.cache) (empty : ∀ i, queues reader s.cursors i = []) :
    ∃ cursors cache, driveStep reader fromSlot now s =
        .ok (.ends .drained { s with cursors, cache }) ∧
      cache.Holds (ChunkAgrees reader plans) := by
  obtain ⟨cursors, cache, taken, agrees⟩ := dequeue_drained valid empty
  exact ⟨cursors, cache, by simp [driveStep_eq, taken, Except.map, deliver], agrees⟩

/-- Otherwise it takes the message that leads the merge, and skips it below the requested
slot. -/
theorem driveStep_leads {fromSlot : Nat} {now : Iteration} {s : DriveState} {winner : Stream}
    {item : Peeked} {rest : List Peeked} (valid : Valid reader plans s.cursors s.cache)
    (leads : Leads Peeked.slot (queues reader s.cursors) winner item rest) :
    ∃ cursors cache, driveStep reader fromSlot now s =
        .ok (if item.slot < fromSlot then .continues { s with cursors, cache }
          else emit reader now winner item { s with cursors, cache }) ∧
      queues reader cursors = Function.update (queues reader s.cursors) winner rest ∧
      Valid reader plans cursors cache := by
  obtain ⟨cursors, cache, taken, queued, valid'⟩ := dequeue_leads valid leads
  exact ⟨cursors, cache, by simp [driveStep_eq, taken, Except.map, deliver], queued, valid'⟩

/-- The messages of a merge at or above a slot. -/
def fromOn (fromSlot : Nat) (out : List (Stream × Peeked)) : List (Stream × Peeked) :=
  out.filter (fun item => fromSlot ≤ item.2.slot)

/-- The loop sends a part from the front of the merge of what its cursors hold, and all
of it when it ends as drained. -/
theorem driveLoop_spec {fromSlot : Nat} {env : Nat → Iteration} {out : List (Stream × Peeked)}
    {held : Stream → List Peeked} (merged : Merged Peeked.slot held out) (fuel round : Nat)
    (enough : out.length < fuel) {s : DriveState} (valid : Valid reader plans s.cursors s.cache)
    (holds : queues reader s.cursors = held) :
    ∃ exit s' taken, driveLoop reader fromSlot env fuel round s = .ok (exit, s') ∧
      Sends reader s s' taken ∧ taken <+: fromOn fromSlot out ∧
      (exit = .drained → taken = fromOn fromSlot out ∧ s'.emitted = s.emitted + taken.length) ∧
      s'.cache.Holds (ChunkAgrees reader plans) := by
  induction merged generalizing fuel round s with
  | done queues drained =>
    obtain ⟨fuel, rfl⟩ := Nat.exists_eq_succ_of_ne_zero (Nat.ne_of_gt enough)
    obtain ⟨cursors, cache, step, agrees⟩ :=
      @driveStep_drained _ _ fromSlot (env round) _ valid (holds ▸ drained)
    exact ⟨.drained, { s with cursors, cache }, [],
      by simp only [driveLoop, step, bind, Except.bind],
      sends_none rfl rfl rfl, List.nil_prefix, fun _ => ⟨rfl, rfl⟩, agrees⟩
  | emit queues winner item rest later leads merged inductionHypothesis =>
    obtain ⟨fuel, rfl⟩ := Nat.exists_eq_succ_of_ne_zero (Nat.ne_of_gt (Nat.zero_lt_of_lt enough))
    have enough' : later.length < fuel := Nat.lt_of_succ_lt_succ enough
    obtain ⟨cursors, cache, step, left, valid'⟩ :=
      @driveStep_leads _ _ fromSlot (env round) _ _ _ _ valid (holds ▸ leads)
    rw [holds] at left
    by_cases below : item.slot < fromSlot
    · rw [if_pos below] at step
      obtain ⟨exit, s', taken, done, sends, front, drained, agrees⟩ :=
        inductionHypothesis fuel (round + 1) enough' (s := { s with cursors, cache }) valid' left
      have skipped : fromOn fromSlot ((winner, item) :: later) = fromOn fromSlot later :=
        List.filter_cons_of_neg (by simpa using below)
      rw [skipped]
      exact ⟨exit, s', taken, by simp only [driveLoop, step, bind, Except.bind, done],
        ⟨sends.sent, sends.lastSlot, sends.bytes⟩, front, drained, agrees⟩
    · rw [if_neg below] at step
      have kept : fromOn fromSlot ((winner, item) :: later) =
          (winner, item) :: fromOn fromSlot later :=
        List.filter_cons_of_pos (by simpa using below)
      rw [kept]
      rcases @emit_spec reader (env round) winner item { s with cursors, cache } with
        ⟨s₁, emitted, sameCursors, sameCache, counted, sends₁⟩ |
        ⟨exit, s₁, taken, ended, notDrained, sameCache, front, sends₁⟩
      · rw [emitted] at step
        obtain ⟨exit, s', taken, done, sends, front, drained, agrees⟩ :=
          inductionHypothesis fuel (round + 1) enough' (s := s₁)
            (by rw [sameCursors, sameCache]; exact valid') (by rw [sameCursors]; exact left)
        have sends' := sends_trans sends₁ sends
        refine ⟨exit, s', (winner, item) :: taken,
          by simp only [driveLoop, step, bind, Except.bind, done],
          ⟨sends'.sent, sends'.lastSlot, sends'.bytes⟩,
          List.cons_prefix_cons.mpr ⟨rfl, front⟩, fun isDrained => ?_, agrees⟩
        obtain ⟨all, count⟩ := drained isDrained
        refine ⟨by rw [all], ?_⟩
        rw [count, counted, List.length_cons]
        dsimp only
        omega
      · rw [ended] at step
        exact ⟨exit, s₁, taken, by simp only [driveLoop, step, bind, Except.bind],
          ⟨sends₁.sent, sends₁.lastSlot, sends₁.bytes⟩,
          front.trans (List.cons_prefix_cons.mpr ⟨rfl, List.nil_prefix⟩),
          fun isDrained => absurd isDrained notDrained, by rw [sameCache]; exact valid'.agrees⟩

/-- The chunk plans of a replay. -/
def Has (plan : ReplayPlan) (chunkPlan : ChunkPlan) : Prop :=
  ∃ stream, chunkPlan ∈ plan.plansPerStream stream

/-- What each stream of a plan offers to the merge. -/
def offered (reader : Reader) (plan : ReplayPlan) (stream : Stream) : List Peeked :=
  streamItems reader (plan.plansPerStream stream)

/-- A chunk has no more messages than were planned of it. -/
theorem planItems_length (plan : ChunkPlan) : (planItems reader plan).length ≤ plan.union.card := by
  rw [planItems]
  split
  · exact (List.length_filterMap_le _ _).trans (ordinals_length plan.union).le
  · exact Nat.zero_le _

/-- Nor has a stream. -/
theorem streamItems_length (chunkPlans : List ChunkPlan) :
    (streamItems reader chunkPlans).length ≤ planned chunkPlans := by
  induction chunkPlans with
  | nil => exact Nat.le_refl 0
  | cons chunkPlan rest inductionHypothesis =>
    have first : (planItems reader chunkPlan).length ≤ chunkPlan.union.card := planItems_length chunkPlan
    simp only [streamItems, planned, List.flatMap_cons, List.length_append, List.map_cons,
      List.sum_cons] at inductionHypothesis ⊢
    omega

/-- The number of messages that the cursors have still to give, if all of them decode. -/
def left (cursors : Stream → Option StreamCursor) : Nat :=
  ∑ stream, (cursors stream).elim 0 StreamCursor.left

/-- Replacing a cursor by one with as many messages leaves as many. -/
theorem left_update {cursors : Stream → Option StreamCursor} {stream : Stream}
    {cursor cursor' : StreamCursor} (found : cursors stream = some cursor) :
    left (Function.update cursors stream (some cursor')) + cursor.left =
      left cursors + cursor'.left := by
  rw [left, left, ← Finset.add_sum_erase _ _ (Finset.mem_univ stream),
    ← Finset.add_sum_erase Finset.univ (fun other => (cursors other).elim 0 StreamCursor.left)
      (Finset.mem_univ stream)]
  have others : ∑ other ∈ Finset.univ.erase stream,
      (Function.update cursors stream (some cursor') other).elim 0 StreamCursor.left =
        ∑ other ∈ Finset.univ.erase stream, (cursors other).elim 0 StreamCursor.left := by
    refine Finset.sum_congr rfl (fun other member => ?_)
    rw [Function.update_of_ne (Finset.ne_of_mem_erase member)]
  rw [others, Function.update_self, found, Option.elim_some, Option.elim_some]
  omega

/-- Peeking leaves the messages where they are. -/
theorem peekStreams_left (todo : List Stream) {cursors cursors' : Stream → Option StreamCursor}
    {cache cache' : ChunkCache} {best best' : Option (Stream × Nat)}
    (done : peekStreams reader todo cursors cache best = .ok (best', cursors', cache')) :
    left cursors' = left cursors := by
  induction todo generalizing cursors cache best with
  | nil =>
    cases done
    rfl
  | cons stream rest inductionHypothesis =>
    rw [peekStreams] at done
    split at done
    · exact inductionHypothesis done
    · next cursor found =>
      simp only [bind, Except.bind] at done
      split at done
      · cases done
      · next made peeked =>
        obtain ⟨item, cursor', cache₁⟩ := made
        have same : cursor'.left = cursor.left := StreamCursor.peek_left peeked
        have updated := @left_update _ _ _ cursor' found
        dsimp only at done
        rw [inductionHypothesis done]
        omega

/-- Taking a head leaves one message less. -/
theorem dequeue_left {cursors cursors' : Stream → Option StreamCursor} {cache cache' : ChunkCache}
    {head : Stream × Nat × Peeked}
    (taken : dequeue reader cursors cache = .ok (some head, cursors', cache')) :
    left cursors' + 1 = left cursors := by
  simp only [dequeue, bind, Except.bind] at taken
  split at taken
  · cases taken
  · next found peeked =>
    split at taken
    · cases taken
    · next winner slot chosen =>
      split at taken
      · cases taken
      · next item cursor shown =>
        cases taken
        obtain ⟨whole, has, removed⟩ := Option.bind_eq_some_iff.mp shown
        have less := StreamCursor.takePeeked_left removed
        have updated := @left_update _ _ _ cursor has
        have same := peekStreams_left Stream.all peeked
        omega

/-- Peeking at the streams does not fail by running out of steps. -/
theorem peekStreams_fails (todo : List Stream) {cursors : Stream → Option StreamCursor}
    {cache : ChunkCache} {best : Option (Stream × Nat)} {error : ReplayError}
    (failed : peekStreams reader todo cursors cache best = .error error) :
    error ≠ .unfinished := by
  induction todo generalizing cursors cache best with
  | nil => cases failed
  | cons stream rest inductionHypothesis =>
    rw [peekStreams] at failed
    split at failed
    · exact inductionHypothesis failed
    · simp only [bind, Except.bind] at failed
      split at failed
      · next peeked =>
        cases failed
        exact StreamCursor.peek_fails peeked
      · exact inductionHypothesis failed

/-- Nor does taking the best head. -/
theorem dequeue_fails {cursors : Stream → Option StreamCursor} {cache : ChunkCache}
    {error : ReplayError} (failed : dequeue reader cursors cache = .error error) :
    error ≠ .unfinished := by
  simp only [dequeue, bind, Except.bind] at failed
  split at failed
  · next peeked =>
    cases failed
    exact peekStreams_fails Stream.all peeked
  · split at failed
    · cases failed
    · split at failed
      · cases failed
        simp
      · cases failed

/-- A loop with more iterations than messages ends. -/
theorem driveLoop_finishes {fromSlot : Nat} {env : Nat → Iteration} (fuel : Nat) :
    ∀ {round : Nat} {s : DriveState}, left s.cursors < fuel →
      driveLoop reader fromSlot env fuel round s ≠ .error .unfinished := by
  induction fuel with
  | zero => exact fun impossible => absurd impossible (Nat.not_lt_zero _)
  | succ fuel inductionHypothesis =>
    intro round s enough unfinished
    simp only [driveLoop, driveStep_eq, bind, Except.bind] at unfinished
    cases taken : dequeue reader s.cursors s.cache with
    | error error =>
      rw [taken] at unfinished
      exact dequeue_fails taken (Except.error.inj unfinished)
    | ok found =>
      obtain ⟨head, cursors, cache⟩ := found
      rw [taken] at unfinished
      cases head with
      | none => simp [Except.map, deliver] at unfinished
      | some head =>
        have less := dequeue_left taken
        have enough' : left cursors < fuel := by omega
        obtain ⟨winner, slot, item⟩ := head
        simp only [Except.map, deliver] at unfinished
        by_cases below : slot < fromSlot
        · simp only [below, if_true] at unfinished
          exact @inductionHypothesis _ { s with cursors, cache } enough' unfinished
        · simp only [below, if_false] at unfinished
          rcases @emit_spec reader (env round) winner item { s with cursors, cache } with
            ⟨s₁, emitted, sameCursors, -⟩ | ⟨exit, s₁, taken, ended, -⟩
          · rw [emitted] at unfinished
            exact inductionHypothesis (by rw [sameCursors]; exact enough') unfinished
          · rw [ended] at unfinished
            cases unfinished

/-- The cursors of a replay before its first iteration. -/
def opening (plan : ReplayPlan) (stream : Stream) : Option StreamCursor :=
  if plan.plansPerStream stream = [] then none
  else some (StreamCursor.new (plan.plansPerStream stream))

/-- The state of a replay before its first iteration. -/
def begun (plan : ReplayPlan) (cache : ChunkCache) (pacer : Pacer) : DriveState :=
  { cursors := opening plan, cache, pacer, emitted := 0, bytes := 0, lastSlot := none, lagMax := 0
    sent := [] }

/-- The number of iterations that a plan takes at most. -/
def bound (plan : ReplayPlan) : Nat :=
  (Stream.all.map (fun stream => planned (plan.plansPerStream stream))).sum + 1

/-- A replay is its loop, from its opening state on. -/
theorem driveReplay_eq (reader : Reader) (env : Nat → Iteration) (plan : ReplayPlan)
    (cache : ChunkCache) (pacer : Pacer) :
    driveReplay reader env plan cache pacer =
      (driveLoop reader plan.fromSlot env (bound plan) 0 (begun plan cache pacer)).map
        (fun (exit, s) =>
          { stats :=
              { sent := s.emitted
                bytes := s.bytes
                lagMax := s.lagMax
                lastSlot := s.lastSlot
                drained := exit = .drained }
            exit
            sent := s.sent
            pacer := s.pacer
            cache := s.cache }) := by
  simp only [driveReplay, bind, Except.bind, Except.map]
  rfl

/-- The bound of the loop is above what the cursors have to give at first. -/
theorem left_opening (plan : ReplayPlan) : left (opening plan) < bound plan := by
  have total : ∑ stream : Stream, planned (plan.plansPerStream stream) =
      (Stream.all.map (fun stream => planned (plan.plansPerStream stream))).sum := rfl
  rw [bound, ← total]
  refine Nat.lt_succ_of_le (Finset.sum_le_sum (fun stream _ => ?_))
  by_cases empty : plan.plansPerStream stream = []
  · simp [opening, empty]
  · simp [opening, empty, StreamCursor.left, StreamCursor.new]

/-- Every replay ends, whether its chunks decode or not. -/
theorem driveReplay_finishes (reader : Reader) (env : Nat → Iteration) (plan : ReplayPlan)
    (cache : ChunkCache) (pacer : Pacer) :
    driveReplay reader env plan cache pacer ≠ .error .unfinished := by
  rw [driveReplay_eq]
  cases ended : driveLoop reader plan.fromSlot env (bound plan) 0 (begun plan cache pacer) with
  | error error =>
    rintro same
    cases same
    exact driveLoop_finishes (bound plan) (s := begun plan cache pacer) (left_opening plan) ended
  | ok found => simp [Except.map]

/-- The bound of the loop is above the number of messages that a plan offers. -/
theorem offered_length {plan : ReplayPlan} {out : List (Stream × Peeked)}
    (merged : Merged Peeked.slot (offered reader plan) out) :
    out.length < bound plan := by
  have each : ∀ stream, (offered reader plan stream).length ≤
      planned (plan.plansPerStream stream) := fun stream => streamItems_length _
  have total : ∑ stream : Stream, planned (plan.plansPerStream stream) =
      (Stream.all.map (fun stream => planned (plan.plansPerStream stream))).sum := rfl
  rw [bound, merged_length merged, ← total]
  exact Nat.lt_succ_of_le (Finset.sum_le_sum (fun stream _ => each stream))

/-- A replay has sent the messages taken from the merge of what its plan offers, all of
those at or above the requested slot when it ends as drained. -/
structure Delivers (reader : Reader) (plan : ReplayPlan) (outcome : Outcome)
    (out taken : List (Stream × Peeked)) : Prop where
  merged : Merged Peeked.slot (offered reader plan) out
  sent : outcome.sent = taken.map toSent
  front : taken <+: fromOn plan.fromSlot out
  whole : outcome.exit = .drained → taken = fromOn plan.fromSlot out
  drained : outcome.stats.drained = true ↔ outcome.exit = .drained
  lastSlot : outcome.stats.lastSlot = taken.getLast?.map (fun item => item.2.slot)
  counted : outcome.exit = .drained → outcome.stats.sent = taken.length
  bytes : outcome.stats.bytes =
    (taken.map (fun item => (reader.codecs.prostEncode (handed item.2).update).length)).sum

/-- Before its first iteration a replay over decodable chunks holds what its plan offers. -/
theorem opening_valid {plans : ChunkPlan → Prop} {plan : ReplayPlan}
    (oneFile : OneFile reader plans) (among : ∀ chunkPlan, Has plan chunkPlan → plans chunkPlan)
    (decodable : ∀ chunkPlan, Has plan chunkPlan → chunkPlan.union ≠ ∅ →
      ∃ chunk, Decodes reader chunkPlan chunk)
    {cache : ChunkCache} (agrees : cache.Holds (ChunkAgrees reader plans)) :
    queues reader (opening plan) = offered reader plan ∧
      Valid reader plans (opening plan) cache := by
  constructor
  · funext stream
    by_cases empty : plan.plansPerStream stream = []
    · simp [queues, opening, empty, offered, streamItems]
    · simp [queues, opening, empty, offered, StreamCursor.remaining_new]
  · refine ⟨fun stream cursor has => ?_, agrees⟩
    by_cases empty : plan.plansPerStream stream = []
    · simp [opening, empty] at has
    · simp only [opening, if_neg empty, Option.some.injEq] at has
      rw [← has]
      exact StreamCursor.sound_new oneFile (fun chunkPlan member => among _ ⟨stream, member⟩)
        (fun chunkPlan member => decodable _ ⟨stream, member⟩)

/-- A replay over decodable chunks ends, and delivers. -/
theorem driveReplay_delivers {plan : ReplayPlan} (oneFile : OneFile reader plans)
    (among : ∀ chunkPlan, Has plan chunkPlan → plans chunkPlan)
    (decodable : ∀ chunkPlan, Has plan chunkPlan → chunkPlan.union ≠ ∅ →
      ∃ chunk, Decodes reader chunkPlan chunk)
    {cache : ChunkCache} (agrees : cache.Holds (ChunkAgrees reader plans))
    (env : Nat → Iteration) (pacer : Pacer) {out : List (Stream × Peeked)}
    (merged : Merged Peeked.slot (offered reader plan) out) :
    ∃ outcome taken, driveReplay reader env plan cache pacer = .ok outcome ∧
      Delivers reader plan outcome out taken ∧
      outcome.cache.Holds (ChunkAgrees reader plans) := by
  obtain ⟨holds, valid⟩ := opening_valid oneFile among decodable agrees
  obtain ⟨exit, s, taken, done, sends, front, whole, agrees'⟩ :=
    @driveLoop_spec _ _ plan.fromSlot env _ _ merged _ 0 (offered_length merged)
      (begun plan cache pacer) valid holds
  refine ⟨_, taken, by rw [driveReplay_eq, done]; rfl,
    ⟨merged, ?_, front, fun isDrained => (whole isDrained).1, by simp, ?_, ?_, ?_⟩, agrees'⟩
  · simp [sends.sent, begun]
  · simp [sends.lastSlot, begun]
  · intro isDrained
    simp [(whole isDrained).2, begun]
  · simp [sends.bytes, begun]

/-- The messages that a stream of a plan is to be sent, in order. -/
def wanted (reader : Reader) (plan : ReplayPlan) (stream : Stream) : List Sent :=
  ((offered reader plan stream).filter (fun item => plan.fromSlot ≤ item.slot)).map handed

/-- The part of a merge from a slot on, stream by stream. -/
theorem fromOn_restrict {queues : Stream → List Peeked} {out : List (Stream × Peeked)}
    (merged : Merged Peeked.slot queues out) (fromSlot : Nat) (stream : Stream) :
    ((fromOn fromSlot out).filter (fun item => item.1 = stream)).map Prod.snd =
      (queues stream).filter (fun item => fromSlot ≤ item.slot) :=
  merged_restrict (merged_filter fromSlot merged) stream

/-- The messages of a stream among those sent are those taken off its cursor. -/
theorem toSent_restrict (items : List (Stream × Peeked)) (stream : Stream) :
    ((items.map toSent).filter (fun item => item.1 = stream)).map Prod.snd =
      ((items.filter (fun item => item.1 = stream)).map Prod.snd).map handed := by
  rw [List.filter_map, List.map_map, List.map_map]
  rfl

/-- What ends a replay before it is drained: the shutdown signal, a channel that does not take
the message, or a message that is sent as long after its target as the limit says. -/
inductive Cut (pacer : Pacer) (now : Iteration) : Exit → Prop where
  | shutdown (cancelled : now.cancelled = true) : Cut pacer now .shutdown
  | timedOut (goesOn : now.cancelled = false) (refused : now.outcome = .timedOut) :
      Cut pacer now .timedOut
  | closed (goesOn : now.cancelled = false) (refused : now.outcome = .closed) :
      Cut pacer now .closed
  | lagDrop (goesOn : now.cancelled = false) (accepted : now.outcome = .sent)
      (paces : pacer.enabled = true) {current : Pacer} (same : pacer.SameLimits current)
      {recvNs : Option Nat} (behind : (current.target now.targetNow recvNs).1 < now.emitNow)
      (late : (current.target now.targetNow recvNs).1 + pacer.lagDrop ≤ now.emitNow) :
      Cut pacer now .lagDrop

/-- Handing a message over keeps the limits, and ends the replay for what happens around it. -/
theorem emit_cut {pacer : Pacer} {now : Iteration} {winner : Stream} {item : Peeked}
    {s : DriveState} (same : pacer.SameLimits s.pacer) :
    (∀ s', emit reader now winner item s = .continues s' → pacer.SameLimits s'.pacer) ∧
      ∀ exit s', emit reader now winner item s = .ends exit s' → Cut pacer now exit := by
  have aimed := s.pacer.target_limits now.targetNow item.recvNs
  rw [emit]
  rcases isTarget : s.pacer.target now.targetNow item.recvNs with ⟨target, paced⟩
  have isDue : target = (s.pacer.target now.targetNow item.recvNs).1 := by rw [isTarget]
  rw [isTarget] at aimed
  by_cases cancelled : now.cancelled = true
  · simp only [if_pos cancelled]
    refine ⟨fun s' impossible => (by cases impossible), fun exit s' ended => ?_⟩
    cases ended
    exact .shutdown cancelled
  · have goesOn : now.cancelled = false := Bool.eq_false_of_not_eq_true cancelled
    simp only [if_neg cancelled]
    cases taken : now.outcome with
    | timedOut =>
      refine ⟨fun s' impossible => (by cases impossible), fun exit s' ended => ?_⟩
      cases ended
      exact .timedOut goesOn taken
    | closed =>
      refine ⟨fun s' impossible => (by cases impossible), fun exit s' ended => ?_⟩
      cases ended
      exact .closed goesOn taken
    | sent =>
      obtain ⟨judged, drops⟩ := paced.observeEmit_limits now.emitNow target
      have limits := same.trans (aimed.trans judged)
      rcases decided : paced.observeEmit now.emitNow target with ⟨action, after⟩
      rw [decided] at limits drops
      cases action with
      | drop lag =>
        refine ⟨fun s' impossible => (by cases impossible), fun exit s' ended => ?_⟩
        cases ended
        obtain ⟨paces, behind, late⟩ := drops lag rfl
        have sameDrop := (same.trans aimed).lagDrop
        exact .lagDrop goesOn taken ((same.trans aimed).enabled ▸ paces) same (isDue ▸ behind)
          (isDue ▸ sameDrop ▸ late)
      | warn lag =>
        refine ⟨fun s' goes => ?_, fun exit s' impossible => by cases impossible⟩
        cases goes
        exact limits
      | ok =>
        refine ⟨fun s' goes => ?_, fun exit s' impossible => by cases impossible⟩
        cases goes
        exact limits

/-- A loop that is not drained is cut off by what happens around one of its iterations. -/
theorem driveLoop_cut {pacer : Pacer} {fromSlot : Nat} {env : Nat → Iteration} (fuel : Nat)
    {round : Nat} {s s' : DriveState} {exit : Exit} (same : pacer.SameLimits s.pacer)
    (ended : driveLoop reader fromSlot env fuel round s = .ok (exit, s')) :
    exit = .drained ∨ ∃ n, round ≤ n ∧ n < round + fuel ∧ Cut pacer (env n) exit := by
  induction fuel generalizing round s with
  | zero => cases ended
  | succ fuel inductionHypothesis =>
    have later : ∀ s₁ : DriveState, pacer.SameLimits s₁.pacer →
        driveLoop reader fromSlot env fuel (round + 1) s₁ = .ok (exit, s') →
        exit = .drained ∨
          ∃ n, round ≤ n ∧ n < round + (fuel + 1) ∧ Cut pacer (env n) exit := by
      intro s₁ same₁ ended₁
      refine (inductionHypothesis same₁ ended₁).imp_right ?_
      rintro ⟨n, after, before, cut⟩
      exact ⟨n, by omega, by omega, cut⟩
    simp only [driveLoop, driveStep_eq, bind, Except.bind] at ended
    cases taken : dequeue reader s.cursors s.cache with
    | error error => simp [taken, Except.map] at ended
    | ok found =>
      obtain ⟨head, cursors, cache⟩ := found
      rw [taken] at ended
      cases head with
      | none =>
        cases ended
        exact .inl rfl
      | some head =>
        obtain ⟨winner, slot, item⟩ := head
        simp only [Except.map, deliver] at ended
        by_cases below : slot < fromSlot
        · simp only [below, if_true] at ended
          exact later { s with cursors, cache } same ended
        · simp only [below, if_false] at ended
          obtain ⟨keeps, cuts⟩ := @emit_cut reader pacer (env round) winner item
            { s with cursors, cache } same
          cases handed : emit reader (env round) winner item { s with cursors, cache } with
          | continues s₁ =>
            rw [handed] at ended
            exact later s₁ (keeps s₁ handed) ended
          | ends why s₁ =>
            rw [handed] at ended
            cases ended
            exact .inr ⟨round, Nat.le_refl _, by omega, cuts _ _ handed⟩

/-- A replay that is not drained is cut off by what happens around one of its iterations. -/
theorem driveReplay_cut {env : Nat → Iteration} {plan : ReplayPlan} {cache : ChunkCache}
    {pacer : Pacer} {outcome : Outcome}
    (done : driveReplay reader env plan cache pacer = .ok outcome) :
    outcome.exit = .drained ∨ ∃ n < bound plan, Cut pacer (env n) outcome.exit := by
  rw [driveReplay_eq] at done
  cases ended : driveLoop reader plan.fromSlot env (bound plan) 0 (begun plan cache pacer) with
  | error error => simp [ended, Except.map] at done
  | ok found =>
    obtain ⟨exit, s⟩ := found
    rw [ended] at done
    obtain rfl := Except.ok.inj done
    refine (driveLoop_cut (bound plan) (s := begun plan cache pacer) ⟨rfl, rfl, rfl⟩
      ended).imp_right ?_
    rintro ⟨n, -, before, cut⟩
    exact ⟨n, by omega, cut⟩

/-- A replay whose chunks decode is a merge of its streams: there is one sequence, made up
of every stream's messages from the requested slot on and sorted when the streams are,
that every drained replay has sent and of which every other one has sent a part from the
front. Only what happens around one of its iterations keeps a replay from being drained. -/
theorem driveReplay_merges (reader : Reader) (plan : ReplayPlan)
    (oneFile : OneFile reader (Has plan))
    (decodable : ∀ chunkPlan, Has plan chunkPlan → chunkPlan.union ≠ ∅ →
      ∃ chunk, Decodes reader chunkPlan chunk) :
    ∃ whole : List (Stream × Sent),
      (∀ stream, (whole.filter (fun item => item.1 = stream)).map Prod.snd =
        wanted reader plan stream) ∧
      (∀ item ∈ whole, plan.fromSlot ≤ item.2.slot) ∧
      ((∀ stream, (offered reader plan stream).Pairwise (fun a b => a.slot ≤ b.slot)) →
        whole.Pairwise (fun a b => a.2.slot < b.2.slot ∨
          (a.2.slot = b.2.slot ∧ a.1 ≤ b.1))) ∧
      ∀ (env : Nat → Iteration) (pacer : Pacer) (cache : ChunkCache),
        cache.Holds (ChunkAgrees reader (Has plan)) →
        ∃ outcome, driveReplay reader env plan cache pacer = .ok outcome ∧
          outcome.sent <+: whole ∧
          (outcome.stats.drained = true → outcome.sent = whole) ∧
          (outcome.stats.drained = true ↔ outcome.exit = .drained) ∧
          (outcome.exit = .drained ∨ ∃ n < bound plan, Cut pacer (env n) outcome.exit) := by
  obtain ⟨out, merged⟩ := exists_merged Peeked.slot (offered reader plan)
  refine ⟨(fromOn plan.fromSlot out).map toSent, fun stream => ?_, ?_, fun sorted => ?_,
    fun env pacer cache agrees => ?_⟩
  · rw [toSent_restrict, fromOn_restrict merged, wanted]
  · intro item member
    obtain ⟨peeked, kept, rfl⟩ := List.mem_map.mp member
    exact of_decide_eq_true (List.mem_filter.mp kept).2
  · have ordered := (merged_sorted merged sorted).filter (fun item => plan.fromSlot ≤ item.2.slot)
    exact List.pairwise_map.mpr ordered
  · obtain ⟨outcome, taken, done, delivers, -⟩ :=
      driveReplay_delivers oneFile (fun _ has => has) decodable agrees env pacer merged
    refine ⟨outcome, done, ?_, fun isDrained => ?_, delivers.drained, driveReplay_cut done⟩
    · rw [delivers.sent]
      exact delivers.front.map toSent
    · rw [delivers.sent, delivers.whole (delivers.drained.mp isDrained)]

/-- An update of a kind, without anything else in it. -/
def bare (kind : UpdateOneof) : SubscribeUpdate :=
  { filters := [], createdAt := none, updateOneof := some kind, unread := [] }

/-- A transaction without content. -/
def bareTx (slot : Nat) : SubscribeUpdate := bare (.transaction { slot, transaction := none })

/-- An account update without content. -/
def bareAcct (slot : Nat) : SubscribeUpdate := bare (.account { slot, account := none })

/-- The metadata of a block, with the slot before it as its parent. -/
def bareBlock (slot : Nat) : SubscribeUpdate := bare (.blockMeta { slot, parentSlot := slot - 1 })

/-- A reader of a transaction chunk with slots 12, 9 and 10 and a block chunk with slot 12. -/
def twoStreams : Reader where
  codecs := PlainCodecs.plain
  files
    | .tx => AList.singleton ['t'] (Chunk.framed
        ([bareTx 12, bareTx 9, bareTx 10].map PlainCodecs.plain.prostEncode))
    | .acct => ∅
    | .block => AList.singleton ['b'] (Chunk.framed
        ([bareBlock 12].map PlainCodecs.plain.prostEncode))
  indexBudgetBytes := 0
  chunkBudgetBytes := 1000
  indexHeapBytes _ := 0

/-- A plan over these two chunks from slot 10 on, in which one filter takes the slots 12
and 9 of the transactions and another one slot 12 and the block. -/
def twoStreamsPlan : ReplayPlan :=
  let entry (stream : Stream) (path : List Char) (count : Nat) : ChunkEntry :=
    { stream, startSlot := 0, endSlotExclusive := 20, zstPath := path, idxPath := []
      «meta» :=
        { schemaVersion := 1, stream := stream.asStr, startSlot := 0, endSlotExclusive := 20
          firstMessageSlot := none, lastMessageSlot := none, messageCount := count
          uncompressedBytes := 0, compressedBytes := 0, recvNsFirst := none, recvNsLast := none
          sealedReason := "shutdown", indexDimensions := [] } }
  { fromSlot := 10
    toSlotExclusive := 20
    plansPerStream
      | .tx => [
        { stream := .tx, entry := entry .tx ['t'] 3, namedBitmaps := [("a", {0, 1}), ("b", {0})]
          union := {0, 1}, chunkRecvNsFirst := none }]
      | .acct => []
      | .block => [
        { stream := .block, entry := entry .block ['b'] 1, namedBitmaps := [("b", {0})]
          union := {0}, chunkRecvNsFirst := none }] }

/-- Whatever the clock and the subscriber do, the replay sends a part of the transaction and
the block of slot 12, each under the names of its filters, and nothing from below slot 10. With
a subscriber that takes everything and without pacing it sends both. -/
theorem driveReplay_merges_twoStreams :
    ∃ whole : List (Stream × Sent),
      (whole.filter (fun item => item.1 = .tx)).map Prod.snd =
        [⟨⟨.tx, 0, 0⟩, 12, setFilters (bareTx 12) ["a", "b"]⟩] ∧
      (whole.filter (fun item => item.1 = .block)).map Prod.snd =
        [⟨⟨.block, 0, 0⟩, 12, setFilters (bareBlock 12) ["b"]⟩] ∧
      ∀ (env : Nat → Iteration) (pacer : Pacer),
        ∃ outcome, driveReplay twoStreams env twoStreamsPlan Lru.Cache.new pacer = .ok outcome ∧
          outcome.sent <+: whole ∧ (outcome.stats.drained = true → outcome.sent = whole) ∧
          (pacer.enabled = false → (∀ n, (env n).cancelled = false) →
            (∀ n, (env n).outcome = .sent) → outcome.sent = whole) := by
  have oneFile : OneFile twoStreams (Has twoStreamsPlan) := by
    rintro plan other ⟨stream, has⟩ ⟨stream', has'⟩ same -
    cases stream <;> cases stream' <;> simp [twoStreamsPlan] at has has' <;>
      subst has <;> subst has' <;> first | rfl | cases same
  have decodable : ∀ chunkPlan, Has twoStreamsPlan chunkPlan → chunkPlan.union ≠ ∅ →
      ∃ chunk, Decodes twoStreams chunkPlan chunk := by
    rintro plan ⟨stream, has⟩ -
    cases stream with
    | acct => cases has
    | tx =>
      obtain rfl := List.mem_singleton.mp has
      obtain ⟨chunk, decoded, messages⟩ := decodeChunk_updates PlainCodecs.plain_roundTrip.zstd
        PlainCodecs.plain_roundTrip.prost [bareTx 12, bareTx 9, bareTx 10] (by decide +kernel)
      refine ⟨chunk, decoded, fun ord member => ?_⟩
      rcases Finset.mem_insert.mp member with rfl | one
      · exact ⟨_, messages 0 _ rfl⟩
      · obtain rfl := Finset.mem_singleton.mp one
        exact ⟨_, messages 1 _ rfl⟩
    | block =>
      obtain rfl := List.mem_singleton.mp has
      obtain ⟨chunk, decoded, messages⟩ := decodeChunk_updates PlainCodecs.plain_roundTrip.zstd
        PlainCodecs.plain_roundTrip.prost [bareBlock 12] (by decide +kernel)
      refine ⟨chunk, decoded, fun ord member => ?_⟩
      obtain rfl := Finset.mem_singleton.mp member
      exact ⟨_, messages 0 _ rfl⟩
  obtain ⟨whole, restricted, -, -, runs⟩ :=
    driveReplay_merges twoStreams twoStreamsPlan oneFile decodable
  refine ⟨whole, (restricted .tx).trans (by decide +kernel),
    (restricted .block).trans (by decide +kernel), fun env pacer => ?_⟩
  obtain ⟨outcome, done, front, drained, isDrained, ends⟩ :=
    runs env pacer Lru.Cache.new Lru.holds_new
  refine ⟨outcome, done, front, drained, fun unpaced goesOn accepts => ?_⟩
  apply drained (isDrained.mpr _)
  rcases ends with atEnd | ⟨n, -, cut⟩
  · exact atEnd
  · -- none of the ways to be cut off is there
    generalize outcome.exit = exit at cut ⊢
    cases cut with
    | shutdown cancelled => simp [goesOn n] at cancelled
    | timedOut _ refused => simp [accepts n] at refused
    | closed _ refused => simp [accepts n] at refused
    | lagDrop _ _ paces => simp [unpaced] at paces

end Replay

end Sillage
