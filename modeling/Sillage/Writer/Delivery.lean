import Sillage.Common.PlainCodecs
import Sillage.Writer.Lane
import Sillage.Writer.Tolerance

/-!
# What a lane delivers

Whatever the order in which the two tasks of a lane take turns, and however small the
channel between them is, the chunker is called as if it stood right behind the geyser
stream: it gets every message with a slot, once and in order. A lane that ends without an
error has handed over all that the stream yielded, and every chunk is sealed. Once the
stream has ended or the shutdown has been signalled, a lane comes to its end.
-/

namespace Sillage.Lane

open Directory Chunker Behaviour

variable {k : Codecs} {stream : Stream} {cfg : WriterConfig} {dir : Dir} {channelCapacity : Nat}
  {fromSlot : Option Nat}

/-- What the consumer has done with the messages it took. -/
def Consumes (k : Codecs) (stream : Stream) (cfg : WriterConfig) (dir : Dir) (books : List Event)
    (consumer : Consumer) : Prop :=
  let ran (s : Chunker) := run k (new stream cfg dir) (told Event.call books) = .ok s
  match consumer with
  | .receiving held => ran held.chunker ∧ handed (told Event.call books) = slotted (told Event.taken books) ∧
      held.count = (arrivals (told Event.call books)).length ∧
      (held.firstSlotSeen = true ↔ slotted (told Event.taken books) ≠ [])
  | .drained chunker count => handed (told Event.call books) = slotted (told Event.taken books) ∧
      count = (arrivals (told Event.call books)).length ∧
      ∃ s, ran s ∧ Chunker.shutdown k s = .ok chunker
  | .failed _ => handed (told Event.call books) <+: slotted (told Event.taken books)

/-- What the state of the forwarder tells about the consumer. -/
def Follows (t : Tasks) : Prop :=
  match t.forwarder with
  | .finished total => ∃ chunker, t.consumer = .drained chunker total
  | .failed .channelClosed => ∃ error, t.consumer = .failed error
  | .failed (.consumer error) => t.consumer = .failed error
  | _ => True

/-- What holds of a lane behind every step. -/
structure Sound (k : Codecs) (stream : Stream) (cfg : WriterConfig) (dir : Dir)
    (channelCapacity : Nat) (fromSlot : Option Nat) (books : List Event) (t : Tasks) : Prop where
  carried : t.forwarder ≠ .failed .channelClosed →
    told Event.arrival books = told Event.taken books ++ t.channel.queue ++ t.forwarder.hand
  lost : t.forwarder = .failed .channelClosed →
    ∃ stamped, told Event.arrival books = told Event.taken books ++ t.channel.queue ++ [stamped]
  consumes : Consumes k stream cfg dir books t.consumer
  follows : Follows t
  reported : told Event.report books =
    ((slotted (told Event.taken books)).head?.map (fun first => logFirstSlot fromSlot first.2)).toList
  capacity : t.channel.capacity = channelCapacity
  hasSender : t.channel.hasSender = true ↔ t.forwarder.Looping
  hasReceiver : t.channel.hasReceiver = true ↔ ∃ held, t.consumer = .receiving held
  emptied : ∀ chunker count, t.consumer = .drained chunker count →
    t.channel.queue = [] ∧ ¬ t.forwarder.Looping

/-- Nothing has happened to a lane behind its setup. -/
theorem Sound.start {t : Tasks} (started : Lane.start stream cfg dir channelCapacity = some t) :
    Sound k stream cfg dir channelCapacity fromSlot [] t := by
  unfold Lane.start at started
  split at started
  · cases started
  · obtain rfl := Option.some.inj started
    exact
      { carried := fun _ => rfl
        lost := fun failed => by cases failed
        consumes := ⟨rfl, rfl, rfl, by simp [slotted]⟩
        follows := trivial
        reported := rfl
        capacity := rfl
        hasSender := by simp [Forwarder.Looping]
        hasReceiver := by simp
        emptied := fun _ _ drained => by cases drained }

/-- A forwarder that has not moved is followed by a consumer that receives. -/
theorem Follows.of_receiving {t t' : Tasks} {held : Counter} (follows : Follows t)
    (receiving : t.consumer = .receiving held) (same : t'.forwarder = t.forwarder) : Follows t' := by
  unfold Follows at follows ⊢
  rw [same]
  split at follows
  · obtain ⟨chunker, drained⟩ := follows
    rw [receiving] at drained
    cases drained
  · obtain ⟨error, failed⟩ := follows
    rw [receiving] at failed
    cases failed
  · rw [receiving] at follows
    cases follows
  · trivial

/-- Only in its loop does the forwarder hold a message. -/
theorem Forwarder.hand_of_out {forwarder : Forwarder} (out : ¬ forwarder.Looping) :
    forwarder.hand = [] := by
  cases forwarder with
  | sending _ => exact absurd trivial out
  | _ => rfl

variable {books : List Event} {t : Tasks}

/-- The forwarder takes a step that the books do not tell of. What it has in its hand and
what lies in the queue stay the same. -/
theorem Sound.forward (sound : Sound k stream cfg dir channelCapacity fromSlot books t)
    {t' : Tasks} (open' : t.forwarder ≠ .failed .channelClosed)
    (carries : t'.channel.queue ++ t'.forwarder.hand = t.channel.queue ++ t.forwarder.hand)
    (capacity : t'.channel.capacity = t.channel.capacity)
    (receiver : t'.channel.hasReceiver = t.channel.hasReceiver) (consumer : t'.consumer = t.consumer)
    (sender : t'.channel.hasSender = true ↔ t'.forwarder.Looping)
    (loops : t'.forwarder.Looping → t.forwarder.Looping)
    (stays : t'.forwarder ≠ .failed .channelClosed) (follows : Follows t') :
    Sound k stream cfg dir channelCapacity fromSlot books t' where
  carried := by
    intro _
    rw [List.append_assoc, carries, ← List.append_assoc]
    exact sound.carried open'
  lost := fun failed => absurd failed stays
  consumes := consumer ▸ sound.consumes
  follows := follows
  reported := sound.reported
  capacity := capacity.trans sound.capacity
  hasSender := sender
  hasReceiver := by rw [receiver, consumer]; exact sound.hasReceiver
  emptied := by
    intro chunker count drained
    rw [consumer] at drained
    obtain ⟨empty, out⟩ := sound.emptied chunker count drained
    rw [empty, Forwarder.hand_of_out out] at carries
    exact ⟨(List.append_eq_nil_iff.mp carries).1, fun looping => out (loops looping)⟩

/-- What the consumer does to a lane that is receiving. The books tell of the messages it
took and of the calls on the chunker. -/
theorem Sound.consume (sound : Sound k stream cfg dir channelCapacity fromSlot books t)
    {held : Counter} (receiving : t.consumer = .receiving held) {more : List Event} {t' : Tasks}
    (silent : told Event.arrival more = []) (forwarder : t'.forwarder = t.forwarder)
    (taken : told Event.taken more ++ t'.channel.queue = t.channel.queue)
    (capacity : t'.channel.capacity = t.channel.capacity)
    (sender : t'.channel.hasSender = t.channel.hasSender)
    (receiver : t'.channel.hasReceiver = true ↔ ∃ held, t'.consumer = .receiving held)
    (consumes : Consumes k stream cfg dir (books ++ more) t'.consumer)
    (reported : told Event.report (books ++ more) =
      ((slotted (told Event.taken books ++ told Event.taken more)).head?.map
        (fun first => logFirstSlot fromSlot first.2)).toList)
    (emptied : ∀ chunker count, t'.consumer = .drained chunker count →
      t'.channel.queue = [] ∧ ¬ t'.forwarder.Looping) :
    Sound k stream cfg dir channelCapacity fromSlot (books ++ more) t' where
  carried := by
    rw [forwarder, told_append, told_append, silent, List.append_nil,
      List.append_assoc (told Event.taken books), taken]
    exact sound.carried
  lost := by
    rw [forwarder, told_append, told_append, silent, List.append_nil,
      List.append_assoc (told Event.taken books), taken]
    exact sound.lost
  consumes := consumes
  follows := sound.follows.of_receiving receiving forwarder
  reported := by rw [told_append Event.taken]; exact reported
  capacity := capacity.trans sound.capacity
  hasSender := by rw [sender, forwarder]; exact sound.hasSender
  hasReceiver := receiver
  emptied := emptied

/-- The first message with a slot is reported on when it is taken, and none behind it. -/
theorem reports_take {stamped : Stamped} {slot : Nat} {held : Counter}
    (reported : told Event.report books =
      ((slotted (told Event.taken books)).head?.map (fun first => logFirstSlot fromSlot first.2)).toList)
    (seen : held.firstSlotSeen = true ↔ slotted (told Event.taken books) ≠ [])
    (has : extractSlot stamped.inner = some slot) :
    told Event.report books ++ told Event.report (firstReport fromSlot held slot) =
      ((slotted (told Event.taken books ++ [stamped])).head?.map
        (fun first => logFirstSlot fromSlot first.2)).toList := by
  rw [reported, slotted_append, slotted_some has, firstReport]
  by_cases none : slotted (told Event.taken books) = []
  · have unseen : held.firstSlotSeen = false := by
      simpa [none] using seen
    simp [none, unseen]
  · have isSeen := seen.mpr none
    obtain ⟨first, rest, listed⟩ := List.exists_cons_of_ne_nil none
    simp [listed, isSeen]

/-- The report of the first slot is no arrival. -/
@[simp] theorem arrived_firstReport (held : Counter) (slot : Nat) :
    told Event.arrival (firstReport fromSlot held slot) = [] := by
  unfold firstReport
  split <;> rfl

/-- Nor does it take a message from the channel. -/
@[simp] theorem took_firstReport (held : Counter) (slot : Nat) :
    told Event.taken (firstReport fromSlot held slot) = [] := by
  unfold firstReport
  split <;> rfl

/-- Nor does it call the chunker. -/
@[simp] theorem calls_firstReport (held : Counter) (slot : Nat) :
    told Event.call (firstReport fromSlot held slot) = [] := by
  unfold firstReport
  split <;> rfl

/-- A run goes on by one call. -/
theorem run_snoc {s s' s'' : Chunker} {ops : List Op} {op : Op} (ran : run k s ops = .ok s')
    (done : Chunker.step k s' op = .ok s'') : run k s (ops ++ [op]) = .ok s'' := by
  rw [run_append, ran]
  change run k s' [op] = _
  rw [run, done]
  rfl

/-- Every step keeps what holds of a lane. -/
theorem Sound.step (sound : Sound k stream cfg dir channelCapacity fromSlot books t)
    {action : Action} {more : List Event} {t' : Tasks} (stepped : Stepped k fromSlot t action more t') :
    Sound k stream cfg dir channelCapacity fromSlot (books ++ more) t' := by
  have consumes := sound.consumes
  have reported := sound.reported
  cases stepped with
  | arrives stamped selecting =>
    have looping : t.forwarder.Looping := by rw [selecting]; trivial
    exact
      { carried := by
          intro _
          have all := sound.carried (by simp [selecting])
          simp only [selecting, Forwarder.hand, List.append_nil] at all
          simp [all, Forwarder.hand]
        lost := fun failed => by cases failed
        consumes := by simpa [Consumes] using consumes
        follows := trivial
        reported := by simpa using reported
        capacity := sound.capacity
        hasSender := by simpa [Forwarder.Looping] using sound.hasSender.mpr looping
        hasReceiver := sound.hasReceiver
        emptied := fun chunker count drained =>
          absurd looping (sound.emptied chunker count drained).2 }
  | breaks selecting =>
    rw [List.append_nil]
    exact sound.forward (by simp [selecting]) (by simp [Tasks.fail, selecting, Forwarder.hand])
      rfl rfl rfl (by simp [Tasks.fail, Forwarder.Looping]) (fun looping => looping.elim)
      (by simp [Tasks.fail]) trivial
  | leaves _ selecting _ =>
    rw [List.append_nil]
    exact sound.forward (by simp [selecting]) (by simp [Tasks.leave, selecting, Forwarder.hand])
      rfl rfl rfl (by simp [Tasks.leave, Forwarder.Looping]) (fun looping => looping.elim)
      (by simp [Tasks.leave]) trivial
  | signalled =>
    rw [List.append_nil]
    exact ⟨sound.carried, sound.lost, consumes, sound.follows, reported, sound.capacity,
      sound.hasSender, sound.hasReceiver, sound.emptied⟩
  | queues stamped channel sending sent =>
    obtain ⟨queue, capacity, sender, receiver⟩ := Channel.send_queued sent
    have looping : t.forwarder.Looping := by rw [sending]; trivial
    rw [List.append_nil]
    exact sound.forward (by simp [sending]) (by simp [sending, Forwarder.hand, queue]) capacity
      (receiver.1.trans receiver.2.symm) rfl
      (by simpa [Forwarder.Looping, sender] using sound.hasSender.mpr looping) (fun _ => looping)
      (by simp) trivial
  | refused stamped sending sent =>
    have looping : t.forwarder.Looping := by rw [sending]; trivial
    have gone := Channel.send_closed_iff.mp sent
    rw [List.append_nil]
    exact
      { carried := fun open' => absurd rfl open'
        lost := by
          intro _
          have all := sound.carried (by simp [sending])
          rw [sending] at all
          exact ⟨stamped, all⟩
        consumes := consumes
        follows := by
          change ∃ error, t.consumer = .failed error
          cases isConsumer : t.consumer with
          | receiving held => simp [sound.hasReceiver.mpr ⟨held, isConsumer⟩] at gone
          | drained chunker count => exact absurd looping (sound.emptied _ _ isConsumer).2
          | failed error => exact ⟨error, rfl⟩
        reported := reported
        capacity := sound.capacity
        hasSender := by simp [Tasks.fail, Forwarder.Looping]
        hasReceiver := sound.hasReceiver
        emptied := fun chunker count drained =>
          absurd looping (sound.emptied chunker count drained).2 }
  | ticks now held chunker receiving done =>
    rw [receiving] at consumes
    obtain ⟨ran, same, counted, seen⟩ := consumes
    have receiver := sound.hasReceiver.mpr ⟨held, receiving⟩
    refine sound.consume receiving rfl rfl rfl rfl rfl (by simp [receiver]) ?_ ?_
      (fun _ _ drained => by cases drained)
    · refine ⟨?_, ?_, ?_, ?_⟩
      · simpa using run_snoc ran done
      · simpa [handed, arrivals] using same
      · simpa [arrivals] using counted
      · simpa using seen
    · simpa using reported
  | gives _ held error _ receiving =>
    rw [receiving] at consumes
    refine sound.consume receiving rfl rfl rfl rfl rfl (by simp [Tasks.conclude]) ?_ ?_
      (fun _ _ drained => by cases drained)
    · simpa [Consumes, Tasks.conclude] using consumes.2.1 ▸ List.prefix_rfl
    · simpa using reported
  | skips now io stamped channel held receiving received without =>
    obtain ⟨queue, capacity, sender, receiver⟩ := Channel.recv_item received
    rw [receiving] at consumes
    obtain ⟨ran, same, counted, seen⟩ := consumes
    have held' := sound.hasReceiver.mpr ⟨held, receiving⟩
    have unslotted : slotted (told Event.taken books ++ [stamped]) =
        slotted (told Event.taken books) := by
      rw [slotted_append, slotted_none without, List.append_nil]
    refine sound.consume receiving rfl rfl (by simp [queue]) capacity sender
      (by simp [receiver, held', receiving]) ?_ ?_ (fun chunker count drained => ?_)
    · rw [receiving]
      have steady : told Event.call (books ++ [.took stamped]) = told Event.call books := by simp
      have taken : told Event.taken (books ++ [.took stamped]) =
          told Event.taken books ++ [stamped] := by simp
      simpa only [Consumes, steady, taken, unslotted] using ⟨ran, same, counted, seen⟩
    · simpa [unslotted] using reported
    · simp [receiving] at drained
  | ingests now slot stamped channel held chunker receiving received has done =>
    obtain ⟨queue, capacity, sender, receiver⟩ := Channel.recv_item received
    rw [receiving] at consumes
    obtain ⟨ran, same, counted, seen⟩ := consumes
    have held' := sound.hasReceiver.mpr ⟨held, receiving⟩
    refine sound.consume receiving ?_ rfl ?_ capacity sender (by simp [receiver, held']) ?_ ?_
      (fun _ _ drained => by cases drained)
    · simp
    · simp [queue]
    · refine ⟨?_, ?_, ?_, ?_⟩
      · simpa using run_snoc ran done
      · have one : handed [.ingest ⟨now, stamped, slot⟩] = [(stamped, slot)] := rfl
        simp [handed_append, slotted_append, same, slotted_some has, one]
      · simp [arrivals, counted]
      · simp [slotted_append, slotted_some has]
    · simpa using reports_take reported seen has
  | chokes now slot io stamped channel held error receiving received has =>
    obtain ⟨queue, capacity, sender, -⟩ := Channel.recv_item received
    rw [receiving] at consumes
    obtain ⟨-, same, -, seen⟩ := consumes
    refine sound.consume receiving (by simp) rfl (by simp [queue, Tasks.conclude]) capacity sender
      (by simp [Tasks.conclude]) ?_ ?_ (fun _ _ drained => by cases drained)
    · simp [Consumes, Tasks.conclude, same, slotted_append]
    · simpa using reports_take reported seen has
  | drains now held chunker receiving received done =>
    obtain ⟨empty, gone⟩ := Channel.recv_closed_iff.mp received
    rw [receiving] at consumes
    obtain ⟨ran, same, counted, -⟩ := consumes
    refine sound.consume receiving rfl rfl rfl rfl rfl (by simp [Tasks.conclude]) ?_ ?_ ?_
    · simpa [Consumes, Tasks.conclude] using ⟨same, counted, _, ran, done⟩
    · simpa using reported
    · intro _ _ _
      exact ⟨empty, fun looping => by simp [sound.hasSender.mpr looping] at gone⟩
  | joins chunker count joining drained =>
    rw [List.append_nil]
    have out : ¬ t.forwarder.Looping := by rw [joining]; exact id
    have gone : t.channel.hasSender = false := by
      simpa using fun held => out (sound.hasSender.mp held)
    exact sound.forward (by simp [joining]) (by simp [joining, Forwarder.hand]) rfl rfl rfl
      (by simp [gone, Forwarder.Looping]) (fun looping => looping.elim) (by simp) ⟨chunker, drained⟩
  | inherits error joining failed =>
    rw [List.append_nil]
    have out : ¬ t.forwarder.Looping := by rw [joining]; exact id
    have gone : t.channel.hasSender = false := by
      simpa using fun held => out (sound.hasSender.mp held)
    exact sound.forward (by simp [joining]) (by simp [joining, Forwarder.hand]) rfl rfl rfl
      (by simp [gone, Forwarder.Looping]) (fun looping => looping.elim) (by simp) failed

/-- What holds of a lane behind every run. -/
theorem Sound.runs {actions : List Action}
    (ran : Runs k stream cfg dir channelCapacity fromSlot actions books t) :
    Sound k stream cfg dir channelCapacity fromSlot books t := by
  obtain ⟨t₀, started, steps⟩ := ran
  exact steps.keeps _ (Sound.start started) (fun _ _ _ _ _ sound done => sound.step (act_stepped done))

/-! ## Coming to an end -/

/-- Both tasks have returned. -/
def Ended (t : Tasks) : Prop :=
  ((∃ total, t.forwarder = .finished total) ∨ ∃ error, t.forwarder = .failed error) ∧
    ∀ held, t.consumer ≠ .receiving held

/-- The steps that bring a lane to its end. The others are up to the geyser stream, to the
shutdown and to the clock. -/
def Action.drains : Action → Bool
  | .cancelled => true
  | .send => true
  | .recv _ _ => true
  | .join => true
  | _ => false

/-- What the forwarder has left to do. -/
def Forwarder.rank : Forwarder → Nat
  | .sending _ => 4
  | .selecting => 2
  | .joining => 1
  | _ => 0

/-- A bound on the steps that are left when the stream yields nothing more. -/
def Tasks.rank (t : Tasks) : Nat :=
  t.channel.queue.length + t.forwarder.rank +
    match t.consumer with
    | .receiving _ => 1
    | _ => 0

/-- Unless a message arrives, no step raises the rank, and a step towards the end lowers it. -/
theorem rank_step {action : Action} {more : List Event} {t' : Tasks}
    (quiet : ∀ stamped, action ≠ .next (.message stamped))
    (stepped : Stepped k fromSlot t action more t') :
    t'.rank + (if action.drains then 1 else 0) ≤ t.rank := by
  cases stepped with
  | arrives stamped _ => exact absurd rfl (quiet stamped)
  | breaks selecting => simp [Tasks.rank, Tasks.fail, selecting, Forwarder.rank, Action.drains]
  | leaves action selecting why =>
    rcases why with rfl | ⟨rfl, -⟩
    · simp [Tasks.rank, Tasks.leave, selecting, Forwarder.rank, Action.drains]
    · simp only [Tasks.rank, Tasks.leave, selecting, Forwarder.rank, Action.drains,
        Channel.dropSender, if_true]
      omega
  | signalled => simp [Tasks.rank, Action.drains]
  | queues stamped channel sending sent =>
    simp only [Tasks.rank, (Channel.send_queued sent).queue, sending, Forwarder.rank, Action.drains,
      List.length_append, List.length_cons, List.length_nil, if_true]
    omega
  | refused stamped sending _ =>
    simp only [Tasks.rank, Tasks.fail, sending, Forwarder.rank, Action.drains,
      Channel.dropSender, if_true]
    omega
  | ticks now held chunker receiving _ => simp [Tasks.rank, receiving, Action.drains]
  | gives action held error consumes receiving =>
    rcases consumes with ⟨now, io, rfl⟩ | ⟨now, io, rfl⟩ <;>
      simp [Tasks.rank, Tasks.conclude, receiving, Action.drains]
  | skips now io stamped channel held receiving received _ =>
    simp only [Tasks.rank, (Channel.recv_item received).queue, receiving, Action.drains,
      List.length_cons, if_true]
    omega
  | ingests now slot stamped channel held chunker receiving received _ _ =>
    simp only [Tasks.rank, (Channel.recv_item received).queue, receiving, Action.drains,
      List.length_cons, if_true]
    omega
  | chokes now slot io stamped channel held error receiving received _ =>
    simp [Tasks.rank, Tasks.conclude, (Channel.recv_item received).queue, receiving, Action.drains]
  | drains now held chunker receiving _ _ =>
    simp [Tasks.rank, Tasks.conclude, receiving, Action.drains]
  | joins chunker count joining _ =>
    simp only [Tasks.rank, joining, Forwarder.rank, Action.drains, if_true]
    omega
  | inherits error joining _ =>
    simp only [Tasks.rank, joining, Forwarder.rank, Action.drains, if_true]
    omega

/-- No more steps are left than the channel has room for, and five. -/
theorem Sound.rank_le (sound : Sound k stream cfg dir channelCapacity fromSlot books t) :
    t.rank ≤ channelCapacity + 5 := by
  have queued := sound.capacity ▸ t.channel.bounded
  have held : t.forwarder.rank ≤ 4 := by cases t.forwarder <;> simp [Forwarder.rank]
  unfold Tasks.rank
  split <;> omega

/-- A consumer that is receiving can go on when the queue holds a message or the sender is
gone. -/
theorem recv_enabled {held : Counter} (receiving : t.consumer = .receiving held)
    (ready : t.channel.queue ≠ [] ∨ t.channel.hasSender = false) (now : Nat) :
    (act k fromSlot t (.recv now false)).isSome = true := by
  have turn : act k fromSlot t (.recv now false) = receive k fromSlot now false t held := by
    simp [act, receiving]
  rw [turn, receive]
  cases received : t.channel.recv with
  | item stamped channel => rfl
  | empty =>
    obtain ⟨empty, present⟩ := Channel.recv_empty_iff.mp received
    simp [empty, present] at ready
  | closed =>
    simp only
    split <;> rfl

/-- The shutdown has been signalled, or the forwarder is out of its loop. -/
def Stopping (t : Tasks) : Prop := t.cancelled = true ∨ ¬ t.forwarder.Looping

/-- A lane that is stopping has ended or can take a step towards its end. -/
theorem Sound.progress (positive : 0 < channelCapacity)
    (sound : Sound k stream cfg dir channelCapacity fromSlot books t) (stopping : Stopping t) :
    Ended t ∨ ∃ action, action.drains = true ∧ (act k fromSlot t action).isSome = true := by
  have receives {held : Counter} (receiving : t.consumer = .receiving held)
      (ready : t.channel.queue ≠ [] ∨ t.channel.hasSender = false) :
      Ended t ∨ ∃ action, action.drains = true ∧ (act k fromSlot t action).isSome = true :=
    .inr ⟨_, rfl, recv_enabled receiving ready 0⟩
  have unheld (out : ¬ t.forwarder.Looping) : t.channel.hasSender = false := by
    simpa using fun held => out (sound.hasSender.mp held)
  cases isForwarder : t.forwarder with
  | selecting =>
    have cancelled : t.cancelled = true :=
      stopping.resolve_right (by simp [isForwarder, Forwarder.Looping])
    exact .inr ⟨.cancelled, rfl, by simp [act, isForwarder, cancelled]⟩
  | sending stamped =>
    cases sent : t.channel.send stamped with
    | queued channel => exact .inr ⟨.send, rfl, by simp [act, isForwarder, sent]⟩
    | closed => exact .inr ⟨.send, rfl, by simp [act, isForwarder, sent]⟩
    | full =>
      -- the forwarder cannot go on before the consumer has made room
      obtain ⟨held, receiving⟩ := sound.hasReceiver.mp (Channel.send_full_iff.mp sent).1
      obtain ⟨first, channel, received⟩ := Channel.recv_of_full (sound.capacity ▸ positive) sent
      exact receives receiving (.inl (by simp [(Channel.recv_item received).queue]))
  | joining =>
    cases isConsumer : t.consumer with
    | receiving held =>
      exact receives isConsumer (.inr (unheld (by simp [isForwarder, Forwarder.Looping])))
    | drained chunker count => exact .inr ⟨.join, rfl, by simp [act, isForwarder, isConsumer]⟩
    | failed error => exact .inr ⟨.join, rfl, by simp [act, isForwarder, isConsumer]⟩
  | finished total =>
    cases isConsumer : t.consumer with
    | receiving held =>
      exact receives isConsumer (.inr (unheld (by simp [isForwarder, Forwarder.Looping])))
    | _ => exact .inl ⟨.inl ⟨total, isForwarder⟩, by simp [isConsumer]⟩
  | failed error =>
    cases isConsumer : t.consumer with
    | receiving held =>
      exact receives isConsumer (.inr (unheld (by simp [isForwarder, Forwarder.Looping])))
    | _ => exact .inl ⟨.inr ⟨error, isForwarder⟩, by simp [isConsumer]⟩

/-- A signal is not taken back. -/
theorem Stepped.cancelled {action : Action} {more : List Event} {t' : Tasks}
    (stepped : Stepped k fromSlot t action more t') (cancelled : t.cancelled = true) :
    t'.cancelled = true := by
  cases stepped with
  | signalled => rfl
  | _ => exact cancelled

/-- A lane does not start again once it is stopping, unless a message comes first. -/
theorem Stopping.step {action : Action} {more : List Event} {t' : Tasks} (stopping : Stopping t)
    (stepped : Stepped k fromSlot t action more t') : Stopping t' := by
  cases stepped with
  | signalled => exact .inl rfl
  | breaks _ => exact .inr id
  | leaves _ _ _ => exact .inr id
  | refused _ _ _ => exact .inr id
  | joins _ _ _ _ => exact .inr id
  | inherits _ _ _ => exact .inr id
  | arrives _ selecting =>
    exact .inl (stopping.resolve_right (by simp [selecting, Forwarder.Looping]))
  | queues _ _ sending _ =>
    exact .inl (stopping.resolve_right (by simp [sending, Forwarder.Looping]))
  | ticks _ _ _ _ _ => exact stopping
  | gives _ _ _ _ _ => exact stopping
  | skips _ _ _ _ _ _ _ _ => exact stopping
  | ingests _ _ _ _ _ _ _ _ _ _ => exact stopping
  | chokes _ _ _ _ _ _ _ _ _ _ => exact stopping
  | drains _ _ _ _ _ _ => exact stopping

/-! ## The results -/

/-- A lane that has started has a channel with room for a message. -/
theorem start_positive (started : Lane.start stream cfg dir channelCapacity = some t) :
    0 < channelCapacity := by
  unfold Lane.start at started
  split at started
  · cases started
  · next positive => exact Nat.pos_of_ne_zero positive

/-- What the consumer took is what arrived first. -/
theorem Sound.taken (sound : Sound k stream cfg dir channelCapacity fromSlot books t) :
    told Event.taken books <+: told Event.arrival books := by
  by_cases closed : t.forwarder = .failed .channelClosed
  · obtain ⟨stamped, all⟩ := sound.lost closed
    rw [all, List.append_assoc]
    exact List.prefix_append _ _
  · rw [sound.carried closed, List.append_assoc]
    exact List.prefix_append _ _

/-- What was handed to the chunker is what was taken first. -/
theorem Sound.handed (sound : Sound k stream cfg dir channelCapacity fromSlot books t) :
    handed (told Event.call books) <+: slotted (told Event.taken books) := by
  have consumes := sound.consumes
  cases isConsumer : t.consumer with
  | receiving held =>
    rw [isConsumer] at consumes
    exact consumes.2.1 ▸ List.prefix_rfl
  | drained chunker count =>
    rw [isConsumer] at consumes
    exact consumes.1 ▸ List.prefix_rfl
  | failed error =>
    rw [isConsumer] at consumes
    exact consumes

/-- A lane that finished has handed over everything. -/
theorem Sound.finished (sound : Sound k stream cfg dir channelCapacity fromSlot books t)
    {total : Nat} (isFinished : t.forwarder = .finished total) :
    ∃ s final, Lane.handed (told Event.call books) = slotted (told Event.arrival books) ∧
      total = (slotted (told Event.arrival books)).length ∧
      run k (new stream cfg dir) (told Event.call books) = .ok s ∧
      Chunker.shutdown k s = .ok final ∧ t.consumer = .drained final total := by
  have follows := sound.follows
  rw [Follows, isFinished] at follows
  obtain ⟨final, drained⟩ := follows
  obtain ⟨empty, -⟩ := sound.emptied final total drained
  have consumes := sound.consumes
  rw [drained] at consumes
  obtain ⟨same, counted, s, ran, done⟩ := consumes
  have all := sound.carried (by simp [isFinished])
  rw [empty, isFinished] at all
  simp only [Forwarder.hand, List.append_nil] at all
  refine ⟨s, final, by rw [all]; exact same, ?_, ran, done, drained⟩
  rw [all, ← same, counted, Lane.handed, List.length_map]

/-- A lane that finished over an archive leaves an archive, with the messages that the chunker
accepted of those that it was called with. -/
theorem Sound.archives (sound : Sound k stream cfg dir channelCapacity fromSlot books t)
    (positive : 0 < cfg.slotsPerChunk) (capped : 0 < cfg.maxOpenChunks)
    {contents : Nat → List Arrival} (archive : Archive k stream cfg dir contents) {total : Nat}
    (isFinished : t.forwarder = .finished total)
    (fits : ∀ entry ∈ slotted (told Event.arrival books), Fits cfg entry.2) :
    ∃ final, t.consumer = .drained final total ∧
      Archive k stream cfg final.baseDir (fun idx => contents idx ++
        inChunk cfg idx (accepted k (new stream cfg dir) (told Event.call books))) := by
  obtain ⟨s, final, same, -, ranOps, done, drained⟩ := sound.finished isFinished
  have fitting : ∀ a ∈ arrivals (told Event.call books), Fits cfg a.slot := by
    intro a member
    have entry : (a.msg, a.slot) ∈ slotted (told Event.arrival books) :=
      same ▸ List.mem_map.mpr ⟨a, member, rfl⟩
    exact fits _ entry
  obtain ⟨s', final', ran', done', sealed⟩ :=
    run_archive positive capped archive (told Event.call books) fitting
  obtain rfl := Except.ok.inj (ranOps.symm.trans ran')
  obtain rfl := Except.ok.inj (done.symm.trans done')
  exact ⟨final, drained, sealed⟩

/-- Whatever order the tasks of a lane take turns in, the chunker has been called with the
first of the messages that the stream yielded and that have a slot, each once and in order;
the next ones lie in the channel, which is never longer than its capacity, and in the
forwarder's hand. The first of them is reported on, once. A lane that finished has handed
over all of them and has shut the chunker down. -/
theorem lane_delivers (k : Codecs) (stream : Stream) (cfg : WriterConfig) (dir : Dir)
    (channelCapacity : Nat) (fromSlot : Option Nat) (actions : List Action) (books : List Event)
    (t : Tasks) (ran : Runs k stream cfg dir channelCapacity fromSlot actions books t) :
    t.channel.queue.length ≤ channelCapacity ∧
      handed (told Event.call books) <+: slotted (told Event.arrival books) ∧
      told Event.report books <+:
        ((slotted (told Event.arrival books)).map (fun first => logFirstSlot fromSlot first.2)).take 1 ∧
      (∀ held, t.consumer = .receiving held →
        run k (new stream cfg dir) (told Event.call books) = .ok held.chunker ∧
          handed (told Event.call books) ++ slotted (t.channel.queue ++ t.forwarder.hand) =
            slotted (told Event.arrival books)) ∧
      (∀ total, t.forwarder = .finished total → ∃ s final,
        handed (told Event.call books) = slotted (told Event.arrival books) ∧
          total = (slotted (told Event.arrival books)).length ∧
          run k (new stream cfg dir) (told Event.call books) = .ok s ∧
          Chunker.shutdown k s = .ok final ∧ t.consumer = .drained final total) := by
  have sound := Sound.runs ran
  have slots := sound.taken.filterMap
    (fun stamped => (extractSlot stamped.inner).map (fun slot => (stamped, slot)))
  refine ⟨sound.capacity ▸ t.channel.bounded, sound.handed.trans slots, ?_, ?_,
    fun total finished => sound.finished finished⟩
  · rw [sound.reported, List.take_one, List.head?_map]
    obtain ⟨rest, split⟩ := slots
    change slotted (told Event.taken books) ++ rest = slotted (told Event.arrival books) at split
    rw [← split]
    cases slotted (told Event.taken books) with
    | nil => exact List.nil_prefix
    | cons first others => exact List.prefix_rfl
  · intro held receiving
    have consumes := sound.consumes
    rw [receiving] at consumes
    obtain ⟨ranOps, same, -⟩ := consumes
    have open' : t.forwarder ≠ .failed .channelClosed := by
      intro failed
      have follows := sound.follows
      rw [Follows, failed] at follows
      obtain ⟨error, gone⟩ := follows
      rw [receiving] at gone
      cases gone
    refine ⟨ranOps, ?_⟩
    rw [same, ← slotted_append, sound.carried open', List.append_assoc]

/-- A block message. -/
def blockAt (slot : Nat) : Stamped := ⟨0, ⟨[], none, some (.blockMeta ⟨slot, slot - 1⟩), []⟩⟩

/-- Three messages through a channel with room for one, up to the shutdown. The second has no
slot, and the third waits for room while the shutdown is signalled. -/
def loneFeed : List Action :=
  [.next (.message (blockAt 70)), .send, .next (.message ⟨0, ⟨[], none, some (.other 6), []⟩⟩),
    .recv 0 false, .send, .next (.message (blockAt 71)), .cancel]

/-- The way of that lane to its end. -/
def loneDrain : List Action :=
  [.recv 1 false, .tick 1 false, .send, .cancelled, .recv 2 false, .recv 3 false, .join]

/-- The lane starts at slot 10, which it asked for, and goes through some actions. -/
def loneRun (actions : List Action) : Option (List Event × Tasks) := do
  let t ← start .block ⟨1000, 100, 4⟩ ∅ 1
  acts (act PlainCodecs.plain (some 10)) t actions

/-- Such a run takes the steps of a lane. -/
theorem runs_of_loneRun {actions : List Action} {books : List Event} {t : Tasks}
    (done : loneRun actions = some (books, t)) :
    Runs PlainCodecs.plain .block ⟨1000, 100, 4⟩ ∅ 1 (some 10) actions books t := by
  rw [loneRun, Option.bind_eq_bind, Option.bind_eq_some_iff] at done
  obtain ⟨t₀, started, done⟩ := done
  exact ⟨t₀, started, steps_of_acts done⟩

/-- Both messages are handed to the chunker, and the gap in front of them is reported. -/
theorem lane_delivers_lone : ∃ books t s final,
    loneRun (loneFeed ++ loneDrain) = some (books, t) ∧
      handed (told Event.call books) = [(blockAt 70, 70), (blockAt 71, 71)] ∧
      told Event.report books = [.gap 10 70 60] ∧
      run PlainCodecs.plain (new .block ⟨1000, 100, 4⟩ ∅) (told Event.call books) = .ok s ∧
      Chunker.shutdown PlainCodecs.plain s = .ok final ∧ t.consumer = .drained final 2 := by
  have computed : (loneRun (loneFeed ++ loneDrain)).any (fun result =>
      result.2.forwarder = .finished 2 ∧ told Event.report result.1 = [.gap 10 70 60] ∧
        slotted (told Event.arrival result.1) = [(blockAt 70, 70), (blockAt 71, 71)]) = true := by
    decide +kernel
  obtain ⟨⟨books, t⟩, done, facts⟩ := Option.any_eq_true _ _ |>.mp computed
  obtain ⟨finished, reported, arrived⟩ := of_decide_eq_true facts
  obtain ⟨-, -, -, -, finishes⟩ := lane_delivers PlainCodecs.plain .block ⟨1000, 100, 4⟩ ∅ 1 (some 10)
    (loneFeed ++ loneDrain) books t (runs_of_loneRun done)
  obtain ⟨s, final, same, -, ran, shut, drained⟩ := finishes 2 finished
  exact ⟨books, t, s, final, done, same.trans arrived, reported, ran, shut, drained⟩

/-- A lane that is stopping comes to its end. However its steps are ordered, and however
often the clock ticks in between, at most five steps more than the channel has room for are
left until both tasks have returned, as long as the stream yields no further message; and
until then one of them can be taken. -/
theorem lane_ends (k : Codecs) (stream : Stream) (cfg : WriterConfig) (dir : Dir)
    (channelCapacity : Nat) (fromSlot : Option Nat) (actions : List Action) (books : List Event)
    (t : Tasks) (ran : Runs k stream cfg dir channelCapacity fromSlot actions books t)
    (stopping : Stopping t) (later : List Action) (more : List Event) (t' : Tasks)
    (steps : Steps (act k fromSlot) t later more t')
    (quiet : ∀ action ∈ later, ∀ stamped, action ≠ .next (.message stamped)) :
    later.countP Action.drains ≤ channelCapacity + 5 ∧
      (Ended t' ∨ ∃ action, action.drains = true ∧ (act k fromSlot t' action).isSome = true) := by
  have bounded := (Sound.runs ran).rank_le
  have ranked := steps.ranked Tasks.rank Action.drains quiet
    (fun v action _ _ silent done => rank_step silent (act_stepped done))
  obtain ⟨t₀, started, before⟩ := ran
  have sound' := Sound.runs ⟨t₀, started, before.trans steps⟩
  have stopping' : Stopping t' :=
    steps.keeps (fun _ v => Stopping v) stopping
      (fun _ _ _ _ _ held done => held.step (act_stepped done))
  exact ⟨by omega, sound'.progress (start_positive started) stopping'⟩

/-- The lane comes to its end within the bound. -/
theorem lane_ends_lone : ∃ books t more t',
    loneRun loneFeed = some (books, t) ∧
      acts (act PlainCodecs.plain (some 10)) t loneDrain = some (more, t') ∧
      loneDrain.countP Action.drains ≤ 1 + 5 ∧ Ended t' := by
  have computed : (loneRun loneFeed).any (fun result =>
      result.2.cancelled = true ∧ (acts (act PlainCodecs.plain (some 10)) result.2 loneDrain).any
        (fun later => later.2.forwarder = .finished 2) = true) = true := by
    decide +kernel
  obtain ⟨⟨books, t⟩, done, facts⟩ := Option.any_eq_true _ _ |>.mp computed
  obtain ⟨cancelled, drained⟩ := of_decide_eq_true facts
  obtain ⟨⟨more, t'⟩, later, facts⟩ := Option.any_eq_true _ _ |>.mp drained
  have finished : t'.forwarder = .finished 2 := of_decide_eq_true facts
  have ran := runs_of_loneRun done
  have ends := lane_ends PlainCodecs.plain .block ⟨1000, 100, 4⟩ ∅ 1 (some 10) loneFeed books t ran
    (.inl cancelled) loneDrain more t' (steps_of_acts later) (by simp [loneDrain])
  obtain ⟨t₀, started, before⟩ := ran
  obtain ⟨-, final, -, -, -, -, drained⟩ :=
    (Sound.runs ⟨t₀, started, before.trans (steps_of_acts later)⟩).finished finished
  exact ⟨books, t, more, t', done, later, ends.1, .inl ⟨2, finished⟩, by simp [drained]⟩

end Sillage.Lane
