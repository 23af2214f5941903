import Sillage.Foundation.Behaviour
import Sillage.Foundation.Channel
import Sillage.Writer.Runs

/-!
# A lane: from the geyser stream to the chunker

A lane is two tasks and a bounded channel between them. The forwarder waits for the next
item of the geyser stream or for the shutdown, and sends what it got into the channel,
waiting for room if there is none. The consumer takes messages out and hands those with a
slot to the chunker, and lets the chunker look for idle chunks every second. When the
forwarder stops it lets go of the channel; the consumer then drains it, shuts the chunker
down and ends, and the forwarder returns what the consumer returned.

What the geyser stream yields next, when the shutdown comes, which task goes on, the
clock, and whether a file of the chunker fails are part of the actions.
-/

namespace Sillage.Lane

open Directory Chunker Behaviour

/-- What the geyser stream yields next. -/
inductive Item where
  | message (stamped : Stamped)
  | error
  | ended
deriving DecidableEq

/-- Why a call on the chunker, and with it the consumer, failed. -/
inductive ConsumerError where
  | fault (fault : Fault)
  | io
deriving DecidableEq

/-- How a lane fails: its stream breaks off, the channel is closed under it, or the consumer
fails. -/
inductive LaneError where
  | geyserStream
  | channelClosed
  | consumer (error : ConsumerError)
deriving DecidableEq

/-- Where the forwarder is: in its select, sending a message, waiting for the consumer
behind the loop, or at its end. -/
inductive Forwarder where
  | selecting
  | sending (stamped : Stamped)
  | joining
  | finished (total : Nat)
  | failed (error : LaneError)
deriving DecidableEq

/-- What the consumer holds between two turns of its loop. -/
structure Counter where
  chunker : Chunker
  count : Nat
  firstSlotSeen : Bool

/-- Where the consumer of a lane is: it receives, has drained the channel and shut the chunker
down, or has failed. -/
inductive Consumer where
  | receiving (held : Counter)
  | drained (chunker : Chunker) (count : Nat)
  | failed (error : ConsumerError)

/-- The two tasks of a lane, their channel, and whether the shutdown has been signalled. -/
structure Tasks where
  channel : Channel Stamped
  cancelled : Bool
  forwarder : Forwarder
  consumer : Consumer

/-- What happens next to a lane. -/
inductive Action where
  | next (item : Item)
  | cancel
  | cancelled
  | send
  | tick (now : Nat) (io : Bool)
  | recv (now : Nat) (io : Bool)
  | join
deriving DecidableEq

/-- What the first message with a slot tells about the slot that was asked for. -/
inductive FirstSlot where
  | tip (slot : Nat)
  | gap (resume slot gap : Nat)
  | verified (resume slot gap : Nat)
deriving DecidableEq

/-- What a lane leaves in the books: a message that the geyser stream yielded, one that
the consumer took out of the channel, a call on the chunker, the report on the first slot. -/
inductive Event where
  | arrived (stamped : Stamped)
  | took (stamped : Stamped)
  | called (op : Op)
  | began (report : FirstSlot)
deriving DecidableEq

/-- A greater gap in front of the first message is warned of. -/
def gapWarnThresholdSlots : Nat := 50

/-- What is said of the first slot: a gap, if it lies too far behind the one asked for. -/
def logFirstSlot (fromSlot : Option Nat) (firstSlot : Nat) : FirstSlot :=
  match fromSlot with
  | none => .tip firstSlot
  | some resume =>
      let gap := firstSlot - resume
      if gapWarnThresholdSlots < gap then .gap resume firstSlot gap
      else .verified resume firstSlot gap

/-- A lane behind its setup. A channel without room for a message is a panic. -/
def start (stream : Stream) (cfg : WriterConfig) (baseDir : Dir) (channelCapacity : Nat) :
    Option Tasks :=
  if channelCapacity = 0 then none
  else
    let held := { chunker := Chunker.new stream cfg baseDir, count := 0, firstSlotSeen := false }
    some
      { channel := Channel.new channelCapacity
        cancelled := false
        forwarder := .selecting
        consumer := .receiving held }

/-- A call on the chunker from the consumer. A file of the chunker may fail in it. -/
def callChunker (io : Bool) (result : Except Fault Chunker) : Except ConsumerError Chunker :=
  if io then .error .io else result.mapError .fault

/-- The forwarder returns with an error and lets go of the channel. -/
def Tasks.fail (t : Tasks) (error : LaneError) : Tasks :=
  { t with channel := t.channel.dropSender, forwarder := .failed error }

/-- The forwarder leaves its loop and lets go of the channel. -/
def Tasks.leave (t : Tasks) : Tasks :=
  { t with channel := t.channel.dropSender, forwarder := .joining }

/-- The consumer returns and lets go of the channel. -/
def Tasks.conclude (t : Tasks) (consumer : Consumer) : Tasks :=
  { t with channel := t.channel.dropReceiver, consumer := consumer }

/-- The consumer takes a message out of the channel. -/
def consume (k : Codecs) (fromSlot : Option Nat) (now : Nat) (io : Bool) (t : Tasks)
    (held : Counter) (stamped : Stamped) : List Event × Tasks :=
  match extractSlot stamped.inner with
  | none => ([.took stamped], t)
  | some slot =>
      let reported := if held.firstSlotSeen then [] else [Event.began (logFirstSlot fromSlot slot)]
      let op := Op.ingest { now := now, msg := stamped, slot := slot }
      match callChunker io (Chunker.step k held.chunker op) with
      | .error error => (.took stamped :: reported, t.conclude (.failed error))
      | .ok chunker =>
          let held := { chunker := chunker, count := held.count + 1, firstSlotSeen := true }
          (.took stamped :: reported ++ [.called op], { t with consumer := .receiving held })

/-- One turn of the consumer's loop that is not a heartbeat. -/
def receive (k : Codecs) (fromSlot : Option Nat) (now : Nat) (io : Bool) (t : Tasks)
    (held : Counter) : Option (List Event × Tasks) :=
  match t.channel.recv with
  | .empty => none
  | .item stamped channel =>
      some (consume k fromSlot now io { t with channel := channel } held stamped)
  | .closed =>
      match callChunker io (Chunker.shutdown k held.chunker) with
      | .error error => some ([], t.conclude (.failed error))
      | .ok chunker => some ([], t.conclude (.drained chunker held.count))

/-- The effect of an action, if it can be taken. -/
def act (k : Codecs) (fromSlot : Option Nat) : Behaviour Tasks Action Event := fun t action =>
  match action, t.forwarder, t.consumer with
  | .next (.message stamped), .selecting, _ =>
      some ([.arrived stamped], { t with forwarder := .sending stamped })
  | .next .error, .selecting, _ => some ([], t.fail .geyserStream)
  | .next .ended, .selecting, _ => some ([], t.leave)
  | .cancel, _, _ => some ([], { t with cancelled := true })
  | .cancelled, .selecting, _ => if t.cancelled then some ([], t.leave) else none
  | .send, .sending stamped, _ =>
      match t.channel.send stamped with
      | .queued channel => some ([], { t with channel := channel, forwarder := .selecting })
      | .full => none
      | .closed => some ([], t.fail .channelClosed)
  | .tick now io, _, .receiving held =>
      match callChunker io (Chunker.step k held.chunker (.tick now)) with
      | .error error => some ([], t.conclude (.failed error))
      | .ok chunker =>
          let held := { held with chunker := chunker }
          some ([.called (.tick now)], { t with consumer := .receiving held })
  | .recv now io, _, .receiving held => receive k fromSlot now io t held
  | .join, .joining, .drained _ count => some ([], { t with forwarder := .finished count })
  | .join, .joining, .failed error =>
      some ([], { t with forwarder := .failed (.consumer error) })
  | _, _, _ => none

/-- A run of a lane from its setup. -/
def Runs (k : Codecs) (stream : Stream) (cfg : WriterConfig) (dir : Dir) (channelCapacity : Nat)
    (fromSlot : Option Nat) (actions : List Action) (books : List Event) (t : Tasks) : Prop :=
  ∃ t₀, start stream cfg dir channelCapacity = some t₀ ∧
    Steps (act k fromSlot) t₀ actions books t

/-! ## The books -/

/-- The message that the geyser stream yielded. -/
@[simp] def Event.arrival : Event → Option Stamped
  | .arrived stamped => some stamped
  | _ => none

/-- The message that the consumer took. -/
@[simp] def Event.taken : Event → Option Stamped
  | .took stamped => some stamped
  | _ => none

/-- The call on the chunker. -/
@[simp] def Event.call : Event → Option Op
  | .called op => some op
  | _ => none

/-- What an event says of the first slot. -/
@[simp] def Event.report : Event → Option FirstSlot
  | .began report => some report
  | _ => none

/-- The messages with a slot, with their slots. -/
def slotted (messages : List Stamped) : List (Stamped × Nat) :=
  messages.filterMap (fun stamped => (extractSlot stamped.inner).map (fun slot => (stamped, slot)))

/-- Messages with a slot come one behind the other. -/
theorem slotted_append (first second : List Stamped) :
    slotted (first ++ second) = slotted first ++ slotted second := List.filterMap_append

/-- A message without a slot is left out. -/
theorem slotted_none {stamped : Stamped} (without : extractSlot stamped.inner = none) :
    slotted [stamped] = [] := by
  simp [slotted, without]

/-- A message with a slot stays, with its slot. -/
theorem slotted_some {stamped : Stamped} {slot : Nat} (has : extractSlot stamped.inner = some slot) :
    slotted [stamped] = [(stamped, slot)] := by
  simp [slotted, has]

/-- The messages that some calls hand to the chunker, with their slots. -/
def handed (ops : List Op) : List (Stamped × Nat) :=
  (arrivals ops).map (fun a => (a.msg, a.slot))

/-- Messages are handed over call by call. -/
theorem handed_append (first second : List Op) :
    handed (first ++ second) = handed first ++ handed second := by
  simp [handed, arrivals]

/-! ## What a step does -/

/-- The message in the forwarder's hand. -/
def Forwarder.hand : Forwarder → List Stamped
  | .sending stamped => [stamped]
  | _ => []

/-- The forwarder is still in its loop. -/
def Forwarder.Looping : Forwarder → Prop
  | .selecting => True
  | .sending _ => True
  | _ => False

/-- The report on the first slot, if there has been none. -/
def firstReport (fromSlot : Option Nat) (held : Counter) (slot : Nat) : List Event :=
  if held.firstSlotSeen then [] else [.began (logFirstSlot fromSlot slot)]

/-- What an action can do, seen from the outside: one case for each thing that can happen
to a lane. -/
inductive Stepped (k : Codecs) (fromSlot : Option Nat) (t : Tasks) :
    Action → List Event → Tasks → Prop where
  | arrives (stamped : Stamped) (selecting : t.forwarder = .selecting) :
      Stepped k fromSlot t (.next (.message stamped)) [.arrived stamped]
        { t with forwarder := .sending stamped }
  | breaks (selecting : t.forwarder = .selecting) :
      Stepped k fromSlot t (.next .error) [] (t.fail .geyserStream)
  | leaves (action : Action) (selecting : t.forwarder = .selecting)
      (why : action = .next .ended ∨ action = .cancelled ∧ t.cancelled = true) :
      Stepped k fromSlot t action [] t.leave
  | signalled : Stepped k fromSlot t .cancel [] { t with cancelled := true }
  | queues (stamped : Stamped) (channel : Channel Stamped) (sending : t.forwarder = .sending stamped)
      (sent : t.channel.send stamped = .queued channel) :
      Stepped k fromSlot t .send [] { t with channel := channel, forwarder := .selecting }
  | refused (stamped : Stamped) (sending : t.forwarder = .sending stamped)
      (sent : t.channel.send stamped = .closed) :
      Stepped k fromSlot t .send [] (t.fail .channelClosed)
  | ticks (now : Nat) (held : Counter) (chunker : Chunker) (receiving : t.consumer = .receiving held)
      (done : Chunker.step k held.chunker (.tick now) = .ok chunker) :
      Stepped k fromSlot t (.tick now false) [.called (.tick now)]
        { t with consumer := .receiving { held with chunker := chunker } }
  | gives (action : Action) (held : Counter) (error : ConsumerError)
      (consumes : (∃ now io, action = .tick now io) ∨ ∃ now io, action = .recv now io)
      (receiving : t.consumer = .receiving held) :
      Stepped k fromSlot t action [] (t.conclude (.failed error))
  | skips (now : Nat) (io : Bool) (stamped : Stamped) (channel : Channel Stamped) (held : Counter)
      (receiving : t.consumer = .receiving held) (received : t.channel.recv = .item stamped channel)
      (without : extractSlot stamped.inner = none) :
      Stepped k fromSlot t (.recv now io) [.took stamped] { t with channel := channel }
  | ingests (now slot : Nat) (stamped : Stamped) (channel : Channel Stamped) (held : Counter)
      (chunker : Chunker) (receiving : t.consumer = .receiving held)
      (received : t.channel.recv = .item stamped channel)
      (has : extractSlot stamped.inner = some slot)
      (done : Chunker.step k held.chunker (.ingest ⟨now, stamped, slot⟩) = .ok chunker) :
      Stepped k fromSlot t (.recv now false)
        (.took stamped :: firstReport fromSlot held slot ++ [.called (.ingest ⟨now, stamped, slot⟩)])
        { t with channel := channel, consumer := .receiving ⟨chunker, held.count + 1, true⟩ }
  | chokes (now slot : Nat) (io : Bool) (stamped : Stamped) (channel : Channel Stamped)
      (held : Counter) (error : ConsumerError) (receiving : t.consumer = .receiving held)
      (received : t.channel.recv = .item stamped channel)
      (has : extractSlot stamped.inner = some slot) :
      Stepped k fromSlot t (.recv now io) (.took stamped :: firstReport fromSlot held slot)
        ({ t with channel := channel }.conclude (.failed error))
  | drains (now : Nat) (held : Counter) (chunker : Chunker) (receiving : t.consumer = .receiving held)
      (received : t.channel.recv = .closed)
      (done : Chunker.shutdown k held.chunker = .ok chunker) :
      Stepped k fromSlot t (.recv now false) [] (t.conclude (.drained chunker held.count))
  | joins (chunker : Chunker) (count : Nat) (joining : t.forwarder = .joining)
      (drained : t.consumer = .drained chunker count) :
      Stepped k fromSlot t .join [] { t with forwarder := .finished count }
  | inherits (error : ConsumerError) (joining : t.forwarder = .joining)
      (failed : t.consumer = .failed error) :
      Stepped k fromSlot t .join [] { t with forwarder := .failed (.consumer error) }

variable {k : Codecs} {fromSlot : Option Nat}

/-- A call succeeds if the chunker does and the disk does not fail. -/
theorem callChunker_ok {io : Bool} {result : Except Fault Chunker} {chunker : Chunker}
    (done : callChunker io result = .ok chunker) : io = false ∧ result = .ok chunker := by
  cases io with
  | true => cases done
  | false =>
    cases result with
    | error _ => cases done
    | ok other => exact ⟨rfl, congrArg Except.ok (Except.ok.inj done)⟩

/-- The turns of the consumer that take from the channel. -/
theorem receive_stepped {t t' : Tasks} {held : Counter} {now : Nat} {io : Bool} {more : List Event}
    (receiving : t.consumer = .receiving held)
    (done : receive k fromSlot now io t held = some (more, t')) :
    Stepped k fromSlot t (.recv now io) more t' := by
  unfold receive at done
  split at done
  · cases done
  · next stamped channel received =>
    unfold consume at done
    split at done
    · next without =>
      obtain ⟨rfl, rfl⟩ := Prod.mk.inj (Option.some.inj done)
      exact .skips now io stamped channel held receiving received without
    · next slot has =>
      simp only at done
      split at done
      · next error _ =>
        obtain ⟨rfl, rfl⟩ := Prod.mk.inj (Option.some.inj done)
        exact .chokes now slot io stamped channel held error receiving received has
      · next chunker called =>
        obtain ⟨rfl, succeeded⟩ := callChunker_ok called
        obtain ⟨rfl, rfl⟩ := Prod.mk.inj (Option.some.inj done)
        exact .ingests now slot stamped channel held chunker receiving received has succeeded
  · next received =>
    split at done
    · next error _ =>
      obtain ⟨rfl, rfl⟩ := Prod.mk.inj (Option.some.inj done)
      exact .gives _ held error (.inr ⟨now, io, rfl⟩) receiving
    · next chunker called =>
      obtain ⟨rfl, succeeded⟩ := callChunker_ok called
      obtain ⟨rfl, rfl⟩ := Prod.mk.inj (Option.some.inj done)
      exact .drains now held chunker receiving received succeeded

/-- Every action does one of these things. -/
theorem act_stepped {t t' : Tasks} {action : Action} {more : List Event}
    (done : act k fromSlot t action = some (more, t')) : Stepped k fromSlot t action more t' := by
  unfold act at done
  split at done
  · next stamped selecting =>
    obtain ⟨rfl, rfl⟩ := Prod.mk.inj (Option.some.inj done)
    exact .arrives stamped selecting
  · next selecting =>
    obtain ⟨rfl, rfl⟩ := Prod.mk.inj (Option.some.inj done)
    exact .breaks selecting
  · next selecting =>
    obtain ⟨rfl, rfl⟩ := Prod.mk.inj (Option.some.inj done)
    exact .leaves _ selecting (.inl rfl)
  · obtain ⟨rfl, rfl⟩ := Prod.mk.inj (Option.some.inj done)
    exact .signalled
  · next selecting =>
    split at done
    · next cancelled =>
      obtain ⟨rfl, rfl⟩ := Prod.mk.inj (Option.some.inj done)
      exact .leaves _ selecting (.inr ⟨rfl, cancelled⟩)
    · cases done
  · next stamped sending =>
    split at done
    · next channel sent =>
      obtain ⟨rfl, rfl⟩ := Prod.mk.inj (Option.some.inj done)
      exact .queues stamped channel sending sent
    · cases done
    · next sent =>
      obtain ⟨rfl, rfl⟩ := Prod.mk.inj (Option.some.inj done)
      exact .refused stamped sending sent
  · next now io held receiving =>
    split at done
    · next error _ =>
      obtain ⟨rfl, rfl⟩ := Prod.mk.inj (Option.some.inj done)
      exact .gives _ held error (.inl ⟨now, io, rfl⟩) receiving
    · next chunker called =>
      obtain ⟨rfl, succeeded⟩ := callChunker_ok called
      obtain ⟨rfl, rfl⟩ := Prod.mk.inj (Option.some.inj done)
      exact .ticks now held chunker receiving succeeded
  · next now io held receiving => exact receive_stepped receiving done
  · next chunker count joining drained =>
    obtain ⟨rfl, rfl⟩ := Prod.mk.inj (Option.some.inj done)
    exact .joins chunker count joining drained
  · next error joining failed =>
    obtain ⟨rfl, rfl⟩ := Prod.mk.inj (Option.some.inj done)
    exact .inherits error joining failed
  · cases done

end Sillage.Lane
