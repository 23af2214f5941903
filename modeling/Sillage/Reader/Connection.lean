import Sillage.Foundation.Behaviour
import Sillage.Foundation.Channel
import Sillage.Reader.Admission
import Sillage.Reader.Stepwise

/-!
# The connection of a customer

A customer that has been admitted is served by two tasks, which send into one bounded
channel. The replay task follows the catalog: it plans, takes the messages off its cursors,
waits until each is due, and sends it, giving up on a subscriber that takes nothing for too
long. The customer's own task answers pings, and leaves its loop when the reader shuts
down, when the replay has returned, when the client goes away, or when the client's side of
the call ends; it then stops the replay, waits for it, and lets go of the channel.

What the client does, when the shutdown comes, which task goes on, the clock, and the
catalogs published in the meantime are part of the actions. A subscription that cannot be
planned is turned down before any of this.
-/

namespace Sillage

/-- The texts of errors from below. -/
structure ErrorTexts where
  index : IndexError → String
  decode : DecodeError → String

/-- What a client is told when its subscription cannot be planned. -/
def PlanError.text (texts : ErrorTexts) : PlanError → String
  | .fromSlotTooOld requested firstAvailable =>
      "from_slot " ++ toString requested ++ " is older than the oldest available slot " ++
        toString firstAvailable ++
        "; query SubscribeReplayInfo for the current first_available"
  | .noChunksAvailable => "no chunks available locally for the requested streams"
  | .other error => texts.index error

namespace Connection

open Behaviour

/-- What goes through the channel of a customer. -/
inductive Item where
  | update (message : Stream × Sent)
  | pong (id : Int)
  | status (status : Status)
deriving DecidableEq

/-- A pass under way: the catalog it was planned on, its plan, the index cache behind
planning, and how far its loop has come. -/
structure Driving where
  catalog : ChunkCatalog
  plan : ReplayPlan
  indexCache : IndexCache
  drive : DriveState

/-- A message off the cursors, and the clock when it was taken. -/
structure Head where
  winner : Stream
  item : Peeked
  targetNow : Nat

/-- Where the replay task is: at the top of a turn, at the top of an iteration, waiting
until a message is due, sending it, waiting for new chunks, telling the client why the
replay ends, about to return behind that, or at its end. A pass that fails is no pass of the
follower, and is kept beside it as far as it has come. -/
inductive Stage where
  | turning
  | merging (d : Driving)
  | pacing (d : Driving) (head : Head)
  | sending (d : Driving) (head : Head)
  | idling
  | notifying (status : Status) (behind : FollowState) (reason : FollowEnd)
      (cut : Option Driving)
  | notified (behind : FollowState) (reason : FollowEnd) (cut : Option Driving)
  | returned (reason : FollowEnd) (cut : Option Driving)

/-- The replay task: its follower, and where in a turn it is. -/
structure Task where
  follower : FollowState
  stage : Stage

/-- Where the customer's own task is. -/
inductive Customer where
  | selecting
  | answering (id : Int)
  | joining
  | finished
deriving DecidableEq

/-- The two tasks, their channel, and the two signals. -/
structure State where
  channel : Channel Item
  shutdown : Bool
  stop : Bool
  customer : Customer
  replay : Task

/-- What comes from the client. -/
inductive Message where
  | ping (id : Int)
  | unsupported
  | closed
  | failed
deriving DecidableEq

/-- What the client does with its end of the channel. -/
inductive ClientAction where
  | receive
  | hangUp

/-- What the customer's task comes upon in its select, or does behind it. -/
inductive CustomerAction where
  | shutDown
  | replayEnded
  | inbound (message : Message)
  | pong
  | join

/-- The steps of the replay task, with what they find: the published catalog, and the clock. -/
inductive ReplayAction where
  | turn (catalog : ChunkCatalog)
  | take (now : Nat)
  | due
  | cancelled
  | send (now : Nat)
  | timeOut
  | notify
  | finish
  | poll

/-- What happens next to a connection. -/
inductive Action where
  | client (action : ClientAction)
  | shutdown
  | customer (action : CustomerAction)
  | replay (action : ReplayAction)

/-- Why the customer's task leaves its loop. -/
inductive Leaving where
  | shutdown
  | replayEnded
  | subscriberDropped
  | inboundClosed
  | inboundFailed
deriving DecidableEq

/-- What a connection leaves in the books: an item that went into the channel, one that
the client took, a ping that came, and why the customer's task left its loop. -/
inductive Event where
  | entered (item : Item)
  | received (item : Item)
  | pinged (id : Int)
  | left (why : Leaving)
deriving DecidableEq

/-! ## The replay task -/

section ReplayTask

variable (reader : Reader) (ctx : FollowContext) (texts : ErrorTexts)

/-- What planning and settling read of a turn. -/
def turnOn (catalog : ChunkCatalog) (now : Nat) : Turn where
  stopped := false
  catalog := catalog
  drive _ := ⟨now, false, .closed, now⟩
  now := now
  interrupted := false

namespace Task

variable (t : Task)

/-- The task at the end of its follower. -/
def ended (reason : FollowEnd) (s : FollowState) (cut : Option Driving) : Task :=
  ⟨s, .returned reason cut⟩

/-- The top of a turn: stop, or plan and begin to drive the plan. -/
def turn (stop : Bool) (catalog : ChunkCatalog) : Task :=
  if stop then ended .stopped t.follower none
  else
    let undrained := { t.follower with total := { t.follower.total with drained := false } }
    match Follow.nextPlan reader ctx (turnOn catalog 0) t.follower with
    | .error (.cannotPlan error) =>
        { t with stage :=
            .notifying ⟨.outOfRange, error.text texts⟩ undrained (.cannotPlan error) none }
    | .error reason => ended reason undrained none
    | .ok (catalog, plan, indexCache) =>
        let drive := Replay.begun plan t.follower.chunkCache t.follower.pacer
        { t with stage := .merging ⟨catalog, plan, indexCache, drive⟩ }

/-- The follower behind a pass. -/
def passed (d : Driving) (exit : Exit) (drive : DriveState) : FollowState :=
  Follow.passed t.follower ⟨d.catalog, d.plan, Replay.outcomeOf exit drive⟩ d.indexCache

/-- A pass has been drained: the follower goes on at once, waits for more, or is idle. -/
def settle (now : Nat) (d : Driving) (drive : DriveState) : Task :=
  match Follow.settle ctx (turnOn d.catalog now) (Replay.outcomeOf .drained drive).stats
      (t.passed d .drained drive) with
  | .ends reason s => ended reason s none
  | .continues s => ⟨s, if 0 < drive.emitted then .turning else .idling⟩

/-- What the client is told when a pass ends early. -/
def notice : Exit → Option Status
  | .timedOut => some ⟨.resourceExhausted, "replay send timed out"⟩
  | .lagDrop => some ⟨.resourceExhausted, "replay fell too far behind wall-clock"⟩
  | .drained => none
  | .shutdown => none
  | .closed => none

/-- What follows an attempt to hand a message over. -/
def behind (d : Driving) : Progress → Task
  | .continues drive => { t with stage := .merging { d with drive } }
  | .ends exit drive =>
      let s := t.passed d exit drive
      let undrained := { s with total := { s.total with drained := false } }
      match notice exit with
      | some status => { t with stage := .notifying status undrained .passEnded none }
      | none => ended .passEnded undrained none

/-- The top of an iteration: take the best head, and pace it unless it is below the
requested slot. -/
def take (now : Nat) (d : Driving) : Task :=
  match Replay.dequeue reader d.drive.cursors d.drive.cache with
  | .error (.decode error) =>
      { t with stage :=
          .notifying ⟨.internal, texts.decode error⟩ t.follower (.failed (.decode error)) (some d) }
  | .error error => ended (.failed error) t.follower (some d)
  | .ok (none, cursors, cache) => t.settle ctx now d { d.drive with cursors, cache }
  | .ok (some (winner, slot, item), cursors, cache) =>
      let d := { d with drive := { d.drive with cursors, cache } }
      if slot < d.plan.fromSlot then { t with stage := .merging d }
      else { t with stage := .pacing d ⟨winner, item, now⟩ }

/-- Hand a message over, as the signal, the channel and the clock have it. -/
def emit (d : Driving) (head : Head) (cancelled : Bool) (outcome : SendOutcome) (now : Nat) :
    Task :=
  t.behind d (Replay.emit reader ⟨head.targetNow, cancelled, outcome, now⟩ head.winner head.item
    d.drive)

/-- A step of the replay task, if it can be taken: what goes into the channel, the channel
behind it, and the task. The task returns in a step of its own behind the last word to the
client, so that the others may see that word before they see the end. -/
def step (stop : Bool) (channel : Channel Item) :
    ReplayAction → Option (List Item × Channel Item × Task)
  | .turn catalog =>
      match t.stage with
      | .turning => some ([], channel, t.turn reader ctx texts stop catalog)
      | _ => none
  | .take now =>
      match t.stage with
      | .merging d => some ([], channel, t.take reader ctx texts now d)
      | _ => none
  | .due =>
      match t.stage with
      | .pacing d head => some ([], channel, { t with stage := .sending d head })
      | _ => none
  | .cancelled =>
      match t.stage with
      | .pacing d head =>
          if stop then some ([], channel, t.emit reader d head true .closed 0) else none
      | .idling => if stop then some ([], channel, ended .stopped t.follower none) else none
      | _ => none
  | .send now =>
      match t.stage with
      | .sending d head =>
          let item := Item.update (Replay.toSent (head.winner, head.item))
          match channel.send item with
          | .queued channel => some ([item], channel, t.emit reader d head false .sent now)
          | .full => none
          | .closed => some ([], channel, t.emit reader d head false .closed now)
      | _ => none
  | .timeOut =>
      match t.stage with
      | .sending d head =>
          match channel.send (.update (Replay.toSent (head.winner, head.item))) with
          | .full => some ([], channel, t.emit reader d head false .timedOut 0)
          | _ => none
      | _ => none
  | .notify =>
      match t.stage with
      | .notifying status s reason cut =>
          match channel.send (.status status) with
          | .queued channel =>
              some ([.status status], channel, { t with stage := .notified s reason cut })
          | .full => none
          | .closed => some ([], channel, { t with stage := .notified s reason cut })
      | _ => none
  | .finish =>
      match t.stage with
      | .notified s reason cut => some ([], channel, ended reason s cut)
      | _ => none
  | .poll =>
      match t.stage with
      | .idling => some ([], channel, { t with stage := .turning })
      | _ => none

end Task

end ReplayTask

/-! ## The whole connection -/

/-- The replay task has come to its end. -/
def Stage.hasReturned : Stage → Bool
  | .returned _ _ => true
  | _ => false

namespace State

variable (s : State)

/-- The customer's task leaves its loop, and stops the replay. -/
def leave : State := { s with stop := true, customer := .joining }

/-- What the client does. It takes from the channel as long as it holds its end. -/
def clientAct : ClientAction → Option (List Event × State)
  | .receive =>
      if s.channel.hasReceiver then
        match s.channel.recv with
        | .item item channel => some ([.received item], { s with channel })
        | _ => none
      else none
  | .hangUp => some ([], { s with channel := s.channel.dropReceiver })

/-- A step of the customer's task. Its select looks for the shutdown first, then for the
end of the replay, and at what the client sends last. -/
def customerAct : CustomerAction → Option (List Event × State)
  | .shutDown =>
      if s.customer = .selecting ∧ s.shutdown then some ([.left .shutdown], s.leave) else none
  | .replayEnded =>
      if s.customer = .selecting ∧ !s.shutdown ∧ s.replay.stage.hasReturned then
        some ([.left .replayEnded], s.leave)
      else none
  | .inbound message =>
      if s.customer = .selecting ∧ !s.shutdown ∧ !s.replay.stage.hasReturned then
        match message with
        | .ping id => some ([.pinged id], { s with customer := .answering id })
        | .unsupported => some ([], s)
        | .closed => some ([.left .inboundClosed], s.leave)
        | .failed => some ([.left .inboundFailed], s.leave)
      else none
  | .pong =>
      match s.customer with
      | .answering id =>
          match s.channel.send (.pong id) with
          | .queued channel =>
              some ([.entered (.pong id)], { s with channel, customer := .selecting })
          | .full => none
          | .closed => some ([.left .subscriberDropped], s.leave)
      | _ => none
  | .join =>
      if s.customer = .joining ∧ s.replay.stage.hasReturned then
        some ([], { s with channel := s.channel.dropSender, customer := .finished })
      else none

end State

/-- The effect of an action, if it can be taken. -/
def act (reader : Reader) (ctx : FollowContext) (texts : ErrorTexts) :
    Behaviour State Action Event := fun s action =>
  match action with
  | .client action => s.clientAct action
  | .shutdown => some ([], { s with shutdown := true })
  | .customer action => s.customerAct action
  | .replay action =>
      (s.replay.step reader ctx texts s.stop s.channel action).map
        (fun (items, channel, replay) => (items.map .entered, { s with channel, replay }))

/-- A connection behind the first plan. A channel without room for an item is a panic. -/
def start (ctx : FollowContext) (capacity now : Nat) (catalog : ChunkCatalog) (plan : ReplayPlan)
    (indexCache : IndexCache) (chunkCache : ChunkCache) : Option State :=
  if capacity = 0 then none
  else
    some
      { channel := Channel.new capacity
        shutdown := false
        stop := false
        customer := .selecting
        replay := ⟨Follow.started ctx now catalog plan indexCache chunkCache, .turning⟩ }

/-! ## The books -/

/-- The item that an event puts into the channel. -/
@[simp] def Event.entry : Event → Option Item
  | .entered item => some item
  | _ => none

/-- The item that the client takes by an event. -/
@[simp] def Event.receipt : Event → Option Item
  | .received item => some item
  | _ => none

/-- The ping that comes by an event. -/
@[simp] def Event.ping : Event → Option Int
  | .pinged id => some id
  | _ => none

/-- Why the customer's task leaves its loop by an event. -/
@[simp] def Event.leaving : Event → Option Leaving
  | .left why => some why
  | _ => none

/-- The message that an item is, if it is one. -/
@[simp] def Item.message : Item → Option (Stream × Sent)
  | .update message => some message
  | _ => none

/-- The ping that an item answers, if it answers one. -/
@[simp] def Item.answer : Item → Option Int
  | .pong id => some id
  | _ => none

/-- The status that an item is, if it is one. -/
@[simp] def Item.final : Item → Option Status
  | .status told => some told
  | _ => none

end Connection

end Sillage
