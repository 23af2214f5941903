import Mathlib.Data.List.Basic

/-!
# Bounded channels

A queue of limited length between a sender and a receiver that run side by side. A full
queue holds the sender back, an empty one the receiver. Either side can let go of its
end: the receiver then still gets what lies in the queue, while the sender is refused at
once.
-/

namespace Sillage

/-- A bounded queue with its two ends. -/
structure Channel (α : Type) where
  capacity : Nat
  queue : List α
  bounded : queue.length ≤ capacity
  hasSender : Bool
  hasReceiver : Bool

namespace Channel

variable {α : Type}

/-- An empty channel with both ends held. -/
def new (capacity : Nat) : Channel α where
  capacity := capacity
  queue := []
  bounded := Nat.zero_le capacity
  hasSender := true
  hasReceiver := true

/-- How sending an item goes: it is queued, it waits for room, or the receiver is gone. -/
inductive Sent (α : Type) where
  | queued (behind : Channel α)
  | full
  | closed

/-- Put an item at the end of the queue, if there is room and a receiver. -/
def send (c : Channel α) (item : α) : Sent α :=
  if c.hasReceiver then
    if room : c.queue.length < c.capacity then
      .queued { c with queue := c.queue ++ [item], bounded := by simpa using Nat.succ_le_of_lt room }
    else .full
  else .closed

/-- How receiving goes: an item is taken, none has come so far, or none will come. -/
inductive Received (α : Type) where
  | item (item : α) (behind : Channel α)
  | empty
  | closed

/-- Take the item at the front. The channel is closed only once it is empty and has no sender.
-/
def recv (c : Channel α) : Received α :=
  match same : c.queue with
  | item :: rest =>
      .item item
        { c with queue := rest, bounded := Nat.le_of_succ_le (by simpa [same] using c.bounded) }
  | [] => if c.hasSender then .empty else .closed

/-- The sender lets go of its end. -/
def dropSender (c : Channel α) : Channel α := { c with hasSender := false }

/-- The receiver lets go of its end. What lies in the queue stays there. -/
def dropReceiver (c : Channel α) : Channel α := { c with hasReceiver := false }

variable {c c' : Channel α} {item : α}

/-- A new channel is empty. -/
@[simp] theorem queue_new (capacity : Nat) : (new capacity : Channel α).queue = [] := rfl

/-- A new channel has the capacity that was asked for. -/
@[simp] theorem capacity_new (capacity : Nat) : (new capacity : Channel α).capacity = capacity := rfl

/-- A new channel has its sender. -/
@[simp] theorem hasSender_new (capacity : Nat) : (new capacity : Channel α).hasSender = true := rfl

/-- A new channel has its receiver. -/
@[simp] theorem hasReceiver_new (capacity : Nat) :
    (new capacity : Channel α).hasReceiver = true := rfl

/-- What was sent stays in the queue without the sender. -/
@[simp] theorem queue_dropSender : c.dropSender.queue = c.queue := rfl

/-- The capacity does not depend on the sender. -/
@[simp] theorem capacity_dropSender : c.dropSender.capacity = c.capacity := rfl

/-- The sender is gone. -/
@[simp] theorem hasSender_dropSender : c.dropSender.hasSender = false := rfl

/-- The receiver is not concerned by the sender's leave. -/
@[simp] theorem hasReceiver_dropSender : c.dropSender.hasReceiver = c.hasReceiver := rfl

/-- What was sent stays in the queue without the receiver. -/
@[simp] theorem queue_dropReceiver : c.dropReceiver.queue = c.queue := rfl

/-- The capacity does not depend on the receiver. -/
@[simp] theorem capacity_dropReceiver : c.dropReceiver.capacity = c.capacity := rfl

/-- The sender is not concerned by the receiver's leave. -/
@[simp] theorem hasSender_dropReceiver : c.dropReceiver.hasSender = c.hasSender := rfl

/-- The receiver is gone. -/
@[simp] theorem hasReceiver_dropReceiver : c.dropReceiver.hasReceiver = false := rfl

/-- An item that is queued stands last; nothing else changes. -/
structure Queues (c : Channel α) (item : α) (c' : Channel α) : Prop where
  queue : c'.queue = c.queue ++ [item]
  capacity : c'.capacity = c.capacity
  hasSender : c'.hasSender = c.hasSender
  hasReceiver : c'.hasReceiver = true ∧ c.hasReceiver = true

/-- An item that is taken stood first; nothing else changes. -/
structure Takes (c : Channel α) (item : α) (c' : Channel α) : Prop where
  queue : c.queue = item :: c'.queue
  capacity : c'.capacity = c.capacity
  hasSender : c'.hasSender = c.hasSender
  hasReceiver : c'.hasReceiver = c.hasReceiver

/-- An item that is queued lies at the end, with a receiver before it and room for it. -/
theorem send_queued (sent : c.send item = .queued c') : Queues c item c' := by
  unfold send at sent
  split at sent
  · next held =>
    split at sent
    · obtain rfl := Sent.queued.inj sent
      exact ⟨rfl, rfl, rfl, held, held⟩
    · cases sent
  · cases sent

/-- A send finds the channel full exactly if somebody could still empty it. -/
theorem send_full_iff :
    c.send item = .full ↔ c.hasReceiver = true ∧ c.queue.length = c.capacity := by
  have bounded := c.bounded
  unfold send
  split
  · next held =>
    split
    · next room => simp [held, Nat.ne_of_lt room]
    · simp only [held, true_and, true_iff]
      omega
  · next gone => simp [gone]

/-- A send finds the channel closed exactly if the receiver is gone. -/
theorem send_closed_iff : c.send item = .closed ↔ c.hasReceiver = false := by
  unfold send
  split
  · next held => split <;> simp [held]
  · next gone => simpa using gone

/-- An item that is received has lain at the front. -/
theorem recv_item (received : c.recv = .item item c') : Takes c item c' := by
  unfold recv at received
  split at received
  · next first rest same =>
    obtain ⟨rfl, rfl⟩ := Received.item.inj received
    exact ⟨same, rfl, rfl, rfl⟩
  · split at received <;> cases received

/-- There is nothing to receive yet exactly if the queue is empty and the sender is there. -/
theorem recv_empty_iff : c.recv = .empty ↔ c.queue = [] ∧ c.hasSender = true := by
  unfold recv
  split
  · next same => simp [same]
  · next same => split <;> simp_all

/-- There is nothing to receive any more exactly if the queue is empty and the sender is gone.
-/
theorem recv_closed_iff : c.recv = .closed ↔ c.queue = [] ∧ c.hasSender = false := by
  unfold recv
  split
  · next same => simp [same]
  · next same => split <;> simp_all

/-- With room for an item a channel is never full and empty at once: one of its two ends
can always be used. -/
theorem recv_of_full (positive : 0 < c.capacity) (full : c.send item = .full) :
    ∃ first c', c.recv = .item first c' := by
  obtain ⟨-, filled⟩ := send_full_iff.mp full
  cases received : c.recv with
  | item first c' => exact ⟨first, c', rfl⟩
  | empty => simp [(recv_empty_iff.mp received).1] at filled; omega
  | closed => simp [(recv_closed_iff.mp received).1] at filled; omega

/-- What went in, in order, is what came out and then what lies in the queue. -/
def Carries (c : Channel α) (entered left : List α) : Prop := entered = left ++ c.queue

/-- Nothing has gone through a new channel. -/
theorem carries_new (capacity : Nat) : Carries (new capacity : Channel α) [] [] := rfl

/-- What is sent has entered. -/
theorem Carries.queues {entered left : List α} (carries : Carries c entered left)
    (queues : Queues c item c') : Carries c' (entered ++ [item]) left := by
  rw [Carries, queues.queue, ← List.append_assoc, ← show entered = _ from carries]

/-- What is received has left. -/
theorem Carries.takes {entered left : List α} (carries : Carries c entered left)
    (takes : Takes c item c') : Carries c' entered (left ++ [item]) := by
  rw [Carries, show entered = _ from carries, takes.queue]
  simp

end Channel

end Sillage
