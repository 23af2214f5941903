import Sillage.Reader.Conversation

/-!
# A connection comes down

Once the shutdown has been signalled, a bounded number of steps of the customer's own task
is left, and once that task has left its loop, a bounded number of steps of both tasks.
Until then one of them can go on, unless it waits for room in the channel of a client that
neither takes anything nor goes away: nothing limits that wait.
-/

namespace Sillage

open LittleEndian Idx Relation

namespace Connection

open Behaviour

variable {reader : Reader} {ctx : FollowContext} {texts : ErrorTexts} {begin : FollowState}
  {capacity : Nat}

/-- The steps that the replay task has left at most behind a stop. A message is taken, waited
for and sent. -/
def Task.left (t : Task) : Nat :=
  match t.stage with
  | .turning => 1
  | .merging d => 3 * Replay.left d.drive.cursors + 3
  | .pacing d _ => 3 * Replay.left d.drive.cursors + 5
  | .sending d _ => 3 * Replay.left d.drive.cursors + 4
  | .idling => 2
  | .notifying .. => 2
  | .notified .. => 1
  | .returned .. => 0

/-- The steps that the customer's task has left at most behind the shutdown. -/
def Customer.left : Customer → Nat
  | .answering _ => 3
  | .selecting => 2
  | .joining => 1
  | .finished => 0

/-- The steps that both tasks have left at most behind a stop. -/
def State.left (s : State) : Nat := s.replay.left + s.customer.left

/-- A step of the customer's own task. -/
def Action.ofCustomer : Action → Bool
  | .customer _ => true
  | _ => false

/-- A step of one of the two tasks. -/
def Action.ofTasks : Action → Bool
  | .customer _ => true
  | .replay _ => true
  | _ => false

/-! ## The replay task -/

namespace Task

variable {t : Task}

/-- Behind a message the task has no more steps left than its cursors call for. -/
theorem behind_left (d : Driving) (progress : Progress) {cursors : Stream → Option StreamCursor}
    (kept : ∀ drive, progress = .continues drive → drive.cursors = cursors) :
    (t.behind d progress).left ≤ 3 * Replay.left cursors + 3 := by
  cases progress with
  | continues drive =>
    simp only [behind, left, kept drive rfl]
    exact Nat.le_refl _
  | ends exit drive =>
    simp only [behind]
    cases notice exit with
    | none => exact Nat.zero_le _
    | some status => exact Nat.le_add_left 2 (3 * Replay.left cursors + 1)

/-- Handing a message over leaves the cursors as they are. -/
theorem emit_left (d : Driving) (head : Head) (cancelled : Bool) (outcome : SendOutcome)
    (now : Nat) :
    (t.emit reader d head cancelled outcome now).left ≤
      3 * Replay.left d.drive.cursors + 3 := by
  refine behind_left d _ (fun drive goes => ?_)
  have told := @Replay.emit_outcome reader ⟨head.targetNow, cancelled, outcome, now⟩
    head.winner head.item d.drive
  rw [goes] at told
  exact told.2.2.1

/-- A drained pass leaves the task at most one wait and one turn. -/
theorem settle_left (now : Nat) (d : Driving) (drive : DriveState) :
    (t.settle ctx now d drive).left ≤ 2 := by
  rw [settle]
  split
  · exact Nat.zero_le 2
  · split
    · exact Nat.le_succ 1
    · exact Nat.le_refl 2

/-- Taking a message takes it off its cursor. -/
theorem take_left (now : Nat) (d : Driving) :
    (t.take reader ctx texts now d).left + 1 ≤ 3 * Replay.left d.drive.cursors + 3 := by
  rw [take]
  cases taken : Replay.dequeue reader d.drive.cursors d.drive.cache with
  | error error =>
    cases error <;> simp only [left, ended] <;> omega
  | ok found =>
    obtain ⟨head, cursors, cache⟩ := found
    cases head with
    | none => exact (Nat.succ_le_succ (settle_left now d _)).trans (Nat.le_add_left 3 _)
    | some head =>
      obtain ⟨winner, slot, item⟩ := head
      have less := Replay.dequeue_left taken
      dsimp only
      split
      · simp only [left]
        omega
      · simp only [left]
        omega

/-- Behind a stop every step of the replay task brings its end nearer. -/
theorem step_left {channel channel' : Channel Item} {items : List Item} {t' : Task}
    {action : ReplayAction}
    (done : t.step reader ctx texts true channel action = some (items, channel', t')) :
    t'.left + 1 ≤ t.left := by
  obtain ⟨follower, stage⟩ := t
  cases action with
  | turn catalog =>
    cases stage with
    | turning =>
      cases done
      exact Nat.le_refl 1
    | _ => cases done
  | take now =>
    cases stage with
    | merging d =>
      cases done
      exact take_left now d
    | _ => cases done
  | due =>
    cases stage with
    | pacing d head =>
      cases done
      exact Nat.le_refl _
    | _ => cases done
  | cancelled =>
    cases stage with
    | pacing d head =>
      cases done
      exact (Nat.succ_le_succ (emit_left d head true .closed 0)).trans (Nat.le_succ _)
    | idling =>
      cases done
      exact Nat.le_succ 1
    | _ => cases done
  | send now =>
    cases stage with
    | sending d head =>
      simp only [step] at done
      split at done
      · cases done
        exact Nat.succ_le_succ (emit_left d head false .sent now)
      · cases done
      · cases done
        exact Nat.succ_le_succ (emit_left d head false .closed now)
    | _ => cases done
  | timeOut =>
    cases stage with
    | sending d head =>
      simp only [step] at done
      split at done
      · cases done
        exact Nat.succ_le_succ (emit_left d head false .timedOut 0)
      · cases done
    | _ => cases done
  | notify =>
    cases stage with
    | notifying status s reason cut =>
      simp only [step] at done
      split at done
      · cases done
        exact Nat.le_refl 2
      · cases done
      · cases done
        exact Nat.le_refl 2
    | _ => cases done
  | finish =>
    cases stage with
    | notified s reason cut =>
      cases done
      exact Nat.le_refl 1
    | _ => cases done
  | poll =>
    cases stage with
    | idling =>
      cases done
      exact Nat.le_refl 2
    | _ => cases done

/-- Behind a stop the replay task has returned, can take a step, or waits for room in the
channel to tell the client why it ends. -/
theorem step_possible (channel : Channel Item) (t : Task) :
    t.stage.hasReturned = true ∨
      (∃ action, (t.step reader ctx texts true channel action).isSome = true) ∨
      ∃ item, channel.send item = .full := by
  obtain ⟨follower, stage⟩ := t
  cases stage with
  | turning => exact .inr (.inl ⟨.turn Admission.noChunks, rfl⟩)
  | merging d => exact .inr (.inl ⟨.take 0, rfl⟩)
  | pacing d head => exact .inr (.inl ⟨.due, rfl⟩)
  | sending d head =>
    refine .inr (.inl ?_)
    cases sent : channel.send (.update (Replay.toSent (head.winner, head.item))) with
    | queued behind => exact ⟨.send 0, by simp only [step, sent, Option.isSome_some]⟩
    | full => exact ⟨.timeOut, by simp only [step, sent, Option.isSome_some]⟩
    | closed => exact ⟨.send 0, by simp only [step, sent, Option.isSome_some]⟩
  | idling => exact .inr (.inl ⟨.poll, rfl⟩)
  | notifying status s reason cut =>
    refine .inr ?_
    cases sent : channel.send (.status status) with
    | queued behind => exact .inl ⟨.notify, by simp only [step, sent, Option.isSome_some]⟩
    | full => exact .inr ⟨_, sent⟩
    | closed => exact .inl ⟨.notify, by simp only [step, sent, Option.isSome_some]⟩
  | notified s reason cut => exact .inr (.inl ⟨.finish, rfl⟩)
  | returned reason cut => exact .inl rfl

end Task

/-! ## Both tasks -/

variable {s s' v : State} {actions further : List Action} {books more : List Event}

/-- Behind the shutdown every step of the customer's task brings its end nearer, and no other
step concerns it. -/
theorem act_customer {action : Action} (signalled : s.shutdown = true)
    (done : act reader ctx texts s action = some (more, s')) :
    s'.shutdown = true ∧
      s'.customer.left + (if action.ofCustomer then 1 else 0) ≤ s.customer.left := by
  cases action with
  | client action =>
    cases action with
    | receive =>
      simp only [act, State.clientAct] at done
      split at done
      · split at done
        · cases done
          exact ⟨signalled, Nat.le_refl _⟩
        · cases done
      · cases done
    | hangUp =>
      cases done
      exact ⟨signalled, Nat.le_refl _⟩
  | shutdown =>
    cases done
    exact ⟨rfl, Nat.le_refl _⟩
  | customer action =>
    have unseen : ¬ (!s.shutdown) = true := by simp [signalled]
    cases action with
    | shutDown =>
      simp only [act, State.customerAct] at done
      split at done
      · next here =>
        cases done
        exact ⟨signalled, by rw [here.1]; exact Nat.le_refl 2⟩
      · cases done
    | replayEnded =>
      simp only [act, State.customerAct] at done
      split at done
      · next here => exact absurd here.2.1 unseen
      · cases done
    | inbound message =>
      simp only [act, State.customerAct] at done
      split at done
      · next here => exact absurd here.2.1 unseen
      · cases done
    | pong =>
      simp only [act, State.customerAct] at done
      split at done
      · next id answering =>
        split at done
        · cases done
          exact ⟨signalled, by rw [answering]; exact Nat.le_refl 3⟩
        · cases done
        · cases done
          exact ⟨signalled, by rw [answering]; exact Nat.le_succ 2⟩
      · cases done
    | join =>
      simp only [act, State.customerAct] at done
      split at done
      · next here =>
        cases done
        exact ⟨signalled, by rw [here.1]; exact Nat.le_refl 1⟩
      · cases done
  | replay action =>
    obtain ⟨⟨items, channel, replay⟩, -, same⟩ := Option.map_eq_some_iff.mp done
    cases same
    exact ⟨signalled, Nat.le_refl _⟩

/-- Behind a stop every step of the two tasks brings their end nearer. -/
theorem act_tasks {action : Action} (stopped : s.stop = true) (out : ¬ s.customer.Looping)
    (done : act reader ctx texts s action = some (more, s')) :
    s'.stop = true ∧ s'.left + (if action.ofTasks then 1 else 0) ≤ s.left := by
  have notSelecting : s.customer ≠ .selecting := by
    intro selecting
    rw [selecting] at out
    exact out trivial
  cases action with
  | client action =>
    cases action with
    | receive =>
      simp only [act, State.clientAct] at done
      split at done
      · split at done
        · cases done
          exact ⟨stopped, Nat.le_refl _⟩
        · cases done
      · cases done
    | hangUp =>
      cases done
      exact ⟨stopped, Nat.le_refl _⟩
  | shutdown =>
    cases done
    exact ⟨stopped, Nat.le_refl _⟩
  | customer action =>
    cases action with
    | shutDown =>
      simp only [act, State.customerAct] at done
      split at done
      · next here => exact absurd here.1 notSelecting
      · cases done
    | replayEnded =>
      simp only [act, State.customerAct] at done
      split at done
      · next here => exact absurd here.1 notSelecting
      · cases done
    | inbound message =>
      simp only [act, State.customerAct] at done
      split at done
      · next here => exact absurd here.1 notSelecting
      · cases done
    | pong =>
      simp only [act, State.customerAct] at done
      split at done
      · next id answering =>
        rw [answering] at out
        exact absurd trivial out
      · cases done
    | join =>
      simp only [act, State.customerAct] at done
      split at done
      · next here =>
        cases done
        exact ⟨stopped, by rw [State.left, State.left, here.1]; exact Nat.le_refl _⟩
      · cases done
  | replay action =>
    obtain ⟨⟨items, channel, replay⟩, stepped, same⟩ := Option.map_eq_some_iff.mp done
    cases same
    rw [stopped] at stepped
    have nearer := Task.step_left stepped
    refine ⟨stopped, ?_⟩
    simp only [State.left, Action.ofTasks, if_true]
    omega

/-- The channel has no room, and the client could take something out of it. -/
def WaitsForClient (s : State) : Prop :=
  s.channel.hasReceiver = true ∧ s.channel.queue.length = s.channel.capacity ∧
    (s.clientAct .receive).isSome = true

/-- What finds the channel full waits for the client. -/
theorem waitsForClient {item : Item} (positive : 0 < s.channel.capacity)
    (full : s.channel.send item = .full) : WaitsForClient s := by
  obtain ⟨held, filled⟩ := Channel.send_full_iff.mp full
  obtain ⟨first, behind, received⟩ := Channel.recv_of_full positive full
  refine ⟨held, filled, ?_⟩
  simp only [State.clientAct, held, if_true, received, Option.isSome_some]

/-- Once the shutdown has been signalled, at most three steps of the customer's task are left,
and until it has left its loop there is one that it can take, unless it waits to answer a ping.
Once it has left its loop, a bounded number of steps of both tasks is left, and until both have
come to their end there is one that they can take, unless the replay waits to tell why it ends.
In either case a client that holds its end can take what fills the channel. -/
theorem connection_comes_down (reader : Reader) (ctx : FollowContext) (texts : ErrorTexts)
    (capacity now : Nat) (catalog : ChunkCatalog) (plan : ReplayPlan) (indexCache : IndexCache)
    (chunkCache : ChunkCache) {s₀ v s : State} {actions further : List Action}
    {books more : List Event}
    (begun : start ctx capacity now catalog plan indexCache chunkCache = some s₀)
    (ran : Steps (act reader ctx texts) s₀ actions books v)
    (later : Steps (act reader ctx texts) v further more s) :
    (v.shutdown = true →
      s.customer.left + further.countP Action.ofCustomer ≤ v.customer.left ∧
        (s.stop = true ∨ WaitsForClient s ∨
          ∃ action, (s.customerAct action).isSome = true)) ∧
      (v.stop = true → s.left + further.countP Action.ofTasks ≤ v.left ∧
        (s.customer = .finished ∨ WaitsForClient s ∨
          ∃ action, action.ofTasks = true ∧ (act reader ctx texts s action).isSome = true)) := by
  have sound : Sound .. := soundBooks_of_steps begun (ran.trans later)
  have positive : 0 < s.channel.capacity := by
    rw [sound.capacity]
    unfold start at begun
    split at begun
    · cases begun
    · next notZero => exact Nat.pos_of_ne_zero notZero
  constructor
  · intro signalled
    have stays : ∀ {further more s}, Steps (act reader ctx texts) v further more s →
        s.shutdown = true := fun later =>
      later.keeps (fun _ s => s.shutdown = true) signalled
        (fun _ _ _ _ _ before done => (act_customer before done).1)
    refine ⟨later.ranked_along (fun s => s.customer.left) Action.ofCustomer
      (fun _ _ => trivial)
      (fun _ _ _ _ _ _ earlier _ _ done => (act_customer (stays earlier) done).2), ?_⟩
    cases customer : s.customer with
    | selecting =>
      refine .inr (.inr ⟨.shutDown, ?_⟩)
      simp only [State.customerAct, customer, stays later, and_self, if_true, Option.isSome_some]
    | answering id =>
      cases sent : s.channel.send (.pong id) with
      | queued behind =>
        refine .inr (.inr ⟨.pong, ?_⟩)
        simp only [State.customerAct, customer, sent, Option.isSome_some]
      | full => exact .inr (.inl (waitsForClient positive sent))
      | closed =>
        refine .inr (.inr ⟨.pong, ?_⟩)
        simp only [State.customerAct, customer, sent, Option.isSome_some]
    | joining => exact .inl (sound.out (by rw [customer]; exact id)).1
    | finished => exact .inl (sound.out (by rw [customer]; exact id)).1
  · intro stopped
    have out : ∀ {books s}, SoundBooks reader ctx texts
        (Follow.started ctx now catalog plan indexCache chunkCache) capacity books s →
        s.stop = true → ¬ s.customer.Looping := by
      intro books s sound isStopped looping
      cases isStopped.symm.trans (sound.looping looping).2
    have stays : ∀ {further more s}, Steps (act reader ctx texts) v further more s →
        s.stop = true ∧ ¬ s.customer.Looping := by
      intro further more s later
      obtain ⟨isStopped, sound⟩ := later.keeps
        (fun more s => s.stop = true ∧ SoundBooks reader ctx texts
          (Follow.started ctx now catalog plan indexCache chunkCache) capacity (books ++ more) s)
        ⟨stopped, (List.append_nil books).symm ▸ soundBooks_of_steps begun ran⟩
        (fun more s action new s' before done => by
          obtain ⟨isStopped, sound⟩ := before
          rw [← List.append_assoc]
          exact ⟨(act_tasks isStopped (out sound isStopped) done).1, sound.step rfl done⟩)
      exact ⟨isStopped, out sound isStopped⟩
    refine ⟨later.ranked_along State.left Action.ofTasks
      (fun _ _ => trivial)
      (fun _ _ _ _ _ _ earlier _ _ done =>
        (act_tasks (stays earlier).1 (stays earlier).2 done).2), ?_⟩
    obtain ⟨isStopped, isOut⟩ := stays later
    cases customer : s.customer with
    | selecting =>
      rw [customer] at isOut
      exact absurd trivial isOut
    | answering id =>
      rw [customer] at isOut
      exact absurd trivial isOut
    | finished => exact .inl rfl
    | joining =>
      refine .inr ?_
      rcases @Task.step_possible reader ctx texts s.channel s.replay with
        returned | ⟨action, possible⟩ | ⟨item, full⟩
      · refine .inr ⟨.customer .join, rfl, ?_⟩
        simp only [act, State.customerAct, customer, returned, and_self, if_true,
          Option.isSome_some]
      · refine .inr ⟨.replay action, rfl, ?_⟩
        rw [act, isStopped, Option.isSome_map]
        exact possible
      · exact .inl (waitsForClient positive full)

/-- A connection that is shut down behind its first message. -/
def shutDownEarly : List Action :=
  [.replay (.turn twoBlocksCatalog), .replay (.take 0), .replay .due, .replay (.send 0), .shutdown,
    .customer .shutDown]

/-- The message that waits to be sent is given up, and the connection is gone. -/
def comingDown : List Action := [.replay (.take 0), .replay .cancelled, .customer .join]

/-- Three steps of the tasks take that connection down. -/
theorem connection_comes_down_early : ∃ v s further more,
    v.shutdown = true ∧ v.stop = true ∧ Steps (act twoBlocks unpaced bareTexts) v further more s ∧
      s.customer.left + further.countP Action.ofCustomer ≤ v.customer.left ∧
      s.left + 3 ≤ v.left := by
  have runs : (runFrom 1 shutDownEarly).any (fun ran => ran.2.shutdown = true ∧
      ran.2.stop = true ∧ (acts (act twoBlocks unpaced bareTexts) ran.2 comingDown).isSome = true) =
        true := by
    decide +kernel
  obtain ⟨⟨books, v⟩, ran, all⟩ := (Option.any_eq_true _ _).mp runs
  obtain ⟨signalled, stopped, goes⟩ := of_decide_eq_true all
  obtain ⟨⟨more, s⟩, after⟩ := Option.isSome_iff_exists.mp goes
  obtain ⟨plan, indexCache, s₀, begun, before⟩ := steps_of_runFrom ran
  have later := steps_of_acts after
  obtain ⟨customer, tasks⟩ := connection_comes_down twoBlocks unpaced bareTexts 1 0
    twoBlocksCatalog plan indexCache .new begun before later
  exact ⟨v, s, comingDown, more, signalled, stopped, later, (customer signalled).1,
    (tasks stopped).1⟩

end Connection

end Sillage
