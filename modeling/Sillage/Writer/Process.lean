import Mathlib.Logic.Function.Basic
import Sillage.Writer.Delivery
import Sillage.Writer.Interruption

/-!
# The writer's process

At the start the recovery sweeps the directories and finds the slot that each stream
resumes from; then a lane runs for each stream. A signal cancels all lanes, and the main
task waits until every one of them has returned. If one returned with an error the process
exits at once with status 1. Otherwise the uploader is granted some more seconds before it
is cancelled too, and the process exits with status 0.

When a connection is made, when the signal comes and whose turn it is are part of the
actions. The uploader's own steps are not here; only its cancellation is. Nor are the settings,
the sweep of the recovery and whatever else may fail before the lanes are there: a process that
does not come that far exits at once.
-/

namespace Sillage.Process

open Directory Chunker Behaviour Lane

/-- A lane's task: it connects and sets itself up, runs, or has returned from the setup with
an error or a panic. -/
inductive LaneTask where
  | connecting
  | up (tasks : Tasks)
  | broken

/-- Where the main task is: it waits for the lanes, lets the uploader's last scans go on,
waits for the uploader, or has left with a status. -/
inductive Main where
  | joining
  | grace
  | awaiting
  | exited (status : Nat)
deriving DecidableEq

/-- The three lanes, the main task, and the signals. -/
structure State where
  lanes : Stream → LaneTask
  laneShutdown : Bool
  uploaderShutdown : Bool
  main : Main

/-- What the process is configured with and finds on disk. -/
structure Setup where
  cfg : WriterConfig
  channelCapacity : Nat
  dirs : Recovery.Dirs

/-- The directory that a lane starts over. -/
def Setup.dir (setup : Setup) (stream : Stream) : Dir := (Recovery.runRecovery setup.dirs).1 stream

/-- The slot that a lane asks its stream to resume from. -/
def Setup.fromSlot (setup : Setup) (stream : Stream) : Option Nat :=
  Recovery.resumeSlotOf (Recovery.runRecovery setup.dirs).2 stream

/-- What happens next to the process. -/
inductive Action where
  | connect (stream : Stream) (succeeds : Bool)
  | lane (stream : Stream) (action : Lane.Action)
  | signal
  | signalHandlerFails
  | join
  | graceOver
  | uploaderEnds
deriving DecidableEq

/-- What goes into the books: the entries of the lanes, and that nobody listens for signals. -/
inductive Event where
  | lane (stream : Stream) (event : Lane.Event)
  | signalHandlerFailed
deriving DecidableEq

/-- The process behind its startup, before any lane is connected. -/
def start : State where
  lanes _ := .connecting
  laneShutdown := false
  uploaderShutdown := false
  main := .joining

/-- What a lane's task returned, if it has: whether it was without an error. -/
def LaneTask.result : LaneTask → Option Bool
  | .connecting => none
  | .broken => some false
  | .up tasks =>
      match tasks.forwarder with
      | .finished _ => some true
      | .failed _ => some false
      | _ => none

/-- Cancel the lanes, now and those that are still to come up. -/
def cancelLane : LaneTask → LaneTask
  | .up tasks => .up { tasks with cancelled := true }
  | task => task

/-- All lanes are told to stop. -/
def State.cancelLanes (p : State) : State :=
  { p with lanes := fun stream => cancelLane (p.lanes stream), laneShutdown := true }

/-- The task of one lane goes on. -/
def State.withLane (p : State) (stream : Stream) (task : LaneTask) : State :=
  { p with lanes := Function.update p.lanes stream task }

/-- The setup of a lane behind its connection. -/
def setUp (setup : Setup) (cancelled : Bool) (stream : Stream) : LaneTask :=
  match Lane.start stream setup.cfg (setup.dir stream) setup.channelCapacity with
  | none => .broken
  | some tasks => .up { tasks with cancelled := cancelled }

/-- The effect of an action, if it can be taken. When the main task has left, no other task
goes on. -/
def act (k : Codecs) (setup : Setup) : Behaviour State Action Event :=
  fun p action =>
    match p.main, action with
    | .exited _, _ => none
    | _, .connect stream succeeds =>
        match p.lanes stream with
        | .connecting =>
            let task := if succeeds then setUp setup p.laneShutdown stream else .broken
            some ([], p.withLane stream task)
        | _ => none
    | _, .lane stream action =>
        -- a lane's shutdown is signalled to all lanes at once
        if action = .cancel then none
        else
          match p.lanes stream with
          | .up tasks => do
              let (more, tasks) ← Lane.act k (setup.fromSlot stream) tasks action
              some (more.map (.lane stream), p.withLane stream (.up tasks))
          | _ => none
    | _, .signal => some ([], p.cancelLanes)
    | _, .signalHandlerFails =>
        some ([.signalHandlerFailed], { p.cancelLanes with uploaderShutdown := true })
    | .joining, .join =>
        if ∀ stream, (p.lanes stream).result = some true then some ([], { p with main := .grace })
        else if ∀ stream, (p.lanes stream).result.isSome = true then
          some ([], { p with uploaderShutdown := true, main := .exited 1 })
        else none
    | .grace, .graceOver => some ([], { p with uploaderShutdown := true, main := .awaiting })
    | .awaiting, .uploaderEnds => some ([], { p with main := .exited 0 })
    | _, _ => none

/-- A run of the process from its start. -/
abbrev Runs (k : Codecs) (setup : Setup) : List Action → List Event → State → Prop :=
  Steps (act k setup) start

/-- The entries of one lane. -/
def Event.of (stream : Stream) : Event → Option Lane.Event
  | .lane stream' event => if stream' = stream then some event else none
  | .signalHandlerFailed => none

/-- What a lane's events tell, they tell of that lane. -/
@[simp] theorem told_lane (stream stream' : Stream) (more : List Lane.Event) :
    told (Event.of stream) (more.map (.lane stream')) = if stream' = stream then more else [] := by
  induction more with
  | nil => simp
  | cons event rest inductionHypothesis =>
    rw [List.map_cons, told_cons, inductionHypothesis, Event.of]
    split <;> rfl

/-! ## What a step does -/

/-- What an action can do, one case for each thing that can happen. -/
inductive Stepped (k : Codecs) (setup : Setup) (p : State) : Action → List Event → State → Prop where
  | connects (stream : Stream) (connecting : p.lanes stream = .connecting) :
      Stepped k setup p (.connect stream true) []
        (p.withLane stream (setUp setup p.laneShutdown stream))
  | breaks (stream : Stream) (connecting : p.lanes stream = .connecting) :
      Stepped k setup p (.connect stream false) [] (p.withLane stream .broken)
  | steps (stream : Stream) (action : Lane.Action) (tasks tasks' : Tasks) (more : List Lane.Event)
      (isUp : p.lanes stream = .up tasks) (own : action ≠ .cancel)
      (done : Lane.act k (setup.fromSlot stream) tasks action = some (more, tasks')) :
      Stepped k setup p (.lane stream action) (more.map (.lane stream))
        (p.withLane stream (.up tasks'))
  | signalled : Stepped k setup p .signal [] p.cancelLanes
  | deaf : Stepped k setup p .signalHandlerFails [.signalHandlerFailed]
      { p.cancelLanes with uploaderShutdown := true }
  | joins (joining : p.main = .joining) (all : ∀ stream, (p.lanes stream).result = some true) :
      Stepped k setup p .join [] { p with main := .grace }
  | fails (joining : p.main = .joining) (all : ∀ stream, (p.lanes stream).result.isSome = true)
      (some : ∃ stream, (p.lanes stream).result = some false) :
      Stepped k setup p .join [] { p with uploaderShutdown := true, main := .exited 1 }
  | waited (grace : p.main = .grace) :
      Stepped k setup p .graceOver [] { p with uploaderShutdown := true, main := .awaiting }
  | exits (awaiting : p.main = .awaiting) :
      Stepped k setup p .uploaderEnds [] { p with main := .exited 0 }

variable {k : Codecs} {setup : Setup}

/-- Every action does one of these things, and none when the main task has left. -/
theorem act_stepped {p p' : State} {action : Action} {more : List Event}
    (done : act k setup p action = some (more, p')) :
    Stepped k setup p action more p' ∧ ∀ status, p.main ≠ .exited status := by
  have running : ∀ status, p.main ≠ .exited status := by
    intro status left
    simp [act, left] at done
  refine ⟨?_, running⟩
  unfold act at done
  split at done
  · cases done
  · next stream succeeds _ =>
    split at done
    · next connecting =>
      obtain ⟨rfl, rfl⟩ := Prod.mk.inj (Option.some.inj done)
      cases succeeds with
      | true => exact .connects stream connecting
      | false => exact .breaks stream connecting
    · cases done
  · next stream action _ =>
    split at done
    · cases done
    · next own =>
      split at done
      · next tasks isUp =>
        rw [Option.bind_eq_bind, Option.bind_eq_some_iff] at done
        obtain ⟨⟨more, tasks'⟩, stepped, done⟩ := done
        obtain ⟨rfl, rfl⟩ := Prod.mk.inj (Option.some.inj done)
        exact .steps stream action tasks tasks' more isUp own stepped
      · cases done
  · obtain ⟨rfl, rfl⟩ := Prod.mk.inj (Option.some.inj done)
    exact .signalled
  · obtain ⟨rfl, rfl⟩ := Prod.mk.inj (Option.some.inj done)
    exact .deaf
  · next joining =>
    split at done
    · next all =>
      obtain ⟨rfl, rfl⟩ := Prod.mk.inj (Option.some.inj done)
      exact .joins joining all
    · next not =>
      split at done
      · next all =>
        obtain ⟨rfl, rfl⟩ := Prod.mk.inj (Option.some.inj done)
        obtain ⟨stream, other⟩ := not_forall.mp not
        obtain ⟨result, returned⟩ := Option.isSome_iff_exists.mp (all stream)
        cases result with
        | true => exact absurd returned other
        | false => exact .fails joining all ⟨stream, returned⟩
      · cases done
  · next grace =>
    obtain ⟨rfl, rfl⟩ := Prod.mk.inj (Option.some.inj done)
    exact .waited grace
  · next awaiting =>
    obtain ⟨rfl, rfl⟩ := Prod.mk.inj (Option.some.inj done)
    exact .exits awaiting
  · cases done

/-! ## What is kept -/

/-- A task that has returned stays as it returned, whatever is left of it still does. -/
theorem result_step {fromSlot : Option Nat} {tasks tasks' : Tasks} {action : Lane.Action}
    {more : List Lane.Event} {result : Bool}
    (done : Lane.act k fromSlot tasks action = some (more, tasks'))
    (returned : (LaneTask.up tasks).result = some result) :
    (LaneTask.up tasks').result = some result := by
  have out : tasks.forwarder ≠ .selecting ∧ (∀ stamped, tasks.forwarder ≠ .sending stamped) ∧
      tasks.forwarder ≠ .joining := by
    refine ⟨?_, ?_, ?_⟩ <;> intros <;> intro same <;> simp [LaneTask.result, same] at returned
  cases Lane.act_stepped done with
  | arrives _ selecting => exact absurd selecting out.1
  | breaks selecting => exact absurd selecting out.1
  | leaves _ selecting _ => exact absurd selecting out.1
  | queues stamped _ sending _ => exact absurd sending (out.2.1 stamped)
  | refused stamped sending _ => exact absurd sending (out.2.1 stamped)
  | joins _ _ joining _ => exact absurd joining out.2.2
  | inherits _ joining _ => exact absurd joining out.2.2
  | signalled => exact returned
  | ticks _ _ _ _ _ => exact returned
  | gives _ _ _ _ _ => exact returned
  | skips _ _ _ _ _ _ _ _ => exact returned
  | ingests _ _ _ _ _ _ _ _ _ _ => exact returned
  | chokes _ _ _ _ _ _ _ _ _ _ => exact returned
  | drains _ _ _ _ _ _ => exact returned

/-- Telling a lane to stop does not settle its result. -/
theorem result_cancelLane (task : LaneTask) : (cancelLane task).result = task.result := by
  cases task <;> rfl

/-- No step takes back what a lane returned. -/
theorem Stepped.result {p p' : State} {action : Action} {more : List Event} {stream : Stream}
    {result : Bool} (stepped : Stepped k setup p action more p')
    (returned : (p.lanes stream).result = some result) :
    (p'.lanes stream).result = some result := by
  cases stepped with
  | connects stream' connecting =>
    have other : stream ≠ stream' := by
      rintro rfl
      simp [connecting, LaneTask.result] at returned
    simpa [State.withLane, other] using returned
  | breaks stream' connecting =>
    have other : stream ≠ stream' := by
      rintro rfl
      simp [connecting, LaneTask.result] at returned
    simpa [State.withLane, other] using returned
  | steps stream' action tasks tasks' more isUp _ done =>
    by_cases same : stream = stream'
    · subst same
      rw [isUp] at returned
      simpa [State.withLane] using result_step done returned
    · simpa [State.withLane, same] using returned
  | signalled => simpa [State.cancelLanes, result_cancelLane] using returned
  | deaf => simpa [State.cancelLanes, result_cancelLane] using returned
  | joins _ _ => exact returned
  | fails _ _ _ => exact returned
  | waited _ => exact returned
  | exits _ => exact returned

/-- What the main task's place tells about the lanes and about the uploader's shutdown. -/
def MainSound (books : List Event) (p : State) : Prop :=
  match p.main with
  | .joining => p.uploaderShutdown = true → .signalHandlerFailed ∈ books
  | .exited (status + 1) => status = 0 ∧ (∀ stream, (p.lanes stream).result.isSome = true) ∧
      ∃ stream, (p.lanes stream).result = some false
  | _ => ∀ stream, (p.lanes stream).result = some true

/-- What holds of the process behind every step. -/
structure Sound (k : Codecs) (setup : Setup) (books : List Event) (p : State) : Prop where
  lanes : ∀ stream tasks, p.lanes stream = .up tasks →
    0 < setup.channelCapacity ∧
      Lane.Sound k stream setup.cfg (setup.dir stream) setup.channelCapacity
        (setup.fromSlot stream) (told (Event.of stream) books) tasks
  idle : ∀ stream, p.lanes stream = .connecting → told (Event.of stream) books = []
  cancelled : p.laneShutdown = true → ∀ stream tasks, p.lanes stream = .up tasks →
    tasks.cancelled = true
  main : MainSound books p

/-- A process that has just started is sound. -/
theorem Sound.start : Sound k setup [] start where
  lanes := fun stream tasks isUp => by cases isUp
  idle := fun _ _ => rfl
  cancelled := fun cancelled => by cases cancelled
  main := fun cancelled => by cases cancelled

/-- Where the main task does not move, what its place tells stays true. -/
theorem MainSound.keep {books more : List Event} {p p' : State} (sound : MainSound books p)
    (main : p'.main = p.main)
    (shutdown : p'.uploaderShutdown = true → p.uploaderShutdown = true ∨
      Event.signalHandlerFailed ∈ more)
    (kept : ∀ stream result, (p.lanes stream).result = some result →
      (p'.lanes stream).result = some result) : MainSound (books ++ more) p' := by
  unfold MainSound at sound ⊢
  rw [main]
  split
  · next joining =>
    rw [joining] at sound
    intro cancelled
    rcases shutdown cancelled with before | now
    · exact List.mem_append_left _ (sound before)
    · exact List.mem_append_right _ now
  · next status left =>
    rw [left] at sound
    obtain ⟨one, all, stream, failed⟩ := sound
    refine ⟨one, fun stream => ?_, stream, kept stream false failed⟩
    obtain ⟨result, returned⟩ := Option.isSome_iff_exists.mp (all stream)
    rw [kept stream result returned]
    rfl
  · next notJoining notFailed =>
    intro stream
    refine kept stream true ?_
    cases isMain : p.main with
    | joining => exact absurd isMain notJoining
    | grace => rw [isMain] at sound; exact sound stream
    | awaiting => rw [isMain] at sound; exact sound stream
    | exited status =>
      cases status with
      | zero => rw [isMain] at sound; exact sound stream
      | succ status => exact absurd isMain (notFailed status)

/-- A lane that the process touches in no other way than by cancelling it. -/
theorem up_cancelLane {task : LaneTask} {tasks : Tasks} (isUp : cancelLane task = .up tasks) :
    ∃ before, task = .up before ∧ tasks = { before with cancelled := true } := by
  cases task with
  | up before => exact ⟨before, rfl, (LaneTask.up.inj isUp).symm⟩
  | connecting => cases isUp
  | broken => cases isUp

/-- A lane stays sound when it is told to stop. -/
theorem Lane.Sound.cancel {stream : Stream} {cfg : WriterConfig} {dir : Dir} {capacity : Nat}
    {fromSlot : Option Nat} {books : List Lane.Event} {tasks : Tasks} (cancelled : Bool)
    (sound : Lane.Sound k stream cfg dir capacity fromSlot books tasks) :
    Lane.Sound k stream cfg dir capacity fromSlot books { tasks with cancelled := cancelled } :=
  ⟨sound.carried, sound.lost, sound.consumes, sound.follows, sound.reported, sound.capacity,
    sound.hasSender, sound.hasReceiver, sound.emptied⟩

variable {books more : List Event} {p p' : State}

/-- The signal cancels the lanes that are up and leaves everything else as it is. -/
theorem Sound.cancelLanes (sound : Sound k setup books p) (lanes : p'.lanes = p.cancelLanes.lanes)
    (silent : ∀ stream, told (Event.of stream) more = [])
    (main : MainSound (books ++ more) p') : Sound k setup (books ++ more) p' where
  lanes := by
    intro stream tasks isUp
    rw [lanes] at isUp
    obtain ⟨before, wasUp, rfl⟩ := up_cancelLane isUp
    obtain ⟨positive, held⟩ := sound.lanes stream before wasUp
    refine ⟨positive, ?_⟩
    rw [told_append, silent, List.append_nil]
    exact Lane.Sound.cancel true held
  idle := by
    intro stream connecting
    rw [told_append, silent, List.append_nil]
    apply sound.idle
    rw [lanes] at connecting
    cases task : p.lanes stream with
    | connecting => rfl
    | up tasks => simp [State.cancelLanes, task, cancelLane] at connecting
    | broken => simp [State.cancelLanes, task, cancelLane] at connecting
  cancelled := by
    intro _ stream tasks isUp
    rw [lanes] at isUp
    obtain ⟨before, -, rfl⟩ := up_cancelLane isUp
    rfl
  main := main

/-- One lane changes, and only it writes into the books. -/
theorem Sound.withLane (sound : Sound k setup books p) {stream : Stream} {task : LaneTask}
    (silent : ∀ other, other ≠ stream → told (Event.of other) more = [])
    (up : ∀ tasks, task = .up tasks → 0 < setup.channelCapacity ∧
      Lane.Sound k stream setup.cfg (setup.dir stream) setup.channelCapacity
        (setup.fromSlot stream) (told (Event.of stream) (books ++ more)) tasks)
    (notIdle : task ≠ .connecting)
    (cancelled : p.laneShutdown = true → ∀ tasks, task = .up tasks → tasks.cancelled = true)
    (main : MainSound (books ++ more) (p.withLane stream task)) :
    Sound k setup (books ++ more) (p.withLane stream task) where
  lanes := by
    intro other tasks isUp
    by_cases same : other = stream
    · subst same
      exact up tasks (by simpa [State.withLane] using isUp)
    · rw [told_append, silent other same, List.append_nil]
      exact sound.lanes other tasks (by simpa [State.withLane, same] using isUp)
  idle := by
    intro other connecting
    by_cases same : other = stream
    · subst same
      exact absurd (by simpa [State.withLane] using connecting) notIdle
    · rw [told_append, silent other same, List.append_nil]
      exact sound.idle other (by simpa [State.withLane, same] using connecting)
  cancelled := by
    intro shutdown other tasks isUp
    by_cases same : other = stream
    · subst same
      exact cancelled shutdown tasks (by simpa [State.withLane] using isUp)
    · exact sound.cancelled shutdown other tasks (by simpa [State.withLane, same] using isUp)
  main := main

/-- Every step keeps what holds of the process. -/
theorem Sound.step {action : Action} (sound : Sound k setup books p)
    (done : act k setup p action = some (more, p')) : Sound k setup (books ++ more) p' := by
  obtain ⟨stepped, running⟩ := act_stepped done
  have kept : ∀ stream result, (p.lanes stream).result = some result →
      (p'.lanes stream).result = some result := fun _ _ returned => stepped.result returned
  cases stepped with
  | connects stream connecting =>
    refine sound.withLane (fun _ _ => rfl) ?_ ?_ ?_ (sound.main.keep rfl .inl kept)
    · intro tasks isUp
      unfold setUp at isUp
      split at isUp
      · cases isUp
      · next tasks₀ started =>
        obtain rfl := LaneTask.up.inj isUp
        rw [told_append, sound.idle stream connecting]
        exact ⟨start_positive started, Lane.Sound.cancel p.laneShutdown (Lane.Sound.start started)⟩
    · unfold setUp
      split <;> simp
    · intro shutdown tasks isUp
      unfold setUp at isUp
      split at isUp
      · cases isUp
      · obtain rfl := LaneTask.up.inj isUp
        exact shutdown
  | breaks stream connecting =>
    exact sound.withLane (fun _ _ => rfl) (fun _ isUp => by cases isUp) (by simp)
      (fun _ _ isUp => by cases isUp) (sound.main.keep rfl .inl kept)
  | steps stream action tasks tasks' more isUp _ ran =>
    obtain ⟨positive, held⟩ := sound.lanes stream tasks isUp
    refine sound.withLane (fun other differs => ?_) ?_ (by simp) ?_ (sound.main.keep rfl .inl kept)
    · rw [told_lane, if_neg (Ne.symm differs)]
    · intro after same
      obtain rfl := LaneTask.up.inj same
      rw [told_append, told_lane, if_pos rfl]
      exact ⟨positive, held.step (Lane.act_stepped ran)⟩
    · intro shutdown after same
      obtain rfl := LaneTask.up.inj same
      exact (Lane.act_stepped ran).cancelled (sound.cancelled shutdown stream tasks isUp)
  | signalled =>
    exact sound.cancelLanes rfl (fun _ => rfl) (sound.main.keep rfl .inl kept)
  | deaf =>
    exact sound.cancelLanes rfl (fun _ => rfl)
      (sound.main.keep rfl (fun _ => .inr (List.mem_singleton_self _)) kept)
  | joins joining all =>
    rw [List.append_nil]
    exact ⟨sound.lanes, sound.idle, sound.cancelled, all⟩
  | fails joining all failed =>
    rw [List.append_nil]
    exact ⟨sound.lanes, sound.idle, sound.cancelled, rfl, all, failed⟩
  | waited grace =>
    have main := sound.main
    rw [MainSound, grace] at main
    rw [List.append_nil]
    exact ⟨sound.lanes, sound.idle, sound.cancelled, main⟩
  | exits awaiting =>
    have main := sound.main
    rw [MainSound, awaiting] at main
    rw [List.append_nil]
    exact ⟨sound.lanes, sound.idle, sound.cancelled, main⟩

/-- What holds of the process behind every run. -/
theorem Sound.runs {actions : List Action} (ran : Runs k setup actions books p) :
    Sound k setup books p :=
  ran.keeps _ .start (fun _ _ _ _ _ sound done => sound.step done)

/-! ## Coming down -/

/-- The steps that bring the process down. -/
def Action.drains : Action → Bool
  | .connect _ _ => true
  | .lane _ action => action.drains
  | .join => true
  | .graceOver => true
  | .uploaderEnds => true
  | _ => false

/-- A bound on the steps that a lane's task has left. -/
def LaneTask.rank : LaneTask → Nat
  | .connecting => 4
  | .up tasks => tasks.rank
  | .broken => 0

/-- The steps that the main task has left at most. -/
def Main.rank : Main → Nat
  | .joining => 3
  | .grace => 2
  | .awaiting => 1
  | .exited _ => 0

/-- The steps that the process has left at most behind the signal. -/
def State.rank (p : State) : Nat :=
  (p.lanes .tx).rank + (p.lanes .acct).rank + (p.lanes .block).rank + p.main.rank

/-- What a lane has left counts for the process. -/
theorem rank_withLane (p : State) (stream : Stream) (task : LaneTask) :
    (p.withLane stream task).rank + (p.lanes stream).rank = p.rank + task.rank := by
  cases stream <;> simp [State.rank, State.withLane] <;> omega

/-- Telling the lanes to stop takes no step from them. -/
theorem rank_cancelLanes (p : State) : p.cancelLanes.rank = p.rank := by
  have same : ∀ task : LaneTask, (cancelLane task).rank = task.rank := by
    intro task
    cases task <;> rfl
  simp [State.rank, State.cancelLanes, same]

/-- Nothing new arrives from a stream. -/
def Silent (action : Action) : Prop :=
  ∀ stream stamped, action ≠ .lane stream (.next (.message stamped))

/-- Unless a message arrives no step raises the rank, and a step on the way down lowers it. -/
theorem rank_step {action : Action} (silent : Silent action)
    (stepped : Stepped k setup p action more p') :
    p'.rank + (if action.drains then 1 else 0) ≤ p.rank := by
  cases stepped with
  | connects stream connecting =>
    have moved := rank_withLane p stream (setUp setup p.laneShutdown stream)
    have low : (setUp setup p.laneShutdown stream).rank ≤ 3 := by
      unfold setUp
      split
      · exact Nat.zero_le _
      · next started =>
        unfold Lane.start at started
        split at started
        · cases started
        · obtain rfl := Option.some.inj started
          exact Nat.le_refl 3
    rw [connecting, LaneTask.rank] at moved
    simp only [Action.drains, if_true]
    omega
  | breaks stream connecting =>
    have moved := rank_withLane p stream .broken
    rw [connecting, LaneTask.rank, LaneTask.rank] at moved
    simp only [Action.drains, if_true]
    omega
  | steps stream action tasks tasks' more isUp _ done =>
    have moved := rank_withLane p stream (.up tasks')
    rw [isUp, LaneTask.rank, LaneTask.rank] at moved
    have lowered := Lane.rank_step (fun stamped same => silent stream stamped (same ▸ rfl))
      (Lane.act_stepped done)
    change _ + (if action.drains = true then 1 else 0) ≤ _
    omega
  | signalled => simp [rank_cancelLanes, Action.drains]
  | deaf => exact (rank_cancelLanes p).le
  | joins joining _ => simp [State.rank, joining, Main.rank, Action.drains]
  | fails joining _ _ => simp [State.rank, joining, Main.rank, Action.drains]
  | waited grace => simp [State.rank, grace, Main.rank, Action.drains]
  | exits awaiting => simp [State.rank, awaiting, Main.rank, Action.drains]

/-- A signal is not taken back. -/
theorem Stepped.shutdown {action : Action} (stepped : Stepped k setup p action more p')
    (cancelled : p.laneShutdown = true) : p'.laneShutdown = true := by
  cases stepped with
  | signalled => rfl
  | deaf => rfl
  | _ => exact cancelled

/-- The process has exited or can take a step on the way down. -/
def Descends (k : Codecs) (setup : Setup) (p : State) : Prop :=
  (∃ status, p.main = .exited status) ∨
    ∃ action, action.drains = true ∧ (act k setup p action).isSome = true

/-- A process whose lanes are cancelled comes down, once the connections are through. -/
theorem Sound.progress (sound : Sound k setup books p) (cancelled : p.laneShutdown = true) :
    Descends k setup p := by
  cases isMain : p.main with
  | exited status => exact .inl ⟨status, isMain⟩
  | grace => exact .inr ⟨.graceOver, rfl, by simp [act, isMain]⟩
  | awaiting => exact .inr ⟨.uploaderEnds, rfl, by simp [act, isMain]⟩
  | joining =>
    by_cases all : ∀ stream, (p.lanes stream).result.isSome = true
    · refine .inr ⟨.join, rfl, ?_⟩
      simp only [act, isMain]
      split
      · rfl
      · rfl
    · obtain ⟨stream, running⟩ := not_forall.mp all
      cases task : p.lanes stream with
      | broken => simp [task, LaneTask.result] at running
      | connecting => exact .inr ⟨.connect stream true, rfl, by simp [act, isMain, task]⟩
      | up tasks =>
        obtain ⟨positive, held⟩ := sound.lanes stream tasks task
        rcases held.progress positive (.inl (sound.cancelled cancelled stream tasks task)) with
          ended | ⟨action, drains, enabled⟩
        · rcases ended.1 with ⟨total, finished⟩ | ⟨error, failed⟩
          · simp [task, LaneTask.result, finished] at running
          · simp [task, LaneTask.result, failed] at running
        · refine .inr ⟨.lane stream action, drains, ?_⟩
          have own : action ≠ .cancel := by
            rintro rfl
            cases drains
          obtain ⟨⟨more, tasks'⟩, done⟩ := Option.isSome_iff_exists.mp enabled
          simp [act, isMain, own, task, done]

/-! ## The results -/

/-- A process whose startup has succeeded exits with status 0 or 1, and only when every lane
has returned: with 0 if none of them returned an error, with 1 otherwise. Before all lanes have
returned, the uploader is cancelled only if no signal can be waited for. -/
theorem process_exits (k : Codecs) (setup : Setup) (actions : List Action) (books : List Event)
    (p : State) (ran : Runs k setup actions books p) :
    (∀ status, p.main = .exited status →
      status = 0 ∧ (∀ stream, (p.lanes stream).result = some true) ∨
        status = 1 ∧ (∀ stream, (p.lanes stream).result.isSome = true) ∧
          ∃ stream, (p.lanes stream).result = some false) ∧
      (p.uploaderShutdown = true → .signalHandlerFailed ∈ books ∨
        ∀ stream, (p.lanes stream).result.isSome = true) := by
  have main := (Sound.runs ran).main
  have returned (all : ∀ stream, (p.lanes stream).result = some true) (stream : Stream) :
      (p.lanes stream).result.isSome = true := by rw [all stream]; rfl
  unfold MainSound at main
  cases isMain : p.main with
  | joining =>
    rw [isMain] at main
    exact ⟨fun _ left => (nomatch left), fun cancelled => .inl (main cancelled)⟩
  | grace =>
    rw [isMain] at main
    exact ⟨fun _ left => (nomatch left), fun _ => .inr (returned main)⟩
  | awaiting =>
    rw [isMain] at main
    exact ⟨fun _ left => (nomatch left), fun _ => .inr (returned main)⟩
  | exited status =>
    cases status with
    | zero =>
      rw [isMain] at main
      refine ⟨fun status left => .inl ⟨?_, main⟩, fun _ => .inr (returned main)⟩
      exact (Main.exited.inj left).symm
    | succ status =>
      rw [isMain] at main
      obtain ⟨rfl, all, failed⟩ := main
      exact ⟨fun status left => .inr ⟨(Main.exited.inj left).symm, all, failed⟩, fun _ => .inr all⟩

/-- Three lanes over empty directories come up, one of them takes a message, and the signal
comes. -/
def loneUp : List Action :=
  [.connect .tx true, .connect .acct true, .connect .block true,
    .lane .block (.next (.message (blockAt 70))), .lane .block .send, .signal]

/-- The way of that process to its end. -/
def loneDown : List Action :=
  [.lane .block (.recv 0 false)] ++
    Stream.all.flatMap (fun stream =>
      [.lane stream .cancelled, .lane stream (.recv 1 false), .lane stream .join]) ++
    [.join, .graceOver, .uploaderEnds]

/-- A chunk has a thousand slots, the channel room for one message, and the directories are
empty. -/
def loneSetup : Setup := ⟨⟨1000, 100, 4⟩, 1, fun _ => ∅⟩

/-- That process exits with status 0, and all lanes have returned without an error. -/
theorem process_exits_lone : ∃ books p,
    acts (act PlainCodecs.plain loneSetup) start (loneUp ++ loneDown) = some (books, p) ∧
      p.main = .exited 0 ∧ ∀ stream, (p.lanes stream).result = some true := by
  have computed : (acts (act PlainCodecs.plain loneSetup) start (loneUp ++ loneDown)).any
      (fun result => result.2.main = .exited 0) = true := by
    decide +kernel
  obtain ⟨⟨books, p⟩, done, exited⟩ := Option.any_eq_true _ _ |>.mp computed
  have left : p.main = .exited 0 := of_decide_eq_true exited
  have exits := (process_exits PlainCodecs.plain loneSetup (loneUp ++ loneDown) books p
    (steps_of_acts done)).1 0 left
  exact ⟨books, p, done, left, (exits.resolve_right (fun failed => nomatch failed.1)).2⟩

end Sillage.Process
