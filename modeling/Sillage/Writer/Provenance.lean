import Sillage.Foundation.Behaviour
import Sillage.Writer.Immutability

/-!
# Where the archived bytes come from

The books of a run tell what a seal wrote, but not what it was a seal of. Here the lanes
also note when they begin a chunk and when they append to it. As long as no archived chunk
is opened again, each chunk is sealed once at most, and whatever the bucket holds of a
chunk is what the seal made of the messages that were appended since the chunk was begun.
-/

namespace Sillage.Uploader

open LittleEndian Directory Names OpenChunk

/-- What is noted of a run: a chunk that a lane begins, a message that it appends, and what
goes into the books. -/
inductive Note where
  | began (stream : Stream) (idx : Nat)
  | appended (stream : Stream) (idx : Nat) (a : Arrival)
  | booked (event : Event)
deriving DecidableEq

namespace Note

/-- The entry of the books behind a note. -/
def event? : Note → Option Event
  | .booked event => some event
  | _ => none

/-- The messages of a chunk behind a note. -/
def take (stream : Stream) (idx : Nat) (messages : List Arrival) : Note → List Arrival
  | .began stream' idx' => if stream' = stream ∧ idx' = idx then [] else messages
  | .appended stream' idx' a =>
      if stream' = stream ∧ idx' = idx then messages ++ [a] else messages
  | .booked _ => messages

end Note

/-- The books behind the notes. -/
def booksOf (notes : List Note) : List Event := Behaviour.told Note.event? notes

/-- The messages that were appended to a chunk since it was last begun. -/
def recorded (notes : List Note) (stream : Stream) (idx : Nat) : List Arrival :=
  notes.foldl (Note.take stream idx) []

/-- A chunk is open in a lane. -/
def IsOpen (w : Writer) (stream : Stream) (idx : Nat) : Bool :=
  ((w.lanes stream).chunker.open[idx]?).isSome

/-- What the lanes note of an action that leads from one state to another. -/
def noteOf (cfg : WriterConfig) (w w' : Writer) : Action → List Note
  | .openChunk stream _ idx =>
      if IsOpen w stream idx = false ∧ IsOpen w' stream idx = true then [.began stream idx] else []
  | .append stream a =>
      let idx := a.slot / cfg.slotsPerChunk
      if IsOpen w stream idx then [.appended stream idx a] else []
  | _ => []

/-- The chunk of which an action begins the seal. -/
def Action.seals : Action → Option (Stream × Nat)
  | .beginSeal stream _ idx => some (stream, idx)
  | _ => none

/-- A seal begins on a chunk without messages. The lanes open a chunk only to append to it
in the same call. -/
def SealsEmpty (w : Writer) (action : Action) : Prop :=
  ∃ target ∈ action.seals, ∃ chunk ∈ (w.lanes target.1).chunker.open[target.2]?,
    chunk.messageCount = 0

/-- Whether an action seals an empty chunk can be looked up. -/
instance (w : Writer) (action : Action) : Decidable (SealsEmpty w action) :=
  inferInstanceAs (Decidable (∃ target ∈ action.seals, _))

/-- The system with notes, where no archived chunk is opened again and no empty one is
sealed. -/
def spare (k : Codecs) (cfg : WriterConfig) (up : UploaderConfig) : Behaviour Writer Action Note :=
  fun w action =>
    if Reopens cfg w action ∨ SealsEmpty w action then none
    else (act k cfg up w action).map (fun (more, w') =>
      (noteOf cfg w w' action ++ more.map .booked, w'))

/-- What a seal makes of some messages. -/
def filesOf (k : Codecs) (stream : Stream) (cfg : WriterConfig) (idx : Nat)
    (arrivals : List Arrival) (reason : String) : ChunkFiles :=
  (holding k stream cfg idx 0 arrivals).files k stream (payload k arrivals) reason

/-- A chunk is sealed on disk or archived. -/
def Settled (cfg : WriterConfig) (w : Writer) (stream : Stream) (idx : Nat) : Prop :=
  ((w.dir stream).lookup (chunkName cfg idx "meta.json")).isSome = true ∨
    Archived cfg w.bucket stream idx

/-- What is known of the chunks by the notes. -/
structure Kept (k : Codecs) (cfg : WriterConfig) (notes : List Note) (w : Writer) : Prop where
  sound : Sound cfg (booksOf notes) w
  frozen : AllFrozen cfg w
  ofStream : ∀ stream, (w.lanes stream).chunker.stream = stream
  opened : ∀ stream idx chunk, (w.lanes stream).chunker.open[idx]? = some chunk →
    ∃ opening, chunk = holding k stream cfg idx opening (recorded notes stream idx)
  sealing : ∀ stream job, (w.lanes stream).sealing = some job →
    recorded notes stream job.idx ≠ [] ∧
      ∃ reason, job.files = filesOf k stream cfg job.idx (recorded notes stream job.idx) reason
  «sealed» : ∀ stream idx, sealings (booksOf notes) stream idx = [] ∨
    Settled cfg w stream idx ∧ recorded notes stream idx ≠ [] ∧
      ∃ reason, sealings (booksOf notes) stream idx =
        [filesOf k stream cfg idx (recorded notes stream idx) reason]
  keys : ∀ key object, w.bucket.lookup key = some object →
    ∃ stream idx, ∃ ext ∈ finalExtensions, key = objectOf cfg stream idx ext

variable {k : Codecs} {cfg : WriterConfig} {up : UploaderConfig}

/-! ## What a step does with a chunk -/

/-- Notes that tell nothing of a chunk. -/
structure Quiet (stream : Stream) (idx : Nat) (more : List Note) : Prop where
  same : ∀ messages, more.foldl (Note.take stream idx) messages = messages
  unsealed : sealings (booksOf more) stream idx = []

/-- What a step does with a chunk of a lane, by what is noted of it. -/
inductive Handled (k : Codecs) (cfg : WriterConfig) (stream : Stream) (idx : Nat)
    (lane lane' : Lane) : List Note → Prop where
  | left {more : List Note} (quiet : Quiet stream idx more)
      (opened : ∀ chunk, lane'.chunker.open[idx]? = some chunk →
        lane.chunker.open[idx]? = some chunk)
      (sealing : ∀ job, lane'.sealing = some job → job.idx = idx →
        ∃ before, lane.sealing = some before ∧ before.idx = idx ∧ job.files = before.files) :
      Handled k cfg stream idx lane lane' more
  | began {now : Nat}
      (isNew : lane'.chunker.open[idx]? =
        some (holding k lane.chunker.stream cfg idx now []))
      (unsealed : lane'.sealing = none) :
      Handled k cfg stream idx lane lane' [.began stream idx]
  | appended {chunk chunk' : OpenChunk} {a : Arrival}
      (found : lane.chunker.open[idx]? = some chunk) (grown : chunk.append k a = .ok chunk')
      (isGrown : lane'.chunker.open[idx]? = some chunk') (unsealed : lane'.sealing = none) :
      Handled k cfg stream idx lane lane' [.appended stream idx a]
  | begins {chunk : OpenChunk} {written : Bytes} {job : Sealing} {reason : String}
      (found : lane.chunker.open[idx]? = some chunk) (filled : chunk.messageCount ≠ 0)
      (held : chunk.encoder = some written) (closed : lane'.chunker.open[idx]? = none)
      (isSealing : lane'.sealing = some job)
      (files : job.files = chunk.files k lane.chunker.stream written reason) :
      Handled k cfg stream idx lane lane' []
  | completes {files : ChunkFiles} {step : FileStep}
      (isSealing : lane.sealing = some ⟨idx, files, [step]⟩)
      (opened : lane'.chunker.open = lane.chunker.open) (unsealed : lane'.sealing = none)
      (onDisk : lane'.chunker.baseDir = FileStep.apply lane.chunker.baseDir step) :
      Handled k cfg stream idx lane lane' [.booked (.sealed stream idx files)]

/-- The events are read along the notes. -/
theorem booksOf_append (notes more : List Note) :
    booksOf (notes ++ more) = booksOf notes ++ booksOf more := Behaviour.told_append _ _ _

/-- A note is an event or none. -/
@[simp] theorem booksOf_cons (note : Note) (notes : List Note) :
    booksOf (note :: notes) = note.event?.toList ++ booksOf notes := Behaviour.told_cons _ _ _

/-- Without notes there are no events. -/
@[simp] theorem booksOf_nil : booksOf [] = [] := rfl

/-- A chunk of which nothing is noted. -/
theorem Quiet.nil {stream : Stream} {idx : Nat} : Quiet stream idx [] := ⟨fun _ => rfl, rfl⟩

/-- Events in the books add no message to a chunk. -/
theorem take_booked (stream : Stream) (idx : Nat) (events : List Event) (messages : List Arrival) :
    (events.map Note.booked).foldl (Note.take stream idx) messages = messages := by
  induction events with
  | nil => rfl
  | cons event rest inductionHypothesis => exact inductionHypothesis

/-- Events that are booked are in the books. -/
@[simp] theorem booksOf_booked (events : List Event) : booksOf (events.map .booked) = events := by
  induction events with
  | nil => rfl
  | cons event rest inductionHypothesis => simpa [Note.event?] using inductionHypothesis

/-- Events that seal nothing leave a chunk's messages as noted. -/
theorem Quiet.booked {stream : Stream} {idx : Nat} {events : List Event}
    (unsealed : sealings events stream idx = []) : Quiet stream idx (events.map .booked) :=
  ⟨take_booked stream idx events, by rwa [booksOf_booked]⟩

/-- A step that changes neither the open chunks of a lane nor its seal. -/
theorem Handled.same {stream : Stream} {idx : Nat} {lane lane' : Lane} {more : List Note}
    (quiet : Quiet stream idx more) (opened : lane'.chunker.open = lane.chunker.open)
    (sealing : lane'.sealing = lane.sealing) : Handled k cfg stream idx lane lane' more :=
  .left quiet (fun _ stored => opened ▸ stored)
    (fun job isSealing own => ⟨job, sealing ▸ isSealing, own, rfl⟩)

/-- A lane without open chunks and without a seal. -/
theorem Handled.cleared {stream : Stream} {idx : Nat} {lane lane' : Lane}
    (opened : lane'.chunker.open[idx]? = none) (sealing : lane'.sealing = none) :
    Handled k cfg stream idx lane lane' [] :=
  .left .nil (fun _ stored => nomatch opened.symm.trans stored)
    (fun _ isSealing => nomatch sealing.symm.trans isSealing)

/-- A step of a lane that is up and not in the middle of a seal. -/
theorem lane_done {w w' : Writer} {more : List Event} {stream : Stream} {action : Action}
    (done : act.lane k w stream action = some (more, w')) :
    ∃ s after, w.lanes stream = ⟨s, none⟩ ∧ laneAct k s action = some after ∧ more = [] ∧
      w' = w.withLane stream after := by
  obtain ⟨s, free, rest⟩ := Option.bind_eq_some_iff.mp done
  obtain ⟨after, stepped, rest⟩ := Option.bind_eq_some_iff.mp rest
  obtain ⟨rfl, rfl⟩ := Prod.mk.inj (Option.some.inj rest)
  exact ⟨s, after, (free_some free).2, stepped, rfl, rfl⟩

/-- A step of one lane leaves the chunks of the others. -/
theorem Handled.elsewhere {w : Writer} {stream other : Stream} {idx : Nat} {after : Lane}
    {more : List Note} (distinct : other ≠ stream) (quiet : Quiet other idx more) :
    Handled k cfg other idx (w.lanes other) ((w.withLane stream after).lanes other) more := by
  rw [lanes_withLane, if_neg distinct]
  exact .same quiet rfl rfl

/-- Opening a chunk, by what is noted of it. -/
theorem openChunk_handled {w : Writer} {stream : Stream} {s : Chunker} {after : Lane} {now i : Nat}
    (sameCfg : s.cfg = cfg) (laneIs : w.lanes stream = ⟨s, none⟩)
    (stepped : laneAct k s (.openChunk stream now i) = some after) (other : Stream) (idx : Nat) :
    Handled k cfg other idx (w.lanes other) ((w.withLane stream after).lanes other)
      (noteOf cfg w (w.withLane stream after) (.openChunk stream now i)) := by
  obtain ⟨s', opened, rest⟩ := Option.bind_eq_some_iff.mp stepped
  obtain rfl := Option.some.inj rest
  have quiet : ¬ (stream = other ∧ i = idx) →
      Quiet other idx (noteOf cfg w (w.withLane stream ⟨s', none⟩) (.openChunk stream now i)) := by
    intro distinct
    rw [noteOf]
    split
    · exact ⟨fun _ => if_neg distinct, rfl⟩
    · exact .nil
  by_cases same : other = stream
  · subst same
    rcases Tracks.openChunk_ok (ok_of_toOption opened) with rfl | ⟨closed, -, -, result⟩
    · have unchanged : IsOpen (w.withLane other ⟨s', none⟩) other i = IsOpen w other i := by
        simp only [IsOpen, lanes_withLane, if_true, laneIs]
      have noNote : noteOf cfg w (w.withLane other ⟨s', none⟩) (.openChunk other now i) = [] :=
        if_neg (by rw [unchanged]; simp)
      rw [noNote]
      exact .same .nil (by simp [laneIs]) (by simp [laneIs])
    · by_cases own : i = idx
      · subst own
        have noted : noteOf cfg w (w.withLane other ⟨s', none⟩) (.openChunk other now i) =
            [.began other i] :=
          if_pos (by simp [IsOpen, laneIs, closed, result k])
        rw [noted]
        have isNew : ((w.withLane other ⟨s', none⟩).lanes other).chunker.open[i]? =
            some (holding k (w.lanes other).chunker.stream cfg i now []) := by
          simp [result k, laneIs, sameCfg]
        exact .began isNew (by simp)
      · refine .left (quiet (fun same => own same.2)) (fun chunk stored => ?_)
          (fun job isSealing => ?_)
        · rw [lanes_withLane, if_pos rfl, result k] at stored
          rw [laneIs]
          exact ((Tracks.getElem?_insert_some stored).resolve_left (fun same => own same.1.symm)).2
        · simp at isSealing
  · exact .elsewhere same (quiet (fun both => same both.1.symm))

/-- Appending a message notes it for its chunk. -/
theorem append_handled (positive : 0 < cfg.slotsPerChunk) {w : Writer} {stream : Stream}
    {s : Chunker} {after : Lane} {a : Arrival} (sameCfg : s.cfg = cfg)
    (laneIs : w.lanes stream = ⟨s, none⟩) (stepped : laneAct k s (.append stream a) = some after)
    (other : Stream) (idx : Nat) :
    Handled k cfg other idx (w.lanes other) ((w.withLane stream after).lanes other)
      (noteOf cfg w (w.withLane stream after) (.append stream a)) := by
  obtain ⟨i, divided, rest⟩ := Option.bind_eq_some_iff.mp stepped
  obtain ⟨⟨verdict, s'⟩, appended, rest⟩ := Option.bind_eq_some_iff.mp rest
  obtain rfl := Option.some.inj rest
  obtain rfl : a.slot / cfg.slotsPerChunk = i := by
    have divided := ok_of_toOption divided
    rw [sameCfg, checkedDiv, if_neg positive.ne'] at divided
    exact Except.ok.inj divided
  have quiet : ¬ (stream = other ∧ a.slot / cfg.slotsPerChunk = idx) →
      Quiet other idx (noteOf cfg w (w.withLane stream ⟨s', none⟩) (.append stream a)) := by
    intro distinct
    rw [noteOf]
    split
    · exact ⟨fun _ => if_neg distinct, rfl⟩
    · exact .nil
  by_cases same : other = stream
  · subst same
    have recorded := ok_of_toOption appended
    rw [Chunker.appendTo] at recorded
    split at recorded
    · next closed =>
      cases recorded
      have noNote : noteOf cfg w (w.withLane other ⟨s, none⟩) (.append other a) = [] :=
        if_neg (by simp [IsOpen, laneIs, closed])
      rw [noNote]
      exact .same .nil (by simp [laneIs]) (by simp [laneIs])
    · next chunk found =>
      obtain ⟨chunk', grown, recorded⟩ := ok_of_bind recorded
      cases recorded
      by_cases own : a.slot / cfg.slotsPerChunk = idx
      · subst own
        have noted : ∀ w', noteOf cfg w w' (.append other a) =
            [.appended other (a.slot / cfg.slotsPerChunk) a] :=
          fun _ => if_pos (by simp [IsOpen, laneIs, found])
        rw [noted]
        exact .appended (by rw [laneIs]; exact found) grown (by simp) (by simp)
      · refine .left (quiet (fun same => own same.2)) (fun held stored => ?_)
          (fun job isSealing => ?_)
        · rw [lanes_withLane, if_pos rfl] at stored
          rw [laneIs]
          exact ((Tracks.getElem?_insert_some stored).resolve_left (fun same => own same.1.symm)).2
        · simp at isSealing
  · exact .elsewhere same (quiet (fun both => same both.1.symm))

/-- A seal begins with the messages that have been noted. -/
theorem beginSeal_handled {w : Writer} {stream : Stream} {s : Chunker} {after : Lane}
    {reason : String} {i : Nat} (laneIs : w.lanes stream = ⟨s, none⟩)
    (filled : ¬ SealsEmpty w (.beginSeal stream reason i))
    (stepped : laneAct k s (.beginSeal stream reason i) = some after) (other : Stream) (idx : Nat) :
    Handled k cfg other idx (w.lanes other) ((w.withLane stream after).lanes other) [] := by
  obtain ⟨chunk, found, rest⟩ := Option.bind_eq_some_iff.mp stepped
  obtain ⟨written, held, rest⟩ := Option.bind_eq_some_iff.mp rest
  obtain rfl := Option.some.inj rest
  by_cases same : other = stream
  · subst same
    by_cases own : i = idx
    · subst own
      have counted : chunk.messageCount ≠ 0 := fun none =>
        filled ⟨(other, i), rfl, chunk, by simpa [laneIs] using found, none⟩
      have sealing : ((w.withLane other
          ⟨{ s with «open» := s.open.erase i },
            some ⟨i, chunk.files k s.stream written reason,
              chunk.sealSteps k s.stream written reason⟩⟩).lanes other).sealing =
          some ⟨i, chunk.files k s.stream written reason,
            chunk.sealSteps k s.stream written reason⟩ := by simp
      exact .begins (by rw [laneIs]; exact found) counted held (by simp) sealing (by rw [laneIs])
    · refine .left .nil (fun held stored => ?_) (fun job isSealing isOwn => ?_)
      · rw [lanes_withLane, if_pos rfl] at stored
        rw [laneIs]
        exact (Tracks.getElem?_erase_some stored).1
      · rw [lanes_withLane, if_pos rfl] at isSealing
        obtain rfl := Option.some.inj isSealing
        exact absurd isOwn own
  · exact .elsewhere same .nil

/-- The steps of a seal note the files at its end. -/
theorem sealAct_handled {w w' : Writer} {more : List Event} {stream : Stream}
    (done : sealAct w stream = some (more, w')) (other : Stream) (idx : Nat) :
    Handled k cfg other idx (w.lanes other) (w'.lanes other) (more.map .booked) := by
  simp only [sealAct] at done
  split at done
  · cases done
  · next i files step rest isSealing _ =>
    split at done
    · next isLast =>
      subst isLast
      obtain ⟨rfl, rfl⟩ := Prod.mk.inj (Option.some.inj done)
      have quiet : ¬ (stream = other ∧ i = idx) →
          Quiet other idx ([Event.sealed stream i files].map .booked) := by
        intro distinct
        apply Quiet.booked
        rw [sealings_sealed, if_neg distinct]
      by_cases same : other = stream
      · subst same
        by_cases own : i = idx
        · subst own
          exact .completes isSealing (by simp) (by simp) (by simp)
        · exact .left (quiet (fun both => own both.2)) (fun chunk stored => by simpa using stored)
            (fun job isJob => by simp at isJob)
      · exact .elsewhere same (quiet (fun both => same both.1.symm))
    · obtain ⟨rfl, rfl⟩ := Prod.mk.inj (Option.some.inj done)
      by_cases same : other = stream
      · subst same
        refine .left .nil (fun chunk stored => by simpa using stored)
          (fun job isJob own => ⟨_, isSealing, ?_⟩)
        rw [lanes_withLane, if_pos rfl] at isJob
        obtain rfl := Option.some.inj isJob
        exact ⟨own, rfl⟩
      · exact .elsewhere same .nil
  · cases done

/-- A change of a directory by another task leaves the open chunks and the seals. -/
theorem Handled.disk {w : Writer} {own : Stream} {step : FileStep} {stream : Stream} {idx : Nat}
    {more : List Note} (quiet : Quiet stream idx more) :
    Handled k cfg stream idx (w.lanes stream) ((w.onDisk own step).lanes stream) more := by
  rw [Writer.onDisk, lanes_withLane]
  split
  · next same =>
    subst same
    exact .same quiet rfl rfl
  · exact .same quiet rfl rfl

/-- An upload does nothing with the open chunks. -/
theorem uploadAct_handled {w w' : Writer} {more : List Event} {waiting : List PendingChunk}
    {running : List Upload} {task : Nat} {result : PutResult}
    (done : uploadAct up w waiting running task result = some (more, w')) (stream : Stream)
    (idx : Nat) : Handled k cfg stream idx (w.lanes stream) (w'.lanes stream)
      (more.map .booked) := by
  obtain ⟨upload, -, done⟩ := Option.bind_eq_some_iff.mp done
  split at done
  · obtain ⟨rfl, rfl⟩ := Prod.mk.inj (Option.some.inj done)
    exact .same .nil rfl rfl
  · obtain ⟨rfl, rfl⟩ := Prod.mk.inj (Option.some.inj done)
    exact .disk .nil
  · dsimp only at done
    repeat' split at done
    all_goals
      obtain ⟨rfl, rfl⟩ := Prod.mk.inj (Option.some.inj done)
      exact .same (.booked rfl) rfl rfl

/-- What every action does with every chunk. -/
theorem act_handled (positive : 0 < cfg.slotsPerChunk) {w w' : Writer} {more : List Event}
    (lanes : ∀ stream, LaneSound cfg (w.lanes stream)) {action : Action}
    (filled : ¬ SealsEmpty w action) (done : act k cfg up w action = some (more, w'))
    (stream : Stream) (idx : Nat) : Handled k cfg stream idx (w.lanes stream) (w'.lanes stream)
      (noteOf cfg w w' action ++ more.map .booked) := by
  have sameCfg : ∀ {own s}, w.lanes own = ⟨s, none⟩ → s.cfg = cfg := by
    intro own s laneIs
    have config := (lanes own).sameCfg
    rwa [laneIs] at config
  cases action with
  | advance own slot =>
    obtain ⟨s, after, laneIs, stepped, rfl, rfl⟩ := lane_done done
    obtain rfl := Option.some.inj stepped
    by_cases same : stream = own
    · subst same
      exact .same .nil (by simp [laneIs, Chunker.advance]) (by simp [laneIs])
    · exact .elsewhere same .nil
  | openChunk own now i =>
    obtain ⟨s, after, laneIs, stepped, rfl, rfl⟩ := lane_done done
    rw [List.map_nil, List.append_nil]
    exact openChunk_handled (sameCfg laneIs) laneIs stepped stream idx
  | append own a =>
    obtain ⟨s, after, laneIs, stepped, rfl, rfl⟩ := lane_done done
    rw [List.map_nil, List.append_nil]
    exact append_handled positive (sameCfg laneIs) laneIs stepped stream idx
  | beginSeal own reason i =>
    obtain ⟨s, after, laneIs, stepped, rfl, rfl⟩ := lane_done done
    exact beginSeal_handled laneIs filled stepped stream idx
  | sealStep own => exact sealAct_handled done stream idx
  | upload task result =>
    simp only [act] at done
    split at done
    · exact uploadAct_handled done stream idx
    · cases done
  | remove succeeds =>
    simp only [act] at done
    split at done
    · split at done
      · obtain ⟨rfl, rfl⟩ := Prod.mk.inj (Option.some.inj done)
        exact .disk (.booked rfl)
      · obtain ⟨rfl, rfl⟩ := Prod.mk.inj (Option.some.inj done)
        exact .same .nil rfl rfl
    · cases done
  | examine age =>
    obtain ⟨phase, -, rest⟩ := Option.map_eq_some_iff.mp done
    obtain ⟨rfl, rfl⟩ := Prod.mk.inj rest
    exact .same .nil rfl rfl
  | crash =>
    obtain ⟨rfl, rfl⟩ := Prod.mk.inj (Option.some.inj done)
    exact .cleared (by simp [Writer.restartOn, Chunker.new]) rfl
  | sweepPartial own name =>
    simp only [act] at done
    split at done
    · split at done
      · obtain ⟨rfl, rfl⟩ := Prod.mk.inj (Option.some.inj done)
        exact .disk .nil
      · cases done
    · cases done
  | boot =>
    simp only [act] at done
    split at done
    · obtain ⟨rfl, rfl⟩ := Prod.mk.inj (Option.some.inj done)
      exact .cleared (by simp [Writer.restartOn, Chunker.new]) rfl
    · cases done
  | _ =>
    simp only [act] at done
    repeat' split at done
    all_goals first
      | (obtain ⟨rfl, rfl⟩ := Prod.mk.inj (Option.some.inj done)
         exact .same .nil rfl rfl)
      | cases done

/-- A lane stays with its stream. -/
theorem laneAct_stream {s : Chunker} {action : Action} {after : Lane}
    (stepped : laneAct k s action = some after) : after.chunker.stream = s.stream := by
  cases action with
  | advance stream slot =>
    obtain rfl := Option.some.inj stepped
    rfl
  | openChunk stream now idx =>
    obtain ⟨s', opened, rest⟩ := Option.bind_eq_some_iff.mp stepped
    obtain rfl := Option.some.inj rest
    rcases Tracks.openChunk_ok (ok_of_toOption opened) with rfl | ⟨-, -, -, result⟩
    · rfl
    · rw [result k]
  | append stream a =>
    obtain ⟨idx, -, rest⟩ := Option.bind_eq_some_iff.mp stepped
    obtain ⟨⟨verdict, s'⟩, appended, rest⟩ := Option.bind_eq_some_iff.mp rest
    obtain rfl := Option.some.inj rest
    have recorded := ok_of_toOption appended
    rw [Chunker.appendTo] at recorded
    split at recorded
    · cases recorded
      rfl
    · obtain ⟨chunk, -, recorded⟩ := ok_of_bind recorded
      cases recorded
      rfl
  | beginSeal stream reason idx =>
    obtain ⟨chunk, -, rest⟩ := Option.bind_eq_some_iff.mp stepped
    obtain ⟨written, -, rest⟩ := Option.bind_eq_some_iff.mp rest
    obtain rfl := Option.some.inj rest
    rfl
  | _ => cases stepped

/-- Every lane keeps to its stream. -/
theorem act_stream {w w' : Writer} {more : List Event} {action : Action}
    (own : ∀ stream, (w.lanes stream).chunker.stream = stream)
    (done : act k cfg up w action = some (more, w')) (stream : Stream) :
    (w'.lanes stream).chunker.stream = stream := by
  have withLane : ∀ {other : Stream} {after : Lane}, after.chunker.stream = other →
      ((w.withLane other after).lanes stream).chunker.stream = stream := by
    intro other after same
    rw [lanes_withLane]
    split
    · next here => rw [same, here]
    · exact own stream
  have onDisk : ∀ {other : Stream} {step : FileStep},
      ((w.onDisk other step).lanes stream).chunker.stream = stream := withLane (own _)
  have lane : ∀ {other : Stream} {action : Action},
      act.lane k w other action = some (more, w') →
      (w'.lanes stream).chunker.stream = stream := by
    intro other action done
    obtain ⟨s, after, laneIs, stepped, -, rfl⟩ := lane_done done
    have ofStream := own other
    rw [laneIs] at ofStream
    exact withLane ((laneAct_stream stepped).trans ofStream)
  cases action with
  | advance other slot => exact lane done
  | openChunk other now idx => exact lane done
  | append other a => exact lane done
  | beginSeal other reason idx => exact lane done
  | sealStep other =>
    simp only [act, sealAct] at done
    repeat' split at done
    all_goals first
      | (obtain ⟨-, rfl⟩ := Prod.mk.inj (Option.some.inj done); exact withLane (own other))
      | cases done
  | upload task result =>
    simp only [act] at done
    split at done
    · obtain ⟨upload, -, done⟩ := Option.bind_eq_some_iff.mp done
      dsimp only at done
      repeat' split at done
      all_goals
        obtain ⟨-, rfl⟩ := Prod.mk.inj (Option.some.inj done)
        first | exact own stream | exact onDisk
    · cases done
  | examine age =>
    obtain ⟨phase, -, rest⟩ := Option.map_eq_some_iff.mp done
    obtain ⟨-, rfl⟩ := Prod.mk.inj rest
    exact own stream
  | _ =>
    simp only [act] at done
    repeat' split at done
    all_goals first
      | (obtain ⟨-, rfl⟩ := Prod.mk.inj (Option.some.inj done)
         first | exact own stream | exact onDisk | rfl)
      | cases done

/-! ## What is kept -/

/-- A step with its notes is a step of the system. -/
theorem spare_done {w w' : Writer} {action : Action} {more : List Note}
    (done : spare k cfg up w action = some (more, w')) :
    ¬ Reopens cfg w action ∧ ¬ SealsEmpty w action ∧
      ∃ events, act k cfg up w action = some (events, w') ∧
        more = noteOf cfg w w' action ++ events.map .booked := by
  rw [spare] at done
  split at done
  · cases done
  · next spared =>
    obtain ⟨⟨events, v⟩, acted, same⟩ := Option.map_eq_some_iff.mp done
    obtain ⟨rfl, rfl⟩ := Prod.mk.inj same
    exact ⟨fun reopens => spared (.inl reopens), fun empty => spared (.inr empty), events, acted,
      rfl⟩

/-- What is noted of the messages is no event. -/
theorem booksOf_noteOf (w w' : Writer) (action : Action) (events : List Event) :
    booksOf (noteOf cfg w w' action ++ events.map .booked) = events := by
  have none : booksOf (noteOf cfg w w' action) = [] := by
    cases action <;> simp only [noteOf, booksOf_nil]
    all_goals
      split
      · rfl
      · rfl
  rw [booksOf_append, none, List.nil_append, booksOf_booked]

/-- The messages of a chunk are read along the notes. -/
theorem recorded_append (notes more : List Note) (stream : Stream) (idx : Nat) :
    recorded (notes ++ more) stream idx =
      more.foldl (Note.take stream idx) (recorded notes stream idx) :=
  List.foldl_append ..

/-- The messages of a chunk have been noted. -/
theorem mem_recorded {notes : List Note} {stream : Stream} {idx : Nat} {a : Arrival}
    (member : a ∈ recorded notes stream idx) : .appended stream idx a ∈ notes := by
  induction notes using List.reverseRecOn with
  | nil => cases member
  | append_singleton notes note inductionHypothesis =>
    rw [recorded_append] at member
    cases note with
    | began stream' idx' =>
      simp only [List.foldl_cons, List.foldl_nil, Note.take] at member
      split at member
      · cases member
      · exact List.mem_append_left _ (inductionHypothesis member)
    | appended stream' idx' a' =>
      simp only [List.foldl_cons, List.foldl_nil, Note.take] at member
      split at member
      · next own =>
        obtain ⟨rfl, rfl⟩ := own
        rcases List.mem_append.mp member with before | isNew
        · exact List.mem_append_left _ (inductionHypothesis before)
        · obtain rfl := List.mem_singleton.mp isNew
          exact List.mem_append_right _ List.mem_cons_self
      · exact List.mem_append_left _ (inductionHypothesis member)
    | booked event => exact List.mem_append_left _ (inductionHypothesis member)

/-- No more messages are recorded than are noted. -/
theorem recorded_length_le (notes : List Note) (stream : Stream) (idx : Nat) :
    (recorded notes stream idx).length ≤ notes.length := by
  induction notes using List.reverseRecOn with
  | nil => exact Nat.le_refl _
  | append_singleton notes note inductionHypothesis =>
    rw [recorded_append, List.length_append, List.length_singleton]
    cases note <;> simp only [List.foldl_cons, List.foldl_nil, Note.take]
    · split
      · exact Nat.zero_le _
      · omega
    · split
      · simpa using inductionHypothesis
      · omega
    · omega

/-- A message is noted when it is appended, for the chunk of its slot. -/
theorem spare_appended {w w' : Writer} {action : Action} {more : List Note}
    (done : spare k cfg up w action = some (more, w')) {stream : Stream} {idx : Nat} {a : Arrival}
    (noted : .appended stream idx a ∈ more) :
    action = .append stream a ∧ idx = a.slot / cfg.slotsPerChunk := by
  obtain ⟨-, -, events, -, rfl⟩ := spare_done done
  rcases List.mem_append.mp noted with own | booked
  · cases action <;> simp only [noteOf, List.not_mem_nil] at own
    all_goals
      split at own
      · cases own <;> first | exact ⟨rfl, rfl⟩ | contradiction
      · cases own
  · obtain ⟨event, -, same⟩ := List.mem_map.mp booked
    cases same

/-- A chunk on which no lane works is left alone, unless a lane begins it. -/
theorem Handled.atRest {stream : Stream} {idx : Nat} {lane lane' : Lane} {more : List Note}
    (handled : Handled k cfg stream idx lane lane' more) (before : ¬ Busy lane idx)
    (behind : ¬ Busy lane' idx) : Quiet stream idx more := by
  cases handled with
  | left quiet _ _ => exact quiet
  | began isNew _ => exact absurd (.inl (by simp [isNew])) behind
  | appended found _ _ _ => exact absurd (.inl (by simp [found])) before
  | begins found _ _ _ _ _ => exact absurd (.inl (by simp [found])) before
  | completes isSealing _ _ _ => exact absurd (.inr ⟨_, isSealing, rfl⟩) before

/-- No lane works on a settled chunk. -/
theorem Settled.atRest {books : List Event} {w : Writer} (sound : Sound cfg books w)
    (frozen : AllFrozen cfg w) {stream : Stream} {idx : Nat} (settled : Settled cfg w stream idx) :
    ¬ Busy (w.lanes stream) idx := by
  rcases settled with sidecar | archived
  · exact (sound.lanes stream).atRest sidecar
  · exact (frozen stream idx ⟨"zst", by decide, archived "zst" (by decide)⟩).atRest

namespace Kept

variable {notes more : List Note} {w w' : Writer} {action : Action}

/-- At the start nothing is noted, and nothing is there. -/
theorem start : Kept k cfg [] (Writer.start cfg) where
  sound := .start
  frozen := .start
  ofStream _ := rfl
  opened stream idx chunk stored := by simp [Writer.start, Chunker.new] at stored
  sealing stream job isSealing := by simp [Writer.start] at isSealing
  «sealed» _ _ := .inl rfl
  keys key object stored := by simp [Writer.start] at stored

/-- An open chunk holds what is noted of it. -/
theorem opened_step (kept : Kept k cfg notes w) {stream : Stream} {idx : Nat}
    (handled : Handled k cfg stream idx (w.lanes stream) (w'.lanes stream) more) {chunk : OpenChunk}
    (stored : (w'.lanes stream).chunker.open[idx]? = some chunk) :
    ∃ opening, chunk = holding k stream cfg idx opening (recorded (notes ++ more) stream idx) := by
  rw [recorded_append]
  cases handled with
  | left quiet opened _ =>
    rw [quiet.same]
    exact kept.opened stream idx chunk (opened chunk stored)
  | @began now isNew _ =>
    obtain rfl := Option.some.inj (stored.symm.trans isNew)
    exact ⟨now, by simp [Note.take, kept.ofStream]⟩
  | @appended before _ a found grown isGrown _ =>
    obtain rfl := Option.some.inj (stored.symm.trans isGrown)
    obtain ⟨opening, rfl⟩ := kept.opened stream idx before found
    rw [append_holding] at grown
    exact ⟨opening, by simp [Note.take, ← Except.ok.inj grown]⟩
  | begins _ _ _ closed _ _ => exact nomatch closed.symm.trans stored
  | completes _ opened _ _ =>
    rw [opened] at stored
    exact kept.opened stream idx chunk stored

/-- A seal in progress writes what is noted of its chunk. -/
theorem sealing_step (kept : Kept k cfg notes w) {stream : Stream} {job : Sealing}
    (handled : Handled k cfg stream job.idx (w.lanes stream) (w'.lanes stream) more)
    (isSealing : (w'.lanes stream).sealing = some job) :
    recorded (notes ++ more) stream job.idx ≠ [] ∧ ∃ reason,
      job.files = filesOf k stream cfg job.idx (recorded (notes ++ more) stream job.idx) reason := by
  rw [recorded_append]
  cases handled with
  | left quiet _ sealing =>
    obtain ⟨before, wasSealing, own, files⟩ := sealing job isSealing rfl
    rw [quiet.same, files, ← own]
    exact kept.sealing stream before wasSealing
  | began _ unsealed => exact nomatch unsealed.symm.trans isSealing
  | appended _ _ _ unsealed => exact nomatch unsealed.symm.trans isSealing
  | @begins chunk written job' reason found filled held closed isSealing' files =>
    obtain rfl := Option.some.inj (isSealing.symm.trans isSealing')
    obtain ⟨opening, rfl⟩ := kept.opened stream job.idx chunk found
    obtain rfl := Option.some.inj held
    refine ⟨fun none => filled (congrArg List.length none), reason, ?_⟩
    rw [files, kept.ofStream]
    rfl
  | completes _ _ unsealed _ => exact nomatch unsealed.symm.trans isSealing

/-- A settled chunk stays settled. -/
theorem settled_step (positive : 0 < cfg.slotsPerChunk) {events : List Event}
    (kept : Kept k cfg notes w) (spared : ¬ Reopens cfg w action)
    (done : act k cfg up w action = some (events, w')) {stream : Stream} {idx : Nat}
    (settled : Settled cfg w stream idx) : Settled cfg w' stream idx := by
  have stays : Archived cfg w.bucket stream idx → Archived cfg w'.bucket stream idx := by
    intro archived ext final
    obtain ⟨object, stored⟩ := Option.isSome_iff_exists.mp (archived ext final)
    have kept := (kept.frozen.act positive kept.sound spared done).2 stream idx ext final object stored
    exact Option.isSome_of_eq_some kept.1
  rcases settled with sidecar | archived
  · rcases (act_local positive kept.sound done stream idx).kept sidecar with there | marker
    · exact .inl there
    · exact .inr (stays ((kept.sound.chunks stream idx).marked marker))
  · exact .inr (stays archived)

/-- A chunk is sealed once, and settled from then on. -/
theorem sealed_step (positive : 0 < cfg.slotsPerChunk) {events : List Event}
    (kept : Kept k cfg notes w) (spared : ¬ Reopens cfg w action)
    (done : act k cfg up w action = some (events, w'))
    (books : booksOf (notes ++ more) = booksOf notes ++ events) {stream : Stream} {idx : Nat}
    (handled : Handled k cfg stream idx (w.lanes stream) (w'.lanes stream) more) :
    sealings (booksOf (notes ++ more)) stream idx = [] ∨
      Settled cfg w' stream idx ∧ recorded (notes ++ more) stream idx ≠ [] ∧
        ∃ reason, sealings (booksOf (notes ++ more)) stream idx =
          [filesOf k stream cfg idx (recorded (notes ++ more) stream idx) reason] := by
  have soundAfter : Sound cfg (booksOf notes ++ events) w' := kept.sound.act positive done
  have frozenAfter := (kept.frozen.act positive kept.sound spared done).1
  have sealed' : sealings (booksOf (notes ++ more)) stream idx =
      sealings (booksOf notes) stream idx ++ sealings (booksOf more) stream idx := by
    rw [booksOf_append, sealings_append]
  rw [sealed', recorded_append]
  rcases kept.sealed stream idx with never | ⟨settled, filled, reason, once⟩
  · cases handled with
    | left quiet _ _ => exact .inl (by rw [never, quiet.unsealed, List.nil_append])
    | began _ _ => exact .inl (by rw [never]; rfl)
    | appended _ _ _ _ => exact .inl (by rw [never]; rfl)
    | begins _ _ _ _ _ _ => exact .inl (by rw [never]; rfl)
    | @completes files step isSealing opened unsealed onDisk =>
      obtain ⟨filled, reason, same⟩ := kept.sealing stream _ isSealing
      refine .inr ⟨.inl ?_, filled, reason, ?_⟩
      · have written := (kept.sound.chunks stream idx).sealing never _ isSealing rfl "meta.json"
          (by decide)
        rw [Writer.dir, onDisk]
        exact Option.isSome_of_eq_some written
      · rw [never, List.nil_append]
        refine Eq.trans ?_ (congrArg (fun files => [files]) same)
        simp [Note.event?, sealings_sealed]
  · have quiet := handled.atRest (settled.atRest kept.sound kept.frozen)
      ((kept.settled_step positive spared done settled).atRest soundAfter frozenAfter)
    rw [quiet.same, quiet.unsealed, List.append_nil]
    exact .inr ⟨kept.settled_step positive spared done settled, filled, reason, once⟩

/-- Objects are stored under the keys of chunks only. -/
theorem keys_step {events : List Event} (kept : Kept k cfg notes w)
    (done : act k cfg up w action = some (events, w')) {key : List Char} {object : Bytes}
    (stored : w'.bucket.lookup key = some object) :
    ∃ stream idx, ∃ ext ∈ finalExtensions, key = objectOf cfg stream idx ext := by
  cases act_booked done with
  | none same => exact kept.keys key object (same ▸ stored)
  | «sealed» _ _ _ same => exact kept.keys key object (same ▸ stored)
  | swept _ same => exact kept.keys key object (same ▸ stored)
  | @put waiting running upload ext later content isUploading member isNext _ _ stores =>
    rw [stores, lookup_put] at stored
    split at stored
    · next own =>
      obtain ⟨idx, same, -⟩ := kept.sound.phase.queued upload.chunk (by
        rw [isUploading]
        exact List.mem_append_right _ (List.mem_map_of_mem member))
      obtain ⟨past, split, -⟩ := kept.sound.phase.progress _ _ isUploading upload member
      rw [isNext] at split
      refine ⟨upload.chunk.stream, idx, ext, (uploadChunk_put split).1, ?_⟩
      rw [own, same]
      rfl
    · exact kept.keys key object stored

/-- Every step with its notes keeps what is known. -/
theorem step (positive : 0 < cfg.slotsPerChunk) (kept : Kept k cfg notes w)
    (done : spare k cfg up w action = some (more, w')) : Kept k cfg (notes ++ more) w' := by
  obtain ⟨spared, filled, events, acted, same⟩ := spare_done done
  have books : booksOf (notes ++ more) = booksOf notes ++ events := by
    rw [booksOf_append, same, booksOf_noteOf]
  have handled : ∀ stream idx, Handled k cfg stream idx (w.lanes stream) (w'.lanes stream) more :=
    fun stream idx => same ▸ act_handled positive kept.sound.lanes filled acted stream idx
  refine ⟨?_, ?_, ?_, ?_, ?_, ?_, ?_⟩
  · rw [books]
    exact kept.sound.act positive acted
  · exact (kept.frozen.act positive kept.sound spared acted).1
  · exact fun stream => act_stream kept.ofStream acted stream
  · exact fun stream idx chunk stored => kept.opened_step (handled stream idx) stored
  · exact fun stream job isSealing => kept.sealing_step (handled stream job.idx) isSealing
  · exact fun stream idx => kept.sealed_step positive spared acted books (handled stream idx)
  · exact fun key object stored => kept.keys_step acted stored

/-- So does every run. -/
theorem runs (positive : 0 < cfg.slotsPerChunk) {actions : List Action}
    (ran : Behaviour.Steps (spare k cfg up) (Writer.start cfg) actions notes w) :
    Kept k cfg notes w :=
  ran.keeps (Kept k cfg) start (fun _ _ _ _ _ kept done => kept.step positive done)

/-- What the bucket holds of a chunk is what its only seal wrote. -/
theorem object (kept : Kept k cfg notes w) {stream : Stream} {idx : Nat} {ext : String}
    (final : ext ∈ finalExtensions) {object : Bytes}
    (stored : w.bucket.lookup (objectOf cfg stream idx ext) = some object) :
    recorded notes stream idx ≠ [] ∧ ∃ reason,
      sealings (booksOf notes) stream idx =
        [filesOf k stream cfg idx (recorded notes stream idx) reason] ∧
      object = (filesOf k stream cfg idx (recorded notes stream idx) reason).content ext := by
  have sound := kept.sound.chunks stream idx
  rcases kept.sealed stream idx with never | ⟨-, filled, reason, once⟩
  · rw [(sound.never never).2.2 ext final] at stored
    cases stored
  · exact ⟨filled, reason, once, sound.objects _ once ext final object stored⟩

end Kept

/-- In every run that opens no archived chunk again, a chunk is sealed once at most, of the
messages that were appended since it was begun. The bucket holds files of such chunks only,
each as the seal of those messages wrote it. -/
theorem archive_provenance (k : Codecs) (cfg : WriterConfig) (up : UploaderConfig)
    (positive : 1 ≤ cfg.slotsPerChunk) (actions : List Action) (notes : List Note) (w : Writer)
    (ran : Behaviour.Steps (spare k cfg up) (Writer.start cfg) actions notes w) :
    (∀ stream idx, sealings (booksOf notes) stream idx = [] ∨
      recorded notes stream idx ≠ [] ∧ ∃ reason, sealings (booksOf notes) stream idx =
        [filesOf k stream cfg idx (recorded notes stream idx) reason]) ∧
    ∀ key object, w.bucket.lookup key = some object →
      ∃ stream idx reason, ∃ ext ∈ finalExtensions, key = objectOf cfg stream idx ext ∧
        sealings (booksOf notes) stream idx =
          [filesOf k stream cfg idx (recorded notes stream idx) reason] ∧
        object = (filesOf k stream cfg idx (recorded notes stream idx) reason).content ext := by
  have kept := Kept.runs positive ran
  refine ⟨fun stream idx => ?_, fun key object stored => ?_⟩
  · exact (kept.sealed stream idx).imp_right (fun settled => settled.2)
  · obtain ⟨stream, idx, ext, final, rfl⟩ := kept.keys key object stored
    obtain ⟨-, reason, once, same⟩ := kept.object final stored
    exact ⟨stream, idx, reason, ext, final, rfl, once, same⟩

/-- A crash interrupts the first chunk of a run, which is begun again, sealed and archived. -/
def crashLone : List Action :=
  [.boot, .openChunk .tx 0 0, .append .tx ⟨0, ⟨0, ⟨[], none, none, []⟩⟩, 1⟩, .crash] ++
    sealLone ++ uploadLone

/-- Behind a crash the payload in the bucket is that of the one message recorded. -/
theorem archive_provenance_lone : ∃ notes w object reason,
    Behaviour.acts (spare PlainCodecs.plain ⟨1000, 100, 4⟩ ⟨4, 3, 24⟩)
      (Writer.start ⟨1000, 100, 4⟩) crashLone = some (notes, w) ∧
    recorded notes .tx 0 = [⟨0, ⟨0, ⟨[], none, none, []⟩⟩, 500⟩] ∧
    w.bucket.lookup (objectOf ⟨1000, 100, 4⟩ .tx 0 "zst") = some object ∧
    object = (filesOf PlainCodecs.plain .tx ⟨1000, 100, 4⟩ 0
      [⟨0, ⟨0, ⟨[], none, none, []⟩⟩, 500⟩] reason).content "zst" := by
  have computed : (Behaviour.acts (spare PlainCodecs.plain ⟨1000, 100, 4⟩ ⟨4, 3, 24⟩)
      (Writer.start ⟨1000, 100, 4⟩) crashLone).any (fun result =>
        recorded result.1 .tx 0 = [⟨0, ⟨0, ⟨[], none, none, []⟩⟩, 500⟩] ∧
          (result.2.bucket.lookup (objectOf ⟨1000, 100, 4⟩ .tx 0 "zst")).isSome = true) = true := by
    decide +kernel
  obtain ⟨⟨notes, w⟩, done, facts⟩ := Option.any_eq_true _ _ |>.mp computed
  obtain ⟨messages, isStored⟩ := of_decide_eq_true facts
  obtain ⟨object, stored⟩ := Option.isSome_iff_exists.mp isStored
  obtain ⟨stream, idx, reason, ext, -, sameKey, -, same⟩ := (archive_provenance PlainCodecs.plain
    ⟨1000, 100, 4⟩ ⟨4, 3, 24⟩ (by decide) crashLone notes w (Behaviour.steps_of_acts done)).2 _ _
      stored
  obtain ⟨rfl, starts, -, rfl⟩ := objectKey_injective sameKey
  obtain rfl := Nat.eq_of_mul_eq_mul_right (by decide) starts
  exact ⟨notes, w, object, reason, done, messages, stored, messages ▸ same⟩

end Sillage.Uploader
