import Sillage.Writer.Passes

/-!
# A pass of the uploader comes to its end

Whatever fails in a pass, a bounded number of its steps is left once the last directory of
its sweep is listed, and until its join there is one that the uploader can take. The lanes
go on meanwhile as they like.
-/

namespace Sillage.Uploader

open LittleEndian Directory Names OpenChunk

/-- A step that begins no pass, lists no directory and is none of a process that is down. -/
def WithinPass : Action → Prop
  | .scan _ | .readDir _ _ | .crash | .sweepPartial _ _ | .boot => False
  | _ => True

/-- A step that the uploader takes by itself. -/
def Action.ofPass : Action → Bool
  | .examine _ | .remove _ | .endSweep | .spawn | .upload _ _ | .join => true
  | _ => false

/-- The steps that an upload has left at most. A put may be tried again, and each attempt is
one of them. -/
def Upload.left (up : UploaderConfig) (upload : Upload) : Nat :=
  (up.retryAttempts + 1) * upload.rest.length + (up.retryAttempts - upload.attempt) + 1

/-- The steps that a chunk takes at most that waits for its upload: the permit comes first. -/
def perChunk (up : UploaderConfig) : Nat := 6 * up.retryAttempts + 7

/-- The steps that a pass has left at most. An entry of the sweep may have four files removed. -/
def Phase.left (up : UploaderConfig) : Phase → Nat
  | .sweeping pending entries removals =>
      5 * entries.length + removals.length + perChunk up * pending.length + 2
  | .uploading waiting running =>
      perChunk up * waiting.length + (running.map (Upload.left up)).sum + 1
  | _ => 0

variable {k : Codecs} {cfg : WriterConfig} {up : UploaderConfig} {w w' : Writer} {action : Action}

/-- A step of an upload brings its end nearer. -/
theorem Upload.Moves.left {file : String → Option Bytes} {upload : Upload} {result : PutResult}
    {next : Option Upload} (moves : upload.Moves up file result next) :
    next.elim 0 (Upload.left up) + 1 ≤ upload.left up := by
  have shorter : ∀ {step : UploadStep} {later : List UploadStep}, upload.rest = step :: later →
      (up.retryAttempts + 1) * upload.rest.length =
        (up.retryAttempts + 1) * later.length + (up.retryAttempts + 1) := by
    intro step later isNext
    rw [isNext, List.length_cons, Nat.mul_succ]
  cases moves with
  | ends isDone => simp [Upload.left]
  | marks isNext =>
    have steps := shorter isNext
    simp only [Option.elim_some, Upload.left]
    omega
  | stores isNext _ =>
    have steps := shorter isNext
    simp only [Option.elim_some, Upload.left]
    omega
  | retries isNext _ _ =>
    simp only [Option.elim_some, Upload.left]
    omega
  | givesUp isNext _ _ => simp [Upload.left]

/-- A step within a pass does not move its end away, and one of the uploader brings it nearer. -/
theorem PhaseStep.left {phase : Phase} (within : WithinPass action)
    (moves : PhaseStep up w action phase) :
    phase.left up + (if action.ofPass then 1 else 0) ≤ w.phase.left up := by
  cases moves with
  | @ofLane action isLane =>
    have none : action.ofPass = false := by cases action <;> first | rfl | cases isLane
    simp [none]
  | skips age isSweeping =>
    rw [isSweeping]
    simp only [Phase.left, Action.ofPass, List.length_cons, List.length_nil, if_true]
    omega
  | expires age stem isSweeping =>
    rw [isSweeping]
    simp only [Phase.left, Action.ofPass, siblings, List.length_map, List.length_cons,
      List.length_nil, if_true]
    omega
  | misses age isSweeping =>
    rw [isSweeping]
    simp [Phase.left, Action.ofPass]
  | removes succeeds isSweeping =>
    rw [isSweeping]
    simp only [Phase.left, Action.ofPass, List.length_cons, if_true]
    omega
  | sweeps isSweeping =>
    rw [isSweeping]
    simp [Phase.left, Action.ofPass]
  | spawns isUploading =>
    rw [isUploading]
    simp only [Phase.left, Action.ofPass, Upload.left, uploadChunk, perChunk, List.length_append,
      List.length_cons, List.length_nil, List.map_append, List.map_cons, List.map_nil,
      List.sum_append, List.sum_cons, List.sum_nil, if_true, Nat.mul_succ]
    omega
  | @uploads waiting running task upload result next isUploading found moves =>
    have weighed := Tasks.sum_replaced (Upload.left up) next found
    have nearer := moves.left
    rw [isUploading]
    simp only [Phase.left, Action.ofPass, if_true]
    omega
  | @fails waiting running task isUploading =>
    rw [isUploading]
    by_cases inside : task < running.length
    · have weighed := Tasks.sum_replaced (Upload.left up) none
        (List.getElem?_eq_getElem inside)
      simp only [Phase.left, Action.ofPass, Bool.false_eq_true, if_false, Option.elim_none] at weighed ⊢
      omega
    · rw [Tasks.replaced, List.eraseIdx_of_length_le (Nat.le_of_not_lt inside)]
      simp [Phase.left, Action.ofPass]
  | joins isUploading =>
    rw [isUploading]
    simp [Phase.left, Action.ofPass]
  | _ => exact within.elim

/-! ## There is a step until the end -/

/-- A pass is neither over nor cut off. -/
def Phase.InPass (phase : Phase) : Prop := phase ≠ .idle ∧ phase ≠ .down

/-- Until the join of a pass there is a step that the uploader can take. -/
theorem goes_on (room : 0 < up.maxConcurrentUploads) (inPass : w.phase.InPass) :
    ∃ action, action.ofPass = true ∧ (act k cfg up w action).isSome = true := by
  cases isPhase : w.phase with
  | down => exact absurd isPhase inPass.2
  | idle => exact absurd isPhase inPass.1
  | sweeping pending entries removals =>
    cases removals with
    | cons file removals =>
      refine ⟨.remove true, rfl, ?_⟩
      simp only [act, isPhase]
      split <;> rfl
    | nil =>
      cases entries with
      | cons entry entries =>
        refine ⟨.examine none, rfl, ?_⟩
        simp only [act, examineAct, isPhase]
        split
        · rfl
        · split <;> rfl
      | nil => exact ⟨.endSweep, rfl, by simp [act, isPhase]⟩
  | uploading waiting running =>
    cases running with
    | cons upload running =>
      refine ⟨.upload 0 .stored, rfl, ?_⟩
      simp only [act, isPhase, uploadAct, List.getElem?_cons_zero, Option.bind_eq_bind,
        Option.bind_some]
      split
      · rfl
      · rfl
      · split
        · split <;> rfl
        · rfl
    | nil =>
      cases waiting with
      | cons chunk waiting => exact ⟨.spawn, rfl, by simp [act, isPhase, room]⟩
      | nil => exact ⟨.join, rfl, by simp [act, isPhase]⟩

/-- The uploader does not go down within a pass. -/
theorem PhaseStep.up_of_up {phase : Phase} (within : WithinPass action)
    (moves : PhaseStep up w action phase) (isUp : w.phase ≠ .down) : phase ≠ .down := by
  cases moves with
  | ofLane _ => exact isUp
  | crashes => exact within.elim
  | clears _ _ _ => exact within.elim
  | _ => exact fun same => nomatch same

/-- A pass has no more steps of its own left than its listings allow, whatever fails in it and
whatever the lanes do, an archived chunk that they open again included, and until its join one
of them can be taken. -/
theorem pass_ends (k : Codecs) (cfg : WriterConfig) (up : UploaderConfig)
    (room : 1 ≤ up.maxConcurrentUploads) (actions : List Action) (books : List Event)
    (w w' : Writer) (ran : Behaviour.Steps (act k cfg up) w actions books w')
    (isUp : w.phase ≠ .down) (within : ∀ action ∈ actions, WithinPass action) :
    actions.countP Action.ofPass ≤ w.phase.left up ∧
      (w'.phase = .idle ∨ ∃ action, action.ofPass = true ∧
        (act k cfg up w' action).isSome = true) := by
  constructor
  · have ranked := ran.ranked (fun w => w.phase.left up) Action.ofPass within
      (fun _ _ _ _ isWithin done => (act_phase done).left isWithin)
    exact (Nat.le_add_left _ _).trans ranked
  · have stillUp : w'.phase ≠ .down :=
      ran.keeps_along within (fun _ w => w.phase ≠ .down) isUp
        (fun _ _ _ _ _ isUp isWithin done => (act_phase done).up_of_up isWithin isUp)
    by_cases isIdle : w'.phase = .idle
    · exact .inl isIdle
    · exact .inr (goes_on room ⟨isIdle, stillUp⟩)

/-- The second attempt at a put, in the middle of a pass. -/
def midPass : Option ((List Event × Writer) × (List Event × Writer)) := do
  let first ← Behaviour.acts (act PlainCodecs.plain ⟨1000, 100, 4⟩ ⟨4, 3, 24⟩)
    (Writer.start ⟨1000, 100, 4⟩)
    (sealLone ++ [.scan [pendingChunk ⟨1000, 100, 4⟩ .tx 0], .endSweep])
  let second ← Behaviour.acts (act PlainCodecs.plain ⟨1000, 100, 4⟩ ⟨4, 3, 24⟩) first.2
    [.spawn, .upload 0 .refused, .openChunk .tx 1 1]
  some (first, second)

/-- Two of the 26 steps that are left at most are taken, and the next one is there. -/
theorem pass_ends_mid : ∃ first second, midPass = some (first, second) ∧
    2 ≤ first.2.phase.left ⟨4, 3, 24⟩ ∧
    (second.2.phase = .idle ∨ ∃ action, action.ofPass = true ∧
      (act PlainCodecs.plain ⟨1000, 100, 4⟩ ⟨4, 3, 24⟩ second.2 action).isSome = true) := by
  have computed : midPass.any (fun result => result.1.2.phase.left ⟨4, 3, 24⟩ = 26) = true := by
    decide +kernel
  obtain ⟨⟨⟨books, w⟩, books', w'⟩, steps, facts⟩ := Option.any_eq_true _ _ |>.mp computed
  have isUp : w.phase ≠ .down := by
    intro isDown
    have left := of_decide_eq_true facts
    rw [isDown] at left
    cases left
  refine ⟨_, _, steps, ?_⟩
  simp only [midPass, Option.bind_eq_bind, Option.bind_eq_some_iff] at steps
  obtain ⟨first, -, second, ran, same⟩ := steps
  cases same
  exact pass_ends PlainCodecs.plain ⟨1000, 100, 4⟩ ⟨4, 3, 24⟩ (by decide) _ books' w w'
    (Behaviour.steps_of_acts ran) isUp (by simp [WithinPass])

end Sillage.Uploader
