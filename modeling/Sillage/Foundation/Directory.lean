import Mathlib.Data.List.AList
import Sillage.Foundation.LittleEndian

/-!
# Flat directories and atomic file steps

A directory maps distinct file names to their bytes. A program that writes to it
performs a list of atomic steps; an interruption between two of them leaves the
directory after a prefix of the list. Creating and writing a file are separate
steps, so an interruption can also leave the file empty.

The order in which the entries are stored carries no meaning: a caller that
lists a directory quantifies over every permutation of its names.
-/

namespace Sillage.Directory

open LittleEndian

/-- A file name, as its characters. -/
abbrev FileName := List Char

/-- The files of one flat directory. -/
abbrev Dir := AList (fun _ : FileName => Bytes)

/-- One atomic change of a directory. -/
inductive FileStep where
  | create (name : FileName)
  | write (name : FileName) (content : Bytes)
  | rename (source target : FileName)
  | remove (name : FileName)
deriving DecidableEq

/-- The effect of one step. Renaming replaces the target; renaming or removing a
name that does not exist changes nothing. -/
def FileStep.apply (dir : Dir) : FileStep → Dir
  | .create name => dir.insert name []
  | .write name content => dir.insert name content
  | .rename source target =>
      match dir.lookup source with
      | some content => (dir.erase source).insert target content
      | none => dir
  | .remove name => dir.erase name

/-- The directory after every step of a list. -/
def perform (dir : Dir) (steps : List FileStep) : Dir := steps.foldl FileStep.apply dir

/-- The directory when the run stops after the first `cut` steps. -/
def performCut (dir : Dir) (steps : List FileStep) (cut : Nat) : Dir :=
  perform dir (steps.take cut)

/-- The names that a step can change. -/
def FileStep.touches : FileStep → List FileName
  | .create name => [name]
  | .write name _ => [name]
  | .rename source target => [source, target]
  | .remove name => [name]

/-- A created file is empty, and no other is concerned. -/
@[simp] theorem lookup_create (dir : Dir) (name asked : FileName) :
    (FileStep.apply dir (.create name)).lookup asked =
      if asked = name then some [] else dir.lookup asked := by
  by_cases same : asked = name
  · subst same
    simp [FileStep.apply]
  · simp [FileStep.apply, same, AList.lookup_insert_ne same]

/-- A written file has the new content, and no other is concerned. -/
@[simp] theorem lookup_write (dir : Dir) (name asked : FileName) (content : Bytes) :
    (FileStep.apply dir (.write name content)).lookup asked =
      if asked = name then some content else dir.lookup asked := by
  by_cases same : asked = name
  · subst same
    simp [FileStep.apply]
  · simp [FileStep.apply, same, AList.lookup_insert_ne same]

/-- A removed file is gone, and no other is concerned. -/
@[simp] theorem lookup_remove (dir : Dir) (name asked : FileName) :
    (FileStep.apply dir (.remove name)).lookup asked =
      if asked = name then none else dir.lookup asked := by
  by_cases same : asked = name
  · subst same
    simp [FileStep.apply]
  · simp [FileStep.apply, same, AList.lookup_erase_ne same]

/-- A rename moves the content of an existing source to the target and leaves no
other name changed. -/
theorem lookup_rename (dir : Dir) (source target asked : FileName) (content : Bytes)
    (stored : dir.lookup source = some content) :
    (FileStep.apply dir (.rename source target)).lookup asked =
      if asked = target then some content
      else if asked = source then none else dir.lookup asked := by
  by_cases atTarget : asked = target
  · subst atTarget
    simp [FileStep.apply, stored]
  · by_cases atSource : asked = source
    · subst atSource
      simp [FileStep.apply, stored, AList.lookup_insert_ne atTarget, atTarget]
    · simp [FileStep.apply, stored, atTarget, atSource, AList.lookup_insert_ne atTarget,
        AList.lookup_erase_ne atSource]

/-- A rename, whether or not its source exists. -/
theorem lookup_renamed (dir : Dir) (source target asked : FileName) :
    (FileStep.apply dir (.rename source target)).lookup asked =
      match dir.lookup source with
      | some content =>
          if asked = target then some content else if asked = source then none else dir.lookup asked
      | none => dir.lookup asked := by
  cases stored : dir.lookup source with
  | none => simp [FileStep.apply, stored]
  | some content => exact lookup_rename dir source target asked content stored

/-- A step leaves every name outside its own alone. -/
theorem lookup_untouched (dir : Dir) (step : FileStep) (asked : FileName)
    (apart : asked ∉ step.touches) : (FileStep.apply dir step).lookup asked = dir.lookup asked := by
  cases step with
  | create name =>
    have distinct : asked ≠ name := by simpa [FileStep.touches] using apart
    simp [distinct]
  | write name content =>
    have distinct : asked ≠ name := by simpa [FileStep.touches] using apart
    simp [distinct]
  | remove name =>
    have distinct : asked ≠ name := by simpa [FileStep.touches] using apart
    simp [distinct]
  | rename source target =>
    have distinct : asked ≠ source ∧ asked ≠ target := by simpa [FileStep.touches] using apart
    cases stored : dir.lookup source with
    | none => simp [FileStep.apply, stored]
    | some content =>
      rw [lookup_rename dir source target asked content stored, if_neg distinct.2,
        if_neg distinct.1]

/-- A list of steps leaves every name outside all of them alone. -/
theorem perform_untouched (dir : Dir) (steps : List FileStep) (asked : FileName)
    (apart : ∀ step ∈ steps, asked ∉ step.touches) :
    (perform dir steps).lookup asked = dir.lookup asked := by
  induction steps generalizing dir with
  | nil => rfl
  | cons step rest inductionHypothesis =>
    change (perform (FileStep.apply dir step) rest).lookup asked = _
    rw [inductionHypothesis (FileStep.apply dir step)
      (fun later member => apart later (List.mem_cons_of_mem _ member))]
    exact lookup_untouched dir step asked (apart step List.mem_cons_self)

/-- Some removals leave every other name alone. -/
theorem lookup_removeAll (files : List FileName) (dir : Dir) (asked : FileName) :
    (perform dir (files.map .remove)).lookup asked =
      if asked ∈ files then none else dir.lookup asked := by
  induction files generalizing dir with
  | nil => simp [perform]
  | cons file rest inductionHypothesis =>
    rw [List.map_cons, perform, List.foldl_cons, ← perform, inductionHypothesis, lookup_remove]
    by_cases later : asked ∈ rest
    · simp [later]
    · by_cases here : asked = file <;> simp [later, here]

/-- Two directories hold the same files under some names. -/
def Agree (names : FileName → Prop) (first second : Dir) : Prop :=
  ∀ name, names name → first.lookup name = second.lookup name

/-- A step that stays inside the names keeps the agreement. -/
theorem agree_apply {names : FileName → Prop} {first second : Dir}
    (agree : Agree names first second) (step : FileStep)
    (inside : ∀ name ∈ step.touches, names name) :
    Agree names (FileStep.apply first step) (FileStep.apply second step) := by
  intro asked shared
  cases step with
  | create name => simp [agree asked shared]
  | write name content => simp [agree asked shared]
  | remove name => simp [agree asked shared]
  | rename source target =>
    have stored := agree source (inside source (by simp [FileStep.touches]))
    simp only [lookup_renamed, stored, agree asked shared]

/-- Changes of some names keep two directories in agreement on them. -/
theorem agree_perform {names : FileName → Prop} {first second : Dir}
    (agree : Agree names first second) (steps : List FileStep)
    (inside : ∀ step ∈ steps, ∀ name ∈ step.touches, names name) :
    Agree names (perform first steps) (perform second steps) := by
  induction steps generalizing first second with
  | nil => exact agree
  | cons step rest inductionHypothesis =>
    exact inductionHypothesis (agree_apply agree step (inside step List.mem_cons_self))
      (fun later member => inside later (List.mem_cons_of_mem _ member))

/-- Cutting a run at or after its last step performs all of it. -/
theorem performCut_all (dir : Dir) (steps : List FileStep) (cut : Nat)
    (complete : steps.length ≤ cut) : performCut dir steps cut = perform dir steps := by
  rw [performCut, List.take_of_length_le complete]

/-- A name is listed exactly when it has content. -/
theorem mem_keys_iff (dir : Dir) (name : FileName) :
    name ∈ dir.keys ↔ ∃ content, dir.lookup name = some content := by
  rw [← AList.mem_keys, ← AList.lookup_isSome, Option.isSome_iff_exists]

end Sillage.Directory
