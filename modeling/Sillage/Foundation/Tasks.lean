import Mathlib.Algebra.BigOperators.Group.List.Basic
import Mathlib.Algebra.GroupWithZero.Nat
import Mathlib.Data.List.Basic
import Mathlib.Data.List.Perm.Basic

/-!
# Tasks side by side

A pool keeps the tasks that run in it in a list, in the order in which they were started. A
step is one of a single task, which goes on or is done with.
-/

namespace Sillage.Tasks

variable {α β : Type}

/-- The running tasks behind a step of one of them. -/
def replaced (running : List α) (task : Nat) (next : Option α) : List α :=
  match next with
  | some t => running.set task t
  | none => running.eraseIdx task

variable {running : List α} {task i : Nat} {t t' other : α} {next : Option α}

/-- A task behind a step is the one that took it, or one of the others. -/
theorem mem_replaced (member : other ∈ replaced running task next) :
    other ∈ next ∨ ∃ i, i ≠ task ∧ running[i]? = some other := by
  cases next with
  | none =>
    obtain ⟨i, distinct, found⟩ := List.mem_eraseIdx_iff_getElem?.mp member
    exact .inr ⟨i, distinct, found⟩
  | some t =>
    obtain ⟨i, found⟩ := List.mem_iff_getElem?.mp member
    rw [replaced, List.getElem?_set] at found
    split at found
    · next own =>
      split at found
      · exact .inl found
      · cases found
    · next apart => exact .inr ⟨i, fun same => apart same.symm, found⟩

/-- The other tasks go on running. -/
theorem other_mem_replaced (apart : i ≠ task) (found : running[i]? = some other) :
    other ∈ replaced running task next := by
  cases next with
  | none => exact List.mem_eraseIdx_iff_getElem?.mpr ⟨i, apart, found⟩
  | some t =>
    refine List.mem_iff_getElem?.mpr ⟨i, ?_⟩
    rw [replaced, List.getElem?_set_ne apart.symm]
    exact found

/-- A task that goes on behind its step is still there. -/
theorem next_mem_replaced (found : running[task]? = some t) :
    t' ∈ replaced running task (some t') := by
  obtain ⟨inside, -⟩ := List.getElem?_eq_some_iff.mp found
  exact List.mem_set inside t'

/-- A task that goes on keeps its place, and what is the same behind its step. -/
theorem map_set {f : α → β} (found : running[task]? = some t) (same : f t' = f t) :
    (running.set task t').map f = running.map f := by
  obtain ⟨inside, isFound⟩ := List.getElem?_eq_some_iff.mp found
  rw [List.map_set, same, ← isFound]
  exact (congrArg _ (List.getElem_map f (h := by simpa using inside)).symm).trans
    (List.set_getElem_self _)

/-- A task that is done with leaves the others. -/
theorem map_eraseIdx (f : α → β) (found : running[task]? = some t) :
    (f t :: (running.eraseIdx task).map f).Perm (running.map f) := by
  obtain ⟨inside, isFound⟩ := List.getElem?_eq_some_iff.mp found
  rw [← List.map_cons, ← isFound]
  exact (List.getElem_cons_eraseIdx_perm inside).map _

/-- What a step leaves as it is of a task, it leaves as it is of all of them. -/
theorem map_replaced {f : α → β} (found : running[task]? = some t)
    (same : ∀ t' ∈ next, f t' = f t) :
    ((replaced running task next).map f).Sublist (running.map f) := by
  cases next with
  | none => exact (List.eraseIdx_sublist running task).map _
  | some t' => rw [replaced, map_set found (same t' rfl)]

/-- What the tasks weigh together. -/
theorem sum_replaced (weight : α → Nat) (next : Option α) (found : running[task]? = some t) :
    ((replaced running task next).map weight).sum + weight t =
      (running.map weight).sum + next.elim 0 weight := by
  obtain ⟨inside, rfl⟩ := List.getElem?_eq_some_iff.mp found
  have whole := ((List.getElem_cons_eraseIdx_perm inside).map weight).sum_nat
  cases next with
  | none =>
    simp [replaced] at whole ⊢
    omega
  | some t' =>
    have changed := ((List.set_perm_cons_eraseIdx inside t').map weight).sum_nat
    simp [replaced] at whole changed ⊢
    omega

end Sillage.Tasks
