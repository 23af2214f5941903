import Mathlib.Data.List.Basic

/-!
# Systems that take actions

A system is given by what each action does to its state, where the action can be taken
at all, and by what the action leaves in the books. Whatever the system does not decide
itself, such as whose turn it is, is part of the action. What is proved of one step is
carried along whole runs here, once for all systems.
-/

namespace Sillage

/-- The effect of an action, if it can be taken: what goes into the books, and the state
behind it. -/
abbrev Behaviour (σ α ε : Type) := σ → α → Option (List ε × σ)

namespace Behaviour

variable {σ α ε : Type}

/-- The steps along some actions. -/
inductive Steps (act : Behaviour σ α ε) (s : σ) : List α → List ε → σ → Prop where
  | start : Steps act s [] [] s
  | step {actions : List α} {books more : List ε} {v v' : σ} (action : α)
      (ran : Steps act s actions books v) (done : act v action = some (more, v')) :
      Steps act s (actions ++ [action]) (books ++ more) v'

/-- Take some actions one after the other. -/
def acts (act : Behaviour σ α ε) (s : σ) : List α → Option (List ε × σ)
  | [] => some ([], s)
  | action :: rest => do
      let (more, s) ← act s action
      let (later, s) ← acts act s rest
      some (more ++ later, s)

/-- What the entries of one kind tell. -/
def told {β : Type} (kind : ε → Option β) (books : List ε) : List β := books.filterMap kind

section Told

variable {β : Type} (kind : ε → Option β)

/-- Empty books tell nothing. -/
@[simp] theorem told_nil : told kind [] = [] := rfl

/-- An entry tells one thing or nothing. -/
@[simp] theorem told_cons (entry : ε) (books : List ε) :
    told kind (entry :: books) = (kind entry).toList ++ told kind books := by
  cases found : kind entry <;> simp [told, found]

/-- Books tell one after the other. -/
@[simp] theorem told_append (books more : List ε) :
    told kind (books ++ more) = told kind books ++ told kind more := List.filterMap_append

end Told

variable {act : Behaviour σ α ε} {s v u : σ}

/-- A run goes on where another one has ended. -/
theorem Steps.trans {first second : List α} {books later : List ε}
    (ran : Steps act s first books v) (behind : Steps act v second later u) :
    Steps act s (first ++ second) (books ++ later) u := by
  induction behind with
  | start => simpa using ran
  | step action _ done inductionHypothesis =>
    rw [← List.append_assoc, ← List.append_assoc]
    exact .step action inductionHypothesis done

/-- What can be taken one after the other are steps. -/
theorem steps_of_acts {actions : List α} {books : List ε}
    (done : acts act s actions = some (books, v)) : Steps act s actions books v := by
  induction actions generalizing s books with
  | nil =>
    obtain ⟨rfl, rfl⟩ := Prod.mk.inj (Option.some.inj done)
    exact .start
  | cons action rest inductionHypothesis =>
    rw [acts] at done
    obtain ⟨⟨more, s'⟩, first, done⟩ := Option.bind_eq_some_iff.mp done
    obtain ⟨⟨later, u⟩, second, done⟩ := Option.bind_eq_some_iff.mp done
    obtain ⟨rfl, rfl⟩ := Prod.mk.inj (Option.some.inj done)
    have one : Steps act s ([] ++ [action]) ([] ++ more) s' := .step action .start first
    exact one.trans (inductionHypothesis second)

/-- What holds at the start and is kept by each action, with the actions that led to it and
the books, holds behind every run. -/
theorem Steps.keeps_with {actions : List α} {books : List ε} (ran : Steps act s actions books v)
    (inv : List α → List ε → σ → Prop) (initial : inv [] [] s)
    (kept : ∀ actions books v action more v', inv actions books v → act v action = some (more, v') →
      inv (actions ++ [action]) (books ++ more) v') : inv actions books v := by
  induction ran with
  | start => exact initial
  | step action _ done inductionHypothesis => exact kept _ _ _ _ _ _ inductionHypothesis done

/-- What holds at the start and is kept by each action that is allowed, with the books that
it writes, holds behind every run of such actions. -/
theorem Steps.keeps_along {actions : List α} {books : List ε} (ran : Steps act s actions books v)
    {allowed : α → Prop} (only : ∀ action ∈ actions, allowed action)
    (inv : List ε → σ → Prop) (initial : inv [] s)
    (kept : ∀ books v action more v', inv books v → allowed action →
      act v action = some (more, v') → inv (books ++ more) v') : inv books v := by
  refine ran.keeps_with (fun actions books v => (∀ action ∈ actions, allowed action) → inv books v)
    (fun _ => initial) ?_ only
  intro actions books v action more v' before done only
  have earlier : ∀ a ∈ actions, allowed a := fun a member => only a (by simp [member])
  exact kept _ _ _ _ _ (before earlier) (only action (by simp)) done

/-- What every action keeps holds behind every run. -/
theorem Steps.keeps {actions : List α} {books : List ε} (ran : Steps act s actions books v)
    (inv : List ε → σ → Prop) (initial : inv [] s)
    (kept : ∀ books v action more v', inv books v → act v action = some (more, v') →
      inv (books ++ more) v') : inv books v := by
  have all : ∀ action ∈ actions, True := fun _ _ => trivial
  exact ran.keeps_along all inv initial
    (fun books v action more v' holds _ => kept books v action more v' holds)

/-- Where no allowed action raises a rank, in any state that such actions lead to, those that
lower it are no more than the rank at the start allows. -/
theorem Steps.ranked_along {actions : List α} {books : List ε} (ran : Steps act s actions books v)
    (rank : σ → Nat) (counts : α → Bool) {allowed : α → Prop}
    (only : ∀ action ∈ actions, allowed action)
    (lowers : ∀ actions books v action more v', Steps act s actions books v →
      (∀ action ∈ actions, allowed action) → allowed action → act v action = some (more, v') →
      rank v' + (if counts action then 1 else 0) ≤ rank v) :
    rank v + actions.countP counts ≤ rank s := by
  induction ran with
  | start => simp
  | @step actions _ _ w w' action ran done inductionHypothesis =>
    have earlier : ∀ a ∈ actions, allowed a := fun a member => only a (by simp [member])
    have before := inductionHypothesis earlier
    have here := lowers actions _ w action _ w' ran earlier (only action (by simp)) done
    rw [List.countP_append, List.countP_singleton]
    omega

/-- Where no allowed action raises a rank in any state. -/
theorem Steps.ranked {actions : List α} {books : List ε} (ran : Steps act s actions books v)
    (rank : σ → Nat) (counts : α → Bool) {allowed : α → Prop}
    (only : ∀ action ∈ actions, allowed action)
    (lowers : ∀ v action more v', allowed action → act v action = some (more, v') →
      rank v' + (if counts action then 1 else 0) ≤ rank v) :
    rank v + actions.countP counts ≤ rank s :=
  ran.ranked_along rank counts only
    (fun _ _ v action more v' _ _ isAllowed done => lowers v action more v' isAllowed done)

/-! ## Two systems side by side -/

section Beside

variable {τ β δ : Type}

/-- Two systems side by side. What the second does may depend on the state of the first,
and leaves it as it is. -/
def beside (act : Behaviour σ α ε) (reading : σ → Behaviour τ β δ) :
    Behaviour (σ × τ) (α ⊕ β) (ε ⊕ δ) := fun both action =>
  match action with
  | .inl action => (act both.1 action).map (fun (more, s) => (more.map .inl, (s, both.2)))
  | .inr action =>
      (reading both.1 both.2 action).map (fun (more, t) => (more.map .inr, (both.1, t)))

/-- What the first system has in the books, and what the second has. -/
def firsts (books : List (ε ⊕ δ)) : List ε := told Sum.getLeft? books

/-- What the second system has in the books. -/
def seconds (books : List (ε ⊕ δ)) : List δ := told Sum.getRight? books

/-- The first system's books grow with the books of both. -/
theorem firsts_append (books more : List (ε ⊕ δ)) :
    firsts (books ++ more) = firsts books ++ firsts more := told_append ..

/-- So do those of the second. -/
theorem seconds_append (books more : List (ε ⊕ δ)) :
    seconds (books ++ more) = seconds books ++ seconds more := told_append ..

/-- What the first system writes is its own. -/
@[simp] theorem firsts_inl (more : List ε) : firsts (more.map (.inl : ε → ε ⊕ δ)) = more := by
  simp [firsts, told, List.filterMap_map, Function.comp_def]

/-- What the second system writes is not the first one's. -/
@[simp] theorem firsts_inr (more : List δ) : firsts (more.map (.inr : δ → ε ⊕ δ)) = [] := by
  simp [firsts, told, List.filterMap_map, Function.comp_def]

/-- What the first system writes is not the second one's. -/
@[simp] theorem seconds_inl (more : List ε) : seconds (more.map (.inl : ε → ε ⊕ δ)) = [] := by
  simp [seconds, told, List.filterMap_map, Function.comp_def]

/-- What the second system writes is its own. -/
@[simp] theorem seconds_inr (more : List δ) : seconds (more.map (.inr : δ → ε ⊕ δ)) = more := by
  simp [seconds, told, List.filterMap_map, Function.comp_def]

variable {reading : σ → Behaviour τ β δ}

/-- The first system runs by itself. -/
theorem Steps.first {both after : σ × τ} {actions : List (α ⊕ β)} {books : List (ε ⊕ δ)}
    (ran : Steps (beside act reading) both actions books after) :
    Steps act both.1 (firsts actions) (firsts books) after.1 := by
  induction ran with
  | start => exact .start
  | step action _ done inductionHypothesis =>
    rw [firsts_append, firsts_append]
    cases action with
    | inl action =>
      obtain ⟨_, acted, same⟩ := Option.map_eq_some_iff.mp done
      cases same
      rw [firsts_inl]
      exact .step action inductionHypothesis acted
    | inr action =>
      obtain ⟨_, -, same⟩ := Option.map_eq_some_iff.mp done
      cases same
      rw [firsts_inr, show firsts [(.inr action : α ⊕ β)] = [] from rfl, List.append_nil,
        List.append_nil]
      exact inductionHypothesis

/-- An invariant of the first system, and one of the second that the steps of the first
keep, hold behind every run of the two. -/
theorem Steps.beside_keeps {both after : σ × τ} {actions : List (α ⊕ β)} {books : List (ε ⊕ δ)}
    (ran : Steps (beside act reading) both actions books after)
    {allowed : α ⊕ β → Prop} (only : ∀ action ∈ actions, allowed action)
    (inv : List ε → σ → Prop) (inv' : σ → List δ → τ → Prop)
    (initial : inv [] both.1 ∧ inv' both.1 [] both.2)
    (first : ∀ books later s t action more s', inv books s → inv' s later t →
      allowed (.inl action) → act s action = some (more, s') →
      inv (books ++ more) s' ∧ inv' s' later t)
    (second : ∀ books later s t action more t', inv books s → inv' s later t →
      allowed (.inr action) → reading s t action = some (more, t') → inv' s (later ++ more) t') :
    inv (firsts books) after.1 ∧ inv' after.1 (seconds books) after.2 := by
  refine ran.keeps_along only (fun books both => inv (firsts books) both.1 ∧
    inv' both.1 (seconds books) both.2) initial ?_
  rintro books ⟨s, t⟩ action more ⟨s', t'⟩ ⟨holds, holds'⟩ isAllowed done
  rw [firsts_append, seconds_append]
  cases action with
  | inl action =>
    obtain ⟨⟨own, u⟩, acted, same⟩ := Option.map_eq_some_iff.mp done
    cases same
    rw [firsts_inl, seconds_inl, List.append_nil]
    exact first _ _ _ _ _ _ _ holds holds' isAllowed acted
  | inr action =>
    obtain ⟨⟨own, u⟩, acted, same⟩ := Option.map_eq_some_iff.mp done
    cases same
    rw [firsts_inr, seconds_inr, List.append_nil]
    exact ⟨holds, second _ _ _ _ _ _ _ holds holds' isAllowed acted⟩

end Beside

end Behaviour

end Sillage
