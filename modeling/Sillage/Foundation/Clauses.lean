import Mathlib.Data.List.Basic

/-!
# Clauses whose atoms are looked up

A conjunction of clauses is evaluated over the truth of its atoms. A clause asks for one
of some atoms, or for the absence of an atom, or cannot be met at all. A reader that sees
only part of the truth takes an atom that it does not see for false. Clauses that ask for
atoms can then fail wrongly, and clauses that ask for an absence can wrongly be met; the
results say exactly when.
-/

namespace Sillage

universe u

/-- A clause over atoms. -/
inductive Clause (α : Type u) where
  | never
  | any (atoms : List α)
  | absent (atom : α)
deriving DecidableEq

namespace Clause

variable {α : Type u}

/-- What a clause says of the true atoms. -/
def Holds (truth : α → Prop) : Clause α → Prop
  | never => False
  | any atoms => ∃ atom ∈ atoms, truth atom
  | absent atom => ¬ truth atom

/-- All clauses hold. -/
def Met (clauses : List (Clause α)) (truth : α → Prop) : Prop :=
  ∀ clause ∈ clauses, clause.Holds truth

/-- The truth of the atoms that are seen. -/
def SeenOf (truth seen : α → Prop) (atom : α) : Prop := truth atom ∧ seen atom

/-- Every clause that asks for atoms has a true one that is seen. -/
def Supported (clauses : List (Clause α)) (truth seen : α → Prop) : Prop :=
  ∀ atoms, any atoms ∈ clauses → ∃ atom ∈ atoms, truth atom ∧ seen atom

/-- Some clause fails for a reason that is seen: it cannot be met, or none of the atoms
that it asks for is true and seen, or the atom that it forbids is. -/
def Barred (clauses : List (Clause α)) (truth seen : α → Prop) : Prop :=
  never ∈ clauses ∨
    (∃ atoms, any atoms ∈ clauses ∧ ∀ atom ∈ atoms, truth atom → ¬ seen atom) ∨
      ∃ atom, absent atom ∈ clauses ∧ truth atom ∧ seen atom

variable {clauses more : List (Clause α)} {truth seen : α → Prop}

/-- No clause asks for nothing. -/
@[simp] theorem met_nil : Met [] truth ↔ True := by
  simp [Met]

/-- Clauses are met one by one. -/
@[simp] theorem met_cons {clause : Clause α} :
    Met (clause :: clauses) truth ↔ clause.Holds truth ∧ Met clauses truth := by
  simp [Met]

/-- Clauses are met part by part. -/
@[simp] theorem met_append : Met (clauses ++ more) truth ↔ Met clauses truth ∧ Met more truth := by
  simp only [Met, List.mem_append, or_imp, forall_and]

/-- A clause is met by truths that agree on the atoms. -/
theorem met_congr {other : α → Prop} (same : ∀ atom, truth atom ↔ other atom) :
    Met clauses truth ↔ Met clauses other := by
  have equal : truth = other := funext (fun atom => propext (same atom))
  rw [equal]

/-- An atom that some clause is about. -/
def About (clauses : List (Clause α)) (atom : α) : Prop :=
  absent atom ∈ clauses ∨ ∃ atoms, any atoms ∈ clauses ∧ atom ∈ atoms

/-- Where the true atoms that the clauses are about are seen, clauses that are met are
supported. -/
theorem Met.supported (met : Met clauses truth)
    (sees : ∀ atom, About clauses atom → truth atom → seen atom) :
    Supported clauses truth seen := by
  intro atoms asked
  obtain ⟨atom, among, isTrue⟩ := met (any atoms) asked
  exact ⟨atom, among, isTrue, sees atom (.inr ⟨atoms, asked, among⟩) isTrue⟩

/-- Where the true atoms that the clauses are about are seen, clauses that are not met are
barred. -/
theorem barred_of_not_met (failed : ¬ Met clauses truth)
    (sees : ∀ atom, About clauses atom → truth atom → seen atom) :
    Barred clauses truth seen := by
  obtain ⟨clause, member, broken⟩ : ∃ clause ∈ clauses, ¬ clause.Holds truth := by
    by_contra none
    exact failed (fun clause member => by_contra (fun broken => none ⟨clause, member, broken⟩))
  cases clause with
  | never => exact .inl member
  | any atoms =>
    exact .inr (.inl ⟨atoms, member, fun atom among isTrue => absurd ⟨atom, among, isTrue⟩ broken⟩)
  | absent atom =>
    have isTrue : truth atom := not_not.mp broken
    exact .inr (.inr ⟨atom, member, isTrue, sees atom (.inl member) isTrue⟩)

/-- Clauses that are met are seen to be met exactly when those that ask for atoms see one.
Forbidden atoms that are false cannot be seen to be true. -/
theorem met_seen_iff (met : Met clauses truth) :
    Met clauses (SeenOf truth seen) ↔ Supported clauses truth seen := by
  constructor
  · intro seenMet atoms asked
    exact seenMet (any atoms) asked
  · intro supported clause member
    cases clause with
    | never => exact met never member
    | any atoms => exact supported atoms member
    | absent atom => exact fun seenTrue => met (absent atom) member seenTrue.1

/-- Clauses are seen to fail exactly when one is barred. -/
theorem not_met_seen_iff : ¬ Met clauses (SeenOf truth seen) ↔ Barred clauses truth seen := by
  constructor
  · intro failed
    obtain ⟨clause, member, broken⟩ : ∃ clause ∈ clauses, ¬ clause.Holds (SeenOf truth seen) := by
      by_contra none
      exact failed (fun clause member => by_contra (fun broken => none ⟨clause, member, broken⟩))
    cases clause with
    | never => exact .inl member
    | any atoms =>
      exact .inr (.inl ⟨atoms, member, fun atom among isTrue isSeen =>
        broken ⟨atom, among, isTrue, isSeen⟩⟩)
    | absent atom => exact .inr (.inr ⟨atom, member, not_not.mp broken⟩)
  · rintro (member | ⟨atoms, member, unseen⟩ | ⟨atom, member, isTrue, isSeen⟩) met
    · exact met never member
    · obtain ⟨atom, among, isTrue, isSeen⟩ := met (any atoms) member
      exact unseen atom among isTrue isSeen
    · exact met (absent atom) member ⟨isTrue, isSeen⟩

end Clause

end Sillage
