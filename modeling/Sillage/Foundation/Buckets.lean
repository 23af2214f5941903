import Mathlib.Data.List.Basic
import Mathlib.Order.Basic
import Mathlib.Order.Nat

/-!
# Sorting by buckets

A list is sorted by a numeric key when the elements of each key stand together, the keys
ascending. Sorting stably by the key is the same as listing, key by key, the elements with
that key in their original order.
-/

namespace Sillage.Buckets

universe u
variable {α : Type u} {key : α → ℕ}

/-- Sort stably by a key. -/
def sortBy (key : α → ℕ) (items : List α) : List α :=
  items.mergeSort (fun a b => key a ≤ key b)

/-- A sorted list starts with the elements of its least key. -/
theorem sorted_split {items : List α} (sorted : items.Pairwise (fun a b => key a ≤ key b)) {i : ℕ}
    (least : ∀ x ∈ items, i ≤ key x) :
    items = items.filter (fun x => key x = i) ++ items.filter (fun x => key x ≠ i) := by
  induction items with
  | nil => rfl
  | cons x rest inductionHypothesis =>
    obtain ⟨leastFirst, leastRest⟩ := List.forall_mem_cons.mp least
    obtain ⟨first, sortedRest⟩ := List.pairwise_cons.mp sorted
    by_cases here : key x = i
    · have tail := inductionHypothesis sortedRest leastRest
      simp only [here, decide_true, List.filter_cons_of_pos, ne_eq, not_true_eq_false,
        decide_false, Bool.false_eq_true, not_false_eq_true, List.filter_cons_of_neg,
        List.cons_append]
      exact congrArg (x :: ·) tail
    · have above : ∀ y ∈ x :: rest, key y ≠ i := by
        refine List.forall_mem_cons.mpr ⟨here, fun y member => ?_⟩
        have order := first y member
        omega
      have none : (x :: rest).filter (fun y => key y = i) = [] :=
        List.filter_eq_nil_iff.mpr (fun y member => by simpa using above y member)
      have all : (x :: rest).filter (fun y => key y ≠ i) = x :: rest :=
        List.filter_eq_self.mpr (fun y member => by simpa using above y member)
      rw [none, all, List.nil_append]

/-- A sorted list lists its buckets one after the other. -/
theorem sorted_eq_flatMap {keys : List ℕ} (ascending : keys.Pairwise (· < ·)) {items : List α}
    (sorted : items.Pairwise (fun a b => key a ≤ key b)) (covered : ∀ x ∈ items, key x ∈ keys) :
    items = keys.flatMap (fun i => items.filter (fun x => key x = i)) := by
  induction keys generalizing items with
  | nil =>
    cases items with
    | nil => rfl
    | cons x rest => exact absurd (covered x List.mem_cons_self) List.not_mem_nil
  | cons i rest inductionHypothesis =>
    obtain ⟨below, ascendingRest⟩ := List.pairwise_cons.mp ascending
    have least : ∀ x ∈ items, i ≤ key x := by
      intro x member
      rcases List.mem_cons.mp (covered x member) with same | later
      · exact same.ge
      · exact (below _ later).le
    have tail := inductionHypothesis ascendingRest (sorted.filter (fun x => key x ≠ i)) (by
      intro x member
      obtain ⟨isItem, other⟩ := List.mem_filter.mp member
      exact (List.mem_cons.mp (covered x isItem)).resolve_left (by simpa using other))
    have buckets : rest.flatMap (fun j => (items.filter (fun x => key x ≠ i)).filter
        (fun x => key x = j)) = rest.flatMap (fun j => items.filter (fun x => key x = j)) := by
      refine List.flatMap_congr (fun j member => ?_)
      rw [List.filter_filter]
      refine List.filter_congr (fun x _ => ?_)
      have distinct : j ≠ i := (below j member).ne'
      by_cases here : key x = j <;> simp [here, distinct]
    rw [List.flatMap_cons, ← buckets, ← tail]
    exact sorted_split sorted least

/-- Order by a key is transitive. -/
theorem byKey_trans (a b c : α) (first : decide (key a ≤ key b) = true)
    (second : decide (key b ≤ key c) = true) : decide (key a ≤ key c) = true := by
  simp only [decide_eq_true_eq] at first second ⊢
  exact first.trans second

/-- Two items are in order by their key one way or the other. -/
theorem byKey_total (a b : α) : (decide (key a ≤ key b) || decide (key b ≤ key a)) = true := by
  simpa using Nat.le_total (key a) (key b)

/-- Stable sorting keeps every bucket as it is. -/
theorem sortBy_filter (items : List α) (i : ℕ) :
    (sortBy key items).filter (fun x => key x = i) = items.filter (fun x => key x = i) := by
  have level : (items.filter (fun x => key x = i)).Pairwise
      (fun a b => decide (key a ≤ key b) = true) := by
    refine List.pairwise_of_forall_mem_list (fun a member b member' => ?_)
    have left := of_decide_eq_true (List.mem_filter.mp member).2
    have right := of_decide_eq_true (List.mem_filter.mp member').2
    simp [left, right]
  have kept := (List.sublist_mergeSort byKey_trans byKey_total level List.filter_sublist).filter
    (fun x => key x = i)
  rw [List.filter_filter] at kept
  simp only [Bool.and_self] at kept
  exact (kept.eq_of_length (((List.mergeSort_perm items _).filter _).length_eq.symm)).symm

/-- Stable sorting lists the buckets one after the other. -/
theorem sortBy_eq_flatMap {keys : List ℕ} (ascending : keys.Pairwise (· < ·)) {items : List α}
    (covered : ∀ x ∈ items, key x ∈ keys) :
    sortBy key items = keys.flatMap (fun i => items.filter (fun x => key x = i)) := by
  have sorted : (sortBy key items).Pairwise (fun a b => key a ≤ key b) := by
    have ordered := List.pairwise_mergeSort (@byKey_trans α key) byKey_total items
    exact ordered.imp (fun related => of_decide_eq_true related)
  have split := sorted_eq_flatMap ascending sorted
    (fun x member => covered x ((List.mergeSort_perm items _).mem_iff.mp member))
  rw [split]
  exact List.flatMap_congr (fun i _ => sortBy_filter items i)

end Sillage.Buckets
