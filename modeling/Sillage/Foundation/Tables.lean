import Mathlib.Data.List.AList
import Mathlib.Logic.Function.Basic

/-!
# Tables filled from a list

A table is filled by inserting a key and a value for every item of a list; later
items replace earlier ones. With distinct keys every item is found again. A function into
optional values is a table as well; setting one entry leaves the others.
-/

namespace Sillage.Tables

universe u v w
variable {α : Type u} {κ : Type v} {ν : Type w} [DecidableEq κ]

/-- Insert the key and value of every item, in list order. -/
def tabulate (key : α → κ) (value : α → ν) (items : List α) : AList (fun _ : κ => ν) :=
  items.foldl (fun table item => table.insert (key item) (value item)) ∅

/-- A key that no item has is looked up in the initial table. -/
theorem lookup_foldl_of_absent (key : α → κ) (value : α → ν) (items : List α)
    (table : AList (fun _ : κ => ν)) (asked : κ) (absent : ∀ item ∈ items, key item ≠ asked) :
    (items.foldl (fun table item => table.insert (key item) (value item)) table).lookup asked =
      table.lookup asked := by
  induction items generalizing table with
  | nil => rfl
  | cons item rest inductionHypothesis =>
    rw [List.foldl_cons, inductionHypothesis _
      (fun later member => absent later (List.mem_cons_of_mem _ member))]
    exact AList.lookup_insert_ne (absent item List.mem_cons_self).symm

/-- A key that no item has is not in the table. -/
theorem lookup_tabulate_of_absent (key : α → κ) (value : α → ν) (items : List α) (asked : κ)
    (absent : ∀ item ∈ items, key item ≠ asked) :
    (tabulate key value items).lookup asked = none := by
  rw [tabulate, lookup_foldl_of_absent key value items ∅ asked absent, AList.lookup_empty]

/-- With distinct keys every item's value is found under its key. -/
theorem lookup_tabulate (key : α → κ) (value : α → ν) (items : List α)
    (distinct : (items.map key).Nodup) (item : α) (member : item ∈ items) :
    (tabulate key value items).lookup (key item) = some (value item) := by
  obtain ⟨before, after, rfl⟩ := List.append_of_mem member
  rw [tabulate, List.foldl_append, List.foldl_cons]
  have later : ∀ other ∈ after, key other ≠ key item := by
    intro other found same
    rw [List.map_append, List.map_cons, List.nodup_append] at distinct
    have fresh := (List.nodup_cons.mp distinct.2.1).1
    exact fresh (same ▸ List.mem_map_of_mem found)
  rw [lookup_foldl_of_absent key value after _ _ later, AList.lookup_insert]

/-- What is found behind setting an entry is that entry or was there before. -/
theorem update_some {ι : Type*} [DecidableEq ι] {table : ι → Option α} {i j : ι} {a b : α}
    (found : Function.update table i (some a) j = some b) :
    (j = i ∧ b = a) ∨ (j ≠ i ∧ table j = some b) := by
  by_cases same : j = i
  · subst same
    rw [Function.update_self] at found
    exact .inl ⟨rfl, (Option.some.inj found).symm⟩
  · rw [Function.update_of_ne same] at found
    exact .inr ⟨same, found⟩

/-- What holds of all entries, and of the one that is set, holds of all entries behind it. -/
theorem forall_update_some {ι : Type*} [DecidableEq ι] {motive : ι → α → Prop}
    {table : ι → Option α} (each : ∀ j b, table j = some b → motive j b) {i : ι} {a : α}
    (own : motive i a) (j : ι) (b : α)
    (found : Function.update table i (some a) j = some b) : motive j b := by
  rcases update_some found with ⟨rfl, rfl⟩ | ⟨-, before⟩
  · exact own
  · exact each j b before

end Sillage.Tables
