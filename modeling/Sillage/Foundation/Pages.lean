import Mathlib.Data.List.Sort

/-!
# Listing a growing set page by page

A store answers a listing with the first of its keys behind a token, in ascending order,
and with a token for the next page if it holds more. The store may grow between two pages.
The client collects the pages until one comes without a token. What it has then is
complete for what was stored when it began, and lists nothing that was never stored.
-/

namespace Sillage.Pages

variable {κ : Type} [LinearOrder κ]

/-- A key lies behind a token. Without a token every key does. -/
def Behind (token : Option κ) (key : κ) : Prop := ∀ last ∈ token, last < key

/-- Whether a key lies behind a token is a comparison. -/
instance (token : Option κ) (key : κ) : Decidable (Behind token key) :=
  inferInstanceAs (Decidable (∀ last ∈ token, last < key))

/-- The stored keys behind a token, in ascending order. -/
def remaining (stored : List κ) (token : Option κ) : List κ :=
  (stored.filter (fun key => Behind token key)).insertionSort (· ≤ ·)

/-- What a client has collected, and the token for its next page. -/
structure Progress (κ : Type) where
  token : Option κ
  keys : List κ
deriving DecidableEq

/-- Nothing is collected. -/
def Progress.start : Progress κ := ⟨none, []⟩

/-- A page of some number of keys: what the client has behind it, and whether there is more. -/
def Progress.page (stored : List κ) (count : Nat) (p : Progress κ) : Progress κ × Bool :=
  let rest := remaining stored p.token
  let keys := rest.take count
  (⟨keys.getLast?.or p.token, p.keys ++ keys⟩, count < rest.length)

/-- What is known of a client that began when some keys were stored, and that lists a store
which holds some keys by now. -/
structure Covers (first now : List κ) (p : Progress κ) : Prop where
  complete : ∀ key ∈ first, key ∈ p.keys ∨ Behind p.token key
  sound : ∀ key ∈ p.keys, key ∈ now

variable {first now stored : List κ} {p : Progress κ} {token : Option κ} {key : κ}

/-- What remains behind a token is stored, and lies behind it. -/
theorem mem_remaining : key ∈ remaining stored token ↔ key ∈ stored ∧ Behind token key := by
  simp [remaining]

/-- What remains is listed in ascending order. -/
theorem remaining_sorted : (remaining stored token).Pairwise (· ≤ ·) :=
  List.pairwise_insertionSort _ _

/-- A listing that has just begun has everything before it. -/
theorem Covers.start (stored : List κ) : Covers stored stored Progress.start where
  complete := fun _ _ => .inr (fun _ none => by cases none)
  sound := fun _ none => by cases none

/-- The store grows. -/
theorem Covers.grow (covers : Covers first now p) (grows : now ⊆ stored) :
    Covers first stored p :=
  ⟨covers.complete, fun key listed => grows (covers.sound key listed)⟩

/-- What is left out of a page lies behind its last key, or the page has it. -/
theorem behind_take (count : Nat) (among : key ∈ remaining stored token) :
    key ∈ (remaining stored token).take count ∨
      Behind (((remaining stored token).take count).getLast?.or token) key := by
  rw [← List.take_append_drop count (remaining stored token)] at among
  rcases List.mem_append.mp among with taken | left
  · exact .inl taken
  · cases last : ((remaining stored token).take count).getLast? with
    | none =>
      rw [Option.none_or]
      exact .inr (mem_remaining.mp (List.mem_of_mem_drop left)).2
    | some greatest =>
      have isTaken := List.mem_of_getLast? last
      have sorted : (remaining stored token).Pairwise (· ≤ ·) := remaining_sorted
      rw [← List.take_append_drop count (remaining stored token)] at sorted
      have below := (List.pairwise_append.mp sorted).2.2 greatest isTaken key left
      rcases below.lt_or_eq with less | rfl
      · exact .inr (fun _ same => by cases same; exact less)
      · exact .inl isTaken

/-- A page keeps what is known. -/
theorem Covers.page (covers : Covers first stored p) (grows : first ⊆ stored) (count : Nat) :
    Covers first stored (p.page stored count).1 where
  complete := by
    intro key wasStored
    rcases covers.complete key wasStored with collected | behind
    · exact .inl (List.mem_append_left _ collected)
    · rcases behind_take count (mem_remaining.mpr ⟨grows wasStored, behind⟩) with taken | left
      · exact .inl (List.mem_append_right _ taken)
      · exact .inr left
  sound := by
    intro key listed
    rcases List.mem_append.mp listed with before | taken
    · exact covers.sound key before
    · exact (mem_remaining.mp (List.mem_of_mem_take taken)).1

/-- Behind the last page everything is collected that was stored at the beginning. -/
theorem Covers.last (covers : Covers first stored p) (grows : first ⊆ stored) {count : Nat}
    (isLast : (p.page stored count).2 = false) :
    ∀ key ∈ first, key ∈ (p.page stored count).1.keys := by
  intro key wasStored
  rcases covers.complete key wasStored with collected | behind
  · exact List.mem_append_left _ collected
  · have whole : (remaining stored p.token).length ≤ count := by
      simpa [Progress.page] using isLast
    refine List.mem_append_right _ ?_
    rw [List.take_of_length_le whole]
    exact mem_remaining.mpr ⟨grows wasStored, behind⟩

end Sillage.Pages
