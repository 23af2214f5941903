import Mathlib.Data.List.Basic
import Mathlib.Tactic.Common
import Sillage.Foundation.LittleEndian

/-!
# Self-delimiting wire formats

A format writes values so that a reader knows where each one ends: reading takes
a value back off the front of any buffer and finds none in a proper prefix of its
encoding. Both laws are fields, and formats for pairs, alternatives, lists and
numbers are composed from formats for their parts.
-/

namespace Sillage.Wire

open LittleEndian

universe u v

/-- A self-delimiting format. -/
structure Format (α : Type u) where
  put : α → Bytes
  get : Bytes → Option (α × Bytes)
  exact : ∀ a rest, get (put a ++ rest) = some (a, rest)
  delimited : ∀ a cut, cut < (put a).length → get ((put a).take cut) = none

variable {α : Type u} {β : Type v}

/-- Read one value and ignore what follows it. -/
def Format.decode (wire : Format α) (buffer : Bytes) : Option α := (wire.get buffer).map Prod.fst

/-- What was put is read back. -/
theorem Format.decode_put (wire : Format α) (a : α) : wire.decode (wire.put a) = some a := by
  have read := wire.exact a []
  rw [List.append_nil] at read
  simp [Format.decode, read]

/-- What was put and then cut is not read at all. -/
theorem Format.decode_cut (wire : Format α) (a : α) (cut : Nat) (short : cut < (wire.put a).length) :
    wire.decode ((wire.put a).take cut) = none := by
  simp [Format.decode, wire.delimited a cut short]

/-- The only value of the unit type takes no space. -/
def unit : Format Unit where
  put _ := []
  get buffer := some ((), buffer)
  exact _ _ := rfl
  delimited _ _ short := absurd short (Nat.not_lt_zero _)

/-- A byte is its own encoding. -/
def byte : Format UInt8 where
  put b := [b]
  get
    | [] => none
    | b :: rest => some (b, rest)
  exact _ _ := rfl
  delimited b cut short := by
    obtain rfl : cut = 0 := by simpa using short
    rfl

/-- Two values back to back. -/
def pair (first : Format α) (second : Format β) : Format (α × β) where
  put both := first.put both.1 ++ second.put both.2
  get buffer := (first.get buffer).bind (fun (a, rest) =>
    (second.get rest).map (fun (b, rest) => ((a, b), rest)))
  exact both rest := by simp [first.exact, second.exact]
  delimited both cut short := by
    rcases Nat.lt_or_ge cut (first.put both.1).length with early | late
    · rw [List.take_append_of_le_length (Nat.le_of_lt early), first.delimited _ _ early]
      rfl
    · obtain ⟨more, rfl⟩ := Nat.exists_eq_add_of_le late
      rw [List.take_length_add_append, first.exact]
      have within : more < (second.put both.2).length := by simpa using short
      simp [second.delimited _ _ within]

/-- An alternative, announced by a leading byte. -/
def sum (left : Format α) (right : Format β) : Format (α ⊕ β) where
  put
    | .inl a => 0 :: left.put a
    | .inr b => 1 :: right.put b
  get
    | [] => none
    | tag :: rest =>
        if tag = 0 then (left.get rest).map (fun (a, rest) => (.inl a, rest))
        else (right.get rest).map (fun (b, rest) => (.inr b, rest))
  exact value rest := by
    cases value with
    | inl a => simp [left.exact]
    | inr b => simp [right.exact]
  delimited value cut short := by
    cases cut with
    | zero => simp
    | succ cut =>
      cases value with
      | inl a =>
        have within : cut < (left.put a).length := by simpa using short
        simp [left.delimited _ _ within]
      | inr b =>
        have within : cut < (right.put b).length := by simpa using short
        simp [right.delimited _ _ within]

/-- Transport a format along a retraction. -/
def via (wire : Format α) (down : β → α) (up : α → β) (retract : ∀ b, up (down b) = b) :
    Format β where
  put b := wire.put (down b)
  get buffer := (wire.get buffer).map (fun (a, rest) => (up a, rest))
  exact b rest := by simp [wire.exact, retract]
  delimited b cut short := by simp [wire.delimited _ _ short]

/-- Read elements while a leading one announces another. -/
def getElements (wire : Format α) : Nat → Bytes → Option (List α × Bytes)
  | 0, _ => none
  | _ + 1, [] => none
  | fuel + 1, tag :: rest =>
      if tag = 0 then some ([], rest)
      else (wire.get rest).bind (fun (a, rest) =>
        (getElements wire fuel rest).map (fun (later, rest) => (a :: later, rest)))

/-- A list is put element by element: one in front of each, and zero at the end. -/
def putElements (wire : Format α) : List α → Bytes
  | [] => [0]
  | a :: later => 1 :: (wire.put a ++ putElements wire later)

/-- Every element takes at least the byte that announces it. -/
theorem length_putElements (wire : Format α) (items : List α) :
    items.length < (putElements wire items).length := by
  induction items with
  | nil => simp [putElements]
  | cons a later inductionHypothesis =>
    simp only [putElements, List.length_cons, List.length_append]
    omega

/-- A list is read back, and the bytes behind it are left. -/
theorem getElements_put (wire : Format α) (items : List α) (rest : Bytes) (fuel : Nat)
    (enough : items.length < fuel) :
    getElements wire fuel (putElements wire items ++ rest) = some (items, rest) := by
  induction items generalizing fuel with
  | nil =>
    obtain ⟨fuel, rfl⟩ := Nat.exists_eq_succ_of_ne_zero (Nat.ne_of_gt enough)
    simp [putElements, getElements]
  | cons a later inductionHypothesis =>
    obtain ⟨fuel, rfl⟩ := Nat.exists_eq_succ_of_ne_zero (Nat.ne_of_gt (Nat.zero_lt_of_lt enough))
    have remaining := inductionHypothesis fuel (by simpa using enough)
    simp [putElements, getElements, wire.exact, remaining]

/-- A list that was cut is not read. -/
theorem getElements_cut (wire : Format α) (items : List α) (cut fuel : Nat)
    (short : cut < (putElements wire items).length) :
    getElements wire fuel ((putElements wire items).take cut) = none := by
  induction items generalizing cut fuel with
  | nil =>
    obtain rfl : cut = 0 := by simpa [putElements] using short
    cases fuel <;> simp [getElements]
  | cons a later inductionHypothesis =>
    cases fuel with
    | zero => rfl
    | succ fuel =>
      cases cut with
      | zero => simp [getElements]
      | succ cut =>
        simp only [putElements, List.take_succ_cons, getElements]
        rcases Nat.lt_or_ge cut (wire.put a).length with early | late
        · simp [List.take_append_of_le_length (Nat.le_of_lt early), wire.delimited _ _ early]
        · obtain ⟨more, rfl⟩ := Nat.exists_eq_add_of_le late
          have within : more < (putElements wire later).length := by
            simp only [putElements, List.length_cons, List.length_append] at short
            omega
          simp [List.take_length_add_append, wire.exact, inductionHypothesis more fuel within]

/-- A list, every element announced by a leading one. -/
def list (wire : Format α) : Format (List α) where
  put := putElements wire
  get buffer := getElements wire buffer.length buffer
  exact items rest := by
    refine getElements_put wire items rest _ ?_
    have longer := length_putElements wire items
    simp only [List.length_append]
    omega
  delimited items cut short := getElements_cut wire items cut _ short

/-- An optional value. -/
def option (wire : Format α) : Format (Option α) :=
  via (sum unit wire)
    (fun | none => .inl () | some a => .inr a) (fun | .inl () => none | .inr a => some a)
    (by rintro (_ | a) <;> rfl)

/-- A byte for a truth value. -/
def bool : Format Bool :=
  via (sum unit unit) (fun | false => .inl () | true => .inr ())
    (fun | .inl () => false | .inr () => true) (by rintro (_ | _) <;> rfl)

/-- The base-256 digits of a number, least significant first. -/
def digits : Nat → Nat → Bytes
  | 0, _ => []
  | fuel + 1, n => if n = 0 then [] else UInt8.ofNat n :: digits fuel (n / 256)

/-- The number of some digits, the least one first. -/
def ofDigits : Bytes → Nat
  | [] => 0
  | digit :: rest => digit.toNat + 256 * ofDigits rest

/-- A number is read back from its digits. -/
theorem ofDigits_digits (fuel n : Nat) (enough : n ≤ fuel) : ofDigits (digits fuel n) = n := by
  induction fuel generalizing n with
  | zero => simp [digits, ofDigits, Nat.le_zero.mp enough]
  | succ fuel inductionHypothesis =>
    rw [digits]
    split
    · next zero => simp [ofDigits, zero]
    · next positive =>
      have smaller : n / 256 ≤ fuel := by omega
      rw [ofDigits, inductionHypothesis _ smaller, UInt8.toNat_ofNat']
      omega

/-- A number, as the list of its digits. -/
def nat : Format Nat :=
  via (list byte) (fun n => digits n n) ofDigits (fun n => ofDigits_digits n n (Nat.le_refl n))

/-- A number and its sign. -/
def int : Format Int :=
  via (sum nat nat) (fun | .ofNat n => .inl n | .negSucc n => .inr n)
    (fun | .inl n => .ofNat n | .inr n => .negSucc n) (by rintro (n | n) <;> rfl)

/-- The code points of a text. -/
def string : Format String :=
  via (list nat) (fun text => text.toList.map Char.toNat)
    (fun codes => String.ofList (codes.map Char.ofNat)) (by intro text; simp [Function.comp_def])

/-- A buffer of octets. -/
def bytes : Format Bytes := list byte

end Sillage.Wire
