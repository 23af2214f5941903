import Sillage.Foundation.LittleEndian

/-!
# Slices and additions that can panic

A range of a buffer is only there when it is ordered and ends inside the buffer. An
addition of 64-bit words that does not fit panics when overflow is checked and wraps
around when it is not.
-/

namespace Sillage

open LittleEndian

/-- What stops a program that reads buffers. -/
inductive Panic where
  | overflow
  | sliceOrder (start stop : Nat)
  | sliceEnd (stop length : Nat)
  | index (position length : Nat)
  | arrayLength (length : Nat)
deriving DecidableEq

namespace Slices

/-- The bytes from `start` on and before `stop`. -/
def slice (bytes : Bytes) (start stop : Nat) : Except Panic Bytes :=
  if stop < start then .error (.sliceOrder start stop)
  else if bytes.length < stop then .error (.sliceEnd stop bytes.length)
  else .ok ((bytes.drop start).take (stop - start))

/-- The bytes from `start` on. -/
def sliceFrom (bytes : Bytes) (start : Nat) : Except Panic Bytes :=
  slice bytes start bytes.length

/-- The byte at a position. -/
def byteAt (bytes : Bytes) (position : Nat) : Except Panic UInt8 :=
  match bytes[position]? with
  | some byte => .ok byte
  | none => .error (.index position bytes.length)

/-- The word of a buffer of four bytes. -/
def wordOf : Bytes → Except Panic Nat
  | [b₀, b₁, b₂, b₃] => .ok (u32Value b₀ b₁ b₂ b₃)
  | bytes => .error (.arrayLength bytes.length)

/-- The sum of two words, with or without overflow checks. -/
def addWord (checks : Bool) (a b : Nat) : Except Panic Nat :=
  if a + b < u64Bound then .ok (a + b)
  else if checks then .error .overflow
  else .ok ((a + b) % u64Bound)

/-- A slice within the bytes is taken out of them. -/
theorem slice_ok {bytes : Bytes} {start stop : Nat} (ordered : start ≤ stop)
    (inside : stop ≤ bytes.length) :
    slice bytes start stop = .ok ((bytes.drop start).take (stop - start)) := by
  rw [slice, if_neg (Nat.not_lt.mpr ordered), if_neg (Nat.not_lt.mpr inside)]

/-- A slice can be taken exactly if its ends are in order and within the bytes. -/
theorem slice_isOk {bytes : Bytes} {start stop : Nat} :
    (∃ part, slice bytes start stop = .ok part) ↔ start ≤ stop ∧ stop ≤ bytes.length := by
  constructor
  · rintro ⟨part, done⟩
    rw [slice] at done
    split at done
    · cases done
    · next ordered =>
      split at done
      · cases done
      · next inside => exact ⟨Nat.le_of_not_lt ordered, Nat.le_of_not_lt inside⟩
  · rintro ⟨ordered, inside⟩
    exact ⟨_, slice_ok ordered inside⟩

/-- A slice from a place within the bytes is the rest behind it. -/
theorem sliceFrom_ok {bytes : Bytes} {start : Nat} (inside : start ≤ bytes.length) :
    sliceFrom bytes start = .ok (bytes.drop start) := by
  rw [sliceFrom, slice_ok inside (Nat.le_refl _), ← List.length_drop, List.take_length]

/-- A sum that fits is the same with and without checks. -/
theorem addWord_fits {a b : Nat} (fits : a + b < u64Bound) (checks : Bool) :
    addWord checks a b = .ok (a + b) := if_pos fits

/-- With checks, a sum is there exactly if it fits. -/
theorem addWord_checked {a b : Nat} :
    (∃ sum, addWord true a b = .ok sum) ↔ a + b < u64Bound := by
  constructor
  · rintro ⟨sum, done⟩
    by_contra beyond
    rw [addWord, if_neg beyond] at done
    cases done
  · exact fun fits => ⟨_, addWord_fits fits true⟩

/-- Without checks, a sum is its residue. -/
theorem addWord_unchecked (a b : Nat) : addWord false a b = .ok ((a + b) % u64Bound) := by
  rw [addWord]
  split
  · next fits => rw [Nat.mod_eq_of_lt fits]
  · rfl

end Slices

end Sillage
