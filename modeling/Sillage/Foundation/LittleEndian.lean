import Mathlib.Algebra.GroupWithZero.Nat
import Mathlib.Data.List.Basic

/-!
# Four-byte little-endian words

A natural number is written as its residue modulo `2 ^ 32`, the least
significant byte first. Reading returns the number below `2 ^ 32` that was
written; the bytes of a larger number silently denote its residue.
-/

namespace Sillage.LittleEndian

/-- A buffer of octets. -/
abbrev Bytes := List UInt8

/-- One more than the largest value of an unsigned 32-bit word. -/
def u32Bound : Nat := 2 ^ 32

/-- One more than the largest value of an unsigned 64-bit word. -/
def u64Bound : Nat := 2 ^ 64

/-- The four bytes of a number's residue, least significant first. -/
def u32Bytes (n : Nat) : Bytes :=
  [UInt8.ofNat n, UInt8.ofNat (n / 2 ^ 8), UInt8.ofNat (n / 2 ^ 16), UInt8.ofNat (n / 2 ^ 24)]

/-- The value of four little-endian bytes. -/
def u32Value (b₀ b₁ b₂ b₃ : UInt8) : Nat :=
  b₀.toNat + 2 ^ 8 * b₁.toNat + 2 ^ 16 * b₂.toNat + 2 ^ 24 * b₃.toNat

/-- A number of 32 bits has four bytes. -/
@[simp] theorem u32Bytes_length (n : Nat) : (u32Bytes n).length = 4 := rfl

/-- Reading the bytes of a number yields its residue. -/
theorem u32Value_bytes (n : Nat) :
    u32Value (UInt8.ofNat n) (UInt8.ofNat (n / 2 ^ 8)) (UInt8.ofNat (n / 2 ^ 16))
      (UInt8.ofNat (n / 2 ^ 24)) = n % u32Bound := by
  simp only [u32Value, u32Bound, UInt8.toNat_ofNat']
  omega

/-- A number that fits the word is read back unchanged. -/
theorem u32Value_exact (n : Nat) (fits : n < u32Bound) :
    u32Value (UInt8.ofNat n) (UInt8.ofNat (n / 2 ^ 8)) (UInt8.ofNat (n / 2 ^ 16))
      (UInt8.ofNat (n / 2 ^ 24)) = n := by
  rw [u32Value_bytes, Nat.mod_eq_of_lt fits]

/-- Four bytes always fit the word. -/
theorem u32Value_lt (b₀ b₁ b₂ b₃ : UInt8) : u32Value b₀ b₁ b₂ b₃ < u32Bound := by
  have first := b₀.toNat_lt
  have second := b₁.toNat_lt
  have third := b₂.toNat_lt
  have fourth := b₃.toNat_lt
  simp only [u32Value, u32Bound]
  omega

/-- A byte is known by its residue. -/
theorem ofNat_eq {n : Nat} {b : UInt8} (residue : n % 2 ^ 8 = b.toNat) : UInt8.ofNat n = b := by
  apply UInt8.toNat_inj.mp
  rw [UInt8.toNat_ofNat', residue]

/-- Writing the value of four bytes gives the bytes back. -/
theorem u32Bytes_value (b₀ b₁ b₂ b₃ : UInt8) :
    u32Bytes (u32Value b₀ b₁ b₂ b₃) = [b₀, b₁, b₂, b₃] := by
  have first := b₀.toNat_lt
  have second := b₁.toNat_lt
  have third := b₂.toNat_lt
  have fourth := b₃.toNat_lt
  simp only [u32Bytes, u32Value, List.cons.injEq, and_true]
  refine ⟨ofNat_eq ?_, ofNat_eq ?_, ofNat_eq ?_, ofNat_eq ?_⟩ <;> omega

end Sillage.LittleEndian
