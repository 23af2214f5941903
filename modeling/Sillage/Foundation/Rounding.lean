import Mathlib.Algebra.GroupWithZero.Nat
import Mathlib.Data.Nat.Log

/-!
# Rounding to a number of significant bits

A number is rounded to the nearest multiple of a unit, and to the even multiple when two
are equally near. With the unit that leaves a given number of significant bits, this is
how an integer becomes a binary floating-point number.
-/

namespace Sillage.Rounding

/-- The nearest multiple of a unit, the even one of two that are equally near. -/
def nearestEven (unit n : Nat) : Nat :=
  if unit < 2 * (n % unit) ∨ (unit = 2 * (n % unit) ∧ n / unit % 2 = 1) then
    (n / unit + 1) * unit
  else n / unit * unit

/-- The unit in the last of a number of significant bits. -/
def unitOf (bits n : Nat) : Nat := 2 ^ (Nat.log 2 n + 1 - bits)

/-- A number with at most the given number of significant bits. -/
def significant (bits n : Nat) : Nat := nearestEven (unitOf bits n) n

/-- Zero has no digits to round. -/
theorem significant_zero (bits : Nat) : significant bits 0 = 0 := by
  have nothing : ∀ unit, 0 < unit → nearestEven unit 0 = 0 := by
    intro unit positive
    simp [nearestEven, positive.ne']
  exact nothing _ (Nat.two_pow_pos _)

/-- Rounding stays between the multiples below and above. -/
theorem nearestEven_bounds (unit n : Nat) :
    n / unit * unit ≤ nearestEven unit n ∧ nearestEven unit n ≤ (n / unit + 1) * unit := by
  have step : n / unit * unit ≤ (n / unit + 1) * unit :=
    Nat.mul_le_mul_right unit (Nat.le_succ _)
  rw [nearestEven]
  split
  · exact ⟨step, Nat.le_refl _⟩
  · exact ⟨Nat.le_refl _, step⟩

/-- Rounding to multiples of one unit keeps the order. -/
theorem nearestEven_mono (unit : Nat) {n m : Nat} (le : n ≤ m) :
    nearestEven unit n ≤ nearestEven unit m := by
  rcases Nat.lt_or_eq_of_le (Nat.div_le_div_right (c := unit) le) with less | same
  · -- another multiple lies between the two numbers
    calc nearestEven unit n ≤ (n / unit + 1) * unit := (nearestEven_bounds unit n).2
      _ ≤ m / unit * unit := Nat.mul_le_mul_right unit less
      _ ≤ nearestEven unit m := (nearestEven_bounds unit m).1
  · have remainders : n % unit ≤ m % unit := by
      have left := Nat.div_add_mod n unit
      have right := Nat.div_add_mod m unit
      rw [same] at left
      omega
    by_cases up : unit < 2 * (n % unit) ∨ (unit = 2 * (n % unit) ∧ n / unit % 2 = 1)
    · have above : unit < 2 * (m % unit) ∨ (unit = 2 * (m % unit) ∧ m / unit % 2 = 1) := by
        rw [← same]
        omega
      rw [nearestEven, nearestEven, if_pos up, if_pos above, same]
    · rw [nearestEven, if_neg up, same]
      exact (nearestEven_bounds unit m).1

/-- A number and what it is rounded to lie between the same powers of two. -/
theorem significant_bounds {bits n : Nat} (positive : 0 < bits) (nonzero : n ≠ 0) :
    2 ^ Nat.log 2 n ≤ significant bits n ∧ significant bits n ≤ 2 ^ (Nat.log 2 n + 1) := by
  -- a power of two that is a multiple of the unit bounds the rounded number
  have unitPositive : 0 < unitOf bits n := Nat.two_pow_pos _
  obtain ⟨lower, upper⟩ := nearestEven_bounds (unitOf bits n) n
  have dvdLow : unitOf bits n ∣ 2 ^ Nat.log 2 n := Nat.pow_dvd_pow 2 (by omega)
  have dvdHigh : unitOf bits n ∣ 2 ^ (Nat.log 2 n + 1) := Nat.pow_dvd_pow 2 (by omega)
  have least : 2 ^ Nat.log 2 n ≤ n := Nat.pow_log_le_self 2 nonzero
  have greatest : n < 2 ^ (Nat.log 2 n + 1) := Nat.lt_pow_succ_log_self (by decide) n
  constructor
  · obtain ⟨k, multiple⟩ := dvdLow
    refine Nat.le_trans ?_ lower
    rw [multiple, Nat.mul_comm]
    apply Nat.mul_le_mul_right
    rw [Nat.le_div_iff_mul_le unitPositive, Nat.mul_comm, ← multiple]
    exact least
  · obtain ⟨k, multiple⟩ := dvdHigh
    refine Nat.le_trans upper ?_
    rw [multiple, Nat.mul_comm (unitOf bits n)]
    apply Nat.mul_le_mul_right
    rw [Nat.succ_le_iff, Nat.div_lt_iff_lt_mul unitPositive, Nat.mul_comm, ← multiple]
    exact greatest

/-- Rounding to significant bits keeps the order. -/
theorem significant_mono {bits : Nat} (positive : 0 < bits) : Monotone (significant bits) := by
  intro n m le
  by_cases zero : n = 0
  · rw [zero, significant_zero]
    exact Nat.zero_le _
  · have nonzero : m ≠ 0 := by omega
    rcases Nat.lt_or_eq_of_le (Nat.log_mono_right (b := 2) le) with less | same
    · -- a power of two lies between the two rounded numbers
      calc significant bits n ≤ 2 ^ (Nat.log 2 n + 1) := (significant_bounds positive zero).2
        _ ≤ 2 ^ Nat.log 2 m := Nat.pow_le_pow_right (by decide) less
        _ ≤ significant bits m := (significant_bounds positive nonzero).1
    · rw [significant, significant, unitOf, unitOf, same]
      exact nearestEven_mono _ le

end Sillage.Rounding
