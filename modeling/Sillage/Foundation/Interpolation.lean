import Mathlib.Algebra.Order.Group.Nat
import Mathlib.Data.Int.Cast.Lemmas

/-!
# Linear interpolation

Between two numbers there are a number of steps. The value at a step is the first number
plus that part of the span which the step has covered, rounded down. Steps behind the last
one extrapolate.
-/

namespace Sillage.Interpolation

/-- The value at a step. -/
def interpolate (first last steps step : Nat) : Nat := first + step * (last - first) / steps

variable {first last steps : Nat}

/-- Nothing has been covered at the first step. -/
@[simp] theorem interpolate_zero : interpolate first last steps 0 = first := by
  simp [interpolate]

/-- No step goes back behind the start. -/
theorem le_interpolate (step : Nat) : first ≤ interpolate first last steps step :=
  Nat.le_add_right _ _

/-- The last step reaches the last number. -/
theorem interpolate_last (positive : 0 < steps) (ordered : first ≤ last) :
    interpolate first last steps steps = last := by
  rw [interpolate, Nat.mul_div_cancel_left _ positive, Nat.add_sub_cancel' ordered]

/-- Later steps are no lower. -/
theorem interpolate_monotone : Monotone (interpolate first last steps) := fun _ _ le =>
  Nat.add_le_add_left (Nat.div_le_div_right (Nat.mul_le_mul_right _ le)) first

/-- No step up to the last one goes beyond the last number. -/
theorem interpolate_le_last (positive : 0 < steps) (ordered : first ≤ last) {step : Nat}
    (within : step ≤ steps) : interpolate first last steps step ≤ last :=
  calc interpolate first last steps step ≤ interpolate first last steps steps :=
        interpolate_monotone within
    _ = last := interpolate_last positive ordered

/-- A value lies below a bound exactly if its part of the span lies below that of the bound. -/
theorem interpolate_lt_iff (positive : 0 < steps) {bound step : Nat} :
    interpolate first last steps step < bound ↔
      step * (last - first) < (bound - first) * steps := by
  rw [← Nat.div_lt_iff_lt_mul positive, interpolate, Nat.lt_sub_iff_add_lt']

/-- The value of an exact quotient of integers. -/
theorem interpolate_cast (ordered : first ≤ last) (step : Nat) :
    (interpolate first last steps step : Int) =
      first + step * ((last : Int) - first) / steps := by
  rw [interpolate, Nat.cast_add, Int.natCast_div, Nat.cast_mul, Nat.cast_sub ordered]

end Sillage.Interpolation
