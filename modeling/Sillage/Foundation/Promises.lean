import Mathlib.Init

/-!
# What a fallible step promises

A step promises of which kind its errors are and what holds of its value. A step that goes
on with the value of another one makes its promise from the other's.
-/

namespace Sillage

variable {ε α β : Type} {wrong : ε → Prop} {right : α → Prop} {final : β → Prop}

/-- An error is of one kind, and a value has a property. -/
def Promises (wrong : ε → Prop) (right : α → Prop) (result : Except ε α) : Prop :=
  match result with
  | .error e => wrong e
  | .ok a => right a

namespace Promises

/-- A failure keeps the promise if it is one of those foreseen. -/
theorem error {e : ε} (isWrong : wrong e) : Promises wrong right (.error e) := isWrong

/-- A result keeps the promise if it is right. -/
theorem ok {a : α} (isRight : right a) : Promises wrong right (.ok a) := isRight

/-- What fails fails as foreseen. -/
theorem of_error {result : Except ε α} {e : ε} (promises : Promises wrong right result)
    (failed : result = .error e) : wrong e := by
  rw [failed] at promises
  exact promises

/-- What comes out is right. -/
theorem of_ok {result : Except ε α} {a : α} (promises : Promises wrong right result)
    (done : result = .ok a) : right a := by
  rw [done] at promises
  exact promises

/-- A step whose value is known may use where it comes from. -/
theorem bind {result : Except ε α} {next : α → Except ε β}
    (promises : Promises wrong right result)
    (goes : ∀ a, result = .ok a → right a → Promises wrong final (next a)) :
    Promises wrong final (result >>= next) := by
  cases result with
  | error e => exact promises
  | ok a => exact goes a rfl promises

end Promises

end Sillage
