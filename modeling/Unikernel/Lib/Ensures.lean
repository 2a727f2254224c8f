import Mathlib.Order.Basic

/-!
# Programs that may stop

A program is an `Except ε α`: it returns, or it stops for a reason in `ε`.
`Ensures E x Q`: what it returns satisfies `Q`, and it stops for no reason outside of `E`.
-/

universe u

variable {ε α β : Type u}

/-- `x` returns a value with `Q`, or stops for one of the reasons in `E`. -/
def Ensures (E : ε → Prop) (x : Except ε α) (Q : α → Prop) : Prop :=
  match x with
  | .ok a => Q a
  | .error e => E e

namespace Ensures

variable {E : ε → Prop} {x : Except ε α} {f : α → Except ε β} {P Q : α → Prop} {R : β → Prop}

/-- One program after the other. -/
theorem bind (h : Ensures E x P) (hf : ∀ a, P a → Ensures E (f a) R) : Ensures E (x >>= f) R := by
  cases x with
  | ok a => exact hf a h
  | error e => exact h

theorem imp (h : Ensures E x P) (hPQ : ∀ a, P a → Q a) : Ensures E x Q := by
  cases x with
  | ok a => exact hPQ a h
  | error e => exact h

end Ensures
