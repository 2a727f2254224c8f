import Mathlib.Data.Nat.Bitwise

/-!
# Masks of low bits

Rounding to a power of two, as it is written with bit operations.
-/

namespace Masks

variable {w x : Nat}

/-- A word of `w` bits has no others. -/
theorem testBit_of_le (hx : x < 2 ^ w) {i : Nat} (hi : w ≤ i) : x.testBit i = false :=
  Nat.testBit_lt_two_pow (Nat.lt_of_lt_of_le hx (Nat.pow_le_pow_right (by decide) hi))

/-- Clearing the low bits of a word. -/
theorem and_high (hx : x < 2 ^ w) (k : Nat) :
    x &&& ((2 ^ w - 1) ^^^ (2 ^ k - 1)) = x / 2 ^ k * 2 ^ k := by
  apply Nat.eq_of_testBit_eq
  intro i
  rw [Nat.testBit_and, Nat.testBit_xor, Nat.testBit_two_pow_sub_one, Nat.testBit_two_pow_sub_one,
    Nat.testBit_mul_two_pow, Nat.testBit_div_two_pow]
  by_cases hiw : i < w
  · by_cases hik : k ≤ i
    · simp [hik, hiw, Nat.not_lt.mpr hik, Nat.sub_add_cancel hik]
    · simp [hik, hiw, Nat.lt_of_not_le hik]
  · have hbit := testBit_of_le hx (Nat.not_lt.mp hiw)
    by_cases hik : k ≤ i
    · simp [hbit, Nat.sub_add_cancel hik]
    · simp [hbit, hik]

end Masks
