import Mathlib.Data.Nat.ModEq

/-!
# One's-complement sums

Sums of digits in base `b` with end-around carry: what exceeds a digit is added
back in, until nothing does. Arithmetic of this kind is arithmetic modulo
`b - 1`, in which the digits `0` and `b - 1` are the two zeros.

- `fold b n`: the carry of `n` folded in until none is left.
- `fold_eq_max_iff`: `b - 1` is reached exactly by the positive multiples of `b - 1`.
- `fold_complement_once_iff`: a check digit computed with *one* carry folded in
  is right exactly when that one leaves no further carry.
-/

namespace OnesComplement

/-- Add the part of `n` above the lowest digit to that digit, until there is none. -/
def fold (b n : Nat) : Nat :=
  if 1 < b ∧ b ≤ n then fold b (n % b + n / b) else n
termination_by n
decreasing_by
  rename_i h
  obtain ⟨hb, hn⟩ := h
  have hdiv := Nat.div_pos hn (by omega)
  have hmul : 2 * (n / b) ≤ b * (n / b) := Nat.mul_le_mul_right _ hb
  have hsplit := Nat.mod_add_div n b
  omega

/-- The check digit for a sum: the complement of the sum with one carry folded in. -/
def complementOnce (b n : Nat) : Nat := b - 1 - (n % b + n / b) % b

variable {b n : Nat}

theorem fold_of_lt (h : n < b) : fold b n = n := by
  rw [fold, if_neg (by omega)]

/-- Folding a carry once does not change the number modulo `b - 1`. -/
theorem fold_once_modEq (hb : 1 < b) (n : Nat) : n % b + n / b ≡ n [MOD b - 1] := by
  have hone : b ≡ 1 [MOD b - 1] := by
    exact Nat.modEq_sub (show 1 ≤ b by omega)
  calc n % b + n / b = n % b + 1 * (n / b) := by rw [Nat.one_mul]
    _ ≡ n % b + b * (n / b) [MOD b - 1] := (hone.symm.mul_right _).add_left _
    _ = n := Nat.mod_add_div n b

theorem fold_spec (hb : 1 < b) (n : Nat) :
    fold b n < b ∧ fold b n ≡ n [MOD b - 1] ∧ (0 < n → 0 < fold b n) := by
  fun_induction fold b n with
  | case1 n h ih =>
    obtain ⟨hlt, hmod, hpos⟩ := ih
    refine ⟨hlt, hmod.trans (fold_once_modEq hb n), fun _ => hpos ?_⟩
    have hdiv := Nat.div_pos h.2 (show 0 < b by omega)
    omega
  | case2 n h => exact ⟨by omega, Nat.ModEq.refl n, id⟩

/-- **All ones** are reached by the positive multiples of `b - 1` and by nothing else. -/
theorem fold_eq_max_iff (hb : 1 < b) (n : Nat) : fold b n = b - 1 ↔ 0 < n ∧ b - 1 ∣ n := by
  obtain ⟨hlt, hmod, hpos⟩ := fold_spec hb n
  have hdvd : b - 1 ∣ fold b n ↔ b - 1 ∣ n := hmod.dvd_iff (Nat.dvd_refl _)
  constructor
  · intro hmax
    refine ⟨?_, hdvd.mp (hmax ▸ Nat.dvd_refl _)⟩
    by_contra hzero
    obtain rfl : n = 0 := by omega
    rw [fold_of_lt (by omega)] at hmax
    omega
  · rintro ⟨hn, hd⟩
    have hle := Nat.le_of_dvd (hpos hn) (hdvd.mpr hd)
    omega

/-- **A check digit with one carry folded in** completes the sum to all ones
exactly when folding that carry in leaves no other. -/
theorem fold_complement_once_iff (hb : 2 < b) (hn : n / b < b) :
    fold b (n + complementOnce b n) = b - 1 ↔ n % b + n / b < b := by
  have hmod := Nat.mod_lt n (show 0 < b by omega)
  have hsplit := Nat.mod_add_div n b
  obtain ⟨c, rfl⟩ : ∃ c, b = c + 1 := ⟨b - 1, by omega⟩
  rw [fold_eq_max_iff (by omega), complementOnce]
  simp only [Nat.add_sub_cancel]
  rw [Nat.add_mul, Nat.one_mul] at hsplit
  by_cases hcarry : n % (c + 1) + n / (c + 1) < c + 1
  · rw [Nat.mod_eq_of_lt hcarry]
    refine iff_of_true ⟨by omega, n / (c + 1) + 1, ?_⟩ hcarry
    rw [Nat.mul_add, Nat.mul_one]
    omega
  · -- the carry that is left makes the sum one too large
    have hrest : (n % (c + 1) + n / (c + 1)) % (c + 1) =
        n % (c + 1) + n / (c + 1) - (c + 1) := by
      rw [Nat.mod_eq_sub_mod (by omega), Nat.mod_eq_of_lt (by omega)]
    refine iff_of_false ?_ hcarry
    rintro ⟨-, hd⟩
    have hsum : n + (c - (n % (c + 1) + n / (c + 1)) % (c + 1)) =
        c * (n / (c + 1) + 2) + 1 := by
      rw [hrest, Nat.mul_add]
      omega
    rw [hsum, Nat.dvd_add_right (Nat.dvd_mul_right _ _), Nat.dvd_one] at hd
    omega

end OnesComplement
