import Mathlib.Tactic.Ring

/-!
# Long division

The arithmetic under division with digits in a base `b`, where a quotient digit is
estimated from the leading digits alone.

- `div_step`, `mod_step`: one more digit of the dividend.
- `div_le_estimate`: an estimate from the leading digits is never too small.
- `estimate_le`: it is too large by two at most, once the divisor is scaled up.
- `le_scaled`: multiplying by `b / (v + 1)` brings a leading digit `v` above `b / 2`.
-/

namespace LongDivision

variable {b : Nat}

/-! ## Digit by digit -/

section Step

variable {i : Nat} (n : Nat)

/-- The remainder so far, with the next digit behind it. -/
theorem eq_mul_add_step (i : Nat) :
    n = i * (b * (n / b / i)) + ((n / b % i) * b + n % b) := by
  calc n = b * (n / b) + n % b := (Nat.div_add_mod n b).symm
    _ = b * (i * (n / b / i) + n / b % i) + n % b := by rw [Nat.div_add_mod (n / b) i]
    _ = i * (b * (n / b / i)) + ((n / b % i) * b + n % b) := by ring

theorem div_step (hi : 0 < i) :
    n / i = b * (n / b / i) + ((n / b % i) * b + n % b) / i := by
  conv_lhs => rw [eq_mul_add_step (b := b) n i]
  exact Nat.mul_add_div hi _ _

theorem mod_step (i : Nat) : n % i = ((n / b % i) * b + n % b) % i := by
  conv_lhs => rw [eq_mul_add_step (b := b) n i]
  exact Nat.mul_add_mod _ _ _

/-- A remainder with one digit behind it. -/
theorem mul_add_lt {r d : Nat} (hr : r < i) (hd : d < b) : r * b + d < b * i := by
  calc r * b + d < r * b + b := Nat.add_lt_add_left hd _
    _ = b * (r + 1) := by ring
    _ ≤ b * i := Nat.mul_le_mul_left b hr

/-- The quotient of such a number is one digit. -/
theorem step_lt {r d : Nat} (hr : r < i) (hd : d < b) : (r * b + d) / i < b := by
  refine Nat.div_lt_of_lt_mul ?_
  rw [Nat.mul_comm i b]
  exact mul_add_lt hr hd

end Step

/-! ## Estimates

`v` is divided by `d`; `p` cuts off what the estimate does not look at. -/

section Estimate

variable {v d p : Nat}

theorem div_le_estimate (h : 0 < d / p) : v / d ≤ v / p / (d / p) := by
  have hp : 0 < p := Nat.pos_of_ne_zero fun hzero => by rw [hzero, Nat.div_zero] at h; omega
  calc v / d ≤ v / (p * (d / p)) :=
        Nat.div_le_div_left (Nat.mul_div_le d p) (Nat.mul_pos hp h)
    _ = v / p / (d / p) := (Nat.div_div_eq_div_mul v p (d / p)).symm

/-- The leading digits of a dividend that has a quotient of one digit. -/
theorem lead_le (hv : v < b * d) : v / p / b ≤ d / p := by
  have hdiv : v / b ≤ d := (Nat.div_lt_of_lt_mul hv).le
  rw [Nat.div_div_eq_div_mul, Nat.mul_comm, ← Nat.div_div_eq_div_mul]
  exact Nat.div_le_div_right hdiv

theorem div_le_pred (hv : v < b * d) : v / d ≤ b - 1 := by
  rw [Nat.mul_comm] at hv
  have hlt := Nat.div_lt_of_lt_mul hv
  omega

/-- **Knuth's estimate**: it is at most two too large if the leading digit of the divisor
is half of the base at least. -/
theorem estimate_le (hv : v < b * d) (hd : b ≤ 2 * (d / p)) :
    min (v / p / (d / p)) (b - 1) ≤ v / d + 2 := by
  have hpos : 0 < d := Nat.pos_of_ne_zero fun hzero => by rw [hzero] at hv; omega
  have hp : 0 < p := Nat.pos_of_ne_zero fun hzero => by
    rw [hzero, Nat.div_zero] at hd
    rw [show b = 0 by omega, Nat.zero_mul] at hv
    omega
  have hlow := Nat.div_mul_le_self d p
  have hhigh : d ≤ d / p * p + p := (Nat.lt_div_mul_add hp).le
  have hq := Nat.lt_div_mul_add hpos (a := v)
  generalize d / p = lead at hd hlow hhigh ⊢
  generalize v / d = q at hq ⊢
  by_contra hfar
  have hlead : (q + 3) * lead ≤ v / p := by
    refine Nat.mul_le_of_le_div _ _ _ ?_
    omega
  have hv' : (q + 3) * (lead * p) ≤ v := by
    rw [← Nat.mul_assoc]
    exact Nat.mul_le_of_le_div _ _ _ hlead
  -- the divisor is less than what its leading digit, counted one up, stands for
  have hcross : 2 * lead * p < (q + 1) * p := by
    have hup : (q + 1) * d ≤ (q + 1) * (lead * p + p) := Nat.mul_le_mul_left _ hhigh
    have hsplit : (q + 3) * (lead * p) = (q + 1) * (lead * p) + 2 * lead * p := by ring
    have hsplit' : (q + 1) * (lead * p + p) = (q + 1) * (lead * p) + (q + 1) * p := by ring
    have hsucc : (q + 1) * d = q * d + d := Nat.succ_mul q d
    omega
  have hsmall := Nat.lt_of_mul_lt_mul_right hcross
  omega

end Estimate

/-! ## Scaling -/

section Scaling

variable {v : Nat} (hv : v < b)
include hv

theorem scale_pos : 0 < b / (v + 1) := Nat.div_pos hv v.succ_pos

/-- The leading digit after scaling. -/
theorem le_scaled (hpos : 0 < v) : b ≤ 2 * (v * (b / (v + 1))) + 1 := by
  have hs := scale_pos hv
  have hnear : b < (v + 1) * (b / (v + 1) + 1) := Nat.lt_mul_div_succ b v.succ_pos
  obtain ⟨w, rfl⟩ : ∃ w, v = w + 1 := ⟨v - 1, by omega⟩
  generalize b / (w + 1 + 1) = s at hs hnear ⊢
  have hw : w ≤ w * s := Nat.le_mul_of_pos_right w hs
  have hexp : (w + 1 + 1) * (s + 1) = (w + 1) * s + s + w + 2 := by ring
  have hexp' : (w + 1) * s = w * s + s := by ring
  omega

theorem scaled_lt : v * (b / (v + 1)) < b := by
  have hle := Nat.mul_div_le b (v + 1)
  have hs := scale_pos hv
  rw [Nat.succ_mul] at hle
  omega

/-- Scaling keeps a number as long as it is. -/
theorem scaled_lt_of_lead {n p : Nat} (hp : 0 < p) (hn : n / p = v) :
    n * (b / (v + 1)) < b * p := by
  have hnext : n < (v + 1) * p := by
    rw [Nat.mul_comm, ← hn]
    exact Nat.lt_mul_div_succ n hp
  calc n * (b / (v + 1)) < (v + 1) * p * (b / (v + 1)) :=
        Nat.mul_lt_mul_of_pos_right hnext (scale_pos hv)
    _ = (v + 1) * (b / (v + 1)) * p := by ring
    _ ≤ b * p := Nat.mul_le_mul_right p (Nat.mul_div_le b (v + 1))

end Scaling

end LongDivision
