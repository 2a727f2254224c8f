import Mathlib.Data.Nat.Log
import Unikernel.IntInf.Arithmetic

/-!
# Division of naturals

Division by a digit and long division. Both scale the divisor until its leading bit is set,
which is what makes the estimate of a quotient digit fit an `int31`.

- `divmodd_eq`: by a digit.
- `divmod_eq`: by any number.
- `tryq_eq`: an estimate is lowered to the quotient digit, and never below it.
-/

namespace Unikernel.BigNat

/-! ## By a digit

The leading bit of the divisor is brought to the top first, by a factor that the number is
multiplied with, too. The quotient is the same then, and the remainder has the factor. -/

/-- The leading digits are divided first, and each step takes one digit more. -/
theorem dmi_eq {i : Nat} (hi : 2 ^ 29 ≤ i) (hi' : i < 2 ^ 30) (n : Nat) :
    dmi i (bn n) = .ok (bn (n / i), ((n % i : Nat) : Int)) := by
  induction n using Nat.strong_induction_on with
  | _ n ih =>
    rcases Nat.eq_zero_or_pos n with rfl | hn
    · rw [bn_zero, dmi, Nat.zero_div, Nat.zero_mod, bn_zero]
      rfl
    · have hdigit : n % 2 ^ 30 < 2 ^ 30 := Nat.mod_lt n (by decide)
      have hrest : n / 2 ^ 30 % i < i := Nat.mod_lt _ (by omega)
      rw [bn_pos hn, dmi, ih (n / 2 ^ 30) (by omega), except_ok_bind]
      simp only
      rw [divmod2_eq hi hi' hrest hdigit, except_ok_bind,
        LongDivision.div_step (b := 2 ^ 30) n (i := i) (by omega),
        LongDivision.mod_step (b := 2 ^ 30) n i, Nat.add_comm (2 ^ 30 * _),
        ← consd_bn _ (LongDivision.step_lt hrest hdigit)]
      rfl

/-- A digit with its leading bit set, after scaling. -/
theorem scaled_bounds {i : Nat} (hi : 0 < i) (hi' : i < 2 ^ 30) :
    2 ^ 29 ≤ i * (2 ^ 30 / (i + 1)) ∧ i * (2 ^ 30 / (i + 1)) < 2 ^ 30 := by
  have hlow := LongDivision.le_scaled hi' hi
  have hhigh := LongDivision.scaled_lt hi'
  generalize i * (2 ^ 30 / (i + 1)) = p at *
  omega

/-- **Division by a digit**. -/
theorem divmodd_eq {i : Nat} (hi : 0 < i) (hi' : i < 2 ^ 30) (n : Nat) :
    divmodd (bn n) i = .ok (bn (n / i), ((n % i : Nat) : Int)) := by
  unfold divmodd
  split_ifs with hone
  · rw [show i = 1 by omega, Nat.div_one, Nat.mod_one]
    rfl
  · obtain ⟨hlow, hhigh⟩ := scaled_bounds hi hi'
    have hs := LongDivision.scale_pos hi'
    have hs' : 2 ^ 30 / (i + 1) < 2 ^ 30 := Nat.div_lt_self (by decide) (by omega)
    rw [scale_eq hi hi', except_ok_bind]
    generalize 2 ^ 30 / (i + 1) = s at *
    have hrest : n % i < 2 ^ 30 := (Nat.mod_lt n hi).trans hi'
    have hrest' : n % i * s < 2 ^ 30 :=
      ((Nat.mul_lt_mul_right hs).mpr (Nat.mod_lt n hi)).trans hhigh
    rw [← Nat.cast_mul, int31_natCast hhigh, except_ok_bind, muld_eq n hs', except_ok_bind,
      dmi_eq hlow hhigh, except_ok_bind, Nat.mul_div_mul_right _ _ hs, Nat.mul_mod_mul_right]
    simp only
    rw [if_neg (by omega), div31_natCast hrest' hs, Nat.mul_div_cancel _ hs]
    rfl

/-! ## The leading digits -/

/-- One position more. -/
theorem pow_succ_base (k : Nat) : (2 ^ 30) ^ (k + 1) = 2 ^ 30 * (2 ^ 30) ^ k := Nat.pow_succ'

/-- The leading digit is a digit. -/
theorem lead_lt {n k : Nat} (h : n < (2 ^ 30) ^ (k + 1)) : n / (2 ^ 30) ^ k < 2 ^ 30 := by
  rw [Nat.pow_succ] at h
  exact Nat.div_lt_of_lt_mul h

section Leading

variable {n k : Nat} (hlow : (2 ^ 30) ^ k ≤ n) (hhigh : n < (2 ^ 30) ^ (k + 1))
include hlow hhigh

/-- The number of digits, from the position of the leading one. -/
theorem length_bn : (bn n).length = k + 1 := by
  have hk : 0 < (2 ^ 30) ^ k := Nat.pow_pos (by decide)
  induction k generalizing n with
  | zero =>
    rw [Nat.pow_zero] at hlow
    rw [Nat.zero_add, Nat.pow_one] at hhigh
    rw [bn_digit hlow hhigh]
    rfl
  | succ k ih =>
    rw [pow_succ_base] at hlow hhigh
    rw [bn_pos (by omega), List.length_cons,
      ih (by omega) (Nat.div_lt_of_lt_mul hhigh) (Nat.pow_pos (by decide))]

/-- The leading digit, as the code reads it. -/
theorem nth_bn : nth (bn n) k = .ok ((n / (2 ^ 30) ^ k : Nat) : Int) := by
  rw [nth, if_neg (by omega), Int.toNat_natCast]
  have hget : (bn n)[k]? = some ((n / (2 ^ 30) ^ k : Nat) : Int) := by
    have hk : 0 < (2 ^ 30) ^ k := Nat.pow_pos (by decide)
    induction k generalizing n with
    | zero =>
      rw [Nat.pow_zero] at hlow
      rw [Nat.zero_add, Nat.pow_one] at hhigh
      rw [bn_digit hlow hhigh, Nat.pow_zero, Nat.div_one]
      rfl
    | succ k ih =>
      rw [pow_succ_base] at hlow hhigh ⊢
      rw [bn_pos (by omega), List.getElem?_cons_succ, ← Nat.div_div_eq_div_mul]
      exact ih (by omega) (Nat.div_lt_of_lt_mul hhigh) (Nat.pow_pos (by decide))
  rw [hget]

end Leading

/-- The two digits of a number that are not below position `k`. -/
theorem msds_eq {m k : Nat} (h : m < (2 ^ 30) ^ (k + 2)) :
    msds (bn m) ((k + 1 : Nat) : Int) =
      (((m / (2 ^ 30) ^ k / 2 ^ 30 : Nat) : Int), ((m / (2 ^ 30) ^ k % 2 ^ 30 : Nat) : Int)) := by
  induction k generalizing m with
  | zero =>
    rw [Nat.pow_zero, Nat.div_one]
    rcases Nat.eq_zero_or_pos m with rfl | hm
    · rw [bn_zero, msds]
      rfl
    · obtain ⟨d, k, hd, rfl⟩ := exists_digit m
      rw [bn_cons hd hm]
      have hk : k < 2 ^ 30 := by omega
      rw [show (d + 2 ^ 30 * k) / 2 ^ 30 = k by omega, show (d + 2 ^ 30 * k) % 2 ^ 30 = d by omega,
        show ((0 + 1 : Nat) : Int) = 1 from rfl]
      rcases Nat.eq_zero_or_pos k with rfl | hkpos
      · rw [bn_zero, msds]
        rfl
      · rw [bn_digit hkpos hk, msds]
  | succ k ih =>
    rcases Nat.eq_zero_or_pos m with rfl | hm
    · rw [bn_zero, msds, Nat.zero_div]
      rfl
    · rw [bn_pos hm, msds]
      · rw [show ((k + 1 + 1 : Nat) : Int) - 1 = (k + 1 : Nat) by omega,
          ih (Nat.div_lt_of_lt_mul (by rw [← pow_succ_base]; exact h)), pow_succ_base,
          ← Nat.div_div_eq_div_mul]
      · intro hone
        omega
      · intro d hd hone
        omega

/-! ## Long division

With one leading digit of the divisor and two of the number the quotient digit is known but for
two; the code lowers the estimate, and the product that goes with it, as long as the subtraction
raises `Negative`. -/

/-- An estimate that is not too small is lowered to the quotient digit. -/
theorem tryq_eq {m n q : Nat} (hn : 0 < n) (hle : m / n ≤ q) (hq : q < 2 ^ 30) :
    tryq (bn m) (bn n) q (bn (n * q)) = .ok (((m / n : Nat) : Int), bn (m % n)) := by
  -- the induction is on how much too large the estimate is
  obtain ⟨k, rfl⟩ := Nat.exists_eq_add_of_le hle
  clear hle
  induction k with
  | zero =>
    have hsub : subt (bn m) (bn (n * (m / n))) = .ok (bn (m % n)) := by
      rw [subt_ok (Nat.mul_div_le m n), Nat.mod_eq_sub]
    rw [Nat.add_zero, tryq, hsub]
  | succ k ih =>
    have hgt : m < n * (m / n + (k + 1)) := by
      calc m < n * (m / n + 1) := Nat.lt_mul_div_succ m hn
        _ ≤ n * (m / n + (k + 1)) := Nat.mul_le_mul_left n (by omega)
    -- the product is too large, and one divisor less is tried next
    have hsub : subt (bn m) (bn (n * (m / n + (k + 1)))) = .error .negative := by
      rw [subt_eq, diff_negative (by omega)]
    have hpred : int31 (((m / n + (k + 1) : Nat) : Int) - 1) = .ok ((m / n + k : Nat) : Int) := by
      rw [show ((m / n + (k + 1) : Nat) : Int) - 1 = (m / n + k : Nat) by omega]
      exact int31_natCast (by omega)
    have hprod : subt (bn (n * (m / n + (k + 1)))) (bn n) = .ok (bn (n * (m / n + k))) := by
      rw [show n * (m / n + (k + 1)) = n * (m / n + k) + n by ring,
        subt_ok (Nat.le_add_left _ _), Nat.add_sub_cancel]
    rw [tryq, hsub]
    simp only
    split
    · next q' h =>
      rw [hpred, Except.ok.injEq] at h
      rw [hprod, except_ok_bind, ← h]
      exact ih (by omega)
    · next e h =>
      rw [hpred] at h
      cases h

section Long

variable {n k : Nat} (hlow : 2 ^ 29 ≤ n / (2 ^ 30) ^ k) (hhigh : n / (2 ^ 30) ^ k < 2 ^ 30)
include hlow hhigh

/-- The estimate: the quotient of the leading digits, or the largest digit. -/
theorem estimate_min {v : Nat} (hv : v < 2 ^ 30 * n) :
    estimate ((v / (2 ^ 30) ^ k / 2 ^ 30 : Nat) : Int) ((v / (2 ^ 30) ^ k % 2 ^ 30 : Nat) : Int)
        ((n / (2 ^ 30) ^ k : Nat) : Int) =
      .ok ((min (v / (2 ^ 30) ^ k / (n / (2 ^ 30) ^ k)) (2 ^ 30 - 1) : Nat) : Int) := by
  have hlead := LongDivision.lead_le (p := (2 ^ 30) ^ k) hv
  generalize n / (2 ^ 30) ^ k = i at *
  generalize v / (2 ^ 30) ^ k = w at *
  have hw := Nat.div_add_mod' w (2 ^ 30)
  unfold estimate
  by_cases heq : w / 2 ^ 30 = i
  · -- the quotient of the leading digits would be no digit
    have hge : 2 ^ 30 ≤ w / i := by
      rw [Nat.le_div_iff_mul_le (by omega), ← heq, Nat.mul_comm]
      exact Nat.div_mul_le_self w _
    rw [if_pos (by rw [heq]), Nat.min_eq_right (by omega)]
    rfl
  · have hrest : w % 2 ^ 30 < 2 ^ 30 := Nat.mod_lt w (by decide)
    have hstep := LongDivision.step_lt (show w / 2 ^ 30 < i by omega) hrest
    rw [hw] at hstep
    rw [if_neg (fun h => heq (Nat.cast_injective h)),
      divmod2_eq hlow hhigh (by omega) hrest, hw, Nat.min_eq_left (by omega)]
    rfl

/-- **The estimate**: it is the quotient digit, or one or two more. -/
theorem estimate_near {v : Nat} (hv : v < 2 ^ 30 * n) :
    ∃ q : Nat, v / n ≤ q ∧ q ≤ v / n + 2 ∧ q < 2 ^ 30 ∧
      estimate ((v / (2 ^ 30) ^ k / 2 ^ 30 : Nat) : Int) ((v / (2 ^ 30) ^ k % 2 ^ 30 : Nat) : Int)
        ((n / (2 ^ 30) ^ k : Nat) : Int) = .ok (q : Int) := by
  have hest := LongDivision.div_le_estimate (v := v) (d := n) (p := (2 ^ 30) ^ k) (by omega)
  have hpred := LongDivision.div_le_pred hv
  have hnear := LongDivision.estimate_le (p := (2 ^ 30) ^ k) hv (by omega)
  exact ⟨_, le_min hest hpred, hnear, by omega, estimate_min hlow hhigh hv⟩

/-- **Digit by digit**, from the leading ones: the remainder so far, with the next digit
behind it, is divided. -/
theorem divl_eq (hn : n < (2 ^ 30) ^ (k + 1)) (m : Nat) :
    divl ((k + 1 : Nat) : Int) (bn n) ((n / (2 ^ 30) ^ k : Nat) : Int) (bn m) =
      .ok (bn (m / n), bn (m % n)) := by
  have hpos : 0 < n := Nat.pos_of_ne_zero fun hzero => by
    rw [hzero, Nat.zero_div] at hlow
    omega
  induction m using Nat.strong_induction_on with
  | _ m ih =>
    rcases Nat.eq_zero_or_pos m with rfl | hm
    · rw [bn_zero, divl, Nat.zero_div, Nat.zero_mod, bn_zero]
    · have hdigit : m % 2 ^ 30 < 2 ^ 30 := Nat.mod_lt m (by decide)
      have hrest : m / 2 ^ 30 % n < n := Nat.mod_lt _ hpos
      -- it is below the base times the divisor, so that the quotient is a digit
      have hv := LongDivision.mul_add_lt hrest hdigit
      have hvk : m / 2 ^ 30 % n * 2 ^ 30 + m % 2 ^ 30 < (2 ^ 30) ^ (k + 2) := by
        rw [pow_succ_base (k + 1)]
        exact hv.trans ((Nat.mul_lt_mul_left (by decide)).mpr hn)
      have hq := LongDivision.step_lt hrest hdigit
      rw [bn_pos hm, divl, ih (m / 2 ^ 30) (by omega), except_ok_bind]
      simp only
      rw [consd_bn _ hdigit, Nat.add_comm, Nat.mul_comm (2 ^ 30), msds_eq hvk]
      simp only
      obtain ⟨q, hle, -, hlt, hest⟩ := estimate_near hlow hhigh hv
      rw [hest, except_ok_bind, muld_eq n hlt, except_ok_bind, tryq_eq hpos hle hlt,
        except_ok_bind, LongDivision.div_step (b := 2 ^ 30) m hpos,
        LongDivision.mod_step (b := 2 ^ 30) m n, Nat.add_comm (2 ^ 30 * _), ← consd_bn _ hq]
      rfl

end Long

/-- The case of `divmod` that divides digit by digit. -/
theorem divmod_general {m d k : Nat} (hm : 0 < m) (hd : 0 < d) (hd' : d < 2 ^ 30) (hk : 0 < k) :
    divmod (bn m) (bn (d + 2 ^ 30 * k)) = (do
      let ln : Int := (bn (d + 2 ^ 30 * k)).length
      let scale ← scale (← nth (bn (d + 2 ^ 30 * k)) (ln - 1))
      let m' ← muld (bn m) scale
      let n' ← muld (bn (d + 2 ^ 30 * k)) scale
      let n1 ← nth n' (ln - 1)
      let (qt, rm') ← divl ln n' n1 m'
      let (rm, _) ← divmodd rm' scale
      return (qt, rm)) := by
  rw [bn_cons hd' (by omega), divmod]
  · exact fun h => hm.ne' (bn_eq_nil_iff.mp h)
  · exact List.cons_ne_nil _ _
  · intro e hone
    have hnil := bn_eq_nil_iff.mp (List.tail_eq_of_cons_eq hone)
    omega
  · intro e r t _ hshift
    have hzero := List.head_eq_of_cons_eq hshift
    omega

/-- Long division by a number with two digits at least, of which the lowest is not `0`. -/
theorem divmod_long {m n d k : Nat} (hm : 0 < m) (hd : 0 < d) (hd' : d < 2 ^ 30) (hk : 0 < k)
    (hn : n = d + 2 ^ 30 * k) :
    divmod (bn m) (bn n) = .ok (bn (m / n), bn (m % n)) := by
  have hpos : 0 < n := by omega
  -- the position of the leading digit
  obtain ⟨j, hlow, hhigh⟩ : ∃ j, (2 ^ 30) ^ j ≤ n ∧ n < (2 ^ 30) ^ (j + 1) :=
    ⟨Nat.log (2 ^ 30) n, Nat.pow_log_le_self _ (by omega), Nat.lt_pow_succ_log_self (by decide) n⟩
  have hp : 0 < (2 ^ 30) ^ j := Nat.pow_pos (by decide)
  have hlen := length_bn hlow hhigh
  have hnth := nth_bn hlow hhigh
  have htop : 0 < n / (2 ^ 30) ^ j := Nat.div_pos hlow hp
  have htop' : n / (2 ^ 30) ^ j < 2 ^ 30 := lead_lt hhigh
  obtain ⟨hscaled, -⟩ := scaled_bounds htop htop'
  have hs := LongDivision.scale_pos htop'
  have hs' : 2 ^ 30 / (n / (2 ^ 30) ^ j + 1) < 2 ^ 30 := Nat.div_lt_self (by decide) (by omega)
  have hnhigh := LongDivision.scaled_lt_of_lead htop' hp rfl
  have hscale := scale_eq htop htop'
  have hbound : n / (2 ^ 30) ^ j * (2 ^ 30 / (n / (2 ^ 30) ^ j + 1)) * (2 ^ 30) ^ j ≤
      n * (2 ^ 30 / (n / (2 ^ 30) ^ j + 1)) := by
    rw [Nat.mul_right_comm]
    exact Nat.mul_le_mul_right _ (Nat.div_mul_le_self n _)
  generalize 2 ^ 30 / (n / (2 ^ 30) ^ j + 1) = s at *
  -- the scaled divisor is as long, and its leading bit is set
  have hlead : 2 ^ 29 ≤ n * s / (2 ^ 30) ^ j :=
    hscaled.trans ((Nat.le_div_iff_mul_le hp).mpr hbound)
  rw [← pow_succ_base] at hnhigh
  have hnlow : (2 ^ 30) ^ j ≤ n * s := hlow.trans (Nat.le_mul_of_pos_right n hs)
  have hlead' : n * s / (2 ^ 30) ^ j < 2 ^ 30 := lead_lt hnhigh
  -- the remainder is brought back by a division by the factor, which leaves nothing over
  have hlast := divmodd_eq hs hs' (m % n * s)
  rw [Nat.mul_div_cancel _ hs] at hlast
  have hdef := divmod_general hm hd hd' hk
  rw [← hn] at hdef
  rw [hdef, hlen]
  simp only
  rw [show ((j + 1 : Nat) : Int) - 1 = j by omega, hnth, except_ok_bind, hscale,
    except_ok_bind, muld_eq m hs', except_ok_bind, muld_eq n hs', except_ok_bind,
    nth_bn hnlow hnhigh, except_ok_bind, divl_eq hlead hlead' hnhigh, except_ok_bind,
    Nat.mul_div_mul_right _ _ hs, Nat.mul_mod_mul_right]
  simp only
  rw [hlast]
  rfl

/-- **Division**: quotient and remainder of any two numbers. -/
theorem divmod_eq (m : Nat) {n : Nat} (hn : 0 < n) :
    divmod (bn m) (bn n) = .ok (bn (m / n), bn (m % n)) := by
  induction n using Nat.strong_induction_on generalizing m with
  | _ n ih =>
    -- the cases of the code: by the digits of the divisor
    obtain ⟨d, k, hd, rfl⟩ := exists_digit n
    rcases Nat.eq_zero_or_pos m with rfl | hm
    · rw [bn_cons hd hn, bn_zero, divmod, Nat.zero_div, Nat.zero_mod, bn_zero]
      exact List.cons_ne_nil _ _
    · rcases Nat.eq_zero_or_pos k with rfl | hk
      · -- a single digit
        rw [Nat.mul_zero, Nat.add_zero] at hn ⊢
        have hsingle : divmod (bn m) [(d : Int)] = (do
            let (qt, rm) ← divmodd (bn m) d
            return (qt, if rm = 0 then [] else [rm])) := by
          obtain ⟨e, r, he, rfl⟩ := exists_digit m
          rw [bn_cons he hm, divmod]
          · exact List.cons_ne_nil _ _
          · intro _ _ _ hzero
            omega
        have hrest := Nat.mod_lt m hn
        rw [bn_digit hn hd, hsingle, divmodd_eq hn hd, except_ok_bind]
        simp only
        rcases Nat.eq_zero_or_pos (m % d) with hzero | hpos
        · rw [hzero, if_pos Nat.cast_zero, bn_zero]
          rfl
        · rw [if_neg (by omega), bn_digit hpos (by omega)]
          rfl
      · rcases Nat.eq_zero_or_pos d with rfl | hdpos
        · -- the lowest digit of both is put aside
          obtain ⟨e, r, he, rfl⟩ := exists_digit m
          have hdiv : (e + 2 ^ 30 * r) / (0 + 2 ^ 30 * k) = r / k := by
            rw [Nat.zero_add, ← Nat.div_div_eq_div_mul,
              show (e + 2 ^ 30 * r) / 2 ^ 30 = r by omega]
          have hmod : (e + 2 ^ 30 * r) % (0 + 2 ^ 30 * k) = e + 2 ^ 30 * (r % k) := by
            rw [Nat.zero_add, Nat.mod_mul, show (e + 2 ^ 30 * r) % 2 ^ 30 = e by omega,
              show (e + 2 ^ 30 * r) / 2 ^ 30 = r by omega]
          rw [hdiv, hmod, bn_cons he hm, bn_cons (by decide) hn, Nat.cast_zero, divmod,
            ih k (by omega) r hk, except_ok_bind, ← consd_bn _ he]
          rfl
        · exact divmod_long hm hdpos hd hk rfl

end Unikernel.BigNat
