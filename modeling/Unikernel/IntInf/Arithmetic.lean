import Unikernel.IntInf.Digits

/-!
# Arithmetic of naturals

Every operation is the one of the natural numbers: on the digits of its arguments it
returns the digits of the result, and raises only where there is none.

- `add_eq`, `subt_eq`, `mult_eq`, `cmp_eq`, `exp_eq`.
- `diff`: what a subtraction returns, `Negative` below zero.
-/

namespace Unikernel.BigNat

/-! ## Addition

A digit and a digit may be too large for an `int31`, so the code adds to `nbase`: the sum
is then the digit to be stored if there is a carry, and has the base to be taken off again
if there is none. -/

/-- Adding a carry that is left over. -/
theorem addOne_eq (n : Nat) : addOne (bn n) = .ok (bn (n + 1)) := by
  induction n using Nat.strong_induction_on with
  | _ n ih =>
    rcases Nat.eq_zero_or_pos n with rfl | hn
    · rw [bn_zero, bn_one]
      rfl
    · obtain ⟨d, k, hd, rfl⟩ := exists_digit n
      rw [bn_cons hd hn, addOne, nbase, int31_ok (by omega) (by omega), except_ok_bind,
        int31_ok (by omega) (by omega), except_ok_bind]
      by_cases hlast : d + 1 = 2 ^ 30
      · -- the carry
        rw [if_neg (by omega), ih k (by omega), except_ok_bind,
          show d + 2 ^ 30 * k + 1 = 0 + 2 ^ 30 * (k + 1) by omega,
          bn_cons (by decide) (by omega), show (-1073741824 : Int) + d + 1 = (0 : Nat) by omega]
        rfl
      · rw [if_pos (by omega), int31_ok (by omega) (by omega), except_ok_bind,
          show d + 2 ^ 30 * k + 1 = (d + 1) + 2 ^ 30 * k by omega, bn_cons (by omega) (by omega),
          show (-1073741824 : Int) + d + 1 - -1073741824 = (d + 1 : Nat) by omega]
        rfl

/-- The digit after an addition, and the carry. -/
theorem addd_eq {s m n : Nat} (hs : s < 2 ^ 31) (hpos : 0 < s + 2 ^ 30 * (m + n))
    (hadd : add (bn m) (bn n) = .ok (bn (m + n)))
    (haddc : addc (bn m) (bn n) = .ok (bn (m + n + 1))) :
    addd ((s : Int) - 2 ^ 30) (bn m) (bn n) = .ok (bn (s + 2 ^ 30 * (m + n))) := by
  rw [addd, nbase]
  by_cases hcarry : s < 2 ^ 30
  · rw [if_pos (by omega), int31_ok (by omega) (by omega), except_ok_bind, hadd, except_ok_bind,
      bn_cons hcarry hpos, show (s : Int) - 2 ^ 30 - -1073741824 = s by omega]
    rfl
  · rw [if_neg (by omega), haddc, except_ok_bind,
      show s + 2 ^ 30 * (m + n) = (s - 2 ^ 30) + 2 ^ 30 * (m + n + 1) by omega,
      bn_cons (by omega) (by omega), show (s : Int) - 2 ^ 30 = (s - 2 ^ 30 : Nat) by omega]
    rfl

/-- Addition with and without a carry, together, since each goes on with the other. -/
theorem add_addc_eq (m n : Nat) :
    add (bn m) (bn n) = .ok (bn (m + n)) ∧ addc (bn m) (bn n) = .ok (bn (m + n + 1)) := by
  induction m using Nat.strong_induction_on generalizing n with
  | _ m ih =>
    -- one of the two has no digits left, or both have
    rcases Nat.eq_zero_or_pos m with rfl | hm
    · rw [bn_zero, Nat.zero_add]
      refine ⟨by rw [add], ?_⟩
      rcases Nat.eq_zero_or_pos n with rfl | hn
      · rw [bn_zero, addc, ← bn_zero, addOne_eq]
      · obtain ⟨d, k, hd, rfl⟩ := exists_digit n
        rw [bn_cons hd hn, addc, ← bn_cons hd hn, addOne_eq]
        exact List.cons_ne_nil _ _
    · rcases Nat.eq_zero_or_pos n with rfl | hn
      · obtain ⟨d, k, hd, rfl⟩ := exists_digit m
        rw [bn_zero, Nat.add_zero, bn_cons hd hm, add, addc, ← bn_cons hd hm, addOne_eq]
        · exact ⟨rfl, rfl⟩
        · exact List.cons_ne_nil _ _
      · obtain ⟨dm, rm, hdm, rfl⟩ := exists_digit m
        obtain ⟨dn, rn, hdn, rfl⟩ := exists_digit n
        -- by induction, what is added behind the first digits
        obtain ⟨hadd, haddc⟩ := ih rm (by omega) rn
        rw [bn_cons hdm hm, bn_cons hdn hn]
        constructor
        · have hdigit := addd_eq (s := dm + dn) (by omega) (by omega) hadd haddc
          rw [add, nbase, int31_ok (by omega) (by omega), except_ok_bind,
            int31_ok (by omega) (by omega), except_ok_bind,
            show (-1073741824 : Int) + dm + dn = ((dm + dn : Nat) : Int) - 2 ^ 30 by omega, hdigit,
            show dm + dn + 2 ^ 30 * (rm + rn) = dm + 2 ^ 30 * rm + (dn + 2 ^ 30 * rn) by ring]
        · have hdigit := addd_eq (s := dm + dn + 1) (by omega) (by omega) hadd haddc
          rw [addc, nbase, int31_ok (by omega) (by omega), except_ok_bind,
            int31_ok (by omega) (by omega), except_ok_bind, int31_ok (by omega) (by omega),
            except_ok_bind,
            show (-1073741824 : Int) + dm + dn + 1 = ((dm + dn + 1 : Nat) : Int) - 2 ^ 30 by omega,
            hdigit, show dm + dn + 1 + 2 ^ 30 * (rm + rn) =
              dm + 2 ^ 30 * rm + (dn + 2 ^ 30 * rn) + 1 by ring]

/-- **Addition**. -/
theorem add_eq (m n : Nat) : add (bn m) (bn n) = .ok (bn (m + n)) := (add_addc_eq m n).1

/-! ## Subtraction

As an addition, with a borrow. That there is no difference shows at the end of the digits, after
the lower digits have been computed; what is raised then does not depend on them. -/

/-- A subtraction with the difference `z`. -/
def diff (z : Int) : Except Exn Bignat := if 0 ≤ z then .ok (bn z.toNat) else .error .negative

/-- A difference that is a natural number. -/
theorem diff_natCast (n : Nat) : diff n = .ok (bn n) := if_pos (Int.natCast_nonneg n)

/-- A difference that is none. -/
theorem diff_negative {z : Int} (h : z < 0) : diff z = .error .negative := if_neg (by omega)

/-- Subtracting what is not larger. -/
theorem diff_sub {m n : Nat} (h : n ≤ m) : diff ((m : Int) - n) = .ok (bn (m - n)) := by
  rw [← Nat.cast_sub h, diff_natCast]

/-- One more digit in front of a difference. -/
theorem consd_diff {d : Int} (h : 0 ≤ d) (h' : d < 2 ^ 30) (z : Int) :
    (do return consd d (← diff z)) = diff (d + 2 ^ 30 * z) := by
  obtain ⟨e, rfl⟩ := Int.eq_ofNat_of_zero_le h
  rcases lt_or_ge z 0 with hz | hz
  · rw [diff_negative hz, diff_negative (by omega), except_error_bind]
  · obtain ⟨n, rfl⟩ := Int.eq_ofNat_of_zero_le hz
    rw [diff_natCast, except_ok_bind, consd_bn n (by omega),
      show (e : Int) + 2 ^ 30 * n = (e + 2 ^ 30 * n : Nat) by omega, diff_natCast]
    rfl

/-- The digit after a subtraction, and the borrow. -/
theorem subd_eq {d : Int} {m n : Nat} (h : -1073741824 ≤ d) (h' : d ≤ 1073741823)
    (hsubt : subt (bn m) (bn n) = diff (m - n)) (hsubb : subb (bn m) (bn n) = diff (m - n - 1)) :
    subd d (bn m) (bn n) = diff (d + 2 ^ 30 * (m - n)) := by
  rw [subd, nbase, hsubt, hsubb]
  by_cases hborrow : 0 ≤ d
  · rw [if_pos hborrow, consd_diff hborrow (by omega)]
  · rw [if_neg hborrow, int31_ok (by omega) (by omega), except_ok_bind,
      consd_diff (by omega) (by omega)]
    congr 1
    ring

/-- Subtraction with and without a borrow, together. -/
theorem subt_subb_eq (m n : Nat) :
    subt (bn m) (bn n) = diff (m - n) ∧ subb (bn m) (bn n) = diff (m - n - 1) := by
  induction m using Nat.strong_induction_on generalizing n with
  | _ m ih =>
    rcases Nat.eq_zero_or_pos m with rfl | hm
    · have hnil : subb (bn 0) (bn n) = diff ((0 : Nat) - n - 1) := by
        rw [bn_zero, subb, diff_negative (by omega)]
      rcases Nat.eq_zero_or_pos n with rfl | hn
      · exact ⟨by rw [bn_zero, subt]; rfl, hnil⟩
      · refine ⟨?_, hnil⟩
        obtain ⟨d, k, hd, rfl⟩ := exists_digit n
        rw [bn_zero, bn_cons hd hn, subt, diff_negative (by omega)]
        exact List.cons_ne_nil _ _
    · obtain ⟨dm, rm, hdm, rfl⟩ := exists_digit m
      rw [bn_cons hdm hm]
      rcases Nat.eq_zero_or_pos n with rfl | hn
      · -- nothing is left to be subtracted but perhaps the borrow
        obtain ⟨hsubt, hsubb⟩ := ih rm (by omega) 0
        rw [bn_zero] at hsubt hsubb
        rw [bn_zero]
        constructor
        · rw [subt, ← bn_cons hdm hm, Nat.cast_zero, Int.sub_zero, diff_natCast]
        · have hdigit := subd_eq (d := (dm : Int) - 1) (m := rm) (n := 0) (by omega) (by omega)
            (by rw [bn_zero, hsubt]) (by rw [bn_zero, hsubb])
          rw [bn_zero] at hdigit
          rw [subb, int31_ok (by omega) (by omega), except_ok_bind, hdigit]
          congr 1
          push_cast
          ring
      · obtain ⟨dn, rn, hdn, rfl⟩ := exists_digit n
        -- by induction, what is behind the first digits
        obtain ⟨hsubt, hsubb⟩ := ih rm (by omega) rn
        rw [bn_cons hdn hn]
        constructor
        · rw [subt, int31_ok (by omega) (by omega), except_ok_bind,
            subd_eq (by omega) (by omega) hsubt hsubb]
          congr 1
          push_cast
          ring
        · rw [subb, int31_ok (by omega) (by omega), except_ok_bind,
            int31_ok (by omega) (by omega), except_ok_bind,
            subd_eq (by omega) (by omega) hsubt hsubb]
          congr 1
          push_cast
          ring

/-- **Subtraction**. -/
theorem subt_eq (m n : Nat) : subt (bn m) (bn n) = diff (m - n) := (subt_subb_eq m n).1

/-- **Subtraction** of what is not larger. -/
theorem subt_ok {m n : Nat} (h : n ≤ m) : subt (bn m) (bn n) = .ok (bn (m - n)) := by
  rw [subt_eq, diff_sub h]

/-- **Subtracting one**, from what is not zero. -/
theorem subtOne_eq {n : Nat} (h : 0 < n) : subtOne (bn n) = .ok (bn (n - 1)) := by
  induction n using Nat.strong_induction_on with
  | _ n ih =>
    obtain ⟨d, k, hd, rfl⟩ := exists_digit n
    rw [bn_cons hd h]
    rcases Nat.eq_zero_or_pos d with rfl | hpos
    · -- the borrow
      rw [Nat.cast_zero, subtOne, ih k (by omega) (by omega), except_ok_bind,
        show 0 + 2 ^ 30 * k - 1 = (2 ^ 30 - 1) + 2 ^ 30 * (k - 1) by omega,
        bn_cons (by decide) (by omega)]
      rfl
    · -- the number one becomes zero, which has no digits
      by_cases hone : d = 1 ∧ k = 0
      · obtain ⟨rfl, rfl⟩ := hone
        rfl
      · have hlast : subtOne ((d : Int) :: bn k) =
            (do return (← int31 ((d : Int) - 1)) :: bn k) := by
          rw [subtOne]
          · intro hzero
            omega
          · intro hd1 hk
            exact hone ⟨by omega, bn_eq_nil_iff.mp hk⟩
        rw [hlast, int31_ok (by omega) (by omega), except_ok_bind,
          show d + 2 ^ 30 * k - 1 = (d - 1) + 2 ^ 30 * k by omega,
          bn_cons (by omega) (by omega), show (d : Int) - 1 = (d - 1 : Nat) by omega]
        rfl

/-! ## Comparison -/

/-- **Comparison**. -/
theorem cmp_eq (m n : Nat) : cmp (bn m) (bn n) = compare m n := by
  induction m using Nat.strong_induction_on generalizing n with
  | _ m ih =>
    rcases Nat.eq_zero_or_pos m with rfl | hm
    · rcases Nat.eq_zero_or_pos n with rfl | hn
      · rfl
      · obtain ⟨d, k, hd, rfl⟩ := exists_digit n
        rw [bn_zero, bn_cons hd hn, cmp, Nat.compare_eq_lt.mpr hn]
    · obtain ⟨dm, rm, hdm, rfl⟩ := exists_digit m
      rcases Nat.eq_zero_or_pos n with rfl | hn
      · rw [bn_zero, bn_cons hdm hm, cmp, Nat.compare_eq_gt.mpr hm]
      · obtain ⟨dn, rn, hdn, rfl⟩ := exists_digit n
        rw [bn_cons hdm hm, bn_cons hdn hn, cmp, ih rm (by omega) rn]
        rcases Nat.lt_trichotomy rm rn with hlt | rfl | hgt
        · rw [Nat.compare_eq_lt.mpr hlt, Nat.compare_eq_lt.mpr (by omega)]
        · rw [Nat.compare_eq_eq.mpr rfl]
          rcases Nat.lt_trichotomy dm dn with hlt | rfl | hgt
          · rw [if_neg (by omega), if_pos (by omega), Nat.compare_eq_lt.mpr (by omega)]
          · rw [if_pos rfl, Nat.compare_eq_eq.mpr rfl]
          · rw [if_neg (by omega), if_neg (by omega), Nat.compare_eq_gt.mpr (by omega)]
        · rw [Nat.compare_eq_gt.mpr hgt, Nat.compare_eq_gt.mpr (by omega)]

/-! ## Multiplication -/

/-- The upper digit of a product leaves room for a carry. -/
theorem upper_le {d i : Nat} (hd : d < 2 ^ 30) (hi : i < 2 ^ 30) :
    d * i / 2 ^ 30 + 1 < 2 ^ 30 := by
  have hle : d * i ≤ (2 ^ 30 - 1) * (2 ^ 30 - 1) := Nat.mul_le_mul (by omega) (by omega)
  omega

/-- By a digit, with a carry that is a digit. -/
theorem muldc_eq {i : Nat} (hpos : 0 < i) (hi : i < 2 ^ 30) (n : Nat) {c : Nat}
    (hc : c < 2 ^ 30) : muldc i (bn n) c = .ok (bn (n * i + c)) := by
  induction n using Nat.strong_induction_on generalizing c with
  | _ n ih =>
    rcases Nat.eq_zero_or_pos n with rfl | hn
    · rw [bn_zero, muldc, Nat.zero_mul, Nat.zero_add]
      rcases Nat.eq_zero_or_pos c with rfl | hcpos
      · rw [if_pos Nat.cast_zero, bn_zero]
      · rw [if_neg (by omega), bn_digit hcpos hc]
    · obtain ⟨d, k, hd, rfl⟩ := exists_digit n
      have hhigh := upper_le hd hi
      have hexp : (d + 2 ^ 30 * k) * i = d * i + 2 ^ 30 * (k * i) := by ring
      have hprod : 0 < (d + 2 ^ 30 * k) * i := Nat.mul_pos hn hpos
      rw [bn_cons hd hn, muldc, mul2_eq hd hi, except_ok_bind, nbase]
      simp only
      rw [int31_ok (by omega) (by omega), except_ok_bind, int31_ok (by omega) (by omega),
        except_ok_bind]
      rw [hexp] at hprod ⊢
      generalize d * i = p at *
      by_cases hcarry : 2 ^ 30 ≤ p % 2 ^ 30 + c
      · rw [if_pos (by omega), ← Nat.cast_succ, int31_natCast hhigh, except_ok_bind,
          ih k (by omega) hhigh, except_ok_bind,
          show p + 2 ^ 30 * (k * i) + c =
            (p % 2 ^ 30 + c - 2 ^ 30) + 2 ^ 30 * (k * i + (p / 2 ^ 30 + 1)) by omega,
          bn_cons (by omega) (by omega),
          show ((p % 2 ^ 30 : Nat) : Int) + -1073741824 + c = (p % 2 ^ 30 + c - 2 ^ 30 : Nat) by
            omega]
        rfl
      · rw [if_neg (by omega), int31_ok (by omega) (by omega), except_ok_bind,
          ih k (by omega) (by omega), except_ok_bind,
          show p + 2 ^ 30 * (k * i) + c =
            (p % 2 ^ 30 + c) + 2 ^ 30 * (k * i + p / 2 ^ 30) by omega,
          bn_cons (by omega) (by omega),
          show ((p % 2 ^ 30 : Nat) : Int) + -1073741824 + c - -1073741824 =
            (p % 2 ^ 30 + c : Nat) by omega]
        rfl

/-- **Multiplication by a digit**. -/
theorem muld_eq (n : Nat) {i : Nat} (hi : i < 2 ^ 30) : muld (bn n) i = .ok (bn (n * i)) := by
  unfold muld
  split_ifs with hzero hone
  · rw [show i = 0 by omega, Nat.mul_zero, bn_zero]
  · rw [show i = 1 by omega, Nat.mul_one]
  · exact muldc_eq (by omega) hi n (Nat.two_pow_pos 30)

/-- A shift by one digit. -/
theorem consd_zero (k : Nat) : consd 0 (bn k) = bn (2 ^ 30 * k) := by
  have h := consd_bn (d := 0) k (by decide)
  rwa [Nat.cast_zero, Nat.zero_add] at h

/-- One factor is taken digit by digit, the least significant first. -/
theorem muln_eq (m n : Nat) : muln (bn m) (bn n) = .ok (bn (m * n)) := by
  induction m using Nat.strong_induction_on with
  | _ m ih =>
    rcases Nat.eq_zero_or_pos m with rfl | hm
    · rw [bn_zero, muln, Nat.zero_mul, bn_zero]
    · obtain ⟨d, k, hd, rfl⟩ := exists_digit m
      rw [bn_cons hd hm, muln, muld_eq n hd, except_ok_bind, ih k (by omega), except_ok_bind,
        consd_zero, add_eq]
      congr 2
      ring

/-- **Multiplication**. -/
theorem mult_eq (m n : Nat) : mult (bn m) (bn n) = .ok (bn (m * n)) := by
  induction n using Nat.strong_induction_on with
  | _ n ih =>
    rcases Nat.eq_zero_or_pos n with rfl | hn
    · rw [bn_zero, mult, Nat.mul_zero, bn_zero]
    · obtain ⟨d, k, hd, rfl⟩ := exists_digit n
      have hgeneral := muln_eq m (d + 2 ^ 30 * k)
      rw [bn_cons hd hn] at hgeneral ⊢
      rcases Nat.eq_zero_or_pos k with rfl | hk
      · rw [bn_zero, mult, muld_eq m hd, Nat.mul_zero, Nat.add_zero]
      · rcases Nat.eq_zero_or_pos d with rfl | hdpos
        · rw [Nat.cast_zero, mult, ih k (by omega), except_ok_bind, consd_zero, Nat.zero_add,
            Nat.mul_left_comm]
          · rfl
          · intro hnil
            rw [bn_eq_nil_iff] at hnil
            omega
        · rw [mult, hgeneral]
          · exact List.cons_ne_nil _ _
          · intro e hone
            have hnil := bn_eq_nil_iff.mp (List.tail_eq_of_cons_eq hone)
            omega
          · intro r hshift
            have hzero := List.head_eq_of_cons_eq hshift
            omega

/-! ## Powers -/

/-- Squares of the power of half the exponent. -/
theorem expm_eq (m i : Nat) : expm (bn m) i = .ok (bn (m ^ i)) := by
  induction i using Nat.strong_induction_on with
  | _ i ih =>
    rw [expm]
    split_ifs with hzero hone heven
    · rw [hzero, Nat.pow_zero, bn_one]
    · rw [hone, Nat.pow_one]
    · rw [ih (i / 2) (by omega), except_ok_bind, mult_eq, except_ok_bind, ← Nat.pow_add,
        show i / 2 + i / 2 = i by omega]
      rfl
    · rw [ih (i / 2) (by omega), except_ok_bind, mult_eq, except_ok_bind, mult_eq, ← Nat.pow_add,
        ← Nat.pow_succ, show (i / 2 + i / 2).succ = i by omega]

/-- **Powers**. -/
theorem exp_eq (m i : Nat) : exp (bn m) i = .ok (bn (m ^ i)) := by
  unfold exp
  split_ifs with hzero hnil hpos hneg
  · rw [show i = 0 by omega, Nat.pow_zero, bn_one]
  · rw [bn_eq_nil_iff.mp hnil, Nat.zero_pow (by omega), bn_zero]
  · omega
  · omega
  · rw [Int.toNat_natCast, expm_eq]

end Unikernel.BigNat
