import Mathlib.Data.Nat.Digits.Lemmas
import Mathlib.Tactic.Linarith
import Unikernel.IntInf.BigNat
import Unikernel.Lib.LongDivision

/-!
# Arithmetic of digits

What the operations on one or two digits do. None of them raises, though most of them pass
through the whole range of an `int31`.

- `bn`: the digits of a natural number.
- `mul2_eq`: the product of two digits, upper and lower digit.
- `divmod2_eq`: two digits by one whose leading bit is set.
- `scale_eq`: the factor that sets it.
-/

namespace Unikernel.BigNat

/-! ## The digits of a number -/

/-- The list of digits that stands for `n`: the only one without a leading zero. -/
def bn (n : Nat) : Bignat := (Nat.digits (2 ^ 30) n).map fun d : Nat => (d : Int)

@[simp] theorem bn_zero : bn 0 = [] := by
  rw [bn, Nat.digits_zero, List.map_nil]

/-- The least significant digit, and the others. -/
theorem bn_pos {n : Nat} (h : 0 < n) : bn n = ((n % 2 ^ 30 : Nat) : Int) :: bn (n / 2 ^ 30) := by
  rw [bn, Nat.digits_def' (by decide) h, List.map_cons]
  rfl

/-- A number below the base is its only digit. -/
theorem bn_digit {n : Nat} (h : 0 < n) (h' : n < 2 ^ 30) : bn n = [(n : Int)] := by
  rw [bn_pos h, Nat.mod_eq_of_lt h', Nat.div_eq_of_lt h', bn_zero]

@[simp] theorem bn_one : bn 1 = [1] := bn_digit (by decide) (by decide)

/-- Zero has no digits. -/
theorem bn_eq_nil_iff {n : Nat} : bn n = [] ↔ n = 0 := by
  rcases Nat.eq_zero_or_pos n with rfl | h
  · simp
  · rw [bn_pos h]
    exact ⟨fun h' => absurd h' (List.cons_ne_nil _ _), fun h' => by omega⟩

/-- Different numbers have different digits. -/
theorem bn_injective : Function.Injective bn := by
  intro m n h
  exact Nat.digits_inj_iff.mp (List.map_injective_iff.mpr Nat.cast_injective h)

/-- A digit in front of the digits of a number. -/
theorem bn_cons {d k : Nat} (hd : d < 2 ^ 30) (h : 0 < d + 2 ^ 30 * k) :
    bn (d + 2 ^ 30 * k) = (d : Int) :: bn k := by
  rw [bn_pos h, show (d + 2 ^ 30 * k) % 2 ^ 30 = d by omega,
    show (d + 2 ^ 30 * k) / 2 ^ 30 = k by omega]

/-- The lowest digit of a number, and the others. -/
theorem exists_digit (n : Nat) : ∃ d k, d < 2 ^ 30 ∧ n = d + 2 ^ 30 * k :=
  ⟨n % 2 ^ 30, n / 2 ^ 30, by omega, by omega⟩

/-- The code puts a digit in front so that no zero is at the end. -/
theorem consd_bn {d : Nat} (k : Nat) (h : d < 2 ^ 30) : consd d (bn k) = bn (d + 2 ^ 30 * k) := by
  unfold consd
  by_cases hzero : d + 2 ^ 30 * k = 0
  · rw [if_pos ⟨by omega, bn_eq_nil_iff.mpr (by omega)⟩, hzero, bn_zero]
  · rw [bn_cons h (by omega), if_neg]
    rintro ⟨hd, hk⟩
    rw [bn_eq_nil_iff] at hk
    omega

/-! ## Machine integers and words -/

/-- No `Overflow` in the range of an `int31`. -/
theorem int31_ok {i : Int} (h : -1073741824 ≤ i) (h' : i ≤ 1073741823) : int31 i = .ok i :=
  if_pos ⟨h, h'⟩

/-- In that range, integers and words are the same numbers. -/
theorem toInt_itow {i : Int} (h : -1073741824 ≤ i) (h' : i ≤ 1073741823) : (itow i).toInt = i := by
  rw [itow, BitVec.toInt_ofInt]
  exact Int.bmod_eq_of_le (by omega) (by omega)

/-- The halves are a quotient and a remainder, also for a negative number. -/
theorem hl_eq {i : Int} (h : -1073741824 ≤ i) (h' : i ≤ 1073741823) :
    hl i = (i / 2 ^ 15, i % 2 ^ 15) := by
  have hupper : ((itow i).sshiftRight 15).toInt = i / 2 ^ 15 := by
    rw [BitVec.toInt_sshiftRight, toInt_itow h h', Int.shiftRight_eq_div_pow]
    rfl
  have hlower : (itow i &&& hmask).toNat = (i % 2 ^ 15).toNat := by
    have hnat : (itow i).toNat = (i % 2 ^ 31).toNat := BitVec.toNat_ofInt i
    rw [BitVec.toNat_and, hnat, show hmask.toNat = 2 ^ 15 - 1 from rfl,
      Nat.and_two_pow_sub_one_eq_mod]
    omega
  have hsmall : (itow i &&& hmask).toNat < 2 ^ 15 := by
    rw [hlower]
    omega
  have hsign : (itow i &&& hmask).toInt = i % 2 ^ 15 := by
    rw [BitVec.toInt_eq_toNat_of_lt (by omega), hlower]
    omega
  rw [hl, lgHBase, wtoi, wtoi, hupper, hsign]

/-- Shifting half a digit does not reach the sign. -/
theorem sh_eq {i : Int} (h : 0 ≤ i) (h' : i < 2 ^ 15) : sh i = i * 2 ^ 15 := by
  have hnat : (itow i).toNat = i.toNat := by
    rw [itow, BitVec.toNat_ofInt]
    omega
  have hshift : (itow i <<< 15).toNat = i.toNat * 2 ^ 15 := by
    rw [BitVec.toNat_shiftLeft, hnat, Nat.shiftLeft_eq, Nat.mod_eq_of_lt (by omega)]
  rw [sh, lgHBase, wtoi, BitVec.toInt_eq_toNat_of_lt (by omega), hshift]
  omega

/-- The halves of a digit. -/
theorem hl_natCast {n : Nat} (h : n < 2 ^ 30) :
    hl n = (((n / 2 ^ 15 : Nat) : Int), ((n % 2 ^ 15 : Nat) : Int)) := by
  rw [hl_eq (by omega) (by omega)]
  rfl

/-- The upper half of a digit. -/
theorem sh_natCast {n : Nat} (h : n < 2 ^ 15) : sh n = ((n * 2 ^ 15 : Nat) : Int) := by
  rw [sh_eq (by omega) (by omega)]
  rfl

theorem wtoi_hbase : wtoi hbase = 2 ^ 15 := rfl

/-- A digit is an `int31`. -/
theorem int31_natCast {n : Nat} (h : n < 2 ^ 30) : int31 n = .ok n :=
  int31_ok (by omega) (by omega)

/-- Dividing a digit cannot overflow. -/
theorem div31_natCast {m n : Nat} (hm : m < 2 ^ 30) (hn : 0 < n) :
    div31 m n = .ok ((m / n : Nat) : Int) := by
  rw [div31, if_neg (by omega), Int.fdiv_eq_ediv_of_nonneg _ (by omega)]
  exact int31_natCast ((Nat.div_le_self m n).trans_lt hm)

/-- Quotient and remainder of a digit. -/
theorem quotrem_natCast {m n : Nat} (hm : m < 2 ^ 30) (hn : 0 < n) :
    quotrem m n = .ok (((m / n : Nat) : Int), ((m % n : Nat) : Int)) := by
  have hq : quot31 m n = .ok ((m / n : Nat) : Int) := by
    rw [quot31, if_neg (by omega), Int.tdiv_eq_ediv_of_nonneg (by omega)]
    exact int31_natCast ((Nat.div_le_self m n).trans_lt hm)
  have hr : rem31 m n = .ok ((m % n : Nat) : Int) := by
    rw [rem31, if_neg (by omega), Int.tmod_eq_emod_of_nonneg (by omega)]
    exact int31_natCast ((Nat.mod_le m n).trans_lt hm)
  rw [quotrem, hq, hr]
  rfl

/-! ## Products

`mul2` takes the middle of the product from `(mh - ml) * (nh - nl)`, which is negative or positive,
and moves the sums by the base to keep them in the range of an `int31`. That none of them raises is
a matter of bounds on four products of halves. -/

/-- The halves of a digit differ by less than `2 ^ 15`, and so do their products. -/
theorem mul_halves {p q : Int} (hp : -32767 ≤ p ∧ p ≤ 32767) (hq : -32767 ≤ q ∧ q ≤ 32767) :
    -1073676289 ≤ p * q ∧ p * q ≤ 1073676289 := by
  constructor
  · nlinarith
  · nlinarith

/-- Two halves are a digit. -/
theorem halves_lt {h l : Nat} (hh : h < 2 ^ 15) (hl' : l < 2 ^ 15) : h * 2 ^ 15 + l < 2 ^ 30 := by
  omega

/-- The halves of a number of one digit. -/
theorem hl_halves {h l : Nat} (hh : h < 2 ^ 15) (hl' : l < 2 ^ 15) :
    hl ((h * 2 ^ 15 + l : Nat) : Int) = ((h : Int), (l : Int)) := by
  rw [hl_natCast (halves_lt hh hl'), show (h * 2 ^ 15 + l) / 2 ^ 15 = h by omega,
    show (h * 2 ^ 15 + l) % 2 ^ 15 = l by omega]

/-- **Two digits**: the product is its upper and lower digit. -/
theorem mul2_eq {m n : Nat} (hm : m < 2 ^ 30) (hn : n < 2 ^ 30) :
    mul2 m n = .ok (((m * n / 2 ^ 30 : Nat) : Int), ((m * n % 2 ^ 30 : Nat) : Int)) := by
  obtain ⟨mh, ml, hmh, hml, rfl⟩ : ∃ mh ml, mh < 2 ^ 15 ∧ ml < 2 ^ 15 ∧ m = mh * 2 ^ 15 + ml :=
    ⟨m / 2 ^ 15, m % 2 ^ 15, by omega, by omega, by omega⟩
  obtain ⟨nh, nl, hnh, hnl, rfl⟩ : ∃ nh nl, nh < 2 ^ 15 ∧ nl < 2 ^ 15 ∧ n = nh * 2 ^ 15 + nl :=
    ⟨n / 2 ^ 15, n % 2 ^ 15, by omega, by omega, by omega⟩
  -- bounds for the three products that are computed, and for the two that they stand for
  have hx := mul_halves (p := mh) (q := nh) (by omega) (by omega)
  have hy := mul_halves (p := (mh : Int) - ml) (q := (nh : Int) - nl) (by omega) (by omega)
  have hz := mul_halves (p := ml) (q := nl) (by omega) (by omega)
  have hc := mul_halves (p := mh) (q := nl) (by omega) (by omega)
  have hc' := mul_halves (p := ml) (q := nh) (by omega) (by omega)
  -- the middle of the product, from the three multiplications
  have hmid : (mh : Int) * nh + ml * nl - (mh - ml) * (nh - nl) = mh * nl + ml * nh := by ring
  have hprod : (((mh * 2 ^ 15 + ml) * (nh * 2 ^ 15 + nl) : Nat) : Int) =
      mh * nh * 2 ^ 30 + (mh * nl + ml * nh) * 2 ^ 15 + ml * nl := by
    push_cast
    ring
  have hx0 : 0 ≤ (mh : Int) * nh := Int.mul_nonneg (by omega) (by omega)
  have hz0 : 0 ≤ (ml : Int) * nl := Int.mul_nonneg (by omega) (by omega)
  have hc0 : 0 ≤ (mh : Int) * nl := Int.mul_nonneg (by omega) (by omega)
  have hc0' : 0 ≤ (ml : Int) * nh := Int.mul_nonneg (by omega) (by omega)
  rw [mul2, hl_halves hmh hml, hl_halves hnh hnl]
  generalize (mh * 2 ^ 15 + ml) * (nh * 2 ^ 15 + nl) = p at hprod ⊢
  simp only
  -- from here on the products are variables with their bounds
  generalize (mh : Int) * nh = x at *
  generalize (ml : Int) * nl = z at *
  generalize (mh : Int) * nl = c at *
  generalize (ml : Int) * nh = c' at *
  rw [int31_ok (i := x) (by omega) (by omega), except_ok_bind,
    int31_ok (i := (mh : Int) - ml) (by omega) (by omega), except_ok_bind,
    int31_ok (i := (nh : Int) - nl) (by omega) (by omega), except_ok_bind]
  generalize ((mh : Int) - ml) * (nh - nl) = y at *
  rw [int31_ok (i := y) (by omega) (by omega), except_ok_bind,
    int31_ok (i := z) (by omega) (by omega), except_ok_bind, hl_eq (i := z) (by omega) (by omega)]
  simp only [nbase]
  rw [int31_ok (by omega) (by omega), except_ok_bind, int31_ok (by omega) (by omega),
    except_ok_bind, int31_ok (by omega) (by omega), except_ok_bind,
    int31_ok (by omega) (by omega), except_ok_bind, hl_eq (by omega) (by omega)]
  simp only
  rw [int31_ok (by omega) (by omega), except_ok_bind, wtoi_hbase,
    int31_ok (by omega) (by omega), except_ok_bind, sh_eq (by omega) (by omega),
    int31_ok (by omega) (by omega), except_ok_bind]
  show Except.ok _ = _
  congr 2
  · omega
  · omega

/-! ## Quotients

The quotient of two digits by one is found half a digit at a time: it is estimated from the
upper half of the divisor, and lowered until the remainder is not negative. With the leading
bit of the divisor set, the estimate is at most one half digit and a little more, so that
nothing overflows. -/

/-- An estimate that is not too small is lowered to the quotient. -/
theorem adj_eq {i n q : Nat} (hi : 0 < i) (hi' : i < 2 ^ 30) (hle : n / i ≤ q) (hq : q < 2 ^ 30)
    (hlow : -1073741824 ≤ (n : Int) - (q * i : Nat)) :
    adj i q ((n : Int) - (q * i : Nat)) = .ok (((n / i : Nat) : Int), ((n % i : Nat) : Int)) := by
  have hdiv := Nat.div_add_mod' n i
  have hmod := Nat.mod_lt n hi
  -- the induction is on how much too large the estimate is
  obtain ⟨k, rfl⟩ := Nat.exists_eq_add_of_le hle
  generalize n / i = w at *
  generalize n % i = r at *
  clear hle
  induction k with
  | zero =>
    rw [Nat.add_zero] at *
    rw [adj, if_neg (by omega), show (n : Int) - (w * i : Nat) = r by omega]
  | succ k ih =>
    have hprod : (w + (k + 1)) * i = (w + k) * i + i := by ring
    have hge : w * i ≤ (w + k) * i := Nat.mul_le_mul_right i (Nat.le_add_right w k)
    rw [hprod] at hlow ⊢
    have hpred : int31 (((w + (k + 1) : Nat) : Int) - 1) = .ok ((w + k : Nat) : Int) := by
      rw [show ((w + (k + 1) : Nat) : Int) - 1 = (w + k : Nat) by omega]
      exact int31_natCast (by omega)
    have hnext : int31 ((n : Int) - ((w + k) * i + i : Nat) + i) =
        .ok ((n : Int) - ((w + k) * i : Nat)) := by
      rw [show (n : Int) - ((w + k) * i + i : Nat) + i = (n : Int) - ((w + k) * i : Nat) by omega]
      exact int31_ok (by omega) (by omega)
    rw [adj, if_pos (by omega)]
    split
    · next q' h =>
      rw [hpred, Except.ok.injEq] at h
      rw [hnext, except_ok_bind, ← h]
      exact ih (by omega) (by omega)
    · next e h =>
      rw [hpred] at h
      cases h

/-- One of the two steps of `divmod2`: half a digit `v` behind `u`. -/
def half (i u v : Int) : Except Exn (Int × Int) := do
  let (ih, il) := hl i
  let (q, r) ← quotrem u ih
  let t ← int31 (sh r + v)
  adj i q (← int31 (t - (← int31 (q * il))))

/-- `divmod2` is the same step twice, for the upper and the lower half. -/
theorem divmod2_eq_half (u v i : Int) : divmod2 u v i = (do
    let (vh, vl) := hl v
    let (q1, r1) ← half i u vh
    let (q0, r0) ← half i r1 vl
    return (← int31 (sh q1 + q0), r0)) := by
  simp only [divmod2, half, bind_assoc]

/-- **Half a digit of the quotient**, and the remainder. -/
theorem half_eq {i u v : Nat} (hi : 2 ^ 29 ≤ i) (hi' : i < 2 ^ 30) (hu : u < i)
    (hv : v < 2 ^ 15) :
    half i u v =
      .ok ((((u * 2 ^ 15 + v) / i : Nat) : Int), (((u * 2 ^ 15 + v) % i : Nat) : Int)) := by
  obtain ⟨ih, il, hih, hil, rfl⟩ : ∃ ih il, ih < 2 ^ 15 ∧ il < 2 ^ 15 ∧ i = ih * 2 ^ 15 + il :=
    ⟨i / 2 ^ 15, i % 2 ^ 15, by omega, by omega, by omega⟩
  have hr : u % ih < ih := Nat.mod_lt u (by omega)
  have hr' : u % ih < 2 ^ 15 := by omega
  have ht : u % ih * 2 ^ 15 + v < 2 ^ 30 := halves_lt hr' hv
  have hqr : u / ih * ih + u % ih = u := Nat.div_add_mod' u ih
  -- the quotient by the upper half is not much more than half a digit
  have hq : u / ih ≤ 2 ^ 15 + 1 := by
    have hlt : u < ih * (2 ^ 15 + 1 + 1) := by
      calc u < ih * 2 ^ 15 + 2 * ih := by omega
        _ = ih * (2 ^ 15 + 1 + 1) := by ring
    exact Nat.le_of_lt_succ (Nat.div_lt_of_lt_mul hlt)
  -- and it is not too small
  have hle : (u * 2 ^ 15 + v) / (ih * 2 ^ 15 + il) ≤ u / ih := by
    have hest := LongDivision.div_le_estimate (v := u * 2 ^ 15 + v) (d := ih * 2 ^ 15 + il)
      (p := 2 ^ 15) (by omega)
    rwa [show (u * 2 ^ 15 + v) / 2 ^ 15 = u by omega,
      show (ih * 2 ^ 15 + il) / 2 ^ 15 = ih by omega] at hest
  have hprod : u / ih * (ih * 2 ^ 15 + il) = u / ih * ih * 2 ^ 15 + u / ih * il := by ring
  have hlow : u / ih * il < 2 ^ 30 := by
    calc u / ih * il ≤ (2 ^ 15 + 1) * (2 ^ 15 - 1) := Nat.mul_le_mul hq (by omega)
      _ < 2 ^ 30 := by norm_num
  rw [half, hl_halves hih hil]
  simp only
  rw [quotrem_natCast (by omega) (by omega), except_ok_bind]
  simp only
  generalize hqe : u / ih = q at *
  generalize hre : u % ih = r at *
  rw [sh_natCast hr', ← Nat.cast_add, int31_natCast ht, except_ok_bind,
    ← Nat.cast_mul, int31_natCast hlow, except_ok_bind]
  generalize hp : q * il = p at *
  rw [show ((r * 2 ^ 15 + v : Nat) : Int) - p =
      ((u * 2 ^ 15 + v : Nat) : Int) - (q * (ih * 2 ^ 15 + il) : Nat) by
    rw [hprod]
    omega]
  -- the remainder of the estimate is an `int31`, on both sides
  have hbound : -1073741824 ≤ ((u * 2 ^ 15 + v : Nat) : Int) - (q * (ih * 2 ^ 15 + il) : Nat) := by
    rw [hprod]
    omega
  have hupper : ((u * 2 ^ 15 + v : Nat) : Int) - (q * (ih * 2 ^ 15 + il) : Nat) ≤ 1073741823 := by
    rw [hprod]
    omega
  rw [int31_ok hbound hupper, except_ok_bind]
  exact adj_eq (by omega) hi' hle (by omega) hbound

/-- **Two digits by one**: quotient and remainder, if the leading bit of the divisor is set. -/
theorem divmod2_eq {u v i : Nat} (hi : 2 ^ 29 ≤ i) (hi' : i < 2 ^ 30) (hu : u < i)
    (hv : v < 2 ^ 30) :
    divmod2 u v i =
      .ok ((((u * 2 ^ 30 + v) / i : Nat) : Int), (((u * 2 ^ 30 + v) % i : Nat) : Int)) := by
  have hvh : (u * 2 ^ 30 + v) / 2 ^ 15 = u * 2 ^ 15 + v / 2 ^ 15 := by omega
  have hvl : (u * 2 ^ 30 + v) % 2 ^ 15 = v % 2 ^ 15 := by omega
  -- the general rules for one step of a long division, in base `2 ^ 15`
  have hdiv := LongDivision.div_step (b := 2 ^ 15) (u * 2 ^ 30 + v) (i := i) (by omega)
  have hmod := LongDivision.mod_step (b := 2 ^ 15) (u * 2 ^ 30 + v) i
  rw [hvh, hvl] at hdiv hmod
  have hupper : (u * 2 ^ 15 + v / 2 ^ 15) / i < 2 ^ 15 :=
    LongDivision.step_lt hu (by omega)
  have hrest : (u * 2 ^ 15 + v / 2 ^ 15) % i < i := Nat.mod_lt _ (by omega)
  have hlower : ((u * 2 ^ 15 + v / 2 ^ 15) % i * 2 ^ 15 + v % 2 ^ 15) / i < 2 ^ 15 :=
    LongDivision.step_lt hrest (by omega)
  rw [divmod2_eq_half, hl_natCast hv]
  simp only
  rw [half_eq hi hi' hu (by omega), except_ok_bind]
  simp only
  rw [half_eq hi hi' hrest (by omega), except_ok_bind]
  simp only
  rw [sh_natCast hupper, ← Nat.cast_add, int31_natCast (by omega), except_ok_bind, hdiv, hmod,
    Nat.mul_comm (2 ^ 15)]
  rfl

/-- The factor that brings the leading bit of a digit to the top. -/
theorem scale_eq {i : Nat} (hi : 0 < i) (hi' : i < 2 ^ 30) :
    scale i = .ok ((2 ^ 30 / (i + 1) : Nat) : Int) := by
  unfold scale
  split
  · next h =>
    rw [maxDigit] at h
    rw [show i = 2 ^ 30 - 1 by omega]
    rfl
  · next h =>
    rw [maxDigit] at h
    -- both operands are negative, and the quotient is that of the positive ones
    have hdiv : Int.fdiv nbase (-((i : Int) + 1)) = ((2 ^ 30 / (i + 1) : Nat) : Int) := by
      rw [nbase, show (-1073741824 : Int) = -(2 ^ 30 : Nat) by rfl, Int.neg_fdiv_neg,
        Int.fdiv_eq_ediv_of_nonneg _ (by omega)]
      rfl
    have hle : 2 ^ 30 / (i + 1) < 2 ^ 30 := Nat.div_lt_self (by decide) (by omega)
    rw [int31_ok (by omega) (by omega), except_ok_bind, int31_ok (by omega) (by omega),
      except_ok_bind, div31, if_neg (by omega), hdiv, int31_natCast hle]

end Unikernel.BigNat
