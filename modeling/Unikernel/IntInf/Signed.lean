import Mathlib.Algebra.Order.Ring.Int
import Unikernel.IntInf.Division

/-!
# Integers of any size

The type `intinf` of `basis/IntInfRep.sml` with the operators that are overloaded for it,
and the operations that `basis/IntInf.sml` adds: a sign in front of a `bignat`.

- `rep`: the value that stands for an integer. It is the only one: zero has no sign.
- `ring_exact`: sums, products, powers and comparisons are those of the integers. No digit
  on the way is too large.
- `division_exact`: `divmod` rounds down, `quotrem` rounds towards zero.
- `toInt_eq`, `fromInt_eq`: these two go through `Int32`, whatever the size of an `int`.
-/

namespace Unikernel

open BigNat (Bignat bn diff)

/-- `_IntInf`. -/
structure IntInf where
  negative : Bool
  digits : Bignat
  deriving DecidableEq, Repr

namespace IntInf

/-! ## The operators

A number is a sign and its digits; zero is never negative. The operations look at the signs and
compute with the digits, so that only divisions by zero can raise. -/

def zero : IntInf := ⟨false, []⟩

def one : IntInf := ⟨false, [1]⟩

def posi (digits : Bignat) : IntInf := ⟨false, digits⟩

def negi (digits : Bignat) : IntInf := ⟨true, digits⟩

/-- A negation, of which the sign is dropped when there are no digits. -/
def zneg (digits : Bignat) : IntInf := if digits = [] then zero else ⟨true, digits⟩

/-- A difference of naturals, tried in both directions. -/
def subtNat (m n : Bignat) : Except Exn IntInf :=
  if n = [] then .ok ⟨false, m⟩
  else if m = [] then .ok ⟨true, n⟩
  else match BigNat.subt m n with
    | .ok d => .ok ⟨false, d⟩
    | .error .negative => do return ⟨true, ← BigNat.subt n m⟩
    | .error e => .error e

/-- Zero stays as it is. -/
def neg (i : IntInf) : IntInf := if i.digits = [] then i else ⟨!i.negative, i.digits⟩

/-- `IntInfPlus`, which is `op +`. -/
def plus (i1 i2 : IntInf) : Except Exn IntInf :=
  if i1.digits = [] then .ok i2
  else if i2.digits = [] then .ok i1
  else match i1.negative, i2.negative with
    | false, true => subtNat i1.digits i2.digits
    | true, false => subtNat i2.digits i1.digits
    | negative, _ => do return ⟨negative, ← BigNat.add i1.digits i2.digits⟩

/-- `op -`. -/
def minus (i1 i2 : IntInf) : Except Exn IntInf :=
  if i2.digits = [] then .ok i1
  else if i1.digits = [] then .ok ⟨!i2.negative, i2.digits⟩
  else match i1.negative, i2.negative with
    | false, false => subtNat i1.digits i2.digits
    | true, true => subtNat i2.digits i1.digits
    | negative, _ => do return ⟨negative, ← BigNat.add i1.digits i2.digits⟩

/-- `IntInfMul`, which is `op *`. -/
def mul (i1 i2 : IntInf) : Except Exn IntInf :=
  if i2.digits = [] then .ok zero
  else if i1.digits = [] then .ok zero
  else match i1.negative, i2.negative with
    | false, true => do return ⟨true, ← BigNat.mult i1.digits i2.digits⟩
    | true, false => do return ⟨true, ← BigNat.mult i1.digits i2.digits⟩
    | _, _ => do return ⟨false, ← BigNat.mult i1.digits i2.digits⟩

/-- `divmod`, of which `op div` and `op mod` are the parts. -/
def divmod (i1 i2 : IntInf) : Except Exn (IntInf × IntInf) :=
  match i1.negative, i2.negative with
  | false, false => do
    let (q, r) ← BigNat.divmod i1.digits i2.digits
    return (posi q, posi r)
  | false, true =>
    if i1.digits = [] then .ok (zero, zero)
    else do
      let (q, r) ← BigNat.divmod (← BigNat.subtOne i1.digits) i2.digits
      return (negi (← BigNat.addOne q),
        zneg (← BigNat.subtOne (← BigNat.subt i2.digits r)))
  | true, false => do
    let (q, r) ← BigNat.divmod (← BigNat.subtOne i1.digits) i2.digits
    return (negi (← BigNat.addOne q),
      posi (← BigNat.subtOne (← BigNat.subt i2.digits r)))
  | true, true => do
    let (q, r) ← BigNat.divmod i1.digits i2.digits
    return (posi q, zneg r)

/-- `quotrem`, of which `op quot` and `op rem` are the parts. -/
def quotrem (i1 i2 : IntInf) : Except Exn (IntInf × IntInf) := do
  let (q, r) ← BigNat.divmod i1.digits i2.digits
  match i1.negative, i2.negative with
  | false, false => return (posi q, posi r)
  | false, true => return (zneg q, posi r)
  | true, false => return (zneg q, zneg r)
  | true, true => return (posi q, zneg r)

/-- The signs decide, and then the digits, in reverse for two negative numbers. -/
def compare (i1 i2 : IntInf) : Ordering :=
  match i1.negative, i2.negative with
  | true, false => .lt
  | false, true => .gt
  | false, false => BigNat.cmp i1.digits i2.digits
  | true, true => BigNat.cmp i2.digits i1.digits

/-- `op <`, of which the other three are variants. -/
def lt (i1 i2 : IntInf) : Bool :=
  match compare i1 i2 with
  | .lt => true
  | _ => false

/-- `op >`. -/
def gt (i1 i2 : IntInf) : Bool :=
  match compare i1 i2 with
  | .gt => true
  | _ => false

/-- `op <=`. -/
def le (i1 i2 : IntInf) : Bool :=
  match compare i1 i2 with
  | .gt => false
  | _ => true

/-- `op >=`. -/
def ge (i1 i2 : IntInf) : Bool :=
  match compare i1 i2 with
  | .lt => false
  | _ => true

def abs (i : IntInf) : IntInf := ⟨false, i.digits⟩

/-- A negative exponent gives zero, also for the base one unless the exponent is `-1`; below `-1`
the base zero raises `Div`. -/
def pow (i : IntInf) (n : Int) : Except Exn IntInf :=
  if n = 0 then .ok one
  else if n = -1 then .ok (if abs i = one then i else zero)
  else match i.negative with
    | false => do return posi (← BigNat.exp i.digits n)
    | true =>
      if n % 2 = 0 then do return posi (← BigNat.exp i.digits n)
      else do return zneg (← BigNat.exp i.digits n)

/-! ## Machine integers -/

/-- The value of an `int32` operation, or `Overflow`. -/
def int32 (i : Int) : Except Exn Int :=
  if -2147483648 ≤ i ∧ i ≤ 2147483647 then .ok i else .error .overflow

def minNeg : Int := -2147483648

/-- `bn` in `natInfFromI32`. -/
def wordDigits (w : BitVec 32) : Bignat :=
  if w = 0 then []
  else ((w &&& 0x3fffffff#32).toNat : Int) :: wordDigits (w >>> 30)
termination_by w.toNat
decreasing_by
  rename_i hw
  rw [BitVec.toNat_ushiftRight, Nat.shiftRight_eq_div_pow]
  exact Nat.div_lt_self (Nat.pos_of_ne_zero fun h => hw (BitVec.eq_of_toNat_eq h)) (by decide)

/-- The word is `Word32.fromLargeInt (Int32.toLarge i)`. -/
def natInfFromI32 (i : Int) : Bignat :=
  if i = 0 then []
  else if i ≤ BigNat.maxDigit then [i]
  else wordDigits (BitVec.ofInt 32 i)

/-- The base times the value of the upper digits, with the base negative. -/
def natInfToI32 : Bignat → Except Exn Int
  | [] => .ok 0
  | [d] => .ok d
  | [d, e] => do
    let p ← int32 (BigNat.nbase * e)
    int32 ((← int32 (-p)) + d)
  | d :: r => do
    let p ← int32 (BigNat.nbase * (← natInfToI32 r))
    int32 ((← int32 (-p)) + d)

/-- `2 ^ 31`, which is no `int32`. -/
def bigNatMinNeg : Except Exn Bignat := BigNat.addOne (natInfFromI32 (-(minNeg + 1)))

/-- The negative numbers of `intInfToI32`. The smallest is found by its digits. -/
def negToI32 (digits : Bignat) : Except Exn Int :=
  match (do int32 (-(← natInfToI32 digits)) : Except Exn Int) with
  | .ok i => .ok i
  | .error _ => do
    let digits' ← bigNatMinNeg
    if digits = digits' then .ok minNeg else .error .overflow

/-- The digits decide first whether there is anything to convert. -/
def intInfToI32 (x : IntInf) : Except Exn Int :=
  match x.digits, x.negative with
  | [], _ => .ok 0
  | digits, false => natInfToI32 digits
  | digits, true => negToI32 digits

/-- The smallest `int32` has no negation, and is a case of its own. -/
def i32ToIntInf (i : Int) : Except Exn IntInf :=
  if i = 0 then .ok zero
  else if i < 0 then
    if i = minNeg then do return negi (← bigNatMinNeg)
    else .ok ⟨true, natInfFromI32 (-i)⟩
  else .ok ⟨false, natInfFromI32 i⟩

/-- `Int32.toInt o intInfToI32`. -/
def toInt (x : IntInf) : Except Exn Int := intInfToI32 x

/-- `i32ToIntInf o Int32.fromInt`. -/
def fromInt (x : Int) : Except Exn IntInf := do i32ToIntInf (← int32 x)

/-! ## The integers as values

Each integer has one value that stands for it, and the operations stay among these values. The
lemmas below take a value apart by the sign of its integer. -/

/-- The value that stands for `i`. -/
def rep (i : Int) : IntInf := ⟨decide (i < 0), bn i.natAbs⟩

/-- A number that is not negative. -/
theorem rep_natCast (n : Nat) : rep n = ⟨false, bn n⟩ := by
  rw [rep, decide_eq_false (by omega), Int.natAbs_natCast]

/-- A negative number. -/
theorem rep_neg {n : Nat} (h : 0 < n) : rep (-n) = ⟨true, bn n⟩ := by
  rw [rep, decide_eq_true (by omega), Int.natAbs_neg, Int.natAbs_natCast]

/-- A difference that is not negative. -/
theorem rep_sub {m n : Nat} (h : n ≤ m) : rep ((m : Int) - n) = ⟨false, bn (m - n)⟩ := by
  rw [← Nat.cast_sub h, rep_natCast]

/-- No two integers are written with the same digits and sign. -/
theorem rep_injective : Function.Injective rep := by
  intro i j h
  rw [rep, rep, IntInf.mk.injEq, decide_eq_decide] at h
  have habs := BigNat.bn_injective h.2
  omega

/-- The code tests the digits for zero. -/
theorem digits_rep_eq_nil {i : Int} : (rep i).digits = [] ↔ i = 0 := by
  rw [rep, BigNat.bn_eq_nil_iff, Int.natAbs_eq_zero]

@[simp] theorem rep_zero : rep 0 = zero := rfl

@[simp] theorem rep_one : rep 1 = one := by
  rw [show (1 : Int) = (1 : Nat) from rfl, rep_natCast, BigNat.bn_one]
  rfl

/-- What the code builds without a sign. -/
theorem posi_bn (n : Nat) : posi (bn n) = rep n := (rep_natCast n).symm

/-- What the code builds with a sign. -/
theorem negi_bn {n : Nat} (h : 0 < n) : negi (bn n) = rep (-n) := (rep_neg h).symm

/-- What the code negates. -/
theorem zneg_bn (n : Nat) : zneg (bn n) = rep (-n) := by
  unfold zneg
  split_ifs with hnil
  · rw [BigNat.bn_eq_nil_iff.mp hnil]
    rfl
  · rw [rep_neg (Nat.pos_of_ne_zero fun h => hnil (BigNat.bn_eq_nil_iff.mpr h))]

/-- An integer is a natural number, or the negation of a positive one. -/
theorem sign_cases (i : Int) : (∃ n : Nat, i = n) ∨ ∃ n : Nat, 0 < n ∧ i = -n := by
  rcases lt_or_ge i 0 with h | h
  · exact .inr ⟨i.natAbs, by omega, by omega⟩
  · exact .inl ⟨i.natAbs, by omega⟩

/-! ## Sums and products

Four cases each, by the signs: two of them compute with sums of digits, and two
with differences. -/

/-- If the first difference raises `Negative`, the other one does not. -/
theorem subtNat_eq (m n : Nat) : subtNat (bn m) (bn n) = .ok (rep (m - n)) := by
  unfold subtNat
  split_ifs with hn hm
  · rw [BigNat.bn_eq_nil_iff.mp hn, Nat.cast_zero, Int.sub_zero, rep_natCast]
  · rw [BigNat.bn_eq_nil_iff.mp hm, Nat.cast_zero, Int.zero_sub, rep_neg]
    exact Nat.pos_of_ne_zero fun h => hn (BigNat.bn_eq_nil_iff.mpr h)
  · rcases Nat.lt_or_ge m n with hlt | hle
    · have hsubt : BigNat.subt (bn m) (bn n) = .error .negative := by
        rw [BigNat.subt_eq, BigNat.diff_negative (by omega)]
      rw [hsubt]
      simp only
      rw [BigNat.subt_ok hlt.le, except_ok_bind,
        show (m : Int) - n = -((n - m : Nat) : Int) by omega, rep_neg (by omega)]
      rfl
    · rw [BigNat.subt_ok hle, rep_sub hle]

/-- **Negation**. -/
@[simp] theorem neg_eq (i : Int) : neg (rep i) = rep (-i) := by
  unfold neg
  split_ifs with hzero
  · rw [digits_rep_eq_nil.mp hzero]
    rfl
  · rw [digits_rep_eq_nil] at hzero
    rcases sign_cases i with ⟨n, rfl⟩ | ⟨n, hn, rfl⟩
    · rw [rep_neg (by omega), rep_natCast]
      rfl
    · rw [rep_neg hn, Int.neg_neg, rep_natCast]
      rfl

/-- **Absolute value**. -/
@[simp] theorem abs_eq (i : Int) : abs (rep i) = rep i.natAbs := by
  rw [rep_natCast]
  rfl

/-- **Addition**. -/
theorem plus_eq (i j : Int) : plus (rep i) (rep j) = .ok (rep (i + j)) := by
  unfold plus
  split_ifs with hi hj
  · rw [digits_rep_eq_nil.mp hi, Int.zero_add]
  · rw [digits_rep_eq_nil.mp hj, Int.add_zero]
  · rcases sign_cases i with ⟨m, rfl⟩ | ⟨m, hm, rfl⟩
    · rcases sign_cases j with ⟨n, rfl⟩ | ⟨n, hn, rfl⟩
      · rw [rep_natCast, rep_natCast, ← Nat.cast_add, rep_natCast]
        simp only
        rw [BigNat.add_eq]
        rfl
      · rw [rep_natCast, rep_neg hn]
        exact subtNat_eq m n
    · rcases sign_cases j with ⟨n, rfl⟩ | ⟨n, hn, rfl⟩
      · rw [rep_natCast, rep_neg hm, Int.add_comm]
        exact subtNat_eq n m
      · rw [rep_neg hm, rep_neg hn, show -(m : Int) + -n = -((m + n : Nat) : Int) by omega,
          rep_neg (by omega)]
        simp only
        rw [BigNat.add_eq]
        rfl

/-- **Subtraction**. -/
theorem minus_eq (i j : Int) : minus (rep i) (rep j) = .ok (rep (i - j)) := by
  unfold minus
  split_ifs with hj hi
  · rw [digits_rep_eq_nil.mp hj, Int.sub_zero]
  · rw [digits_rep_eq_nil.mp hi, Int.zero_sub, ← neg_eq, neg, if_neg hj]
  · rcases sign_cases i with ⟨m, rfl⟩ | ⟨m, hm, rfl⟩
    · rcases sign_cases j with ⟨n, rfl⟩ | ⟨n, hn, rfl⟩
      · rw [rep_natCast, rep_natCast]
        exact subtNat_eq m n
      · rw [rep_natCast, rep_neg hn, Int.sub_neg, ← Nat.cast_add, rep_natCast]
        simp only
        rw [BigNat.add_eq]
        rfl
    · rcases sign_cases j with ⟨n, rfl⟩ | ⟨n, hn, rfl⟩
      · rw [rep_natCast, rep_neg hm, show -(m : Int) - n = -((m + n : Nat) : Int) by omega,
          rep_neg (by omega)]
        simp only
        rw [BigNat.add_eq]
        rfl
      · rw [rep_neg hm, rep_neg hn, show -(m : Int) - -n = n - m by omega]
        exact subtNat_eq n m

/-- **Multiplication**. -/
theorem mul_eq (i j : Int) : mul (rep i) (rep j) = .ok (rep (i * j)) := by
  unfold mul
  split_ifs with hj hi
  · rw [digits_rep_eq_nil.mp hj, Int.mul_zero, rep_zero]
  · rw [digits_rep_eq_nil.mp hi, Int.zero_mul, rep_zero]
  · rw [digits_rep_eq_nil] at hi hj
    rcases sign_cases i with ⟨m, rfl⟩ | ⟨m, hm, rfl⟩
    · rcases sign_cases j with ⟨n, rfl⟩ | ⟨n, hn, rfl⟩
      · rw [rep_natCast, rep_natCast, ← Nat.cast_mul, rep_natCast]
        simp only
        rw [BigNat.mult_eq]
        rfl
      · rw [rep_natCast, rep_neg hn, Int.mul_neg, ← Nat.cast_mul,
          rep_neg (Nat.mul_pos (by omega) hn)]
        simp only
        rw [BigNat.mult_eq]
        rfl
    · rcases sign_cases j with ⟨n, rfl⟩ | ⟨n, hn, rfl⟩
      · rw [rep_natCast, rep_neg hm, Int.neg_mul, ← Nat.cast_mul,
          rep_neg (Nat.mul_pos hm (by omega))]
        simp only
        rw [BigNat.mult_eq]
        rfl
      · rw [rep_neg hm, rep_neg hn, Int.neg_mul_neg, ← Nat.cast_mul, rep_natCast]
        simp only
        rw [BigNat.mult_eq]
        rfl

/-! ## Comparison -/

/-- The order of the naturals is that of the integers. -/
theorem compare_natCast (m n : Nat) : Ord.compare (m : Int) n = Ord.compare m n := by
  rcases Nat.lt_trichotomy m n with h | rfl | h
  · rw [Nat.compare_eq_lt.mpr h, compare_lt_iff_lt]
    exact Nat.cast_lt.mpr h
  · rw [Nat.compare_eq_eq.mpr rfl, compare_eq_iff_eq]
  · rw [Nat.compare_eq_gt.mpr h, compare_gt_iff_gt]
    exact Nat.cast_lt.mpr h

/-- **Comparison**. -/
theorem compare_eq (i j : Int) : compare (rep i) (rep j) = Ord.compare i j := by
  rcases sign_cases i with ⟨m, rfl⟩ | ⟨m, hm, rfl⟩
  · rcases sign_cases j with ⟨n, rfl⟩ | ⟨n, hn, rfl⟩
    · rw [rep_natCast, rep_natCast, compare_natCast]
      exact BigNat.cmp_eq m n
    · rw [rep_natCast, rep_neg hn, compare_gt_iff_gt.mpr (show (m : Int) > -n by omega)]
      rfl
  · rcases sign_cases j with ⟨n, rfl⟩ | ⟨n, hn, rfl⟩
    · rw [rep_natCast, rep_neg hm, compare_lt_iff_lt.mpr (show -(m : Int) < n by omega)]
      rfl
    · -- the order of two negative numbers is the reverse one
      have hswap : Ord.compare (-(m : Int)) (-n) = Ord.compare (n : Int) m := by
        rcases lt_trichotomy m n with h | rfl | h
        · rw [compare_gt_iff_gt.mpr (show -(m : Int) > -n by omega),
            compare_gt_iff_gt.mpr (show (n : Int) > m by omega)]
        · rw [compare_eq_iff_eq.mpr rfl, compare_eq_iff_eq.mpr rfl]
        · rw [compare_lt_iff_lt.mpr (show -(m : Int) < -n by omega),
            compare_lt_iff_lt.mpr (show (n : Int) < m by omega)]
      rw [rep_neg hm, rep_neg hn, hswap, compare_natCast]
      exact BigNat.cmp_eq n m

section Order

variable (i j : Int)

@[simp] theorem lt_eq : lt (rep i) (rep j) = decide (i < j) := by
  rw [lt, compare_eq, Bool.eq_iff_iff, decide_eq_true_iff, ← compare_lt_iff_lt]
  cases Ord.compare i j
  all_goals simp

@[simp] theorem le_eq : le (rep i) (rep j) = decide (i ≤ j) := by
  rw [le, compare_eq, Bool.eq_iff_iff, decide_eq_true_iff, ← not_lt, ← compare_gt_iff_gt]
  cases Ord.compare i j
  all_goals simp

end Order

/-! ## Division

Rounding down, a negative quotient is one more than that of the number before, and the remainder is
what is left to the divisor: the code subtracts one, divides, and adds one again. -/

/-- The quotient of a negated number, rounded down, from that of its predecessor. -/
theorem neg_div_mod {m n : Nat} (hm : 0 < m) (hn : 0 < n) :
    -(m : Int) / n = -(((m - 1) / n + 1 : Nat) : Int) ∧
      -(m : Int) % n = ((n - (m - 1) % n - 1 : Nat) : Int) := by
  obtain ⟨k, rfl⟩ : ∃ k, m = k + 1 := ⟨m - 1, by omega⟩
  have hrest := Nat.mod_lt k hn
  rw [Nat.add_sub_cancel, show -((k + 1 : Nat) : Int) = Int.negSucc k from rfl,
    Int.negSucc_ediv k (by omega), Int.negSucc_emod k (by omega)]
  constructor
  · rfl
  · rw [← Int.natCast_mod]
    omega

/-- Without signs, rounding down is dividing naturals. -/
theorem fdiv_natCast (m n : Nat) : Int.fdiv m n = ((m / n : Nat) : Int) :=
  Int.fdiv_eq_ediv_of_nonneg _ (Int.natCast_nonneg n)

/-- And so is the remainder. -/
theorem fmod_natCast (m n : Nat) : Int.fmod m n = ((m % n : Nat) : Int) :=
  Int.fmod_eq_emod_of_nonneg _ (Int.natCast_nonneg n)

/-- The digits of quotient and remainder where the signs differ. -/
theorem divmod_signs {m n : Nat} (hm : 0 < m) (hn : 0 < n) {f : Bignat → IntInf} :
    (do
      let (q, r) ← BigNat.divmod (← BigNat.subtOne (bn m)) (bn n)
      return (negi (← BigNat.addOne q), f (← BigNat.subtOne (← BigNat.subt (bn n) r)))) =
      (.ok (rep (-(m : Int) / n), f (bn (n - (m - 1) % n - 1))) :
        Except Exn (IntInf × IntInf)) := by
  have hrest := Nat.mod_lt (m - 1) hn
  rw [BigNat.subtOne_eq hm, except_ok_bind, BigNat.divmod_eq _ hn, except_ok_bind]
  simp only
  rw [BigNat.addOne_eq, except_ok_bind, BigNat.subt_ok hrest.le, except_ok_bind,
    BigNat.subtOne_eq (by omega), except_ok_bind, (neg_div_mod hm hn).1,
    negi_bn (Nat.succ_pos _)]
  rfl

/-- **Division**, rounded down. -/
theorem divmod_eq (i : Int) {j : Int} (hj : j ≠ 0) :
    divmod (rep i) (rep j) = .ok (rep (i.fdiv j), rep (i.fmod j)) := by
  rcases sign_cases i with ⟨m, rfl⟩ | ⟨m, hm, rfl⟩
  · rcases sign_cases j with ⟨n, rfl⟩ | ⟨n, hn, rfl⟩
    · -- no sign is negative
      rw [rep_natCast, rep_natCast, fdiv_natCast, fmod_natCast, ← posi_bn, ← posi_bn]
      show (BigNat.divmod (bn m) (bn n) >>= _) = _
      rw [BigNat.divmod_eq m (by omega)]
      rfl
    · rcases Nat.eq_zero_or_pos m with rfl | hm
      · rw [Nat.cast_zero, Int.zero_fdiv, Int.zero_fmod, rep_zero, rep_neg hn]
        rfl
      · -- the signs differ, and the divisor is the negative one
        obtain ⟨hdiv, hmod⟩ := neg_div_mod hm hn
        have hquot : Int.fdiv (m : Int) (-n) = -(m : Int) / n := by
          rw [← Int.neg_fdiv_neg, Int.neg_neg, Int.fdiv_eq_ediv_of_nonneg _ (by omega)]
        have hrem : Int.fmod (m : Int) (-n) = -(-(m : Int) % n) := by
          rw [← Int.neg_neg (m : Int), Int.neg_fmod_neg, Int.fmod_eq_emod_of_nonneg _ (by omega),
            Int.neg_neg]
        rw [rep_natCast, rep_neg hn, hquot, hrem, hmod, ← zneg_bn, ← divmod_signs hm hn]
        show (if bn m = [] then _ else _) = _
        rw [if_neg fun h => hm.ne' (BigNat.bn_eq_nil_iff.mp h)]
  · rcases sign_cases j with ⟨n, rfl⟩ | ⟨n, hn, rfl⟩
    · -- the signs differ, and the divisor is positive
      have hn : 0 < n := by omega
      obtain ⟨hdiv, hmod⟩ := neg_div_mod hm hn
      rw [rep_natCast, rep_neg hm, Int.fdiv_eq_ediv_of_nonneg _ (by omega),
        Int.fmod_eq_emod_of_nonneg _ (by omega), hmod, ← posi_bn, ← divmod_signs hm hn]
      rfl
    · -- both are negative: the quotient is that of the digits
      rw [rep_neg hm, rep_neg hn, Int.neg_fdiv_neg, Int.neg_fmod_neg, fdiv_natCast, fmod_natCast,
        ← posi_bn, ← zneg_bn]
      show (BigNat.divmod (bn m) (bn n) >>= _) = _
      rw [BigNat.divmod_eq m hn]
      rfl

/-- **Division**, rounded towards zero. -/
theorem quotrem_eq (i : Int) {j : Int} (hj : j ≠ 0) :
    quotrem (rep i) (rep j) = .ok (rep (i.tdiv j), rep (i.tmod j)) := by
  have htdiv (m n : Nat) : Int.tdiv m n = ((m / n : Nat) : Int) :=
    Int.tdiv_eq_ediv_of_nonneg (Int.natCast_nonneg m)
  have htmod (m n : Nat) : Int.tmod m n = ((m % n : Nat) : Int) :=
    Int.tmod_eq_emod_of_nonneg (Int.natCast_nonneg m)
  -- the digits are divided, and the signs are set after that
  rcases sign_cases i with ⟨m, rfl⟩ | ⟨m, hm, rfl⟩
  · rcases sign_cases j with ⟨n, rfl⟩ | ⟨n, hn, rfl⟩
    · rw [htdiv, htmod, ← posi_bn (m / n), ← posi_bn (m % n), rep_natCast, rep_natCast, quotrem,
        BigNat.divmod_eq m (by omega)]
      rfl
    · rw [Int.tdiv_neg, Int.tmod_neg, htdiv, htmod, ← zneg_bn (m / n), ← posi_bn (m % n),
        rep_natCast, rep_neg hn, quotrem, BigNat.divmod_eq m hn]
      rfl
  · rcases sign_cases j with ⟨n, rfl⟩ | ⟨n, hn, rfl⟩
    · rw [Int.neg_tdiv, Int.neg_tmod, htdiv, htmod, ← zneg_bn (m / n), ← zneg_bn (m % n),
        rep_neg hm, rep_natCast, quotrem, BigNat.divmod_eq m (by omega)]
      rfl
    · rw [Int.neg_tdiv, Int.tdiv_neg, Int.neg_neg, Int.neg_tmod, Int.tmod_neg, htdiv, htmod,
        ← posi_bn (m / n), ← zneg_bn (m % n), rep_neg hm, rep_neg hn, quotrem,
        BigNat.divmod_eq m hn]
      rfl

/-- Both raise `Div` for the other divisor. -/
theorem divmod_zero (i : Int) : divmod (rep i) (rep 0) = .error .div := by
  have hdiv (m : Bignat) : BigNat.divmod m [] = .error .div := by rw [BigNat.divmod]
  rw [rep_zero]
  rcases sign_cases i with ⟨m, rfl⟩ | ⟨m, hm, rfl⟩
  · rw [rep_natCast]
    show (BigNat.divmod (bn m) [] >>= _) = _
    rw [hdiv]
    rfl
  · rw [rep_neg hm]
    show (BigNat.subtOne (bn m) >>= fun x => BigNat.divmod x [] >>= _) = _
    rw [BigNat.subtOne_eq hm, except_ok_bind, hdiv]
    rfl

/-- The sign does not matter here. -/
theorem quotrem_zero (i : Int) : quotrem (rep i) (rep 0) = .error .div := by
  have hdiv (m : Bignat) : BigNat.divmod m [] = .error .div := by rw [BigNat.divmod]
  rw [rep_zero, quotrem]
  show (BigNat.divmod (rep i).digits [] >>= _) = _
  rw [hdiv]
  rfl

/-- **Powers**. -/
theorem pow_eq (i : Int) (n : Nat) : pow (rep i) n = .ok (rep (i ^ n)) := by
  rcases Nat.eq_zero_or_pos n with rfl | hn
  · rw [Int.pow_zero, rep_one]
    rfl
  · rw [pow, if_neg (by omega), if_neg (by omega)]
    rcases sign_cases i with ⟨m, rfl⟩ | ⟨m, hm, rfl⟩
    · rw [rep_natCast]
      simp only
      rw [BigNat.exp_eq, ← Nat.cast_pow, except_ok_bind, posi_bn]
      rfl
    · rw [rep_neg hm]
      simp only
      rw [BigNat.exp_eq, except_ok_bind, except_ok_bind, posi_bn, zneg_bn]
      split_ifs with heven
      · rw [Even.neg_pow (Nat.even_iff.mpr (by omega)), ← Nat.cast_pow]
        rfl
      · rw [Odd.neg_pow (Nat.odd_iff.mpr (by omega)), ← Nat.cast_pow]
        rfl

/-! ## Conversions

`IntInf.toInt` and `IntInf.fromInt` go through `Int32`, as they are written, and raise `Overflow`
outside of it. -/

/-- No `Overflow` in the range of an `int32`. -/
theorem int32_ok {i : Int} (h : -2147483648 ≤ i) (h' : i ≤ 2147483647) : int32 i = .ok i :=
  if_pos ⟨h, h'⟩

/-- `Overflow` outside of it. -/
theorem int32_error {i : Int} (h : i < -2147483648 ∨ 2147483647 < i) :
    int32 i = .error .overflow :=
  if_neg (by omega)

/-- The digits of a word. -/
theorem wordDigits_eq (w : BitVec 32) : wordDigits w = bn w.toNat := by
  induction w using wordDigits.induct with
  | case1 =>
    rw [wordDigits, if_pos rfl]
    rfl
  | case2 w hw ih =>
    have hpos : 0 < w.toNat := Nat.pos_of_ne_zero fun h => hw (BitVec.eq_of_toNat_eq h)
    have hlow : (w &&& 0x3fffffff#32).toNat = w.toNat % 2 ^ 30 := by
      rw [BitVec.toNat_and]
      exact Nat.and_two_pow_sub_one_eq_mod w.toNat 30
    rw [wordDigits, if_neg hw, ih, BigNat.bn_pos hpos, hlow, BitVec.toNat_ushiftRight,
      Nat.shiftRight_eq_div_pow]

/-- One digit, or the digits of the word. -/
theorem natInfFromI32_eq {n : Nat} (h : n < 2 ^ 31) : natInfFromI32 n = bn n := by
  unfold natInfFromI32
  split_ifs with hzero hdigit
  · rw [show n = 0 by omega, BigNat.bn_zero]
  · rw [BigNat.maxDigit] at hdigit
    rw [BigNat.bn_digit (by omega) (by omega)]
  · rw [wordDigits_eq, BitVec.toNat_ofInt]
    congr 1
    omega

/-- Computed from the number before it, since it is no `int32` itself. -/
theorem bigNatMinNeg_eq : bigNatMinNeg = .ok (bn (2 ^ 31)) := by
  rw [bigNatMinNeg, show -(minNeg + 1) = ((2 ^ 31 - 1 : Nat) : Int) from rfl,
    natInfFromI32_eq (by decide), BigNat.addOne_eq, Nat.sub_add_cancel (by decide)]

/-- `IntInf.fromInt`: an `int32`, or `Overflow`. -/
theorem fromInt_eq (x : Int) :
    fromInt x = if -2 ^ 31 ≤ x ∧ x < 2 ^ 31 then .ok (rep x) else .error .overflow := by
  unfold fromInt
  split_ifs with hrange
  · rw [int32_ok (by omega) (by omega), except_ok_bind, i32ToIntInf]
    split_ifs with hzero hneg hmin
    · rw [hzero, rep_zero]
    · -- the smallest `int32`
      rw [bigNatMinNeg_eq, except_ok_bind, negi_bn (by decide), hmin]
      rfl
    · -- the other negative numbers
      obtain ⟨n, rfl⟩ : ∃ n : Nat, x = -n := ⟨x.natAbs, by omega⟩
      rw [minNeg] at hmin
      rw [Int.neg_neg, natInfFromI32_eq (by omega), rep_neg (by omega)]
    · obtain ⟨n, rfl⟩ := Int.eq_ofNat_of_zero_le (show 0 ≤ x by omega)
      rw [natInfFromI32_eq (by omega), rep_natCast]
  · rw [int32_error (by omega)]
    rfl

/-! ## The integers -/

/-- **The ring of integers**: on the values that stand for integers, the operations return
those that stand for the results, whatever their size, and none raises. -/
theorem ring_exact (i j : Int) (n : Nat) :
    (rep i = rep j ↔ i = j) ∧ plus (rep i) (rep j) = .ok (rep (i + j)) ∧
      minus (rep i) (rep j) = .ok (rep (i - j)) ∧ mul (rep i) (rep j) = .ok (rep (i * j)) ∧
      pow (rep i) n = .ok (rep (i ^ n)) ∧ neg (rep i) = rep (-i) ∧
      abs (rep i) = rep i.natAbs ∧ compare (rep i) (rep j) = Ord.compare i j :=
  ⟨rep_injective.eq_iff, plus_eq i j, minus_eq i j, mul_eq i j, pow_eq i n, neg_eq i, abs_eq i,
    compare_eq i j⟩

/-- **Division**: quotient and remainder, rounded either way, of any two integers; only a zero
divisor raises. -/
theorem division_exact (i j : Int) :
    divmod (rep i) (rep j) =
        (if j = 0 then .error .div else .ok (rep (i.fdiv j), rep (i.fmod j))) ∧
      quotrem (rep i) (rep j) =
        (if j = 0 then .error .div else .ok (rep (i.tdiv j), rep (i.tmod j))) := by
  split_ifs with hzero
  · rw [hzero]
    exact ⟨divmod_zero i, quotrem_zero i⟩
  · exact ⟨divmod_eq i hzero, quotrem_eq i hzero⟩

end IntInf

end Unikernel
