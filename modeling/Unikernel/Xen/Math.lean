import Mathlib.Data.Rat.Floor
import Mathlib.Tactic.Linarith
import Unikernel.Sml.Text

/-!
# Real numbers as text on Xen

`stringOfFloat` of `XenRuntimeMini/src/RuntimeMini/Math.c`. mini-OS has no `%f`,
so a number is printed as two integers with a point between them: the greatest
integer below it, and the ten-millionths above that integer.

Neither half knows of the other. The second is printed without its leading
zeros, so that it is too large unless there are none; and below zero it is
counted upwards from the first, but read downwards. `stringOfFloat_near_iff`
says which numbers come out right all the same.

A `double` is taken as the rational that it denotes, and the arithmetic on it as
exact.
-/

namespace Unikernel.Xen

open Sml BigEndian

/-! ## Printing -/

/-- The conversion of a `double` to `int`, towards zero. It is undefined when the
result is no `int`. -/
def toInt (x : ℚ) : Option Int :=
  let i := if 0 ≤ x then ⌊x⌋ else ⌈x⌉
  if -(2 ^ 31) ≤ i ∧ i < 2 ^ 31 then some i else none

/-- `%d`. -/
def printInt (i : Int) : Str :=
  (if i < 0 then lit "-" else []) ++ (digits 10 i.natAbs).map prhex

/-- `snprintf`: what does not fit in front of the final zero is left out. -/
def snprintf (size : Nat) (s : Str) : Str := s.take (size - 1)

def countChar (c : UInt8) (s : Str) : Nat := s.count c

/-- Remove all `+`, and replace `-` and `e` with `~` and `E`. -/
def mkSMLMinus : Str → Str
  | [] => []
  | c :: p =>
    -- `+`, `-` and `e`
    if c = 43 then mkSMLMinus p
    else if c = 45 then 126 :: mkSMLMinus p
    else if c = 101 then 69 :: mkSMLMinus p
    else c :: mkSMLMinus p

def stringOfFloat (d : ℚ) : Option Str := do
  let whole ← toInt ⌊d⌋
  -- an `int` like any other to `%d`, without the zeros in front of it
  let part ← toInt ((d - ⌊d⌋) * 10000000)
  let buf := mkSMLMinus (snprintf 64 (printInt whole ++ lit "." ++ printInt part))
  -- protect for nan and inf
  let buf :=
    if countChar 46 buf = 0 ∧ countChar 69 buf = 0 ∧ countChar 110 buf = 0 then buf ++ lit ".0"
    else buf
  if buf = lit "~nan" then return lit "nan" else return buf

/-! ## Reading -/

/-- The number that a sequence of digits writes. -/
def numValue (s : Str) : Nat := value 10 (s.map fun c => (hexval c).toNat)

/-- The value of a real constant without sign: digits, a point, digits. -/
def unsignedValue (s : Str) : Option ℚ :=
  match s.dropWhile isDigit with
  | [] => none
  | c :: frac =>
    if c = 46 ∧ s.takeWhile isDigit ≠ [] ∧ frac ≠ [] ∧ frac.all isDigit then
      some (numValue (s.takeWhile isDigit) + numValue frac / 10 ^ frac.length)
    else none

/-- The value of a real constant of Standard ML with a fraction and no exponent,
which is the only form that is printed. -/
def realValue : Str → Option ℚ
  | [] => none
  | c :: rest => if c = 126 then (unsignedValue rest).map (-·) else unsignedValue (c :: rest)

/-- What is printed for `d` denotes a number within a ten-millionth of `d`. -/
def PrintsNear (d : ℚ) : Prop :=
  ∃ s x, stringOfFloat d = some s ∧ realValue s = some x ∧ |x - d| ≤ 1 / 10 ^ 7

/-! ## What is printed -/

theorem mkSMLMinus_append (s t : Str) : mkSMLMinus (s ++ t) = mkSMLMinus s ++ mkSMLMinus t := by
  induction s with
  | nil => rfl
  | cons c s ih =>
    rw [List.cons_append, mkSMLMinus, mkSMLMinus, ih]
    split_ifs <;> rfl

theorem mkSMLMinus_digits {ds : List Nat} (h : ∀ d ∈ ds, d < 10) :
    mkSMLMinus (ds.map prhex) = ds.map prhex := by
  induction ds with
  | nil => rfl
  | cons d ds ih =>
    have hd : d < 10 := h d List.mem_cons_self
    rw [List.map_cons, mkSMLMinus, ih fun d h' => h d (List.mem_cons_of_mem _ h'),
      if_neg (prhex_ne hd (by decide)), if_neg (prhex_ne hd (by decide)),
      if_neg (prhex_ne hd (by decide))]

/-- An `int` of C comes out as `Int.toString` would write it. -/
theorem mkSMLMinus_printInt (i : Int) : mkSMLMinus (printInt i) = intToText i := by
  rw [printInt, mkSMLMinus_append, mkSMLMinus_digits fun d => lt_ten_of_mem_digits,
    intToText_eq, tostr_eq, signOf]
  by_cases hneg : i < 0
  · rw [if_pos hneg, if_pos hneg]
    rfl
  · rw [if_neg hneg, if_neg hneg]
    rfl

theorem length_printInt_le {i : Int} {k : Nat} (hk : 0 < k) (h : i.natAbs < 10 ^ k) :
    (printInt i).length ≤ k + 1 := by
  have hsign : (if i < 0 then lit "-" else []).length ≤ 1 := by split_ifs <;> decide
  have hdigits := length_decimal_le hk h
  rw [printInt, List.length_append, List.length_map]
  omega

/-- The ten-millionths of `d` above the integer below it. -/
def tenMillionths (d : ℚ) : Nat := ⌊Int.fract d * 10 ^ 7⌋₊

theorem tenMillionths_lt (d : ℚ) : tenMillionths d < 10 ^ 7 := by
  have hlt : Int.fract d < 1 := Int.fract_lt_one d
  have hnonneg : 0 ≤ Int.fract d := Int.fract_nonneg d
  rw [tenMillionths, Nat.floor_lt (by linarith)]
  push_cast
  linarith

theorem toInt_floor {d : ℚ} (h : |⌊d⌋| < 2 ^ 31) : toInt ⌊d⌋ = some ⌊d⌋ := by
  have habs := abs_lt.mp h
  rw [toInt]
  simp only [Int.floor_intCast, Int.ceil_intCast, ite_self]
  exact if_pos ⟨by omega, by omega⟩

theorem toInt_fract (d : ℚ) : toInt ((d - ⌊d⌋) * 10000000) = some (tenMillionths d : Int) := by
  have hnonneg : 0 ≤ Int.fract d * 10 ^ 7 := mul_nonneg (Int.fract_nonneg d) (by norm_num)
  have hfloor : ⌊Int.fract d * 10 ^ 7⌋ = (tenMillionths d : Int) :=
    (Int.natCast_floor_eq_floor hnonneg).symm
  have hlt := tenMillionths_lt d
  have hten : (d - ⌊d⌋) * 10000000 = Int.fract d * 10 ^ 7 := by
    rw [Int.self_sub_floor]
    norm_num
  rw [hten, toInt, if_pos hnonneg, hfloor]
  exact if_pos ⟨by omega, by omega⟩

/-- The room of the buffer is never needed in full. -/
theorem snprintf_whole {i : Int} {n : Nat} (hi : |i| < 2 ^ 31) (hn : n < 10 ^ 7) :
    snprintf 64 (printInt i ++ lit "." ++ printInt n) = printInt i ++ lit "." ++ printInt n := by
  have hrange := abs_lt.mp hi
  have hwhole := length_printInt_le (i := i) (k := 10) Nat.ofNat_pos (by omega)
  have hpart := length_printInt_le (i := n) (k := 7) Nat.ofNat_pos (by omega)
  have hpoint : (lit ".").length = 1 := rfl
  rw [snprintf]
  apply List.take_of_length_le
  rw [List.length_append, List.length_append]
  omega

theorem stringOfFloat_eq {d : ℚ} (h : |⌊d⌋| < 2 ^ 31) :
    stringOfFloat d = some (intToText ⌊d⌋ ++ lit "." ++ tostr (tenMillionths d)) := by
  -- there is a point, so that nothing is appended and the text is not `~nan`
  have hpoint : countChar 46 (intToText ⌊d⌋ ++ lit "." ++ tostr (tenMillionths d)) ≠ 0 := by
    rw [countChar, List.count_append, List.count_append]
    have : List.count 46 (lit ".") = 1 := rfl
    omega
  have htext : mkSMLMinus (snprintf 64 (printInt ⌊d⌋ ++ lit "." ++ printInt (tenMillionths d))) =
      intToText ⌊d⌋ ++ lit "." ++ tostr (tenMillionths d) := by
    rw [snprintf_whole h (tenMillionths_lt d), mkSMLMinus_append, mkSMLMinus_append,
      mkSMLMinus_printInt, mkSMLMinus_printInt, intToText_eq (tenMillionths d : Int), signOf,
      if_neg (by omega)]
    rfl
  have hnan : intToText ⌊d⌋ ++ lit "." ++ tostr (tenMillionths d) ≠ lit "~nan" := by
    intro heq
    rw [heq] at hpoint
    exact hpoint rfl
  rw [stringOfFloat, toInt_floor h, Option.bind_eq_bind, Option.bind_some, toInt_fract,
    Option.bind_some]
  simp only [htext, hpoint, false_and, if_false, hnan]
  rfl

/-! ## How it is read -/

theorem numValue_tostr (n : Nat) : numValue (tostr n) = n := by
  have hback : (tostr n).map (fun c => (hexval c).toNat) = digits 10 n := by
    have hdigit : ∀ d ∈ digits 10 n, (hexval (prhex d)).toNat = d := by
      intro d hd
      rw [hexval_prhex (lt_ten_of_mem_digits hd), Int.toNat_natCast]
    rw [tostr_eq, List.map_map]
    exact (List.map_congr_left hdigit).trans (List.map_id' _)
  rw [numValue, hback, value_digits]

/-- The value of the digits of `n`, behind a point. -/
def fraction (n : Nat) : ℚ := n / 10 ^ (digits 10 n).length

theorem unsignedValue_text (m n : Nat) :
    unsignedValue (tostr m ++ lit "." ++ tostr n) = some (m + fraction n) := by
  have htext : tostr m ++ lit "." ++ tostr n = tostr m ++ 46 :: tostr n := by
    rw [List.append_assoc]
    rfl
  have hdigits : ∀ c ∈ tostr m, isDigit c = true := fun c => isDigit_tostr
  have hpoint : isDigit 46 = false := rfl
  -- the point is the first character that is no digit
  have htake : (tostr m ++ 46 :: tostr n).takeWhile isDigit = tostr m := by
    rw [List.takeWhile_append_of_pos hdigits, List.takeWhile_cons, hpoint]
    exact List.append_nil _
  have hdrop : (tostr m ++ 46 :: tostr n).dropWhile isDigit = 46 :: tostr n := by
    rw [List.dropWhile_append_of_pos hdigits, List.dropWhile_cons, hpoint]
    rfl
  have hall : (tostr n).all isDigit = true := List.all_eq_true.mpr fun c => isDigit_tostr
  have hlen : (tostr n).length = (digits 10 n).length := by rw [tostr_eq, List.length_map]
  rw [htext, unsignedValue, hdrop, htake]
  show (if _ then _ else _) = _
  rw [if_pos ⟨rfl, tostr_ne_nil m, tostr_ne_nil n, hall⟩, numValue_tostr, numValue_tostr, hlen,
    fraction]

/-- Below zero the fraction goes down with the integer. -/
def printed (d : ℚ) : ℚ :=
  if d < 0 then ⌊d⌋ - fraction (tenMillionths d) else ⌊d⌋ + fraction (tenMillionths d)

theorem realValue_text (d : ℚ) :
    realValue (intToText ⌊d⌋ ++ lit "." ++ tostr (tenMillionths d)) = some (printed d) := by
  have hneg : ⌊d⌋ < 0 ↔ d < 0 := Int.floor_lt_zero
  rw [intToText_eq, signOf, printed]
  by_cases hd : d < 0
  · have habs : (⌊d⌋.natAbs : ℚ) = -⌊d⌋ := by
      rw [Nat.cast_natAbs, abs_of_neg (hneg.mpr hd), Int.cast_neg]
    rw [if_pos (hneg.mpr hd), if_pos hd]
    show realValue (126 :: (tostr _ ++ lit "." ++ tostr _)) = _
    rw [realValue, if_pos rfl, unsignedValue_text, habs, Option.map_some]
    congr 1
    linarith
  · have habs : (⌊d⌋.natAbs : ℚ) = ⌊d⌋ := by
      rw [Nat.cast_natAbs, abs_of_nonneg (not_lt.mp (mt hneg.mp hd))]
    obtain ⟨c, rest, hcons⟩ := List.exists_cons_of_ne_nil (tostr_ne_nil ⌊d⌋.natAbs)
    have hc : c ≠ 126 := by
      rintro rfl
      have hdigit : isDigit 126 = true := isDigit_tostr (n := ⌊d⌋.natAbs) (by simp [hcons])
      exact Bool.noConfusion hdigit
    have hvalue := unsignedValue_text ⌊d⌋.natAbs (tenMillionths d)
    rw [habs] at hvalue
    rw [if_neg (mt hneg.mp hd), if_neg hd, List.nil_append, ← hvalue, hcons]
    exact if_neg hc

theorem printsNear_iff_printed {d : ℚ} (h : |⌊d⌋| < 2 ^ 31) :
    PrintsNear d ↔ |printed d - d| ≤ 1 / 10 ^ 7 := by
  constructor
  · rintro ⟨s, x, hs, hx, hnear⟩
    rw [stringOfFloat_eq h, Option.some.injEq] at hs
    rw [← hs, realValue_text, Option.some.injEq] at hx
    rwa [hx]
  · intro hnear
    exact ⟨_, _, stringOfFloat_eq h, realValue_text d, hnear⟩

/-! ## How near it is -/

theorem fraction_zero : fraction 0 = 0 := by
  rw [fraction, Nat.cast_zero, zero_div]

theorem fraction_pos {n : Nat} (h : 0 < n) : 0 < fraction n := by
  rw [fraction]
  positivity

/-- Without a leading zero the seven digits are the ten-millionths. -/
theorem fraction_of_le {n : Nat} (h : 10 ^ 6 ≤ n) (hlt : n < 10 ^ 7) :
    fraction n = n / 10 ^ 7 := by
  have hmost := length_decimal_le (Nat.succ_pos _) hlt
  have hleast : 10 ^ 6 < 10 ^ (digits 10 n).length := h.trans_lt (lt_pow_length Nat.one_lt_ofNat)
  have hlen := (Nat.pow_lt_pow_iff_right Nat.one_lt_ofNat).mp hleast
  rw [fraction, show (digits 10 n).length = 7 by omega]

/-- With one, they are taken for ten times as much at least. -/
theorem le_fraction_of_lt {n : Nat} (h : n < 10 ^ 6) : 10 * (n / 10 ^ 7 : ℚ) ≤ fraction n := by
  have hlen := length_decimal_le (Nat.succ_pos _) h
  have hpow : (10 : ℚ) ^ (digits 10 n).length ≤ 10 ^ 6 :=
    pow_le_pow_right₀ (by norm_num) hlen
  have hdiv : (n : ℚ) / 10 ^ 6 ≤ fraction n := by
    rw [fraction]
    gcongr
  linarith

section Bounds

variable (d : ℚ)

theorem tenMillionths_le : (tenMillionths d : ℚ) / 10 ^ 7 ≤ Int.fract d := by
  have hnonneg : 0 ≤ Int.fract d * 10 ^ 7 := mul_nonneg (Int.fract_nonneg d) (by norm_num)
  have hle : (tenMillionths d : ℚ) ≤ Int.fract d * 10 ^ 7 := Nat.floor_le hnonneg
  linarith

theorem fract_lt : Int.fract d < tenMillionths d / 10 ^ 7 + 1 / 10 ^ 7 := by
  have hlt : Int.fract d * 10 ^ 7 < tenMillionths d + 1 := Nat.lt_floor_add_one _
  linarith

theorem tenMillionths_eq_zero : tenMillionths d = 0 ↔ Int.fract d < 1 / 10 ^ 7 := by
  rw [tenMillionths, Nat.floor_eq_zero]
  constructor
  · intro h
    linarith
  · intro h
    linarith

theorem le_tenMillionths : 10 ^ 6 ≤ tenMillionths d ↔ 1 / 10 ≤ Int.fract d := by
  rw [tenMillionths, Nat.le_floor_iff (mul_nonneg (Int.fract_nonneg d) (by norm_num))]
  push_cast
  constructor
  · intro h
    linarith
  · intro h
    linarith

end Bounds

section Nearness

variable {d : ℚ}

theorem printed_sub_of_neg (h : d < 0) :
    printed d - d = -(fraction (tenMillionths d) + Int.fract d) := by
  have hsplit : (⌊d⌋ : ℚ) + Int.fract d = d := Int.floor_add_fract d
  rw [printed, if_pos h]
  linarith

theorem printed_sub_of_nonneg (h : 0 ≤ d) :
    printed d - d = fraction (tenMillionths d) - Int.fract d := by
  have hsplit : (⌊d⌋ : ℚ) + Int.fract d = d := Int.floor_add_fract d
  rw [printed, if_neg (not_lt.mpr h)]
  linarith

/-- Where there is nothing to print behind the point, no more than that is lost. -/
theorem printed_near_of_zero (h : tenMillionths d = 0) : |printed d - d| ≤ 1 / 10 ^ 7 := by
  have hnonneg : 0 ≤ Int.fract d := Int.fract_nonneg d
  have hsmall : Int.fract d < 1 / 10 ^ 7 := (tenMillionths_eq_zero d).mp h
  have hsub : printed d - d = -Int.fract d := by
    rcases lt_or_ge d 0 with hneg | hneg
    · rw [printed_sub_of_neg hneg, h, fraction_zero, zero_add]
    · rw [printed_sub_of_nonneg hneg, h, fraction_zero, zero_sub]
  rw [hsub, abs_neg, abs_of_nonneg hnonneg]
  exact hsmall.le

/-- Below zero, the fraction is taken off where it should be added. -/
theorem printed_far_of_neg (h : d < 0) (hpos : 0 < tenMillionths d) :
    1 / 10 ^ 7 < |printed d - d| := by
  have hlarge : 1 / 10 ^ 7 ≤ Int.fract d :=
    not_lt.mp (mt (tenMillionths_eq_zero d).mpr hpos.ne')
  have hfraction : 0 < fraction (tenMillionths d) := fraction_pos hpos
  rw [printed_sub_of_neg h, abs_neg, abs_of_pos (by linarith)]
  linarith

/-- From zero on, all depends on the first digit behind the point. -/
theorem printed_near_iff_of_nonneg (h : 0 ≤ d) (hpos : 0 < tenMillionths d) :
    |printed d - d| ≤ 1 / 10 ^ 7 ↔ 10 ^ 6 ≤ tenMillionths d := by
  have hle := tenMillionths_le d
  have hlt := fract_lt d
  rw [printed_sub_of_nonneg h]
  rcases le_or_gt (10 ^ 6) (tenMillionths d) with hsix | hsix
  · rw [fraction_of_le hsix (tenMillionths_lt d), abs_le]
    exact ⟨fun _ => hsix, fun _ => ⟨by linarith, by linarith⟩⟩
  · -- nine times as much as there is, or more, is printed in excess
    have hone : (1 : ℚ) ≤ tenMillionths d := by exact_mod_cast hpos
    have hten := le_fraction_of_lt hsix
    constructor
    · intro hnear
      have := (abs_le.mp hnear).2
      linarith
    · intro hsix'
      omega

end Nearness

/-- A number with an `int` below it is printed to within a ten-millionth if and only
if it lies that little above an integer, or is not negative and its fraction has no
zero behind the point. -/
theorem stringOfFloat_near_iff (d : ℚ) (h : |⌊d⌋| < 2 ^ 31) :
    PrintsNear d ↔ Int.fract d < 1 / 10 ^ 7 ∨ 0 ≤ d ∧ 1 / 10 ≤ Int.fract d := by
  rw [printsNear_iff_printed h, ← tenMillionths_eq_zero, ← le_tenMillionths]
  rcases Nat.eq_zero_or_pos (tenMillionths d) with hzero | hpos
  · exact ⟨fun _ => .inl hzero, fun _ => printed_near_of_zero hzero⟩
  rcases lt_or_ge d 0 with hneg | hneg
  · have hfar := printed_far_of_neg hneg hpos
    constructor
    · intro hnear
      exact absurd hnear (not_le.mpr hfar)
    · rintro (hzero | ⟨hnonneg, -⟩)
      · omega
      · exact absurd hnonneg (not_le.mpr hneg)
  · rw [printed_near_iff_of_nonneg hneg hpos]
    constructor
    · intro hsix
      exact .inr ⟨hneg, hsix⟩
    · rintro (hzero | ⟨-, hsix⟩)
      · omega
      · exact hsix

theorem stringOfFloat_near_iff_pi :
    |⌊(25 / 8 : ℚ)⌋| < 2 ^ 31 ∧
      (PrintsNear (25 / 8) ↔
        Int.fract (25 / 8 : ℚ) < 1 / 10 ^ 7 ∨ (0 : ℚ) ≤ 25 / 8 ∧ 1 / 10 ≤ Int.fract (25 / 8 : ℚ)) :=
  ⟨by decide +kernel, stringOfFloat_near_iff (25 / 8) (by decide +kernel)⟩

/-- A sixteenth is printed as five eighths, and minus a half as minus three halves. -/
theorem sixteenth_far :
    (|⌊(1 / 16 : ℚ)⌋| < 2 ^ 31 ∧ stringOfFloat (1 / 16) = some (lit "0.625000") ∧
      realValue (lit "0.625000") = some (5 / 8) ∧ ¬ PrintsNear (1 / 16)) ∧
    |⌊(-1 / 2 : ℚ)⌋| < 2 ^ 31 ∧ stringOfFloat (-1 / 2) = some (lit "~1.5000000") ∧
      realValue (lit "~1.5000000") = some (-3 / 2) ∧ ¬ PrintsNear (-1 / 2) := by
  have hsixteenth : stringOfFloat (1 / 16) = some (lit "0.625000") := by decide +kernel
  have hhalf : stringOfFloat (-1 / 2) = some (lit "~1.5000000") := by decide +kernel
  have hfive : realValue (lit "0.625000") = some (5 / 8) := by decide +kernel
  have hthree : realValue (lit "~1.5000000") = some (-3 / 2) := by decide +kernel
  refine ⟨⟨by decide +kernel, hsixteenth, hfive, ?_⟩, by decide +kernel, hhalf, hthree, ?_⟩
  · rintro ⟨s, x, hs, hx, hnear⟩
    rw [hsixteenth, Option.some.injEq] at hs
    rw [← hs, hfive, Option.some.injEq] at hx
    rw [← hx] at hnear
    norm_num at hnear
  · rintro ⟨s, x, hs, hx, hnear⟩
    rw [hhalf, Option.some.injEq] at hs
    rw [← hs, hthree, Option.some.injEq] at hx
    rw [← hx] at hnear
    norm_num at hnear

end Unikernel.Xen
