import Mathlib.Data.Int.DivMod
import Unikernel.Sml.Basis

/-!
# Naturals of any size

The structure `BN` of `basis/IntInfRep.sml`, of which `BigNat` in `basis/IntInf.sml` is a
copy. A `bignat` is a list of digits in base `2 ^ 30`, the least significant first. A digit
is an `int31`, whose operations raise `Overflow`; the words in between are 31 bits wide.

The additions start at `nbase`, which is the base taken negative: the sum of two digits is
no `int31`, but what is left of it after the base is.
-/

namespace Unikernel.BigNat

/-! ## Machine integers and words -/

/-- The value of an `int31` operation, or `Overflow`. -/
def int31 (i : Int) : Except Exn Int :=
  if -1073741824 ≤ i ∧ i ≤ 1073741823 then .ok i else .error .overflow

/-- `Int31.quot`. -/
def quot31 (x y : Int) : Except Exn Int := if y = 0 then .error .div else int31 (x.tdiv y)

/-- `Int31.rem`. -/
def rem31 (x y : Int) : Except Exn Int := if y = 0 then .error .div else int31 (x.tmod y)

/-- `Int31.div`. -/
def div31 (x y : Int) : Except Exn Int := if y = 0 then .error .div else int31 (x.fdiv y)

/-- `Word31.fromInt o Int31.toInt`. -/
def itow (i : Int) : BitVec 31 := BitVec.ofInt 31 i

/-- `Int31.fromInt o Word31.toIntX`: the word with its sign. -/
def wtoi (w : BitVec 31) : Int := w.toInt

/-! ## Digits -/

/-- The digits, the least significant first and without zeros at the end. -/
abbrev Bignat := List Int

/-- The base taken negative, which is an `int31` while the base is none. -/
def nbase : Int := -1073741824

def maxDigit : Int := 1073741823

/-- Half of the bits of a digit. -/
def lgHBase : Nat := 15

def hbase : BitVec 31 := 1 <<< lgHBase

def hmask : BitVec 31 := hbase - 1

/-- The two halves of a digit, the upper one with its sign. -/
def hl (i : Int) : Int × Int :=
  (wtoi ((itow i).sshiftRight lgHBase), wtoi (itow i &&& hmask))

/-- Half a digit moved to the upper half. -/
def sh (i : Int) : Int := wtoi (itow i <<< lgHBase)

/-- A digit in front of others, unless that is a zero in front of nothing. -/
def consd (d : Int) (r : Bignat) : Bignat := if d = 0 ∧ r = [] then [] else d :: r

def quotrem (i j : Int) : Except Exn (Int × Int) := do
  return (← quot31 i j, ← rem31 i j)

/-- The factor that brings the leading bit of a digit to the top, without computing the base. -/
def scale (i : Int) : Except Exn Int :=
  if i = maxDigit then .ok 1 else do div31 nbase (← int31 (-(← int31 (i + 1))))

/-! ## Addition and subtraction -/

/-- Where the carry ends, the rest of the digits is taken over as it is. -/
def addOne : Bignat → Except Exn Bignat
  | [] => .ok [1]
  | m :: rm => do
    let c ← int31 (nbase + m)
    let c ← int31 (c + 1)
    if c < 0 then return (← int31 (c - nbase)) :: rm
    else return c :: (← addOne rm)

mutual

/-- `addd` is the digit that comes next, and `addc` the addition with a carry. -/
def add : Bignat → Bignat → Except Exn Bignat
  | [], digits => .ok digits
  | digits, [] => .ok digits
  | dm :: rm, dn :: rn => do
    let s ← int31 (nbase + dm)
    let s ← int31 (s + dn)
    addd s rm rn
termination_by m n => 2 * (m.length + n.length)

def addd (s : Int) (m n : Bignat) : Except Exn Bignat := do
  if s < 0 then return (← int31 (s - nbase)) :: (← add m n)
  else return s :: (← addc m n)
termination_by 2 * (m.length + n.length) + 1

def addc : Bignat → Bignat → Except Exn Bignat
  | m, [] => addOne m
  | [], n => addOne n
  | dm :: rm, dn :: rn => do
    let s ← int31 (nbase + dm)
    let s ← int31 (s + dn)
    let s ← int31 (s + 1)
    addd s rm rn
termination_by m n => 2 * (m.length + n.length)

end

/-- The last digit is dropped when it becomes zero. -/
def subtOne : Bignat → Except Exn Bignat
  | 0 :: mr => do return maxDigit :: (← subtOne mr)
  | [1] => .ok []
  | n :: mr => do return (← int31 (n - 1)) :: mr
  | [] => .error .subtOne

mutual

/-- `subd` is the digit that comes next, and `subb` the subtraction with a borrow. -/
def subt : Bignat → Bignat → Except Exn Bignat
  | m, [] => .ok m
  | [], _ => .error .negative
  | dm :: rm, dn :: rn => do subd (← int31 (dm - dn)) rm rn
termination_by m n => 2 * (m.length + n.length)

def subb : Bignat → Bignat → Except Exn Bignat
  | [], _ => .error .negative
  | dm :: rm, [] => do subd (← int31 (dm - 1)) rm []
  | dm :: rm, dn :: rn => do
    let d ← int31 (dm - dn)
    subd (← int31 (d - 1)) rm rn
termination_by m n => 2 * (m.length + n.length)

def subd (d : Int) (m n : Bignat) : Except Exn Bignat := do
  if d ≥ 0 then return consd d (← subt m n)
  else return consd (← int31 (d - nbase)) (← subb m n)
termination_by 2 * (m.length + n.length) + 1

end

/-! ## Multiplication -/

/-- Two digits, with three multiplications of halves. -/
def mul2 (m n : Int) : Except Exn (Int × Int) := do
  let (mh, ml) := hl m
  let (nh, nl) := hl n
  let x ← int31 (mh * nh)
  -- `x - y + z` is `mh * nl + ml * nh`
  let y ← int31 ((← int31 (mh - ml)) * (← int31 (nh - nl)))
  let z ← int31 (ml * nl)
  let (zh, zl) := hl z
  let u ← int31 (nbase + x)
  let u ← int31 (u + z)
  let u ← int31 (u - y)
  let (uh, ul) := hl (← int31 (u + zh))
  let h ← int31 (x + uh)
  return (← int31 (h + wtoi hbase), ← int31 (sh ul + zl))

/-- `muldc` in `muld`. -/
def muldc (i : Int) : Bignat → Int → Except Exn Bignat
  | [], c => if c = 0 then .ok [] else .ok [c]
  | d :: r, c => do
    let (h, l) ← mul2 d i
    let l1 ← int31 (l + nbase)
    let l1 ← int31 (l1 + c)
    if l1 ≥ 0 then return l1 :: (← muldc i r (← int31 (h + 1)))
    else return (← int31 (l1 - nbase)) :: (← muldc i r h)

/-- By a digit. -/
def muld (m : Bignat) (i : Int) : Except Exn Bignat :=
  if i = 0 then .ok [] else if i = 1 then .ok m else muldc i m 0

/-- `muln` in `mult`. -/
def muln : Bignat → Bignat → Except Exn Bignat
  | [], _ => .ok []
  | d :: r, n => do add (← muld n d) (consd 0 (← muln r n))

/-- Zeros at the end of a factor, and factors of one digit, are cases of their own. -/
def mult (m : Bignat) : Bignat → Except Exn Bignat
  | [] => .ok []
  | [d] => muld m d
  | 0 :: r => do return consd 0 (← mult m r)
  | n => muln m n

/-! ## Division -/

theorem int31_eq_ok {i j : Int} (h : int31 i = .ok j) : i = j ∧ -1073741824 ≤ i := by
  unfold int31 at h
  split at h
  · next hi =>
    cases h
    exact ⟨rfl, hi.1⟩
  · cases h

/-- `adj` in `divmod2`: the quotient is lowered until there is a remainder. -/
def adj (i q r : Int) : Except Exn (Int × Int) :=
  if r < 0 then
    match _h : int31 (q - 1) with
    | .ok q' => do adj i q' (← int31 (r + i))
    | .error e => .error e
  else .ok (q, r)
termination_by (q + 1073741824).toNat
decreasing_by
  obtain ⟨rfl, hlow⟩ := int31_eq_ok _h
  omega

/-- Two digits by one, of which the halves are taken one after the other. -/
def divmod2 (u v i : Int) : Except Exn (Int × Int) := do
  let (vh, vl) := hl v
  let (ih, il) := hl i
  let (q1, r1) ← quotrem u ih
  let t ← int31 (sh r1 + vh)
  let (q1, r1) ← adj i q1 (← int31 (t - (← int31 (q1 * il))))
  let (q0, r0) ← quotrem r1 ih
  let t ← int31 (sh r0 + vl)
  let (q0, r0) ← adj i q0 (← int31 (t - (← int31 (q0 * il))))
  return (← int31 (sh q1 + q0), r0)

/-- `dmi` in `divmodd`. -/
def dmi (i' : Int) : Bignat → Except Exn (Bignat × Int)
  | [] => .ok ([], 0)
  | d :: r => do
    let (qt, rm) ← dmi i' r
    let (q1, r1) ← divmod2 rm d i'
    return (consd q1 qt, r1)

/-- Division by a digit. -/
def divmodd (m : Bignat) (i : Int) : Except Exn (Bignat × Int) :=
  if i = 1 then .ok (m, 0)
  else do
    let scale ← scale i
    let i' ← int31 (i * scale)
    let m' ← muld m scale
    let (q, r) ← dmi i' m'
    if scale = 0 then .error .divmodd else return (q, ← div31 r scale)

/-- `List.nth`. -/
def nth (xs : Bignat) (n : Int) : Except Exn Int :=
  if n < 0 then .error .subscript
  else match xs[n.toNat]? with
    | some x => .ok x
    | none => .error .subscript

/-- `msds` in `divmod`: the digits at `i` and below it. -/
def msds : Bignat → Int → Int × Int
  | [], _ => (0, 0)
  | [d], 1 => (0, d)
  | [d2, d1], 1 => (d1, d2)
  | _ :: r, i => msds r (i - 1)

/-- `try` in `divmod`: a quotient digit that is too large is lowered, with its product. -/
def tryq (m n' : Bignat) (q : Int) (qn' : Bignat) : Except Exn (Int × Bignat) :=
  match subt m qn' with
  | .ok rr => .ok (q, rr)
  | .error .negative =>
    match _h : int31 (q - 1) with
    | .ok q' => do tryq m n' q' (← subt qn' n')
    | .error e => .error e
  | .error e => .error e
termination_by (q + 1073741824).toNat
decreasing_by
  obtain ⟨rfl, hlow⟩ := int31_eq_ok _h
  omega

/-- `tq` in `divmod`: the quotient digit as the leading digits have it. -/
def estimate (m1 m2 n1 : Int) : Except Exn Int :=
  if m1 = n1 then .ok maxDigit else Prod.fst <$> divmod2 m1 m2 n1

/-- `divl` in `divmod`. -/
def divl (ln : Int) (n' : Bignat) (n1 : Int) : Bignat → Except Exn (Bignat × Bignat)
  | [] => .ok ([], [])
  | d :: r => do
    let (qt, rm) ← divl ln n' n1 r
    let m := consd d rm
    let (m1, m2) := msds m ln
    let tq ← estimate m1 m2 n1
    let (q, rr) ← tryq m n' tq (← muld n' tq)
    return (consd q qt, rr)

/-- Long division, with digits that are estimated from the leading ones. -/
def divmod : Bignat → Bignat → Except Exn (Bignat × Bignat)
  | _, [] => .error .div
  | [], _ => .ok ([], [])
  | d :: r, 0 :: s => do
    let (qt, rm) ← divmod r s
    return (qt, consd d rm)
  | m, [d] => do
    let (qt, rm) ← divmodd m d
    return (qt, if rm = 0 then [] else [rm])
  | m, n => do
    let ln : Int := n.length
    let scale ← scale (← nth n (ln - 1))
    let m' ← muld m scale
    let n' ← muld n scale
    let n1 ← nth n' (ln - 1)
    let (qt, rm') ← divl ln n' n1 m'
    let (rm, _) ← divmodd rm' scale
    return (qt, rm)

/-! ## Comparison and powers -/

/-- The digits above decide first. -/
def cmp : Bignat → Bignat → Ordering
  | [], [] => .eq
  | _ :: _, [] => .gt
  | [], _ :: _ => .lt
  | i :: ri, j :: rj =>
    match cmp ri rj with
    | .eq => if i = j then .eq else if i < j then .lt else .gt
    | c => c

/-- `expm` in `exp`. -/
def expm (m : Bignat) (i : Nat) : Except Exn Bignat :=
  if i = 0 then .ok [1]
  else if i = 1 then .ok m
  else do
    let r ← expm m (i / 2)
    let r2 ← mult r r
    if i % 2 = 0 then return r2 else mult r2 m
termination_by i
decreasing_by omega

/-- A negative exponent gives zero, and raises `Div` for the base zero. -/
def exp (m : Bignat) (n : Int) : Except Exn Bignat :=
  if n = 0 then .ok [1]
  else if m = [] then if n > 0 then .ok [] else .error .div
  else if n < 0 then .ok []
  else expm m n.toNat

end Unikernel.BigNat
