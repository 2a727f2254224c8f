import Unikernel.IntInf.Signed
import Unikernel.Sml.Text

/-!
# Integers of any size, as text

`toString` and `fromString` of `basis/IntInf.sml`, with `NumFormat` and `NumScan` as far as
radix `DEC` goes. A number is divided by `10 ^ 9`, the largest power of ten that is a digit,
again and again, and what is left over each time is written as nine characters. Reading takes
nine characters at a time, with a reader that pretends that the text ends behind them; each
piece is read as an integer of its own.

- `toString_rep`: the numeral, without zeros in front.
- `fromString_numeral`: blanks, a sign, and digits with any number of zeros in front. What
  follows must not be a sign, since a piece may begin with one.
- `text_exact`: what is written is read back.
-/

namespace Unikernel

open Sml

/-! ## Machine numbers as text

`NumFormat` and `NumScan` are written for all radixes and for any reader of characters. Here is
what a decimal number needs, with the reader that `BigNat.scan` makes of a string: it counts the
characters that were read and stops at a bound. -/

namespace NumFormat

/-- `mkDigit`, of which only the digits are used at radix `DEC`. -/
def mkDigit (w : BitVec 32) : UInt8 := prhex w.toNat

/-- `f` in `wordToDec`, without its count of the characters, which is not used. -/
def wordToDec (w : BitVec 32) (l : Str) : Str :=
  if w < 10 then mkDigit w :: l
  else
    let j := w / 10
    wordToDec j (mkDigit (w - 10 * j) :: l)
termination_by w.toNat
decreasing_by
  rename_i hw
  have hle : 10 ≤ w.toNat := Nat.le_of_not_lt fun h => hw (BitVec.lt_def.mpr h)
  rw [BitVec.toNat_udiv]
  exact Nat.div_lt_self (by omega) (by decide)

/-- `fmtInt DEC`. The smallest `int31` has no negation, and is a case of its own. -/
def fmtInt (i : Int) : Str :=
  if i < 0 then
    match BigNat.int31 (-i) with
    | .ok j => 126 :: wordToDec (BitVec.ofInt 32 j) []
    | .error _ => lit "~1073741824"
  else wordToDec (BitVec.ofInt 32 i) []

end NumFormat

namespace NumScan

/-- The value of a digit or a letter; 128 for a blank, 129 for `+`, 130 for `-` and `~`, 131
for a point. -/
def cvtTable : List Nat :=
  [255, 255, 255, 255, 255, 255, 255, 255, 255, 128, 128, 255, 255, 255, 255, 255,
   255, 255, 255, 255, 255, 255, 255, 255, 255, 255, 255, 255, 255, 255, 255, 255,
   128, 255, 255, 255, 255, 255, 255, 255, 255, 255, 255, 129, 255, 130, 131, 255,
   0, 1, 2, 3, 4, 5, 6, 7, 8, 9, 255, 255, 255, 255, 255, 255,
   255, 10, 11, 12, 13, 14, 15, 16, 17, 18, 19, 20, 21, 22, 23, 24,
   25, 26, 27, 28, 29, 30, 31, 32, 33, 34, 35, 255, 255, 255, 255, 255,
   255, 10, 11, 12, 13, 14, 15, 16, 17, 18, 19, 20, 21, 22, 23, 24,
   25, 26, 27, 28, 29, 30, 31, 32, 33, 34, 35, 255, 255, 255, 130, 255] ++
  List.replicate 128 255

/-- `code`. The table has an entry for every character. -/
def code (c : UInt8) : BitVec 32 := BitVec.ofNat 32 (cvtTable.getD c.toNat 255)

/-- The code of a blank. -/
def wsCode : BitVec 32 := 128

/-- The code of `+`. -/
def plusCode : BitVec 32 := 129

/-- The codes of `-` and `~`. -/
def minusCode : BitVec 32 := 130

/-- A word above this cannot take another digit. -/
def largestWordDiv10 : BitVec 32 := 429496729

def largestWordMod10 : BitVec 32 := 5

/-- The largest word that is an `int31` when it is negated. -/
def largestNegInt : BitVec 32 := 1073741824

/-- The largest word that is an `int31`. -/
def largestPosInt : BitVec 32 := 1073741823

/-- `skipWS`, on the characters of a string. -/
def skipWS : Str → Str
  | [] => []
  | c :: cs => if code c = wsCode then skipWS cs else c :: cs

/-- `get` in `BigNat.scan`: the characters that are left, until `bound` of them have been read. -/
def get (bound : Int) (s : Int × Str) : Option (UInt8 × Int × Str) :=
  if s.1 = bound then none
  else match s.2 with
    | [] => none
    | c :: cs => some (c, s.1 + 1, cs)

/-- `getNext` in `scanPrefix`. -/
def getNext (bound : Int) (neg : Bool) (cs : Int × Str) : Option (Bool × BitVec 32 × Int × Str) :=
  match get bound cs with
  | none => none
  | some (c, cs) => some (neg, code c, cs)

/-- `scanPrefix`: the sign and the code behind it. -/
def scanPrefix (bound : Int) (cs : Int × Str) : Option (Bool × BitVec 32 × Int × Str) :=
  match get bound cs with
  | none => none
  | some (c, cs') =>
    if code c = plusCode then getNext bound false cs'
    else if code c = minusCode then getNext bound true cs'
    else some (false, code c, cs')

/-- `cvt` in `scanDec`, with the reader `get bound`. -/
def cvt (bound : Int) (w : BitVec 32) (l : Int) : Str → Except Exn (BitVec 32 × Int × Str)
  | [] => .ok (w, l, [])
  | c :: cs =>
    if l = bound then .ok (w, l, c :: cs)
    else
      let d := code c
      if d < 10 then
        if w ≥ largestWordDiv10 ∧ (largestWordDiv10 < w ∨ largestWordMod10 < d) then
          .error .overflow
        else cvt bound (10 * w + d) (l + 1) cs
      else .ok (w, l, c :: cs)

/-- A number begins with a digit, behind a sign if there is one. -/
def scanDec (bound : Int) (cs : Int × Str) : Except Exn (Option (Bool × BitVec 32 × Int × Str)) :=
  match scanPrefix bound cs with
  | none => .ok none
  | some (neg, next, l, rest) =>
    if next < 10 then do
      let (word, rest) ← cvt bound next l rest
      return some (neg, word, rest)
    else .ok none

/-- `scanInt DEC`, which is `finalInt scanDec`. -/
def scanInt (bound : Int) (cs : Int × Str) : Except Exn (Option (Int × Int × Str)) := do
  match ← scanDec bound cs with
  | none => return none
  | some (true, word, rest) =>
    if largestNegInt < word then .error .overflow
    else
      let i ← BigNat.int31 word.toNat
      return some (← BigNat.int31 (-i), rest)
  | some (false, word, rest) =>
    if largestPosInt < word then .error .overflow
    else return some (← BigNat.int31 word.toNat, rest)

/-- Every function of the reader leaves less than it was given, which ends the loop of `scan`. -/
theorem get_length {bound : Int} {s t : Int × Str} {c : UInt8} (h : get bound s = some (c, t)) :
    t.2.length < s.2.length := by
  obtain ⟨l, cs⟩ := s
  unfold get at h
  split at h
  · cases h
  · cases cs with
    | nil => cases h
    | cons c cs =>
      cases h
      exact Nat.lt_succ_self _

theorem getNext_length {bound : Int} {s t : Int × Str} {neg neg' : Bool} {next : BitVec 32}
    (h : getNext bound neg' s = some (neg, next, t)) : t.2.length < s.2.length := by
  unfold getNext at h
  split at h
  · cases h
  · rename_i hget
    cases h
    exact get_length hget

theorem scanPrefix_length {bound : Int} {s t : Int × Str} {neg : Bool} {next : BitVec 32}
    (h : scanPrefix bound s = some (neg, next, t)) : t.2.length < s.2.length := by
  unfold scanPrefix at h
  split at h
  · cases h
  · rename_i c cs' hget
    have hlt := get_length hget
    split_ifs at h
    · exact Nat.lt_trans (getNext_length h) hlt
    · exact Nat.lt_trans (getNext_length h) hlt
    · cases h
      exact hlt

/-- `cvt` may leave everything. -/
theorem cvt_length {bound l l' : Int} {w w' : BitVec 32} {cs cs' : Str}
    (h : cvt bound w l cs = .ok (w', l', cs')) : cs'.length ≤ cs.length := by
  induction cs generalizing w l with
  | nil =>
    cases h
    exact Nat.le_refl _
  | cons c cs ih =>
    rw [cvt] at h
    simp only at h
    split_ifs at h
    · cases h
      exact Nat.le_refl _
    · exact Nat.le_succ_of_le (ih h)
    · cases h
      exact Nat.le_refl _

theorem scanDec_length {bound : Int} {s t : Int × Str} {neg : Bool} {word : BitVec 32}
    (h : scanDec bound s = .ok (some (neg, word, t))) : t.2.length < s.2.length := by
  unfold scanDec at h
  split at h
  · cases h
  · rename_i hprefix
    split_ifs at h
    · obtain ⟨⟨_, _, _⟩, hcvt, h⟩ := except_bind_eq_ok.mp h
      cases h
      exact Nat.lt_of_le_of_lt (cvt_length hcvt) (scanPrefix_length hprefix)
    · cases h

/-- A piece takes a character at least. -/
theorem scanInt_length {bound i : Int} {s t : Int × Str}
    (h : scanInt bound s = .ok (some (i, t))) : t.2.length < s.2.length := by
  unfold scanInt at h
  obtain ⟨r, hdec, h⟩ := except_bind_eq_ok.mp h
  split at h
  · cases h
  · split_ifs at h
    obtain ⟨_, _, h⟩ := except_bind_eq_ok.mp h
    obtain ⟨_, _, h⟩ := except_bind_eq_ok.mp h
    cases h
    exact scanDec_length hdec
  · split_ifs at h
    obtain ⟨_, _, h⟩ := except_bind_eq_ok.mp h
    cases h
    exact scanDec_length hdec

end NumScan

/-! ## Naturals as text -/

namespace BigNat

/-- `try` in `mkPowers`. -/
def powersFrom {radix : Int} (hradix : 1 < radix) (bnd tp : Int) (htp : 0 < tp) (l : List Int) :
    List Int :=
  if tp ≤ bnd then
    match int31 (radix * tp) with
    | .ok _ => powersFrom hradix bnd (radix * tp) (Int.mul_pos (by omega) htp) (tp :: l)
    | .error _ => tp :: l
  else tp :: l
termination_by (bnd + 1 - tp).toNat
decreasing_by
  have hlt : 1 * tp < radix * tp := Int.mul_lt_mul_of_pos_right hradix htp
  omega

/-- The powers of the radix that are digits: the largest exponent, its power, and all of them. -/
def mkPowers {radix : Int} (hradix : 1 < radix) : Except Exn (Int × Int × List Int) := do
  let bnd ← quot31 nbase (← int31 (-radix))
  let powers := (powersFrom hradix bnd radix (by omega) [1]).reverse
  let maxpow : Int := powers.length - 1
  return (maxpow, ← vectorSub powers maxpow, powers)

/-- `powers` at radix `DEC`. -/
def powers10 : Except Exn (Int × Int × List Int) := mkPowers (show (1 : Int) < 10 by decide)

/-- `StringCvt.padLeft`. -/
def padLeft (c : UInt8) (n : Int) (s : Str) : Str :=
  if n ≤ s.length then s else List.replicate (n - s.length).toNat c ++ s

/-- `ms0` in `fmt`. -/
def ms0 (pow : Int) (i : Int) (a : List Str) : List Str :=
  if i = 0 then padLeft 48 pow [] :: a else padLeft 48 pow (NumFormat.fmtInt i) :: a

/-- `ml` in `fmt`. -/
def ml (pow radpow : Int) : Nat → Bignat → List Str → Run (List Str)
  | 0, _, _ => spent
  | fuel + 1, n, a =>
    if radpow < 0 then throw .fmt
    else do
      let (q, d) ← liftExcept (divmodd n radpow)
      if q = [] then return NumFormat.fmtInt d :: a
      else ml pow radpow fuel q (ms0 pow d a)

/-- `fmt DEC`. -/
def fmt10 (fuel : Nat) (n : Bignat) : Run Str := do
  let (pow, radpow, _) ← liftExcept powers10
  return (← ml pow radpow fuel n []).flatten

/-- `loop` in `scan`. -/
def scanLoop (bound : Int) (powers : List Int) (acc : Bignat) (cs : Str) :
    Except Exn (Bignat × Str) :=
  match _hpiece : NumScan.scanInt bound (0, cs) with
  | .error e => .error e
  | .ok none => .ok (acc, cs)
  | .ok (some (i, sh, cs')) => do
    let p ← vectorSub powers sh
    let acc ← muld acc p
    let acc ← add acc (if i = 0 then [] else [i])
    scanLoop bound powers acc cs'
termination_by cs.length
decreasing_by exact NumScan.scanInt_length _hpiece

/-- `scan DEC`. -/
def scan10 (cs : Str) : Except Exn (Option (Bignat × Str)) := do
  let (bound, _, powers) ← powers10
  match ← NumScan.scanInt bound (0, cs) with
  | none => return none
  | some (i, _, cs') => return some (← scanLoop bound powers (if i = 0 then [] else [i]) cs')

end BigNat

namespace IntInf

/-- `fmt DEC`. -/
def toString (fuel : Nat) (i : IntInf) : Run Str :=
  if i.digits = [] then return [48]
  else if i.negative then do return 126 :: (← BigNat.fmt10 fuel i.digits)
  else BigNat.fmt10 fuel i.digits

/-- `scan DEC`, on the characters of a string. -/
def scan (cs : Str) : Except Exn (Option (IntInf × Str)) :=
  match NumScan.skipWS cs with
  | [] => .ok none
  | c :: cs'' =>
    if c = 126 ∨ c = 45 then do
      return (← BigNat.scan10 cs'').map fun r => (zneg r.1, r.2)
    else if c = 43 then do
      return (← BigNat.scan10 cs'').map fun r => (posi r.1, r.2)
    else do
      return (← BigNat.scan10 (c :: cs'')).map fun r => (posi r.1, r.2)

/-- `StringCvt.scanString (scan StringCvt.DEC)`: what follows the number is not looked at. -/
def fromString (s : Str) : Except Exn (Option IntInf) := do
  return (← scan s).map Prod.fst

end IntInf

/-! ## What is written

All pieces but the first are written with nine characters, and these are the digits of the rest in
base ten with the zeros in front: a fixed number of digits (`BigEndian.fixed`). -/

open BigEndian

/-- A number that is a word. -/
theorem toNat_word {n : Nat} (h : n < 2 ^ 32) : (BitVec.ofNat 32 n).toNat = n := by
  rw [BitVec.toNat_ofNat, Nat.mod_eq_of_lt h]

namespace NumFormat

/-- The digits of a word, in front of what is there. -/
theorem wordToDec_eq (w : BitVec 32) (l : Str) :
    wordToDec w l = (digits 10 w.toNat).map prhex ++ l := by
  induction w, l using wordToDec.induct with
  | case1 w l hlt =>
    have hsmall : w.toNat < 10 := BitVec.lt_def.mp hlt
    rw [wordToDec, if_pos hlt, digits_of_lt hsmall]
    rfl
  | case2 w l hge j ih =>
    have hlarge : 10 ≤ w.toNat := Nat.le_of_not_lt fun h => hge (BitVec.lt_def.mpr h)
    have hj : j.toNat = w.toNat / 10 := BitVec.toNat_udiv
    have hlast : (w - 10 * j).toNat = w.toNat % 10 := by
      have hten : (10 * j).toNat = 10 * (w.toNat / 10) := by
        rw [BitVec.toNat_mul, hj]
        exact Nat.mod_eq_of_lt (Nat.lt_of_le_of_lt (Nat.mul_div_le w.toNat 10) w.isLt)
      rw [BitVec.toNat_sub_of_le (by rw [BitVec.le_def, hten]; exact Nat.mul_div_le w.toNat 10),
        hten]
      omega
    rw [wordToDec, if_neg hge]
    show wordToDec j (mkDigit (w - 10 * j) :: l) = _
    rw [ih, hj, mkDigit, hlast, digits_of_le Nat.one_lt_ofNat hlarge, List.map_append,
      List.append_assoc]
    rfl

/-- A number that is an `int31` is written as `Int.toString` writes it. -/
theorem fmtInt_natCast {n : Nat} (h : n < 2 ^ 30) : fmtInt n = tostr n := by
  have hn : (BitVec.ofInt 32 n).toNat = n := by
    rw [BitVec.toNat_ofInt]
    omega
  rw [fmtInt, if_neg (by omega), wordToDec_eq, hn, tostr_eq, List.append_nil]

end NumFormat

namespace BigNat

/-- Up to `10 ^ 9`, which is above a tenth of the base. -/
theorem powersFrom_ten :
    powersFrom (show (1 : Int) < 10 by decide) 107374182 10 (by decide) [1] =
      ((List.range 10).map fun k => (10 ^ k : Int)).reverse := by
  have hmap : (List.range 10).map (fun k => (10 ^ k : Int)) =
    [1, 10, 100, 1000, 10000, 100000, 1000000, 10000000, 100000000, 1000000000] := by decide
  rw [hmap]
  simp [powersFrom, int31]

/-- Pieces of nine characters, and the powers of ten up to `10 ^ 9`. -/
theorem powers10_eq : powers10 = .ok (9, 10 ^ 9, (List.range 10).map fun k => 10 ^ k) := by
  have hbnd : quot31 nbase (-10) = .ok 107374182 := by decide
  rw [powers10, mkPowers, show int31 (-10) = .ok (-10) from rfl, except_ok_bind, hbnd,
    except_ok_bind, powersFrom_ten, List.reverse_reverse]
  rfl

/-- Zeros in front, up to nine characters. -/
theorem padLeft_digits {d : Nat} (h : d < 10 ^ 9) :
    padLeft 48 9 (tostr d) = (fixed 10 9 d).map prhex := by
  have hlen : (tostr d).length = (digits 10 d).length := by rw [tostr_eq, List.length_map]
  have hle : (digits 10 d).length ≤ 9 := length_decimal_le (by decide) h
  have hzero : List.replicate (9 - (digits 10 d).length) (48 : UInt8) =
      (List.replicate (9 - (digits 10 d).length) 0).map prhex := by
    rw [List.map_replicate]
    rfl
  rw [← replicate_append_digits Nat.one_lt_ofNat (by decide) h, List.map_append, ← tostr_eq,
    ← hzero, padLeft, hlen]
  split_ifs with hfull
  · rw [show 9 - (digits 10 d).length = 0 by omega]
    rfl
  · rw [show ((9 : Int) - (digits 10 d).length).toNat = 9 - (digits 10 d).length by omega]

/-- All pieces but the first. -/
theorem ms0_eq {d : Nat} (h : d < 10 ^ 9) (a : List Str) :
    ms0 9 d a = (fixed 10 9 d).map prhex :: a := by
  rw [ms0]
  split_ifs with hzero
  · obtain rfl : d = 0 := by omega
    rfl
  · rw [NumFormat.fmtInt_natCast (by omega), padLeft_digits h]

/-- One division by `10 ^ 9` for every nine characters but the first. -/
theorem ml_eq {n fuel : Nat} (h : n < fuel) (a : List Str) :
    ∃ l, ml 9 (10 ^ 9) fuel (bn n) a = pure l ∧
      l.flatten = (digits 10 n).map prhex ++ a.flatten := by
  induction fuel generalizing n a with
  | zero => exact absurd h (Nat.not_lt_zero n)
  | succ fuel ih =>
    have hrest : n % 10 ^ 9 < 10 ^ 9 := Nat.mod_lt n (by decide)
    -- the last nine digits are taken off
    have hstep : liftExcept (divmodd (bn n) (10 ^ 9)) =
        (pure (bn (n / 10 ^ 9), ((n % 10 ^ 9 : Nat) : Int)) : Run (Bignat × Int)) :=
      congrArg liftExcept (divmodd_eq (by decide) (by decide) n)
    rw [ml, if_neg (by decide), hstep, pure_bind]
    simp only [bn_eq_nil_iff]
    split_ifs with hsmall
    · have hlt : n < 10 ^ 9 := by omega
      refine ⟨_, rfl, ?_⟩
      rw [Nat.mod_eq_of_lt hlt, NumFormat.fmtInt_natCast (by omega), List.flatten_cons, tostr_eq]
    · have hle : 10 ^ 9 ≤ n := by omega
      obtain ⟨l, hl, hflat⟩ :=
        ih (n := n / 10 ^ 9) (by omega) (ms0 9 ((n % 10 ^ 9 : Nat) : Int) a)
      refine ⟨l, hl, ?_⟩
      rw [hflat, ms0_eq hrest, List.flatten_cons, ← List.append_assoc, ← List.map_append,
        fixed_mod, digits_append_fixed Nat.one_lt_ofNat hle]

/-- A natural number. -/
theorem fmt10_eq {n fuel : Nat} (h : n < fuel) : fmt10 fuel (bn n) = pure (tostr n) := by
  obtain ⟨l, hl, hflat⟩ := ml_eq h []
  rw [fmt10, powers10_eq]
  show (ml 9 (10 ^ 9) fuel (bn n) [] >>= fun l => pure l.flatten) = _
  rw [hl, pure_bind, hflat, tostr_eq, List.flatten_nil, List.append_nil]

end BigNat

namespace IntInf

/-- **Writing**: the sign and the numeral, without zeros in front. -/
theorem toString_rep {i : Int} {fuel : Nat} (h : i.natAbs < fuel) :
    toString fuel (rep i) = pure (signOf i ++ tostr i.natAbs) := by
  rw [toString]
  split_ifs with hzero hneg
  · rw [digits_rep_eq_nil.mp hzero, Int.natAbs_zero, tostr_eq, digits_of_lt (by decide)]
    rfl
  · have hlt : i < 0 := of_decide_eq_true hneg
    show (BigNat.fmt10 fuel (BigNat.bn i.natAbs) >>= fun s => pure (126 :: s)) = _
    rw [BigNat.fmt10_eq h, pure_bind, signOf, if_pos hlt]
    rfl
  · have hge : ¬ i < 0 := fun h => hneg (decide_eq_true h)
    show BigNat.fmt10 fuel (BigNat.bn i.natAbs) = _
    rw [BigNat.fmt10_eq h, signOf, if_neg hge, List.nil_append]

end IntInf

/-! ## What is read

The text is cut into pieces of nine characters, and each is read by the reader for machine numbers,
which takes a sign, too. So a piece could begin with a sign in the middle of a number, and what
follows a number matters if it begins with one. -/

namespace NumScan

/-- The code of a digit is its value. -/
theorem code_prhex {d : Nat} (h : d < 10) : code (prhex d) = BitVec.ofNat 32 d := by
  revert h d
  decide

/-- A digit is no blank, and no sign. -/
theorem code_prhex_ne {d : Nat} (h : d < 10) {w : BitVec 32} (hw : ¬ w < 10) :
    code (prhex d) ≠ w := by
  rintro rfl
  rw [code_prhex h, BitVec.lt_def, toNat_word (by omega)] at hw
  exact hw h

/-- What may follow a numeral: neither a digit nor a sign, with which another piece begins. -/
def Stops (rest : Str) : Prop :=
  ∀ c ∈ rest.head?, isDigit c = false ∧ c ≠ 43 ∧ c ≠ 45 ∧ c ≠ 126

/-- Nothing follows. -/
theorem stops_nil : Stops [] := nofun

/-- As the table has it. -/
theorem code_stops {c : UInt8} (h : isDigit c = false ∧ c ≠ 43 ∧ c ≠ 45 ∧ c ≠ 126) :
    ¬ code c < 10 ∧ code c ≠ plusCode ∧ code c ≠ minusCode := by
  have htable : ∀ n < 256, ¬ (48 ≤ n ∧ n ≤ 57) ∧ n ≠ 43 ∧ n ≠ 45 ∧ n ≠ 126 →
      ¬ BitVec.ofNat 32 (cvtTable.getD n 255) < 10 ∧
        BitVec.ofNat 32 (cvtTable.getD n 255) ≠ plusCode ∧
        BitVec.ofNat 32 (cvtTable.getD n 255) ≠ minusCode := by decide +kernel
  obtain ⟨hdigit, hplus, hminus, htilde⟩ := h
  exact htable c.toNat c.toNat_lt ⟨of_decide_eq_false hdigit,
    fun heq => hplus (UInt8.toNat_inj.mp heq), fun heq => hminus (UInt8.toNat_inj.mp heq),
    fun heq => htilde (UInt8.toNat_inj.mp heq)⟩

/-- Before the ninth character, the reader goes on. -/
theorem get_more {l : Nat} (h : l < 9) (c : UInt8) (cs : Str) :
    get 9 ((l : Int), c :: cs) = some (c, ((l + 1 : Nat) : Int), cs) :=
  if_neg (show ¬ (l : Int) = 9 by omega)

/-- The digits behind those in `ds`, up to the ninth one of all, or as far as they go. -/
theorem cvt_digits (ds : List Nat) {es : List Nat} {rest : Str} (hds : ∀ d ∈ ds ++ es, d < 10)
    (hlen : (ds ++ es).length ≤ 9) (hend : (ds ++ es).length = 9 ∨ Stops rest) :
    cvt 9 (BitVec.ofNat 32 (value 10 ds)) ds.length (es.map prhex ++ rest) =
      .ok (BitVec.ofNat 32 (value 10 (ds ++ es)), ((ds ++ es).length : Int), rest) := by
  induction es generalizing ds with
  | nil =>
    rw [List.append_nil] at hend hlen ⊢
    -- nine characters have been read, or what follows is no digit
    rw [List.map_nil, List.nil_append]
    cases rest with
    | nil => rfl
    | cons c cs =>
      rw [cvt]
      split_ifs with hfull
      · rfl
      · have hstop := hend.resolve_left fun h => hfull (by omega)
        exact if_neg (code_stops (hstop c rfl)).1
  | cons d es ih =>
    have hsplit : ds ++ d :: es = ds ++ [d] ++ es := by simp
    have hd : d < 10 := hds d (List.mem_append_right _ List.mem_cons_self)
    have hlt : ds.length < 9 := by
      rw [List.length_append, List.length_cons] at hlen
      omega
    -- what has been read is below `10 ^ 8`
    have hval : value 10 ds < 10 ^ 8 :=
      Nat.lt_of_lt_of_le (value_lt Nat.one_lt_ofNat fun e he => hds e (List.mem_append_left _ he))
        (Nat.pow_le_pow_right (by decide) (by omega))
    have hword : (BitVec.ofNat 32 (value 10 ds)).toNat = value 10 ds :=
      toNat_word (by omega)
    have hsmall : ¬ BitVec.ofNat 32 (value 10 ds) ≥ largestWordDiv10 := by
      rw [ge_iff_le, BitVec.le_def, hword]
      show ¬ 429496729 ≤ _
      omega
    have hdigit : BitVec.ofNat 32 d < 10 := by
      rw [BitVec.lt_def, toNat_word (by omega)]
      exact hd
    have hnext : 10 * BitVec.ofNat 32 (value 10 ds) + BitVec.ofNat 32 d =
        BitVec.ofNat 32 (value 10 (ds ++ [d])) := by
      rw [value_snoc, Nat.mul_comm, BitVec.ofNat_add, BitVec.ofNat_mul]
      rfl
    rw [hsplit] at hds hlen hend ⊢
    rw [← ih (ds ++ [d]) hds hlen hend, List.map_cons, List.cons_append, cvt,
      if_neg (by omega)]
    simp only [code_prhex hd, if_pos hdigit, hnext, List.length_append, List.length_singleton]
    exact if_neg fun h => hsmall h.1

/-- **A piece**: nine digits, or as many as there are. -/
theorem scanInt_digits {es : List Nat} {rest : Str} (hne : es ≠ []) (hes : ∀ d ∈ es, d < 10)
    (hlen : es.length ≤ 9) (hend : es.length = 9 ∨ Stops rest) :
    scanInt 9 (0, es.map prhex ++ rest) =
      .ok (some ((value 10 es : Int), (es.length : Int), rest)) := by
  obtain ⟨d, es, rfl⟩ := List.exists_cons_of_ne_nil hne
  have hd : d < 10 := hes d List.mem_cons_self
  have hcode := code_prhex hd
  have hdigit : BitVec.ofNat 32 d < 10 := by
    rw [BitVec.lt_def, toNat_word (by omega)]
    exact hd
  -- the first character is a digit, and no sign
  have hprefix : scanPrefix 9 (0, (d :: es).map prhex ++ rest) =
      some (false, BitVec.ofNat 32 d, 1, es.map prhex ++ rest) := by
    have hget := get_more (show 0 < 9 by decide) (prhex d) (es.map prhex ++ rest)
    show (match get 9 (((0 : Nat) : Int), prhex d :: (es.map prhex ++ rest)) with
      | none => none
      | some (c, cs') => _) = _
    rw [hget]
    show (if code (prhex d) = plusCode then _
      else if code (prhex d) = minusCode then _ else _) = _
    rw [if_neg (code_prhex_ne hd (by decide)), if_neg (code_prhex_ne hd (by decide)), hcode]
    rfl
  have hcvt : cvt 9 (BitVec.ofNat 32 d) 1 (es.map prhex ++ rest) =
      .ok (BitVec.ofNat 32 (value 10 (d :: es)), ((d :: es).length : Int), rest) := by
    have h := cvt_digits [d] hes hlen hend
    rwa [value_singleton] at h
  have hval : value 10 (d :: es) < 10 ^ 9 :=
    Nat.lt_of_lt_of_le (value_lt Nat.one_lt_ofNat hes) (Nat.pow_le_pow_right (by decide) hlen)
  have hword : (BitVec.ofNat 32 (value 10 (d :: es))).toNat = value 10 (d :: es) :=
    toNat_word (by omega)
  -- a piece of nine digits is an `int31`
  have hfits : ¬ largestPosInt < BitVec.ofNat 32 (value 10 (d :: es)) := by
    rw [BitVec.lt_def, hword]
    show ¬ 1073741823 < _
    omega
  have hdec : scanDec 9 (0, (d :: es).map prhex ++ rest) =
      .ok (some
        (false, BitVec.ofNat 32 (value 10 (d :: es)), ((d :: es).length : Int), rest)) := by
    rw [scanDec, hprefix]
    show (if BitVec.ofNat 32 d < 10 then _ else _) = _
    rw [if_pos hdigit, hcvt, except_ok_bind]
    rfl
  rw [scanInt, hdec, except_ok_bind]
  show (if largestPosInt < BitVec.ofNat 32 (value 10 (d :: es)) then _ else _) = _
  rw [if_neg hfits, hword, BigNat.int31_ok (by omega) (by omega)]
  rfl

/-- Of a numeral a piece is read, and a numeral is left. -/
theorem scanInt_piece {ds : List Nat} {rest : Str} (hne : ds ≠ []) (hds : ∀ d ∈ ds, d < 10)
    (hrest : Stops rest) :
    ∃ es rs, ds = es ++ rs ∧ es ≠ [] ∧ es.length ≤ 9 ∧
      scanInt 9 (0, ds.map prhex ++ rest) =
        .ok (some ((value 10 es : Int), (es.length : Int), rs.map prhex ++ rest)) := by
  have hcut : ds.take 9 ++ ds.drop 9 = ds := List.take_append_drop 9 ds
  have hlen : (ds.take 9).length = min 9 ds.length := List.length_take
  have hpos := List.length_pos_iff.mpr hne
  have hsplit : ds.map prhex ++ rest =
      (ds.take 9).map prhex ++ ((ds.drop 9).map prhex ++ rest) := by
    rw [← List.append_assoc, ← List.map_append, hcut]
  -- a piece that is not full is the last one
  have hend : (ds.take 9).length = 9 ∨ Stops ((ds.drop 9).map prhex ++ rest) := by
    rcases Nat.lt_or_ge ds.length 9 with hshort | hlong
    · rw [List.drop_eq_nil_of_le hshort.le]
      exact .inr hrest
    · exact .inl (by omega)
  refine ⟨ds.take 9, ds.drop 9, hcut.symm, List.ne_nil_of_length_pos (by omega), by omega, ?_⟩
  rw [hsplit]
  exact scanInt_digits (List.ne_nil_of_length_pos (by omega))
    (fun d h => hds d (List.mem_of_mem_take h)) (by omega) hend

/-- No further piece begins here. -/
theorem scanInt_stops {rest : Str} (h : Stops rest) :
    scanInt 9 (0, rest) = .ok none := by
  cases rest with
  | nil => rfl
  | cons c cs =>
    obtain ⟨hdigit, hplus, hminus⟩ := code_stops (h c rfl)
    have hprefix : scanPrefix 9 (0, c :: cs) = some (false, code c, 1, cs) := by
      show (if code c = plusCode then _ else if code c = minusCode then _ else _) = _
      rw [if_neg hplus, if_neg hminus]
      rfl
    rw [scanInt, scanDec, hprefix]
    show ((if code c < 10 then _ else _) >>= _) = _
    rw [if_neg hdigit, except_ok_bind]
    rfl

end NumScan

namespace BigNat

/-- The code takes a piece for a digit, and zero for no digit. -/
theorem digit_eq {n : Nat} (h : n < 2 ^ 30) :
    (if (n : Int) = 0 then [] else [(n : Int)]) = bn n := by
  split_ifs with hzero
  · rw [show n = 0 by omega, bn_zero]
  · rw [bn_digit (by omega) h]

/-- The power for a piece of `k` characters. -/
theorem power_eq {k : Nat} (h : k ≤ 9) :
    vectorSub ((List.range 10).map fun k => (10 ^ k : Int)) k = .ok ((10 ^ k : Nat) : Int) := by
  refine vectorSub_ok ?_
  rw [List.getElem?_map, List.getElem?_range (by omega), Option.map_some]
  push_cast
  rfl

/-- No further piece: the loop ends. -/
theorem scanLoop_none {bound : Int} {cs : Str} (h : NumScan.scanInt bound (0, cs) = .ok none)
    (powers : List Int) (acc : Bignat) : scanLoop bound powers acc cs = .ok (acc, cs) := by
  rw [scanLoop]
  split
  · rename_i hpiece
    cases h.symm.trans hpiece
  · rfl
  · rename_i hpiece
    cases h.symm.trans hpiece

/-- A further piece: the number is moved by as many digits as it has, and the piece is added. -/
theorem scanLoop_some {bound i sh : Int} {cs cs' : Str}
    (h : NumScan.scanInt bound (0, cs) = .ok (some (i, sh, cs'))) (powers : List Int)
    (acc : Bignat) :
    scanLoop bound powers acc cs = (do
      let p ← vectorSub powers sh
      let acc ← muld acc p
      let acc ← add acc (if i = 0 then [] else [i])
      scanLoop bound powers acc cs') := by
  rw [scanLoop]
  split
  · rename_i hpiece
    cases h.symm.trans hpiece
  · rename_i hpiece
    cases h.symm.trans hpiece
  · rename_i hpiece
    cases h.symm.trans hpiece
    rfl

/-- **The pieces**, one after the other. -/
theorem scanLoop_eq {ds : List Nat} {rest : Str} (hds : ∀ d ∈ ds, d < 10)
    (hrest : NumScan.Stops rest) (n : Nat) :
    scanLoop 9 ((List.range 10).map fun k => 10 ^ k) (bn n) (ds.map prhex ++ rest) =
      .ok (bn (n * 10 ^ ds.length + value 10 ds), rest) := by
  induction hlen : ds.length using Nat.strong_induction_on generalizing ds n with
  | _ k ih =>
    subst hlen
    by_cases hnil : ds = []
    · subst hnil
      rw [List.map_nil, List.nil_append, scanLoop_none (NumScan.scanInt_stops hrest), value_nil,
        List.length_nil, Nat.pow_zero, Nat.mul_one, Nat.add_zero]
    · obtain ⟨es, rs, rfl, hne, hshort, hscan⟩ := NumScan.scanInt_piece hnil hds hrest
      have hpos := List.length_pos_iff.mpr hne
      have hpow : 10 ^ es.length ≤ 10 ^ 9 := Nat.pow_le_pow_right (by decide) hshort
      have hval : value 10 es < 10 ^ es.length :=
        value_lt Nat.one_lt_ofNat fun d h => hds d (List.mem_append_left _ h)
      -- the loop goes on with what the piece has left
      have hrec := ih rs.length (by rw [List.length_append]; omega)
        (fun d h => hds d (List.mem_append_right _ h)) (n * 10 ^ es.length + value 10 es) rfl
      rw [scanLoop_some hscan, power_eq hshort, except_ok_bind, muld_eq n (by omega),
        except_ok_bind, digit_eq (by omega), add_eq, except_ok_bind, hrec, value_append,
        List.length_append, Nat.pow_add, Nat.add_mul, Nat.mul_assoc, Nat.add_assoc]

/-- **A natural number** is read, and what follows is left. -/
theorem scan10_eq {ds : List Nat} {rest : Str} (hne : ds ≠ []) (hds : ∀ d ∈ ds, d < 10)
    (hrest : NumScan.Stops rest) :
    scan10 (ds.map prhex ++ rest) = .ok (some (bn (value 10 ds), rest)) := by
  obtain ⟨es, rs, rfl, hne', hshort, hscan⟩ := NumScan.scanInt_piece hne hds hrest
  have hpow : 10 ^ es.length ≤ 10 ^ 9 := Nat.pow_le_pow_right (by decide) hshort
  have hval : value 10 es < 10 ^ es.length :=
    value_lt Nat.one_lt_ofNat fun d h => hds d (List.mem_append_left _ h)
  rw [scan10, powers10_eq, except_ok_bind]
  simp only
  rw [hscan, except_ok_bind]
  simp only
  rw [digit_eq (by omega), scanLoop_eq (fun d h => hds d (List.mem_append_right _ h)) hrest,
    except_ok_bind, value_append]
  rfl

end BigNat

namespace IntInf

/-- The signs that a numeral may have: none, `+`, `-` and `~`. -/
def signs : List (Str × Int) := [([], 1), ([43], 1), ([45], -1), ([126], -1)]

/-- Blanks in front are skipped. -/
theorem skipWS_blanks {ws : Str} (hws : ∀ c ∈ ws, c = 9 ∨ c = 10 ∨ c = 32) {c : UInt8}
    (hc : NumScan.code c ≠ NumScan.wsCode) (cs : Str) :
    NumScan.skipWS (ws ++ c :: cs) = c :: cs := by
  induction ws with
  | nil => exact if_neg hc
  | cons b ws ih =>
    have hb : NumScan.code b = NumScan.wsCode := by
      rcases hws b List.mem_cons_self with rfl | rfl | rfl
      all_goals rfl
    rw [List.cons_append, NumScan.skipWS, if_pos hb]
    exact ih fun c h => hws c (List.mem_cons_of_mem _ h)

/-- The first character that is no blank may be a sign. -/
theorem scan_skipped {s cs : Str} {c : UInt8} (h : NumScan.skipWS s = c :: cs) :
    scan s =
      if c = 126 ∨ c = 45 then do return (← BigNat.scan10 cs).map fun r => (zneg r.1, r.2)
      else if c = 43 then do return (← BigNat.scan10 cs).map fun r => (posi r.1, r.2)
      else do return (← BigNat.scan10 (c :: cs)).map fun r => (posi r.1, r.2) := by
  rw [scan, h]

/-- **Reading**: blanks, a sign, and digits; what follows must not look like another piece. -/
theorem scan_numeral {ws rest : Str} {sgn : Str × Int} {ds : List Nat}
    (hws : ∀ c ∈ ws, c = 9 ∨ c = 10 ∨ c = 32) (hsgn : sgn ∈ signs) (hne : ds ≠ [])
    (hds : ∀ d ∈ ds, d < 10) (hrest : NumScan.Stops rest) :
    scan (ws ++ sgn.1 ++ ds.map prhex ++ rest) =
      .ok (some (rep (sgn.2 * value 10 ds), rest)) := by
  have hscan := BigNat.scan10_eq hne hds hrest
  have hminus : zneg (BigNat.bn (value 10 ds)) = rep (-1 * value 10 ds) := by
    rw [zneg_bn, Int.neg_one_mul]
  have hplus : posi (BigNat.bn (value 10 ds)) = rep (1 * value 10 ds) := by
    rw [posi_bn, Int.one_mul]
  rw [List.append_assoc, List.append_assoc]
  simp only [signs, List.mem_cons, List.not_mem_nil, or_false] at hsgn
  -- by the sign, which is the first character that is no blank
  rcases hsgn with rfl | rfl | rfl | rfl
  · obtain ⟨d, es, rfl⟩ := List.exists_cons_of_ne_nil hne
    have hd : d < 10 := hds d List.mem_cons_self
    have hsign : ¬ (prhex d = 126 ∨ prhex d = 45) := by
      rintro (heq | heq)
      · exact prhex_ne hd (by decide) heq
      · exact prhex_ne hd (by decide) heq
    rw [List.map_cons, List.cons_append] at hscan ⊢
    have hblank := NumScan.code_prhex_ne (w := NumScan.wsCode) hd (by decide)
    rw [List.nil_append, scan_skipped (skipWS_blanks hws hblank _), if_neg hsign,
      if_neg (prhex_ne hd (by decide)), hscan, except_ok_bind, Option.map_some, hplus]
    rfl
  · show scan (ws ++ 43 :: (ds.map prhex ++ rest)) = _
    rw [scan_skipped (skipWS_blanks hws (by decide) _), if_neg (by decide), if_pos rfl, hscan,
      except_ok_bind, Option.map_some, hplus]
    rfl
  · show scan (ws ++ 45 :: (ds.map prhex ++ rest)) = _
    rw [scan_skipped (skipWS_blanks hws (by decide) _), if_pos (by decide), hscan, except_ok_bind,
      Option.map_some, hminus]
    rfl
  · show scan (ws ++ 126 :: (ds.map prhex ++ rest)) = _
    rw [scan_skipped (skipWS_blanks hws (by decide) _), if_pos (by decide), hscan, except_ok_bind,
      Option.map_some, hminus]
    rfl

/-- **Reading** a numeral. -/
theorem fromString_numeral (sgn : Str × Int) {ws rest : Str} {ds : List Nat}
    (hws : ∀ c ∈ ws, c = 9 ∨ c = 10 ∨ c = 32) (hsgn : sgn ∈ signs) (hne : ds ≠ [])
    (hds : ∀ d ∈ ds, d < 10) (hrest : NumScan.Stops rest) :
    fromString (ws ++ sgn.1 ++ ds.map prhex ++ rest) =
      .ok (some (rep (sgn.2 * value 10 ds))) := by
  rw [fromString, scan_numeral hws hsgn hne hds hrest, except_ok_bind, Option.map_some]
  rfl

/-- What `toString` writes, `fromString` reads. -/
theorem fromString_text (i : Int) :
    fromString (signOf i ++ tostr i.natAbs) = .ok (some (rep i)) := by
  have hds : ∀ d ∈ BigEndian.digits 10 i.natAbs, d < 10 := fun d => lt_ten_of_mem_digits
  have hread (sgn : Str × Int) (hsgn : sgn ∈ signs) :
      fromString (sgn.1 ++ tostr i.natAbs) = .ok (some (rep (sgn.2 * i.natAbs))) := by
    have h := fromString_numeral sgn (List.forall_mem_nil _) hsgn digits_ne_nil hds
      NumScan.stops_nil
    rwa [List.nil_append, List.append_nil, value_digits, ← tostr_eq] at h
  rw [signOf]
  split_ifs with hneg
  · have h := hread ([126], -1) (by decide)
    rwa [Int.neg_one_mul, show -(i.natAbs : Int) = i by omega] at h
  · have h := hread ([], 1) (by decide)
    rwa [Int.one_mul, show (i.natAbs : Int) = i by omega] at h

/-- **Integers of any size, as text**: `toString` writes the numeral, without zeros in front, and
`fromString` reads it. -/
theorem text_exact (i : Int) :
    (∀ fuel > i.natAbs, toString fuel (rep i) = pure (signOf i ++ tostr i.natAbs)) ∧
      fromString (signOf i ++ tostr i.natAbs) = .ok (some (rep i)) :=
  ⟨fun _ h => toString_rep h, fromString_text i⟩

end IntInf

end Unikernel
