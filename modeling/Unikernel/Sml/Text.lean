import Unikernel.Lib.BigEndian
import Unikernel.Sml.Basis

/-!
# Numbers and tokens as text

The parts of the basis library (`basis/Int.sml`, `StringCvt.sml`, `String.sml`,
`StrBase.sml`) with which the applications read a request and write a reply:
`Int.toString`, `Int.fromString`, `String.tokens` and `String.concatWith`.

`Int.fromString` computes with overflow checks as it goes, so it may raise on a
numeral that is too long; it does not on what `Int.toString` writes
(`intFromString_intToText`).
-/

namespace Unikernel.Sml

/-! ## Writing an integer -/

/-- `prhex`, of which only the digits are used at radix `DEC`. -/
def prhex (d : Nat) : UInt8 := UInt8.ofNat (d + 48)

/-- `h` in `conv DEC 10`: the digits of `n` in front of `res`. -/
def convH (n : Nat) (res : Str) : Str :=
  if n = 0 then res else convH (n / 10) (prhex (n % 10) :: res)
termination_by n
decreasing_by omega

def tostr (n : Nat) : Str := convH (n / 10) [prhex (n % 10)]

/-- `Int.toString`. The smallest integer has no negation, and is a case of its own. -/
def intToText (i : Int) : Str :=
  if i = minInt then lit "~9223372036854775808"
  else if i < 0 then lit "~" ++ tostr (-i).toNat
  else tostr i.toNat

/-! ## Reading an integer -/

def isDigit (c : UInt8) : Bool := decide (48 ≤ c.toNat ∧ c.toNat ≤ 57)

/-- `Char.isSpace`. -/
def isSpace (c : UInt8) : Bool := decide (9 ≤ c.toNat ∧ c.toNat ≤ 13 ∨ c.toNat = 32)

/-- `hexval`, of a digit. -/
def hexval (c : UInt8) : Int := ord c - 48

/-- `next_val` at radix `DEC`. -/
def nextVal (sgn res : Int) (c : UInt8) : Except Exn Int := do
  let m ← checked (10 * res)
  if sgn = 1 then checked (m + hexval c) else checked (m - hexval c)

/-- The digits that follow. -/
def digr (sgn res : Int) : Str → Except Exn (Int × Str)
  | [] => return (res, [])
  | c :: rest =>
    if isDigit c then do digr sgn (← nextVal sgn res c) rest else return (res, c :: rest)

/-- At least one digit. -/
def dig1 (sgn : Int) : Str → Except Exn (Option (Int × Str))
  | [] => return none
  | c :: rest =>
    if isDigit c then do return some (← digr sgn (sgn * hexval c) rest) else return none

/-- A zero may stand alone, with anything after it. -/
def hexopt (sgn : Int) (inp : Str) : Except Exn (Option (Int × Str)) :=
  match inp with
  | [] => return none
  | c :: after0 =>
    -- `0`
    if c = 48 then do
      match ← dig1 sgn after0 with
      | none => return some (0, after0)
      | some r => return some r
    else dig1 sgn inp

/-- `Int.scan DEC`, on the characters that are left. -/
def scan (source : Str) : Except Exn (Option (Int × Str)) :=
  match source.dropWhile isSpace with
  | [] => return none
  | c :: rest =>
    -- `~` or `-`, then `+`
    if c = 126 ∨ c = 45 then hexopt (-1) rest
    else if c = 43 then hexopt 1 rest
    else hexopt 1 (c :: rest)

def intFromString (s : Str) : Except Exn (Option Int) := do
  return (← scan s).map Prod.fst

/-! ## Tokens -/

/-- `h` in `tokens`: the tokens of `remains`, which does not begin with a delimiter,
behind those found before. -/
def tokensFrom (isDelim : UInt8 → Bool) (remains : Str) (res : List Str) : List Str :=
  if remains = [] then res.reverse
  else
    tokensFrom isDelim ((remains.dropWhile fun c => !isDelim c).dropWhile isDelim)
      ((remains.takeWhile fun c => !isDelim c) :: res)
termination_by remains.length
decreasing_by
  rename_i hne
  obtain ⟨c, rest, rfl⟩ := List.exists_cons_of_ne_nil hne
  have hall := (List.dropWhile_sublist (p := isDelim) (l := rest)).length_le
  have htok := (List.dropWhile_sublist (p := fun c => !isDelim c) (l := rest)).length_le
  have hdel := (List.dropWhile_sublist (p := isDelim)
    (l := rest.dropWhile fun c => !isDelim c)).length_le
  -- the first character goes with the token, or with the delimiters
  cases hc : isDelim c with
  | true => simp [hc]; omega
  | false => simp [hc]; omega

def tokens (isDelim : UInt8 → Bool) (s : Str) : List Str :=
  tokensFrom isDelim (s.dropWhile isDelim) []

def concatWith (sep : Str) : List Str → Str
  | [] => []
  | l => ((l.foldr (fun s acc => sep :: s :: acc) []).tail).flatten

/-! ## The written digits -/

open BigEndian

theorem convH_eq (n : Nat) (res : Str) :
    convH n res = (Nat.digits 10 n).reverse.map prhex ++ res := by
  induction n, res using convH.induct with
  | case1 res => rw [convH, if_pos rfl, Nat.digits_zero]; rfl
  | case2 n res hn ih =>
    rw [convH, if_neg hn, ih, Nat.digits_def' Nat.one_lt_ofNat (Nat.pos_of_ne_zero hn),
      List.reverse_cons, List.map_append, List.append_assoc]
    rfl

theorem tostr_eq (n : Nat) : tostr n = (digits 10 n).map prhex := by
  rw [tostr, convH_eq, digits, List.map_append]
  rfl

theorem tostr_ne_nil (n : Nat) : tostr n ≠ [] := by
  rw [tostr_eq, ne_eq, List.map_eq_nil_iff]
  exact digits_ne_nil

theorem lt_ten_of_mem_digits {d n : Nat} (h : d ∈ digits 10 n) : d < 10 :=
  digits_lt Nat.one_lt_ofNat h

theorem length_decimal_le {n k : Nat} (hk : 0 < k) (h : n < 10 ^ k) :
    (digits 10 n).length ≤ k :=
  length_digits_le Nat.one_lt_ofNat hk h

/-- The sign in front of a numeral. -/
def signOf (i : Int) : Str := if i < 0 then [126] else []

/-- The smallest integer is written like the others. -/
theorem intToText_eq (i : Int) : intToText i = signOf i ++ tostr i.natAbs := by
  unfold intToText signOf
  by_cases hmin : i = minInt
  · -- the text is in the source, and is the one that the others would give
    have htext : lit "~9223372036854775808" = 126 :: tostr 9223372036854775808 := by
      rw [tostr_eq]
      decide +kernel
    rw [if_pos hmin, htext, hmin, if_pos (by decide)]
    rfl
  · rw [if_neg hmin]
    by_cases hneg : i < 0
    · rw [if_pos hneg, if_pos hneg, show (-i).toNat = i.natAbs by omega]
      rfl
    · rw [if_neg hneg, if_neg hneg, show i.toNat = i.natAbs by omega, List.nil_append]

section Digit

variable {d : Nat} (h : d < 10)
include h

theorem toNat_prhex : (prhex d).toNat = d + 48 :=
  UInt8.toNat_ofNat_of_lt' (by simp only [UInt8.size]; omega)

theorem isDigit_prhex : isDigit (prhex d) = true := by
  rw [isDigit, toNat_prhex h, decide_eq_true_iff]
  omega

theorem hexval_prhex : hexval (prhex d) = d := by
  rw [hexval, ord, toNat_prhex h]
  omega

/-- A digit is no other character. -/
theorem prhex_ne {c : UInt8} (hc : c.toNat < 48 ∨ 57 < c.toNat) : prhex d ≠ c := by
  intro heq
  rw [← heq, toNat_prhex h] at hc
  omega

theorem isSpace_prhex : isSpace (prhex d) = false := by
  rw [isSpace, toNat_prhex h, decide_eq_false_iff_not]
  omega

end Digit

theorem isDigit_tostr {n : Nat} {c : UInt8} (hc : c ∈ tostr n) : isDigit c = true := by
  rw [tostr_eq, List.mem_map] at hc
  obtain ⟨d, hd, rfl⟩ := hc
  exact isDigit_prhex (lt_ten_of_mem_digits hd)

/-! ## Reading what was written -/

section Reading

variable {sgn : Int} (hsgn : sgn = 1 ∨ sgn = -1)
include hsgn

/-- What lies between zero and an integer is an integer. -/
theorem checked_between {m n : Nat} (hle : m ≤ n) (hmin : minInt ≤ sgn * n)
    (hmax : sgn * n ≤ maxInt) : checked (sgn * m) = .ok (sgn * m) := by
  rw [minInt] at hmin
  rw [maxInt] at hmax
  rcases hsgn with rfl | rfl
  · exact checked_ok (by rw [minInt]; omega) (by rw [maxInt]; omega)
  · exact checked_ok (by rw [minInt]; omega) (by rw [maxInt]; omega)

theorem nextVal_prhex {v d n : Nat} (hd : d < 10) (hle : v * 10 + d ≤ n)
    (hmin : minInt ≤ sgn * n) (hmax : sgn * n ≤ maxInt) :
    nextVal sgn (sgn * v) (prhex d) = .ok (sgn * (v * 10 + d : Nat)) := by
  have hten : 10 * (sgn * v) = sgn * (v * 10 : Nat) := by push_cast; ring
  have hmul := checked_between hsgn (show v * 10 ≤ n by omega) hmin hmax
  have hadd := checked_between hsgn hle hmin hmax
  rw [nextVal, hten, hmul, except_ok_bind, hexval_prhex hd]
  rcases hsgn with rfl | rfl
  · rw [if_pos rfl, show (1 : Int) * (v * 10 : Nat) + d = 1 * (v * 10 + d : Nat) by
      push_cast; ring, hadd]
  · rw [if_neg (by decide), show (-1 : Int) * (v * 10 : Nat) - d = -1 * (v * 10 + d : Nat) by
      push_cast; ring, hadd]

variable {rest : Str} (hrest : ∀ c ∈ rest.head?, isDigit c = false)
include hrest

/-- The digits are read one by one, those before them being `ds`. -/
theorem digr_digits {ds es : List Nat} (hes : ∀ d ∈ es, d < 10)
    (hmin : minInt ≤ sgn * value 10 (ds ++ es)) (hmax : sgn * value 10 (ds ++ es) ≤ maxInt) :
    digr sgn (sgn * value 10 ds) (es.map prhex ++ rest) =
      .ok (sgn * value 10 (ds ++ es), rest) := by
  induction es generalizing ds with
  | nil =>
    rw [List.append_nil, List.map_nil, List.nil_append]
    cases rest with
    | nil => rfl
    | cons c cs =>
      rw [digr, if_neg (by rw [hrest c rfl]; decide)]
      rfl
  | cons d es ih =>
    have hd : d < 10 := hes d List.mem_cons_self
    have hsplit : ds ++ d :: es = ds ++ [d] ++ es := by simp
    have hle : value 10 ds * 10 + d ≤ value 10 (ds ++ d :: es) := by
      rw [← value_snoc, hsplit]
      exact value_le_append Nat.ofNat_pos _ _
    rw [List.map_cons, List.cons_append, digr, if_pos (isDigit_prhex hd),
      nextVal_prhex hsgn hd hle hmin hmax, except_ok_bind, ← value_snoc, hsplit]
    rw [hsplit] at hmin hmax
    exact ih (fun d h => hes d (List.mem_cons_of_mem _ h)) hmin hmax

theorem dig1_digits {d : Nat} {es : List Nat} (hes : ∀ e ∈ d :: es, e < 10)
    (hmin : minInt ≤ sgn * value 10 (d :: es)) (hmax : sgn * value 10 (d :: es) ≤ maxInt) :
    dig1 sgn ((d :: es).map prhex ++ rest) = .ok (some (sgn * value 10 (d :: es), rest)) := by
  have hd : d < 10 := hes d List.mem_cons_self
  have htail : digr sgn (sgn * value 10 [d]) (es.map prhex ++ rest) =
      .ok (sgn * value 10 (d :: es), rest) :=
    digr_digits hsgn hrest (fun e h => hes e (List.mem_cons_of_mem _ h)) hmin hmax
  rw [value_singleton] at htail
  rw [List.map_cons, List.cons_append, dig1, if_pos (isDigit_prhex hd), hexval_prhex hd, htail]
  rfl

/-- A numeral is read to its end, leading zeros or not. -/
theorem hexopt_digits {ds : List Nat} (hne : ds ≠ []) (hds : ∀ d ∈ ds, d < 10)
    (hmin : minInt ≤ sgn * value 10 ds) (hmax : sgn * value 10 ds ≤ maxInt) :
    hexopt sgn (ds.map prhex ++ rest) = .ok (some (sgn * value 10 ds, rest)) := by
  obtain ⟨d, es, rfl⟩ := List.exists_cons_of_ne_nil hne
  have hd : d < 10 := hds d List.mem_cons_self
  by_cases hzero : d = 0
  · subst hzero
    have hval : value 10 (0 :: es) = value 10 es := by
      rw [← List.singleton_append, value_append, value_singleton, Nat.zero_mul, Nat.zero_add]
    rw [hval] at hmin hmax ⊢
    rw [List.map_cons, List.cons_append, hexopt, if_pos (by decide)]
    cases es with
    | nil =>
      have hstop : dig1 sgn rest = .ok none := by
        cases rest with
        | nil => rfl
        | cons c cs =>
          rw [dig1, if_neg (by rw [hrest c rfl]; decide)]
          rfl
      rw [value_nil, Nat.cast_zero, Int.mul_zero, List.map_nil, List.nil_append, hstop]
      rfl
    | cons e es =>
      rw [dig1_digits hsgn hrest (fun e h => hds e (List.mem_cons_of_mem _ h)) hmin hmax]
      rfl
  · have hchar : prhex d ≠ 48 := by
      intro heq
      have hnat := congrArg UInt8.toNat heq
      rw [toNat_prhex hd] at hnat
      exact hzero (by simpa using hnat)
    rw [List.map_cons, List.cons_append, hexopt, if_neg hchar, ← List.cons_append, ← List.map_cons]
    exact dig1_digits hsgn hrest hds hmin hmax

end Reading

/-- Blanks in front are passed over, and what follows the last digit is left. -/
theorem scan_digits {ws rest : Str} {ds : List Nat} (hws : ∀ c ∈ ws, isSpace c = true)
    (hne : ds ≠ []) (hds : ∀ d ∈ ds, d < 10) (hrest : ∀ c ∈ rest.head?, isDigit c = false)
    (hmax : (value 10 ds : Int) ≤ maxInt) :
    scan (ws ++ ds.map prhex ++ rest) = .ok (some ((value 10 ds : Int), rest)) := by
  have hread : hexopt 1 (ds.map prhex ++ rest) = .ok (some (1 * (value 10 ds : Int), rest)) :=
    hexopt_digits (.inl rfl) hrest hne hds (by rw [minInt]; omega) (by omega)
  rw [Int.one_mul] at hread
  obtain ⟨d, es, rfl⟩ := List.exists_cons_of_ne_nil hne
  have hd : d < 10 := hds d List.mem_cons_self
  have hspace : ¬ isSpace (prhex d) = true := by
    rw [isSpace_prhex hd]
    exact Bool.false_ne_true
  have hsign : ¬ (prhex d = 126 ∨ prhex d = 45) := by
    rintro (heq | heq)
    · exact prhex_ne hd (by decide) heq
    · exact prhex_ne hd (by decide) heq
  have hplus : prhex d ≠ 43 := prhex_ne hd (by decide)
  rw [List.map_cons, List.cons_append] at hread
  rw [List.append_assoc, List.map_cons, List.cons_append, scan, List.dropWhile_append_of_pos hws,
    List.dropWhile_cons_of_neg hspace]
  show (if _ then _ else if _ then _ else _) = _
  rw [if_neg hsign, if_neg hplus]
  exact hread

theorem no_digit_nil : ∀ c ∈ ([] : Str).head?, isDigit c = false := nofun

theorem scan_negative {ds : List Nat} (hne : ds ≠ []) (hds : ∀ d ∈ ds, d < 10)
    (hmin : minInt ≤ -(value 10 ds : Int)) :
    scan (126 :: ds.map prhex) = .ok (some (-(value 10 ds : Int), [])) := by
  have hread : hexopt (-1) (ds.map prhex ++ []) = .ok (some (-1 * (value 10 ds : Int), [])) :=
    hexopt_digits (.inr rfl) no_digit_nil hne hds (by omega) (by rw [maxInt]; omega)
  rw [Int.neg_one_mul, List.append_nil] at hread
  exact hread

/-- **Integers as text**: what `Int.toString` writes, `Int.fromString` reads. -/
theorem intFromString_intToText {i : Int} (hmin : minInt ≤ i) (hmax : i ≤ maxInt) :
    intFromString (intToText i) = .ok (some i) := by
  have hds : ∀ d ∈ digits 10 i.natAbs, d < 10 := fun d => lt_ten_of_mem_digits
  have hval : value 10 (digits 10 i.natAbs) = i.natAbs := value_digits 10 i.natAbs
  have hscan : scan (intToText i) = .ok (some (i, [])) := by
    rw [intToText_eq, tostr_eq, signOf]
    split_ifs with hneg
    · rw [List.singleton_append, scan_negative digits_ne_nil hds (by omega), hval,
        show -(i.natAbs : Int) = i by omega]
    · have hread := scan_digits (List.forall_mem_nil _) digits_ne_nil hds no_digit_nil (by omega)
      rwa [List.nil_append, List.append_nil, hval, show (i.natAbs : Int) = i by omega] at hread
  rw [intFromString, hscan]
  rfl

/-! ## Cutting up what was joined -/

/-- A token: not empty, and without delimiters. -/
def IsToken (isDelim : UInt8 → Bool) (s : Str) : Prop := s ≠ [] ∧ ∀ x ∈ s, isDelim x = false

/-- What `Int.toString` writes is a token between spaces. -/
theorem isToken_intToText (i : Int) : IsToken (fun c => decide (c = 32)) (intToText i) := by
  rw [intToText_eq, signOf]
  refine ⟨List.append_ne_nil_of_right_ne_nil _ (tostr_ne_nil _), ?_⟩
  intro c hc
  rw [decide_eq_false_iff_not]
  rintro rfl
  rcases List.mem_append.mp hc with hsign | hdigit
  · split_ifs at hsign
    · cases List.mem_singleton.mp hsign
    · cases hsign
  · cases isDigit_tostr hdigit

theorem concatWith_cons (sep s : Str) (l : List Str) :
    concatWith sep (s :: l) = s ++ l.flatMap (sep ++ ·) := by
  have hfold (l : List Str) : (l.foldr (fun s acc => sep :: s :: acc) []).flatten =
      l.flatMap (sep ++ ·) := by
    induction l with
    | nil => rfl
    | cons t l ih =>
      rw [List.foldr_cons, List.flatten_cons, List.flatten_cons, ih, List.flatMap_cons,
        List.append_assoc]
  show ((s :: l).foldr (fun s acc => sep :: s :: acc) []).tail.flatten = _
  rw [List.foldr_cons, List.tail_cons, List.flatten_cons, hfold]

section Tokens

variable {isDelim : UInt8 → Bool} {c : UInt8}

/-- Nothing is dropped in front of a token. -/
theorem IsToken.dropWhile_append {s : Str} (h : IsToken isDelim s) (rest : Str) :
    (s ++ rest).dropWhile isDelim = s ++ rest := by
  obtain ⟨x, t, rfl⟩ := List.exists_cons_of_ne_nil h.1
  rw [List.cons_append, List.dropWhile_cons_of_neg (by rw [h.2 x List.mem_cons_self]; decide)]

theorem tokensFrom_joined (hc : isDelim c = true) {s : Str} {l res : List Str}
    (hs : IsToken isDelim s) (hl : ∀ t ∈ l, IsToken isDelim t) :
    tokensFrom isDelim (s ++ l.flatMap ([c] ++ ·)) res = res.reverse ++ (s :: l) := by
  induction l generalizing s res with
  | nil =>
    have hall : ∀ x ∈ s, (!isDelim x) = true := fun x hx => by rw [hs.2 x hx]; rfl
    rw [List.flatMap_nil, tokensFrom, if_neg (List.append_ne_nil_of_left_ne_nil hs.1 _),
      List.takeWhile_append_of_pos hall, List.dropWhile_append_of_pos hall, List.takeWhile_nil,
      List.dropWhile_nil, List.dropWhile_nil, List.append_nil, tokensFrom, if_pos rfl,
      List.reverse_cons]
  | cons t l ih =>
    have hall : ∀ x ∈ s, (!isDelim x) = true := fun x hx => by rw [hs.2 x hx]; rfl
    have hstop : (!isDelim c) = false := by rw [hc]; rfl
    have ht := hl t List.mem_cons_self
    rw [List.flatMap_cons, List.append_assoc, List.singleton_append, tokensFrom,
      if_neg (List.append_ne_nil_of_left_ne_nil hs.1 _), List.takeWhile_append_of_pos hall,
      List.dropWhile_append_of_pos hall, List.takeWhile_cons_of_neg (by rw [hstop]; decide),
      List.dropWhile_cons_of_neg (by rw [hstop]; decide), List.dropWhile_cons_of_pos hc,
      ht.dropWhile_append, ih ht fun u hu => hl u (List.mem_cons_of_mem _ hu), List.append_nil,
      List.reverse_cons, List.append_assoc, List.singleton_append]

/-- **Tokens**: tokens joined by a delimiter are the tokens of the string. -/
theorem tokens_concatWith (hc : isDelim c = true) {l : List Str}
    (hl : ∀ s ∈ l, IsToken isDelim s) : tokens isDelim (concatWith [c] l) = l := by
  cases l with
  | nil =>
    rw [concatWith, tokens, List.dropWhile_nil, tokensFrom, if_pos rfl, List.reverse_nil]
  | cons s l =>
    have hs := hl s List.mem_cons_self
    rw [concatWith_cons, tokens, hs.dropWhile_append,
      tokensFrom_joined hc hs fun t ht => hl t (List.mem_cons_of_mem _ ht)]
    rfl

end Tokens

end Unikernel.Sml
