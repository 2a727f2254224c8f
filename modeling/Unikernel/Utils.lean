import Unikernel.Sml.Basis
import Unikernel.Lib.BigEndian

/-!
# utilslib

The helpers every codec is built from (`Libs/utilslib/utilslib.sml`).

- `intToRawbyteString i nb`: the big-endian writer. It recurses downward over
  the width; only the last digit (`Chr` on what is left of `i`) is checked.
- `convertRawBytes s`: the big-endian reader, a fold with 64-bit arithmetic.
- `getLBits`, `getRBits`, `setLBits`: sub-byte fields by `div`, `mod` and
  multiplication with powers of two.

Both loops are characterized once, by the value `beValue` of a byte string:
`intToRawbyteString_eq_ok_iff` and `convertRawBytes_eq`. `integer_codec` puts
the two together.
-/

namespace Unikernel

open Sml

/-- The infix power operator. All its uses have base 2 or 10 and a small
exponent, where `Math.pow` and `round` are exact. -/
def pow (x : Int) (y : Nat) : Int := x ^ y

/-- The first element satisfying `f`, with its index. -/
def findi {α : Type} (f : α → Bool) (l : List α) : Option (Nat × α) :=
  go l 0
where
  go : List α → Nat → Option (Nat × α)
    | [], _ => none
    | h :: t, i => if f h then some (i, h) else go t (i + 1)

/-- The bytes as numbers. -/
def toByteList (s : Str) : List Int := s.map ord

def rawBytesString (b : List Int) : String :=
  b.foldl (fun acc x => if acc = "" then intToString x else acc ++ " " ++ intToString x) ""

/-- Back to a string; a number that is no byte raises `Chr`. -/
def byteListToString (b : List Int) : Except Exn Str := b.mapM chr

/-- The inner loop of `intToRawbyteString`. -/
def hIntToRawbyteString : Int → Nat → Str → Except Exn Str
  | i, 1, acc => do return (← chr i) :: acc
  | _, 0, _ => .ok []
  | i, nb + 1, acc => do
    let c ← chr (i % 256)
    hIntToRawbyteString (i / 256) nb (c :: acc)

/-- The last `nb` bytes of the number, the highest first. -/
def intToRawbyteString (i : Int) (nb : Nat) : Except Exn Str :=
  hIntToRawbyteString i nb []

/-- The `nb` left-most bits of an octet (`nb ≤ 8`). -/
def getLBits (octet : Int) (nb : Nat) : Int := octet / pow 2 (8 - nb)

def getRBits (octet : Int) (nb : Nat) : Int := octet % pow 2 nb

def setLBits (num : Int) (nb : Nat) : Except Exn Int := checked (num * pow 2 (8 - nb))

/-- The number that the bytes make up; from eight bytes on it may raise `Overflow`. -/
def convertRawBytes (s : Str) : Except Exn Int :=
  (toByteList s).foldlM (fun acc c => do checked ((← checked (acc * 256)) + c)) 0

/-- `String.substring (s, i, n) |> convertRawBytes`, how the decoders read a number. -/
def intField (s : Str) (i n : Nat) : Except Exn Int := do convertRawBytes (← substring s i n)

/-- `String.substring (s, i, n) |> toByteList`, how the decoders read an address. -/
def bytesField (s : Str) (i n : Nat) : Except Exn (List Int) := do
  return toByteList (← substring s i n)

/-! ## Byte lists -/

@[simp] theorem length_toByteList (s : Str) : (toByteList s).length = s.length :=
  List.length_map ..

/-- They are bytes. -/
theorem mem_toByteList {s : Str} {i : Int} (h : i ∈ toByteList s) : 0 ≤ i ∧ i < 256 := by
  obtain ⟨c, -, rfl⟩ := List.mem_map.mp h
  exact ⟨ord_nonneg c, ord_lt c⟩

@[simp] theorem byteListToString_nil : byteListToString [] = .ok [] := rfl

theorem byteListToString_cons (i : Int) (b : List Int) :
    byteListToString (i :: b) = do
      let c ← chr i
      let s ← byteListToString b
      return c :: s := by
  simp [byteListToString, List.mapM_cons]

/-- Writing a byte list undoes reading it, and accepts nothing but byte lists. -/
theorem byteListToString_eq_ok_iff :
    ∀ {b : List Int} {s : Str}, byteListToString b = .ok s ↔ b = toByteList s
  | [], s => by
    rw [byteListToString_nil, eq_comm, toByteList, eq_comm, List.nil_eq, List.map_eq_nil_iff]
    constructor
    · intro h; cases h; rfl
    · rintro rfl; rfl
  | i :: b, s => by
    rw [byteListToString_cons]
    simp only [except_bind_eq_ok, byteListToString_eq_ok_iff, chr_eq_ok_iff]
    constructor
    · rintro ⟨c, rfl, t, rfl, h⟩
      cases h
      rfl
    · intro h
      cases s with
      | nil => cases h
      | cons c t =>
        cases h
        exact ⟨c, rfl, t, rfl, rfl⟩

@[simp] theorem byteListToString_toByteList (s : Str) :
    byteListToString (toByteList s) = .ok s :=
  byteListToString_eq_ok_iff.mpr rfl

/-- No two strings have the same numbers. -/
theorem toByteList_injective : Function.Injective toByteList := by
  intro s t h
  have hs := byteListToString_toByteList s
  rw [h, byteListToString_toByteList] at hs
  exact (Except.ok.inj hs).symm

/-- Every list of byte values is the byte list of a string of its length. -/
theorem exists_toByteList {b : List Int} (h : ∀ i ∈ b, 0 ≤ i ∧ i < 256) :
    ∃ s : Str, b = toByteList s := by
  induction b with
  | nil => exact ⟨[], rfl⟩
  | cons i b ih =>
    obtain ⟨s, rfl⟩ := ih fun j hj => h j (List.mem_cons_of_mem _ hj)
    obtain ⟨h0, h1⟩ := h i List.mem_cons_self
    have hi := chr_eq_ok_iff.mp (chr_ok h0 h1)
    exact ⟨_ :: s, congrArg (· :: toByteList s) hi⟩

/-- A list of `n` byte values, what the sources call a MAC or IP address. -/
def IsBytes (n : Nat) (b : List Int) : Prop :=
  b.length = n ∧ ∀ i ∈ b, 0 ≤ i ∧ i < 256

instance (n : Nat) (b : List Int) : Decidable (IsBytes n b) :=
  inferInstanceAs (Decidable (b.length = n ∧ ∀ i ∈ b, 0 ≤ i ∧ i < 256))

/-- As many as the string is long, -/
theorem isBytes_toByteList (s : Str) : IsBytes s.length (toByteList s) :=
  ⟨length_toByteList s, fun _ h => mem_toByteList h⟩

/-- and every list of that many bytes is one of a string. -/
theorem IsBytes.exists_str {n : Nat} {b : List Int} (h : IsBytes n b) :
    ∃ s : Str, b = toByteList s ∧ s.length = n := by
  obtain ⟨s, rfl⟩ := exists_toByteList h.2
  exact ⟨s, rfl, by simpa using h.1⟩

/-- Peel four bytes off a string that is known to be long enough. -/
theorem exists_four {s : Str} {n : Nat} (h : n + 4 ≤ s.length) :
    ∃ a b c d t, s = a :: b :: c :: d :: t ∧ n ≤ t.length := by
  match s, h with
  | a :: b :: c :: d :: t, h => exact ⟨a, b, c, d, t, rfl, by simpa using h⟩
  | [], h | [_], h | [_, _], h | [_, _, _], h =>
    simp only [List.length_cons, List.length_nil] at h
    omega

/-! ## The value of a byte string -/

/-- The big-endian value of a byte string. -/
def beValue (s : Str) : Nat := BigEndian.value 256 (s.map UInt8.toNat)

@[simp] theorem beValue_nil : beValue [] = 0 := rfl

/-- The byte at the end counts least. -/
theorem beValue_snoc (s : Str) (c : UInt8) : beValue (s ++ [c]) = beValue s * 256 + c.toNat := by
  simp [beValue, BigEndian.value_snoc]

theorem beValue_one (a : UInt8) : beValue [a] = a.toNat := by
  simpa using beValue_snoc [] a

theorem beValue_two (a b : UInt8) : beValue [a, b] = a.toNat * 256 + b.toNat := by
  simpa [beValue_one] using beValue_snoc [a] b

theorem toNat_mem_lt {s : Str} : ∀ d ∈ s.map UInt8.toNat, d < 256 := by
  intro d hd
  obtain ⟨c, -, rfl⟩ := List.mem_map.mp hd
  exact c.toNat_lt

/-- As many values as there are strings of the length. -/
theorem beValue_lt (s : Str) : beValue s < 256 ^ s.length := by
  simpa [beValue] using BigEndian.value_lt (b := 256) (by decide) (toNat_mem_lt (s := s))

/-! ## The writer -/

theorem hIntToRawbyteString_one (i : Int) (acc : Str) :
    hIntToRawbyteString i 1 acc = do return (← chr i) :: acc := rfl

/-- One step of the writer: a digit that always fits, then the rest. -/
theorem hIntToRawbyteString_step (i : Int) (nb : Nat) (acc : Str) :
    ∃ c : UInt8, ord c = i % 256 ∧
      hIntToRawbyteString i (nb + 2) acc = hIntToRawbyteString (i / 256) (nb + 1) (c :: acc) := by
  have hc := chr_ok (i := i % 256) (by omega) (by omega)
  refine ⟨UInt8.ofNat (i % 256).toNat, (chr_eq_ok_iff.mp hc).symm, ?_⟩
  show (do let c ← chr (i % 256); hIntToRawbyteString (i / 256) (nb + 1) (c :: acc)) = _
  rw [hc]
  rfl

/-- The loop of the writer puts `nb` bytes of value `i` before `acc`. -/
theorem hIntToRawbyteString_eq_ok_iff (nb : Nat) :
    ∀ (i : Int) (acc s : Str), hIntToRawbyteString i (nb + 1) acc = .ok s ↔
      ∃ t : Str, s = t ++ acc ∧ t.length = nb + 1 ∧ (beValue t : Int) = i := by
  induction nb with
  | zero =>
    intro i acc s
    rw [hIntToRawbyteString_one]
    simp only [except_bind_eq_ok, chr_eq_ok_iff]
    constructor
    · rintro ⟨c, rfl, h⟩
      cases h
      exact ⟨[c], rfl, rfl, by rw [beValue_one]; rfl⟩
    · rintro ⟨t, rfl, hlen, rfl⟩
      obtain ⟨c, rfl⟩ := List.length_eq_one_iff.mp hlen
      exact ⟨c, by rw [beValue_one]; rfl, rfl⟩
  | succ nb ih =>
    intro i acc s
    obtain ⟨c, hc, hstep⟩ := hIntToRawbyteString_step i nb acc
    rw [hstep, ih]
    simp only [ord] at hc
    constructor
    · rintro ⟨t, rfl, hlen, hval⟩
      refine ⟨t ++ [c], by simp, by simp [hlen], ?_⟩
      rw [beValue_snoc]
      omega
    · rintro ⟨t, rfl, hlen, hval⟩
      obtain ⟨u, d, rfl⟩ : ∃ u d, t = u ++ [d] :=
        (List.eq_nil_or_concat' t).resolve_left (by rintro rfl; simp at hlen)
      rw [beValue_snoc] at hval
      have hd := d.toNat_lt
      have hdc : d = c := UInt8.toNat_inj.mp (by omega)
      subst hdc
      exact ⟨u, by simp, by simpa using hlen, by omega⟩

/-- **The writer**: it returns the `nb` bytes whose value is `i`, if there are any. -/
theorem intToRawbyteString_eq_ok_iff {i : Int} {nb : Nat} {s : Str} (hnb : 0 < nb) :
    intToRawbyteString i nb = .ok s ↔ s.length = nb ∧ (beValue s : Int) = i := by
  obtain ⟨nb, rfl⟩ := Nat.exists_eq_succ_of_ne_zero hnb.ne'
  rw [intToRawbyteString, hIntToRawbyteString_eq_ok_iff]
  constructor
  · rintro ⟨t, rfl, hlen, hval⟩
    rw [List.append_nil]
    exact ⟨hlen, hval⟩
  · rintro ⟨hlen, hval⟩
    exact ⟨s, (List.append_nil s).symm, hlen, hval⟩

/-- The loop succeeds on every value that fits the width. -/
theorem hIntToRawbyteString_succeeds (nb : Nat) :
    ∀ (i : Int) (acc : Str), 0 ≤ i → i < 256 ^ (nb + 1) →
      ∃ s, hIntToRawbyteString i (nb + 1) acc = .ok s := by
  induction nb with
  | zero =>
    intro i acc h0 h1
    rw [hIntToRawbyteString_one, chr_ok h0 (by simpa using h1)]
    exact ⟨_, rfl⟩
  | succ nb ih =>
    intro i acc h0 h1
    obtain ⟨c, -, hstep⟩ := hIntToRawbyteString_step i nb acc
    rw [hstep]
    rw [pow_succ] at h1
    exact ih _ _ (by omega) (by omega)

/-- The loop fails with `Chr` when something of the value is left at the last digit. -/
theorem hIntToRawbyteString_fails (nb : Nat) :
    ∀ (i : Int) (acc : Str), i < 0 ∨ 256 ^ (nb + 1) ≤ i →
      hIntToRawbyteString i (nb + 1) acc = .error .chr := by
  induction nb with
  | zero =>
    intro i acc h
    rw [hIntToRawbyteString_one, chr_error (by simpa using h)]
    rfl
  | succ nb ih =>
    intro i acc h
    obtain ⟨c, -, hstep⟩ := hIntToRawbyteString_step i nb acc
    rw [hstep]
    rw [pow_succ] at h
    exact ih _ _ (by omega)

/-- Numbers that need more bytes, or are negative. -/
theorem intToRawbyteString_fails {i : Int} {nb : Nat} (hnb : 0 < nb)
    (h : i < 0 ∨ 256 ^ nb ≤ i) : intToRawbyteString i nb = .error .chr := by
  obtain ⟨nb, rfl⟩ := Nat.exists_eq_succ_of_ne_zero hnb.ne'
  exact hIntToRawbyteString_fails nb i [] h

/-- Every value that fits is written, as bytes of that value. -/
theorem intToRawbyteString_ok {i : Int} {nb : Nat} (hnb : 0 < nb) (h0 : 0 ≤ i)
    (h1 : i < 256 ^ nb) :
    ∃ s : Str, intToRawbyteString i nb = .ok s ∧ s.length = nb ∧ (beValue s : Int) = i := by
  have hs : ∃ s, intToRawbyteString i nb = .ok s := by
    obtain ⟨nb, rfl⟩ := Nat.exists_eq_succ_of_ne_zero hnb.ne'
    exact hIntToRawbyteString_succeeds nb i [] h0 h1
  obtain ⟨s, hs⟩ := hs
  exact ⟨s, hs, (intToRawbyteString_eq_ok_iff hnb).mp hs⟩

/-- The writer succeeds exactly on the values that fit the width. -/
theorem intToRawbyteString_succeeds_iff {i : Int} {nb : Nat} (hnb : 0 < nb) :
    (∃ s, intToRawbyteString i nb = .ok s) ↔ 0 ≤ i ∧ i < 256 ^ nb := by
  constructor
  · rintro ⟨s, hs⟩
    by_contra hbad
    rw [intToRawbyteString_fails hnb (by omega)] at hs
    cases hs
  · rintro ⟨h0, h1⟩
    obtain ⟨s, hs, -⟩ := intToRawbyteString_ok hnb h0 h1
    exact ⟨s, hs⟩

/-- Writing the value of a non-empty string gives the string back. -/
theorem intToRawbyteString_beValue {s : Str} (hs : 0 < s.length) :
    intToRawbyteString (beValue s) s.length = .ok s :=
  (intToRawbyteString_eq_ok_iff hs).mpr ⟨rfl, rfl⟩

/-! ## The reader -/

/-- **The reader**: the value of the string, when it is a 64-bit integer. -/
theorem convertRawBytes_eq (s : Str) :
    convertRawBytes s = checked (beValue s) := by
  induction s using List.reverseRecOn with
  | nil => rfl
  | append_singleton s c ih =>
    have hfold : convertRawBytes (s ++ [c]) = (do
        let acc ← convertRawBytes s
        checked ((← checked (acc * 256)) + ord c)) := by
      simp [convertRawBytes, List.foldlM_append, toByteList]
    rw [hfold, ih, beValue_snoc]
    have hc := c.toNat_lt
    -- an overflow of an intermediate result is one of the final result
    by_cases h1 : (beValue s : Int) < 2 ^ 63
    · rw [checked_small (by omega) h1, except_ok_bind]
      by_cases h2 : (beValue s : Int) * 256 < 2 ^ 63
      · rw [checked_small (by omega) h2]
        simp [ord]
      · rw [checked_error (by omega), checked_error (by push_cast; omega)]
        rfl
    · rw [checked_error (by omega), checked_error (by push_cast; omega)]
      rfl

/-- Within the machine integers. -/
theorem convertRawBytes_ok {s : Str} (h : beValue s < 2 ^ 63) :
    convertRawBytes s = .ok (beValue s) := by
  rw [convertRawBytes_eq]
  exact checked_small (Int.natCast_nonneg _) (by exact_mod_cast h)

/-- No overflow below eight bytes. -/
theorem convertRawBytes_small {s : Str} (h : s.length ≤ 4) :
    convertRawBytes s = .ok (beValue s) := by
  have hlt := beValue_lt s
  have hpow : 256 ^ s.length ≤ 256 ^ 4 := Nat.pow_le_pow_right Nat.ofNat_pos h
  exact convertRawBytes_ok (by omega)

/-! ## The codec -/

theorem intToRawbyteString_raises_iff {i : Int} {nb : Nat} (hnb : 0 < nb) :
    (∃ e, intToRawbyteString i nb = .error e) ↔ i < 0 ∨ 256 ^ nb ≤ i := by
  constructor
  · rintro ⟨e, he⟩
    by_contra hfits
    obtain ⟨s, hs, -⟩ := intToRawbyteString_ok hnb (by omega) (by omega : i < 256 ^ nb)
    rw [hs] at he
    cases he
  · intro h
    exact ⟨_, intToRawbyteString_fails hnb h⟩

theorem convertRawBytes_raises_iff {s : Str} :
    (∃ e, convertRawBytes s = .error e) ↔ 2 ^ 63 ≤ beValue s := by
  constructor
  · rintro ⟨e, he⟩
    by_contra hsmall
    rw [convertRawBytes_ok (Nat.lt_of_not_le hsmall)] at he
    cases he
  · intro h
    rw [convertRawBytes_eq]
    exact ⟨_, checked_error (by exact_mod_cast h)⟩

/-- **The integer codec**: each direction raises exactly where there is nothing
to return, and is undone by the other one. -/
theorem integer_codec (i : Int) {nb : Nat} (hnb : 1 ≤ nb) {s : Str} (hs : s ≠ []) :
    ((∃ e, intToRawbyteString i nb = .error e) ↔ i < 0 ∨ 256 ^ nb ≤ i) ∧
    (0 ≤ i → i < 256 ^ nb → ∃ t, intToRawbyteString i nb = .ok t ∧ t.length = nb ∧
      (i < 2 ^ 63 → convertRawBytes t = .ok i)) ∧
    ((∃ e, convertRawBytes s = .error e) ↔ 2 ^ 63 ≤ beValue s) ∧
    (beValue s < 2 ^ 63 → ∃ j, convertRawBytes s = .ok j ∧
      intToRawbyteString j s.length = .ok s) := by
  refine ⟨intToRawbyteString_raises_iff hnb, ?_, convertRawBytes_raises_iff, ?_⟩
  · intro h0 h1
    obtain ⟨t, ht, hlen, hval⟩ := intToRawbyteString_ok hnb h0 h1
    refine ⟨t, ht, hlen, ?_⟩
    intro hsmall
    rw [← hval] at hsmall ⊢
    exact convertRawBytes_ok (by exact_mod_cast hsmall)
  · intro hsmall
    exact ⟨_, convertRawBytes_ok hsmall, intToRawbyteString_beValue (List.length_pos_iff.mpr hs)⟩

theorem integer_codec_eight_bytes :
    (∃ t, intToRawbyteString 0x123456789ABCDEF0 8 = .ok t ∧ t.length = 8 ∧
      convertRawBytes t = .ok 0x123456789ABCDEF0) ∧
    ∃ j, convertRawBytes [0, 255] = .ok j ∧ intToRawbyteString j 2 = .ok [0, 255] := by
  obtain ⟨-, hwrite, -, hread⟩ :=
    integer_codec 0x123456789ABCDEF0 (show 1 ≤ 8 by omega) (List.cons_ne_nil 0 [255])
  constructor
  · obtain ⟨t, ht, hlen, hback⟩ := hwrite (by omega) (by omega)
    exact ⟨t, ht, hlen, hback (by omega)⟩
  · exact hread (by rw [beValue_two]; decide)

/-! ## Fields of one and two bytes

Headers are made of these; the codec lemmas work on the explicit bytes. -/

@[simp] theorem intToRawbyteString_byte (a : UInt8) :
    intToRawbyteString (a.toNat : Int) 1 = .ok [a] :=
  (intToRawbyteString_eq_ok_iff (by decide)).mpr ⟨rfl, by rw [beValue_one]⟩

@[simp] theorem intToRawbyteString_bytes (a b : UInt8) :
    intToRawbyteString ((a.toNat : Int) * 256 + (b.toNat : Int)) 2 = .ok [a, b] :=
  (intToRawbyteString_eq_ok_iff (by decide)).mpr ⟨rfl, by rw [beValue_two]; push_cast; rfl⟩

@[simp] theorem convertRawBytes_byte (a : UInt8) :
    convertRawBytes [a] = .ok (a.toNat : Int) := by
  rw [convertRawBytes_small (by simp), beValue_one]

@[simp] theorem convertRawBytes_bytes (a b : UInt8) :
    convertRawBytes [a, b] = .ok ((a.toNat : Int) * 256 + (b.toNat : Int)) := by
  rw [convertRawBytes_small (by simp), beValue_two]
  push_cast
  rfl

/-- A number of eight bits is a byte, -/
theorem exists_byte {i : Int} (h0 : 0 ≤ i) (h1 : i < 256) : ∃ a : UInt8, i = (a.toNat : Int) :=
  ⟨_, chr_eq_ok_iff.mp (chr_ok h0 h1)⟩

/-- and one of sixteen bits two of them. -/
theorem exists_bytes {i : Int} (h0 : 0 ≤ i) (h1 : i < 65536) :
    ∃ a b : UInt8, i = (a.toNat : Int) * 256 + (b.toNat : Int) := by
  obtain ⟨a, ha⟩ := exists_byte (i := i / 256) (by omega) (by omega)
  obtain ⟨b, hb⟩ := exists_byte (i := i % 256) (by omega) (by omega)
  exact ⟨a, b, by omega⟩

theorem byte_lt (a : UInt8) : (a.toNat : Int) < 256 := by
  have := a.toNat_lt
  omega

theorem bytes_range (a b : UInt8) :
    0 ≤ (a.toNat * 256 + b.toNat : Int) ∧ (a.toNat * 256 + b.toNat : Int) < 65536 := by
  have ha := byte_lt a
  have hb := byte_lt b
  omega

end Unikernel
