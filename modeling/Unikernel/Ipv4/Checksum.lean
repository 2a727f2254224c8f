import Unikernel.Ipv4.Fields
import Unikernel.Lib.OnesComplement

/-!
# The header checksum

What a receiver does with the header `encode` wrote: it adds the ten 16-bit
words up, folding the carry in until none is left, and expects all ones.
`ipv4Checksum` folds the carry of its own sum in only once, and what is left
after that is lost in the mask. So the receiver is content exactly when one
folding is enough (`internetSum_encode_iff`).
-/

namespace Unikernel.IPv4

open Sml OnesComplement

/-- The big-endian 16-bit words of a string, padded with a zero byte. -/
def words : Str → List Nat
  | [] => []
  | [a] => [a.toNat * 256]
  | a :: b :: t => (a.toNat * 256 + b.toNat) :: words t

/-- The one's-complement sum of the words of a string. -/
def internetSum (s : Str) : Nat := fold 65536 (words s).sum

/-- The assigned number of a protocol. -/
def Protocol.number : Protocol → Int
  | .icmp => 1
  | .tcp => 6
  | .udp => 17
  | .unknown => 0

/-- The plain sum of the header words other than the checksum. -/
def Header.wordSum (h : Header) (payload : Str) : Int :=
  ((64 + h.ihl) * 256 + (h.dscp * 4 + h.ecn)) + (20 + payload.length) + h.identification +
    (h.flags * 8192 + h.fragmentOffset) + (h.timeToLive * 256 + h.protocol.number) +
    (toHextets h.sourceAddr).sum + (toHextets h.destAddr).sum

/-! ## The computed checksum -/

/-- The word operations of `ipv4Checksum` are a complement to 16 bits. -/
theorem complement_word (t : Nat) :
    (BitVec.ofInt 64 0xFFFF &&& ~~~ BitVec.ofInt 64 (t : Int) : BitVec 64).toNat =
      65535 - t % 65536 := by
  have hmask : (BitVec.ofInt 64 0xFFFF : BitVec 64).toNat = 2 ^ 16 - 1 := by decide
  rw [BitVec.toNat_and, BitVec.toNat_not, BitVec.ofInt_natCast, BitVec.toNat_ofNat, hmask,
    Nat.and_comm, Nat.and_two_pow_sub_one_eq_mod]
  omega

/-- **`ipv4Checksum`** is the complement of the sum with one carry folded in. -/
theorem ipv4Checksum_eq {l : List Int} {n : Nat} (hn : l.sum = n) :
    ipv4Checksum l = .ok (complementOnce 65536 n : Nat) := by
  have hsum : l.foldl (· + ·) 0 = (n : Int) := by rw [← List.sum_eq_foldl, hn]
  have hfolded : (n : Int) - (n - (n : Int) % 65536) + (n - (n : Int) % 65536) / 65536 =
      (n % 65536 + n / 65536 : Nat) := by
    push_cast
    omega
  simp only [ipv4Checksum, hsum]
  show checked (BitVec.ofInt 64 0xFFFF &&& ~~~ BitVec.ofInt 64
    ((n : Int) - (n - (n : Int) % 65536) + (n - (n : Int) % 65536) / 65536) : BitVec 64).toNat = _
  rw [hfolded, complement_word]
  exact checked_small (by omega) (by omega)

/-! ## Words -/

section Words

variable {a b s : Str}

theorem words_append (ha : a.length % 2 = 0) : words (a ++ b) = words a ++ words b := by
  fun_induction words a with
  | case1 => rfl
  | case2 x => simp at ha
  | case3 x y t ih =>
    simp only [List.length_cons] at ha
    rw [List.cons_append, List.cons_append, words, ih (by omega), List.cons_append]

/-- On an even number of bytes `toHextets` gives the words. -/
theorem toHextets_words (hs : s.length % 2 = 0) :
    (toHextets (toByteList s)).sum = ((words s).sum : Int) := by
  fun_induction words s with
  | case1 => rfl
  | case2 x => simp at hs
  | case3 x y t ih =>
    simp only [List.length_cons] at hs
    have hstep : toHextets (toByteList (x :: y :: t)) =
        (x.toNat * 256 + y.toNat : Int) :: toHextets (toByteList t) := rfl
    rw [hstep, List.sum_cons, List.sum_cons, ih (by omega)]
    push_cast
    rfl

theorem sum_words_le (s : Str) : (words s).sum ≤ 65535 * s.length := by
  fun_induction words s with
  | case1 => rfl
  | case2 x =>
    have hx := x.toNat_lt
    simp only [List.sum_cons, List.sum_nil, List.length_cons, List.length_nil]
    omega
  | case3 x y t ih =>
    have hx := x.toNat_lt
    have hy := y.toNat_lt
    simp only [List.sum_cons, List.length_cons]
    omega

/-- Two bytes in the middle add their word to the sum. -/
theorem sum_words_insert (ha : a.length % 2 = 0) (x y : UInt8) :
    (words (a ++ ([x, y] ++ b))).sum =
      (words (a ++ ([0, 0] ++ b))).sum + (x.toNat * 256 + y.toNat) := by
  have hword (u v : UInt8) : words ([u, v] ++ b) = (u.toNat * 256 + v.toNat) :: words b := rfl
  rw [words_append ha, words_append ha, hword, hword, List.sum_append, List.sum_append,
    List.sum_cons, List.sum_cons, UInt8.toNat_zero]
  omega

/-- What a receiver finds in a header with the computed checksum. -/
theorem internetSum_checksum (ha : a.length % 2 = 0) (hb : b.length % 2 = 0)
    (hlen : (a ++ ([0, 0] ++ b)).length ≤ 65536) :
    ∃ c0 c1 : UInt8,
      ipv4Checksum (toHextets (toByteList (a ++ ([0, 0] ++ b)))) =
        .ok (c0.toNat * 256 + c1.toNat) ∧
      (internetSum (a ++ ([c0, c1] ++ b)) = 0xFFFF ↔
        (words (a ++ ([0, 0] ++ b))).sum % 65536 + (words (a ++ ([0, 0] ++ b))).sum / 65536 <
          65536) := by
  have hle := sum_words_le (a ++ ([0, 0] ++ b))
  have hins := sum_words_insert (b := b) ha
  have hcheck := ipv4Checksum_eq (toHextets_words (s := a ++ ([0, 0] ++ b)) (by simp; omega))
  generalize (words (a ++ ([0, 0] ++ b))).sum = n at hle hins hcheck ⊢
  have hdigit : complementOnce 65536 n < 65536 := by
    rw [complementOnce]
    omega
  obtain ⟨c0, c1, hc⟩ := exists_bytes (i := (complementOnce 65536 n : Nat)) (by omega) (by omega)
  refine ⟨c0, c1, by rw [hcheck, hc], ?_⟩
  have hdiv : n / 65536 < 65536 := by
    rw [Nat.div_lt_iff_lt_mul (by decide)]
    omega
  rw [internetSum, hins, show c0.toNat * 256 + c1.toNat = complementOnce 65536 n by omega]
  exact fold_complement_once_iff (by decide) hdiv

end Words

/-! ## The header -/

theorem protToInt_number {p : Protocol} (hp : p ≠ .unknown) : protToInt p = .ok p.number := by
  cases p with
  | icmp => rfl
  | tcp => rfl
  | udp => rfl
  | unknown => exact absurd rfl hp

/-- The sum of the nine words that are written, as they are summed. -/
theorem wordSum_eq {h : Header} {p : Str}
    {b0 b1 b2 b3 b4 b5 b6 b7 b8 b9 b12 b13 b14 b15 b16 b17 b18 b19 : UInt8}
    (hprot : h.protocol ≠ .unknown)
    (e : Encodes h p b0 b1 b2 b3 b4 b5 b6 b7 b8 b9 b12 b13 b14 b15 b16 b17 b18 b19) :
    h.wordSum p = (words ([b0, b1, b2, b3, b4, b5, b6, b7, b8, b9] ++
      ([0, 0] ++ [b12, b13, b14, b15, b16, b17, b18, b19]))).sum := by
  have hnumber : h.protocol.number = b9.toNat := by
    have hp := e.protocol
    rw [protToInt_number hprot] at hp
    exact Except.ok.inj hp
  have hihl := e.ihl
  have hdscp := e.dscp
  have hlen := e.length
  have hflags := e.flags
  rw [Header.wordSum, e.sourceAddr, e.destAddr, toHextets_words (by simp),
    toHextets_words (by simp), hnumber, e.identification, e.timeToLive]
  simp only [words, List.cons_append, List.nil_append, List.sum_cons, List.sum_nil,
    UInt8.toNat_zero]
  omega

/-- **The header checksum**: for a header whose fields fit, the ten words of the
encoded header add up to all ones exactly when folding the carry of the other
nine in once leaves no carry. -/
theorem internetSum_encode_iff (h : Header) (payload : Str) (hfit : h.FieldsFit payload)
    (hsrc : IsBytes 4 h.sourceAddr) (hdst : IsBytes 4 h.destAddr) :
    ∃ s, encode h payload = .ok s ∧ s.length = 20 + payload.length ∧
      (internetSum (s.take 20) = 0xFFFF ↔
        h.wordSum payload % 65536 + h.wordSum payload / 65536 < 65536) := by
  -- the version of the argument is not encoded
  have hrange : ({ h with version := 4 } : Header).InRange :=
    ⟨rfl, hfit.ihl, hfit.dscp, hfit.ecn, hfit.identification, hfit.flags, hfit.fragmentOffset,
      hfit.timeToLive, hfit.protocol, hsrc, hdst⟩
  obtain ⟨b0, b1, b2, b3, b4, b5, b6, b7, b8, b9, b12, b13, b14, b15, b16, b17, b18, b19, e, -⟩ :=
    hrange.exists_encodes hfit.length
  have hwords : h.wordSum payload = _ := wordSum_eq (h := { h with version := 4 }) hfit.protocol e
  obtain ⟨c0, c1, hcheck, hiff⟩ := internetSum_checksum
    (a := [b0, b1, b2, b3, b4, b5, b6, b7, b8, b9]) (b := [b12, b13, b14, b15, b16, b17, b18, b19])
    (by simp) (by simp) (by simp)
  have hsum : headerSum { h with version := 4 } payload = .ok (c0.toNat * 256 + c1.toNat) := by
    rw [headerSum, checksumHeader_bytes e, except_ok_bind, hcheck]
  refine ⟨_, encode_bytes (h := { h with version := 4 }) e hsum, by simp; omega, ?_⟩
  rw [List.take_left' (by simp), hwords]
  refine Iff.trans hiff ?_
  omega

/-- A header whose words add up to `0x1FFFF`. -/
def carryHeader : Header :=
  ⟨4, 5, 0, 0, 0, 0x702F, 0, 0, 128, .udp, 0, [10, 0, 0, 2], [192, 168, 0, 1]⟩

theorem isBytes_carry : IsBytes 4 carryHeader.sourceAddr ∧ IsBytes 4 carryHeader.destAddr :=
  ⟨⟨rfl, by decide⟩, rfl, by decide⟩

/-- `carryHeader` with no payload. -/
theorem internetSum_encode_iff_carry :
    ∃ s, encode carryHeader [] = .ok s ∧ s.length = 20 + ([] : Str).length ∧
      (internetSum (s.take 20) = 0xFFFF ↔
        carryHeader.wordSum [] % 65536 + carryHeader.wordSum [] / 65536 < 65536) :=
  internetSum_encode_iff carryHeader [] (by decide) isBytes_carry.1 isBytes_carry.2

/-- `carryHeader` goes out with checksum `0xFFFF`, and its words add up to 1. -/
theorem carryHeader_bad_sum :
    carryHeader.ihl = 5 ∧ carryHeader.FieldsFit [] ∧ IsBytes 4 carryHeader.sourceAddr ∧
    IsBytes 4 carryHeader.destAddr ∧
    ∃ s, encode carryHeader [] = .ok s ∧ internetSum (s.take 20) ≠ 0xFFFF := by
  refine ⟨rfl, by decide, isBytes_carry.1, isBytes_carry.2, [69, 0, 0, 20, 0x70, 0x2F, 0, 0, 128,
    17, 0xFF, 0xFF, 10, 0, 0, 2, 192, 168, 0, 1], by decide +kernel, ?_⟩
  intro hmax
  have hdvd := (fold_eq_max_iff (by decide) _).mp hmax
  revert hdvd
  decide

end Unikernel.IPv4
