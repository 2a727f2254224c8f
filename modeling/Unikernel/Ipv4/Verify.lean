import Unikernel.Ipv4.Checksum

/-!
# Verifying a received header

`verifyChecksumIPv4` does not add up the words that were received. It builds the
header again from the decoded fields, with the length of the string in place of
the length field, computes its checksum with one carry folded in, and compares
numbers. So it can differ from what the words say in three ways: the length
field is not the length of the packet, a carry is left, or the checksum is the
other one of the two zeros.

- `verify_short`, `verify_long`: what is accepted.
- `matchesWire_iff`: the packets on which that agrees with the words received.
-/

namespace Unikernel.IPv4

open Sml OnesComplement

/-- Verification gives header and payload back exactly if the ten words of the
received header add up, and raises otherwise. -/
def MatchesWire (s : Str) : Prop :=
  ∃ h p, decode s = .ok (h, p) ∧
    (internetSum (s.take 20) = 0xFFFF → verifyChecksumIPv4 h p = .ok (h, p)) ∧
    (internetSum (s.take 20) ≠ 0xFFFF → ∃ e, verifyChecksumIPv4 h p = .error e)

/-- The sum of the words other than the checksum, for the packet's true length, with
its carry folded in once. -/
def Header.foldedSum (h : Header) (payload : Str) : Int :=
  h.wordSum payload % 65536 + h.wordSum payload / 65536

/-- The checksum is the complement of that sum, or would be but for the carry left. -/
def Header.Completes (h : Header) (payload : Str) : Prop :=
  (20 : Int) + payload.length ≤ 65535 ∧
    (h.foldedSum payload + h.headerChecksum = 65535 ∨
      h.foldedSum payload + h.headerChecksum = 131071)

/-- Verification agrees with the wire on a packet: a checksum that completes the sum
comes with a length field that is as wrong as the carry that was lost (not at all, if none
was), and any other with words that do not add up. -/
def Header.Agrees (h : Header) (payload : Str) : Prop :=
  (h.Completes payload ∧ h.foldedSum payload ≤ 65535 ∧
    65535 ∣ 20 + payload.length - h.totalLength) ∨
  (h.Completes payload ∧ 65535 < h.foldedSum payload ∧
    65535 ∣ 20 + payload.length - h.totalLength - 1) ∨
  (¬ h.Completes payload ∧
    ¬ 65535 ∣ h.wordSum payload - (20 + payload.length) + h.totalLength + h.headerChecksum)

/-- Verification agrees with the wire whatever the checksum: the length field is right and
no carry is left, or the two make up for each other. -/
def Header.AgreesAlways (h : Header) (payload : Str) : Prop :=
  (20 : Int) + payload.length ≤ 65535 ∧
  (h.foldedSum payload < 65535 ∧ (h.totalLength = 20 + payload.length ∨
      h.totalLength = 0 ∧ (20 : Int) + payload.length = 65535) ∨
    65536 < h.foldedSum payload ∧ h.totalLength = 20 + payload.length - 1)

/-! ## What is accepted -/

/-- A packet of more than 65535 bytes has no length that could be written. -/
theorem verify_long {h : Header} {p : Str} (hlen : 65535 < 20 + p.length) :
    ∃ e, verifyChecksumIPv4 h p = .error e := by
  cases hcs : checksumHeader h p with
  | ok cs =>
    have hfit := (packedFit_of_checksumHeader hcs).length
    omega
  | error e =>
    rw [verifyChecksumIPv4, hcs]
    exact ⟨e, rfl⟩

section Bytes

variable {b0 b1 b2 b3 b4 b5 b6 b7 b8 b9 b10 b11 b12 b13 b14 b15 b16 b17 b18 b19 : UInt8} {p : Str}
  {h : Header} (hver : b0 = 0x45) (hprot : intToProt b9.toNat ≠ .unknown)
  (hh : h = headerOf b0 b1 b2 b3 b4 b5 b6 b7 b8 b9 b10 b11 b12 b13 b14 b15 b16 b17 b18 b19)
include hver hprot hh

/-- The words of a received header: the length field stands where the sum takes the length. -/
theorem sum_words_received :
    ((words [b0, b1, b2, b3, b4, b5, b6, b7, b8, b9, b10, b11, b12, b13, b14, b15, b16, b17, b18,
      b19]).sum : Int) =
      h.wordSum p - (20 + p.length) + h.totalLength + h.headerChecksum := by
  subst hh
  have hnumber : (intToProt b9.toNat).number = b9.toNat := by
    have hnum := protToInt_number hprot
    rw [protToInt_intToProt hprot] at hnum
    exact (Except.ok.inj hnum).symm
  have hsrc := toHextets_words (s := [b12, b13, b14, b15]) (by simp)
  have hdst := toHextets_words (s := [b16, b17, b18, b19]) (by simp)
  have h7 := byte_lt b7
  have h0 : b0.toNat = 69 := congrArg UInt8.toNat hver
  simp only [Header.wordSum, headerOf, hnumber, hsrc, hdst]
  simp only [words, List.sum_cons, List.sum_nil, h0]
  push_cast
  omega

/-- What a packet of at most 65535 bytes is compared with. -/
theorem verify_short (hlen : 20 + p.length ≤ 65535) :
    ∃ n : Nat, h.wordSum p = n ∧ 0 < n ∧ n ≤ 20 * 65535 ∧
      verifyChecksumIPv4 h p = if (complementOnce 65536 n : Nat) = h.headerChecksum then .ok (h, p)
        else .error (.fail "Bad checksum in incomming IPv4 packet.") := by
  obtain ⟨l0, l1, hl⟩ := exists_bytes (i := 20 + (p.length : Int)) (by omega) (by omega)
  have h0 : b0.toNat = 69 := congrArg UInt8.toNat hver
  have e : Encodes h p b0 b1 l0 l1 b4 b5 b6 b7 b8 b9 b12 b13 b14 b15 b16 b17 b18 b19 := by
    rw [hh]
    exact encodes_headerOf (by rw [h0]) hl hprot
  have hwords := wordSum_eq (h := h) (by rw [hh]; exact hprot) e
  have hle := sum_words_le ([b0, b1, l0, l1, b4, b5, b6, b7, b8, b9] ++
      ([0, 0] ++ [b12, b13, b14, b15, b16, b17, b18, b19]))
  refine ⟨_, hwords, ?_, by simpa using hle, ?_⟩
  · simp only [words, List.cons_append, List.sum_cons, h0]
    omega
  rw [verifyChecksumIPv4, checksumHeader_bytes e, except_ok_bind,
    ipv4Checksum_eq (toHextets_words (by simp)), except_ok_bind]
  rfl

/-- **What verification accepts**. -/
theorem verify_completes :
    (h.Completes p → verifyChecksumIPv4 h p = .ok (h, p)) ∧
    (¬ h.Completes p → ∃ e, verifyChecksumIPv4 h p = .error e) := by
  have h10 := byte_lt b10
  have h11 := byte_lt b11
  have hsum : h.headerChecksum = b10.toNat * 256 + b11.toNat := by rw [hh]; rfl
  by_cases hlen : 20 + p.length ≤ 65535
  · obtain ⟨n, hn, -, hle, hverify⟩ := verify_short hver hprot hh hlen
    -- the complement is cut to 16 bits, and a carry left in the sum with it
    have hiff : (complementOnce 65536 n : Nat) = h.headerChecksum ↔ h.Completes p := by
      rw [Header.Completes, Header.foldedSum, hn, hsum, complementOnce]
      omega
    rw [hverify]
    exact ⟨fun hyes => if_pos (hiff.mpr hyes), fun hno => ⟨_, if_neg (mt hiff.mp hno)⟩⟩
  · exact ⟨fun hyes => absurd hyes.1 (by omega), fun _ => verify_long (by omega)⟩

/-- What the words of the received header say. -/
theorem internetSum_received :
    internetSum [b0, b1, b2, b3, b4, b5, b6, b7, b8, b9, b10, b11, b12, b13, b14, b15, b16, b17,
        b18, b19] = 0xFFFF ↔
      65535 ∣ h.wordSum p - (20 + p.length) + h.totalLength + h.headerChecksum := by
  have hwords := sum_words_received (p := p) hver hprot hh
  have hpos : 0 < (words [b0, b1, b2, b3, b4, b5, b6, b7, b8, b9, b10, b11, b12, b13, b14, b15,
      b16, b17, b18, b19]).sum := by
    have h0 : b0.toNat = 69 := congrArg UInt8.toNat hver
    simp only [words, List.sum_cons, h0]
    omega
  have hiff := fold_eq_max_iff (b := 65536) (by decide) (words [b0, b1, b2, b3, b4, b5, b6, b7,
    b8, b9, b10, b11, b12, b13, b14, b15, b16, b17, b18, b19]).sum
  rw [and_iff_right hpos] at hiff
  rw [internetSum, ← hwords]
  exact hiff.trans (by omega)

/-- Verification agrees with the wire if it accepts exactly what adds up. -/
theorem matchesWire_bytes :
    MatchesWire ([b0, b1, b2, b3, b4, b5, b6, b7, b8, b9, b10, b11, b12, b13, b14, b15, b16, b17,
        b18, b19] ++ p) ↔
      (h.Completes p ↔
        65535 ∣ h.wordSum p - (20 + p.length) + h.totalLength + h.headerChecksum) := by
  obtain ⟨hyes, hno⟩ := verify_completes (p := p) hver hprot hh
  rw [MatchesWire, decode_bytes, ← hh, List.take_left' (by simp),
    ← internetSum_received hver hprot hh]
  constructor
  · rintro ⟨h', p', hdec, hgood, hbad⟩
    cases hdec
    constructor
    · intro hcomp
      by_contra hwire
      obtain ⟨e, he⟩ := hbad hwire
      rw [hyes hcomp] at he
      cases he
    · intro hwire
      by_contra hcomp
      obtain ⟨e, he⟩ := hno hcomp
      rw [hgood hwire] at he
      cases he
  · intro hiff
    exact ⟨h, p, rfl, fun hwire => hyes (hiff.mpr hwire), fun hwire => hno (mt hiff.mp hwire)⟩

end Bytes

/-! ## The conditions, as numbers

`s` is the sum with the true length `n`, `t` that sum folded once; `l` and `c` are the
length and the checksum that were received. -/

section Numbers

variable {s n l t : Int} (ht : t = s % 65536 + s / 65536)
include ht

/-- A checksum that completes the sum is right if the length is as wrong as the carry. -/
theorem agrees_arith {c : Int} (hc : 0 ≤ c ∧ c < 65536) :
    (((n ≤ 65535 ∧ (t + c = 65535 ∨ t + c = 131071)) ∧ t ≤ 65535 ∧ 65535 ∣ n - l) ∨
      ((n ≤ 65535 ∧ (t + c = 65535 ∨ t + c = 131071)) ∧ 65535 < t ∧ 65535 ∣ n - l - 1) ∨
      (¬ (n ≤ 65535 ∧ (t + c = 65535 ∨ t + c = 131071)) ∧ ¬ 65535 ∣ s - n + l + c)) ↔
    ((n ≤ 65535 ∧ (t + c = 65535 ∨ t + c = 131071)) ↔ 65535 ∣ s - n + l + c) := by
  by_cases hacc : n ≤ 65535 ∧ (t + c = 65535 ∨ t + c = 131071)
  · simp only [hacc, true_and, not_true_eq_false, false_and, or_false, true_iff]
    omega
  · simp only [hacc, false_and, false_or, not_false_eq_true, true_and, false_iff]

theorem always_arith (hs : n ≤ 65535 → 0 < s ∧ s ≤ 20 * 65535) (hn : 20 ≤ n)
    (hl : 0 ≤ l ∧ l < 65536) :
    (∀ c, 0 ≤ c → c < 65536 →
      ((n ≤ 65535 ∧ (t + c = 65535 ∨ t + c = 131071)) ↔ 65535 ∣ s - n + l + c)) ↔
    n ≤ 65535 ∧ (t < 65535 ∧ (l = n ∨ l = 0 ∧ n = 65535) ∨ 65536 < t ∧ l = n - 1) := by
  constructor
  · intro h
    -- the checksum that adds up, the one that is accepted, and the two zeros
    have hwire := h (-(s - n + l) % 65535) (by omega) (by omega)
    have hshort : n ≤ 65535 := (hwire.mpr (by omega)).1
    have hsmall := hs hshort
    have hacc := h (65535 - t % 65536) (by omega) (by omega)
    have hzero := h 0 (by omega) (by omega)
    have hones := h 65535 (by omega) (by omega)
    simp only [hshort, true_and] at hacc hzero hones
    omega
  · rintro ⟨hshort, hcase⟩ c hc hc'
    have hsmall := hs hshort
    simp only [hshort, true_and]
    omega

end Numbers

/-! ## The packets -/

/-- The packet with another checksum. -/
def withChecksum (s : Str) (c0 c1 : UInt8) : Str := s.take 10 ++ [c0, c1] ++ s.drop 12

/-- What verification has to agree with, for another checksum: the sum does not take it. -/
theorem matchesWire_withChecksum
    {b0 b1 b2 b3 b4 b5 b6 b7 b8 b9 b10 b11 b12 b13 b14 b15 b16 b17 b18 b19 : UInt8} {p : Str}
    (hver : b0 = 0x45) (hprot : intToProt b9.toNat ≠ .unknown) {h : Header}
    (hh : h = headerOf b0 b1 b2 b3 b4 b5 b6 b7 b8 b9 b10 b11 b12 b13 b14 b15 b16 b17 b18 b19)
    (c0 c1 : UInt8) :
    MatchesWire (withChecksum ([b0, b1, b2, b3, b4, b5, b6, b7, b8, b9, b10, b11, b12, b13, b14,
        b15, b16, b17, b18, b19] ++ p) c0 c1) ↔
      (((20 : Int) + p.length ≤ 65535 ∧
        (h.foldedSum p + (c0.toNat * 256 + c1.toNat) = 65535 ∨
          h.foldedSum p + (c0.toNat * 256 + c1.toNat) = 131071)) ↔
        65535 ∣ h.wordSum p - (20 + p.length) + h.totalLength + (c0.toNat * 256 + c1.toNat)) := by
  have hwith : withChecksum ([b0, b1, b2, b3, b4, b5, b6, b7, b8, b9, b10, b11, b12, b13, b14,
      b15, b16, b17, b18, b19] ++ p) c0 c1 = [b0, b1, b2, b3, b4, b5, b6, b7, b8, b9, c0, c1, b12,
      b13, b14, b15, b16, b17, b18, b19] ++ p := by
    simp [withChecksum]
  have hother : { h with headerChecksum := c0.toNat * 256 + c1.toNat } =
      headerOf b0 b1 b2 b3 b4 b5 b6 b7 b8 b9 c0 c1 b12 b13 b14 b15 b16 b17 b18 b19 := by
    rw [hh]
    rfl
  rw [hwith]
  exact matchesWire_bytes hver hprot hother

theorem intToProt_known {b : UInt8} (h : b = 1 ∨ b = 6 ∨ b = 17) :
    intToProt b.toNat ≠ .unknown := by
  rcases h with rfl | rfl | rfl <;> decide

/-- **Verification and the wire**: for a packet, exactly when verification agrees with the
words that were received; and for what a packet holds besides its checksum, exactly when it
does so whatever the checksum. -/
theorem matchesWire_iff {s p : Str} {h : Header} (hdec : decode s = .ok (h, p))
    (hver : s[0]? = some 0x45) (hprot : s[9]? = some 1 ∨ s[9]? = some 6 ∨ s[9]? = some 17) :
    (MatchesWire s ↔ h.Agrees p) ∧
    ((∀ c0 c1, MatchesWire (withChecksum s c0 c1)) ↔ h.AgreesAlways p) := by
  obtain ⟨b0, b1, b2, b3, b4, b5, b6, b7, b8, b9, b10, b11, b12, b13, b14, b15, b16, b17, b18,
    b19, q, rfl⟩ := exists_bytes_of_length (length_of_decode hdec)
  rw [decode_bytes, Except.ok.injEq, Prod.mk.injEq] at hdec
  obtain ⟨hh, rfl⟩ := hdec
  have hb0 : b0 = 0x45 := Option.some.inj hver
  have hb9 : intToProt b9.toNat ≠ .unknown :=
    intToProt_known (hprot.imp Option.some.inj (.imp Option.some.inj Option.some.inj))
  have hsum : 0 ≤ h.headerChecksum ∧ h.headerChecksum < 65536 := by
    rw [← hh]
    exact bytes_range b10 b11
  have hlen : 0 ≤ h.totalLength ∧ h.totalLength < 65536 := by
    rw [← hh]
    exact bytes_range b2 b3
  have hs : (20 : Int) + q.length ≤ 65535 → 0 < h.wordSum q ∧ h.wordSum q ≤ 20 * 65535 := by
    intro hshort
    obtain ⟨n, hn, hpos, hle, -⟩ := verify_short (p := q) hb0 hb9 hh.symm (by omega)
    rw [hn]
    omega
  refine ⟨(matchesWire_bytes hb0 hb9 hh.symm).trans (agrees_arith rfl hsum).symm, ?_⟩
  refine Iff.trans ?_ (always_arith rfl hs (by omega) hlen)
  constructor
  · intro hall c hc hc'
    obtain ⟨c0, c1, rfl⟩ := exists_bytes hc hc'
    exact (matchesWire_withChecksum hb0 hb9 hh.symm c0 c1).mp (hall c0 c1)
  · intro hall c0 c1
    exact (matchesWire_withChecksum hb0 hb9 hh.symm c0 c1).mpr
      (hall _ (bytes_range c0 c1).1 (bytes_range c0 c1).2)

/-- A header without payload, with the checksum that belongs to it. -/
def plainHeader : Str := [69, 0, 0, 20, 0, 0, 0, 0, 64, 17, 0x66, 0xD7, 10, 0, 0, 1, 10, 0, 0, 2]

/-- Its length field one too large. -/
def damagedHeader : Str := [69, 0, 0, 21, 0, 0, 0, 0, 64, 17, 0x66, 0xD7, 10, 0, 0, 1, 10, 0, 0, 2]

def plainFields : Header :=
  ⟨4, 5, 0, 0, 20, 0, 0, 0, 64, .udp, 0x66D7, [10, 0, 0, 1], [10, 0, 0, 2]⟩

theorem matchesWire_iff_plain :
    (MatchesWire plainHeader ↔ plainFields.Agrees []) ∧
    ((∀ c0 c1, MatchesWire (withChecksum plainHeader c0 c1)) ↔ plainFields.AgreesAlways []) :=
  matchesWire_iff (by decide +kernel) rfl (.inr (.inr rfl))

/-- With six bytes of padding the header is rejected, and with the wrong length it is
accepted. -/
theorem padded_rejected :
    (internetSum ((plainHeader ++ [0, 0, 0, 0, 0, 0]).take 20) = 0xFFFF ∧
      verifyChecksumIPv4 plainFields [0, 0, 0, 0, 0, 0] =
        .error (.fail "Bad checksum in incomming IPv4 packet.") ∧
      ¬ MatchesWire (plainHeader ++ [0, 0, 0, 0, 0, 0])) ∧
    (internetSum (damagedHeader.take 20) ≠ 0xFFFF ∧
      verifyChecksumIPv4 { plainFields with totalLength := 21 } [] =
        .ok ({ plainFields with totalLength := 21 }, []) ∧
      ¬ MatchesWire damagedHeader) := by
  have hpadded : decode (plainHeader ++ [0, 0, 0, 0, 0, 0]) =
      .ok (plainFields, [0, 0, 0, 0, 0, 0]) := by decide +kernel
  have hdamaged : decode damagedHeader = .ok ({ plainFields with totalLength := 21 }, []) := by
    decide +kernel
  have hreject : verifyChecksumIPv4 plainFields [0, 0, 0, 0, 0, 0] =
      .error (.fail "Bad checksum in incomming IPv4 packet.") := by decide +kernel
  have haccept : verifyChecksumIPv4 { plainFields with totalLength := 21 } [] =
      .ok ({ plainFields with totalLength := 21 }, []) := by decide +kernel
  have hgood : internetSum ((plainHeader ++ [0, 0, 0, 0, 0, 0]).take 20) = 0xFFFF :=
    (fold_eq_max_iff (by decide) _).mpr (by decide)
  have hbad : internetSum (damagedHeader.take 20) ≠ 0xFFFF :=
    mt (fold_eq_max_iff (by decide) _).mp (by decide)
  refine ⟨⟨hgood, hreject, ?_⟩, hbad, haccept, ?_⟩
  · rintro ⟨h, p, hdec, hok, -⟩
    rw [hpadded] at hdec
    cases hdec
    have hverify := hok hgood
    rw [hreject] at hverify
    cases hverify
  · rintro ⟨h, p, hdec, -, herr⟩
    rw [hdamaged] at hdec
    cases hdec
    obtain ⟨e, hverify⟩ := herr hbad
    rw [haccept] at hverify
    cases hverify

end Unikernel.IPv4
