import Unikernel.Ipv4

/-!
# Fields that do not fit

`encode` packs sub-byte fields by multiplication and addition, and the only
range check is the `Chr` of the byte writer on the packed number. So what has
to fit is the packed number: an over-wide field is noticed only when its
neighbours do not make up for it (`encode_succeeds_iff`).
-/

namespace Unikernel.IPv4

open Sml

/-- The fields that `encode` reads fit their wire widths, each for itself. -/
structure Header.FieldsFit (h : Header) (payload : Str) : Prop where
  ihl : 0 ≤ h.ihl ∧ h.ihl < 16
  dscp : 0 ≤ h.dscp ∧ h.dscp < 64
  ecn : 0 ≤ h.ecn ∧ h.ecn < 4
  length : 20 + payload.length < 65536
  identification : 0 ≤ h.identification ∧ h.identification < 65536
  flags : 0 ≤ h.flags ∧ h.flags < 8
  fragmentOffset : 0 ≤ h.fragmentOffset ∧ h.fragmentOffset < 8192
  timeToLive : 0 ≤ h.timeToLive ∧ h.timeToLive < 256
  protocol : h.protocol ≠ .unknown

/-- The numbers that are written fit their bytes, and the products that are
formed on the way are 64-bit integers. -/
structure Header.PackedFit (h : Header) (payload : Str) : Prop where
  verIhl : 0 ≤ 64 + h.ihl ∧ 64 + h.ihl < 256
  dscp : minInt ≤ h.dscp * 4 ∧ h.dscp * 4 ≤ maxInt
  tos : 0 ≤ h.dscp * 4 + h.ecn ∧ h.dscp * 4 + h.ecn < 256
  length : 20 + payload.length < 65536
  identification : 0 ≤ h.identification ∧ h.identification < 65536
  flags : minInt ≤ h.flags * 8192 ∧ h.flags * 8192 ≤ maxInt
  frag : 0 ≤ h.flags * 8192 + h.fragmentOffset ∧ h.flags * 8192 + h.fragmentOffset < 65536
  timeToLive : 0 ≤ h.timeToLive ∧ h.timeToLive < 256
  protocol : h.protocol ≠ .unknown

instance (h : Header) (payload : Str) : Decidable (h.FieldsFit payload) :=
  decidable_of_iff ((0 ≤ h.ihl ∧ h.ihl < 16) ∧ (0 ≤ h.dscp ∧ h.dscp < 64) ∧
      (0 ≤ h.ecn ∧ h.ecn < 4) ∧ 20 + payload.length < 65536 ∧
      (0 ≤ h.identification ∧ h.identification < 65536) ∧ (0 ≤ h.flags ∧ h.flags < 8) ∧
      (0 ≤ h.fragmentOffset ∧ h.fragmentOffset < 8192) ∧
      (0 ≤ h.timeToLive ∧ h.timeToLive < 256) ∧ h.protocol ≠ .unknown)
    ⟨fun ⟨h1, h2, h3, h4, h5, h6, h7, h8, h9⟩ => ⟨h1, h2, h3, h4, h5, h6, h7, h8, h9⟩,
      fun ⟨h1, h2, h3, h4, h5, h6, h7, h8, h9⟩ => ⟨h1, h2, h3, h4, h5, h6, h7, h8, h9⟩⟩

/-! ## What `encode` accepts -/

theorem setLBits_six (i : Int) : setLBits i 6 = checked (i * 4) := rfl

theorem setLBits_three (i : Int) : setLBits i 3 = checked (i * 32) := rfl

theorem pow_two_eight : pow 2 8 = 256 := rfl

section

variable {h : Header} {payload cs : Str}

/-- The writer checked every packed number. -/
theorem packedFit_of_checksumHeader (hcs : checksumHeader h payload = .ok cs) :
    h.PackedFit payload := by
  have hver : setLBits 4 4 = .ok 64 := rfl
  simp only [checksumHeader, hver, setLBits_six, setLBits_three, pow_two_eight, except_ok_bind,
    except_bind_eq_ok, checked_eq_ok_iff] at hcs
  obtain ⟨_, ⟨-, rfl⟩, _, hverIhl, _, ⟨hdscp, rfl⟩, _, ⟨-, rfl⟩, _, htos, _, hlen,
    _, hident, _, ⟨-, rfl⟩, _, ⟨hflags, rfl⟩, _, ⟨-, rfl⟩, _, hfrag, _, httl, i, hprot, -⟩ := hcs
  have hone {i : Int} {s : Str} (hs : intToRawbyteString i 1 = .ok s) : 0 ≤ i ∧ i < 256 :=
    (intToRawbyteString_succeeds_iff (show 0 < 1 by decide)).mp ⟨s, hs⟩
  have htwo {i : Int} {s : Str} (hs : intToRawbyteString i 2 = .ok s) : 0 ≤ i ∧ i < 65536 :=
    (intToRawbyteString_succeeds_iff (show 0 < 2 by decide)).mp ⟨s, hs⟩
  refine ⟨hone hverIhl, hdscp, hone htos, by have := htwo hlen; omega, htwo hident, ?_, ?_,
    hone httl, ?_⟩
  · omega
  · have := htwo hfrag
    omega
  · rintro hunknown
    rw [hunknown] at hprot
    cases hprot

/-- Packed numbers that fit are written, in ten bytes. -/
theorem checksumHeader_of_packedFit (hfit : h.PackedFit payload)
    (hsrc : IsBytes 4 h.sourceAddr) (hdst : IsBytes 4 h.destAddr) :
    ∃ cs, checksumHeader h payload = .ok cs ∧ cs.length = 20 := by
  obtain ⟨verIhl, dscp, tos, length, ident, flags, frag, ttl, prot⟩ := hfit
  obtain ⟨src, hsrc, lsrc⟩ := hsrc.exists_str
  obtain ⟨dst, hdst, ldst⟩ := hdst.exists_str
  obtain ⟨b0, hb0⟩ := exists_byte verIhl.1 verIhl.2
  obtain ⟨b1, hb1⟩ := exists_byte tos.1 tos.2
  obtain ⟨b2, b3, hb2⟩ := exists_bytes (i := 20 + (payload.length : Int)) (by omega) (by omega)
  obtain ⟨b4, b5, hb4⟩ := exists_bytes ident.1 ident.2
  obtain ⟨b6, b7, hb6⟩ := exists_bytes frag.1 frag.2
  obtain ⟨b8, hb8⟩ := exists_byte ttl.1 ttl.2
  obtain ⟨b9, hb9, -⟩ := exists_protocol_byte prot
  have hver : setLBits 4 4 = .ok 64 := rfl
  have hzero : intToRawbyteString 0 2 = .ok [0, 0] := rfl
  have hbyte {i : Int} {a : UInt8} (hi : i = a.toNat) : checked i = .ok (a.toNat : Int) := by
    have ha := byte_lt a
    rw [hi]
    exact checked_small (by omega) (by omega)
  -- the shifted flags are a 64-bit integer on the way as well
  have hflags : checked (h.flags * 32) = .ok (h.flags * 32) := by
    simp only [minInt, maxInt] at flags
    exact checked_ok (by simp only [minInt]; omega) (by simp only [maxInt]; omega)
  have hflags' : checked (h.flags * 32 * 256) = .ok (h.flags * 32 * 256) :=
    checked_ok (by omega) (by omega)
  have hfrag : checked (h.flags * 32 * 256 + h.fragmentOffset) =
      .ok (b6.toNat * 256 + b7.toNat) := by
    have h6 := byte_lt b6
    have h7 := byte_lt b7
    rw [show h.flags * 32 * 256 + h.fragmentOffset = b6.toNat * 256 + b7.toNat by omega]
    exact checked_small (by omega) (by omega)
  simp only [checksumHeader, hver, setLBits_six, setLBits_three, pow_two_eight, except_ok_bind,
    hbyte hb0, checked_ok dscp.1 dscp.2, hbyte hb1, hflags, hflags', hfrag, hb2, hb4, hb8, hb9,
    hzero, hsrc, hdst, intToRawbyteString_byte, intToRawbyteString_bytes,
    byteListToString_toByteList]
  exact ⟨_, rfl, by simp [lsrc, ldst]⟩

/-- With its twenty header bytes written, nothing in `encode` can fail. -/
theorem encode_of_checksumHeader (hcs : checksumHeader h payload = .ok cs)
    (hlen : cs.length = 20) :
    ∃ header, encode h payload = .ok (header ++ payload) ∧ header.length = 20 := by
  obtain ⟨c, hc, hc0, hc1⟩ := ipv4Checksum_range (toHextets (toByteList cs))
  obtain ⟨c0, c1, rfl⟩ := exists_bytes hc0 hc1
  simp only [encode, hcs, hc, except_ok_bind, intToRawbyteString_bytes,
    substring_ok (s := cs) (i := 0) (n := 10) (by omega), extract_ok (s := cs) (i := 12) (by omega)]
  exact ⟨_, rfl, by simp [hlen]⟩

/-- **`encode` succeeds** exactly when the packed numbers fit. -/
theorem encode_succeeds_iff (hsrc : IsBytes 4 h.sourceAddr) (hdst : IsBytes 4 h.destAddr) :
    (∃ s, encode h payload = .ok s) ↔ h.PackedFit payload := by
  constructor
  · rintro ⟨s, hs⟩
    rw [encode, except_bind_eq_ok] at hs
    obtain ⟨cs, hcs, -⟩ := hs
    exact packedFit_of_checksumHeader hcs
  · intro hfit
    obtain ⟨cs, hcs, hlen⟩ := checksumHeader_of_packedFit hfit hsrc hdst
    obtain ⟨header, henc, -⟩ := encode_of_checksumHeader hcs hlen
    exact ⟨_, henc⟩

/-! ## What becomes of the others -/

/-- The sub-byte fields of a header. -/
def Header.packed (h : Header) : List Int := [h.ihl, h.dscp, h.ecn, h.flags, h.fragmentOffset]

/-- The sub-byte fields that `decode` reads fit. -/
theorem decode_header {header : Str} (hlen : header.length = 20) (p : Str) :
    ∃ h', decode (header ++ p) = .ok (h', p) ∧ (0 ≤ h'.ihl ∧ h'.ihl < 16) ∧
      (0 ≤ h'.dscp ∧ h'.dscp < 64) ∧ (0 ≤ h'.ecn ∧ h'.ecn < 4) ∧
      (0 ≤ h'.flags ∧ h'.flags < 8) ∧ 0 ≤ h'.fragmentOffset ∧ h'.fragmentOffset < 8192 := by
  obtain ⟨b0, b1, b2, b3, b4, b5, b6, b7, b8, b9, b10, b11, b12, b13, b14, b15, b16, b17, b18,
    b19, q, rfl⟩ := exists_bytes_of_length hlen.ge
  obtain rfl : q = [] := by
    rw [List.length_append] at hlen
    exact List.length_eq_zero_iff.mp (Nat.add_left_cancel hlen)
  rw [List.append_nil, decode_bytes]
  have h0 := byte_lt b0
  have h1 := byte_lt b1
  have h6 := byte_lt b6
  refine ⟨_, rfl, ?_⟩
  simp only [headerOf]
  omega

/-- Fields that fit once they are packed, but not each for itself, are not what is read back. -/
theorem packed_ne_of_wide {h' : Header} (hfit : h.PackedFit payload)
    (hwide : ¬ h.FieldsFit payload) (hihl : 0 ≤ h'.ihl ∧ h'.ihl < 16)
    (hdscp : 0 ≤ h'.dscp ∧ h'.dscp < 64) (hecn : 0 ≤ h'.ecn ∧ h'.ecn < 4)
    (hflags : 0 ≤ h'.flags ∧ h'.flags < 8)
    (hoff : 0 ≤ h'.fragmentOffset ∧ h'.fragmentOffset < 8192) : h'.packed ≠ h.packed := by
  intro heq
  simp only [Header.packed, List.cons.injEq, and_true] at heq
  obtain ⟨eihl, edscp, eecn, eflags, eoff⟩ := heq
  rw [eihl] at hihl
  rw [edscp] at hdscp
  rw [eecn] at hecn
  rw [eflags] at hflags
  rw [eoff] at hoff
  exact hwide ⟨hihl, hdscp, hecn, hfit.length, hfit.identification, hflags, hoff, hfit.timeToLive,
    hfit.protocol⟩

end

/-- **Over-wide fields**: a header with a field that does not fit is rejected
if and only if one of the packed numbers does not fit either. What is not
rejected is a packet from which other sub-byte fields are read. -/
theorem encode_rejects_iff (h : Header) (payload : Str) (hsrc : IsBytes 4 h.sourceAddr)
    (hdst : IsBytes 4 h.destAddr) (hwide : ¬ h.FieldsFit payload) :
    ((∃ e, encode h payload = .error e) ↔ ¬ h.PackedFit payload) ∧
    (h.PackedFit payload → ∃ s h', encode h payload = .ok s ∧ decode s = .ok (h', payload) ∧
      h'.packed ≠ h.packed) := by
  constructor
  · rw [← encode_succeeds_iff hsrc hdst]
    cases hs : encode h payload with
    | error e => simp
    | ok s => simp
  · intro hfit
    obtain ⟨cs, hcs, hlen⟩ := checksumHeader_of_packedFit hfit hsrc hdst
    obtain ⟨header, henc, hheader⟩ := encode_of_checksumHeader hcs hlen
    obtain ⟨h', hdec, hihl, hdscp, hecn, hflags, hoff⟩ := decode_header hheader payload
    exact ⟨_, h', henc, hdec, packed_ne_of_wide hfit hwide hihl hdscp hecn hflags hoff⟩

/-- A header of sixteen words, one more than its field of four bits can hold. -/
def wideHeader : Header :=
  ⟨4, 16, 0, 0, 0, 1, 0, 0, 64, .udp, 0, [10, 0, 0, 1], [10, 0, 0, 2]⟩

theorem isBytes_wide : IsBytes 4 wideHeader.sourceAddr ∧ IsBytes 4 wideHeader.destAddr :=
  ⟨⟨rfl, by decide⟩, rfl, by decide⟩

/-- `wideHeader` is not rejected. -/
theorem encode_rejects_iff_wide :
    ((∃ e, encode wideHeader [] = .error e) ↔ ¬ wideHeader.PackedFit []) ∧
    (wideHeader.PackedFit [] → ∃ s h', encode wideHeader [] = .ok s ∧ decode s = .ok (h', []) ∧
      h'.packed ≠ wideHeader.packed) :=
  encode_rejects_iff wideHeader [] isBytes_wide.1 isBytes_wide.2 (by decide)

/-- It goes out as a packet of version 5, with header length zero. -/
theorem wideHeader_encodes :
    IsBytes 4 wideHeader.sourceAddr ∧ IsBytes 4 wideHeader.destAddr ∧ ¬ wideHeader.FieldsFit [] ∧
    ∃ s, encode wideHeader [] = .ok s ∧
      decode s = .ok ({ wideHeader with version := 5, ihl := 0, totalLength := 20,
                                        headerChecksum := 0x5BD6 }, []) := by
  refine ⟨isBytes_wide.1, isBytes_wide.2, by decide, ?_⟩
  exact ⟨[80, 0, 0, 20, 0, 1, 0, 0, 64, 17, 0x5B, 0xD6, 10, 0, 0, 1, 10, 0, 0, 2],
    by decide +kernel, by decide +kernel⟩

end Unikernel.IPv4
