import Unikernel.Utils

/-!
# ethlib

The Ethernet header codec (`Libs/ethlib/ethlib.sml`): two 6-byte addresses and
a 2-byte type, in front of the payload.
-/

namespace Unikernel.Eth

open Sml

/-- The frame types the library knows. -/
inductive EthType where
  | arp
  | ipv4
  | ipv6
  deriving DecidableEq, Repr

/-- The fields in the order of the record, not of the frame. -/
structure Header where
  et : EthType
  dstMac : List Int
  srcMac : List Int
  deriving DecidableEq, Repr

/-- The type field as a number; `none` for a type that is not known. -/
def bytesToEthType (s : Str) : Except Exn (Option EthType) := do
  let i ← convertRawBytes s
  return if i = 0x0806 then some .arp
    else if i = 0x0800 then some .ipv4
    else if i = 0x86dd then some .ipv6
    else none

def ethTypeToString : EthType → String
  | .arp => "ARP"
  | .ipv4 => "IPv4"
  | .ipv6 => "IPv6"

def ethTypeToInt : EthType → Int
  | .arp => 0x0806
  | .ipv4 => 0x0800
  | .ipv6 => 0x86dd

def toString (h : Header) : String :=
  "\n-- ETHERFRAME INFO --\n" ++
  "Type: " ++ ethTypeToString h.et ++ "\n" ++
  "Destination mac-address: [ " ++ rawBytesString h.dstMac ++ " ]\n" ++
  "Source mac-address: [ " ++ rawBytesString h.srcMac ++ " ]\n"

/-- The type is read first: an unknown one raises before the addresses are looked at. -/
def decode (s : Str) : Except Exn (Header × Str) := do
  match ← bytesToEthType (← substring s 12 2) with
  | some p =>
    let dstMac ← bytesField s 0 6
    let srcMac ← bytesField s 6 6
    return ({ et := p, dstMac, srcMac }, ← extract s 14)
  | none => .error (.fail "Protocol not found.")

/-- Addresses and type as bytes, in front of the payload. -/
def encode (h : Header) (payload : Str) : Except Exn Str := do
  let dst ← byteListToString h.dstMac
  let src ← byteListToString h.srcMac
  let ty ← intToRawbyteString (ethTypeToInt h.et) 2
  return dst ++ src ++ ty ++ payload

/-! ## The type field

The reader of the type and its writer are tables that have to agree, in both directions. -/

/-- A type is recognized by the two bytes it is written as, and by no others. -/
theorem bytesToEthType_eq_some_iff {a b : UInt8} {et : EthType} :
    bytesToEthType [a, b] = .ok (some et) ↔
      intToRawbyteString (ethTypeToInt et) 2 = .ok [a, b] := by
  have ha := byte_lt a
  have hb := byte_lt b
  rw [intToRawbyteString_eq_ok_iff (by decide), beValue_two, bytesToEthType,
    convertRawBytes_bytes, except_ok_bind]
  simp only [List.length_cons, List.length_nil, true_and]
  push_cast
  generalize (a.toNat : Int) * 256 + (b.toNat : Int) = i
  constructor
  · intro h
    split at h
    · next hi => cases h; exact hi
    · split at h
      · next hi => cases h; exact hi
      · split at h
        · next hi => cases h; exact hi
        · cases h
  · rintro rfl
    cases et <;> rfl

/-- The types that `decode` knows, as they are on the wire. -/
def knownTypes : List Str := [[0x08, 0x06], [0x08, 0x00], [0x86, 0xdd]]

/-- They are the types that can be written. -/
theorem mem_knownTypes_iff {t : Str} :
    t ∈ knownTypes ↔ ∃ et, intToRawbyteString (ethTypeToInt et) 2 = .ok t := by
  have harp : intToRawbyteString (ethTypeToInt .arp) 2 = .ok [0x08, 0x06] := by decide
  have hipv4 : intToRawbyteString (ethTypeToInt .ipv4) 2 = .ok [0x08, 0x00] := by decide
  have hipv6 : intToRawbyteString (ethTypeToInt .ipv6) 2 = .ok [0x86, 0xdd] := by decide
  simp only [knownTypes, List.mem_cons, List.not_mem_nil, or_false]
  constructor
  · rintro (rfl | rfl | rfl)
    · exact ⟨.arp, harp⟩
    · exact ⟨.ipv4, hipv4⟩
    · exact ⟨.ipv6, hipv6⟩
  · rintro ⟨et, het⟩
    cases et with
    | arp =>
      rw [harp] at het
      exact .inl (Except.ok.inj het).symm
    | ipv4 =>
      rw [hipv4] at het
      exact .inr (.inl (Except.ok.inj het).symm)
    | ipv6 =>
      rw [hipv6] at het
      exact .inr (.inr (Except.ok.inj het).symm)

/-! ## The codec on the parts of a frame

A frame of 14 bytes or more is two addresses, two bytes of type, and a payload. On such an append
`decode` and `encode` can be evaluated. -/

section Parts

variable {dst src : Str} {a b : UInt8} {payload : Str}

/-- Behind the two addresses. -/
theorem substring_type (ldst : dst.length = 6) (lsrc : src.length = 6) :
    substring (dst ++ (src ++ (a :: b :: payload))) 12 2 = .ok [a, b] := by
  rw [substring_append_right (i := 6) ldst, substring_append_right (i := 0) lsrc]
  rfl

/-- The type field, by position. -/
theorem type_bytes (ldst : dst.length = 6) (lsrc : src.length = 6) :
    ((dst ++ (src ++ (a :: b :: payload))).drop 12).take 2 = [a, b] := by
  refine Except.ok.inj ((substring_ok ?_).symm.trans (substring_type ldst lsrc))
  simp only [List.length_append, List.length_cons, ldst, lsrc]
  omega

/-- Behind the type. -/
theorem extract_payload (ldst : dst.length = 6) (lsrc : src.length = 6) :
    extract (dst ++ (src ++ (a :: b :: payload))) 14 = .ok payload := by
  have hparts : dst ++ (src ++ (a :: b :: payload)) = (dst ++ src ++ [a, b]) ++ payload := by
    simp
  rw [hparts]
  exact extract_append (by simp [ldst, lsrc])

/-- A frame with a known type. -/
theorem decode_parts (ldst : dst.length = 6) (lsrc : src.length = 6) {et : EthType}
    (het : bytesToEthType [a, b] = .ok (some et)) :
    decode (dst ++ (src ++ (a :: b :: payload))) =
      .ok ({ et := et, dstMac := toByteList dst, srcMac := toByteList src }, payload) := by
  have h0 : substring (dst ++ (src ++ (a :: b :: payload))) 0 6 = .ok dst :=
    substring_append_left ldst
  have h6 : substring (dst ++ (src ++ (a :: b :: payload))) 6 6 = .ok src := by
    rw [substring_append_right (i := 0) ldst, substring_append_left lsrc]
  simp only [decode, bytesField, substring_type ldst lsrc, het, h0, h6, extract_payload ldst lsrc,
    except_ok_bind]
  rfl

/-- The same frame comes back. -/
theorem encode_parts {et : EthType}
    (het : intToRawbyteString (ethTypeToInt et) 2 = .ok [a, b]) :
    encode { et := et, dstMac := toByteList dst, srcMac := toByteList src } payload =
      .ok (dst ++ (src ++ (a :: b :: payload))) := by
  rw [encode, byteListToString_toByteList, byteListToString_toByteList, het]
  simp only [except_ok_bind]
  show Except.ok (dst ++ src ++ [a, b] ++ payload) = _
  simp

end Parts

/-- Two addresses and a type are all `decode` cuts off. -/
theorem exists_parts {s : Str} (h : 14 ≤ s.length) :
    ∃ dst src a b payload, s = dst ++ (src ++ (a :: b :: payload)) ∧ dst.length = 6 ∧
      src.length = 6 := by
  obtain ⟨dst, s1, rfl, ldst, h1⟩ := exists_append_of_le (n := 6) (k := 8) h
  obtain ⟨src, s2, rfl, lsrc, h2⟩ := exists_append_of_le (n := 6) (k := 2) h1
  obtain ⟨ty, payload, rfl, lty, -⟩ := exists_append_of_le (n := 2) (k := 0) h2
  obtain ⟨a, b, rfl⟩ := List.length_eq_two.mp lty
  exact ⟨dst, src, a, b, payload, rfl, ldst, lsrc⟩

/-- What is decoded has a whole header. -/
theorem length_of_decode {s : Str} {r : Header × Str} (hdec : decode s = .ok r) :
    14 ≤ s.length := by
  by_contra hshort
  rw [decode, substring_error (by omega)] at hdec
  cases hdec

/-- What was decoded consists of its parts. -/
theorem decode_eq_ok {s payload : Str} {h : Header} (hdec : decode s = .ok (h, payload)) :
    ∃ dst src a b, s = dst ++ (src ++ (a :: b :: payload)) ∧ dst.length = 6 ∧ src.length = 6 ∧
      intToRawbyteString (ethTypeToInt h.et) 2 = .ok [a, b] ∧
      h.dstMac = toByteList dst ∧ h.srcMac = toByteList src := by
  obtain ⟨dst, src, a, b, p, rfl, ldst, lsrc⟩ := exists_parts (length_of_decode hdec)
  have hty : ∃ o, bytesToEthType [a, b] = .ok o := by
    rw [bytesToEthType, convertRawBytes_bytes]
    exact ⟨_, rfl⟩
  obtain ⟨o, ho⟩ := hty
  cases o with
  | none =>
    rw [decode, substring_type ldst lsrc, except_ok_bind, ho] at hdec
    cases hdec
  | some et =>
    rw [decode_parts ldst lsrc ho] at hdec
    cases hdec
    exact ⟨dst, src, a, b, rfl, ldst, lsrc, bytesToEthType_eq_some_iff.mp ho, rfl, rfl⟩

/-! ## Round trips -/

/-- The two bytes of a frame type. -/
theorem exists_type_bytes (et : EthType) :
    ∃ a b : UInt8, intToRawbyteString (ethTypeToInt et) 2 = .ok [a, b] ∧
      bytesToEthType [a, b] = .ok (some et) := by
  cases et with
  | arp => exact ⟨8, 6, by decide, by decide⟩
  | ipv4 => exact ⟨8, 0, by decide, by decide⟩
  | ipv6 => exact ⟨134, 221, by decide, by decide⟩

/-- **Decoding an encoded frame** gives the header and the payload back. -/
theorem decode_encode {h : Header} (payload : Str) (hdst : IsBytes 6 h.dstMac)
    (hsrc : IsBytes 6 h.srcMac) :
    ∃ s, encode h payload = .ok s ∧ decode s = .ok (h, payload) ∧
      extract s 14 = .ok payload := by
  obtain ⟨dst, hdst, ldst⟩ := hdst.exists_str
  obtain ⟨src, hsrc, lsrc⟩ := hsrc.exists_str
  obtain ⟨a, b, hty, het⟩ := exists_type_bytes h.et
  obtain ⟨et, dstMac, srcMac⟩ := h
  subst hdst hsrc
  exact ⟨_, encode_parts hty, decode_parts ldst lsrc het, extract_payload ldst lsrc⟩

/-- **Encoding a decoded frame** gives the frame back. -/
theorem encode_decode {s payload : Str} {h : Header} (hdec : decode s = .ok (h, payload)) :
    encode h payload = .ok s := by
  obtain ⟨dst, src, a, b, rfl, -, -, hty, hdst, hsrc⟩ := decode_eq_ok hdec
  obtain ⟨et, dstMac, srcMac⟩ := h
  subst hdst hsrc
  exact encode_parts hty

/-- `decode` accepts the frames with a known type. -/
theorem decode_succeeds_iff (s : Str) :
    (∃ r, decode s = .ok r) ↔ 14 ≤ s.length ∧ (s.drop 12).take 2 ∈ knownTypes := by
  constructor
  · rintro ⟨⟨h, payload⟩, hdec⟩
    refine ⟨length_of_decode hdec, ?_⟩
    obtain ⟨dst, src, a, b, rfl, ldst, lsrc, hty, -⟩ := decode_eq_ok hdec
    rw [type_bytes ldst lsrc, mem_knownTypes_iff]
    exact ⟨h.et, hty⟩
  · rintro ⟨hlen, hty⟩
    obtain ⟨dst, src, a, b, payload, rfl, ldst, lsrc⟩ := exists_parts hlen
    rw [type_bytes ldst lsrc, mem_knownTypes_iff] at hty
    obtain ⟨et, het⟩ := hty
    exact ⟨_, decode_parts ldst lsrc (bytesToEthType_eq_some_iff.mpr het)⟩

/-- **The Ethernet codec**: what `decode` accepts, and both round trips. -/
theorem eth_codec :
    (∀ s : Str, (∃ r, decode s = .ok r) ↔
      14 ≤ s.length ∧ (s.drop 12).take 2 ∈ [[0x08, 0x06], [0x08, 0x00], [0x86, 0xdd]]) ∧
    (∀ (s payload : Str) (h : Header), decode s = .ok (h, payload) →
      encode h payload = .ok s) ∧
    (∀ (h : Header) (payload : Str), IsBytes 6 h.dstMac → IsBytes 6 h.srcMac →
      (encode h payload >>= decode) = .ok (h, payload)) := by
  refine ⟨decode_succeeds_iff, fun s payload h => encode_decode, ?_⟩
  intro h payload hdst hsrc
  obtain ⟨s, hs, hdec, -⟩ := decode_encode payload hdst hsrc
  rw [hs, except_ok_bind, hdec]

/-- An ARP frame without payload, both ways. -/
theorem eth_codec_sample :
    encode ⟨.arp, [255, 255, 255, 255, 255, 255], [123, 124, 125, 126, 127, 128]⟩ [] =
        .ok [255, 255, 255, 255, 255, 255, 123, 124, 125, 126, 127, 128, 8, 6] ∧
      (encode ⟨.arp, [255, 255, 255, 255, 255, 255], [123, 124, 125, 126, 127, 128]⟩ [] >>=
          decode) =
        .ok (⟨.arp, [255, 255, 255, 255, 255, 255], [123, 124, 125, 126, 127, 128]⟩, []) :=
  ⟨eth_codec.2.1 [255, 255, 255, 255, 255, 255, 123, 124, 125, 126, 127, 128, 8, 6] [] _
      (by decide +kernel),
    eth_codec.2.2 _ [] ⟨rfl, by decide⟩ ⟨rfl, by decide⟩⟩

end Unikernel.Eth
