import Unikernel.Utils

/-!
# arplib

The ARP codec (`Libs/arplib/arplib.sml`): nine fixed fields, 28 bytes. `encode`
does not look at the operation of the header: the source writes the constant
`2` where `arpOperationToInt oper` belongs, so every encoded packet is a reply.
-/

namespace Unikernel.ARP

open Sml

/-- `ARP_OP`. -/
inductive ArpOp where
  | request
  | reply
  deriving DecidableEq, Repr

/-- The fields in the order of the packet. -/
structure Header where
  htype : Int
  ptype : Int
  hlen : Int
  plen : Int
  oper : ArpOp
  sha : List Int
  spa : List Int
  tha : List Int
  tpa : List Int
  deriving DecidableEq, Repr

/-- Any other number raises. -/
def toArpOperation (i : Int) : Except Exn ArpOp :=
  if i = 1 then .ok .request
  else if i = 2 then .ok .reply
  else .error (.fail "Could not determine arp operation")

def arpOperationToString : ArpOp → String
  | .request => "Request"
  | .reply => "Reply"

def arpOperationToInt : ArpOp → Int
  | .request => 1
  | .reply => 2

def toString (h : Header) : String :=
  "\n-- ARP-packet --\n" ++
  "Hardware type: " ++ intToString h.htype ++ "\n" ++
  "Protocol type: " ++ intToString h.ptype ++ "\n" ++
  "Hardware address length: " ++ intToString h.hlen ++ "\n" ++
  "Protocol address length: " ++ intToString h.plen ++ "\n" ++
  "Operation: " ++ arpOperationToString h.oper ++ "\n" ++
  "Sender hardware address: [" ++ rawBytesString h.sha ++ "]\n" ++
  "Sender protocol address: [" ++ rawBytesString h.spa ++ "]\n" ++
  "Target hardware adress: [" ++ rawBytesString h.tha ++ "]\n" ++
  "Target protocol address: [" ++ rawBytesString h.tpa ++ "]\n\n"

/-- The operation is written as a reply, whatever the header says. -/
def encode (h : Header) : Except Exn Str := do
  let htype ← intToRawbyteString h.htype 2
  let ptype ← intToRawbyteString h.ptype 2
  let hlen ← intToRawbyteString h.hlen 1
  let plen ← intToRawbyteString h.plen 1
  let oper ← intToRawbyteString 2 2
  let sha ← byteListToString h.sha
  let spa ← byteListToString h.spa
  let tha ← byteListToString h.tha
  let tpa ← byteListToString h.tpa
  return htype ++ ptype ++ hlen ++ plen ++ oper ++ sha ++ spa ++ tha ++ tpa

/-- The fields in their order. An operation that has no name raises before the
addresses are read. -/
def decode (s : Str) : Except Exn Header := do
  let htype ← intField s 0 2
  let ptype ← intField s 2 2
  let hlen ← intField s 4 1
  let plen ← intField s 5 1
  let oper ← toArpOperation (← intField s 6 2)
  let sha ← bytesField s 8 6
  let spa ← bytesField s 14 4
  let tha ← bytesField s 18 6
  let tpa ← bytesField s 24 4
  return { htype, ptype, hlen, plen, oper, sha, spa, tha, tpa }

/-! ## The codec on explicit bytes

A packet of 28 bytes or more: eight bytes one by one, and the four addresses as strings. -/

/-- Decoding a packet given by its pieces: only the operation is checked. -/
theorem decode_bytes (b0 b1 b2 b3 b4 b5 b6 b7 : UInt8) {sha spa tha tpa : Str} (rest : Str)
    (hsha : sha.length = 6) (hspa : spa.length = 4) (htha : tha.length = 6)
    (htpa : tpa.length = 4) :
    decode ([b0, b1, b2, b3, b4, b5, b6, b7] ++ (sha ++ (spa ++ (tha ++ (tpa ++ rest))))) = (do
      let oper ← toArpOperation (b6.toNat * 256 + b7.toNat)
      return { htype := b0.toNat * 256 + b1.toNat, ptype := b2.toNat * 256 + b3.toNat,
               hlen := b4.toNat, plen := b5.toNat, oper,
               sha := toByteList sha, spa := toByteList spa, tha := toByteList tha,
               tpa := toByteList tpa }) := by
  have hpre : [b0, b1, b2, b3, b4, b5, b6, b7].length = 8 := rfl
  generalize hs : [b0, b1, b2, b3, b4, b5, b6, b7] ++
    (sha ++ (spa ++ (tha ++ (tpa ++ rest)))) = s
  have h8 : substring s 8 6 = .ok sha := by
    rw [← hs, substring_append_right (i := 0) hpre, substring_append_left hsha]
  have h14 : substring s 14 4 = .ok spa := by
    rw [← hs, substring_append_right (i := 6) hpre, substring_append_right (i := 0) hsha,
      substring_append_left hspa]
  have h18 : substring s 18 6 = .ok tha := by
    rw [← hs, substring_append_right (i := 10) hpre, substring_append_right (i := 4) hsha,
      substring_append_right (i := 0) hspa, substring_append_left htha]
  have h24 : substring s 24 4 = .ok tpa := by
    rw [← hs, substring_append_right (i := 16) hpre, substring_append_right (i := 10) hsha,
      substring_append_right (i := 6) hspa, substring_append_right (i := 0) htha,
      substring_append_left htpa]
  have h0 : substring s 0 2 = .ok [b0, b1] := by simp [← hs, substring]
  have h2 : substring s 2 2 = .ok [b2, b3] := by simp [← hs, substring]
  have h4 : substring s 4 1 = .ok [b4] := by simp [← hs, substring]
  have h5 : substring s 5 1 = .ok [b5] := by simp [← hs, substring]
  have h6 : substring s 6 2 = .ok [b6, b7] := by simp [← hs, substring]
  simp only [decode, intField, bytesField, h0, h2, h4, h5, h6, h8, h14, h18, h24,
    except_ok_bind, convertRawBytes_byte, convertRawBytes_bytes]
  rfl

/-- The pieces of a packet that is long enough. -/
theorem exists_pieces {s : Str} (h : 28 ≤ s.length) :
    ∃ b0 b1 b2 b3 b4 b5 b6 b7 sha spa tha tpa rest,
      s = [b0, b1, b2, b3, b4, b5, b6, b7] ++ (sha ++ (spa ++ (tha ++ (tpa ++ rest)))) ∧
      sha.length = 6 ∧ spa.length = 4 ∧ tha.length = 6 ∧ tpa.length = 4 := by
  obtain ⟨b0, b1, b2, b3, s1, rfl, h1⟩ := exists_four (n := 24) h
  obtain ⟨b4, b5, b6, b7, s2, rfl, h2⟩ := exists_four (n := 20) h1
  obtain ⟨sha, s3, rfl, hsha, h3⟩ := exists_append_of_le (n := 6) (k := 14) h2
  obtain ⟨spa, s4, rfl, hspa, h4⟩ := exists_append_of_le (n := 4) (k := 10) h3
  obtain ⟨tha, s5, rfl, htha, h5⟩ := exists_append_of_le (n := 6) (k := 4) h4
  obtain ⟨tpa, rest, rfl, htpa, -⟩ := exists_append_of_le (n := 4) (k := 0) h5
  exact ⟨b0, b1, b2, b3, b4, b5, b6, b7, sha, spa, tha, tpa, rest, rfl, hsha, hspa, htha, htpa⟩

/-- What is decoded has all of its fields. -/
theorem length_of_decode {s : Str} {h : Header} (hdec : decode s = .ok h) :
    28 ≤ s.length := by
  simp only [decode, bytesField, except_bind_eq_ok] at hdec
  obtain ⟨_, -, _, -, _, -, _, -, _, -, _, -, _, -, _, -, _, -, _, ⟨tpa, htpa, -⟩, -⟩ := hdec
  by_contra hlt
  rw [substring_error (by omega)] at htpa
  cases htpa

/-- The operation field of a packet. -/
def operField (s : Str) : Nat := beValue ((s.drop 6).take 2)

/-- The operations that have a name. -/
theorem toArpOperation_eq_ok_iff {i : Int} :
    (∃ o, toArpOperation i = .ok o) ↔ i = 1 ∨ i = 2 := by
  simp only [toArpOperation]
  split
  · next h => exact ⟨fun _ => .inl h, fun _ => ⟨_, rfl⟩⟩
  · next h1 =>
    split
    · next h => exact ⟨fun _ => .inr h, fun _ => ⟨_, rfl⟩⟩
    · next h2 =>
      constructor
      · rintro ⟨o, ho⟩
        cases ho
      · rintro (h | h)
        · exact absurd h h1
        · exact absurd h h2

/-- What `encode` writes: the constant `2` stands where the operation belongs. -/
theorem encode_bytes {h : Header} {b0 b1 b2 b3 b4 b5 : UInt8} {sha spa tha tpa : Str}
    (hhtype : h.htype = b0.toNat * 256 + b1.toNat) (hptype : h.ptype = b2.toNat * 256 + b3.toNat)
    (hhlen : h.hlen = b4.toNat) (hplen : h.plen = b5.toNat)
    (hsha : h.sha = toByteList sha) (hspa : h.spa = toByteList spa)
    (htha : h.tha = toByteList tha) (htpa : h.tpa = toByteList tpa) :
    encode h = .ok ([b0, b1, b2, b3, b4, b5, 0, 2] ++ (sha ++ (spa ++ (tha ++ tpa)))) := by
  have htwo : intToRawbyteString 2 2 = .ok [0, 2] := rfl
  simp only [encode, hhtype, hptype, hhlen, hplen, hsha, hspa, htha, htpa,
    intToRawbyteString_bytes, intToRawbyteString_byte, htwo, byteListToString_toByteList,
    except_ok_bind, List.append_assoc]
  rfl

/-- A header whose fields fit their wire widths. -/
structure Header.InRange (h : Header) : Prop where
  htype : 0 ≤ h.htype ∧ h.htype < 65536
  ptype : 0 ≤ h.ptype ∧ h.ptype < 65536
  hlen : 0 ≤ h.hlen ∧ h.hlen < 256
  plen : 0 ≤ h.plen ∧ h.plen < 256
  sha : IsBytes 6 h.sha
  spa : IsBytes 4 h.spa
  tha : IsBytes 6 h.tha
  tpa : IsBytes 4 h.tpa

instance (h : Header) : Decidable h.InRange :=
  decidable_of_iff ((0 ≤ h.htype ∧ h.htype < 65536) ∧ (0 ≤ h.ptype ∧ h.ptype < 65536) ∧
      (0 ≤ h.hlen ∧ h.hlen < 256) ∧ (0 ≤ h.plen ∧ h.plen < 256) ∧
      IsBytes 6 h.sha ∧ IsBytes 4 h.spa ∧ IsBytes 6 h.tha ∧ IsBytes 4 h.tpa)
    ⟨fun ⟨t, p, l, m, a, b, c, d⟩ => ⟨t, p, l, m, a, b, c, d⟩,
      fun ⟨t, p, l, m, a, b, c, d⟩ => ⟨t, p, l, m, a, b, c, d⟩⟩

/-- Every encoded header comes back as a reply. -/
theorem decode_encode {h : Header} (hr : h.InRange) :
    (encode h >>= decode) = .ok { h with oper := .reply } := by
  obtain ⟨b0, b1, hhtype⟩ := exists_bytes hr.htype.1 hr.htype.2
  obtain ⟨b2, b3, hptype⟩ := exists_bytes hr.ptype.1 hr.ptype.2
  obtain ⟨b4, hhlen⟩ := exists_byte hr.hlen.1 hr.hlen.2
  obtain ⟨b5, hplen⟩ := exists_byte hr.plen.1 hr.plen.2
  obtain ⟨sha, hsha, lsha⟩ := hr.sha.exists_str
  obtain ⟨spa, hspa, lspa⟩ := hr.spa.exists_str
  obtain ⟨tha, htha, ltha⟩ := hr.tha.exists_str
  obtain ⟨tpa, htpa, ltpa⟩ := hr.tpa.exists_str
  have hdec := decode_bytes b0 b1 b2 b3 b4 b5 0 2 [] lsha lspa ltha ltpa
  have hop : toArpOperation (((0 : UInt8).toNat : Int) * 256 + ((2 : UInt8).toNat : Int)) =
      .ok .reply := by decide
  rw [List.append_nil, hop] at hdec
  rw [encode_bytes hhtype hptype hhlen hplen hsha hspa htha htpa, except_ok_bind, hdec,
    ← hhtype, ← hptype, ← hhlen, ← hplen, ← hsha, ← hspa, ← htha, ← htpa]
  rfl

/-- `decode` accepts exactly the packets with a known operation. -/
theorem decode_succeeds_iff (s : Str) :
    (∃ h, decode s = .ok h) ↔ 28 ≤ s.length ∧ (operField s = 1 ∨ operField s = 2) := by
  constructor
  · rintro ⟨h, hdec⟩
    have hlen := length_of_decode hdec
    obtain ⟨b0, b1, b2, b3, b4, b5, b6, b7, sha, spa, tha, tpa, rest, rfl, lsha, lspa, ltha,
      ltpa⟩ := exists_pieces hlen
    rw [decode_bytes _ _ _ _ _ _ _ _ _ lsha lspa ltha ltpa, except_bind_eq_ok] at hdec
    obtain ⟨o, ho, -⟩ := hdec
    have hop := toArpOperation_eq_ok_iff.mp ⟨o, ho⟩
    refine ⟨hlen, ?_⟩
    simp only [operField, List.cons_append, List.drop_succ_cons, List.drop_zero,
      List.take_succ_cons, List.take_zero, beValue_two]
    omega
  · rintro ⟨hlen, hop⟩
    obtain ⟨b0, b1, b2, b3, b4, b5, b6, b7, sha, spa, tha, tpa, rest, rfl, lsha, lspa, ltha,
      ltpa⟩ := exists_pieces hlen
    simp only [operField, List.cons_append, List.drop_succ_cons, List.drop_zero,
      List.take_succ_cons, List.take_zero, beValue_two] at hop
    obtain ⟨o, ho⟩ := toArpOperation_eq_ok_iff (i := b6.toNat * 256 + b7.toNat).mpr (by omega)
    rw [decode_bytes _ _ _ _ _ _ _ _ _ lsha lspa ltha ltpa, ho]
    exact ⟨_, rfl⟩

/-- The addresses of the sender of a decoded packet are bytes of it. -/
theorem decode_addresses {s : Str} {h : Header} (hdec : decode s = .ok h) :
    ∃ sha spa : Str, h.sha = toByteList sha ∧ h.spa = toByteList spa ∧ sha.length = 6 ∧
      spa.length = 4 := by
  obtain ⟨b0, b1, b2, b3, b4, b5, b6, b7, sha, spa, tha, tpa, rest, rfl, lsha, lspa, ltha, ltpa⟩ :=
    exists_pieces (length_of_decode hdec)
  rw [decode_bytes _ _ _ _ _ _ _ _ _ lsha lspa ltha ltpa, except_bind_eq_ok] at hdec
  obtain ⟨o, -, hdec⟩ := hdec
  cases hdec
  exact ⟨sha, spa, rfl, rfl, lsha, lspa⟩

/-- Re-encoding a decoded packet is exact for replies only. -/
theorem encode_decode {s : Str} {h : Header} (hdec : decode s = .ok h) :
    encode h = .ok (s.take 28) ↔ operField s = 2 := by
  obtain ⟨b0, b1, b2, b3, b4, b5, b6, b7, sha, spa, tha, tpa, rest, rfl, lsha, lspa, ltha, ltpa⟩ :=
    exists_pieces (length_of_decode hdec)
  rw [decode_bytes _ _ _ _ _ _ _ _ _ lsha lspa ltha ltpa, except_bind_eq_ok] at hdec
  obtain ⟨o, -, hdec⟩ := hdec
  cases hdec
  have htake : ([b0, b1, b2, b3, b4, b5, b6, b7] ++
      (sha ++ (spa ++ (tha ++ (tpa ++ rest))))).take 28 =
      [b0, b1, b2, b3, b4, b5, b6, b7] ++ (sha ++ (spa ++ (tha ++ tpa))) := by
    simp [List.take_append, lsha, lspa, ltha, ltpa, List.take_of_length_le]
  rw [htake, encode_bytes rfl rfl rfl rfl rfl rfl rfl rfl]
  simp only [operField, List.cons_append, List.drop_succ_cons, List.drop_zero,
    List.take_succ_cons, List.take_zero, beValue_two, Except.ok.injEq, List.cons.injEq, true_and,
    and_true, List.nil_append]
  constructor
  · rintro ⟨h6, h7⟩
    rw [← h6, ← h7]
    rfl
  · intro hop
    have h6 := b6.toNat_lt
    have h7 := b7.toNat_lt
    constructor
    · exact (UInt8.toNat_inj.mp (show b6.toNat = 0 by omega)).symm
    · exact (UInt8.toNat_inj.mp (show b7.toNat = 2 by omega)).symm

/-- **The ARP codec**: what `decode` accepts, and that both round trips are
exact for replies and only for them. -/
theorem arp_codec_iff_reply (h : Header) (s : Str) :
    (h.InRange → ((encode h >>= decode) = .ok h ↔ h.oper = .reply)) ∧
    ((∃ g, decode s = .ok g) ↔ 28 ≤ s.length ∧ (operField s = 1 ∨ operField s = 2)) ∧
    (∀ g, decode s = .ok g → (encode g = .ok (s.take 28) ↔ operField s = 2)) := by
  refine ⟨?_, decode_succeeds_iff s, fun g hdec => encode_decode hdec⟩
  intro hr
  rw [decode_encode hr, Except.ok.injEq]
  constructor
  · intro heq
    rw [← heq]
  · intro hop
    rw [← hop]

/-- The request a neighbour broadcasts for `10.0.0.2`. -/
def sampleRequest : Header where
  htype := 1
  ptype := 0x0800
  hlen := 6
  plen := 4
  oper := .request
  sha := [123, 124, 125, 126, 127, 128]
  spa := [10, 0, 0, 1]
  tha := [0, 0, 0, 0, 0, 0]
  tpa := [10, 0, 0, 2]

theorem sampleRequest_inRange : sampleRequest.InRange := by decide

/-- The codec theorem at `sampleRequest`. -/
theorem arp_codec_iff_reply_sample :
    (encode sampleRequest >>= decode) = .ok sampleRequest ↔ sampleRequest.oper = .reply :=
  (arp_codec_iff_reply sampleRequest []).1 sampleRequest_inRange

/-- A request does not survive the codec. -/
theorem sampleRequest_not_preserved :
    sampleRequest.InRange ∧ (encode sampleRequest >>= decode) ≠ .ok sampleRequest :=
  ⟨sampleRequest_inRange, by decide +kernel⟩

end Unikernel.ARP
