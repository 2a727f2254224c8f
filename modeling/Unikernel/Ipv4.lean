import Unikernel.Utils
import Mathlib.Data.Int.Bitwise

/-!
# ipv4lib

The IPv4 codec (`Libs/ipv4lib/ipv4lib.sml`).

- `checksumHeader`: the 20 header bytes with a zero checksum; `encode` and
  `verifyChecksumIPv4` build the same string, so the source's two copies of
  it are one definition here.
- `encode` ignores `version`, `totalLength` and `headerChecksum` of its
  argument: it writes version 4, computes the length from the payload and
  cuts the computed checksum into the string.
- `decode` never looks at `ihl` or `totalLength`: the payload is everything
  after the first 20 bytes.
-/

namespace Unikernel.IPv4

open Sml

/-- The protocols the library knows, and one for all others. -/
inductive Protocol where
  | icmp
  | tcp
  | udp
  | unknown
  deriving DecidableEq, Repr

/-- The fields in the order of the packet. The options are no field: `decode` ignores `ihl`. -/
structure Header where
  version : Int
  ihl : Int
  dscp : Int
  ecn : Int
  totalLength : Int
  identification : Int
  flags : Int
  fragmentOffset : Int
  timeToLive : Int
  protocol : Protocol
  headerChecksum : Int
  sourceAddr : List Int
  destAddr : List Int
  deriving DecidableEq, Repr

/-- Two bytes each; an odd one at the end stays as it is. -/
def toHextets : List Int → List Int
  | [] => []
  | [x] => [x]
  | x :: y :: t => (x * pow 2 8 + y) :: toHextets t

/-- The complement of the sum of `l`, whose carry is folded in once. The word
operations are on `Word.word`, 64 bits here. -/
def ipv4Checksum (l : List Int) : Except Exn Int :=
  let sum := l.foldl (· + ·) 0
  let carry := (sum - getRBits sum 16) / pow 2 16
  let sumWithoutCarry := sum - (sum - getRBits sum 16)
  let w : BitVec 64 := BitVec.ofInt 64 0xFFFF &&& ~~~ BitVec.ofInt 64 (sumWithoutCarry + carry)
  checked w.toNat

/-- Every number is some protocol. -/
def intToProt (i : Int) : Protocol :=
  if i = 0x01 then .icmp
  else if i = 0x06 then .tcp
  else if i = 0x11 then .udp
  else .unknown

/-- But not every protocol has a number. -/
def protToInt : Protocol → Except Exn Int
  | .icmp => .ok 0x01
  | .tcp => .ok 0x06
  | .udp => .ok 0x11
  | .unknown => .error (.fail "Unknown protocol.")

def protToString : Protocol → String
  | .icmp => "ICMP"
  | .tcp => "TCP"
  | .udp => "UDP"
  | .unknown => "Uknown protocol"

/-- The header bytes with a zero checksum, as `encode` and `verifyChecksumIPv4` build them. -/
def checksumHeader (h : Header) (payload : Str) : Except Exn Str := do
  let verIhl ← intToRawbyteString (← checked ((← setLBits 4 4) + h.ihl)) 1
  let tos ← intToRawbyteString (← checked ((← setLBits h.dscp 6) + h.ecn)) 1
  let len ← intToRawbyteString (20 + payload.length) 2
  let ident ← intToRawbyteString h.identification 2
  let flags ← checked ((← setLBits h.flags 3) * pow 2 8)
  let frag ← intToRawbyteString (← checked (flags + h.fragmentOffset)) 2
  let ttl ← intToRawbyteString h.timeToLive 1
  let prot ← intToRawbyteString (← protToInt h.protocol) 1
  let sum ← intToRawbyteString 0 2
  let src ← byteListToString h.sourceAddr
  let dst ← byteListToString h.destAddr
  return verIhl ++ tos ++ len ++ ident ++ frag ++ ttl ++ prot ++ sum ++ src ++ dst

/-- The fields by their positions, and everything from byte 20 on as the payload. -/
def decode (s : Str) : Except Exn (Header × Str) := do
  let version := getLBits (← intField s 0 1) 4
  let ihl := getRBits (← intField s 0 1) 4
  let dscp := getLBits (← intField s 1 1) 6
  let ecn := getRBits (← intField s 1 1) 2
  let totalLength ← intField s 2 2
  let identification ← intField s 4 2
  let flags := getLBits (← intField s 6 1) 3
  let fragmentOffset := getRBits (← intField s 6 2) 13
  let timeToLive ← intField s 8 1
  let protocol := intToProt (← intField s 9 1)
  let headerChecksum ← intField s 10 2
  let sourceAddr ← bytesField s 12 4
  let destAddr ← bytesField s 16 4
  return ({ version, ihl, dscp, ecn, totalLength, identification, flags, fragmentOffset,
            timeToLive, protocol, headerChecksum, sourceAddr, destAddr }, ← extract s 20)

def toString (h : Header) : String :=
  "\n-- IPV4 INFO --\n" ++
  "Version: " ++ intToString h.version ++ "\n" ++
  "IHL: " ++ intToString h.ihl ++ "\n" ++
  "DSCP: " ++ intToString h.dscp ++ "\n" ++
  "ECN: " ++ intToString h.ecn ++ "\n" ++
  "Total length: " ++ intToString h.totalLength ++ "\n" ++
  "Identification: " ++ intToString h.identification ++ "\n" ++
  "Flags: " ++ intToString h.flags ++ "\n" ++
  "Fragment offset: " ++ intToString h.fragmentOffset ++ "\n" ++
  "Time to live: " ++ intToString h.timeToLive ++ "\n" ++
  "Protocol: " ++ protToString h.protocol ++ "\n" ++
  "Header checksum: " ++ intToString h.headerChecksum ++ "\n" ++
  "SRC-ADDRESS: " ++ rawBytesString h.sourceAddr ++ "\n" ++
  "DST-ADDRESS: " ++ rawBytesString h.destAddr ++ "\n"

def verifyChecksumIPv4 (h : Header) (payload : Str) : Except Exn (Header × Str) := do
  let checkSum ← ipv4Checksum (toHextets (toByteList (← checksumHeader h payload)))
  if checkSum = h.headerChecksum then return (h, payload)
  else .error (.fail "Bad checksum in incomming IPv4 packet.")

/-- The header with its checksum in the middle, in front of the payload. -/
def encode (h : Header) (payload : Str) : Except Exn Str := do
  let checksumHeader ← checksumHeader h payload
  let checkSum ← ipv4Checksum (toHextets (toByteList checksumHeader))
  let header := (← substring checksumHeader 0 10) ++ (← intToRawbyteString checkSum 2) ++
    (← extract checksumHeader 12)
  return header ++ payload

/-! ## The codec on explicit bytes

The bit fields of the source are shifts and masks on bytes; here they are quotients and remainders
of the numbers the bytes stand for. -/

theorem getLBits_four (i : Int) : getLBits i 4 = i / 16 := rfl

theorem getLBits_six (i : Int) : getLBits i 6 = i / 4 := rfl

theorem getLBits_three (i : Int) : getLBits i 3 = i / 32 := rfl

theorem getRBits_four (i : Int) : getRBits i 4 = i % 16 := rfl

theorem getRBits_two (i : Int) : getRBits i 2 = i % 4 := rfl

theorem getRBits_thirteen (i : Int) : getRBits i 13 = i % 8192 := rfl

/-- What `decode` reads from the 20 header bytes. -/
def headerOf (b0 b1 b2 b3 b4 b5 b6 b7 b8 b9 b10 b11 b12 b13 b14 b15 b16 b17 b18 b19 : UInt8) :
    Header where
  version := b0.toNat / 16
  ihl := b0.toNat % 16
  dscp := b1.toNat / 4
  ecn := b1.toNat % 4
  totalLength := b2.toNat * 256 + b3.toNat
  identification := b4.toNat * 256 + b5.toNat
  flags := b6.toNat / 32
  fragmentOffset := (b6.toNat * 256 + b7.toNat) % 8192
  timeToLive := b8.toNat
  protocol := intToProt b9.toNat
  headerChecksum := b10.toNat * 256 + b11.toNat
  sourceAddr := toByteList [b12, b13, b14, b15]
  destAddr := toByteList [b16, b17, b18, b19]

/-- Twenty bytes are always a header. -/
theorem decode_bytes
    (b0 b1 b2 b3 b4 b5 b6 b7 b8 b9 b10 b11 b12 b13 b14 b15 b16 b17 b18 b19 : UInt8) (p : Str) :
    decode ([b0, b1, b2, b3, b4, b5, b6, b7, b8, b9, b10, b11, b12, b13, b14, b15, b16, b17,
        b18, b19] ++ p) =
      .ok (headerOf b0 b1 b2 b3 b4 b5 b6 b7 b8 b9 b10 b11 b12 b13 b14 b15 b16 b17 b18 b19, p) := by
  simp [decode, intField, bytesField, substring, extract, headerOf, getLBits_four, getLBits_six,
    getLBits_three, getRBits_four, getRBits_two, getRBits_thirteen]

/-- What is decoded has a whole header. -/
theorem length_of_decode {s : Str} {r : Header × Str} (hdec : decode s = .ok r) :
    20 ≤ s.length := by
  simp only [decode, except_bind_eq_ok] at hdec
  obtain ⟨_, -, _, -, _, -, _, -, _, -, _, -, _, -, _, -, _, -, _, -, _, -, _, -, _, -, p, hp, -⟩ :=
    hdec
  exact (extract_eq_ok_iff.mp hp).1

/-- Twenty bytes in front of the payload are all `decode` needs. -/
theorem exists_bytes_of_length {s : Str} (h : 20 ≤ s.length) :
    ∃ b0 b1 b2 b3 b4 b5 b6 b7 b8 b9 b10 b11 b12 b13 b14 b15 b16 b17 b18 b19 p,
      s = [b0, b1, b2, b3, b4, b5, b6, b7, b8, b9, b10, b11, b12, b13, b14, b15, b16, b17, b18,
        b19] ++ p := by
  obtain ⟨b0, b1, b2, b3, s1, rfl, h1⟩ := exists_four (n := 16) h
  obtain ⟨b4, b5, b6, b7, s2, rfl, h2⟩ := exists_four (n := 12) h1
  obtain ⟨b8, b9, b10, b11, s3, rfl, h3⟩ := exists_four (n := 8) h2
  obtain ⟨b12, b13, b14, b15, s4, rfl, h4⟩ := exists_four (n := 4) h3
  obtain ⟨b16, b17, b18, b19, p, rfl, -⟩ := exists_four (n := 0) h4
  exact ⟨b0, b1, b2, b3, b4, b5, b6, b7, b8, b9, b10, b11, b12, b13, b14, b15, b16, b17, b18, b19,
    p, rfl⟩

/-- Nothing but the length is checked. -/
theorem decode_succeeds_iff (s : Str) : (∃ r, decode s = .ok r) ↔ 20 ≤ s.length := by
  constructor
  · rintro ⟨r, hr⟩
    exact length_of_decode hr
  · intro hlen
    obtain ⟨b0, b1, b2, b3, b4, b5, b6, b7, b8, b9, b10, b11, b12, b13, b14, b15, b16, b17, b18,
      b19, p, rfl⟩ := exists_bytes_of_length hlen
    exact ⟨_, decode_bytes ..⟩

/-- Decoded fields fit their wire widths, and the payload is the rest of the string. -/
theorem decode_ranges {s p : Str} {h : Header} (hdec : decode s = .ok (h, p)) :
    (0 ≤ h.fragmentOffset ∧ h.fragmentOffset < 8192) ∧
      (0 ≤ h.identification ∧ h.identification < 65536) ∧ IsBytes 4 h.sourceAddr ∧
      p = s.drop 20 := by
  obtain ⟨b0, b1, b2, b3, b4, b5, b6, b7, b8, b9, b10, b11, b12, b13, b14, b15, b16, b17, b18,
    b19, q, rfl⟩ := exists_bytes_of_length (length_of_decode hdec)
  rw [decode_bytes] at hdec
  cases hdec
  refine ⟨?_, bytes_range b4 b5, isBytes_toByteList [b12, b13, b14, b15], rfl⟩
  simp only [headerOf]
  omega

/-- The numbers `encode` writes into the header, and the bytes they are
written as. -/
structure Encodes (h : Header) (p : Str)
    (b0 b1 b2 b3 b4 b5 b6 b7 b8 b9 b12 b13 b14 b15 b16 b17 b18 b19 : UInt8) : Prop where
  ihl : 0 ≤ h.ihl ∧ 64 + h.ihl = b0.toNat
  dscp : 0 ≤ h.dscp ∧ 0 ≤ h.ecn ∧ h.dscp * 4 + h.ecn = b1.toNat
  length : 20 + (p.length : Int) = b2.toNat * 256 + b3.toNat
  identification : h.identification = b4.toNat * 256 + b5.toNat
  flags : 0 ≤ h.flags ∧ 0 ≤ h.fragmentOffset ∧
    h.flags * 32 * 256 + h.fragmentOffset = b6.toNat * 256 + b7.toNat
  timeToLive : h.timeToLive = b8.toNat
  protocol : protToInt h.protocol = .ok b9.toNat
  sourceAddr : h.sourceAddr = toByteList [b12, b13, b14, b15]
  destAddr : h.destAddr = toByteList [b16, b17, b18, b19]

/-- Left shifts, on numbers that stay within a machine integer. -/
theorem setLBits_small {i : Int} (h0 : 0 ≤ i) (h1 : i < 65536) :
    setLBits i 4 = .ok (i * 16) ∧ setLBits i 6 = .ok (i * 4) ∧ setLBits i 3 = .ok (i * 32) :=
  ⟨checked_small (i := i * 16) (by omega) (by omega),
    checked_small (i := i * 4) (by omega) (by omega),
    checked_small (i := i * 32) (by omega) (by omega)⟩

/-- The bytes that are summed: the checksum itself is zero in them. -/
theorem checksumHeader_bytes {h : Header} {p : Str}
    {b0 b1 b2 b3 b4 b5 b6 b7 b8 b9 b12 b13 b14 b15 b16 b17 b18 b19 : UInt8}
    (e : Encodes h p b0 b1 b2 b3 b4 b5 b6 b7 b8 b9 b12 b13 b14 b15 b16 b17 b18 b19) :
    checksumHeader h p = .ok ([b0, b1, b2, b3, b4, b5, b6, b7, b8, b9] ++
      ([0, 0] ++ [b12, b13, b14, b15, b16, b17, b18, b19])) := by
  have h0 := byte_lt b0
  have h1 := byte_lt b1
  have h6 := byte_lt b6
  have h7 := byte_lt b7
  have hver : setLBits 4 4 = .ok 64 := rfl
  have hihl : checked (64 + h.ihl) = .ok b0.toNat := by
    rw [e.ihl.2]
    exact checked_small (by omega) (by omega)
  have hdscp : setLBits h.dscp 6 = .ok (h.dscp * 4) :=
    (setLBits_small e.dscp.1 (by have := e.dscp; omega)).2.1
  have htos : checked (h.dscp * 4 + h.ecn) = .ok b1.toNat := by
    rw [e.dscp.2.2]
    exact checked_small (by omega) (by omega)
  have hfl : setLBits h.flags 3 = .ok (h.flags * 32) :=
    (setLBits_small e.flags.1 (by have := e.flags; omega)).2.2
  have hfl' : checked (h.flags * 32 * pow 2 8) = .ok (h.flags * 32 * 256) :=
    checked_small (i := h.flags * 32 * 256) (by have := e.flags; omega) (by have := e.flags; omega)
  have hfrag : checked (h.flags * 32 * 256 + h.fragmentOffset) =
      .ok (b6.toNat * 256 + b7.toNat) := by
    rw [e.flags.2.2]
    exact checked_small (by omega) (by omega)
  have hzero : intToRawbyteString 0 2 = .ok [0, 0] := rfl
  simp only [checksumHeader, hver, hihl, hdscp, htos, hfl, hfl', hfrag, e.length,
    e.identification, e.timeToLive, e.protocol, e.sourceAddr, e.destAddr, hzero, except_ok_bind,
    intToRawbyteString_byte, intToRawbyteString_bytes, byteListToString_toByteList]
  rfl

/-! ## The checksum -/

/-- The checksum `encode` puts into the header. -/
def headerSum (h : Header) (payload : Str) : Except Exn Int := do
  ipv4Checksum (toHextets (toByteList (← checksumHeader h payload)))

/-- Whatever is summed, the masked complement fits two bytes. -/
theorem ipv4Checksum_range (l : List Int) :
    ∃ c, ipv4Checksum l = .ok c ∧ 0 ≤ c ∧ c < 65536 := by
  have hmask : ∀ w : BitVec 64, (BitVec.ofInt 64 0xFFFF &&& w).toNat ≤ 0xFFFF := by
    intro w
    rw [BitVec.toNat_and]
    exact Nat.and_le_left
  simp only [ipv4Checksum]
  generalize (~~~ BitVec.ofInt 64 _ : BitVec 64) = w
  have hw := hmask w
  exact ⟨_, checked_small (by omega) (by omega), by omega, by omega⟩

/-- The header as bytes, once its checksum is known. -/
theorem encode_bytes {h : Header} {p : Str}
    {b0 b1 b2 b3 b4 b5 b6 b7 b8 b9 c0 c1 b12 b13 b14 b15 b16 b17 b18 b19 : UInt8}
    (e : Encodes h p b0 b1 b2 b3 b4 b5 b6 b7 b8 b9 b12 b13 b14 b15 b16 b17 b18 b19)
    (hsum : headerSum h p = .ok (c0.toNat * 256 + c1.toNat)) :
    encode h p = .ok ([b0, b1, b2, b3, b4, b5, b6, b7, b8, b9, c0, c1, b12, b13, b14, b15, b16,
      b17, b18, b19] ++ p) := by
  have hcs := checksumHeader_bytes e
  rw [headerSum, hcs, except_ok_bind] at hsum
  have hcut : substring ([b0, b1, b2, b3, b4, b5, b6, b7, b8, b9] ++
      ([0, 0] ++ [b12, b13, b14, b15, b16, b17, b18, b19])) 0 10 =
        .ok [b0, b1, b2, b3, b4, b5, b6, b7, b8, b9] := substring_append_left rfl
  have hrest : extract ([b0, b1, b2, b3, b4, b5, b6, b7, b8, b9] ++
      ([0, 0] ++ [b12, b13, b14, b15, b16, b17, b18, b19])) 12 =
        .ok [b12, b13, b14, b15, b16, b17, b18, b19] := rfl
  simp only [encode, hcs, hsum, hcut, hrest, except_ok_bind, intToRawbyteString_bytes]
  rfl

/-! ## Round trips -/

/-- A version 4 header whose fields fit their wire widths. -/
structure Header.InRange (h : Header) : Prop where
  version : h.version = 4
  ihl : 0 ≤ h.ihl ∧ h.ihl < 16
  dscp : 0 ≤ h.dscp ∧ h.dscp < 64
  ecn : 0 ≤ h.ecn ∧ h.ecn < 4
  identification : 0 ≤ h.identification ∧ h.identification < 65536
  flags : 0 ≤ h.flags ∧ h.flags < 8
  fragmentOffset : 0 ≤ h.fragmentOffset ∧ h.fragmentOffset < 8192
  timeToLive : 0 ≤ h.timeToLive ∧ h.timeToLive < 256
  protocol : h.protocol ≠ .unknown
  sourceAddr : IsBytes 4 h.sourceAddr
  destAddr : IsBytes 4 h.destAddr

instance (h : Header) : Decidable h.InRange :=
  decidable_of_iff (h.version = 4 ∧ (0 ≤ h.ihl ∧ h.ihl < 16) ∧ (0 ≤ h.dscp ∧ h.dscp < 64) ∧
      (0 ≤ h.ecn ∧ h.ecn < 4) ∧ (0 ≤ h.identification ∧ h.identification < 65536) ∧
      (0 ≤ h.flags ∧ h.flags < 8) ∧ (0 ≤ h.fragmentOffset ∧ h.fragmentOffset < 8192) ∧
      (0 ≤ h.timeToLive ∧ h.timeToLive < 256) ∧ h.protocol ≠ .unknown ∧
      IsBytes 4 h.sourceAddr ∧ IsBytes 4 h.destAddr)
    ⟨fun ⟨v, i, d, e, n, f, o, l, p, s, a⟩ => ⟨v, i, d, e, n, f, o, l, p, s, a⟩,
      fun ⟨v, i, d, e, n, f, o, l, p, s, a⟩ => ⟨v, i, d, e, n, f, o, l, p, s, a⟩⟩

/-- A protocol with a number has one of eight bits, and is read back from it. -/
theorem exists_protocol_byte {p : Protocol} (hp : p ≠ .unknown) :
    ∃ b : UInt8, protToInt p = .ok b.toNat ∧ intToProt b.toNat = p := by
  cases p with
  | icmp => exact ⟨1, rfl, rfl⟩
  | tcp => exact ⟨6, rfl, rfl⟩
  | udp => exact ⟨17, rfl, rfl⟩
  | unknown => exact absurd rfl hp

/-- An address as bytes. -/
theorem exists_four_bytes {b : List Int} (h : IsBytes 4 b) :
    ∃ a0 a1 a2 a3 : UInt8, b = toByteList [a0, a1, a2, a3] := by
  obtain ⟨s, rfl, hlen⟩ := h.exists_str
  obtain ⟨a0, a1, a2, a3, t, rfl, -⟩ := exists_four (n := 0) hlen.ge
  obtain rfl : t = [] := by simpa using hlen
  exact ⟨a0, a1, a2, a3, rfl⟩

/-- The fields of a header in range are recovered from the bytes they are written as. -/
theorem Header.InRange.exists_encodes {h : Header} {p : Str} (hr : h.InRange)
    (hp : 20 + p.length < 65536) :
    ∃ b0 b1 b2 b3 b4 b5 b6 b7 b8 b9 b12 b13 b14 b15 b16 b17 b18 b19,
      Encodes h p b0 b1 b2 b3 b4 b5 b6 b7 b8 b9 b12 b13 b14 b15 b16 b17 b18 b19 ∧
      ∀ c0 c1 : UInt8,
        headerOf b0 b1 b2 b3 b4 b5 b6 b7 b8 b9 c0 c1 b12 b13 b14 b15 b16 b17 b18 b19 =
          { h with totalLength := 20 + p.length,
                   headerChecksum := c0.toNat * 256 + c1.toNat } := by
  obtain ⟨version, ihl, dscp, ecn, ident, flags, frag, ttl, prot, src, dst⟩ := hr
  obtain ⟨b0, hb0⟩ := exists_byte (i := 64 + h.ihl) (by omega) (by omega)
  obtain ⟨b1, hb1⟩ := exists_byte (i := h.dscp * 4 + h.ecn) (by omega) (by omega)
  obtain ⟨b2, b3, hb2⟩ := exists_bytes (i := 20 + (p.length : Int)) (by omega) (by omega)
  obtain ⟨b4, b5, hb4⟩ := exists_bytes ident.1 ident.2
  obtain ⟨b6, b7, hb6⟩ := exists_bytes (i := h.flags * 32 * 256 + h.fragmentOffset)
    (by omega) (by omega)
  obtain ⟨b8, hb8⟩ := exists_byte ttl.1 ttl.2
  obtain ⟨b9, hb9, hprot⟩ := exists_protocol_byte prot
  obtain ⟨b12, b13, b14, b15, hsrc⟩ := exists_four_bytes src
  obtain ⟨b16, b17, b18, b19, hdst⟩ := exists_four_bytes dst
  have h7 := byte_lt b7
  refine ⟨b0, b1, b2, b3, b4, b5, b6, b7, b8, b9, b12, b13, b14, b15, b16, b17, b18, b19, ?_, ?_⟩
  · exact ⟨⟨ihl.1, hb0⟩, ⟨dscp.1, ecn.1, hb1⟩, hb2, hb4, ⟨flags.1, frag.1, hb6⟩, hb8, hb9,
      hsrc, hdst⟩
  · intro c0 c1
    rw [headerOf, hprot, ← hsrc, ← hdst, ← hb8, ← hb4, ← hb2, ← hb6, ← hb0, ← hb1]
    obtain ⟨⟩ := h
    simp only [Header.mk.injEq] at *
    refine ⟨?_, ?_, ?_, ?_, trivial, trivial, ?_, ?_, trivial, trivial, trivial, trivial, trivial⟩
      <;> omega

/-- **Decoding an encoded packet**: the header as it was, with the computed
length and checksum in place of those of the argument. -/
theorem decode_encode {h : Header} {p : Str} (hr : h.InRange) (hp : 20 + p.length < 65536) :
    ∃ s c, encode h p = .ok s ∧ headerSum h p = .ok c ∧ s.length = 20 + p.length ∧
      intToRawbyteString c 2 = .ok ((s.drop 10).take 2) ∧
      decode s = .ok ({ h with totalLength := 20 + p.length, headerChecksum := c }, p) := by
  obtain ⟨b0, b1, b2, b3, b4, b5, b6, b7, b8, b9, b12, b13, b14, b15, b16, b17, b18, b19, e,
    hof⟩ := hr.exists_encodes hp
  obtain ⟨c, hc, hc0, hc1⟩ := ipv4Checksum_range (toHextets (toByteList
    ([b0, b1, b2, b3, b4, b5, b6, b7, b8, b9] ++
      ([0, 0] ++ [b12, b13, b14, b15, b16, b17, b18, b19]))))
  have hsum : headerSum h p = .ok c := by
    rw [headerSum, checksumHeader_bytes e, except_ok_bind, hc]
  obtain ⟨c0, c1, rfl⟩ := exists_bytes hc0 hc1
  refine ⟨_, _, encode_bytes e hsum, hsum, by simp; omega, by simp, ?_⟩
  rw [decode_bytes, hof]

/-- A known protocol keeps its number. -/
theorem protToInt_intToProt {i : Int} (h : intToProt i ≠ .unknown) :
    protToInt (intToProt i) = .ok i := by
  simp only [intToProt] at h ⊢
  split
  · next h1 => rw [h1]; rfl
  · split
    · next h6 => rw [h6]; rfl
    · split
      · next h17 => rw [h17]; rfl
      · next h1 h6 h17 => exact absurd (by rw [if_neg h1, if_neg h6, if_neg h17]) h

/-- The numbers that are written for a decoded header are those it was decoded from,
but for the length. -/
theorem encodes_headerOf
    {b0 b1 b2 b3 b4 b5 b6 b7 b8 b9 b10 b11 b12 b13 b14 b15 b16 b17 b18 b19 l0 l1 : UInt8} {p : Str}
    (hver : b0.toNat / 16 = 4) (hlen : 20 + (p.length : Int) = l0.toNat * 256 + l1.toNat)
    (hprot : intToProt b9.toNat ≠ .unknown) :
    Encodes (headerOf b0 b1 b2 b3 b4 b5 b6 b7 b8 b9 b10 b11 b12 b13 b14 b15 b16 b17 b18 b19) p
      b0 b1 l0 l1 b4 b5 b6 b7 b8 b9 b12 b13 b14 b15 b16 b17 b18 b19 := by
  have h7 := byte_lt b7
  refine ⟨?ihl, ?dscp, hlen, rfl, ?flags, rfl, protToInt_intToProt hprot, rfl, rfl⟩
  case ihl =>
    simp only [headerOf]
    omega
  case dscp =>
    simp only [headerOf]
    omega
  case flags =>
    simp only [headerOf]
    omega

/-- **Encoding a decoded packet**: exact when the packet has the version,
length, protocol and checksum that `encode` writes. -/
theorem encode_decode {s p : Str} {h : Header} (hdec : decode s = .ok (h, p))
    (hver : h.version = 4) (hlen : h.totalLength = s.length) (hprot : h.protocol ≠ .unknown)
    (hsum : headerSum h p = .ok h.headerChecksum) : encode h p = .ok s := by
  obtain ⟨b0, b1, b2, b3, b4, b5, b6, b7, b8, b9, b10, b11, b12, b13, b14, b15, b16, b17, b18,
    b19, q, rfl⟩ := exists_bytes_of_length (length_of_decode hdec)
  rw [decode_bytes] at hdec
  cases hdec
  simp only [headerOf] at hver hlen hprot
  refine encode_bytes (encodes_headerOf (by omega) ?_ hprot) hsum
  simp only [List.length_append, List.length_cons, List.length_nil] at hlen
  push_cast at hlen
  omega

/-- **The IPv4 codec**, both ways. -/
theorem ipv4_codec :
    (∀ (h : Header) (p : Str), h.InRange → 20 + p.length < 65536 →
      ∃ s c, encode h p = .ok s ∧ headerSum h p = .ok c ∧
        intToRawbyteString c 2 = .ok ((s.drop 10).take 2) ∧
        decode s = .ok ({ h with totalLength := 20 + p.length, headerChecksum := c }, p)) ∧
    (∀ s : Str, (∃ r, decode s = .ok r) ↔ 20 ≤ s.length) ∧
    (∀ (s p : Str) (h : Header), decode s = .ok (h, p) → h.version = 4 →
      h.totalLength = s.length → h.protocol ≠ .unknown →
      headerSum h p = .ok h.headerChecksum → encode h p = .ok s) := by
  refine ⟨?_, decode_succeeds_iff, fun s p h => encode_decode⟩
  intro h p hr hp
  obtain ⟨s, c, henc, hsum, -, hcut, hdec⟩ := decode_encode hr hp
  exact ⟨s, c, henc, hsum, hcut, hdec⟩

/-- The header of the first fragment of a datagram. -/
def sampleHeader : Header :=
  ⟨4, 5, 0, 0, 0, 1, 1, 0, 64, .udp, 0, [10, 0, 0, 1], [10, 0, 0, 2]⟩

/-- `sampleHeader` is in range, and survives the codec with eight bytes of payload. -/
theorem ipv4_codec_sample :
    ∃ s c, encode sampleHeader [0, 7, 31, 144, 0, 8, 0, 0] = .ok s ∧
      headerSum sampleHeader [0, 7, 31, 144, 0, 8, 0, 0] = .ok c ∧
      intToRawbyteString c 2 = .ok ((s.drop 10).take 2) ∧
      decode s = .ok ({ sampleHeader with totalLength := 20 + 8, headerChecksum := c },
        [0, 7, 31, 144, 0, 8, 0, 0]) :=
  ipv4_codec.1 sampleHeader [0, 7, 31, 144, 0, 8, 0, 0] (by decide) (by decide)

end Unikernel.IPv4
