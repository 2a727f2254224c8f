import Unikernel.Utils

/-!
# udplib

The UDP codec (`Libs/udplib/udplib.sml`). `encode` computes the length from
the data and writes a zero checksum, whatever the header says; `decode` reads
both but nothing checks them.
-/

namespace Unikernel.UDP

open Sml

structure Header where
  sourcePort : Int
  destPort : Int
  length : Int
  checksum : Int
  deriving DecidableEq, Repr

def toString (h : Header) : String :=
  "\n-- UDP INFO --\n" ++
  "Source port: " ++ intToString h.sourcePort ++ "\n" ++
  "Destination port: " ++ intToString h.destPort ++ "\n" ++
  "UDP length: " ++ intToString h.length ++ "\n" ++
  "Checksum: " ++ intToString h.checksum ++ "\n"

def decode (s : Str) : Except Exn (Header × Str) := do
  let sourcePort ← intField s 0 2
  let destPort ← intField s 2 2
  let length ← intField s 4 2
  let checksum ← intField s 6 2
  return ({ sourcePort, destPort, length, checksum }, ← extract s 8)

def encode (h : Header) (data : Str) : Except Exn Str := do
  let src ← intToRawbyteString h.sourcePort 2
  let dst ← intToRawbyteString h.destPort 2
  let len ← intToRawbyteString (data.length + 8) 2
  let sum ← intToRawbyteString 0 2
  return src ++ dst ++ len ++ sum ++ data

/-! ## The codec on explicit bytes -/

theorem decode_bytes (b0 b1 b2 b3 b4 b5 b6 b7 : UInt8) (p : Str) :
    decode (b0 :: b1 :: b2 :: b3 :: b4 :: b5 :: b6 :: b7 :: p) =
      .ok ({ sourcePort := b0.toNat * 256 + b1.toNat, destPort := b2.toNat * 256 + b3.toNat,
             length := b4.toNat * 256 + b5.toNat, checksum := b6.toNat * 256 + b7.toNat }, p) := by
  simp [decode, intField, substring, extract]

theorem length_of_decode {s : Str} {r : Header × Str} (h : decode s = .ok r) :
    8 ≤ s.length := by
  simp only [decode, except_bind_eq_ok] at h
  obtain ⟨_, -, _, -, _, -, _, -, p, hp, -⟩ := h
  exact (extract_eq_ok_iff.mp hp).1

/-- Eight bytes in front of the data are all `decode` needs. -/
theorem exists_bytes_of_length {s : Str} (h : 8 ≤ s.length) :
    ∃ b0 b1 b2 b3 b4 b5 b6 b7 p, s = b0 :: b1 :: b2 :: b3 :: b4 :: b5 :: b6 :: b7 :: p := by
  obtain ⟨b0, b1, b2, b3, t, rfl, ht⟩ := exists_four (n := 4) h
  obtain ⟨b4, b5, b6, b7, p, rfl, -⟩ := exists_four (n := 0) ht
  exact ⟨b0, b1, b2, b3, b4, b5, b6, b7, p, rfl⟩

/-- Decoded ports fit their two bytes. -/
theorem decode_ports {s data : Str} {h : Header} (hdec : decode s = .ok (h, data)) :
    (0 ≤ h.sourcePort ∧ h.sourcePort < 65536) ∧ (0 ≤ h.destPort ∧ h.destPort < 65536) := by
  obtain ⟨b0, b1, b2, b3, b4, b5, b6, b7, p, rfl⟩ := exists_bytes_of_length (length_of_decode hdec)
  rw [decode_bytes] at hdec
  cases hdec
  exact ⟨bytes_range b0 b1, bytes_range b2 b3⟩

theorem encode_bytes {h : Header} {data : Str} {b0 b1 b2 b3 b4 b5 : UInt8}
    (hsrc : h.sourcePort = b0.toNat * 256 + b1.toNat)
    (hdst : h.destPort = b2.toNat * 256 + b3.toNat)
    (hlen : (data.length : Int) + 8 = b4.toNat * 256 + b5.toNat) :
    encode h data = .ok (b0 :: b1 :: b2 :: b3 :: b4 :: b5 :: 0 :: 0 :: data) := by
  have hzero : intToRawbyteString 0 2 = .ok [0, 0] := rfl
  simp only [encode, hsrc, hdst, hlen, intToRawbyteString_bytes, hzero, except_ok_bind]
  rfl

/-- The three numbers `encode` writes fit their two bytes. -/
def Encodable (h : Header) (data : Str) : Prop :=
  (0 ≤ h.sourcePort ∧ h.sourcePort ≤ 65535) ∧ (0 ≤ h.destPort ∧ h.destPort ≤ 65535) ∧
    data.length + 8 ≤ 65535

/-- Encoding succeeds on what fits, and decoding recovers what was encoded:
the length and checksum of the argument play no role. -/
theorem decode_encode {h : Header} {data : Str} (hok : Encodable h data) :
    ∃ s, encode h data = .ok s ∧ s.length = data.length + 8 ∧
      decode s = .ok ({ h with length := data.length + 8, checksum := 0 }, data) := by
  obtain ⟨⟨hs0, hs1⟩, ⟨hd0, hd1⟩, hl⟩ := hok
  obtain ⟨b0, b1, hsrc⟩ := exists_bytes hs0 (by omega)
  obtain ⟨b2, b3, hdst⟩ := exists_bytes hd0 (by omega)
  obtain ⟨b4, b5, hlen⟩ := exists_bytes (i := data.length + 8) (by omega) (by omega)
  refine ⟨_, encode_bytes hsrc hdst hlen, by simp, ?_⟩
  rw [decode_bytes, ← hsrc, ← hdst, ← hlen]
  rfl

/-- The byte writer accepts nothing else: it raises `Chr` at the top byte. -/
theorem encodable_of_encode {h : Header} {data s : Str} (henc : encode h data = .ok s) :
    Encodable h data := by
  simp only [encode, except_bind_eq_ok,
    intToRawbyteString_eq_ok_iff (show 0 < 2 by decide)] at henc
  obtain ⟨b, ⟨hb, hsrc⟩, c, ⟨hc, hdst⟩, d, ⟨hd, hlen⟩, -⟩ := henc
  have hb' := beValue_lt b
  have hc' := beValue_lt c
  have hd' := beValue_lt d
  rw [hb] at hb'
  rw [hc] at hc'
  rw [hd] at hd'
  exact ⟨⟨by omega, by omega⟩, ⟨by omega, by omega⟩, by omega⟩

/-- What an encoded string decodes to. -/
theorem decode_of_encode {h : Header} {data s : Str} (henc : encode h data = .ok s) :
    decode s = .ok ({ h with length := data.length + 8, checksum := 0 }, data) := by
  obtain ⟨t, ht, -, hdec⟩ := decode_encode (encodable_of_encode henc)
  rw [henc] at ht
  cases ht
  exact hdec

theorem encode_fails_iff (h : Header) (data : Str) :
    (∃ e, encode h data = .error e) ↔ ¬ Encodable h data := by
  constructor
  · rintro ⟨e, he⟩ hok
    obtain ⟨s, hs, -⟩ := decode_encode hok
    rw [hs] at he
    cases he
  · intro hbad
    cases henc : encode h data with
    | error e => exact ⟨e, rfl⟩
    | ok s => exact absurd (encodable_of_encode henc) hbad

/-- Re-encoding a decoded string gives it back exactly when its length field
is its size and its checksum is zero. -/
theorem encode_decode {s data : Str} {h : Header} (hdec : decode s = .ok (h, data)) :
    encode h data = .ok s ↔ h.length = s.length ∧ h.checksum = 0 := by
  obtain ⟨b0, b1, b2, b3, b4, b5, b6, b7, p, rfl⟩ :=
    exists_bytes_of_length (length_of_decode hdec)
  rw [decode_bytes] at hdec
  cases hdec
  simp only [List.length_cons]
  constructor
  · intro henc
    -- what was written decodes to the recomputed length and a zero checksum
    have hdec := decode_of_encode henc
    rw [decode_bytes] at hdec
    simp only [Except.ok.injEq, Prod.mk.injEq, Header.mk.injEq] at hdec
    obtain ⟨⟨-, -, hlen, hsum⟩, -⟩ := hdec
    refine ⟨?_, hsum⟩
    push_cast
    omega
  · rintro ⟨hlen, hsum⟩
    have h6 := byte_lt b6
    have h7 := byte_lt b7
    obtain ⟨rfl, rfl⟩ : b6 = 0 ∧ b7 = 0 :=
      ⟨UInt8.toNat_inj.mp (by simp; omega), UInt8.toNat_inj.mp (by simp; omega)⟩
    refine encode_bytes rfl rfl ?_
    push_cast at hlen
    omega

/-- **The UDP codec**: the exact failure condition of `encode`, what `decode`
makes of its result, what `decode` accepts, and when re-encoding is exact. -/
theorem udp_codec :
    (∀ (h : Header) (data : Str), (∃ e, encode h data = .error e) ↔
      ¬ ((0 ≤ h.sourcePort ∧ h.sourcePort ≤ 65535) ∧
        (0 ≤ h.destPort ∧ h.destPort ≤ 65535) ∧ data.length + 8 ≤ 65535)) ∧
    (∀ (h : Header) (data s : Str), encode h data = .ok s →
      decode s = .ok ({ h with length := data.length + 8, checksum := 0 }, data)) ∧
    (∀ s : Str, (∃ r, decode s = .ok r) ↔ 8 ≤ s.length) ∧
    (∀ (s data : Str) (h : Header), decode s = .ok (h, data) →
      (encode h data = .ok s ↔ h.length = s.length ∧ h.checksum = 0)) := by
  refine ⟨encode_fails_iff, fun h data s henc => decode_of_encode henc, ?_,
    fun s data h hdec => encode_decode hdec⟩
  intro s
  constructor
  · rintro ⟨r, hr⟩
    exact length_of_decode hr
  · intro hlen
    obtain ⟨b0, b1, b2, b3, b4, b5, b6, b7, p, rfl⟩ := exists_bytes_of_length hlen
    exact ⟨_, decode_bytes b0 b1 b2 b3 b4 b5 b6 b7 p⟩

/-- A datagram of two bytes for port 8080. -/
theorem udp_codec_sample :
    decode [0, 7, 31, 144, 0, 10, 0, 0, 104, 105] =
      .ok ({ sourcePort := 7, destPort := 8080, length := 10, checksum := 0 }, [104, 105]) :=
  udp_codec.2.1 { sourcePort := 7, destPort := 8080, length := 0, checksum := 99 } [104, 105]
    [0, 7, 31, 144, 0, 10, 0, 0, 104, 105] (by decide)

end Unikernel.UDP
