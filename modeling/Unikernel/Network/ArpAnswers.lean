import Unikernel.Network.Sending
import Unikernel.Network.StackLemmas

/-!
# What `handleArp` answers

`handleArp` uses two fields of the packet that it decodes, the addresses of the
sender. It looks neither at the operation nor at the target address, so it
answers whatever decodes.

- `ArpReplyTo`: the frame that an ARP packet is answered with.
- `handleArp_sends`: that frame and nothing else, exactly if the payload decodes.
- `reply_answered`: a reply that is answered with itself, so that two stacks
  would hand it to each other for ever; and a request for another host.
-/

namespace Unikernel.Network

open Sml

variable {σ : Type}

/-- The bytes are an Ethernet frame to `dst` with an ARP reply: the stack's own
addresses, for the sender of `ah`. -/
def ArpReplyTo (dst : List Int) (ah : ARP.Header) (bytes : List Int) : Prop :=
  ∃ f packet, bytes = toByteList f ∧
    Eth.decode f = .ok ({ et := .arp, dstMac := dst, srcMac := mac }, packet) ∧
    ARP.decode packet = .ok ⟨1, 0x0800, 6, 4, .reply, mac, ipAddress, ah.sha, ah.spa⟩

/-- What a host has to answer: a request for its own address. -/
def OwnRequest (packet : Str) : Prop :=
  ∃ ah, ARP.decode packet = .ok ah ∧ ah.oper = .request ∧ ah.tpa = ipAddress

/-! ## The reply -/

/-- Decoded frames have six-byte addresses. -/
theorem isBytes_dstMac {raw packet : Str} {eh : Eth.Header}
    (hdec : Eth.decode raw = .ok (eh, packet)) : IsBytes 6 eh.dstMac := by
  obtain ⟨dst, src, a, b, -, ldst, -, -, hdst, -⟩ := Eth.decode_eq_ok hdec
  rw [hdst, ← ldst]
  exact isBytes_toByteList dst

theorem ethSend_frame (et : Eth.EthType) {dstMac : List Int} (hmac : IsBytes 6 dstMac)
    (packet : Str) (s : Stack σ) :
    ∃ f, ethSend et dstMac packet s = .ok () { s with sent := s.sent ++ [toByteList f] } ∧
      Eth.decode f = .ok ({ et := et, dstMac := dstMac, srcMac := mac }, packet) := by
  obtain ⟨f, hf, hdec, -⟩ :=
    Eth.decode_encode (h := { et := et, dstMac := dstMac, srcMac := mac }) packet hmac isBytes_mac
  refine ⟨f, ?_, hdec⟩
  rw [ethSend, raising_bind_ok hf]
  rfl

/-- The reply to an ARP packet can be encoded, and decodes as a reply. -/
theorem encode_arpReply {packet : Str} {ah : ARP.Header} (hdec : ARP.decode packet = .ok ah) :
    ∃ reply, ARP.encode ⟨1, 0x0800, 6, 4, .reply, mac, ipAddress, ah.sha, ah.spa ++ [0, 0]⟩ =
        .ok reply ∧
      ARP.decode reply = .ok ⟨1, 0x0800, 6, 4, .reply, mac, ipAddress, ah.sha, ah.spa⟩ := by
  obtain ⟨sha, spa, hsha, hspa, lsha, lspa⟩ := ARP.decode_addresses hdec
  obtain ⟨m, hm, lm⟩ := isBytes_mac.exists_str
  obtain ⟨i, hi, li⟩ := isBytes_ipAddress.exists_str
  have htype : (1 : Int) = (0 : UInt8).toNat * 256 + (1 : UInt8).toNat := rfl
  have hptype : (0x0800 : Int) = (8 : UInt8).toNat * 256 + (0 : UInt8).toNat := rfl
  have hhlen : (6 : Int) = (6 : UInt8).toNat := rfl
  have hplen : (4 : Int) = (4 : UInt8).toNat := rfl
  -- the target address gets two bytes too many: `encode` does not check, `decode` ignores them
  have htpa : ah.spa ++ [0, 0] = toByteList (spa ++ [0, 0]) := by
    rw [hspa]
    simp [toByteList, ord]
  refine ⟨_, ARP.encode_bytes htype hptype hhlen hplen hm hi hsha htpa, ?_⟩
  have hop : ARP.toArpOperation (((0 : UInt8).toNat : Int) * 256 + ((2 : UInt8).toNat : Int)) =
      .ok .reply := by decide
  rw [ARP.decode_bytes 0 1 8 0 6 4 0 2 [0, 0] lm li lsha lspa, hop, ← htype, ← hptype, ← hhlen,
    ← hplen, ← hm, ← hi, ← hsha, ← hspa]
  rfl

/-! ## The handler -/

section Handler

variable {eh : Eth.Header} {raw packet : Str} {s : Stack σ}

theorem handleArp_undecoded {e : Exn} (hdec : (extract raw 14 >>= ARP.decode) = .error e) :
    (after (handleArp eh raw s)).sent = s.sent := by
  unfold handleArp
  rw [hdec]
  exact sent_of_unprinted (logPrint_unprinted _ s)

theorem handleArp_decoded {ah : ARP.Header} (hmac : IsBytes 6 eh.dstMac)
    (hdec : (extract raw 14 >>= ARP.decode) = .ok ah) :
    ∃ bytes, (after (handleArp eh raw s)).sent = s.sent ++ [bytes] ∧
      ArpReplyTo eh.dstMac ah bytes := by
  obtain ⟨packet, -, harp⟩ := except_bind_eq_ok.mp hdec
  obtain ⟨reply, henc, hreply⟩ := encode_arpReply harp
  obtain ⟨f, hsend, heth⟩ := ethSend_frame .arp hmac reply (s.logged (ARP.toString ah))
  refine ⟨toByteList f, ?_, f, reply, rfl, heth, hreply⟩
  unfold handleArp
  rw [hdec]
  simp only
  rw [estate_bind_ok (logPrint_eq _ s), raising_bind_ok henc, hsend]
  exact congrArg (· ++ [toByteList f])
    (sent_of_unprinted (logged_unprinted s (ARP.toString ah)))

/-- The handler decodes the payload that `Eth.decode` cuts off. -/
theorem decode_received (heth : Eth.decode raw = .ok (eh, packet)) :
    (extract raw 14 >>= ARP.decode) = ARP.decode packet := by
  obtain ⟨dst, src, a, b, rfl, ldst, lsrc, -⟩ := Eth.decode_eq_ok heth
  rw [Eth.extract_payload ldst lsrc, except_ok_bind]

/-- **What `handleArp` answers**: a received ARP frame is answered with exactly one
frame, a reply to its sender, if its payload decodes, and with none otherwise. -/
theorem handleArp_sends (s : Stack σ) (heth : Eth.decode raw = .ok (eh, packet)) :
    ((after (handleArp eh raw s)).sent ≠ s.sent ↔
      28 ≤ packet.length ∧ (ARP.operField packet = 1 ∨ ARP.operField packet = 2)) ∧
    ((after (handleArp eh raw s)).sent = s.sent ∨
      ∃ ah bytes, ARP.decode packet = .ok ah ∧
        (after (handleArp eh raw s)).sent = s.sent ++ [bytes] ∧
        ArpReplyTo eh.dstMac ah bytes) := by
  rw [← ARP.decode_succeeds_iff]
  cases hdec : ARP.decode packet with
  | error e =>
    have hnone : (after (handleArp eh raw s)).sent = s.sent :=
      handleArp_undecoded ((decode_received heth).trans hdec)
    refine ⟨iff_of_false (not_not_intro hnone) ?_, .inl hnone⟩
    rintro ⟨ah, hah⟩
    cases hah
  | ok ah =>
    obtain ⟨bytes, hsent, hreply⟩ := handleArp_decoded (s := s) (isBytes_dstMac heth)
      ((decode_received heth).trans hdec)
    refine ⟨iff_of_true ?_ ⟨ah, rfl⟩, .inr ⟨ah, bytes, rfl, hsent, hreply⟩⟩
    rw [hsent]
    exact fun h => List.cons_ne_nil _ _ (List.append_right_eq_self.mp h)

end Handler

/-! ## Two packets that need no answer -/

/-- A reply from the stack to itself. -/
def standingPacket : Str :=
  [0, 1, 8, 0, 6, 4, 0, 2, 123, 124, 125, 126, 127, 128, 10, 0, 0, 2,
    123, 124, 125, 126, 127, 128, 10, 0, 0, 2, 0, 0]

def standingReply : Str :=
  [123, 124, 125, 126, 127, 128, 123, 124, 125, 126, 127, 128, 8, 6] ++ standingPacket

/-- A request for `10.0.0.9`. -/
def foreignPacket : Str :=
  [0, 1, 8, 0, 6, 4, 0, 1, 2, 0, 0, 0, 0, 1, 10, 0, 0, 1, 0, 0, 0, 0, 0, 0, 10, 0, 0, 9]

def foreignRequest : Str :=
  [255, 255, 255, 255, 255, 255, 2, 0, 0, 0, 0, 1, 8, 6] ++ foreignPacket

theorem eth_decode_standing :
    Eth.decode standingReply = .ok (⟨.arp, mac, mac⟩, standingPacket) := by
  decide +kernel

theorem eth_decode_foreign : Eth.decode foreignRequest =
    .ok (⟨.arp, [255, 255, 255, 255, 255, 255], [2, 0, 0, 0, 0, 1]⟩, foreignPacket) := by
  decide +kernel

theorem arp_decode_standing : ARP.decode standingPacket =
    .ok ⟨1, 0x0800, 6, 4, .reply, mac, ipAddress, mac, ipAddress⟩ := by
  decide +kernel

theorem arp_decode_foreign : ARP.decode foreignPacket =
    .ok ⟨1, 0x0800, 6, 4, .request, [2, 0, 0, 0, 0, 1], [10, 0, 0, 1], [0, 0, 0, 0, 0, 0],
      [10, 0, 0, 9]⟩ := by
  decide +kernel

/-- The stack answers a request for another host. -/
theorem handleArp_sends_foreign :
    (after (handleArp ⟨.arp, [255, 255, 255, 255, 255, 255], [2, 0, 0, 0, 0, 1]⟩ foreignRequest
      (Stack.init ()))).sent ≠ [] :=
  (handleArp_sends (Stack.init ()) eth_decode_foreign).1.mpr ⟨by decide, .inl rfl⟩

/-- Whatever its state, the stack answers the reply with the same reply: two stacks
hand it to each other for ever. -/
theorem handleArp_standing (s : Stack σ) :
    (after (handleArp ⟨.arp, mac, mac⟩ standingReply s)).sent =
      s.sent ++ [toByteList standingReply] := by
  have hdec := (decode_received eth_decode_standing).trans arp_decode_standing
  have henc : ARP.encode ⟨1, 0x0800, 6, 4, .reply, mac, ipAddress, mac, ipAddress ++ [0, 0]⟩ =
      .ok standingPacket := by decide +kernel
  have hsend : Eth.encode ⟨.arp, mac, mac⟩ standingPacket = .ok standingReply := by
    decide +kernel
  unfold handleArp ethSend
  rw [hdec]
  simp only
  rw [estate_bind_ok (logPrint_eq _ s), raising_bind_ok henc, raising_bind_ok hsend]
  exact congrArg (· ++ [toByteList standingReply])
    (sent_of_unprinted (logged_unprinted s _))

/-- Neither is a request for the stack's address, and both are answered. -/
theorem reply_answered :
    (Eth.decode standingReply = .ok (⟨.arp, mac, mac⟩, standingPacket) ∧
      ¬ OwnRequest standingPacket ∧
      (after (handleArp ⟨.arp, mac, mac⟩ standingReply (Stack.init ()))).sent =
        [toByteList standingReply]) ∧
    (Eth.decode foreignRequest =
        .ok (⟨.arp, [255, 255, 255, 255, 255, 255], [2, 0, 0, 0, 0, 1]⟩, foreignPacket) ∧
      ¬ OwnRequest foreignPacket ∧
      (after (handleArp ⟨.arp, [255, 255, 255, 255, 255, 255], [2, 0, 0, 0, 0, 1]⟩
        foreignRequest (Stack.init ()))).sent.length = 1) := by
  refine ⟨⟨eth_decode_standing, ?_, handleArp_standing _⟩, eth_decode_foreign, ?_, ?_⟩
  · rintro ⟨ah, hdec, hoper, -⟩
    rw [arp_decode_standing] at hdec
    cases hdec
    cases hoper
  · rintro ⟨ah, hdec, -, htpa⟩
    rw [arp_decode_foreign] at hdec
    cases hdec
    exact absurd htpa (by decide)
  · have hdec := (decode_received eth_decode_foreign).trans arp_decode_foreign
    obtain ⟨bytes, hsent, -⟩ := handleArp_decoded (s := Stack.init ())
      (isBytes_dstMac eth_decode_foreign) hdec
    rw [hsent]
    rfl

end Unikernel.Network
