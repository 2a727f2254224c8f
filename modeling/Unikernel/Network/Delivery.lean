import Unikernel.Network.Datagram

/-!
# From a datagram to the callback

What `handleUDP` does with a UDP packet: it applies the callback that was most
recently bound to the destination port to everything behind the UDP header, and
sends what it returns back. None of the length fields is looked at, neither the
header length and total length of the IPv4 header nor the length of the UDP
header, so the argument is the frame from byte 42 to its end, with whatever
padding the link layer added (`called_whole`, `padded_delivery`).
-/

namespace Unikernel.Network

open Sml

variable {σ : Type}

/-- The callback that `handleUDP` finds for a port. -/
def Stack.bound (s : Stack σ) (port : Int) : Option (Int × Callback σ) :=
  s.listenOn.find? fun e => decide (port = e.1)

/-- Encode a reply and send it back to where the datagram came from. -/
def reply (dstMac : List Int) (ipv4Header : IPv4.Header) (udpHeader : UDP.Header) (length : Int)
    (payload : Str) : Net σ Unit := do
  let segment ← raising (UDP.encode {
    length := length
    sourcePort := udpHeader.destPort
    destPort := udpHeader.sourcePort
    checksum := 0 } payload)
  ipv4Send { identification := ipv4Header.identification, dstMac := dstMac,
             protocol := .udp, destAddr := ipv4Header.sourceAddr } segment

theorem bound_of_inner {s t : Stack σ} (h : s.inner = t.inner) (port : Int) :
    s.bound port = t.bound port := by
  unfold Stack.bound
  rw [listenOn_of_inner h]

section

variable {dstMac : List Int} {h : IPv4.Header} {payload data : Str} {uh : UDP.Header}
  {s : Stack σ} {port : Int} {cb : Callback σ}

theorem bound_port (hbound : s.bound uh.destPort = some (port, cb)) : port = uh.destPort := by
  have hport := List.find?_some hbound
  exact (of_decide_eq_true hport).symm

/-- A datagram for a bound port: the callback, then the reply. -/
theorem handleUDP_bound (hdec : UDP.decode payload = .ok (uh, data))
    (hbound : s.bound uh.destPort = some (port, cb)) :
    handleUDP dstMac h payload s =
      (callback port cb data >>= fun r => reply dstMac h uh 0 r)
        (s.logged (UDP.toString uh)) := by
  unfold Stack.bound at hbound
  rw [handleUDP, raising_bind_ok hdec]
  simp only
  rw [estate_bind_ok (estate_get s), estate_bind_ok (logPrint_eq _ s), hbound]
  rfl

/-- A datagram for a port that nothing is bound to. -/
theorem handleUDP_unbound (hdec : UDP.decode payload = .ok (uh, data))
    (hbound : s.bound uh.destPort = .none) :
    handleUDP dstMac h payload s =
      reply dstMac h uh (8 + payload.length) notMapped (s.logged (UDP.toString uh)) := by
  unfold Stack.bound at hbound
  rw [handleUDP, raising_bind_ok hdec]
  simp only
  rw [estate_bind_ok (estate_get s), estate_bind_ok (logPrint_eq _ s), hbound]
  rfl

theorem reply_inner (dstMac : List Int) (h : IPv4.Header) (uh : UDP.Header) (length : Int)
    (r : Str) : Keeps Stack.inner (reply dstMac h uh length r : Net σ Unit) :=
  keeps_bind (keeps_raising _) fun _ => ipv4Send_inner _ _

/-- The callback is applied once, to the data behind the UDP header. -/
theorem handleUDP_called (hdec : UDP.decode payload = .ok (uh, data))
    (hbound : s.bound uh.destPort = some (port, cb)) :
    (after (handleUDP dstMac h payload s)).called = s.called ++ [(uh.destPort, data)] ∧
      (after (handleUDP dstMac h payload s)).app = after (cb data s.app) := by
  have hlog := inner_of_unprinted (logged_unprinted s (UDP.toString uh))
  obtain rfl := bound_port hbound
  rw [handleUDP_bound hdec hbound, estate_bind, ← called_of_inner hlog, ← app_of_inner hlog]
  generalize s.logged (UDP.toString uh) = t
  unfold callback
  cases cb data t.app with
  | ok r app =>
    have hreply := reply_inner dstMac h uh 0 r
      { t with app := app, called := t.called ++ [(uh.destPort, data)] }
    exact ⟨called_of_inner hreply, app_of_inner hreply⟩
  | error e app => exact ⟨rfl, rfl⟩

/-- Without a binding no callback is applied. -/
theorem handleUDP_not_called (hdec : UDP.decode payload = .ok (uh, data))
    (hbound : s.bound uh.destPort = .none) :
    (after (handleUDP dstMac h payload s)).called = s.called := by
  rw [handleUDP_unbound hdec hbound]
  exact called_of_inner ((reply_inner dstMac h uh _ notMapped _).trans
    (inner_of_unprinted (logged_unprinted s (UDP.toString uh))))

theorem dispatch_udp (hprot : h.protocol = .udp) :
    dispatch dstMac h payload s =
      handleUDP dstMac h payload { s with dispatched := s.dispatched ++ [(h, payload)] } := by
  rw [dispatch, estate_bind_ok (estate_modify s _)]
  simp only [hprot]

end

/-- A frame that completes a UDP packet runs `handleUDP` on it. -/
theorem handleIPv4_udp {s : Stack σ} {f : Frame} {h : IPv4.Header} {payload : Str}
    (hstep : (s.buffers.step f.2).2 = [(h, payload)]) (hprot : h.protocol = .udp) :
    ∃ t : Stack σ, t.sent = s.sent ∧ t.called = s.called ∧ t.app = s.app ∧
      (∀ port, t.bound port = s.bound port) ∧
      handleIPv4 f.1 f.2 s = handleUDP f.1.dstMac h payload t := by
  obtain ⟨t, ht, heq⟩ := handleIPv4_delivers f.1 hstep
  have hinner := inner_of_unprinted ht
  refine ⟨{ t with dispatched := t.dispatched ++ [(h, payload)] }, (sent_of_unprinted ht :),
    (called_of_inner hinner :), (app_of_inner hinner :), fun port => ?_, ?_⟩
  · exact (bound_of_inner hinner port :)
  · rw [heq, dispatch_udp hprot]

/-- A run that completes no packet calls nothing, sends nothing and changes no binding. -/
theorem handleAll_unheard {s : Stack σ} {fs : List Frame}
    (hnone : (Machine.run Buffers.step s.buffers (fs.map Prod.snd)).2 = []) :
    (handleAll s fs).sent = s.sent ∧ (handleAll s fs).called = s.called ∧
      (handleAll s fs).app = s.app ∧ ∀ port, (handleAll s fs).bound port = s.bound port := by
  have hquiet := handleAll_quiet hnone
  have hinner := inner_of_unprinted hquiet
  refine ⟨(sent_of_unprinted hquiet :), (called_of_inner hinner :), (app_of_inner hinner :), ?_⟩
  intro port
  exact (bound_of_inner hinner port :)

theorem handleAll_singleton (s : Stack σ) (f : Frame) :
    (handleAll s [f]).unprinted = (after (handleIPv4 f.1 f.2 s)).unprinted :=
  swallowing_unprinted _ s

/-- The callback of a delivered UDP packet, through `handleIPv4`. -/
theorem called_delivered {s : Stack σ} {f : Frame} {h : IPv4.Header} {payload data : Str}
    {uh : UDP.Header} {port : Int} {cb : Callback σ}
    (hstep : (s.buffers.step f.2).2 = [(h, payload)]) (hprot : h.protocol = .udp)
    (hdec : UDP.decode payload = .ok (uh, data))
    (hbound : s.bound uh.destPort = some (port, cb)) :
    (handleAll s [f]).called = s.called ++ [(uh.destPort, data)] ∧
      (handleAll s [f]).app = after (cb data s.app) := by
  obtain ⟨t, -, hcalled, happ, hbinds, heq⟩ := handleIPv4_udp hstep hprot
  have hrun := inner_of_unprinted (handleAll_singleton s f)
  rw [called_of_inner hrun, app_of_inner hrun, heq, ← hcalled, ← happ]
  exact handleUDP_called hdec ((hbinds _).trans hbound)

/-- The payload of the IPv4 packet in a frame starts at byte 34. -/
theorem ipv4Packet_payload {ethFrame pay : Str} {h : IPv4.Header}
    (hp : ipv4Packet ethFrame = .ok (h, pay)) : 34 ≤ ethFrame.length ∧ pay = ethFrame.drop 34 := by
  rw [ipv4Packet, except_bind_eq_ok] at hp
  obtain ⟨t, ht, hdec⟩ := hp
  obtain ⟨hlen, rfl⟩ := extract_eq_ok_iff.mp ht
  have h20 := IPv4.length_of_decode hdec
  obtain ⟨-, -, -, hpay⟩ := IPv4.decode_ranges hdec
  rw [List.length_drop] at h20
  refine ⟨by omega, ?_⟩
  rw [hpay, List.drop_drop]

theorem udp_decode_data {payload data : Str} {uh : UDP.Header}
    (hdec : UDP.decode payload = .ok (uh, data)) : data = payload.drop 8 := by
  obtain ⟨b0, b1, b2, b3, b4, b5, b6, b7, p, rfl⟩ :=
    UDP.exists_bytes_of_length (UDP.length_of_decode hdec)
  rw [UDP.decode_bytes] at hdec
  cases hdec
  rfl

/-- **An unfragmented UDP packet**: the callback gets the frame from byte 42 on,
whatever its length fields say. -/
theorem called_whole {s : Stack σ} {f : Frame} {h : IPv4.Header} {pay data : Str}
    {uh : UDP.Header} {port : Int} {cb : Callback σ}
    (hp : ipv4Packet f.2 = .ok (h, pay)) (hprot : h.protocol = .udp)
    (hwhole : h.fragmentOffset = 0 ∧ h.flags = 2) (hdec : UDP.decode pay = .ok (uh, data))
    (hbound : s.bound uh.destPort = some (port, cb)) :
    (handleAll s [f]).called = s.called ++ [(uh.destPort, f.2.drop 42)] := by
  have hstep : (s.buffers.step f.2).2 = [(h, pay)] := by
    rw [step_ok hp, payloadOpt_whole hwhole]
    rfl
  have hdata : data = f.2.drop 42 := by
    rw [udp_decode_data hdec, (ipv4Packet_payload hp).2, List.drop_drop]
  rw [← hdata]
  exact (called_delivered hstep hprot hdec hbound).1

/-! ## Padding -/

/-- Cut a frame at the end of the UDP header and at the end of the datagram. -/
theorem cut_frame (s : Str) (n : Nat) :
    s = s.take 42 ++ ((s.drop 42).take n ++ s.drop (42 + n)) := by
  rw [← List.drop_drop, List.take_append_drop, List.take_append_drop]

/-- **Datagram bytes and padding**: for an unfragmented UDP packet without IP
options, with consistent length fields, the bound callback gets the `L - 8`
data bytes and behind them whatever follows the datagram in the frame; nothing
but the data exactly when the frame ends with the datagram. With any header
length, the bytes from 34 on are taken for the UDP header and the callback gets
those from 42 on. -/
theorem padded_delivery (s : Stack σ) (f : Frame) (h : IPv4.Header) (pay data : Str)
    (uh : UDP.Header) (port : Int) (cb : Callback σ)
    (hp : ipv4Packet f.2 = .ok (h, pay)) (hprot : h.protocol = .udp)
    (hwhole : h.fragmentOffset = 0 ∧ h.flags = 2) (hdec : UDP.decode pay = .ok (uh, data))
    (hbound : s.bound uh.destPort = some (port, cb)) :
    (handleAll s [f]).called = s.called ++ [(uh.destPort, f.2.drop 42)] ∧
    (h.ihl = 5 → 4 * h.ihl + uh.length = h.totalLength → 8 ≤ uh.length →
      14 + h.totalLength ≤ f.2.length →
      ∃ front bytes padding, f.2 = front ++ (bytes ++ padding) ∧ front.length = 42 ∧
        (bytes.length : Int) = uh.length - 8 ∧
        (padding.length : Int) = f.2.length - (14 + h.totalLength) ∧
        (handleAll s [f]).called = s.called ++ [(uh.destPort, bytes ++ padding)] ∧
        ((handleAll s [f]).called = s.called ++ [(uh.destPort, bytes)] ↔
          (f.2.length : Int) = 14 + h.totalLength)) := by
  have hcalled := called_whole hp hprot hwhole hdec hbound
  refine ⟨hcalled, ?_⟩
  intro hihl htotal hlen hframe
  have hcut := cut_frame f.2 (uh.length - 8).toNat
  have hdata : ((f.2.drop 42).take (uh.length - 8).toNat).length = (uh.length - 8).toNat := by
    rw [List.length_take, List.length_drop]
    omega
  have hdrop : f.2.drop 42 = (f.2.drop 42).take (uh.length - 8).toNat ++
      f.2.drop (42 + (uh.length - 8).toNat) := by
    rw [← List.drop_drop, List.take_append_drop]
  have hpad : (f.2.drop (42 + (uh.length - 8).toNat)).length =
      f.2.length - (42 + (uh.length - 8).toNat) := List.length_drop
  refine ⟨_, _, _, hcut, ?_, ?_, ?_, by rw [← hdrop, hcalled], ?_⟩
  · rw [List.length_take]
    omega
  · rw [hdata]
    omega
  · rw [hpad]
    omega
  · -- the data is all that follows exactly when taking it takes everything
    rw [hcalled, List.append_cancel_left_eq, List.cons.injEq, Prod.mk.injEq]
    simp only [true_and, and_true]
    rw [eq_comm, List.take_eq_self_iff, List.length_drop]
    omega

/-- The echo service on port 8080. -/
def echoService : Stack Unit := { Stack.init () with listenOn := [(8080, fun p => pure p)] }

/-- One byte of data in a frame of the minimum length, which the link layer
pads with 17 zeros. -/
def paddedFrame : Frame :=
  (⟨.ipv4, [123, 124, 125, 126, 127, 128], [2, 0, 0, 0, 0, 1]⟩,
    [123, 124, 125, 126, 127, 128, 2, 0, 0, 0, 0, 1, 8, 0,
      69, 0, 0, 29, 0, 1, 64, 0, 64, 17, 0, 0, 10, 0, 0, 1, 10, 0, 0, 2,
      0, 7, 31, 144, 0, 9, 0, 0, 104] ++ List.replicate 17 0)

/-- The header of `paddedFrame`. -/
def paddedHeader : IPv4.Header :=
  ⟨4, 5, 0, 0, 29, 1, 2, 0, 64, .udp, 0, [10, 0, 0, 1], [10, 0, 0, 2]⟩

theorem ipv4Packet_padded :
    ipv4Packet paddedFrame.2 = .ok (paddedHeader,
      [0, 7, 31, 144, 0, 9, 0, 0, 104] ++ List.replicate 17 0) := by
  decide +kernel

theorem udp_decode_padded :
    UDP.decode ([0, 7, 31, 144, 0, 9, 0, 0, 104] ++ List.replicate 17 0) =
      .ok (⟨7, 8080, 9, 0⟩, 104 :: List.replicate 17 0) := by
  decide +kernel

/-- `paddedFrame`, with all its length fields consistent. -/
theorem padded_delivery_sample :
    ∃ front bytes padding, paddedFrame.2 = front ++ (bytes ++ padding) ∧ front.length = 42 ∧
      (bytes.length : Int) = 9 - 8 ∧ (padding.length : Int) = paddedFrame.2.length - (14 + 29) ∧
      (handleAll echoService [paddedFrame]).called = [] ++ [(8080, bytes ++ padding)] ∧
      ((handleAll echoService [paddedFrame]).called = [] ++ [(8080, bytes)] ↔
        (paddedFrame.2.length : Int) = 14 + 29) :=
  (padded_delivery echoService paddedFrame paddedHeader _ _ ⟨7, 8080, 9, 0⟩ 8080 _
    ipv4Packet_padded rfl ⟨rfl, rfl⟩ udp_decode_padded rfl).2 rfl rfl (by decide) (by decide)

/-- The echo service gets the padding as well: eighteen bytes for a datagram of one. -/
theorem padding_delivered :
    paddedHeader.ihl = 5 ∧ 4 * paddedHeader.ihl + 9 = paddedHeader.totalLength ∧
    14 + paddedHeader.totalLength ≤ paddedFrame.2.length ∧
    (handleAll echoService [paddedFrame]).called = [(8080, 104 :: List.replicate 17 0)] := by
  refine ⟨rfl, rfl, by decide, ?_⟩
  rw [called_whole ipv4Packet_padded rfl ⟨rfl, rfl⟩ udp_decode_padded (s := echoService) rfl]
  decide

end Unikernel.Network
