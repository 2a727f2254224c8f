import Unikernel.Network.Delivery
import Unikernel.Network.Partition

/-!
# The size of replies

`handleUDP` sends back what the callback returns, in one UDP segment. The only
check of its size is the `Chr` that `UDP.encode` raises when the length of the
segment does not fit two bytes; the IPv4 header is not counted. So the twenty
longest answers that are not rejected make a datagram no IPv4 packet can be.

- `Stack.answer`: what is to be sent back for a UDP packet, if anything.
- `handleUDP_outcome`: with it `handleUDP` is a `reply`, without it an exception.
- `allOrNothing_iff`: the answers with which the size limit is kept.
-/

namespace Unikernel.Network

open Sml

variable {σ : Type}

/-- The answer to a UDP packet: what the callback bound to its port returns, or a
fixed text; none if there is no UDP header or the callback raises. -/
def Stack.answer (s : Stack σ) (payload : Str) : Option Str :=
  match UDP.decode payload with
  | .error _ => none
  | .ok (uh, data) =>
    match s.bound uh.destPort with
    | none => some notMapped
    | some (_, cb) =>
      match cb data s.app with
      | .ok r _ => some r
      | .error _ _ => none

/-- An exception and nothing sent, or a datagram sent that IPv4 allows: its
fragments end at byte 65535 of the packet, header included, or before. -/
def AllOrNothing (dstMac : List Int) (s : Stack σ) : EStateM.Result Exn (Stack σ) Unit → Prop
  | .error _ s' => s'.sent = s.sent
  | .ok _ s' => ∃ (segment : Str) (out : List Str) (ds : List (IPv4.Header × Str)),
      s'.sent = s.sent ++ out.map toByteList ∧
      out.map decodeFrame = ds.map (fun d => .ok (⟨.ipv4, dstMac, mac⟩, d)) ∧
      Partition 0 segment ds ∧
      ∃ d, ds.getLast? = some d ∧ 20 + d.1.fragmentOffset * 8 + d.2.length ≤ 65535

/-! ## What is answered -/

theorem answer_congr {s t : Stack σ} (happ : s.app = t.app)
    (hbound : ∀ port, s.bound port = t.bound port) (payload : Str) :
    s.answer payload = t.answer payload := by
  unfold Stack.answer
  rw [happ]
  simp only [hbound]

/-- With an answer `handleUDP` comes down to sending it; without one it raises,
and nothing is sent. -/
theorem handleUDP_outcome (dstMac : List Int) (h : IPv4.Header) (payload : Str) (s : Stack σ) :
    (∃ (r : Str) (uh : UDP.Header) (data : Str) (length : Int) (t : Stack σ),
      s.answer payload = some r ∧ UDP.decode payload = .ok (uh, data) ∧ t.sent = s.sent ∧
      handleUDP dstMac h payload s = reply dstMac h uh length r t) ∨
    (s.answer payload = none ∧ ∃ e t, handleUDP dstMac h payload s = .error e t ∧
      t.sent = s.sent) := by
  have hlog (uh : UDP.Header) := logged_unprinted s (UDP.toString uh)
  unfold Stack.answer
  cases hdec : UDP.decode payload with
  | error e =>
    refine .inr ⟨rfl, e, s, ?_, rfl⟩
    rw [handleUDP, raising_bind_error hdec]
  | ok x =>
    obtain ⟨uh, data⟩ := x
    simp only
    cases hbound : s.bound uh.destPort with
    | none =>
      exact .inl ⟨notMapped, uh, data, _, _, rfl, rfl, sent_of_unprinted (hlog uh),
        handleUDP_unbound hdec hbound⟩
    | some e =>
      obtain ⟨port, cb⟩ := e
      have happ := app_of_inner (inner_of_unprinted (hlog uh))
      have hsent := sent_of_unprinted (hlog uh)
      rw [handleUDP_bound hdec hbound, estate_bind]
      generalize s.logged (UDP.toString uh) = t at happ hsent ⊢
      simp only [callback, happ]
      -- the callback decides
      cases hcb : cb data s.app with
      | ok r app =>
        exact .inl ⟨r, uh, data, 0,
          { t with app := app, called := t.called ++ [(port, data)] }, rfl, rfl, hsent, rfl⟩
      | error e app => exact .inr ⟨rfl, e, _, rfl, hsent⟩

/-! ## What is sent -/

section Answers

variable {dstMac : List Int} {h : IPv4.Header} {payload r : Str} {s : Stack σ}

/-- An answer that is too long for a UDP segment raises before anything is sent. -/
theorem reply_fails (uh : UDP.Header) (length : Int) (t : Stack σ) (hr : 65527 < r.length) :
    ∃ e, reply dstMac h uh length r t = .error e t := by
  have hbad : ¬ UDP.Encodable { length := length, sourcePort := uh.destPort,
                                destPort := uh.sourcePort, checksum := 0 } r := by
    rintro ⟨-, -, hlen⟩
    omega
  obtain ⟨e, he⟩ := (UDP.encode_fails_iff _ r).mpr hbad
  exact ⟨e, by rw [reply, raising_bind_error he]⟩

variable (hmac : IsBytes 6 dstMac) (hident : 0 ≤ h.identification ∧ h.identification < 65536)
  (hsrc : IsBytes 4 h.sourceAddr)

include hmac hident hsrc

/-- Every other answer is sent, with eight bytes in front, in fragments. -/
theorem reply_sends {uh : UDP.Header} {data : Str} (hdec : UDP.decode payload = .ok (uh, data))
    (length : Int) (t : Stack σ) (hr : r.length ≤ 65527) :
    ∃ (segment : Str) (out : List Str) (ds : List (IPv4.Header × Str)),
      reply dstMac h uh length r t = .ok () { t with sent := t.sent ++ out.map toByteList } ∧
      segment.length = r.length + 8 ∧
      out.map decodeFrame = ds.map (fun d => .ok (⟨.ipv4, dstMac, mac⟩, d)) ∧
      Partition 0 segment ds := by
  obtain ⟨⟨hsp, hsp'⟩, hdp, hdp'⟩ := UDP.decode_ports hdec
  have hencodable : UDP.Encodable { length := length, sourcePort := uh.destPort,
                                    destPort := uh.sourcePort, checksum := 0 } r :=
    ⟨⟨hdp, Int.lt_add_one_iff.mp hdp'⟩, ⟨hsp, Int.lt_add_one_iff.mp hsp'⟩, by omega⟩
  obtain ⟨segment, henc, hlen, -⟩ := UDP.decode_encode hencodable
  have hbase : (fragmentHeader ⟨h.identification, .udp, h.sourceAddr, dstMac⟩ 0 0 0).InRange :=
    fragmentHeader_inRange hident (by simp) hsrc
  obtain ⟨out, ds, hout, hds, -, hpart⟩ := frames_partition ⟨.ipv4, dstMac, mac⟩ hmac isBytes_mac
    hbase (show segment.length ≤ 65535 by omega)
  refine ⟨segment, out, ds, ?_, hlen, hds, hpart⟩
  rw [reply, raising_bind_ok henc]
  exact sendFragments_eq hout t

/-- An answer between the two limits is sent, and does not fit an IPv4 packet. -/
theorem not_allOrNothing (ha : s.answer payload = some r) (hlong : 65507 < r.length)
    (hr : r.length ≤ 65527) : ¬ AllOrNothing dstMac s (handleUDP dstMac h payload s) := by
  rcases handleUDP_outcome dstMac h payload s with
    ⟨r', uh, data, length, t, ha', hdec, hsent, heq⟩ | ⟨hnone, -⟩
  case inr =>
    rw [ha] at hnone
    cases hnone
  obtain rfl : r = r' := Option.some.inj (ha.symm.trans ha')
  obtain ⟨segment, out, ds, hok, hlen, hds, hpart⟩ := reply_sends hmac hident hsrc hdec length t hr
  rw [heq, hok]
  rintro ⟨segment', out', ds', hout', hds', -, d, hd, hle⟩
  -- what was sent determines the frames, and they determine the packets
  rw [hsent, List.append_cancel_left_eq,
    (List.map_injective_iff.mpr toByteList_injective).eq_iff] at hout'
  rw [← hout', hds] at hds'
  have hinj : Function.Injective fun d : IPv4.Header × Str =>
      (Except.ok (⟨.ipv4, dstMac, mac⟩, d) : Except Exn (Eth.Header × IPv4.Header × Str)) :=
    fun a b hab => congrArg Prod.snd (Except.ok.inj hab)
  rw [(List.map_injective_iff.mpr hinj).eq_iff] at hds'
  rw [← hds'] at hd
  have htotal := hpart.total hd
  omega

/-- **The size of replies**: `handleUDP` sends nothing and raises, or sends a
datagram that IPv4 allows, exactly when the answer, if there is one, has at most
65507 bytes or more than 65527. -/
theorem allOrNothing_iff (payload : Str) (s : Stack σ) :
    AllOrNothing dstMac s (handleUDP dstMac h payload s) ↔
      ∀ r, s.answer payload = some r → r.length ≤ 65507 ∨ 65527 < r.length := by
  constructor
  · intro hall r ha
    by_contra hwindow
    exact not_allOrNothing hmac hident hsrc ha (by omega) (by omega) hall
  · intro hlimit
    rcases handleUDP_outcome dstMac h payload s with
      ⟨r, uh, data, length, t, ha, hdec, hsent, heq⟩ | ⟨-, e, t, heq, hsent⟩
    · rw [heq]
      rcases hlimit r ha with hshort | hlong
      · obtain ⟨segment, out, ds, hok, hlen, hds, hpart⟩ :=
          reply_sends (r := r) hmac hident hsrc hdec length t (by omega)
        rw [hok]
        obtain ⟨d, hd, -⟩ := hpart.last
        have htotal := hpart.total hd
        exact ⟨segment, out, ds, by rw [hsent], hds, hpart, d, hd, by omega⟩
      · obtain ⟨e, he⟩ := reply_fails uh length t hlong
        rw [he]
        exact hsent
    · rw [heq]
      exact hsent

end Answers

/-- A service on port 8080 that answers everything with 65508 zeros. -/
def longService : Stack Unit :=
  { Stack.init () with listenOn := [(8080, fun _ => pure (List.replicate 65508 0))] }

/-- A datagram without data, for port 8080. -/
def emptyDatagram : Str := [0, 7, 31, 144, 0, 8, 0, 0]

theorem answer_long : longService.answer emptyDatagram = some (List.replicate 65508 0) := by
  have hdec : UDP.decode emptyDatagram = .ok (⟨7, 8080, 8, 0⟩, []) := by decide
  have hbound : longService.bound 8080 =
      some (8080, fun _ => pure (List.replicate 65508 0)) := rfl
  simp only [Stack.answer, hdec, hbound]
  rfl

/-- `longService` on `emptyDatagram`. -/
theorem allOrNothing_iff_long :
    AllOrNothing mac longService (handleUDP mac paddedHeader emptyDatagram longService) ↔
      ∀ r, longService.answer emptyDatagram = some r → r.length ≤ 65507 ∨ 65527 < r.length :=
  allOrNothing_iff (h := paddedHeader) isBytes_mac ⟨by decide, by decide⟩ ⟨rfl, by decide⟩
    emptyDatagram longService

/-- 65508 bytes are sent as a datagram of 65536. -/
theorem long_answer_sent :
    longService.answer emptyDatagram = some (List.replicate 65508 0) ∧
    ¬ AllOrNothing mac longService (handleUDP mac paddedHeader emptyDatagram longService) := by
  have hlen : (List.replicate 65508 (0 : UInt8)).length = 65508 := List.length_replicate
  exact ⟨answer_long, not_allOrNothing isBytes_mac ⟨by decide, by decide⟩ ⟨rfl, by decide⟩
    answer_long (by omega) (by omega)⟩

end Unikernel.Network
