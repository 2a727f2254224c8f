import Unikernel.Network.ArpAnswers
import Unikernel.Network.Replies

/-!
# Where answers go

The Ethernet destination of everything the stack sends is the *destination* of
the frame it answers, not its source: all handlers pass `#dstMac ethHeader` on.
At the level of IPv4 and UDP the addresses are exchanged. So an answer reaches
its peer only if the frame that is answered had the same address twice.

- `Stack.Answers`: the frame calls for an answer, in terms of what is decoded
  from it, the buffers, the bindings and what the callback returns.
- `Adds`: frames are added to those sent, all to one address, exactly if an
  answer is called for. Each handler does that, and so does a round of `listen`.
- `sent_back_iff`: the runs of `listen` in which answers go to the sender.
-/

namespace Unikernel.Network

open Sml

variable {σ : Type}

/-- The bytes are an Ethernet frame from the stack to the given MAC. -/
def SentTo (dst : List Int) (bytes : List Int) : Prop :=
  ∃ (f : Str) (eh : Eth.Header) (packet : Str), bytes = toByteList f ∧
    Eth.decode f = .ok (eh, packet) ∧ eh.srcMac = mac ∧ eh.dstMac = dst

/-- The received frame calls for an answer. -/
inductive Stack.Answers (s : Stack σ) (eh : Eth.Header) (raw : Str) : Prop where
  | arp {ah : ARP.Header} (het : eh.et = .arp)
      (hdec : (extract raw 14 >>= ARP.decode) = .ok ah) : Stack.Answers s eh raw
  | udp {h : IPv4.Header} {payload r : Str} (het : eh.et = .ipv4)
      (hstep : (s.buffers.step raw).2 = [(h, payload)]) (hprot : h.protocol = .udp)
      (hans : s.answer payload = some r) (hr : r.length ≤ 65527) : Stack.Answers s eh raw

/-- Frames to `dst` were added to those sent before, exactly if `answered`. -/
def Adds (dst : List Int) (answered : Prop) (before now : List (List Int)) : Prop :=
  ∃ out, now = before ++ out ∧ (out ≠ [] ↔ answered) ∧ ∀ bytes ∈ out, SentTo dst bytes

/-- The `case` over the frame type in `listen`. -/
def typeDispatch (eh : Eth.Header) (raw : Str) : Net σ Unit :=
  match eh.et with
  | .arp => handleArp eh raw
  | .ipv4 => handleIPv4 eh raw
  | .ipv6 => logPrint "\nlisten: Protocol not supported.\n"

/-! ## Frames on the wire -/

theorem SentTo.unique {a b bytes : List Int} (ha : SentTo a bytes) (hb : SentTo b bytes) :
    a = b := by
  obtain ⟨f, eh, packet, rfl, hdec, -, rfl⟩ := ha
  obtain ⟨g, eh', packet', hg, hdec', -, rfl⟩ := hb
  rw [← toByteList_injective hg, hdec] at hdec'
  cases hdec'
  rfl

theorem adds_nothing {dst : List Int} {answered : Prop} {before now : List (List Int)}
    (hnow : now = before) (hno : ¬ answered) : Adds dst answered before now :=
  ⟨[], by rw [hnow, List.append_nil], by simpa using hno, by simp⟩

/-- The identification and the source of a delivered packet fit their fields. -/
theorem ranges_of_step {b : Buffers} {raw payload : Str} {h : IPv4.Header}
    (hstep : (b.step raw).2 = [(h, payload)]) :
    (0 ≤ h.identification ∧ h.identification < 65536) ∧ IsBytes 4 h.sourceAddr := by
  obtain ⟨pay, hp, -⟩ := delivered_of_step hstep
  rw [ipv4Packet, except_bind_eq_ok] at hp
  obtain ⟨packet, -, hdec⟩ := hp
  exact ⟨(IPv4.decode_ranges hdec).2.1, (IPv4.decode_ranges hdec).2.2.1⟩

/-! ## The handlers -/

section Handlers

variable {eh : Eth.Header} {raw : Str} {s : Stack σ}

/-- An ARP packet that can be decoded is answered. -/
theorem handleArp_adds (raw : Str) (hmac : IsBytes 6 eh.dstMac) :
    Adds eh.dstMac (∃ ah, (extract raw 14 >>= ARP.decode) = .ok ah) s.sent
      (after (handleArp eh raw s)).sent := by
  cases hdec : extract raw 14 >>= ARP.decode with
  | error e =>
    refine adds_nothing (handleArp_undecoded hdec) ?_
    rintro ⟨ah, hah⟩
    cases hah
  | ok ah =>
    obtain ⟨bytes, hsent, f, packet, hbytes, heth, -⟩ := handleArp_decoded (s := s) hmac hdec
    refine ⟨[bytes], hsent, iff_of_true (List.cons_ne_nil _ _) ⟨ah, rfl⟩, ?_⟩
    intro b hb
    obtain rfl := List.mem_singleton.mp hb
    exact ⟨f, _, packet, hbytes, heth, rfl, rfl⟩

/-- A UDP packet is answered if there is an answer and it fits a segment. -/
theorem handleUDP_adds {h : IPv4.Header} (payload : Str) (hmac : IsBytes 6 eh.dstMac)
    (hident : 0 ≤ h.identification ∧ h.identification < 65536) (hsrc : IsBytes 4 h.sourceAddr) :
    Adds eh.dstMac (∃ r, s.answer payload = some r ∧ r.length ≤ 65527) s.sent
      (after (handleUDP eh.dstMac h payload s)).sent := by
  rcases handleUDP_outcome eh.dstMac h payload s with
    ⟨r, uh, data, length, t, ha, hdec, hsent, heq⟩ | ⟨hnone, e, t, heq, hsent⟩
  · rw [heq, ← hsent]
    by_cases hr : r.length ≤ 65527
    · obtain ⟨segment, out, ds, hok, -, hds, hpart⟩ := reply_sends hmac hident hsrc hdec length t hr
      refine ⟨out.map toByteList, by rw [hok]; rfl, iff_of_true ?_ ⟨r, ha, hr⟩, ?_⟩
      · rintro hnil
        obtain rfl := List.map_eq_nil_iff.mp hnil
        obtain ⟨d, hd, -⟩ := hpart.last
        rw [List.map_nil, eq_comm, List.map_eq_nil_iff] at hds
        rw [hds] at hd
        cases hd
      · intro bytes hbytes
        obtain ⟨f, hf, rfl⟩ := List.mem_map.mp hbytes
        have hmem := List.mem_map_of_mem (f := decodeFrame) hf
        rw [hds] at hmem
        obtain ⟨d, -, hd⟩ := List.mem_map.mp hmem
        obtain ⟨packet, hframe, -⟩ := decodeFrame_eq_ok hd.symm
        exact ⟨f, _, packet, rfl, hframe, rfl, rfl⟩
    · have hfails : ∃ e, reply eh.dstMac h uh length r t = .error e t :=
        reply_fails uh length t (by omega)
      obtain ⟨e, he⟩ := hfails
      refine adds_nothing (by rw [he]; rfl) ?_
      rintro ⟨r', ha', hr'⟩
      rw [ha] at ha'
      cases ha'
      exact hr hr'
  · refine adds_nothing (by rw [heq]; exact hsent) ?_
    rintro ⟨r, ha, -⟩
    rw [hnone] at ha
    cases ha

/-- An IPv4 frame is answered if it completes a UDP packet that is answered. -/
theorem handleIPv4_adds (raw : Str) (hmac : IsBytes 6 eh.dstMac) :
    Adds eh.dstMac (∃ h payload r, (s.buffers.step raw).2 = [(h, payload)] ∧ h.protocol = .udp ∧
        s.answer payload = some r ∧ r.length ≤ 65527) s.sent
      (after (handleIPv4 eh raw s)).sent := by
  rcases step_delivers s.buffers raw with hnone | ⟨h, payload, hsome⟩
  · refine adds_nothing (sent_of_unprinted (handleIPv4_quiet hnone) :) ?_
    rintro ⟨h, payload, r, hstep, -⟩
    rw [hnone] at hstep
    cases hstep
  · by_cases hprot : h.protocol = .udp
    · obtain ⟨hident, hsrc⟩ := ranges_of_step hsome
      obtain ⟨t, hsent, -, happ, hbound, heq⟩ := handleIPv4_udp (f := (eh, raw)) hsome hprot
      obtain ⟨out, hout, hne, hto⟩ := handleUDP_adds (s := t) payload hmac hident hsrc
      refine ⟨out, by rw [← hsent]; exact (congrArg (fun r => (after r).sent) heq).trans hout, ?_,
        hto⟩
      rw [hne, answer_congr happ hbound]
      constructor
      · rintro ⟨r, ha, hr⟩
        exact ⟨h, payload, r, hsome, hprot, ha, hr⟩
      · rintro ⟨h', payload', r, hstep, -, ha, hr⟩
        rw [hsome] at hstep
        cases hstep
        exact ⟨r, ha, hr⟩
    · obtain ⟨t, ht, heq⟩ := handleIPv4_delivers eh hsome
      refine adds_nothing ?_ ?_
      · rw [heq, dispatch, estate_bind_ok (estate_modify _ _)]
        simp only
        exact (sent_of_unprinted (logPrint_unprinted _ _)).trans (sent_of_unprinted ht :)
      · rintro ⟨h', payload', r, hstep, hprot', -⟩
        rw [hsome] at hstep
        cases hstep
        exact hprot hprot'

/-! ## The listen loop -/

/-- A round of `listen` on a frame that is decoded: the `case`, between two messages. -/
theorem listenBody_decoded {packet : Str} (hdec : Eth.decode raw = .ok (eh, packet))
    (s : Stack σ) :
    ∃ (t : Stack σ) (str : String), t.unprinted = s.unprinted ∧
      listenBody raw s = (typeDispatch eh raw >>= fun _ => logPrint str) t := by
  let t := (s.logged ("\n==== FROM: " ++ rawBytesString eh.srcMac ++ " ====\n")).logged
    (Eth.toString eh)
  refine ⟨t, "\n==== END: " ++ rawBytesString eh.srcMac ++ " ====\n",
    (logged_unprinted _ _).trans (logged_unprinted _ _), ?_⟩
  have hraw : extract raw 0 = .ok raw := extract_ok (Nat.zero_le _)
  rw [listenBody, raising_bind_ok hraw, raising_bind_ok hdec]
  simp only
  rw [estate_bind_ok (logPrint_eq _ s), estate_bind_ok (logPrint_eq _ _)]
  unfold typeDispatch
  cases eh.et with
  | arp => rfl
  | ipv4 => rfl
  | ipv6 => rfl

/-- What a round of `listen` sends. -/
theorem listenBody_adds {packet : Str} (hdec : Eth.decode raw = .ok (eh, packet)) :
    Adds eh.dstMac (s.Answers eh raw) s.sent (after (listenBody raw s)).sent := by
  obtain ⟨t, str, ht, heq⟩ := listenBody_decoded hdec s
  have hmac := isBytes_dstMac hdec
  have hinner := inner_of_unprinted ht
  have hlog : Keeps Stack.sent (logPrint str : Net σ Unit) :=
    keeps_of_factor (logPrint_unprinted str) fun _ _ => sent_of_unprinted
  rw [heq, after_bind_keeps fun _ => hlog, ← sent_of_unprinted ht]
  unfold typeDispatch
  cases het : eh.et with
  | arp =>
    obtain ⟨out, hout, hne, hto⟩ := handleArp_adds (s := t) raw hmac
    refine ⟨out, hout, hne.trans ?_, hto⟩
    constructor
    · rintro ⟨ah, hah⟩
      exact .arp het hah
    · intro hans
      cases hans with
      | arp _ hah => exact ⟨_, hah⟩
      | udp het' => exact absurd (het.symm.trans het') (by decide)
  | ipv4 =>
    obtain ⟨out, hout, hne, hto⟩ := handleIPv4_adds (s := t) raw hmac
    refine ⟨out, hout, hne.trans ?_, hto⟩
    have hbuf := buffers_of_inner hinner
    have hans := answer_congr (app_of_inner hinner) (bound_of_inner hinner)
    constructor
    · rintro ⟨h, payload, r, hstep, hprot, ha, hr⟩
      exact .udp het (by rw [← hbuf]; exact hstep) hprot (by rw [← hans]; exact ha) hr
    · intro h
      cases h with
      | arp het' => exact absurd (het.symm.trans het') (by decide)
      | udp _ hstep hprot ha hr =>
        exact ⟨_, _, _, by rw [hbuf]; exact hstep, hprot, by rw [hans]; exact ha, hr⟩
  | ipv6 =>
    refine adds_nothing (sent_of_unprinted (logPrint_unprinted _ t)) ?_
    intro hans
    cases hans with
    | arp het' => exact absurd (het.symm.trans het') (by decide)
    | udp het' => exact absurd (het.symm.trans het') (by decide)

theorem listenBody_undecoded {e : Exn} (hdec : Eth.decode raw = .error e) :
    (after (listenBody raw s)).sent = s.sent := by
  have hraw : extract raw 0 = .ok raw := extract_ok (Nat.zero_le _)
  rw [listenBody, raising_bind_ok hraw, raising_bind_error hdec]
  rfl

end Handlers

theorem listen_snoc (s : Stack σ) (raws : List Str) (raw : Str) :
    listen s (raws ++ [raw]) = swallowing (listenBody raw) (listen s raws) := by
  induction raws generalizing s with
  | nil => rfl
  | cons r raws ih => exact ih _

/-- **Where answers go**: in every run of `listen`, the frames that are sent for a
received one go to its source exactly if its source is its destination, or it
calls for no answer. -/
theorem sent_back_iff (s : Stack σ) (raws : List Str) (raw : Str) :
    ∃ out, (listen s (raws ++ [raw])).sent = (listen s raws).sent ++ out ∧
      ((∀ bytes ∈ out, ∃ eh packet, Eth.decode raw = .ok (eh, packet) ∧ SentTo eh.srcMac bytes) ↔
        ∀ eh packet, Eth.decode raw = .ok (eh, packet) → (listen s raws).Answers eh raw →
          eh.srcMac = eh.dstMac) := by
  have hsent := sent_of_unprinted (swallowing_unprinted (listenBody raw) (listen s raws))
  rw [listen_snoc, hsent]
  cases hdec : Eth.decode raw with
  | error e =>
    refine ⟨[], by rw [listenBody_undecoded hdec, List.append_nil], iff_of_true (by simp) ?_⟩
    intro eh packet h
    cases h
  | ok r =>
    obtain ⟨eh, packet⟩ := r
    obtain ⟨out, hout, hne, hto⟩ := listenBody_adds (s := listen s raws) hdec
    refine ⟨out, hout, ?_⟩
    constructor
    · intro hback eh' packet' h hans
      cases h
      obtain ⟨bytes, hbytes⟩ := List.exists_mem_of_ne_nil out (hne.mpr hans)
      obtain ⟨eh', packet', h, hsrc⟩ := hback bytes hbytes
      cases h
      exact hsrc.unique (hto bytes hbytes)
    · intro hsame bytes hbytes
      have hans := hne.mp (List.ne_nil_of_mem hbytes)
      exact ⟨eh, packet, rfl, by rw [hsame eh packet rfl hans]; exact hto bytes hbytes⟩

/-- The echo service gets a datagram addressed to the stack, and sends what it
returns to the stack's own address. -/
theorem answered_to_self :
    Eth.decode paddedFrame.2 = .ok (paddedFrame.1, paddedFrame.2.drop 14) ∧
    (listen echoService [paddedFrame.2]).sent ≠ [] ∧
    ∀ bytes ∈ (listen echoService [paddedFrame.2]).sent,
      SentTo mac bytes ∧ ¬ SentTo paddedFrame.1.srcMac bytes := by
  have hdec : Eth.decode paddedFrame.2 = .ok (paddedFrame.1, paddedFrame.2.drop 14) := by
    decide +kernel
  have hstep : (echoService.buffers.step paddedFrame.2).2 =
      [(paddedHeader, [0, 7, 31, 144, 0, 9, 0, 0, 104] ++ List.replicate 17 0)] := by
    rw [step_ok ipv4Packet_padded]
    rfl
  have ha : echoService.answer ([0, 7, 31, 144, 0, 9, 0, 0, 104] ++ List.replicate 17 0) =
      some (104 :: List.replicate 17 0) := by
    simp only [Stack.answer, udp_decode_padded]
    rfl
  have hans : echoService.Answers paddedFrame.1 paddedFrame.2 :=
    .udp rfl hstep rfl ha (by decide)
  obtain ⟨out, hout, hne, hto⟩ := listenBody_adds (s := echoService) hdec
  have hsent : (listen echoService [paddedFrame.2]).sent = out :=
    (sent_of_unprinted (swallowing_unprinted _ _)).trans hout
  rw [hsent]
  refine ⟨hdec, hne.mpr hans, fun bytes hbytes => ⟨hto bytes hbytes, ?_⟩⟩
  intro hsrc
  exact absurd (hsrc.unique (hto bytes hbytes)) (by decide)

end Unikernel.Network
