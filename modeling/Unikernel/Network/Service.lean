import Unikernel.Network.Delivery
import Unikernel.Network.Sending

/-!
# The UDP service, end to end

A peer encodes a datagram, cuts it as `ipv4Send` does and sends the frames; the
stack reassembles them, applies the callback bound to the port, encodes what it
returns, cuts it and sends it back; and the peer, reassembling what it receives
in the same way, gets the answer.

- `reply_isReply`: what the stack sends back reassembles to the answer.
- `arrives_of_sentBy`: what a peer sends arrives as one datagram, with its last frame.
- `udp_service` puts the two together.
-/

namespace Unikernel.Network

open Sml Keyed

variable {σ : Type}

/-- The stack after a sequence of `bindUDP` calls. -/
def bindAll (s : Stack σ) (binds : List (Int × Callback σ)) : Stack σ :=
  binds.foldl (fun s b => after (bindUDP b.1 b.2 s)) s

/-- The frames a peer may send a UDP segment in: the pieces of `ipv4Send`, or,
when it fits the MTU, one frame with the don't-fragment flag. -/
inductive SentBy (eh : Eth.Header) (base : IPv4.Header) (segment : Str) : List Frame → Prop where
  | pieces {out : List Str} (hout : fragmentFrames eh base 0 (cut segment) = .ok out) :
      SentBy eh base segment (out.map fun f => (eh, f))
  | whole {f : Str} (hfits : segment.length + 20 ≤ mtu)
      (hf : encodeFrame eh (pieceHeader base (20 + segment.length) 2 0) segment = .ok f) :
      SentBy eh base segment [(eh, f)]

/-- The frames are an answer to the datagram of `uh` from `sender`: each of them carries
an IPv4 packet from the stack's address to the sender, and decoded and reassembled from
empty buffers, they give one UDP datagram with payload `r`, from the port that was
addressed. -/
structure IsReply (sender : List Int) (uh : UDP.Header) (r : Str) (out : List Str) : Prop where
  frames : ∀ f ∈ out, ∃ eh h p, decodeFrame f = .ok (eh, h, p) ∧ eh.et = .ipv4 ∧
    h.sourceAddr = ipAddress ∧ h.destAddr = sender
  datagram : ∃ h segment, (Machine.run Buffers.step .empty out).2 = [(h, segment)] ∧
    h.sourceAddr = ipAddress ∧ h.destAddr = sender ∧ h.protocol = .udp ∧
    UDP.decode segment = .ok (⟨uh.destPort, uh.sourcePort, r.length + 8, 0⟩, r)

/-- The stack answers the frames `fs` of a datagram: nothing happens before the
last frame; then the callback most recently bound to the port is called once,
with exactly the data, and what it returns is sent back. -/
structure Served (s : Stack σ) (binds : List (Int × Callback σ)) (sender : List Int)
    (uh : UDP.Header) (d : Str) (fs : List Frame) : Prop where
  before : (handleAll s fs.dropLast).called = s.called ∧ (handleAll s fs.dropLast).sent = s.sent
  bound : ∀ pre cb post, binds = pre ++ (uh.destPort, cb) :: post →
    uh.destPort ∉ post.map Prod.fst →
    (handleAll s fs).called = s.called ++ [(uh.destPort, d)] ∧
    (handleAll s fs).app = after (cb d s.app) ∧
    ∀ r app, cb d s.app = .ok r app → r.length ≤ 65507 →
      ∃ out, (handleAll s fs).sent = s.sent ++ out.map toByteList ∧ IsReply sender uh r out
  unbound : uh.destPort ∉ binds.map Prod.fst →
    (handleAll s fs).called = s.called ∧
    ∃ out, (handleAll s fs).sent = s.sent ++ out.map toByteList ∧ IsReply sender uh notMapped out

/-! ## Bindings -/

theorem bindAll_eq (s : Stack σ) (binds : List (Int × Callback σ)) :
    bindAll s binds = { s with listenOn := binds.reverse ++ s.listenOn } := by
  induction binds generalizing s with
  | nil => rfl
  | cons b binds ih =>
    rw [bindAll, List.foldl_cons, ← bindAll, ih, List.reverse_cons, List.append_assoc]
    rfl

/-- The callback most recently bound to a port is the one that is found. -/
theorem bound_bindAll {s : Stack σ} (hs : s.listenOn = []) {port : Int} {cb : Callback σ}
    {pre post : List (Int × Callback σ)} (hpost : port ∉ post.map Prod.fst) :
    (bindAll s (pre ++ (port, cb) :: post)).bound port = some (port, cb) := by
  have hnone : post.reverse.find? (fun e => decide (port = e.1)) = .none := by
    refine List.find?_eq_none.mpr fun e he => ?_
    rw [decide_eq_true_iff]
    rintro rfl
    exact hpost (List.mem_map_of_mem (List.mem_reverse.mp he))
  simp only [Stack.bound, bindAll_eq, hs, List.append_nil, List.reverse_append, List.reverse_cons,
    List.append_assoc, List.find?_append, hnone]
  simp

theorem unbound_bindAll {s : Stack σ} (hs : s.listenOn = []) {port : Int}
    {binds : List (Int × Callback σ)} (hport : port ∉ binds.map Prod.fst) :
    (bindAll s binds).bound port = .none := by
  rw [Stack.bound, bindAll_eq, hs, List.append_nil]
  refine List.find?_eq_none.mpr fun e he => ?_
  rw [decide_eq_true_iff]
  rintro rfl
  exact hport (List.mem_map_of_mem (List.mem_reverse.mp he))

/-! ## The answer -/

/-- The ports of a UDP header fit their two bytes. -/
def PortsInRange (uh : UDP.Header) : Prop :=
  (0 ≤ uh.sourcePort ∧ uh.sourcePort < 65536) ∧ (0 ≤ uh.destPort ∧ uh.destPort < 65536)

/-- A list of frames with one packet ID, from buffers that do not hold it. -/
theorem run_new {X : PacketID} {b : Buffers} {fs : List Str} (hnew : b.view X = View.none)
    (hown : ∀ f ∈ fs, ofID X f = true) :
    (Machine.run Buffers.step b fs).2 = (Machine.run View.step View.none fs).2 := by
  rw [((view_projection X).run_own hown).2, hnew]

/-- **The answer**: encoding and sending succeed, and the frames sent are a reply. -/
theorem reply_isReply {dstMac : List Int} {h : IPv4.Header} {uh : UDP.Header} {r : Str}
    (hmac : IsBytes 6 dstMac) (hident : 0 ≤ h.identification ∧ h.identification < 65536)
    (hsrc : IsBytes 4 h.sourceAddr) (hports : PortsInRange uh) (hr : r.length ≤ 65507)
    (length : Int) (t : Stack σ) :
    ∃ out, reply dstMac h uh length r t =
        .ok () { t with sent := t.sent ++ out.map toByteList } ∧
      IsReply h.sourceAddr uh r out := by
  obtain ⟨⟨hsp, hsp'⟩, hdp, hdp'⟩ := hports
  have hencodable : UDP.Encodable { length := length, sourcePort := uh.destPort,
                                    destPort := uh.sourcePort, checksum := 0 } r :=
    ⟨⟨hdp, Int.lt_add_one_iff.mp hdp'⟩, ⟨hsp, Int.lt_add_one_iff.mp hsp'⟩, by omega⟩
  obtain ⟨segment, henc, hlen, hdec⟩ := UDP.decode_encode hencodable
  let args : SendArgs := { identification := h.identification, dstMac := dstMac,
                           protocol := .udp, destAddr := h.sourceAddr }
  have hbase : (fragmentHeader args 0 0 0).InRange :=
    fragmentHeader_inRange hident (by simp [args]) hsrc
  obtain ⟨out, hout, hfrag, hall⟩ := fragmentFrames_ok ⟨.ipv4, dstMac, mac⟩ hmac
    isBytes_mac hbase (fullBlocks_cut segment) 0 (by rw [flatten_cut, hlen]; omega)
  refine ⟨out, ?_, ?_, ?_⟩
  · -- what is sent
    rw [reply, raising_bind_ok henc]
    exact sendFragments_eq hout t
  · -- what a peer makes of each frame, and of all of them
    intro f hf
    obtain ⟨h', p, hcar, hfrom, hto⟩ := hall f hf
    exact ⟨_, h', p, hcar.frame, rfl, hfrom, hto⟩
  · rw [Nat.zero_mul] at hfrag
    obtain ⟨h', ⟨f, hf, p, hp⟩, hX, hrun⟩ := run_none hfrag
    obtain ⟨h'', p', hcar, -, hdest⟩ := hall f hf
    have hp' := hcar.packet
    rw [hp] at hp'
    cases hp'
    rw [flatten_cut] at hrun
    refine ⟨h', segment, ?_, congrArg PacketID.ipaddr hX, hdest, congrArg PacketID.prot hX, hdec⟩
    rw [run_new rfl hfrag.ofID, hrun]

section

variable {s : Stack σ} {f : Frame} {h : IPv4.Header} {payload d : Str} {uh : UDP.Header}
  (hstep : (s.buffers.step f.2).2 = [(h, payload)]) (hprot : h.protocol = .udp)
  (hdec : UDP.decode payload = .ok (uh, d)) (hmac : IsBytes 6 f.1.dstMac)
  (hident : 0 ≤ h.identification ∧ h.identification < 65536) (hsrc : IsBytes 4 h.sourceAddr)
  (hports : PortsInRange uh)

include hstep hprot hdec hmac hident hsrc hports

/-- The answer of a bound port is what its callback returns. -/
theorem sent_bound {port : Int} {cb : Callback σ} (hbound : s.bound uh.destPort = some (port, cb))
    {r : Str} {app : σ} (hcb : cb d s.app = .ok r app) (hr : r.length ≤ 65507) :
    ∃ out, (handleAll s [f]).sent = s.sent ++ out.map toByteList ∧
      IsReply h.sourceAddr uh r out := by
  obtain ⟨t, hsent, -, happ, hbinds, heq⟩ := handleIPv4_udp hstep hprot
  rw [handleUDP_bound hdec ((hbinds _).trans hbound), estate_bind] at heq
  have hlog := logged_unprinted t (UDP.toString uh)
  have happ' : (t.logged (UDP.toString uh)).app = s.app :=
    (app_of_inner (inner_of_unprinted hlog)).trans happ
  have hsent' : (t.logged (UDP.toString uh)).sent = s.sent := (sent_of_unprinted hlog).trans hsent
  simp only [callback, happ', hcb] at heq
  obtain ⟨out, hreply, hout⟩ := reply_isReply (h := h) hmac hident hsrc hports
    hr 0 { t.logged (UDP.toString uh) with
      app := app, called := (t.logged (UDP.toString uh)).called ++ [(port, d)] }
  refine ⟨out, ?_, hout⟩
  rw [sent_of_unprinted (handleAll_singleton s f), heq, hreply]
  simp only [after, hsent']

/-- The answer of a port that nothing is bound to is a fixed text. -/
theorem sent_unbound (hbound : s.bound uh.destPort = .none) :
    (handleAll s [f]).called = s.called ∧
    ∃ out, (handleAll s [f]).sent = s.sent ++ out.map toByteList ∧
      IsReply h.sourceAddr uh notMapped out := by
  obtain ⟨t, hsent, hcalled, -, hbinds, heq⟩ := handleIPv4_udp hstep hprot
  have hrun := handleAll_singleton s f
  refine ⟨?_, ?_⟩
  · rw [called_of_inner (inner_of_unprinted hrun), heq,
      handleUDP_not_called hdec ((hbinds _).trans hbound), hcalled]
  · rw [handleUDP_unbound hdec ((hbinds _).trans hbound)] at heq
    obtain ⟨out, hreply, hout⟩ := reply_isReply (h := h) (r := notMapped) hmac
      hident hsrc hports (by decide) (8 + payload.length) (t.logged (UDP.toString uh))
    refine ⟨out, ?_, hout⟩
    rw [sent_of_unprinted hrun, heq, hreply]
    simp only [after]
    rw [sent_of_unprinted (logged_unprinted t (UDP.toString uh)), hsent]

end

/-! ## The arrival of a datagram -/

/-- **What a peer sends arrives**, from buffers that do not hold its ID: nothing
is delivered before the last frame, and with it the segment. -/
theorem arrives_of_sentBy {eh : Eth.Header} {base : IPv4.Header} {segment : Str} {fs : List Frame}
    (hdst : IsBytes 6 eh.dstMac) (hsrc : IsBytes 6 eh.srcMac) (hbase : base.InRange)
    (hlen : segment.length < 65516) (hsent : SentBy eh base segment fs) {b : Buffers}
    (hnew : b.view (initPktID base) = View.none) :
    ∃ init last h, fs = init ++ [(eh, last)] ∧ initPktID h = initPktID base ∧
      (Machine.run Buffers.step b (init.map Prod.snd)).2 = [] ∧
      ((Machine.run Buffers.step b (init.map Prod.snd)).1.step last).2 = [(h, segment)] := by
  cases hsent with
  | @pieces out hout =>
    -- all frames have the packet ID, so the view alone decides
    obtain ⟨out', hout', hfrag, -⟩ := fragmentFrames_ok eh hdst hsrc hbase
      (fullBlocks_cut segment) 0 (by rw [flatten_cut]; omega)
    rw [Nat.zero_mul] at hfrag
    obtain rfl : out = out' := Except.ok.inj (hout.symm.trans hout')
    obtain ⟨init, last, rfl, hquiet⟩ := hfrag.exists_last
    obtain ⟨h, -, hX, hrun⟩ := run_none hfrag
    have hinit : (Machine.run Buffers.step b init).2 = [] := by
      rw [run_new hnew fun f hf => hfrag.ofID f (List.mem_append_left _ hf)]
      exact hquiet View.none open_none
    rw [← run_new hnew hfrag.ofID, Machine.run_snoc, hinit, List.nil_append, flatten_cut] at hrun
    refine ⟨init.map fun f => (eh, f), last, h, by simp, hX, ?_, ?_⟩
    · rw [List.map_map]
      simpa [Function.comp_def] using hinit
    · rw [List.map_map]
      simpa [Function.comp_def] using hrun
  | @whole f hfits hf =>
    -- one frame, which does not touch the buffers
    have hshort : 20 + segment.length < 65536 := by omega
    obtain ⟨f', c, hf', hcar⟩ := encodeFrame_ok hdst hsrc
      (inRange_fragment hbase (20 + segment.length) 2 0 (by omega) (by omega)) hshort
    obtain rfl : f = f' := Except.ok.inj (hf.symm.trans hf')
    have hwhole : IsWhole (initPktID base) segment f := ⟨_, hcar.packet, rfl, rfl, rfl⟩
    obtain ⟨h, -, hX, hstep⟩ := step_whole (v := b.view (initPktID base)) hwhole
    refine ⟨[], f, h, rfl, hX, rfl, ?_⟩
    rw [List.map_nil, Machine.run_nil, ((view_projection _).own b f hwhole.ofID).2.1, hstep]

/-- The stack serves the frames of a datagram. -/
theorem served_of_sentBy {s : Stack σ} {binds : List (Int × Callback σ)} {eh : Eth.Header}
    {base : IPv4.Header} {uh : UDP.Header} {d segment : Str} {fs : List Frame}
    (hs : s.listenOn = []) (hdst : IsBytes 6 eh.dstMac) (hsrc : IsBytes 6 eh.srcMac)
    (hbase : base.InRange) (hprot : base.protocol = .udp) (hports : PortsInRange uh)
    (hd : d.length ≤ 65507) (hnew : s.buffers.view (initPktID base) = View.none)
    (henc : UDP.encode uh d = .ok segment) (hsent : SentBy eh base segment fs) :
    Served (bindAll s binds) binds base.sourceAddr uh d fs := by
  have hdec := UDP.decode_of_encode henc
  have hbuf : (bindAll s binds).buffers = s.buffers := by rw [bindAll_eq]
  obtain ⟨segment', henc', hlen, -⟩ := UDP.decode_encode (UDP.encodable_of_encode henc)
  obtain rfl : segment = segment' := Except.ok.inj (henc.symm.trans henc')
  obtain ⟨init, last, h, rfl, hX, hquiet, hstep⟩ := arrives_of_sentBy hdst hsrc hbase
    (by omega) hsent (b := (bindAll s binds).buffers) (by rw [hbuf, hnew])
  -- the state before the last frame
  obtain ⟨hsent₁, hcalled₁, happ₁, hbound₁⟩ := handleAll_unheard hquiet
  rw [← handleAll_buffers] at hstep
  have hudp : h.protocol = .udp := (congrArg PacketID.prot hX).trans hprot
  have hident : h.identification = base.identification := congrArg PacketID.id hX
  have haddr : h.sourceAddr = base.sourceAddr := congrArg PacketID.ipaddr hX
  have hports' : PortsInRange { uh with length := (d.length : Int) + 8, checksum := 0 } := hports
  have hidentRange : 0 ≤ h.identification ∧ h.identification < 65536 := by
    rw [hident]
    exact hbase.identification
  have haddrBytes : IsBytes 4 h.sourceAddr := by
    rw [haddr]
    exact hbase.sourceAddr
  refine ⟨?before, ?bound, ?unbound⟩
  case before =>
    rw [List.dropLast_concat]
    exact ⟨hcalled₁, hsent₁⟩
  case bound =>
    rintro pre cb post rfl hpost
    have hb := (hbound₁ uh.destPort).trans (bound_bindAll hs hpost)
    rw [handleAll_append, ← haddr]
    obtain ⟨hcalled, happ⟩ := called_delivered (f := (eh, last)) hstep hudp hdec hb
    refine ⟨?_, ?_, fun r app hcb hr => ?_⟩
    · rw [hcalled, hcalled₁]
    · rw [happ, happ₁]
    · rw [← happ₁] at hcb
      obtain ⟨out, hout, hreply⟩ := sent_bound (f := (eh, last)) hstep hudp hdec hdst hidentRange
        haddrBytes hports' hb hcb hr
      refine ⟨out, ?_, hreply.frames, hreply.datagram⟩
      rw [hout, hsent₁]
  case unbound =>
    intro hport
    have hb := (hbound₁ uh.destPort).trans (unbound_bindAll hs hport)
    rw [handleAll_append, ← haddr]
    obtain ⟨hcalled, out, hout, hreply⟩ := sent_unbound (f := (eh, last)) hstep hudp hdec hdst
      hidentRange haddrBytes hports' hb
    refine ⟨hcalled.trans hcalled₁, out, ?_, hreply.frames, hreply.datagram⟩
    rw [hout, hsent₁]

/-- **The UDP service, end to end**: after any sequence of `bindUDP` calls, from
any buffers that do not hold the packet ID, a datagram with up to 65507 bytes of
data is encoded without failure, arrives with its last frame, is given to the
callback most recently bound to its port, and is answered with what that returns. -/
theorem udp_service (s₀ : Stack σ) (binds : List (Int × Callback σ)) (eh : Eth.Header)
    (base : IPv4.Header) (uh : UDP.Header) (d : Str)
    (hmac : IsBytes 6 eh.dstMac ∧ IsBytes 6 eh.srcMac) (hbase : base.InRange)
    (hprot : base.protocol = .udp) (hports : PortsInRange uh) (hd : d.length ≤ 65507)
    (hnew : initPktID base ∉ keys s₀.buffers.fragmentBuffer ∧
      initPktID base ∉ keys s₀.buffers.assemblingList) :
    ∃ segment, UDP.encode uh d = .ok segment ∧
      (∃ out, fragmentFrames eh base 0 (cut segment) = .ok out) ∧
      (segment.length + 20 ≤ mtu →
        ∃ f, encodeFrame eh (pieceHeader base (20 + segment.length) 2 0) segment = .ok f) ∧
      ∀ fs, SentBy eh base segment fs →
        Served (bindAll { s₀ with listenOn := [] } binds) binds base.sourceAddr uh d fs := by
  obtain ⟨hdst, hsrc⟩ := hmac
  obtain ⟨⟨hsp, hsp'⟩, hdp, hdp'⟩ := hports
  have hencodable : UDP.Encodable uh d := ⟨⟨hsp, by omega⟩, ⟨hdp, by omega⟩, by omega⟩
  obtain ⟨segment, henc, hlen, -⟩ := UDP.decode_encode hencodable
  refine ⟨segment, henc, ?_, ?_, fun fs hfs => ?_⟩
  · obtain ⟨out, hout, -⟩ := fragmentFrames_ok eh hdst hsrc hbase (fullBlocks_cut segment) 0
      (by rw [flatten_cut]; omega)
    exact ⟨out, hout⟩
  · intro hfits
    obtain ⟨f, -, hf, -⟩ := encodeFrame_ok hdst hsrc
      (inRange_fragment hbase (20 + segment.length) 2 0 (by omega) (by omega)) (p := segment)
      (by omega)
    exact ⟨f, hf⟩
  · have hview : s₀.buffers.view (initPktID base) = View.none := by
      rw [Buffers.view, lookup_eq_none.mpr hnew.1, lookup_eq_none.mpr hnew.2]
      rfl
    exact served_of_sentBy rfl hdst hsrc hbase hprot ⟨⟨hsp, hsp'⟩, hdp, hdp'⟩ hd hview henc hfs

/-- The IPv4 header of a peer. -/
def sampleBase : IPv4.Header :=
  ⟨4, 5, 0, 0, 0, 1, 0, 0, 64, .udp, 0, [10, 0, 0, 1], [10, 0, 0, 2]⟩

/-- A datagram of six bytes for the echo service. -/
theorem udp_service_sample :
    ∃ segment, UDP.encode ⟨7, 8080, 0, 0⟩ [104, 101, 108, 108, 111, 33] = .ok segment ∧
      (∃ out, fragmentFrames ⟨.ipv4, mac, [2, 0, 0, 0, 0, 1]⟩ sampleBase 0 (cut segment) =
        .ok out) ∧
      (segment.length + 20 ≤ mtu → ∃ f, encodeFrame ⟨.ipv4, mac, [2, 0, 0, 0, 0, 1]⟩
        (pieceHeader sampleBase (20 + segment.length) 2 0) segment = .ok f) ∧
      ∀ fs, SentBy ⟨.ipv4, mac, [2, 0, 0, 0, 0, 1]⟩ sampleBase segment fs →
        Served (bindAll { Stack.init () with listenOn := [] } [(8080, fun p => pure p)])
          [(8080, fun p => pure p)] [10, 0, 0, 1] ⟨7, 8080, 0, 0⟩
          [104, 101, 108, 108, 111, 33] fs :=
  udp_service (Stack.init ()) [(8080, fun p => pure p)] ⟨.ipv4, mac, [2, 0, 0, 0, 0, 1]⟩ sampleBase
    ⟨7, 8080, 0, 0⟩ [104, 101, 108, 108, 111, 33] ⟨isBytes_mac, rfl, by decide⟩
    (by decide) rfl ⟨by decide, by decide⟩ (by decide) ⟨List.not_mem_nil, List.not_mem_nil⟩

end Unikernel.Network
