import Unikernel.Network.Addressing
import Unikernel.NetworkProf.Packets

/-!
# networkProflib: handling simulated frames

The handlers of `Libs/networkProflib` are those of `Libs/networklib`, word for word;
only `ethSend` drops the frame that it has encoded, so that `sent` is here a record of
what was encoded. Nothing reads it.

All simulated frames have one packet ID and are addressed to the stack itself. What
comes of them:

- a datagram in several frames: the first frame is stored and nothing is raised,
  whatever became of the others (`round_first`);
- a datagram in one frame: it is delivered every time, and `handleUDP` returns if the
  answer to it can be sent (`round_single`).
-/

namespace Unikernel.NetworkProf

open Sml Network

variable {σ α : Type}

/-- The computation did not raise. -/
def returned : EStateM.Result Exn σ α → Bool
  | .ok _ _ => true
  | .error _ _ => false

/-- What was found for a port, if anything, has an answer to `data` that fits a UDP segment. -/
def answered (found : Option (Int × Callback σ)) (data : Str) (app : σ) : Bool :=
  match found with
  | none => true
  | some (_, cb) =>
    match cb data app with
    | .ok r _ => decide (r.length ≤ 65527)
    | .error _ _ => false

/-- The application's state after it was given `data`. -/
def appAfter (found : Option (Int × Callback σ)) (data : Str) (app : σ) : σ :=
  match found with
  | none => app
  | some (_, cb) => after (cb data app)

/-! ## handleUDP -/

section Answers

variable {dstMac : List Int} {h : IPv4.Header} {payload data : Str} {uh : UDP.Header}

theorem reply_returned (hmac : IsBytes 6 dstMac)
    (hident : 0 ≤ h.identification ∧ h.identification < 65536) (hsrc : IsBytes 4 h.sourceAddr)
    (hdec : UDP.decode payload = .ok (uh, data)) (length : Int) (r : Str) (s : Stack σ) :
    returned (reply dstMac h uh length r s) = decide (r.length ≤ 65527) := by
  by_cases hr : r.length ≤ 65527
  · obtain ⟨segment, out, ds, hok, -⟩ := reply_sends hmac hident hsrc hdec length s hr
    rw [hok, decide_eq_true hr]
    rfl
  · obtain ⟨e, he⟩ : ∃ e, reply dstMac h uh length r s = .error e s :=
      reply_fails uh length s (Nat.lt_of_not_le hr)
    rw [he, decide_eq_false hr]
    rfl

/-- `handleUDP` returns when what it found for the port has an answer, and the
application is given the data once. -/
theorem handleUDP_answered (hmac : IsBytes 6 dstMac)
    (hident : 0 ≤ h.identification ∧ h.identification < 65536) (hsrc : IsBytes 4 h.sourceAddr)
    (hdec : UDP.decode payload = .ok (uh, data)) (s : Stack σ) :
    returned (handleUDP dstMac h payload s) = answered (s.bound uh.destPort) data s.app ∧
      (after (handleUDP dstMac h payload s)).app = appAfter (s.bound uh.destPort) data s.app := by
  have hlog := app_of_inner (inner_of_unprinted (logged_unprinted s (UDP.toString uh)))
  cases hbound : s.bound uh.destPort with
  | none =>
    rw [handleUDP_unbound hdec hbound]
    refine ⟨(reply_returned hmac hident hsrc hdec _ notMapped _).trans rfl, ?_⟩
    exact (app_of_inner (reply_inner dstMac h uh _ notMapped _)).trans hlog
  | some e =>
    obtain ⟨port, cb⟩ := e
    refine ⟨?_, (handleUDP_called hdec hbound).2⟩
    rw [handleUDP_bound hdec hbound, estate_bind, answered, ← hlog]
    generalize s.logged (UDP.toString uh) = t
    unfold callback
    cases cb data t.app with
    | ok r app => exact reply_returned hmac hident hsrc hdec 0 r _
    | error e app => rfl

end Answers

/-! ## One round -/

section Round

variable {s : Stack σ} {eh : Eth.Header} {f p : Str} {k : Nat} {X : PacketID}

/-- A round on an IPv4 frame is `handleIPv4`, and logging. -/
theorem listenBody_ipv4 {packet : Str} (hdec : Eth.decode f = .ok (eh, packet))
    (het : eh.et = .ipv4) (s : Stack σ) :
    ∃ t : Stack σ, t.unprinted = s.unprinted ∧
      returned (listenBody f s) = returned (handleIPv4 eh f t) ∧
      (swallowing (listenBody f) s).unprinted = (after (handleIPv4 eh f t)).unprinted := by
  obtain ⟨t, str, ht, hbody⟩ := listenBody_decoded hdec s
  refine ⟨t, ht, ?_⟩
  have hdispatch : typeDispatch eh f t = handleIPv4 eh f t := by rw [typeDispatch, het]
  rw [swallowing_unprinted, hbody, estate_bind, hdispatch]
  cases handleIPv4 eh f t with
  | ok u t' => exact ⟨rfl, logged_unprinted _ _⟩
  | error e t' => exact ⟨rfl, rfl⟩

/-- A fragment with others to come is stored, and nothing is raised. -/
theorem handleIPv4_more (hf : IsFragment X k p true f) (hopen : (s.buffers.view X).Open)
    (eh : Eth.Header) : returned (handleIPv4 eh f s) = true := by
  obtain ⟨h, hp, rfl, -, hflags⟩ := hf
  rw [if_pos rfl] at hflags
  have hadds : ¬ s.buffers.AddFails (initPktID h) (fragmentOf h p) := by
    rw [addFails_iff, (add_open hopen _).2]
    exact Bool.false_ne_true
  have hkept : ∃ b, payloadOpt h p s.buffers = .ok none b := by
    generalize payloadOpt h p s.buffers = r,
      payloadOpt_outcome (ipv4Packet_offset hp) p s.buffers = ho
    cases ho with
    | kept => exact ⟨_, rfl⟩
    | whole hwhole => omega
    | rejected _ hbad => exact absurd hbad hadds
    | assembled _ hlast => omega
    | misfit _ hlast => omega
    | unstored _ hlast => omega
  obtain ⟨b, hb⟩ := hkept
  rw [handleIPv4, raising_bind_ok hp]
  simp only
  rw [estate_bind_ok (onBuffers_ok hb), estate_bind_ok (logPrint_eq _ _)]
  rfl

/-- The buffers after a round are those after a step, and no binding changes. -/
theorem round_core {packet : Str} (hdec : Eth.decode f = .ok (eh, packet)) (het : eh.et = .ipv4)
    (s : Stack σ) :
    (swallowing (listenBody f) s).buffers = (s.buffers.step f).1 ∧
      (swallowing (listenBody f) s).listenOn = s.listenOn := by
  obtain ⟨t, ht, -, hround⟩ := listenBody_ipv4 hdec het s
  have hcore := (core_of_inner (inner_of_unprinted hround)).trans (handleIPv4_core eh f t)
  have hstart := core_of_inner (inner_of_unprinted ht)
  simp only [Stack.core, Prod.mk.injEq] at hcore hstart
  rw [hcore.1, hcore.2.2, hstart.1, hstart.2.2]
  exact ⟨rfl, rfl⟩

/-- All that is stored are copies of one packet. -/
structure Copies (v : View) (p : Str) : Prop where
  isOpen : v.Open
  same : ∀ g ∈ v.fragments, g = ⟨p, 0⟩

theorem copies_none (p : Str) : Copies View.none p where
  isOpen := open_none
  same := fun g hg => by cases hg

/-- One more copy, and the packet is delivered. -/
theorem copies_step {v : View} (h : Copies v p) (hf : IsFragment X 0 p false f) :
    Copies (v.step f).1 p ∧ ∃ hdr, initPktID hdr = X ∧ (v.step f).2 = [(hdr, p)] := by
  obtain ⟨hdr, -, hX, hstep⟩ := step_last h.isOpen hf
  have hall : ∀ g ∈ (⟨p, (0 / 8 : Nat)⟩ : Fragment) :: v.fragments, g = ⟨p, (0 / 8 : Nat)⟩ :=
    List.forall_mem_cons.mpr ⟨rfl, h.same⟩
  have hfits : ∀ g ∈ (⟨p, (0 / 8 : Nat)⟩ : Fragment) :: v.fragments, g.Fits (0 + p.length) := by
    intro g hg
    rw [hall g hg]
    exact fits_piece (Nat.le_refl _)
  have hp : assembled (0 + p.length) (⟨p, (0 / 8 : Nat)⟩ :: v.fragments) = p := by
    have hone : [p].flatten = p := List.flatten_singleton
    refine (Overlay.replay_pieces ?_ ?_).trans hone
    · rw [length_blank, hone, Nat.zero_add]
    · -- the stored fragments, copies included, are the one piece of the packet
      intro q
      rw [List.mem_map, Overlay.pieces, Overlay.pieces, List.mem_singleton]
      constructor
      · rintro ⟨g, hg, rfl⟩
        rw [hall g hg, patch_piece (Nat.dvd_zero 8)]
      · rintro rfl
        exact ⟨_, List.mem_cons_self, patch_piece (Nat.dvd_zero 8) p⟩
  rw [hstep, View.complete_fits rfl hfits, hp]
  exact ⟨⟨open_of_stored rfl, hall⟩, hdr, hX, rfl⟩

end Round

/-! ## Rounds on simulated frames -/

section Simulated

variable {port : Int} {d segment f : Str} {fs : List Str} {s : Stack σ}

theorem FramesOf.decoded (h : FramesOf port d segment fs) (hf : f ∈ fs) :
    ∃ packet, Eth.decode f = .ok (⟨.ipv4, mac, mac⟩, packet) := by
  obtain ⟨hdr, p, hcar⟩ := h.carried f hf
  obtain ⟨packet, hdec, -⟩ := decodeFrame_eq_ok hcar.frame
  exact ⟨packet, hdec⟩

/-- No frame closes the view of the packet ID. -/
theorem FramesOf.round_open (h : FramesOf port d segment fs) (hf : f ∈ fs)
    (hopen : (s.buffers.view conID).Open) :
    ((swallowing (listenBody f) s).buffers.view conID).Open := by
  obtain ⟨packet, hdec⟩ := h.decoded hf
  obtain ⟨k, p, more, hfrag⟩ := h.fragmented.isFragment hf
  rw [(round_core hdec rfl s).1, ((view_projection conID).own s.buffers f hfrag.ofID).1]
  exact step_open hopen hfrag

/-- **The first of several frames**: the round on it does not raise. -/
theorem FramesOf.round_first {g : Str} (h : FramesOf port d segment (f :: g :: fs))
    (hopen : (s.buffers.view conID).Open) : returned (listenBody f s) = true := by
  obtain ⟨packet, hdec⟩ := h.decoded List.mem_cons_self
  obtain ⟨t, ht, hret, -⟩ := listenBody_ipv4 hdec rfl s
  have hbuf := buffers_of_inner (inner_of_unprinted ht)
  have hfrag := h.fragmented
  generalize cut segment = ps at hfrag
  cases hfrag with
  | more hfirst =>
    rw [hret]
    exact handleIPv4_more hfirst (by rwa [hbuf]) _

/-- **A single frame**: the datagram is delivered, the application is given the data
once, and the round returns if there is an answer. -/
theorem FramesOf.round_single (h : FramesOf port d segment [f])
    (hcopies : Copies (s.buffers.view conID) segment) :
    returned (listenBody f s) = answered (s.bound port) d s.app ∧
      (swallowing (listenBody f) s).app = appAfter (s.bound port) d s.app ∧
      Copies ((swallowing (listenBody f) s).buffers.view conID) segment := by
  obtain ⟨packet, hdec⟩ := h.decoded List.mem_cons_self
  have hfrag : IsFragment conID 0 segment false f := by
    have hflat := flatten_cut segment
    have hpieces := h.fragmented
    generalize cut segment = ps at hpieces hflat
    cases hpieces with
    | last hf =>
      rw [List.flatten_singleton] at hflat
      rwa [hflat] at hf
    | more hf hrest => cases hrest
  obtain ⟨hview, hout, -⟩ := (view_projection conID).own s.buffers f hfrag.ofID
  obtain ⟨hnext, hdr, hX, hdel⟩ := copies_step hcopies hfrag
  rw [hdel] at hout
  obtain ⟨hsrc, hident, hprot⟩ := PacketID.mk.inj hX
  have hdata := UDP.decode_of_encode h.encoded
  -- from the round to `handleIPv4`, and from there to `handleUDP`
  obtain ⟨t, ht, hret, hround⟩ := listenBody_ipv4 hdec rfl s
  have hinner := inner_of_unprinted ht
  have hbuf := buffers_of_inner hinner
  obtain ⟨u, -, -, happ, hbinds, heq⟩ := handleIPv4_udp (s := t)
    (f := (⟨.ipv4, mac, mac⟩, f)) (by rw [hbuf]; exact hout) hprot
  obtain ⟨hans, hafter⟩ := handleUDP_answered isBytes_mac (h := hdr)
    (by rw [hident]; exact ⟨by decide, by decide⟩) (by rw [hsrc]; exact isBytes_ipAddress) hdata u
  have happu : u.app = s.app := happ.trans (app_of_inner hinner)
  have hboundu : u.bound port = s.bound port := (hbinds port).trans (bound_of_inner hinner port)
  rw [happu, hboundu] at hans hafter
  refine ⟨?_, ?_, ?_⟩
  · rw [hret, heq, hans]
  · rw [app_of_inner (inner_of_unprinted hround), heq, hafter]
  · rw [(round_core hdec rfl s).1, hview]
    exact hnext

end Simulated

end Unikernel.NetworkProf
