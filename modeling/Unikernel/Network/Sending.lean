import Unikernel.Network.Datagram

/-!
# Sending a packet in fragments

- `cut`: the pieces that `ipv4Send` cuts a packet into, 1480 bytes each but the last.
- `fragmentFrames`: the frames of a packet in pieces. The stack and its peers
  send by it, with different addresses (`sendFragments_eq`).
- `fragmentFrames_ok`: for a header in range and a packet that is not too long,
  the encoders succeed, and the frames are the fragments of the packet.
-/

namespace Unikernel.Network

open Sml

variable {σ : Type}

/-- The pieces that `sendFragments` cuts a payload into. -/
def cut (payload : Str) : List Str :=
  if payload.length + 20 ≤ mtu then [payload]
  else payload.take (nfb * 8) :: cut (payload.drop (nfb * 8))
termination_by payload.length
decreasing_by
  simp only [List.length_drop, nfb, mtu] at *
  omega

/-- An Ethernet frame with an IPv4 packet. -/
def encodeFrame (eh : Eth.Header) (h : IPv4.Header) (payload : Str) : Except Exn Str := do
  Eth.encode eh (← IPv4.encode h payload)

/-- Decode a frame down to the payload of its IPv4 packet. -/
def decodeFrame (ethFrame : Str) : Except Exn (Eth.Header × IPv4.Header × Str) := do
  let (eh, packet) ← Eth.decode ethFrame
  return (eh, ← IPv4.decode packet)

/-- The frame carries the packet, and the lengths are true. -/
structure Carries (eh : Eth.Header) (h : IPv4.Header) (p ethFrame : Str) : Prop where
  frame : decodeFrame ethFrame = .ok (eh, h, p)
  length : ethFrame.length = 34 + p.length
  totalLength : h.totalLength = 20 + p.length

/-- The header of one piece of a packet. -/
def pieceHeader (base : IPv4.Header) (totalLength flags offset : Int) : IPv4.Header :=
  { base with totalLength := totalLength, flags := flags, fragmentOffset := offset }

/-- The frames of the pieces of a packet, from block `offset` on. -/
def fragmentFrames (eh : Eth.Header) (base : IPv4.Header) : Int → List Str → Except Exn (List Str)
  | _, [] => .ok []
  | offset, p :: ps => do
    let frame ← encodeFrame eh
      (pieceHeader base (20 + p.length) (if ps = [] then 0 else 1) offset) p
    return frame :: (← fragmentFrames eh base (offset + nfb) ps)

/-- Pieces as `cut` makes them. -/
def FullBlocks : List Str → Prop
  | [] => False
  | [p] => p.length + 20 ≤ mtu
  | p :: ps => p.length = nfb * 8 ∧ FullBlocks ps

/-! ## The pieces -/

theorem cut_ne_nil (payload : Str) : cut payload ≠ [] := by
  rw [cut]
  split
  · exact List.cons_ne_nil _ _
  · exact List.cons_ne_nil _ _

theorem fullBlocks_cons {p : Str} {ps : List Str} (hne : ps ≠ []) :
    FullBlocks (p :: ps) ↔ p.length = nfb * 8 ∧ FullBlocks ps := by
  obtain ⟨q, qs, rfl⟩ := List.exists_cons_of_ne_nil hne
  exact Iff.rfl

theorem flatten_cut (payload : Str) : (cut payload).flatten = payload := by
  fun_induction cut payload with
  | case1 payload h => simp
  | case2 payload h ih => rw [List.flatten_cons, ih, List.take_append_drop]

theorem length_take_block {payload : Str} (h : ¬ payload.length + 20 ≤ mtu) :
    (payload.take (nfb * 8)).length = nfb * 8 := by
  simp only [List.length_take, nfb, mtu] at *
  omega

theorem fullBlocks_cut (payload : Str) : FullBlocks (cut payload) := by
  fun_induction cut payload with
  | case1 payload h => exact h
  | case2 payload h ih =>
    exact (fullBlocks_cons (cut_ne_nil _)).mpr ⟨length_take_block h, ih⟩

/-! ## The frames -/

section Pieces

variable {args : SendArgs} {payload : Str} {offset : Int} {fs : List Str}
  (hfs : fragmentFrames ⟨.ipv4, args.dstMac, mac⟩ (fragmentHeader args 0 0 0) offset
    (cut payload) = .ok fs)

include hfs

/-- What fits one frame is sent in it, as the last piece. -/
theorem frames_of_short (h : payload.length + 20 ≤ mtu) :
    ∃ packet frame,
      IPv4.encode (fragmentHeader args (20 + payload.length) 0 offset) payload = .ok packet ∧
      Eth.encode ⟨.ipv4, args.dstMac, mac⟩ packet = .ok frame ∧ fs = [frame] := by
  rw [cut, if_pos h] at hfs
  simp only [fragmentFrames, encodeFrame, except_bind_eq_ok, if_true] at hfs
  obtain ⟨frame, ⟨packet, hpacket, hframe⟩, rest, hrest, hfs⟩ := hfs
  cases hrest
  cases hfs
  exact ⟨packet, frame, hpacket, hframe, rfl⟩

/-- Of anything longer a full block comes first. -/
theorem frames_of_long (h : ¬ payload.length + 20 ≤ mtu) :
    ∃ packet frame rest,
      IPv4.encode (fragmentHeader args (20 + nfb * 8) 1 offset) (payload.take (nfb * 8)) =
        .ok packet ∧
      Eth.encode ⟨.ipv4, args.dstMac, mac⟩ packet = .ok frame ∧
      fragmentFrames ⟨.ipv4, args.dstMac, mac⟩ (fragmentHeader args 0 0 0) (offset + nfb)
        (cut (payload.drop (nfb * 8))) = .ok rest ∧ fs = frame :: rest := by
  rw [cut, if_neg h] at hfs
  simp only [fragmentFrames, encodeFrame, except_bind_eq_ok, if_neg (cut_ne_nil _)] at hfs
  obtain ⟨frame, ⟨packet, hpacket, hframe⟩, rest, hrest, hfs⟩ := hfs
  cases hfs
  refine ⟨packet, frame, rest, ?_, hframe, hrest, rfl⟩
  rw [← hpacket, length_take_block h]
  rfl

end Pieces

/-- What the stack sends are the frames of the pieces. -/
theorem sendFragments_eq {args : SendArgs} {payload : Str} {offset : Int} {fs : List Str}
    (hfs : fragmentFrames ⟨.ipv4, args.dstMac, mac⟩ (fragmentHeader args 0 0 0) offset
      (cut payload) = .ok fs) (s : Stack σ) :
    sendFragments args offset payload s =
      .ok () { s with sent := s.sent ++ fs.map toByteList } := by
  fun_induction @sendFragments σ args offset payload generalizing fs s with
  | case1 offset payload h =>
    obtain ⟨packet, frame, hpacket, hframe, rfl⟩ := frames_of_short hfs h
    rw [raising_bind_ok hpacket, ethSend, raising_bind_ok hframe]
    rfl
  | case2 offset payload h ih =>
    obtain ⟨packet, frame, rest, hpacket, hframe, hrest, rfl⟩ := frames_of_long hfs h
    have hsend : ethSend .ipv4 args.dstMac packet s =
        .ok () { s with sent := s.sent ++ [toByteList frame] } := by
      rw [ethSend, raising_bind_ok hframe]
      rfl
    rw [raising_bind_ok hpacket, estate_bind_ok hsend, ih hrest]
    simp

/-! ## Headers in range -/

theorem isBytes_mac : IsBytes 6 mac := ⟨rfl, by decide⟩

theorem isBytes_ipAddress : IsBytes 4 ipAddress := ⟨rfl, by decide⟩

theorem fragmentHeader_inRange {args : SendArgs}
    (hident : 0 ≤ args.identification ∧ args.identification < 65536)
    (hprot : args.protocol ≠ .unknown) (hdest : IsBytes 4 args.destAddr) :
    (fragmentHeader args 0 0 0).InRange where
  version := rfl
  ihl := by simp [fragmentHeader]
  dscp := by simp [fragmentHeader]
  ecn := by simp [fragmentHeader]
  identification := hident
  flags := by simp [fragmentHeader]
  fragmentOffset := by simp [fragmentHeader]
  timeToLive := by simp [fragmentHeader]
  protocol := hprot
  sourceAddr := isBytes_ipAddress
  destAddr := hdest

section Frames

variable {base : IPv4.Header}

theorem decodeFrame_eq_ok {f : Str} {eh : Eth.Header} {d : IPv4.Header × Str}
    (hdec : decodeFrame f = .ok (eh, d)) :
    ∃ packet, Eth.decode f = .ok (eh, packet) ∧ IPv4.decode packet = .ok d := by
  simp only [decodeFrame, except_bind_eq_ok] at hdec
  obtain ⟨⟨eh', packet⟩, hframe, d', hpacket, hd⟩ := hdec
  cases hd
  exact ⟨packet, hframe, hpacket⟩

/-- What `handleIPv4` takes from a frame is what the frame carries. -/
theorem Carries.packet {f p : Str} {eh : Eth.Header} {h : IPv4.Header} (hf : Carries eh h p f) :
    ipv4Packet f = .ok (h, p) := by
  obtain ⟨packet, hframe, hpacket⟩ := decodeFrame_eq_ok hf.frame
  obtain ⟨dst, src, a, b, rfl, ldst, lsrc, -⟩ := Eth.decode_eq_ok hframe
  rw [ipv4Packet, Eth.extract_payload ldst lsrc]
  exact hpacket

/-- One frame: the encoders succeed and the decoders give everything back. -/
theorem encodeFrame_ok {eh : Eth.Header} (hdst : IsBytes 6 eh.dstMac) (hsrc : IsBytes 6 eh.srcMac)
    (hbase : base.InRange) {p : Str} (hp : 20 + p.length < 65536) :
    ∃ f c, encodeFrame eh base p = .ok f ∧
      Carries eh { base with totalLength := 20 + p.length, headerChecksum := c } p f := by
  obtain ⟨packet, c, henc, -, hlen, -, hdec⟩ := IPv4.decode_encode hbase hp
  obtain ⟨f, hf, hfdec, hext⟩ := Eth.decode_encode packet hdst hsrc
  refine ⟨f, c, ?_, ?_, ?_, rfl⟩
  · rw [encodeFrame, henc]
    exact hf
  · rw [decodeFrame, hfdec, except_ok_bind]
    simp only [hdec]
    rfl
  · obtain ⟨h14, rfl⟩ := extract_eq_ok_iff.mp hext
    rw [List.length_drop] at hlen
    omega

/-- A header stays in range with other flags and offset. -/
theorem inRange_fragment (hbase : base.InRange) (len flags offset : Int)
    (hflags : 0 ≤ flags ∧ flags < 8) (hoff : 0 ≤ offset ∧ offset < 8192) :
    (pieceHeader base len flags offset).InRange :=
  { hbase with flags := hflags, fragmentOffset := hoff }

/-- **The frames of a packet**: the encoders succeed on every piece, and the
frames are the fragments of the packet, in order. -/
theorem fragmentFrames_ok (eh : Eth.Header) (hdst : IsBytes 6 eh.dstMac)
    (hsrc : IsBytes 6 eh.srcMac) (hbase : base.InRange) {ps : List Str} (hps : FullBlocks ps)
    (offset : Nat) (hlen : offset * 8 + ps.flatten.length < 65536) :
    ∃ fs, fragmentFrames eh base offset ps = .ok fs ∧
      Fragmented (initPktID base) (offset * 8) ps fs ∧
      ∀ f ∈ fs, ∃ h p, Carries eh h p f ∧ h.sourceAddr = base.sourceAddr ∧
        h.destAddr = base.destAddr := by
  induction ps generalizing offset with
  | nil => cases hps
  | cons p ps ih =>
    rw [List.flatten_cons, List.length_append] at hlen
    by_cases hnil : ps = []
    · subst hnil
      have hshort : p.length + 20 ≤ mtu := hps
      obtain ⟨f, c, hf, hcar⟩ := encodeFrame_ok hdst hsrc
        (inRange_fragment hbase (20 + p.length) 0 offset (by omega) (by omega)) (p := p)
        (by simp only [mtu] at hshort; omega)
      refine ⟨[f], ?_, .last ⟨_, hcar.packet, rfl, by simp [pieceHeader], rfl⟩, ?_⟩
      · simp only [fragmentFrames, if_true, hf, except_ok_bind]
        rfl
      · intro g hg
        rw [List.mem_singleton.mp hg]
        exact ⟨_, p, hcar, rfl, rfl⟩
    · -- the offset counts blocks of eight bytes, `Fragmented` counts bytes
      obtain ⟨hblock, hps⟩ := (fullBlocks_cons hnil).mp hps
      have hnext : (offset + nfb) * 8 = offset * 8 + p.length := by
        rw [hblock, Nat.add_mul]
      obtain ⟨f, c, hf, hcar⟩ := encodeFrame_ok hdst hsrc
        (inRange_fragment hbase (20 + p.length) 1 offset (by omega) (by omega)) (p := p)
        (by simp only [nfb, mtu] at hblock; omega)
      obtain ⟨fs, hfs, hfrag, hall⟩ := ih hps (offset + nfb) (by omega)
      rw [hnext] at hfrag
      refine ⟨f :: fs, ?_, .more ⟨_, hcar.packet, rfl, by simp [pieceHeader], rfl⟩ hfrag, ?_⟩
      · push_cast at hfs
        simp only [fragmentFrames, if_neg hnil, hf, hfs, except_ok_bind]
        rfl
      · exact List.forall_mem_cons.mpr ⟨⟨_, p, hcar, rfl, rfl⟩, hall⟩

end Frames

end Unikernel.Network
