import Unikernel.Lib.Ring
import Unikernel.Network.Sending

/-!
# networkProflib: simulated packets

The first part of `Libs/networkProflib/networklib.sml`, the library that programs
are profiled with. Instead of a network there is an array of packets:
`generateProfData` fills it with the frames of one UDP datagram, made from the
profiling data, and `receive` goes round it. `mac`, `ipAddress` and `mtu` are those
of `Libs/networklib`, and so are the header record that `conIpv4` builds and the text
of `ipv4Send`.

- `conFragments` is the sending recursion of `ipv4Send` a second time, with the
  frames collected newest first (`conFragments_eq`).
- `Sim.Loaded`: which frames lie in the array, and where `curIdx` is.
- `simulates_iff`: what is received is what would be sent, unless `curIdx` was left
  behind the end of the new array. `constructSim` sets the array and its length
  anew, but not `curIdx`.
-/

namespace Unikernel.NetworkProf

open Sml Network

/-- The references of the file, and what is printed. -/
structure Sim where
  port : Int
  simPktArr : List Str
  len : Nat
  curIdx : Nat
  times : Int
  profData : Option Str
  runs : Int
  printed : List String
  deriving DecidableEq

def Sim.init : Sim where
  port := 8080
  simPktArr := []
  len := 0
  curIdx := 0
  times := 0
  profData := none
  runs := 1000
  printed := []

/-- Code on these references. What was assigned before an exception stays assigned. -/
abbrev SimM := EStateM Exn Sim

def conEth (et : Eth.EthType) (dstMac : List Int) (payload : Str) : Except Exn Str :=
  Eth.encode { et := et, dstMac := dstMac, srcMac := mac } payload

/-- The recursion of `conIpv4`, with the frames made so far in `l`. -/
def conFragments (args : SendArgs) (offset : Int) (payload : Str) (l : List Str) :
    Except Exn (List Str) :=
  if payload.length + 20 ≤ mtu then do
    let packet ← IPv4.encode (fragmentHeader args (20 + payload.length) 0 offset) payload
    return (← conEth .ipv4 args.dstMac packet) :: l
  else do
    let packet ← IPv4.encode
      (fragmentHeader args (20 + nfb * 8) 1 offset) (payload.take (nfb * 8))
    let frame ← conEth .ipv4 args.dstMac packet
    conFragments args (offset + nfb) (payload.drop (nfb * 8)) (frame :: l)
termination_by payload.length
decreasing_by
  simp only [List.length_drop, nfb, mtu] at *
  omega

def conIpv4 (args : SendArgs) (payload : Str) : Except Exn (List Str) :=
  conFragments args 0 payload []

/-- The UDP segment that `conUDP` builds. -/
def conSegment (port : Int) (payload : Str) : Except Exn Str :=
  UDP.encode { length := 0, sourcePort := 9000, destPort := port, checksum := 0 } payload

/-- The arguments with which `conUDP` calls `conIpv4`. -/
def conArgs : SendArgs where
  identification := 1234
  dstMac := mac
  protocol := .udp
  destAddr := ipAddress

def conUDP (payload : Str) : SimM (List Str) := do
  let segment ← raising (conSegment (← get).port payload)
  raising (conIpv4 conArgs segment)

/-- `Array.update` raises `Subscript` behind the end of the array. Where it does not,
the array has cells, and `!len` is their number. -/
def addSimPkts : List Str → SimM Unit
  | [] => pure ()
  | h :: t => do
    let s ← get
    if s.curIdx < s.simPktArr.length then
      set { s with simPktArr := s.simPktArr.set s.curIdx h, curIdx := (s.curIdx + 1) % s.len }
      addSimPkts t
    else throw .subscript

def constructSim (l : List Str) : SimM Unit := do
  modify fun s => { s with len := l.length, simPktArr := List.replicate l.length [] }
  addSimPkts l

/-- `Array.sub`, and the index goes on. -/
def receive : SimM Str := do
  let s ← get
  match s.simPktArr[s.curIdx]? with
  | some el =>
    set { s with curIdx := (s.curIdx + 1) % s.len }
    return el
  | none => throw .subscript

def setProfData (d : Str) : SimM Unit := modify fun s => { s with profData := some d }

def setPort (n : Int) : SimM Unit := modify fun s => { s with port := n }

def setRuns (n : Int) : SimM Unit := modify fun s => { s with runs := n }

def generateProfData : SimM Unit := do
  match (← get).profData with
  | some d => constructSim (← conUDP d).reverse
  | none =>
    modify fun s => { s with printed := s.printed ++ ["Missing profiling data!\n"] }
    constructSim (← conUDP []).reverse

/-! ## Histories -/

inductive Call where
  | setProfData (d : Str)
  | generateProfData
  | receive

/-- The references after a call, whether it returned or raised. -/
def Sim.call (s : Sim) : Call → Sim
  | .setProfData d => after (NetworkProf.setProfData d s)
  | .generateProfData => after (NetworkProf.generateProfData s)
  | .receive => after (NetworkProf.receive s)

def Sim.calls (s : Sim) (history : List Call) : Sim := history.foldl Sim.call s

/-- `receive` after `k` other calls of it. -/
def nthReceive : Nat → SimM Str
  | 0 => receive
  | k + 1 => do
    let _ ← receive
    nthReceive k

/-- A profiling run up to the packet with number `k`. -/
def simulated (d : Str) (k : Nat) : SimM Str := do
  setProfData d
  generateProfData
  nthReceive k

/-- `fs` are the frames that `ipv4Send` makes of the segment for `d`, in the order in
which `ethSend` is called. -/
def SentFrames (port : Int) (d : Str) (fs : List Str) : Prop :=
  ∃ segment, conSegment port d = .ok segment ∧ ∀ (σ : Type) (t : Stack σ),
    ipv4Send conArgs segment t = .ok () { t with sent := t.sent ++ fs.map toByteList }

/-- Simulated traffic for `d` is the real traffic, again and again. -/
def Sim.Simulates (s : Sim) (d : Str) : Prop :=
  ∃ fs, SentFrames s.port d fs ∧
    ∀ k, ∃ f t, simulated d k s = .ok f t ∧ fs[k % fs.length]? = some f

/-! ## The frames -/

/-- The second fragmenting recursion makes the frames of the first one. -/
theorem conFragments_eq {args : SendArgs} {payload : Str} {offset : Int} {l fs : List Str}
    (hfs : fragmentFrames ⟨.ipv4, args.dstMac, mac⟩ (fragmentHeader args 0 0 0) offset
      (cut payload) = .ok fs) :
    conFragments args offset payload l = .ok (fs.reverse ++ l) := by
  fun_induction conFragments args offset payload l generalizing fs with
  | case1 offset payload l h =>
    obtain ⟨packet, frame, hpacket, hframe, rfl⟩ := frames_of_short hfs h
    rw [hpacket, except_ok_bind, conEth, hframe]
    rfl
  | case2 offset payload l h ih =>
    obtain ⟨packet, frame, rest, hpacket, hframe, hrest, rfl⟩ := frames_of_long hfs h
    have hcon : conEth .ipv4 args.dstMac packet = .ok frame := hframe
    -- the frame goes in front of those made before it, and comes out behind them
    rw [hpacket, except_ok_bind, hcon, except_ok_bind, ih frame hrest, List.reverse_cons,
      List.append_assoc, List.singleton_append]

/-- The packet ID that all simulated frames have. -/
def conID : PacketID := initPktID (fragmentHeader conArgs 0 0 0)

/-- The number of frames of the datagram for `d`: eight bytes of UDP header, and
`nfb * 8` bytes in a frame. -/
def frameCount (d : Str) : Nat := (d.length + 1487) / 1480

/-- The segment for `d` is made, and `fs` are the frames of its pieces. -/
structure FramesOf (port : Int) (d segment : Str) (fs : List Str) : Prop where
  encoded : conSegment port d = .ok segment
  length : segment.length = d.length + 8
  frames : fragmentFrames ⟨.ipv4, conArgs.dstMac, mac⟩ (fragmentHeader conArgs 0 0 0) 0
    (cut segment) = .ok fs
  fragmented : Fragmented conID 0 (cut segment) fs
  carried : ∀ f ∈ fs, ∃ h p, Carries ⟨.ipv4, mac, mac⟩ h p f

theorem exists_framesOf {port : Int} {d : Str} (hport : 0 ≤ port ∧ port ≤ 65535)
    (hd : d.length ≤ 65527) : ∃ segment fs, FramesOf port d segment fs := by
  have hencodable : UDP.Encodable { length := 0, sourcePort := 9000, destPort := port,
                                    checksum := 0 } d := ⟨by simp, hport, by omega⟩
  obtain ⟨segment, henc, hlen, -⟩ := UDP.decode_encode hencodable
  have hshort : 0 * 8 + (cut segment).flatten.length < 65536 := by
    rw [flatten_cut]
    omega
  have hbase : (fragmentHeader conArgs 0 0 0).InRange :=
    fragmentHeader_inRange ⟨by decide, by decide⟩ (by decide) isBytes_ipAddress
  obtain ⟨fs, hfs, hfrag, hall⟩ := fragmentFrames_ok ⟨.ipv4, mac, mac⟩ isBytes_mac isBytes_mac
    hbase (fullBlocks_cut segment) 0 hshort
  refine ⟨segment, fs, henc, hlen, hfs, hfrag, ?_⟩
  intro f hf
  obtain ⟨h, p, hcar, -⟩ := hall f hf
  exact ⟨h, p, hcar⟩

theorem length_cut {payload : Str} (hpos : 0 < payload.length) :
    (cut payload).length = (payload.length + 1479) / 1480 := by
  fun_induction cut payload with
  | case1 payload h =>
    simp only [mtu] at h
    rw [List.length_singleton]
    omega
  | case2 payload h ih =>
    simp only [mtu] at h
    have hrest : (payload.drop (nfb * 8)).length = payload.length - 1480 := List.length_drop
    rw [List.length_cons, ih (by omega), hrest]
    omega

section Frames

variable {port : Int} {d segment : Str} {fs : List Str} (h : FramesOf port d segment fs)

include h

theorem FramesOf.count : fs.length = frameCount d := by
  rw [h.fragmented.length_eq, length_cut (by rw [h.length]; omega), h.length]
  rfl

theorem FramesOf.sent : SentFrames port d fs :=
  ⟨segment, h.encoded, fun _ t => sendFragments_eq h.frames t⟩

theorem FramesOf.conUDP {s : Sim} (hs : s.port = port) :
    NetworkProf.conUDP d s = .ok fs.reverse s := by
  subst hs
  have hcon : conIpv4 conArgs segment = .ok fs.reverse := by
    rw [conIpv4, conFragments_eq h.frames, List.append_nil]
  rw [NetworkProf.conUDP, estate_bind_ok (estate_get s), raising_bind_ok h.encoded, hcon]
  rfl

end Frames

/-! ## The array -/

/-- What the packets do not depend on. -/
def Sim.settings (s : Sim) : Int × Option Str × Int × Int := (s.port, s.profData, s.times, s.runs)

section Array

variable {n : Nat} [NeZero n]

/-- The frames `fs` lie in the array of `n` cells from position `start` on, and
`curIdx` is the cell of position `pos`. -/
structure Sim.Loaded (s : Sim) (n : Nat) [NeZero n] (start pos : Nat) (fs : List Str) : Prop where
  len : s.len = n
  size : s.simPktArr.length = n
  index : s.curIdx = (Ring.slot n pos).val
  frames : Ring.Holds (Ring.ofList n s.simPktArr) start (fs.map some)

variable {s : Sim} {start pos : Nat} {done fs : List Str}

/-- The next value of the index. -/
theorem Sim.Loaded.next (h : s.Loaded n start pos fs) :
    (s.curIdx + 1) % s.len = (Ring.slot n (pos + 1)).val := by
  rw [h.len, h.index]
  exact Nat.mod_add_mod pos n 1

theorem Sim.Loaded.index_lt (h : s.Loaded n start pos fs) : s.curIdx < s.simPktArr.length := by
  rw [h.index, h.size]
  exact (Ring.slot n pos).isLt

/-- One turn of `addSimPkts`. -/
theorem Sim.Loaded.write (h : s.Loaded n start (start + done.length) done)
    (hroom : done.length < n) (f : Str) :
    Sim.Loaded { s with simPktArr := s.simPktArr.set s.curIdx f,
                        curIdx := (s.curIdx + 1) % s.len }
      n start (start + (done ++ [f]).length) (done ++ [f]) where
  len := h.len
  size := by rw [List.length_set, h.size]
  index := by
    rw [List.length_append, List.length_singleton, ← Nat.add_assoc]
    exact h.next
  frames := by
    have hpush := h.frames.push (by rwa [List.length_map]) (some f)
    rw [List.length_map, ← Ring.ofList_set h.size, ← h.index] at hpush
    rw [List.map_append]
    exact hpush

theorem addSimPkts_loaded (h : s.Loaded n start (start + done.length) done) (rest : List Str)
    (hroom : done.length + rest.length ≤ n) :
    ∃ t, addSimPkts rest s = .ok () t ∧ t.settings = s.settings ∧
      t.Loaded n start (start + (done ++ rest).length) (done ++ rest) := by
  induction rest generalizing s done with
  | nil =>
    rw [List.append_nil]
    exact ⟨s, rfl, rfl, h⟩
  | cons f rest ih =>
    -- one more frame is `done`, and the index is behind it
    rw [List.length_cons] at hroom
    have hwrite := h.write (by omega) f
    obtain ⟨t, ht, hset, hload⟩ := ih hwrite (by
      rw [List.length_append, List.length_singleton]
      omega)
    rw [List.append_assoc, List.singleton_append] at hload
    refine ⟨t, ?_, hset, hload⟩
    rw [addSimPkts, estate_bind_ok (estate_get s)]
    simp only [if_pos h.index_lt]
    exact ht

/-- The array is filled from the old index on, and the index comes round to it. -/
theorem constructSim_loaded (hlen : fs.length = n) (hidx : s.curIdx < n) :
    ∃ t, constructSim fs s = .ok () t ∧ t.settings = s.settings ∧
      t.Loaded n s.curIdx s.curIdx fs := by
  have hempty : Sim.Loaded { s with len := fs.length, simPktArr := List.replicate fs.length [] }
      n s.curIdx (s.curIdx + ([] : List Str).length) [] :=
    { len := hlen
      size := by rw [List.length_replicate, hlen]
      index := (Nat.mod_eq_of_lt hidx).symm
      frames := Ring.holds_nil }
  obtain ⟨t, ht, hset, hload⟩ := addSimPkts_loaded hempty fs (by
    rw [List.length_nil, Nat.zero_add, hlen])
  rw [List.nil_append, hlen] at hload
  exact ⟨t, ht, hset, { hload with index := by rw [hload.index, Ring.slot_self] }⟩

/-- An index behind the end of the new array is refused at once. -/
theorem constructSim_subscript (hne : fs ≠ []) (hidx : fs.length ≤ s.curIdx) :
    ∃ t, constructSim fs s = .error .subscript t := by
  obtain ⟨f, rest, rfl⟩ := List.exists_cons_of_ne_nil hne
  have hbehind : ¬ s.curIdx < (List.replicate (f :: rest).length ([] : Str)).length := by
    rw [List.length_replicate]
    exact Nat.not_lt.mpr hidx
  refine ⟨{ s with len := (f :: rest).length,
                   simPktArr := List.replicate (f :: rest).length [] }, ?_⟩
  rw [constructSim, estate_bind_ok (estate_modify s _), addSimPkts, estate_bind_ok (estate_get _)]
  simp only [if_neg hbehind]
  rfl

/-- `receive` goes round the full array. -/
theorem receive_loaded {k : Nat} (h : s.Loaded n start (start + k) fs) (hlen : fs.length = n) :
    ∃ f t, receive s = .ok f t ∧ t.settings = s.settings ∧ fs[k % n]? = some f ∧
      t.Loaded n start (start + (k + 1)) fs := by
  have hcell := h.frames.cyclic (by rwa [List.length_map]) k
  rw [List.getElem?_map, Ring.ofList, ← h.index, Option.map_eq_some_iff] at hcell
  obtain ⟨f, hf, hcell⟩ := hcell
  refine ⟨f, { s with curIdx := (s.curIdx + 1) % s.len }, ?_, rfl, hf,
    { h with index := h.next }⟩
  rw [receive, estate_bind_ok (estate_get s)]
  simp only [← hcell]
  rfl

theorem nthReceive_loaded {j : Nat} (h : s.Loaded n start (start + j) fs) (hlen : fs.length = n)
    (k : Nat) : ∃ f t, nthReceive k s = .ok f t ∧ fs[(j + k) % n]? = some f := by
  induction k generalizing s j with
  | zero =>
    obtain ⟨f, t, ht, -, hf, -⟩ := receive_loaded h hlen
    exact ⟨f, t, ht, hf⟩
  | succ k ih =>
    obtain ⟨f, t, ht, -, -, hload⟩ := receive_loaded h hlen
    obtain ⟨g, u, hu, hg⟩ := ih hload
    refine ⟨g, u, ?_, ?_⟩
    · rw [nthReceive, estate_bind_ok ht]
      exact hu
    · rw [← hg, Nat.add_assoc, Nat.add_comm 1]

end Array

/-! ## Histories keep the port -/

/-- `conUDP` only fails or returns. -/
theorem conUDP_raising (payload : Str) (s : Sim) :
    ∃ x, conUDP payload s = raising x s := by
  rw [conUDP, estate_bind_ok (estate_get s)]
  cases hseg : conSegment s.port payload with
  | error e => exact ⟨.error e, rfl⟩
  | ok segment => exact ⟨conIpv4 conArgs segment, rfl⟩

theorem addSimPkts_port (l : List Str) (s : Sim) : (after (addSimPkts l s)).port = s.port := by
  induction l generalizing s with
  | nil => rfl
  | cons f l ih =>
    rw [addSimPkts, estate_bind_ok (estate_get s)]
    by_cases hidx : s.curIdx < s.simPktArr.length
    · simp only [if_pos hidx]
      exact ih _
    · simp only [if_neg hidx]
      rfl

theorem construct_port (payload : Str) (s : Sim) :
    (after ((conUDP payload >>= fun l => constructSim l.reverse) s)).port = s.port := by
  obtain ⟨x, hx⟩ := conUDP_raising payload s
  rw [estate_bind, hx]
  cases x with
  | error e => rfl
  | ok l => exact addSimPkts_port l.reverse _

theorem generateProfData_port (s : Sim) : (after (generateProfData s)).port = s.port := by
  rw [generateProfData, estate_bind_ok (estate_get s)]
  cases s.profData with
  | some d => exact construct_port d s
  | none => exact construct_port [] _

/-- `receive` changes the index, if anything. -/
theorem receive_cases (s : Sim) :
    (∃ f i, receive s = .ok f { s with curIdx := i }) ∨ receive s = .error .subscript s := by
  rw [receive, estate_bind_ok (estate_get s)]
  cases s.simPktArr[s.curIdx]? with
  | some el => exact .inl ⟨el, _, rfl⟩
  | none => exact .inr rfl

theorem receive_port (s : Sim) : (after (receive s)).port = s.port := by
  rcases receive_cases s with ⟨f, i, h⟩ | h
  · rw [h, after]
  · rw [h, after]

theorem call_port (s : Sim) (c : Call) : (s.call c).port = s.port := by
  cases c with
  | setProfData d => rfl
  | generateProfData => exact generateProfData_port s
  | receive => exact receive_port s

theorem calls_port (s : Sim) (history : List Call) : (s.calls history).port = s.port := by
  induction history generalizing s with
  | nil => rfl
  | cons c history ih => exact (ih _).trans (call_port s c)

/-! ## Simulated and real traffic -/

section Traffic

variable {s : Sim} {d segment : Str} {fs : List Str}

theorem generateProfData_eq (h : FramesOf s.port d segment fs) (hd : s.profData = some d) :
    generateProfData s = constructSim fs s := by
  rw [generateProfData, estate_bind_ok (estate_get s), hd]
  simp only
  rw [estate_bind_ok (h.conUDP rfl), List.reverse_reverse]

theorem frameCount_pos (d : Str) : 0 < frameCount d := by
  rw [frameCount]
  omega

instance (d : Str) : NeZero (frameCount d) := ⟨(frameCount_pos d).ne'⟩

/-- With the index inside the new array, generating succeeds and leaves the frames
from the index on. -/
theorem generateProfData_loaded (h : FramesOf s.port d segment fs) (hd : s.profData = some d)
    (hidx : s.curIdx < frameCount d) :
    ∃ t, generateProfData s = .ok () t ∧ t.settings = s.settings ∧
      t.Loaded (frameCount d) s.curIdx s.curIdx fs := by
  rw [generateProfData_eq h hd]
  exact constructSim_loaded h.count hidx

/-- With the index behind it, generating raises. -/
theorem generateProfData_subscript (h : FramesOf s.port d segment fs) (hd : s.profData = some d)
    (hidx : frameCount d ≤ s.curIdx) : ∃ t, generateProfData s = .error .subscript t := by
  rw [generateProfData_eq h hd]
  have hne : fs ≠ [] := by
    rw [← List.length_pos_iff, h.count]
    exact frameCount_pos d
  exact constructSim_subscript hne (by rwa [h.count])

/-- What generating from `d` has found to be right when it returns. -/
theorem generateProfData_accepted {t : Sim} (hd : s.profData = some d)
    (hgen : generateProfData s = .ok () t) :
    ∃ segment fs, FramesOf s.port d segment fs ∧ t.settings = s.settings ∧
      t.Loaded (frameCount d) s.curIdx s.curIdx fs := by
  have hseg : ∃ segment, conSegment s.port d = .ok segment := by
    cases henc : conSegment s.port d with
    | ok segment => exact ⟨segment, rfl⟩
    | error e =>
      have hcon : conUDP d s = .error e s := by
        rw [conUDP, estate_bind_ok (estate_get s), raising_bind_error henc]
      rw [generateProfData, estate_bind_ok (estate_get s), hd] at hgen
      simp only at hgen
      rw [estate_bind_error hcon] at hgen
      cases hgen
  obtain ⟨segment, henc⟩ := hseg
  obtain ⟨-, hport, hlen⟩ := UDP.encodable_of_encode henc
  obtain ⟨segment, fs, h⟩ := exists_framesOf hport (by omega : d.length ≤ 65527)
  refine ⟨segment, fs, h, ?_⟩
  -- the index is inside the array, since generating did not raise
  by_cases hidx : s.curIdx < frameCount d
  · obtain ⟨u, hu, hset, hload⟩ := generateProfData_loaded h hd hidx
    rw [hgen] at hu
    cases hu
    exact ⟨hset, hload⟩
  · obtain ⟨u, hu⟩ := generateProfData_subscript h hd (Nat.le_of_not_lt hidx)
    rw [hgen] at hu
    cases hu

theorem traffic_iff_index (hport : 0 ≤ s.port ∧ s.port ≤ 65535) (hd : d.length ≤ 65527) :
    s.Simulates d ↔ s.curIdx < frameCount d := by
  obtain ⟨segment, fs, h⟩ := exists_framesOf hport hd
  have hset : setProfData d s = .ok () { s with profData := some d } := rfl
  constructor
  · rintro ⟨fs', -, hall⟩
    by_contra hidx
    obtain ⟨t, ht⟩ := generateProfData_subscript (s := { s with profData := some d }) h rfl
      (Nat.le_of_not_lt hidx)
    obtain ⟨f, u, hu, -⟩ := hall 0
    rw [simulated, estate_bind_ok hset, estate_bind_error ht] at hu
    cases hu
  · intro hidx
    obtain ⟨t, ht, -, hload⟩ := generateProfData_loaded (s := { s with profData := some d })
      h rfl hidx
    refine ⟨fs, h.sent, ?_⟩
    intro k
    obtain ⟨f, u, hu, hf⟩ := nthReceive_loaded (j := 0) hload h.count k
    refine ⟨f, u, ?_, ?_⟩
    · rw [simulated, estate_bind_ok hset, estate_bind_ok ht]
      exact hu
    · rwa [Nat.zero_add, ← h.count] at hf

end Traffic

theorem index_receives {n start j : Nat} [NeZero n] {s : Sim} {fs : List Str}
    (h : s.Loaded n start (start + j) fs) (hlen : fs.length = n) (k : Nat) :
    (s.calls (List.replicate k .receive)).curIdx = (start + j + k) % n := by
  induction k generalizing s j with
  | zero => exact h.index
  | succ k ih =>
    obtain ⟨f, t, ht, -, -, hload⟩ := receive_loaded h hlen
    have hcall : s.call .receive = t := by rw [Sim.call, ht, after]
    rw [List.replicate_succ, Sim.calls, List.foldl_cons, hcall, ← Sim.calls, ih hload,
      ← Nat.add_assoc start, Nat.add_right_comm (start + j), Nat.add_assoc (start + j)]

/-- Where a data set and `k` packets of it leave the index. -/
theorem index_received {s : Sim} {d : Str} (hport : 0 ≤ s.port ∧ s.port ≤ 65535)
    (hd : d.length ≤ 65527) (hidx : s.curIdx < frameCount d) (k : Nat) :
    (s.calls (.setProfData d :: .generateProfData :: List.replicate k .receive)).curIdx =
      (s.curIdx + k) % frameCount d := by
  obtain ⟨segment, fs, h⟩ := exists_framesOf hport hd
  obtain ⟨t, ht, -, hload⟩ := generateProfData_loaded (s := { s with profData := some d })
    h rfl hidx
  have hcall : (s.call (.setProfData d)).call .generateProfData = t := by
    rw [Sim.call, Sim.call]
    exact congrArg after ht
  rw [Sim.calls, List.foldl_cons, List.foldl_cons, hcall, ← Sim.calls]
  exact index_receives (j := 0) hload h.count k

/-- **Simulated traffic**: after any history, the packets received for `d` are the
frames that `ipv4Send` sends for it, in order and over and over, if and only if the
index that the history left is below their number. -/
theorem simulates_iff (history : List Call) {d : Str} (hd : d.length ≤ 65527) :
    (Sim.init.calls history).Simulates d ↔
      (Sim.init.calls history).curIdx < (d.length + 1487) / 1480 := by
  have hport : (Sim.init.calls history).port = 8080 := calls_port _ history
  exact traffic_iff_index (by rw [hport]; omega) hd

/-- Two bytes of data at start-up. -/
theorem simulates_iff_start : (Sim.init.calls []).Simulates [104, 105] :=
  (simulates_iff [] (show [104, 105].length ≤ 65527 by simp)).mpr Nat.zero_lt_one

/-- Two frames, one of them received. -/
theorem index_two_frames {d : Str} (hd : d.length = 1473) :
    (Sim.init.calls [.setProfData d, .generateProfData, .receive]).curIdx = 1 := by
  have htwo : frameCount d = 2 := by rw [frameCount, hd]
  have hidx := index_received (s := Sim.init) (d := d) ⟨by decide, by decide⟩ (by omega)
    (frameCount_pos d) 1
  rwa [htwo] at hidx

/-- Then data for one frame. -/
theorem shorter_data_not_simulated :
    ¬ (Sim.init.calls [.setProfData (List.replicate 1473 0), .generateProfData,
      .receive]).Simulates [] := by
  have hport := calls_port Sim.init
    [.setProfData (List.replicate 1473 0), .generateProfData, .receive]
  rw [traffic_iff_index (by rw [hport]; exact ⟨by decide, by decide⟩) (Nat.zero_le _),
    index_two_frames List.length_replicate]
  exact Nat.lt_irrefl 1

end Unikernel.NetworkProf
