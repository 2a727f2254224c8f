import Unikernel.Ipv4

/-!
# networklib: the reassembly buffers

The two lists that `handleIPv4` keeps between frames
(`Libs/networklib/networklib.sml`, lines 17–84).

- `fragmentBuffer`: for each packet ID, the fragments received, newest first.
- `assemblingList`: for each packet ID, the byte array it was assembled in.

Both hold references (`fragment list ref`, `char array`), each of them in one
list entry only; assigning through one is updating the first entry with its
packet ID. Functions that assign and may fail are in `EStateM Exn`, so that
what was assigned before an exception stays assigned.

Neither list ever loses the entry it should: `List.drop (l, i)` removes the
`i` entries in *front* of the one that was found and keeps that one.
-/

namespace Unikernel.Network

open Sml

structure PacketID where
  ipaddr : List Int
  id : Int
  prot : IPv4.Protocol
  deriving DecidableEq, Repr

structure Fragment where
  data : Str
  offset : Int
  deriving DecidableEq, Repr

/-- A `char array`. -/
abbrev CharArray := List UInt8

structure Buffers where
  fragmentBuffer : List (PacketID × List Fragment)
  assemblingList : List (PacketID × CharArray)
  deriving DecidableEq, Repr

def Buffers.empty : Buffers := ⟨[], []⟩

def ipCmp : List Int → List Int → Bool
  | [], [] => true
  | hd1 :: tl1, hd2 :: tl2 => if hd1 = hd2 then ipCmp tl1 tl2 else false
  | _, _ => false

def pktIDCmp (pktID1 pktID2 : PacketID) : Bool :=
  ipCmp pktID1.ipaddr pktID2.ipaddr && decide (pktID1.id = pktID2.id) &&
    decide (pktID1.prot = pktID2.prot)

def initPktID (ipv4Hdr : IPv4.Header) : PacketID where
  ipaddr := ipv4Hdr.sourceAddr
  id := ipv4Hdr.identification
  prot := ipv4Hdr.protocol

/-- `Array.array (n, c)`. -/
def array (n : Int) (c : UInt8) : Except Exn CharArray :=
  if 0 ≤ n then .ok (List.replicate n.toNat c) else .error .size

/-- `Array.update (arr, i, c)`, on the array as state. -/
def arrayUpdate (i : Int) (c : UInt8) : EStateM Exn CharArray Unit := fun arr =>
  if 0 ≤ i ∧ i < arr.length then .ok () (arr.set i.toNat c) else .error .subscript arr

/-- The source walks an index `pli` over the payload; the argument here is what
is left of the payload from that index on. -/
def updatePacketArray : Int → Str → EStateM Exn CharArray Unit
  | _, [] => pure ()
  | arri, c :: payload => do
    arrayUpdate arri c
    updatePacketArray (arri + 1) payload

/-- `List.app` of the copying function over the stored fragments. -/
def copyFragments : List Fragment → EStateM Exn CharArray Unit
  | [] => pure ()
  | f :: l => do
    updatePacketArray (if f.offset = 0 then 0 else f.offset * 8) f.data
    copyFragments l

/-- Assign to the reference in the first entry for `pktID`. -/
def assign {β : Type} (pktID : PacketID) (v : β) : List (PacketID × β) → List (PacketID × β)
  | [] => []
  | e :: l => if pktIDCmp pktID e.1 then (e.1, v) :: l else e :: assign pktID v l

def initAssembling (ipv4Hdr : IPv4.Header) (payload : Str) : EStateM Exn Buffers Unit := do
  let pktID := initPktID ipv4Hdr
  let arr ← raising (array (ipv4Hdr.fragmentOffset * 8 + payload.length) 0)
  let s ← get
  match findi (fun e => pktIDCmp pktID e.1) s.fragmentBuffer with
  | some (i, (_, l)) =>
    match copyFragments l arr with
    | .ok _ arr =>
      set { s with fragmentBuffer := s.fragmentBuffer.drop i }
      modify fun s => { s with assemblingList := (pktID, arr) :: s.assemblingList }
    | .error e _ => throw e
  | none => modify fun s => { s with assemblingList := (pktID, arr) :: s.assemblingList }

def addFragment (ipv4Hdr : IPv4.Header) (payload : Str) : EStateM Exn Buffers Unit := do
  let pktID := initPktID ipv4Hdr
  let fragment : Fragment := { data := payload, offset := ipv4Hdr.fragmentOffset }
  let s ← get
  match s.fragmentBuffer.find? (fun e => pktIDCmp pktID e.1) with
  | some (_, l) =>
    set { s with fragmentBuffer := assign pktID (fragment :: l) s.fragmentBuffer }
  | none =>
    match s.assemblingList.find? (fun e => pktIDCmp pktID e.1) with
    | some (_, a) =>
      -- the array is updated in place, also by a copy that fails half way
      match updatePacketArray ipv4Hdr.fragmentOffset payload a with
      | .ok _ a' => set { s with assemblingList := assign pktID a' s.assemblingList }
      | .error e a' => do
        set { s with assemblingList := assign pktID a' s.assemblingList }
        throw e
    | none => set { s with fragmentBuffer := (pktID, [fragment]) :: s.fragmentBuffer }

def assemblePacket (ipv4Hdr : IPv4.Header) : EStateM Exn Buffers Str := do
  let pktID := initPktID ipv4Hdr
  let s ← get
  match findi (fun e => pktIDCmp pktID e.1) s.assemblingList with
  | some (i, (_, a)) => do
    set { s with assemblingList := s.assemblingList.drop i }
    return a
  | none => throw (.fail "Could not assemble packet.")

/-- The binding of `payloadOpt` in `handleIPv4`: what, if anything, is handed on
after this packet. -/
def payloadOpt (ipv4Hdr : IPv4.Header) (ipv4Pay : Str) : EStateM Exn Buffers (Option Str) :=
  if ipv4Hdr.fragmentOffset = 0 ∧ ipv4Hdr.flags = 2 then return some ipv4Pay
  else do
    addFragment ipv4Hdr ipv4Pay
    if ipv4Hdr.flags = 0 then do
      initAssembling ipv4Hdr ipv4Pay
      return some (← assemblePacket ipv4Hdr)
    else return none

/-- The IPv4 packet in an Ethernet frame. -/
def ipv4Packet (ethFrame : Str) : Except Exn (IPv4.Header × Str) :=
  extract ethFrame 14 >>= IPv4.decode

end Unikernel.Network
