import Unikernel.Eth
import Unikernel.Arp
import Unikernel.Udp
import Unikernel.Network.Reassembly

/-!
# networklib: sending, dispatch and the listen loop

The rest of `Libs/networklib/networklib.sml`. The state of the running stack is a
record: the reassembly buffers, the port bindings, the logging switch, and the
state `app` of the application, which its callbacks may change. Four traces
record what the stack does to the world and to itself, oldest first:

- `sent`: the byte lists handed to `Netif.send`;
- `printed`: the log;
- `called`: the callbacks run, by port and argument;
- `dispatched`: the packets `handleIPv4` passed on to its protocol dispatch.

`called` and `dispatched` are not in the source. They only grow, and nothing
reads them.
-/

namespace Unikernel.Network

open Sml

variable {σ : Type}

def mac : List Int := [123, 124, 125, 126, 127, 128]

def ipAddress : List Int := [10, 0, 0, 2]

def mtu : Nat := 1500

/-- A function bound to a port: it may raise, and it may use the application's state. -/
abbrev Callback (σ : Type) := Str → EStateM Exn σ Str

structure Stack (σ : Type) where
  buffers : Buffers
  listenOn : List (Int × Callback σ)
  log : Bool
  app : σ
  sent : List (List Int)
  printed : List String
  called : List (Int × Str)
  dispatched : List (IPv4.Header × Str)

/-- Stack code: it reads and writes the state, and may raise. -/
abbrev Net (σ : Type) := EStateM Exn (Stack σ)

/-- The stack at start-up. -/
def Stack.init (app : σ) : Stack σ where
  buffers := .empty
  listenOn := []
  log := false
  app := app
  sent := []
  printed := []
  called := []
  dispatched := []

def logPrint (str : String) : Net σ Unit :=
  modify fun s => if s.log then { s with printed := s.printed ++ [str] } else s

def logOn : Net σ Unit := modify fun s => { s with log := true }

def logOff : Net σ Unit := modify fun s => { s with log := false }

def bindUDP (port : Int) (cbf : Callback σ) : Net σ Unit :=
  modify fun s => { s with listenOn := (port, cbf) :: s.listenOn }

/-- `Netif.send`. -/
def netifSend (bytes : List Int) : Net σ Unit :=
  modify fun s => { s with sent := s.sent ++ [bytes] }

/-- Code that works on the reassembly buffers only. -/
def onBuffers {α : Type} (x : EStateM Exn Buffers α) : Net σ α := fun s =>
  match x s.buffers with
  | .ok a b => .ok a { s with buffers := b }
  | .error e b => .error e { s with buffers := b }

/-- Apply the callback of a port to what was received. -/
def callback (port : Int) (cb : Callback σ) (udpPayload : Str) : Net σ Str := fun s =>
  match cb udpPayload s.app with
  | .ok r app => .ok r { s with app := app, called := s.called ++ [(port, udpPayload)] }
  | .error e app => .error e { s with app := app, called := s.called ++ [(port, udpPayload)] }

def ethSend (et : Eth.EthType) (dstMac : List Int) (payload : Str) : Net σ Unit := do
  let ethHeader ← raising (Eth.encode { et := et, dstMac := dstMac, srcMac := mac } payload)
  netifSend (toByteList ethHeader)

/-- The argument record of `ipv4Send`. -/
structure SendArgs where
  identification : Int
  protocol : IPv4.Protocol
  destAddr : List Int
  dstMac : List Int

/-- The header both branches of `sendFragments` build, up to what differs: the
total length, the flags and the offset. -/
def fragmentHeader (args : SendArgs) (totalLength flags offset : Int) : IPv4.Header where
  version := 4
  ihl := 5
  dscp := 0
  ecn := 0
  totalLength := totalLength
  identification := args.identification
  flags := flags
  fragmentOffset := offset
  timeToLive := 128
  protocol := args.protocol
  headerChecksum := 0
  sourceAddr := ipAddress
  destAddr := args.destAddr

/-- The number of 8-byte blocks in a full fragment. -/
def nfb : Nat := (mtu - 20) / 8

/-- The recursion of `ipv4Send`. In its second branch the payload has more than
`nfb * 8` bytes, so `String.substring` and `String.extract` do not raise. -/
def sendFragments (args : SendArgs) (offset : Int) (payload : Str) : Net σ Unit :=
  if payload.length + 20 ≤ mtu then do
    let packet ← raising (IPv4.encode
      (fragmentHeader args (20 + payload.length) 0 offset) payload)
    ethSend .ipv4 args.dstMac packet
  else do
    let packet ← raising (IPv4.encode
      (fragmentHeader args (20 + nfb * 8) 1 offset) (payload.take (nfb * 8)))
    ethSend .ipv4 args.dstMac packet
    sendFragments args (offset + nfb) (payload.drop (nfb * 8))
termination_by payload.length
decreasing_by
  simp only [List.length_drop, nfb, mtu] at *
  omega

def ipv4Send (args : SendArgs) (payload : Str) : Net σ Unit :=
  sendFragments args 0 payload

def handleArp (ethHeader : Eth.Header) (ethFrame : Str) : Net σ Unit :=
  match extract ethFrame 14 >>= ARP.decode with
  | .ok arpHeader => do
    logPrint (ARP.toString arpHeader)
    let packet ← raising (ARP.encode {
      htype := 1
      ptype := 0x0800
      hlen := 6
      plen := 4
      oper := .reply
      sha := mac
      spa := ipAddress
      tha := arpHeader.sha
      tpa := arpHeader.spa ++ [0, 0] })
    ethSend .arp ethHeader.dstMac packet
  | .error _ => logPrint "Arp packet could not be decoded.\n"

/-- The reply to a datagram for a port that nothing is bound to. -/
def notMapped : Str := lit "Port is not mapped to a function."

def handleUDP (dstMac : List Int) (ipv4Header : IPv4.Header) (payload : Str) : Net σ Unit := do
  let (udpHeader, udpPayload) ← raising (UDP.decode payload)
  let s ← get
  let found := s.listenOn.find? fun e => decide (udpHeader.destPort = e.1)
  logPrint (UDP.toString udpHeader)
  match found with
  | some (port, cb) =>
    let payload ← callback port cb udpPayload
    let segment ← raising (UDP.encode {
      length := 0
      sourcePort := udpHeader.destPort
      destPort := udpHeader.sourcePort
      checksum := 0 } payload)
    ipv4Send { identification := ipv4Header.identification, dstMac := dstMac,
               protocol := .udp, destAddr := ipv4Header.sourceAddr } segment
  | none =>
    let segment ← raising (UDP.encode {
      length := 8 + payload.length
      sourcePort := udpHeader.destPort
      destPort := udpHeader.sourcePort
      checksum := 0 } notMapped)
    ipv4Send { identification := ipv4Header.identification, dstMac := dstMac,
               protocol := .udp, destAddr := ipv4Header.sourceAddr } segment

/-- The `case` over the protocol in `handleIPv4`. -/
def dispatch (dstMac : List Int) (ipv4Header : IPv4.Header) (payload : Str) : Net σ Unit := do
  modify fun s => { s with dispatched := s.dispatched ++ [(ipv4Header, payload)] }
  match ipv4Header.protocol with
  | .udp => handleUDP dstMac ipv4Header payload
  | _ => logPrint "IPv4 Handler: Protocol is not supported.\n"

def handleIPv4 (ethHeader : Eth.Header) (ethFrame : Str) : Net σ Unit := do
  let (ipv4Header, ipv4Pay) ← raising (ipv4Packet ethFrame)
  let payloadOpt ← onBuffers (payloadOpt ipv4Header ipv4Pay)
  logPrint (IPv4.toString ipv4Header)
  match payloadOpt with
  | some payload => dispatch ethHeader.dstMac ipv4Header payload
  | none => pure ()

/-- One round of `listen`, up to its `handle`. -/
def listenBody (rawTap : Str) : Net σ Unit := do
  let ethFrame ← raising (extract rawTap 0)
  let (ethHeader, _) ← raising (Eth.decode ethFrame)
  logPrint ("\n==== FROM: " ++ rawBytesString ethHeader.srcMac ++ " ====\n")
  logPrint (Eth.toString ethHeader)
  match ethHeader.et with
  | .arp => handleArp ethHeader ethFrame
  | .ipv4 => handleIPv4 ethHeader ethFrame
  | .ipv6 => logPrint "\nlisten: Protocol not supported.\n"
  logPrint ("\n==== END: " ++ rawBytesString ethHeader.srcMac ++ " ====\n")

/-- Run `x` as `listen` runs a handler: an exception is logged and swallowed,
what was assigned before it stays. -/
def swallowing (x : Net σ Unit) (s : Stack σ) : Stack σ :=
  match x s with
  | .ok _ s' => s'
  | .error _ s' => after (logPrint "Encountered an error in handling!\n" s')

/-- `listen` on the frames that `Netif.receive` returns. -/
def listen (s : Stack σ) : List Str → Stack σ
  | [] => s
  | rawTap :: rest => listen (swallowing (listenBody rawTap) s) rest

/-- A received frame with its decoded Ethernet header, as `handleIPv4` takes them. -/
abbrev Frame := Eth.Header × Str

/-- `handleIPv4` on one frame after the other, as `listen` calls it. -/
def handleAll (s : Stack σ) : List Frame → Stack σ
  | [] => s
  | f :: rest => handleAll (swallowing (handleIPv4 f.1 f.2) s) rest

end Unikernel.Network
