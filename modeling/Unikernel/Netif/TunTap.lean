import Unikernel.Lib.CBuffer
import Unikernel.Sml.Basis
import Unikernel.Utils

/-!
# netiflib on Unix: frames through a tap device

`Receive` and `Send` of `Libs/netiflib/netif-tuntap.c`. The device is opened
without `IFF_NO_PI`, so that each frame comes, and has to go, behind four bytes of
packet information: two of flags and the frame's type. Both functions work in a
buffer of `MTU` bytes on the stack.

- `send_bytes`: what `Send` hands to `write`. The type is not copied from where it
  stands in the buffer.
- `receive_eq`: the string `Receive` returns, and the indices it uses. The byte put
  behind the frame falls outside the buffer if the frame has the full length.
-/

namespace Unikernel.Netif

open Sml CBuffer

/-- `convertIntToC`, assigned to a `char`. -/
def toChar (i : Int) : UInt8 := UInt8.ofNat (i % 256).toNat

/-- A buffer with the length that is handed to the driver. -/
structure Handed where
  buf : Buf UInt8
  length : Nat

/-- The bytes the driver sends. -/
def Handed.bytes (h : Handed) : Str := h.buf.cells.take h.length

/-- Nothing was stored outside the buffer, nor is anything outside it handed over. -/
def Handed.Bounded (size : Nat) (h : Handed) : Prop :=
  Within size h.buf.stored ∧ h.length ≤ size

@[simp] theorem toChar_ord (c : UInt8) : toChar (ord c) = c := by
  have hc := c.toNat_lt
  rw [toChar, ord, Int.emod_eq_of_lt (by omega) (by omega), Int.toNat_natCast]
  exact UInt8.ofNat_toNat

theorem map_toChar_toByteList (f : Str) : (toByteList f).map toChar = f := by
  rw [toByteList, List.map_map]
  exact (List.map_congr_left fun c _ => toChar_ord c).trans (List.map_id f)

namespace TunTap

/-- `MTU`. -/
def mtu : Nat := 1518

/-- `Send`, up to its call of `write`. -/
def send (byteList : List Int) : Handed :=
  -- the guard lets the index `MTU` through
  let (i, buf) := fill (fun i => decide (i ≤ mtu)) (byteList.map toChar) 4
    (Buf.fresh (List.replicate mtu 0))
  -- copying ethtype bytes to start of buffer
  let (b, buf) := buf.load 13
  let buf := buf.store 2 b
  let (b, buf) := buf.load 14
  let buf := buf.store 3 b
  { buf := buf, length := i }

/-- `read(tapfd, buf, MTU)`: the next packet of the device, cut off behind `MTU`
bytes, or an error. -/
def read (buf : Buf UInt8) : Option Str → Int × Buf UInt8
  | some packet => ((packet.take mtu).length, buf.storeAll 0 (packet.take mtu))
  | none => (-1, buf)

/-- The loop runs while `len > 0`. -/
def toMLString (buf : Buf UInt8) (cStr : Nat) (len : Int) : Str × Buf UInt8 :=
  drain buf cStr len.toNat

/-- `Receive`, once the device is open. -/
def receive (buf : Buf UInt8) (next : Option Str) : Str × Buf UInt8 :=
  let (bytesRead, buf) := read buf next
  -- null-terminate the buffer
  let buf := buf.store bytesRead 0
  toMLString buf 4 (bytesRead - 4)

/-! ## Sending -/

/-- What is put in front: two cells are loaded and stored, the rest stays. -/
theorem send_of_fill {f : Str} {buf : Buf UInt8} {a b : UInt8}
    (hfill : fill (fun i => decide (i ≤ mtu)) f 4 (Buf.fresh (List.replicate mtu 0)) =
      (4 + f.length, buf))
    (hfront : buf.cells.take (4 + f.length) = [0, 0, 0, 0] ++ f)
    (h13 : buf.cells[13]? = some a) (h14 : buf.cells[14]? = some b) :
    (send (toByteList f)).length = f.length + 4 ∧
      (send (toByteList f)).bytes = [0, 0, a, b] ++ f := by
  have h14' : (buf.cells.set 2 a)[14]? = some b := by
    rw [List.getElem?_set_ne (by omega), h14]
  have hsend : send (toByteList f) =
      ⟨⟨(buf.cells.set 2 a).set 3 b, buf.stored ++ [2] ++ [3], buf.loaded ++ [13] ++ [14]⟩,
        4 + f.length⟩ := by
    unfold send
    rw [map_toChar_toByteList, hfill]
    simp [Buf.load, Buf.store, h13, h14']
  rw [hsend]
  refine ⟨Nat.add_comm _ _, ?_⟩
  show ((buf.cells.set 2 a).set 3 b).take (4 + f.length) = _
  rw [List.take_set, List.take_set, hfront]
  rfl

/-- What `Send` does with a frame that fits: cells 13 and 14 hold the bytes 9 and 10
of the frame. -/
theorem send_bytes {f : Str} (h : 14 ≤ f.length) (h' : f.length ≤ 1514) :
    (send (toByteList f)).length = f.length + 4 ∧
    (send (toByteList f)).bytes = [0, 0] ++ (f.drop 9).take 2 ++ f := by
  have hfill : fill (fun i => decide (i ≤ mtu)) f 4 (Buf.fresh (List.replicate mtu 0)) =
      (4 + f.length, (Buf.fresh (List.replicate mtu 0)).storeAll 4 f) := by
    refine fill_all fun k hk => decide_eq_true ?_
    show k ≤ 1518
    omega
  have hroom : 4 + f.length ≤ (Buf.fresh (List.replicate mtu (0 : UInt8))).cells.length := by
    show 4 + f.length ≤ (List.replicate mtu (0 : UInt8)).length
    rw [List.length_replicate, mtu]
    omega
  have hfront : ((Buf.fresh (List.replicate mtu 0)).storeAll 4 f).cells.take (4 + f.length) =
      [0, 0, 0, 0] ++ f := take_storeAll hroom
  generalize (Buf.fresh (List.replicate mtu 0)).storeAll 4 f = buf at hfill hfront
  have hload (k : Nat) (hk : k < f.length) : buf.cells[4 + k]? = some f[k] := by
    have htake : (buf.cells.take (4 + f.length))[4 + k]? = ([0, 0, 0, 0] ++ f)[4 + k]? := by
      rw [hfront]
    rw [List.getElem?_take, if_pos (by omega), List.getElem?_append_right (by simp)] at htake
    rw [htake, ← List.getElem?_eq_getElem hk]
    simp
  obtain ⟨hlen, hbytes⟩ := send_of_fill hfill hfront (hload 9 (by omega)) (hload 10 (by omega))
  refine ⟨hlen, ?_⟩
  rw [hbytes, List.drop_eq_getElem_cons (show 9 < f.length by omega),
    List.drop_eq_getElem_cons (show 10 < f.length by omega)]
  rfl

/-- The framing of a sent frame: no flags, the frame's type, and the frame. -/
def Framed (f : Str) : Prop :=
  (send (toByteList f)).length = f.length + 4 ∧
  (send (toByteList f)).bytes = [0, 0] ++ (f.drop 12).take 2 ++ f

/-- **Framing**: `Send` frames exactly the frames in which the two bytes that it takes,
in the middle of the source address, are those of the type. -/
theorem framed_iff {f : Str} (h : 14 ≤ f.length) (h' : f.length ≤ 1514) :
    Framed f ↔ (f.drop 9).take 2 = (f.drop 12).take 2 := by
  obtain ⟨hlen, hbytes⟩ := send_bytes h h'
  rw [Framed, hbytes, List.append_left_inj, List.append_right_inj]
  exact and_iff_right hlen

/-- An ARP frame without payload from `7b:7c:7d:7e:7f:80`. -/
def arpFrame : Str := [255, 255, 255, 255, 255, 255, 123, 124, 125, 126, 127, 128, 8, 6]

theorem framed_iff_arpFrame :
    Framed arpFrame ↔ (arpFrame.drop 9).take 2 = (arpFrame.drop 12).take 2 :=
  framed_iff (by decide) (by decide)

/-- The type announced for it is `7e7f`. -/
theorem arpFrame_not_framed :
    (send (toByteList arpFrame)).bytes = [0, 0, 126, 127] ++ arpFrame ∧ ¬ Framed arpFrame := by
  obtain ⟨-, hbytes⟩ := send_bytes (f := arpFrame) (by decide) (by decide)
  refine ⟨hbytes, ?_⟩
  rintro ⟨-, hframed⟩
  rw [hbytes] at hframed
  exact absurd hframed (by decide)

/-! ## Receiving -/

/-- Once the packet is read, its terminator is stored and the rest copied. -/
theorem receive_of_read {b buf : Buf UInt8} {next : Option Str} {n : Nat}
    (hread : read b next = (((4 + n : Nat) : Int), buf)) :
    receive b next = drain (buf.store ((4 + n : Nat) : Int) 0) 4 n := by
  have hback : ((4 + n : Nat) : Int) - 4 = n := by omega
  unfold receive toMLString
  rw [hread]
  simp only
  rw [hback, Int.toNat_natCast]

section Receive

variable {pi f cells : Str} (hpi : pi.length = 4) (hf : f.length ≤ 1514)
include hpi hf

theorem read_packet : read (Buf.fresh cells) (some (pi ++ f)) =
    (((4 + f.length : Nat) : Int), (Buf.fresh cells).storeAll 0 (pi ++ f)) := by
  have hlen : (pi ++ f).length = 4 + f.length := by rw [List.length_append, hpi]
  have htake : (pi ++ f).take mtu = pi ++ f :=
    List.take_of_length_le (by rw [hlen, mtu]; omega)
  rw [← hlen]
  simp only [read, htake]

theorem cells_read (hcells : cells.length = mtu) :
    ((Buf.fresh cells).storeAll 0 (pi ++ f)).cells.take (4 + f.length) = pi ++ f := by
  have hlen : (pi ++ f).length = 4 + f.length := by rw [List.length_append, hpi]
  have hroom : 0 + (pi ++ f).length ≤ (Buf.fresh cells).cells.length := by
    show 0 + (pi ++ f).length ≤ cells.length
    rw [hlen, hcells, mtu]
    omega
  have hall := take_storeAll hroom
  rwa [Nat.zero_add, hlen, List.take_zero, List.nil_append] at hall

/-- What `Receive` returns for a frame behind its packet information, and the indices
that it stores to and loads from. -/
theorem receive_eq (hcells : cells.length = mtu) :
    (receive (Buf.fresh cells) (some (pi ++ f))).1 = f ∧
    (receive (Buf.fresh cells) (some (pi ++ f))).2.stored =
      span 0 (4 + f.length) ++ [((4 + f.length : Nat) : Int)] ∧
    (receive (Buf.fresh cells) (some (pi ++ f))).2.loaded = span 4 f.length := by
  have hfront := cells_read hpi hf hcells
  rw [receive_of_read (read_packet hpi hf), store_natCast]
  have hroom : 4 + f.length ≤
      (((Buf.fresh cells).storeAll 0 (pi ++ f)).cells.set (4 + f.length) 0).length := by
    rw [List.length_set, length_cells_storeAll]
    show 4 + f.length ≤ cells.length
    rw [hcells, mtu]
    omega
  rw [drain_eq hroom]
  refine ⟨?_, ?_, rfl⟩
  · -- the terminator stands behind what is copied
    have hbehind : (pi ++ f).length ≤ 4 + f.length := by rw [List.length_append, hpi]
    show ((((Buf.fresh cells).storeAll 0 (pi ++ f)).cells.set (4 + f.length) 0).drop 4).take
      f.length = f
    rw [List.take_drop, List.take_set, hfront, List.set_eq_of_length_le hbehind,
      List.drop_left' hpi]
  · show [] ++ span 0 (pi ++ f).length ++ _ = _
    rw [List.length_append, hpi, List.nil_append]

end Receive

/-- `Receive` on a packet: all its indices name cells, and it returns the frame. -/
def ReceivesExactly (cells pi f : Str) : Prop :=
  Within mtu ((receive (Buf.fresh cells) (some (pi ++ f))).2.stored ++
    (receive (Buf.fresh cells) (some (pi ++ f))).2.loaded) ∧
  (receive (Buf.fresh cells) (some (pi ++ f))).1 = f

/-- **Receiving**: whatever the buffer held before, a frame that `ipv4Send` may have
made is received within the buffer unless it has the full length. -/
theorem receivesExactly_iff {cells pi f : Str} (hcells : cells.length = mtu)
    (hpi : pi.length = 4) (hf : f.length ≤ 1514) :
    ReceivesExactly cells pi f ↔ f.length ≤ 1513 := by
  obtain ⟨hstr, hstored, hloaded⟩ := receive_eq hpi hf hcells
  rw [ReceivesExactly, hstored, hloaded, within_append, within_append, within_singleton,
    within_span, within_span, and_iff_left hstr, mtu]
  omega

theorem receivesExactly_iff_short :
    ReceivesExactly (List.replicate mtu 0) [0, 0, 8, 6] arpFrame ↔ arpFrame.length ≤ 1513 :=
  receivesExactly_iff List.length_replicate rfl (by decide)

/-- A frame of the full length is returned, and the byte behind it stored outside. -/
theorem full_frame {cells pi f : Str} (hcells : cells.length = mtu) (hpi : pi.length = 4)
    (hf : f.length = 1514) :
    (receive (Buf.fresh cells) (some (pi ++ f))).1 = f ∧
      (1518 : Int) ∈ (receive (Buf.fresh cells) (some (pi ++ f))).2.stored := by
  obtain ⟨hstr, hstored, -⟩ := receive_eq hpi (Nat.le_of_eq hf) hcells
  refine ⟨hstr, ?_⟩
  rw [hstored, hf]
  exact List.mem_append_right _ (List.mem_singleton_self _)

theorem full_frame_outside :
    (1518 : Int) ∈ (receive (Buf.fresh (List.replicate mtu 0))
        (some ([0, 0, 8, 0] ++ List.replicate 1514 0))).2.stored ∧
      ¬ ReceivesExactly (List.replicate mtu 0) [0, 0, 8, 0] (List.replicate 1514 0) := by
  have hlen : (List.replicate 1514 (0 : UInt8)).length = 1514 := List.length_replicate
  have hcells : (List.replicate mtu (0 : UInt8)).length = mtu := List.length_replicate
  generalize List.replicate 1514 (0 : UInt8) = f at hlen
  generalize List.replicate mtu (0 : UInt8) = cells at hcells
  have hpi : [(0 : UInt8), 0, 8, 0].length = 4 := rfl
  obtain ⟨-, hmem⟩ := full_frame hcells hpi hlen
  refine ⟨hmem, ?_⟩
  rintro ⟨hwithin, -⟩
  have hin := (hwithin 1518 (List.mem_append_left _ hmem)).2
  rw [mtu] at hin
  omega

end TunTap

end Unikernel.Netif
