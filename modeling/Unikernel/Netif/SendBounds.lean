import Unikernel.Netif.TunTap

/-!
# How much a send buffer takes

`Netif.send` takes a list of any length; both backends copy it into a buffer of
1518 bytes. On Unix the loop starts at index 4 and is guarded by `i <= MTU`, one
more than fits; on mini-OS (`Libs/netiflib/netif-miniOS.c`) it has no guard.

- `TunTap.send_bounded_iff`, `MiniOs.send_bounded_iff`: the lists that fit.
- `MiniOs.send_bytes`: a list of bytes that fits is handed over as it is.
-/

namespace Unikernel.Netif

open Sml CBuffer

namespace TunTap

/-- What `Send` stores to, and the length it passes on, for any list. -/
theorem send_accesses (l : List Int) :
    (send l).length = 4 + min 1515 l.length ∧
    (send l).buf.stored = span 4 (min 1515 l.length) ++ [2] ++ [3] := by
  have hlen : ((l.map toChar).take 1515).length = min 1515 l.length := by
    rw [List.length_take, List.length_map]
  have hfill : fill (fun i => decide (i ≤ mtu)) (l.map toChar) 4
      (Buf.fresh (List.replicate mtu 0)) = (4 + min 1515 l.length,
        (Buf.fresh (List.replicate mtu 0)).storeAll 4 ((l.map toChar).take 1515)) := by
    rw [← hlen]
    exact fill_le (l.map toChar) (show 4 ≤ mtu + 1 by rw [mtu]; omega)
  unfold send
  rw [hfill]
  refine ⟨rfl, ?_⟩
  show [] ++ span 4 ((l.map toChar).take 1515).length ++ [2] ++ [3] = _
  rw [hlen, List.nil_append]

/-- The guard lets one element too many through. -/
theorem send_bounded_iff (l : List Int) : (send l).Bounded mtu ↔ l.length ≤ 1514 := by
  obtain ⟨hlen, hstored⟩ := send_accesses l
  rw [Handed.Bounded, hlen, hstored, within_append, within_append, within_singleton,
    within_singleton, within_span, mtu]
  omega

end TunTap

namespace MiniOs

/-- The size of `toWrite_buf`. -/
def bufSize : Nat := 1518

/-- `Send`, up to its call of `netfront_xmit`. The buffer is not initialised. -/
def send (junk : Str) (byteList : List Int) : Handed :=
  let (i, buf) := fill (fun _ => true) (byteList.map toChar) 0 (Buf.fresh junk)
  { buf := buf, length := i }

theorem send_eq (junk : Str) (l : List Int) :
    send junk l = ⟨(Buf.fresh junk).storeAll 0 (l.map toChar), l.length⟩ := by
  rw [send, fill_all fun _ _ => rfl]
  simp only [List.length_map, Nat.zero_add]

theorem send_bounded_iff (junk : Str) (l : List Int) :
    (send junk l).Bounded bufSize ↔ l.length ≤ 1518 := by
  have hstored : (send junk l).buf.stored = span 0 l.length := by
    rw [send_eq]
    show [] ++ span 0 (l.map toChar).length = _
    rw [List.length_map, List.nil_append]
  rw [Handed.Bounded, hstored, send_eq, within_span, bufSize]
  simp only
  omega

/-- A list of bytes that fits is handed over as it is. -/
theorem send_bytes {junk f : Str} (hjunk : junk.length = bufSize) (hf : f.length ≤ bufSize) :
    (send junk (toByteList f)).bytes = f := by
  have hroom : 0 + f.length ≤ (Buf.fresh junk).cells.length := by
    show 0 + f.length ≤ junk.length
    omega
  have hall := take_storeAll hroom
  rw [Nat.zero_add, List.take_zero, List.nil_append] at hall
  rw [Handed.bytes, send_eq, map_toChar_toByteList, length_toByteList]
  exact hall

end MiniOs

/-- **Sending within the buffer**: both backends do, exactly for the lists of at most
1514 elements. -/
theorem sends_bounded_iff (junk : Str) (l : List Int) :
    ((TunTap.send l).Bounded TunTap.mtu ∧ (MiniOs.send junk l).Bounded MiniOs.bufSize) ↔
      l.length ≤ 1514 := by
  rw [TunTap.send_bounded_iff, MiniOs.send_bounded_iff]
  omega

/-- A list of 1515 elements is handed to `write` with 1519 bytes; one of 1519 is
copied past the end on mini-OS. -/
theorem long_list_outside :
    (TunTap.send (List.replicate 1515 0)).length = 1519 ∧
    (1518 : Int) ∈ (TunTap.send (List.replicate 1515 0)).buf.stored ∧
    ¬ (TunTap.send (List.replicate 1515 0)).Bounded TunTap.mtu ∧
    ¬ (MiniOs.send (List.replicate 1518 0) (List.replicate 1519 0)).Bounded MiniOs.bufSize := by
  have hlen (n : Nat) : (List.replicate n (0 : Int)).length = n := List.length_replicate
  obtain ⟨hhanded, hstored⟩ := TunTap.send_accesses (List.replicate 1515 0)
  rw [hlen 1515, Nat.min_self] at hhanded hstored
  rw [hhanded, hstored, TunTap.send_bounded_iff, MiniOs.send_bounded_iff, hlen 1515, hlen 1519]
  refine ⟨rfl, ?_, by omega, by omega⟩
  refine List.mem_append_left _ (List.mem_append_left _ (List.mem_map.mpr ⟨1518, ?_, rfl⟩))
  exact List.mem_range'_1.mpr (by omega)

end Unikernel.Netif
