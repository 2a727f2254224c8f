import Unikernel.Lib.Keyed
import Unikernel.Lib.Overlay
import Unikernel.Network.Reassembly

/-!
# What each buffer operation does

One lemma per outcome of `updatePacketArray`, `copyFragments`, `addFragment`,
`initAssembling` and `assemblePacket`, in the terms of the libraries: byte
arrays are overlaid with patches, the two lists are association lists. All
later results go through `payloadOpt_outcome`, which says once what a packet can
do to the buffers.
-/

namespace Unikernel.Network

open Sml Overlay Keyed

/-! ## Comparing and finding -/

/-- The comparison of addresses is equality. -/
theorem ipCmp_iff : ∀ {l m : List Int}, ipCmp l m = true ↔ l = m
  | [], [] => by simp [ipCmp]
  | [], _ :: _ => by simp [ipCmp]
  | _ :: _, [] => by simp [ipCmp]
  | a :: l, b :: m => by
    rw [ipCmp]
    by_cases h : a = b
    · rw [if_pos h, ipCmp_iff, h, List.cons.injEq]
      simp
    · rw [if_neg h, List.cons.injEq]
      simp [h]

/-- `pktIDCmp` is equality of packet IDs. -/
@[simp] theorem pktIDCmp_eq (X Y : PacketID) : pktIDCmp X Y = decide (X = Y) := by
  rw [Bool.eq_iff_iff, pktIDCmp, Bool.and_eq_true, Bool.and_eq_true, ipCmp_iff,
    decide_eq_true_iff, decide_eq_true_iff, decide_eq_true_iff]
  cases X
  cases Y
  simp [and_assoc]

/-- The search of the code is a lookup, -/
theorem find?_map_snd {β : Type} (X : PacketID) (l : List (PacketID × β)) :
    (l.find? fun e => pktIDCmp X e.1).map Prod.snd = l.lookup X := by
  induction l with
  | nil => rfl
  | cons e l ih =>
    obtain ⟨Y, v⟩ := e
    rw [lookup_cons_eq, List.find?_cons]
    by_cases h : X = Y
    · simp [h]
    · simpa [h] using ih

/-- Finding an entry is looking its packet ID up. -/
theorem find?_eq_some {β : Type} {X : PacketID} {l : List (PacketID × β)} {v : β}
    (h : l.lookup X = some v) : l.find? (fun e => pktIDCmp X e.1) = some (X, v) := by
  rw [← find?_map_snd, Option.map_eq_some_iff] at h
  obtain ⟨⟨Y, w⟩, hfind, rfl⟩ := h
  have hX := List.find?_some hfind
  simp only [pktIDCmp_eq, decide_eq_true_eq] at hX
  rw [hfind, hX]

/-- which finds nothing if the key is not there, -/
theorem find?_eq_none {β : Type} {X : PacketID} {l : List (PacketID × β)}
    (h : l.lookup X = none) : l.find? (fun e => pktIDCmp X e.1) = none := by
  rwa [← find?_map_snd, Option.map_eq_none_iff] at h

/-- `findi` finds the first element satisfying `f`, at the length of what is in front. -/
theorem findi_go_eq {α : Type} (f : α → Bool) (l : List α) (k : Nat) :
    findi.go f l k =
      (l.find? f).map fun a => (k + (l.takeWhile fun b => !f b).length, a) := by
  induction l generalizing k with
  | nil => rfl
  | cons a l ih =>
    rw [findi.go]
    by_cases h : f a = true
    · simp [h]
    · simp only [h, Bool.false_eq_true, if_false, ih, List.find?_cons_of_neg, not_false_eq_true,
        List.takeWhile_cons, Bool.not_false, if_true, List.length_cons]
      congr 1
      funext b
      rw [Nat.add_assoc, Nat.add_comm 1]

/-- also when the position is wanted. -/
theorem findi_eq_none {β : Type} {X : PacketID} {l : List (PacketID × β)}
    (h : l.lookup X = none) : findi (fun e => pktIDCmp X e.1) l = none := by
  rw [findi, findi_go_eq, find?_eq_none h]
  rfl

/-- The index that `findi` returns is where `fromKey` cuts. -/
theorem findi_eq_some {β : Type} {X : PacketID} {l : List (PacketID × β)} {v : β}
    (h : l.lookup X = some v) :
    ∃ i, findi (fun e => pktIDCmp X e.1) l = some (i, (X, v)) ∧ l.drop i = fromKey X l := by
  refine ⟨(front X l).length, ?_, ?_⟩
  · have hfront : (l.takeWhile fun b => !pktIDCmp X b.1) = front X l := by
      rw [front]
      congr 1
      funext b
      simp [eq_comm]
    rw [findi, findi_go_eq, find?_eq_some h, hfront, Option.map_some, Nat.zero_add]
  · have hdrop : (front X l ++ fromKey X l).drop (front X l).length = fromKey X l := List.drop_left
    rwa [front_append_fromKey] at hdrop

/-- The assignment by position is the one by key. -/
theorem assign_eq {β : Type} (X : PacketID) (v : β) (l : List (PacketID × β)) :
    assign X v l = Keyed.assign X v l := by
  induction l with
  | nil => rfl
  | cons e l ih =>
    rw [assign, Keyed.assign, ih]
    by_cases h : e.1 = X
    · simp [h]
    · have h' : X ≠ e.1 := fun hX => h hX.symm
      simp [h, h']

/-! ## Byte arrays -/

/-- A string copied to index `k` stays inside an array of length `n`. -/
def CopyFits (n : Nat) (k : Int) (payload : Str) : Prop :=
  payload = [] ∨ (0 ≤ k ∧ k + payload.length ≤ n)

instance (n : Nat) (k : Int) (payload : Str) : Decidable (CopyFits n k payload) :=
  inferInstanceAs (Decidable (_ ∨ _))

/-- Within the array, -/
theorem arrayUpdate_ok {arr : CharArray} {i : Int} {c : UInt8} (h0 : 0 ≤ i)
    (h1 : i < arr.length) : arrayUpdate i c arr = .ok () (arr.set i.toNat c) :=
  if_pos ⟨h0, h1⟩

/-- and outside of it. -/
theorem arrayUpdate_error {arr : CharArray} {i : Int} {c : UInt8}
    (h : ¬ (0 ≤ i ∧ i < arr.length)) : arrayUpdate i c arr = .error .subscript arr :=
  if_neg h

/-- A piece that fits is written as a whole. -/
theorem updatePacketArray_ok {payload : Str} {k : Int} {arr : CharArray}
    (h : CopyFits arr.length k payload) :
    updatePacketArray k payload arr = .ok () (write arr ⟨k.toNat, payload⟩) := by
  induction payload generalizing k arr with
  | nil => rw [write_nil]; rfl
  | cons c payload ih =>
    obtain ⟨h0, h1⟩ := h.resolve_left (List.cons_ne_nil _ _)
    rw [List.length_cons] at h1
    rw [updatePacketArray, estate_bind_ok (arrayUpdate_ok h0 (by omega))]
    have hfits : CopyFits (arr.set k.toNat c).length (k + 1) payload := by
      rw [List.length_set]
      exact .inr ⟨by omega, by omega⟩
    rw [ih hfits, write_cons, show (k + 1).toNat = k.toNat + 1 by omega]

/-- A copy that does not fit raises `Subscript`, after writing what does fit. -/
theorem updatePacketArray_error {payload : Str} {k : Int} {arr : CharArray} (h0 : 0 ≤ k)
    (h : ¬ CopyFits arr.length k payload) :
    updatePacketArray k payload arr = .error .subscript (write arr ⟨k.toNat, payload⟩) := by
  induction payload generalizing k arr with
  | nil => exact absurd (.inl rfl) h
  | cons c payload ih =>
    rw [updatePacketArray]
    by_cases hk : k < arr.length
    · have hfits : ¬ CopyFits (arr.set k.toNat c).length (k + 1) payload := by
        rw [List.length_set]
        rintro (rfl | ⟨-, h1⟩)
        · exact h (.inr ⟨h0, by rw [List.length_singleton]; omega⟩)
        · exact h (.inr ⟨h0, by rw [List.length_cons]; omega⟩)
      rw [estate_bind_ok (arrayUpdate_ok h0 hk), ih (by omega) hfits, write_cons,
        show (k + 1).toNat = k.toNat + 1 by omega]
    · rw [estate_bind_error (arrayUpdate_error fun h' => hk h'.2),
        write_of_length_le (show arr.length ≤ k.toNat by omega)]

/-- A copy to a negative index raises `Subscript` at once. -/
theorem updatePacketArray_error_of_neg {payload : Str} {k : Int} {arr : CharArray} (h0 : k < 0)
    (h : payload ≠ []) : updatePacketArray k payload arr = .error .subscript arr := by
  cases payload with
  | nil => exact absurd rfl h
  | cons c payload =>
    rw [updatePacketArray, estate_bind_error (arrayUpdate_error (by omega))]

/-- The patch that a stored fragment puts into the packet array. -/
def Fragment.patch (f : Fragment) : Patch UInt8 := ⟨(f.offset * 8).toNat, f.data⟩

/-- The fragment lies inside a packet of `n` bytes. -/
def Fragment.Fits (n : Nat) (f : Fragment) : Prop := CopyFits n (f.offset * 8) f.data

instance (n : Nat) (f : Fragment) : Decidable (f.Fits n) :=
  inferInstanceAs (Decidable (CopyFits _ _ _))

theorem copyFragments_cons (f : Fragment) (l : List Fragment) (arr : CharArray) :
    copyFragments (f :: l) arr =
      match updatePacketArray (f.offset * 8) f.data arr with
      | .ok _ arr => copyFragments l arr
      | .error e arr => .error e arr := by
  have hoff : (if f.offset = 0 then 0 else f.offset * 8) = f.offset * 8 := by
    split
    · next h => rw [h]; rfl
    · rfl
  rw [copyFragments, hoff, estate_bind]
  cases updatePacketArray (f.offset * 8) f.data arr with
  | ok _ arr' => rfl
  | error e arr' => rfl

/-- Copying fragments that fit replays them over the array, in list order. -/
theorem copyFragments_ok {l : List Fragment} {arr : CharArray}
    (h : ∀ f ∈ l, f.Fits arr.length) :
    copyFragments l arr = .ok () (replay arr (l.map Fragment.patch)) := by
  induction l generalizing arr with
  | nil => rfl
  | cons f l ih =>
    rw [copyFragments_cons, updatePacketArray_ok (h f List.mem_cons_self)]
    simp only
    rw [ih (by
      rw [length_write]
      exact fun g hg => h g (List.mem_cons_of_mem _ hg))]
    rfl

/-- One fragment that does not fit is enough to fail. -/
theorem copyFragments_error {l : List Fragment} (arr : CharArray)
    (h : ¬ ∀ f ∈ l, f.Fits arr.length) :
    ∃ arr', copyFragments l arr = .error .subscript arr' := by
  induction l generalizing arr with
  | nil => exact absurd (fun f hf => by cases hf) h
  | cons f l ih =>
    rw [copyFragments_cons]
    by_cases hf : f.Fits arr.length
    · rw [updatePacketArray_ok hf]
      simp only
      refine ih _ fun hl => h ?_
      rw [length_write] at hl
      exact List.forall_mem_cons.mpr ⟨hf, hl⟩
    · by_cases hneg : f.offset * 8 < 0
      · rw [updatePacketArray_error_of_neg hneg fun hnil => hf (.inl hnil)]
        exact ⟨_, rfl⟩
      · rw [updatePacketArray_error (by omega) hf]
        exact ⟨_, rfl⟩

/-! ## The two lists -/

/-- The fragment that `addFragment` makes of a packet. -/
def fragmentOf (h : IPv4.Header) (pay : Str) : Fragment := ⟨pay, h.fragmentOffset⟩

/-- The buffers after `addFragment`, whether it raised or not: the fragment is
stored with the others of its packet ID; if there are none but the ID was
assembled before, it is written into that array, at its unscaled offset. -/
def Buffers.add (b : Buffers) (X : PacketID) (f : Fragment) : Buffers :=
  match b.fragmentBuffer.lookup X, b.assemblingList.lookup X with
  | some l, _ => { b with fragmentBuffer := Keyed.assign X (f :: l) b.fragmentBuffer }
  | none, some a =>
    { b with assemblingList := Keyed.assign X (write a ⟨f.offset.toNat, f.data⟩) b.assemblingList }
  | none, none => { b with fragmentBuffer := (X, [f]) :: b.fragmentBuffer }

/-- A packet with fragments gets one more, -/
theorem add_of_stored {b : Buffers} {X : PacketID} {l : List Fragment}
    (hl : b.fragmentBuffer.lookup X = some l) (f : Fragment) :
    b.add X f = ⟨Keyed.assign X (f :: l) b.fragmentBuffer, b.assemblingList⟩ := by
  simp only [Buffers.add, hl]

/-- and one that is delivered has its array written. -/
theorem add_of_parked {b : Buffers} {X : PacketID} {a : CharArray}
    (hl : b.fragmentBuffer.lookup X = none) (ha : b.assemblingList.lookup X = some a)
    (f : Fragment) :
    b.add X f = ⟨b.fragmentBuffer,
      Keyed.assign X (write a ⟨f.offset.toNat, f.data⟩) b.assemblingList⟩ := by
  simp only [Buffers.add, hl, ha]

/-- `addFragment` raises: the fragment goes into an old array and does not fit. -/
def Buffers.AddFails (b : Buffers) (X : PacketID) (f : Fragment) : Prop :=
  b.fragmentBuffer.lookup X = none ∧
    ∃ a, b.assemblingList.lookup X = some a ∧ ¬ CopyFits a.length f.offset f.data

/-- `addFragment` does what `add` says if the piece fits, -/
theorem addFragment_ok {b : Buffers} {h : IPv4.Header} {pay : Str}
    (hok : ¬ b.AddFails (initPktID h) (fragmentOf h pay)) :
    addFragment h pay b = .ok () (b.add (initPktID h) (fragmentOf h pay)) := by
  rw [addFragment, estate_bind, estate_get]
  cases hfb : b.fragmentBuffer.lookup (initPktID h) with
  | some l =>
    simp only [find?_eq_some hfb, estate_set, Buffers.add, hfb, assign_eq]
    rfl
  | none =>
    cases hal : b.assemblingList.lookup (initPktID h) with
    | none =>
      simp only [find?_eq_none hfb, find?_eq_none hal, estate_set, Buffers.add, hfb, hal]
      rfl
    | some a =>
      have hfits : CopyFits a.length h.fragmentOffset pay := by
        by_contra hno
        exact hok ⟨hfb, a, hal, hno⟩
      simp only [find?_eq_none hfb, find?_eq_some hal, updatePacketArray_ok hfits, estate_set,
        Buffers.add, hfb, hal, assign_eq, fragmentOf]

/-- and stops on the way if it does not. -/
theorem addFragment_error {b : Buffers} {h : IPv4.Header} {pay : Str}
    (hoff : 0 ≤ h.fragmentOffset) (hbad : b.AddFails (initPktID h) (fragmentOf h pay)) :
    addFragment h pay b = .error .subscript (b.add (initPktID h) (fragmentOf h pay)) := by
  obtain ⟨hfb, a, hal, hfits⟩ := hbad
  have hcopy : updatePacketArray h.fragmentOffset pay a = _ := updatePacketArray_error hoff hfits
  rw [addFragment, estate_bind, estate_get]
  simp only [find?_eq_none hfb, find?_eq_some hal, hcopy, Buffers.add, hfb, hal, assign_eq,
    fragmentOf]
  rfl

/-- The length of the packet that a last fragment announces. -/
def packetLength (h : IPv4.Header) (pay : Str) : Nat :=
  (h.fragmentOffset * 8 + pay.length).toNat

/-- The packet array before any fragment is copied. -/
def blank (n : Nat) : CharArray := List.replicate n 0

@[simp] theorem length_blank (n : Nat) : (blank n).length = n := List.length_replicate

/-- The packet array that the stored fragments `l` give, in list order. -/
def assembled (n : Nat) (l : List Fragment) : CharArray :=
  replay (blank n) (l.map Fragment.patch)

@[simp] theorem length_assembled (n : Nat) (l : List Fragment) : (assembled n l).length = n := by
  rw [assembled, length_replay, length_blank]

theorem array_ok {h : IPv4.Header} {pay : Str} (hoff : 0 ≤ h.fragmentOffset) :
    array (h.fragmentOffset * 8 + pay.length) 0 = .ok (blank (packetLength h pay)) :=
  if_pos (by omega)

/-- The array with all the fragments in it. -/
theorem initAssembling_ok {b : Buffers} {h : IPv4.Header} {pay : Str} {l : List Fragment}
    (hoff : 0 ≤ h.fragmentOffset) (hl : b.fragmentBuffer.lookup (initPktID h) = some l)
    (hfits : ∀ f ∈ l, f.Fits (packetLength h pay)) :
    initAssembling h pay b = .ok ()
      { fragmentBuffer := fromKey (initPktID h) b.fragmentBuffer
        assemblingList :=
          (initPktID h, assembled (packetLength h pay) l) :: b.assemblingList } := by
  obtain ⟨i, hfindi, hdrop⟩ := findi_eq_some hl
  have hcopy : copyFragments l (blank (packetLength h pay)) =
      .ok () (assembled (packetLength h pay) l) :=
    copyFragments_ok (by simpa using hfits)
  simp only [initAssembling, array_ok hoff, estate_bind, raising_ok, estate_get, hfindi, hcopy,
    estate_set, estate_modify, hdrop]

/-- One that does not fit raises, and no array is kept. -/
theorem initAssembling_error {b : Buffers} {h : IPv4.Header} {pay : Str} {l : List Fragment}
    (hoff : 0 ≤ h.fragmentOffset) (hl : b.fragmentBuffer.lookup (initPktID h) = some l)
    (hfits : ¬ ∀ f ∈ l, f.Fits (packetLength h pay)) :
    initAssembling h pay b = .error .subscript b := by
  obtain ⟨i, hfindi, -⟩ := findi_eq_some hl
  obtain ⟨arr, hcopy⟩ := copyFragments_error (blank (packetLength h pay))
    (by simpa using hfits)
  simp only [initAssembling, array_ok hoff, estate_bind, raising_ok, estate_get, hfindi, hcopy,
    estate_throw]

/-- Without fragments the array is blank. -/
theorem initAssembling_unstored {b : Buffers} {h : IPv4.Header} {pay : Str}
    (hoff : 0 ≤ h.fragmentOffset) (hl : b.fragmentBuffer.lookup (initPktID h) = none) :
    initAssembling h pay b = .ok ()
      { b with
        assemblingList := (initPktID h, blank (packetLength h pay)) :: b.assemblingList } := by
  simp only [initAssembling, array_ok hoff, estate_bind, raising_ok, estate_get, findi_eq_none hl,
    estate_modify]

/-- `assemblePacket` takes the array that was just pushed and leaves it there. -/
theorem assemblePacket_pushed (h : IPv4.Header) (fb : List (PacketID × List Fragment))
    (a : CharArray) (al : List (PacketID × CharArray)) :
    assemblePacket h ⟨fb, (initPktID h, a) :: al⟩ = .ok a ⟨fb, (initPktID h, a) :: al⟩ := by
  have hl : ((initPktID h, a) :: al).lookup (initPktID h) = some a := List.lookup_cons_self
  obtain ⟨i, hfindi, hdrop⟩ := findi_eq_some hl
  rw [fromKey_cons_self] at hdrop
  simp only [assemblePacket, estate_bind, estate_get, hfindi, estate_set, hdrop]
  rfl

/-! ## One packet -/

/-- Everything `payloadOpt` can do with a packet, and what the buffers are then. -/
inductive Outcome (h : IPv4.Header) (pay : Str) (b : Buffers) :
    EStateM.Result Exn Buffers (Option Str) → Prop where
  /-- An unfragmented packet with the don't-fragment bit bypasses the buffers. -/
  | whole (hwhole : h.fragmentOffset = 0 ∧ h.flags = 2) : Outcome h pay b (.ok (some pay) b)
  /-- `addFragment` raised. -/
  | rejected (hwhole : ¬ (h.fragmentOffset = 0 ∧ h.flags = 2))
      (hbad : b.AddFails (initPktID h) (fragmentOf h pay)) :
      Outcome h pay b (.error .subscript (b.add (initPktID h) (fragmentOf h pay)))
  /-- A fragment with others to come. -/
  | kept (hwhole : ¬ (h.fragmentOffset = 0 ∧ h.flags = 2))
      (hok : ¬ b.AddFails (initPktID h) (fragmentOf h pay)) (hflags : h.flags ≠ 0) :
      Outcome h pay b (.ok none (b.add (initPktID h) (fragmentOf h pay)))
  /-- A last fragment; the stored fragments fit the packet. -/
  | assembled (hok : ¬ b.AddFails (initPktID h) (fragmentOf h pay)) (hflags : h.flags = 0)
      {l : List Fragment}
      (hl : (b.add (initPktID h) (fragmentOf h pay)).fragmentBuffer.lookup (initPktID h) = some l)
      (hfits : ∀ f ∈ l, f.Fits (packetLength h pay)) :
      Outcome h pay b (.ok (some (assembled (packetLength h pay) l))
        { fragmentBuffer :=
            fromKey (initPktID h) (b.add (initPktID h) (fragmentOf h pay)).fragmentBuffer
          assemblingList := (initPktID h, Network.assembled (packetLength h pay) l) ::
            (b.add (initPktID h) (fragmentOf h pay)).assemblingList })
  /-- A last fragment; `initAssembling` raised on a stored fragment that does not fit. -/
  | misfit (hok : ¬ b.AddFails (initPktID h) (fragmentOf h pay)) (hflags : h.flags = 0)
      {l : List Fragment}
      (hl : (b.add (initPktID h) (fragmentOf h pay)).fragmentBuffer.lookup (initPktID h) = some l)
      (hfits : ¬ ∀ f ∈ l, f.Fits (packetLength h pay)) :
      Outcome h pay b (.error .subscript (b.add (initPktID h) (fragmentOf h pay)))
  /-- A last fragment that was written into an old array: nothing is stored. -/
  | unstored (hok : ¬ b.AddFails (initPktID h) (fragmentOf h pay)) (hflags : h.flags = 0)
      (hl : (b.add (initPktID h) (fragmentOf h pay)).fragmentBuffer.lookup (initPktID h) = none) :
      Outcome h pay b (.ok (some (blank (packetLength h pay)))
        { b.add (initPktID h) (fragmentOf h pay) with
          assemblingList := (initPktID h, blank (packetLength h pay)) ::
            (b.add (initPktID h) (fragmentOf h pay)).assemblingList })

/-- A packet in one piece goes past the lists. -/
theorem payloadOpt_whole {h : IPv4.Header} (hwhole : h.fragmentOffset = 0 ∧ h.flags = 2)
    (pay : Str) (b : Buffers) : payloadOpt h pay b = .ok (some pay) b := by
  rw [payloadOpt, if_pos hwhole]
  rfl

/-- **One packet**: `payloadOpt` has one of these outcomes. -/
theorem payloadOpt_outcome {h : IPv4.Header} (hoff : 0 ≤ h.fragmentOffset) (pay : Str)
    (b : Buffers) : Outcome h pay b (payloadOpt h pay b) := by
  -- the cases are split in the order in which the source tests them
  by_cases hwhole : h.fragmentOffset = 0 ∧ h.flags = 2
  · rw [payloadOpt_whole hwhole]
    exact .whole hwhole
  rw [payloadOpt, if_neg hwhole]
  by_cases hbad : b.AddFails (initPktID h) (fragmentOf h pay)
  · rw [estate_bind_error (addFragment_error hoff hbad)]
    exact .rejected hwhole hbad
  rw [estate_bind_ok (addFragment_ok hbad)]
  by_cases hflags : h.flags = 0
  · rw [if_pos hflags]
    cases hl : (b.add (initPktID h) (fragmentOf h pay)).fragmentBuffer.lookup (initPktID h) with
    | none =>
      -- `addFragment` found only an old array, and wrote the payload there
      rw [estate_bind_ok (initAssembling_unstored hoff hl),
        estate_bind_ok (assemblePacket_pushed h _ _ _)]
      exact .unstored hbad hflags hl
    | some l =>
      by_cases hfits : ∀ f ∈ l, f.Fits (packetLength h pay)
      · rw [estate_bind_ok (initAssembling_ok hoff hl hfits),
          estate_bind_ok (assemblePacket_pushed h _ _ _)]
        exact .assembled hbad hflags hl hfits
      · rw [estate_bind_error (initAssembling_error hoff hl hfits)]
        exact .misfit hbad hflags hl hfits
  · rw [if_neg hflags]
    exact .kept hwhole hbad hflags

end Unikernel.Network
