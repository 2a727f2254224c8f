import Unikernel.Lib.Machine
import Unikernel.Network.ReassemblyLemmas

/-!
# The buffers seen by one packet ID

`View` is what the two lists hold for one packet ID, and `View.receive` is
reassembly of that packet ID alone: no list, no other traffic. It is the
abstract machine the claims about single datagrams are proved on.

`view_projection` connects it to the buffers: a frame with the packet ID acts on
the view as `View.receive` does, and a frame with another one does not change
it — unless it `Evicts` it, which is what `List.drop` does to the entries in
front of the one that is completed.
-/

namespace Unikernel.Network

open Sml Overlay Keyed

/-- What the buffers hold for one packet ID. -/
structure View where
  stored : Option (List Fragment)
  parked : Option CharArray
  deriving DecidableEq

/-- Nothing is held. -/
def View.none : View := ⟨.none, .none⟩

def Buffers.view (b : Buffers) (X : PacketID) : View :=
  ⟨b.fragmentBuffer.lookup X, b.assemblingList.lookup X⟩

/-- `addFragment` on a view. -/
def View.add (v : View) (f : Fragment) : View :=
  match v.stored, v.parked with
  | some l, _ => { v with stored := some (f :: l) }
  | .none, some a => { v with parked := some (write a ⟨f.offset.toNat, f.data⟩) }
  | .none, .none => { v with stored := some [f] }

/-- `addFragment` raises on a view. -/
def View.addFails (v : View) (f : Fragment) : Bool :=
  match v.stored, v.parked with
  | .none, some a => !decide (CopyFits a.length f.offset f.data)
  | _, _ => false

/-- `initAssembling` and `assemblePacket` on a view, for a packet of `n` bytes. -/
def View.complete (v : View) (n : Nat) : View × Option Str :=
  match v.stored with
  | some l =>
    if ∀ f ∈ l, f.Fits n then ({ v with parked := some (assembled n l) }, some (assembled n l))
    else (v, .none)
  | .none => ({ v with parked := some (blank n) }, some (blank n))

/-- Reassembly of one packet ID: the view after a packet, and what is handed on. -/
def View.receive (v : View) (h : IPv4.Header) (pay : Str) : View × Option Str :=
  if h.fragmentOffset = 0 ∧ h.flags = 2 then (v, some pay)
  else if v.addFails (fragmentOf h pay) then (v.add (fragmentOf h pay), .none)
  else if h.flags = 0 then (v.add (fragmentOf h pay)).complete (packetLength h pay)
  else (v.add (fragmentOf h pay), .none)

/-! ## The cases of `View.receive` -/

/-- A last fragment is not a whole packet. -/
theorem not_whole {h : IPv4.Header} (hflags : h.flags = 0) :
    ¬ (h.fragmentOffset = 0 ∧ h.flags = 2) := by
  omega

namespace View

variable {v : View} {h : IPv4.Header} {pay : Str}

theorem receive_whole (hwhole : h.fragmentOffset = 0 ∧ h.flags = 2) :
    v.receive h pay = (v, some pay) := if_pos hwhole

theorem receive_rejected (hwhole : ¬ (h.fragmentOffset = 0 ∧ h.flags = 2))
    (hbad : v.addFails (fragmentOf h pay) = true) :
    v.receive h pay = (v.add (fragmentOf h pay), .none) := by
  rw [receive, if_neg hwhole, if_pos hbad]

theorem receive_kept (hwhole : ¬ (h.fragmentOffset = 0 ∧ h.flags = 2))
    (hok : ¬ v.addFails (fragmentOf h pay) = true) (hflags : h.flags ≠ 0) :
    v.receive h pay = (v.add (fragmentOf h pay), .none) := by
  rw [receive, if_neg hwhole, if_neg hok, if_neg hflags]

theorem receive_last (hok : ¬ v.addFails (fragmentOf h pay) = true) (hflags : h.flags = 0) :
    v.receive h pay = (v.add (fragmentOf h pay)).complete (packetLength h pay) := by
  rw [receive, if_neg (not_whole hflags), if_neg hok, if_pos hflags]

theorem complete_fits {n : Nat} {l : List Fragment} (hl : v.stored = some l)
    (hfits : ∀ f ∈ l, f.Fits n) :
    v.complete n = (⟨some l, some (assembled n l)⟩, some (assembled n l)) := by
  simp only [complete, hl, if_pos hfits]

theorem complete_misfit {n : Nat} {l : List Fragment} (hl : v.stored = some l)
    (hfits : ¬ ∀ f ∈ l, f.Fits n) : v.complete n = (v, .none) := by
  simp only [complete, hl, if_neg hfits]

theorem complete_unstored {n : Nat} (hl : v.stored = .none) :
    v.complete n = (⟨.none, some (blank n)⟩, some (blank n)) := by
  simp only [complete, hl]

end View

/-! ## Adding a fragment, by view -/

theorem view_add_self (b : Buffers) (X : PacketID) (f : Fragment) :
    (b.add X f).view X = (b.view X).add f := by
  simp only [Buffers.add, Buffers.view, View.add]
  cases hfb : b.fragmentBuffer.lookup X with
  | some l => simp only [lookup_assign_self (mem_keys_of_lookup hfb)]
  | none =>
    cases hal : b.assemblingList.lookup X with
    | some a => simp only [lookup_assign_self (mem_keys_of_lookup hal), hfb]
    | none => simp only [List.lookup_cons_self, hal]

theorem view_add_other (b : Buffers) {X Y : PacketID} (f : Fragment) (hne : X ≠ Y) :
    (b.add Y f).view X = b.view X := by
  simp only [Buffers.add, Buffers.view]
  cases hfb : b.fragmentBuffer.lookup Y with
  | some l => simp only [lookup_assign_other _ _ hne]
  | none =>
    cases hal : b.assemblingList.lookup Y with
    | some a => simp only [lookup_assign_other _ _ hne]
    | none => simp only [lookup_cons_eq, if_neg hne]

theorem addFails_iff (b : Buffers) (X : PacketID) (f : Fragment) :
    b.AddFails X f ↔ (b.view X).addFails f = true := by
  simp only [Buffers.AddFails, Buffers.view, View.addFails]
  cases b.fragmentBuffer.lookup X with
  | some l => simp
  | none =>
    cases b.assemblingList.lookup X with
    | none => simp
    | some a => simp

/-- What is in front of the entry for `Y` after adding to it was there before. -/
theorem front_add {b : Buffers} {X Y : PacketID} {f : Fragment} {l : List Fragment}
    (hl : (b.add Y f).fragmentBuffer.lookup Y = some l)
    (hX : X ∈ keys (front Y (b.add Y f).fragmentBuffer)) :
    ∃ l', b.fragmentBuffer.lookup Y = some l' ∧ l = f :: l' ∧
      X ∈ keys (front Y b.fragmentBuffer) := by
  simp only [Buffers.add] at hl hX
  cases hfb : b.fragmentBuffer.lookup Y with
  | some l' =>
    simp only [hfb] at hl hX
    rw [lookup_assign_self (mem_keys_of_lookup hfb)] at hl
    cases hl
    rw [keys_front_assign] at hX
    exact ⟨l', rfl, rfl, hX⟩
  | none =>
    cases hal : b.assemblingList.lookup Y with
    | some a =>
      simp only [hfb, hal] at hl
      cases hl
    | none =>
      simp only [hfb, hal, front_cons_self] at hX
      cases hX

/-- A fragment fits the packet that it ends. -/
theorem fits_packetLength {h : IPv4.Header} (hoff : 0 ≤ h.fragmentOffset) (pay : Str) :
    (fragmentOf h pay).Fits (packetLength h pay) := by
  refine .inr ⟨?_, ?_⟩
  · simp only [fragmentOf]
    omega
  · simp only [fragmentOf, packetLength]
    omega

/-! ## Frames -/

/-- What a computation hands on. -/
def handedOn : EStateM.Result Exn Buffers (Option Str) → Option Str
  | .ok o _ => o
  | .error _ _ => .none

/-- The effect of a received frame on the buffers, and the packet that
`handleIPv4` passes on to its protocol dispatch. -/
def Buffers.step (b : Buffers) (ethFrame : Str) : Buffers × List (IPv4.Header × Str) :=
  match ipv4Packet ethFrame with
  | .error _ => (b, [])
  | .ok (h, pay) =>
    (after (payloadOpt h pay b), (handedOn (payloadOpt h pay b)).toList.map fun p => (h, p))

/-- The effect of a received frame on the view of its packet ID. -/
def View.step (v : View) (ethFrame : Str) : View × List (IPv4.Header × Str) :=
  match ipv4Packet ethFrame with
  | .error _ => (v, [])
  | .ok (h, pay) => ((v.receive h pay).1, (v.receive h pay).2.toList.map fun p => (h, p))

/-- The packet ID of a frame, if it holds an IPv4 packet. -/
def pktIDOf (ethFrame : Str) : Option PacketID :=
  match ipv4Packet ethFrame with
  | .error _ => .none
  | .ok (h, _) => some (initPktID h)

/-- The frame completes another packet ID whose entry lies behind that of `X`:
all its stored fragments fit, and the entries in front are dropped. -/
def Buffers.Evicts (b : Buffers) (X : PacketID) (ethFrame : Str) : Prop :=
  ∃ h pay l, ipv4Packet ethFrame = .ok (h, pay) ∧ h.flags = 0 ∧
    b.fragmentBuffer.lookup (initPktID h) = some l ∧
    (∀ f ∈ l, f.Fits (packetLength h pay)) ∧
    X ∈ keys (front (initPktID h) b.fragmentBuffer)

instance (b : Buffers) (X : PacketID) (ethFrame : Str) : Decidable (b.Evicts X ethFrame) :=
  match hp : ipv4Packet ethFrame with
  | .error e => isFalse fun ⟨h, pay, l, hp', _⟩ => by rw [hp] at hp'; cases hp'
  | .ok (h, pay) =>
    match hl : b.fragmentBuffer.lookup (initPktID h) with
    | .none => isFalse fun ⟨h', pay', l, hp', _, hl', _⟩ => by
        rw [hp] at hp'
        cases hp'
        rw [hl] at hl'
        cases hl'
    | some l =>
      decidable_of_iff (h.flags = 0 ∧ (∀ f ∈ l, f.Fits (packetLength h pay)) ∧
          X ∈ keys (front (initPktID h) b.fragmentBuffer))
        ⟨fun ⟨hflags, hfits, hX⟩ => ⟨h, pay, l, hp, hflags, hl, hfits, hX⟩,
          fun ⟨h', pay', l', hp', hflags, hl', hfits, hX⟩ => by
            rw [hp] at hp'
            cases hp'
            rw [hl] at hl'
            cases hl'
            exact ⟨hflags, hfits, hX⟩⟩

section Packet

variable {ethFrame pay : Str} {h : IPv4.Header} {e : Exn}

theorem step_ok (hp : ipv4Packet ethFrame = .ok (h, pay)) (b : Buffers) :
    b.step ethFrame = (after (payloadOpt h pay b),
      (handedOn (payloadOpt h pay b)).toList.map fun p => (h, p)) := by
  simp only [Buffers.step, hp]

theorem step_error (hp : ipv4Packet ethFrame = .error e) (b : Buffers) :
    b.step ethFrame = (b, []) := by
  simp only [Buffers.step, hp]

theorem viewStep_ok (hp : ipv4Packet ethFrame = .ok (h, pay)) (v : View) :
    v.step ethFrame = ((v.receive h pay).1, (v.receive h pay).2.toList.map fun p => (h, p)) := by
  simp only [View.step, hp]

theorem pktIDOf_ok (hp : ipv4Packet ethFrame = .ok (h, pay)) :
    pktIDOf ethFrame = some (initPktID h) := by
  simp only [pktIDOf, hp]

theorem pktIDOf_error (hp : ipv4Packet ethFrame = .error e) : pktIDOf ethFrame = .none := by
  simp only [pktIDOf, hp]

end Packet

/-- A frame with a packet ID carries a packet with it. -/
theorem packet_of_pktIDOf {ethFrame : Str} {X : PacketID} (hX : pktIDOf ethFrame = some X) :
    ∃ h pay, ipv4Packet ethFrame = .ok (h, pay) ∧ initPktID h = X := by
  cases hp : ipv4Packet ethFrame with
  | error e =>
    rw [pktIDOf_error hp] at hX
    cases hX
  | ok r =>
    rw [pktIDOf_ok hp] at hX
    exact ⟨r.1, r.2, rfl, Option.some.inj hX⟩

theorem ipv4Packet_offset {ethFrame pay : Str} {h : IPv4.Header}
    (hp : ipv4Packet ethFrame = .ok (h, pay)) : 0 ≤ h.fragmentOffset := by
  rw [ipv4Packet, except_bind_eq_ok] at hp
  obtain ⟨s, -, hdec⟩ := hp
  exact (IPv4.decode_ranges hdec).1.1

/-- **What one frame does to the buffers**: nothing, or a fragment is added, or one is
added and then an array is pushed, before which `fragmentBuffer` may be cut. -/
theorem step_cases (b : Buffers) (ethFrame : Str) :
    (b.step ethFrame).1 = b ∨ ∃ X g, (b.step ethFrame).1 = b.add X g ∨
      ∃ fb a, (b.step ethFrame).1 = ⟨fb, (X, a) :: (b.add X g).assemblingList⟩ ∧
        (fb = fromKey X (b.add X g).fragmentBuffer ∨ fb = (b.add X g).fragmentBuffer) := by
  cases hp : ipv4Packet ethFrame with
  | error e =>
    rw [step_error hp]
    exact .inl rfl
  | ok r =>
    obtain ⟨h, pay⟩ := r
    rw [step_ok hp]
    generalize payloadOpt h pay b = r, payloadOpt_outcome (ipv4Packet_offset hp) pay b = ho
    cases ho with
    | whole hwhole => exact .inl rfl
    | rejected hwhole hbad => exact .inr ⟨_, _, .inl rfl⟩
    | kept hwhole hok hflags => exact .inr ⟨_, _, .inl rfl⟩
    | assembled hok hflags hl hfits => exact .inr ⟨_, _, .inr ⟨_, _, rfl, .inl rfl⟩⟩
    | misfit hok hflags hl hfits => exact .inr ⟨_, _, .inl rfl⟩
    | unstored hok hflags hl => exact .inr ⟨_, _, .inr ⟨_, _, rfl, .inr rfl⟩⟩

/-- A packet acts on the view of its own ID as `View.receive` does. -/
theorem payloadOpt_view_self {h : IPv4.Header} (hoff : 0 ≤ h.fragmentOffset) (pay : Str)
    (b : Buffers) :
    (after (payloadOpt h pay b)).view (initPktID h) =
        ((b.view (initPktID h)).receive h pay).1 ∧
      handedOn (payloadOpt h pay b) = ((b.view (initPktID h)).receive h pay).2 := by
  have hadd := view_add_self b (initPktID h) (fragmentOf h pay)
  have hfails := addFails_iff b (initPktID h) (fragmentOf h pay)
  have hstored {o : Option (List Fragment)}
      (hl : (b.add (initPktID h) (fragmentOf h pay)).fragmentBuffer.lookup (initPktID h) = o) :
      ((b.view (initPktID h)).add (fragmentOf h pay)).stored = o := by
    rw [← hadd]
    exact hl
  generalize payloadOpt h pay b = r, payloadOpt_outcome hoff pay b = ho
  cases ho with
  | whole hwhole =>
    rw [View.receive_whole hwhole]
    exact ⟨rfl, rfl⟩
  | rejected hwhole hbad =>
    rw [View.receive_rejected hwhole (hfails.mp hbad)]
    exact ⟨hadd, rfl⟩
  | kept hwhole hok hflags =>
    rw [View.receive_kept hwhole (mt hfails.mpr hok) hflags]
    exact ⟨hadd, rfl⟩
  | assembled hok hflags hl hfits =>
    rw [View.receive_last (mt hfails.mpr hok) hflags, View.complete_fits (hstored hl) hfits]
    simp only [after, Buffers.view, lookup_fromKey_self, hl, List.lookup_cons_self]
    exact ⟨trivial, rfl⟩
  | misfit hok hflags hl hfits =>
    rw [View.receive_last (mt hfails.mpr hok) hflags, View.complete_misfit (hstored hl) hfits]
    exact ⟨hadd, rfl⟩
  | unstored hok hflags hl =>
    rw [View.receive_last (mt hfails.mpr hok) hflags, View.complete_unstored (hstored hl)]
    simp only [after, Buffers.view, hl, List.lookup_cons_self]
    exact ⟨trivial, rfl⟩

/-- What is not evicted is not in front of the packet that is completed. -/
theorem notMem_front_of_quiet {ethFrame pay : Str} {h : IPv4.Header} {b : Buffers} {X : PacketID}
    {l : List Fragment} (hp : ipv4Packet ethFrame = .ok (h, pay)) (hflags : h.flags = 0)
    (hl : (b.add (initPktID h) (fragmentOf h pay)).fragmentBuffer.lookup (initPktID h) = some l)
    (hfits : ∀ f ∈ l, f.Fits (packetLength h pay)) (hquiet : ¬ b.Evicts X ethFrame) :
    X ∉ keys (front (initPktID h) (b.add (initPktID h) (fragmentOf h pay)).fragmentBuffer) := by
  intro hX
  obtain ⟨l', hl', rfl, hfront⟩ := front_add hl hX
  exact hquiet ⟨h, pay, l', hp, hflags, hl', fun f hf => hfits f (List.mem_cons_of_mem _ hf),
    hfront⟩

/-- A packet with another ID changes a view only by evicting it. -/
theorem payloadOpt_view_other {ethFrame pay : Str} {h : IPv4.Header} {b : Buffers} {X : PacketID}
    (hp : ipv4Packet ethFrame = .ok (h, pay)) (hne : X ≠ initPktID h)
    (hquiet : ¬ b.Evicts X ethFrame) :
    (after (payloadOpt h pay b)).view X = b.view X := by
  have hadd := view_add_other b (fragmentOf h pay) hne
  generalize payloadOpt h pay b = r, payloadOpt_outcome (ipv4Packet_offset hp) pay b = ho
  cases ho with
  | whole hwhole => rfl
  | rejected hwhole hbad => exact hadd
  | kept hwhole hok hflags => exact hadd
  | @assembled hok hflags l hl hfits =>
    rw [← hadd]
    simp only [after, Buffers.view, lookup_cons_eq, if_neg hne,
      lookup_fromKey (notMem_front_of_quiet hp hflags hl hfits hquiet)]
  | misfit hok hflags hl hfits => exact hadd
  | unstored hok hflags hl =>
    rw [← hadd]
    simp only [after, Buffers.view, lookup_cons_eq, if_neg hne]

/-! ## Losing an entry

With an eviction, all another packet ID can do is to remove the stored
fragments. This needs that no packet ID is stored twice. -/

/-- No packet ID has two entries in `fragmentBuffer`. -/
def Buffers.Distinct (b : Buffers) : Prop := (keys b.fragmentBuffer).Nodup

theorem distinct_empty : Buffers.empty.Distinct := List.nodup_nil

theorem distinct_add {b : Buffers} (hb : b.Distinct) (X : PacketID) (f : Fragment) :
    (b.add X f).Distinct := by
  simp only [Buffers.add, Buffers.Distinct]
  cases hfb : b.fragmentBuffer.lookup X with
  | some l =>
    simp only [keys_assign]
    exact hb
  | none =>
    cases b.assemblingList.lookup X with
    | some a => exact hb
    | none => exact List.nodup_cons.mpr ⟨lookup_eq_none.mp hfb, hb⟩

theorem distinct_step {b : Buffers} (hb : b.Distinct) (ethFrame : Str) :
    (b.step ethFrame).1.Distinct := by
  rcases step_cases b ethFrame with hs | ⟨X, g, hs | ⟨fb, a, hs, hfb⟩⟩
  · rwa [hs]
  · rw [hs]
    exact distinct_add hb X g
  · have hadd := distinct_add hb X g
    rw [hs]
    show (keys fb).Nodup
    rcases hfb with rfl | rfl
    · exact hadd.sublist (keys_fromKey_sublist X _)
    · exact hadd

/-- The view without its stored fragments. -/
def View.lost (v : View) : View := { v with stored := .none }

/-- An eviction takes the stored fragments and leaves the old array. -/
theorem payloadOpt_view_evicted {ethFrame pay : Str} {h : IPv4.Header} {b : Buffers} {X : PacketID}
    (hb : b.Distinct) (hp : ipv4Packet ethFrame = .ok (h, pay)) (hne : X ≠ initPktID h)
    (hev : b.Evicts X ethFrame) : (after (payloadOpt h pay b)).view X = (b.view X).lost := by
  obtain ⟨h', pay', l, hp', hflags, hl, hfits, hX⟩ := hev
  rw [hp] at hp'
  cases hp'
  -- the packet is completed, and its entry is behind that of `X`
  have hadd := add_of_stored hl (fragmentOf h pay)
  have hstored : (b.add (initPktID h) (fragmentOf h pay)).fragmentBuffer.lookup
      (initPktID h) = some (fragmentOf h pay :: l) := by
    rw [hadd]
    exact lookup_assign_self (mem_keys_of_lookup hl)
  have hall : ∀ f ∈ fragmentOf h pay :: l, f.Fits (packetLength h pay) :=
    List.forall_mem_cons.mpr ⟨fits_packetLength (ipv4Packet_offset hp) pay, hfits⟩
  have hfront : X ∈ keys (front (initPktID h)
      (b.add (initPktID h) (fragmentOf h pay)).fragmentBuffer) := by
    rw [hadd]
    simpa only [keys_front_assign] using hX
  have hdistinct := distinct_add hb (initPktID h) (fragmentOf h pay)
  generalize payloadOpt h pay b = r, payloadOpt_outcome (ipv4Packet_offset hp) pay b = ho
  cases ho with
  | whole hwhole => exact absurd hwhole (not_whole hflags)
  | rejected hwhole hbad =>
    unfold Buffers.AddFails at hbad
    rw [hl] at hbad
    cases hbad.1
  | kept hwhole hok hflags' => exact absurd hflags hflags'
  | assembled hok hflags' hl' hfits' =>
    simp only [after, Buffers.view, View.lost, lookup_fromKey_of_front hdistinct hfront,
      lookup_cons_eq, if_neg hne]
    rw [hadd]
  | @misfit hok hflags' l' hl' hfits' =>
    rw [hstored] at hl'
    cases hl'
    exact absurd hall hfits'
  | unstored hok hflags' hl' =>
    rw [hstored] at hl'
    cases hl'

/-- **What a frame with another packet ID does to a view**: nothing, or it loses
the stored fragments, exactly when it evicts it. -/
theorem step_view_other {b : Buffers} (hb : b.Distinct) {X : PacketID} {ethFrame : Str}
    (hother : pktIDOf ethFrame ≠ some X) :
    (b.step ethFrame).1.view X =
      if b.Evicts X ethFrame then (b.view X).lost else b.view X := by
  cases hp : ipv4Packet ethFrame with
  | error e =>
    rw [step_error hp, if_neg]
    rintro ⟨h, pay, l, hp', -⟩
    rw [hp] at hp'
    cases hp'
  | ok r =>
    obtain ⟨h, pay⟩ := r
    have hne : X ≠ initPktID h := by
      intro hX
      exact hother (by rw [pktIDOf_ok hp, hX])
    rw [step_ok hp]
    by_cases hev : b.Evicts X ethFrame
    · rw [if_pos hev]
      exact payloadOpt_view_evicted hb hp hne hev
    · rw [if_neg hev]
      exact payloadOpt_view_other hp hne hev

/-! ## The order of the entries

New entries are pushed in front; no step puts an entry behind another one. -/

theorem front_add_other {b : Buffers} {X A C : PacketID} {f : Fragment}
    (hC : C ∈ keys b.fragmentBuffer) (hA : A ∈ keys (front C b.fragmentBuffer)) :
    A ∈ keys (front C (b.add X f).fragmentBuffer) := by
  simp only [Buffers.add]
  cases hfb : b.fragmentBuffer.lookup X with
  | some l =>
    simp only [keys_front_assign]
    exact hA
  | none =>
    cases b.assemblingList.lookup X with
    | some a => exact hA
    | none =>
      have hne : X ≠ C := fun hX => lookup_eq_none.mp hfb (hX ▸ hC)
      simp only [front_cons_ne _ _ hne, keys_cons]
      exact List.mem_cons_of_mem _ hA

/-- A step that does not evict `A` leaves it in front of what it was in front of. -/
theorem front_step {b : Buffers} {A C : PacketID} {ethFrame : Str}
    (hC : C ∈ keys b.fragmentBuffer) (hA : A ∈ keys (front C b.fragmentBuffer))
    (hquiet : ¬ b.Evicts A ethFrame) :
    A ∈ keys (front C (b.step ethFrame).1.fragmentBuffer) := by
  cases hp : ipv4Packet ethFrame with
  | error e => rwa [step_error hp]
  | ok r =>
    obtain ⟨h, pay⟩ := r
    have hadd := front_add_other (X := initPktID h) (f := fragmentOf h pay) hC hA
    rw [step_ok hp]
    generalize payloadOpt h pay b = r, payloadOpt_outcome (ipv4Packet_offset hp) pay b = ho
    cases ho with
    | whole hwhole => exact hA
    | rejected hwhole hbad => exact hadd
    | kept hwhole hok hflags => exact hadd
    | assembled hok hflags hl hfits =>
      exact mem_front_fromKey hadd (notMem_front_of_quiet hp hflags hl hfits hquiet)
    | misfit hok hflags hl hfits => exact hadd
    | unstored hok hflags hl => exact hadd

/-- The first fragment of a packet is stored in front of everything else. -/
theorem front_pushed {b : Buffers} {C : PacketID} {ethFrame pay : Str} {h : IPv4.Header}
    (hp : ipv4Packet ethFrame = .ok (h, pay)) (hflags : h.flags = 1)
    (hnone : b.view (initPktID h) = View.none) (hne : initPktID h ≠ C) :
    initPktID h ∈ keys (front C (b.step ethFrame).1.fragmentBuffer) := by
  have hfb : b.fragmentBuffer.lookup (initPktID h) = .none := congrArg View.stored hnone
  have hal : b.assemblingList.lookup (initPktID h) = .none := congrArg View.parked hnone
  rw [step_ok hp]
  generalize payloadOpt h pay b = r, payloadOpt_outcome (ipv4Packet_offset hp) pay b = ho
  cases ho with
  | whole hwhole => omega
  | rejected hwhole hbad =>
    obtain ⟨-, a, ha, -⟩ := hbad
    rw [hal] at ha
    cases ha
  | kept hwhole hok hflags' =>
    simp only [after, Buffers.add, hfb, hal, front_cons_ne _ _ hne, keys_cons]
    exact List.mem_cons_self
  | assembled hok hflags' hl hfits => omega
  | misfit hok hflags' hl hfits => omega
  | unstored hok hflags' hl => omega

/-! ## The projection -/

/-- Frames with the packet ID. -/
def ofID (X : PacketID) (ethFrame : Str) : Bool := decide (pktIDOf ethFrame = some X)

/-- Deliveries for the packet ID. -/
def forID (X : PacketID) (d : IPv4.Header × Str) : Bool := decide (initPktID d.1 = X)

theorem ofID_iff {X : PacketID} {ethFrame : Str} :
    ofID X ethFrame = true ↔ pktIDOf ethFrame = some X := decide_eq_true_iff

theorem forID_iff {X : PacketID} {d : IPv4.Header × Str} :
    forID X d = true ↔ initPktID d.1 = X := decide_eq_true_iff

/-- What is handed on has the packet ID of the frame. -/
theorem forID_of_handedOn {h : IPv4.Header} {o : Option Str} {d : IPv4.Header × Str}
    (hd : d ∈ o.toList.map fun p => (h, p)) : d.1 = h := by
  obtain ⟨p, -, rfl⟩ := List.mem_map.mp hd
  rfl

/-- What a step delivers was decoded from the frame, and handed on without an exception. -/
theorem delivered_of_step {b : Buffers} {ethFrame payload : Str} {h : IPv4.Header}
    (hstep : (b.step ethFrame).2 = [(h, payload)]) :
    ∃ pay, ipv4Packet ethFrame = .ok (h, pay) ∧
      payloadOpt h pay b = .ok (some payload) (b.step ethFrame).1 := by
  cases hp : ipv4Packet ethFrame with
  | error e =>
    rw [step_error hp] at hstep
    cases hstep
  | ok r =>
    obtain ⟨h', pay⟩ := r
    rw [step_ok hp] at hstep ⊢
    cases hr : payloadOpt h' pay b with
    | error e b' =>
      rw [hr] at hstep
      cases hstep
    | ok o b' =>
      rw [hr] at hstep
      cases o with
      | none => cases hstep
      | some p =>
        cases hstep
        exact ⟨pay, rfl, hr⟩

/-- **The buffers contain a machine for each packet ID**, undisturbed by the
others as long as none of them evicts it. -/
theorem view_projection (X : PacketID) :
    Machine.Projection Buffers.step View.step (fun b => b.view X) (ofID X) (forID X)
      (fun b f => ¬ b.Evicts X f) := by
  constructor
  case own =>
    intro b f hmine
    obtain ⟨h, pay, hp, rfl⟩ := packet_of_pktIDOf (ofID_iff.mp hmine)
    obtain ⟨hview, hout⟩ := payloadOpt_view_self (ipv4Packet_offset hp) pay b
    rw [step_ok hp, viewStep_ok hp]
    refine ⟨hview, ?_, ?_⟩
    · rw [hout]
    · intro d hd
      rw [forID_iff, forID_of_handedOn hd]
  case other =>
    intro b f hother hquiet
    rw [← Bool.not_eq_true, ofID_iff] at hother
    cases hp : ipv4Packet f with
    | error e =>
      rw [step_error hp]
      exact ⟨rfl, rfl⟩
    | ok r =>
      obtain ⟨h, pay⟩ := r
      rw [pktIDOf_ok hp, Option.some.injEq] at hother
      rw [step_ok hp]
      refine ⟨payloadOpt_view_other hp (fun hX => hother hX.symm) hquiet, ?_⟩
      refine List.filter_eq_nil_iff.mpr ?_
      intro d hd
      rw [forID_iff, forID_of_handedOn hd]
      exact hother

end Unikernel.Network
