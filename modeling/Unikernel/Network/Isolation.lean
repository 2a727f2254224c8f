import Unikernel.Network.Datagram

/-!
# Isolation between packet IDs

What is delivered for a packet ID should depend on the frames with that ID
only. `List.drop` breaks this: completing one packet drops the entries in front
of it, whoever they belong to (`Buffers.Evicts`). In runs where no step evicts
the packet ID, its deliveries are a function of its own frames; with evictions,
another sender can destroy them.
-/

namespace Unikernel.Network

open Sml

variable {σ : Type}

/-- No frame of the run evicts `X`. -/
def Undisturbed (X : PacketID) (b : Buffers) (fs : List Frame) : Prop :=
  Machine.Along Buffers.step (fun b f => ¬ b.Evicts X f) b (fs.map Prod.snd)

instance (X : PacketID) (b : Buffers) (fs : List Frame) : Decidable (Undisturbed X b fs) :=
  inferInstanceAs (Decidable (Machine.Along ..))

/-- A stack with empty buffers that has delivered nothing. -/
structure Stack.Fresh (s : Stack σ) : Prop where
  buffers : s.buffers = .empty
  dispatched : s.dispatched = []

theorem fresh_init (app : σ) : (Stack.init app).Fresh := ⟨rfl, rfl⟩

theorem Stack.Fresh.dispatched_run {s : Stack σ} (hs : s.Fresh) (fs : List Frame) :
    (handleAll s fs).dispatched = (Machine.run Buffers.step .empty (fs.map Prod.snd)).2 := by
  rw [handleAll_dispatched, hs.buffers, hs.dispatched, List.nil_append]

/-- **Isolation**: in runs that do not evict `X`, the payloads delivered for `X`
are determined by the frames with that packet ID. -/
theorem deliveries_isolated (X : PacketID) (s t : Stack σ) (hs : s.Fresh) (ht : t.Fresh)
    (fs gs : List Frame)
    (hsame : (fs.map Prod.snd).filter (ofID X) = (gs.map Prod.snd).filter (ofID X))
    (hfs : Undisturbed X .empty fs) (hgs : Undisturbed X .empty gs) :
    (handleAll s fs).deliveriesFor X = (handleAll t gs).deliveriesFor X := by
  have hout := (view_projection X).noninterference rfl hsame hfs hgs
  rw [Stack.deliveriesFor, Stack.deliveriesFor, hs.dispatched_run, ht.dispatched_run, hout]

/-- A UDP packet with eight bytes of data, in two fragments. -/
def halves (ident : UInt8) : List Frame :=
  [sampleFrame ident 1 0 [0, 7, 31, 144, 0, 16, 0, 0],
    sampleFrame ident 0 1 [104, 101, 108, 108, 111, 33, 33, 33]]

/-- The second packet inside the first: nothing is evicted that still matters. -/
def nested : List Frame := (halves 1).take 1 ++ halves 2 ++ (halves 1).drop 1

/-- The first packet is completed while the second one is in progress. -/
def crossing : List Frame :=
  (halves 1).take 1 ++ (halves 2).take 1 ++ (halves 1).drop 1 ++ (halves 2).drop 1

/-- Nesting the second packet does not change what is delivered for the first. -/
theorem deliveries_isolated_nested :
    (handleAll (Stack.init ()) (halves 1)).deliveriesFor (sampleID 1) =
      (handleAll (Stack.init ()) nested).deliveriesFor (sampleID 1) :=
  deliveries_isolated (sampleID 1) _ _ (fresh_init ()) (fresh_init ()) _ _ (by decide +kernel)
    (by decide +kernel) (by decide +kernel)

/-- The frames of packet 2 are the same in both runs, but in the second its
entry is dropped when packet 1 is completed, and it is delivered with zeros. -/
theorem crossing_not_isolated :
    (halves 2).map Prod.snd = (crossing.map Prod.snd).filter (ofID (sampleID 2)) ∧
    (handleAll (Stack.init ()) (halves 2)).deliveriesFor (sampleID 2) ≠
      (handleAll (Stack.init ()) crossing).deliveriesFor (sampleID 2) := by
  refine ⟨by decide +kernel, ?_⟩
  rw [Stack.deliveriesFor, Stack.deliveriesFor, (fresh_init ()).dispatched_run,
    (fresh_init ()).dispatched_run]
  decide +kernel

end Unikernel.Network
