import Unikernel.Network.Isolation

/-!
# Reusing a packet ID

A delivered packet leaves its fragments in the buffers, since `List.drop` keeps
the entry that was found. The next packet with the same ID is pushed in front of
them and assembled newest fragment first, so that the *old* fragments are
written last, over the new bytes. `View.Harmless` says exactly when that does
not matter.
-/

namespace Unikernel.Network

open Sml Overlay

variable {σ : Type}

/-- What is left in the view does not spoil a packet cut into `ps`: the stored
fragments fit it, and at each position the oldest one holds the packet's byte.
If only an old array is left, the packet is blank anyway. -/
def View.Harmless (v : View) (ps : List Str) : Prop :=
  match v.stored, v.parked with
  | some l, _ => (∀ f ∈ l, f.Fits ps.flatten.length) ∧
      ∀ i x, i < ps.flatten.length → top? (l.map Fragment.patch) i = some x →
        ps.flatten[i]? = some x
  | .none, some a => LastFits a.length 0 ps ∧ ps.flatten = blank ps.flatten.length
  | .none, .none => True

/-- The outputs of a run, by packet ID, are one delivery. -/
theorem map_delivery {X : PacketID} {h : IPv4.Header} (hX : initPktID h = X) (p : Str) :
    [(h, p)].map (fun d => (initPktID d.1, d.2)) = [(X, p)] := by
  rw [List.map_singleton, hX]

/-- What the view delivers for the frames of a packet is the packet, exactly
when the view is harmless. -/
theorem run_delivers_iff {X : PacketID} {ps fs : List Str} (hf : Fragmented X 0 ps fs) (v : View) :
    (Machine.run View.step v fs).2.map (fun d => (initPktID d.1, d.2)) = [(X, ps.flatten)] ↔
      v.Harmless ps := by
  obtain ⟨stored, parked⟩ := v
  cases stored with
  | some l =>
    -- the old fragments are copied last
    have hopen := open_of_stored (v := ⟨some l, parked⟩) rfl
    by_cases hfits : ∀ g ∈ l, g.Fits ps.flatten.length
    · obtain ⟨h, -, hX, hrun⟩ := run_open_fits hf hopen hfits
      rw [hrun, map_delivery hX, View.Harmless]
      simp only [List.cons.injEq, Prod.mk.injEq, and_true, true_and]
      rw [show View.fragments ⟨some l, parked⟩ = l from rfl, replay_eq_self_iff]
      exact (and_iff_right hfits).symm
    · rw [run_open_misfit hf hopen hfits]
      exact ⟨nofun, fun hharm => absurd hharm.1 hfits⟩
  | none =>
    cases parked with
    | none =>
      obtain ⟨h, -, hX, hrun⟩ := run_none hf
      rw [show View.mk .none .none = View.none from rfl, hrun, map_delivery hX]
      exact ⟨fun _ => trivial, fun _ => rfl⟩
    | some a =>
      -- the fragments go into the old array, and a blank packet is delivered
      obtain ⟨h, hX, hrun⟩ := run_parked (a := a) hf
      rw [hrun, View.Harmless]
      by_cases hfits : LastFits a.length 0 ps
      · rw [if_pos hfits, map_delivery hX, Nat.zero_add]
        simp only [List.cons.injEq, Prod.mk.injEq, and_true, true_and]
        exact ⟨fun hblank => ⟨hfits, hblank.symm⟩, fun hharm => hharm.2.symm⟩
      · rw [if_neg hfits]
        exact ⟨nofun, fun hharm => absurd hharm.1 hfits⟩

theorem deliveries_own {X : PacketID} {fs : List Frame}
    (hown : ∀ f ∈ fs.map Prod.snd, ofID X f = true) (s : Stack σ) :
    (handleAll s fs).deliveries = s.deliveries ++
      (Machine.run View.step (s.buffers.view X) (fs.map Prod.snd)).2.map
        fun d => (initPktID d.1, d.2) := by
  rw [Stack.deliveries, handleAll_own hown, List.map_append]
  rfl

/-- **Reuse of a packet ID**: after any run, the frames of a packet are
delivered as exactly that packet if and only if what the buffers still hold for
its ID is harmless; a whole packet with the don't-fragment flag always is. -/
theorem reuse_iff_harmless (s : Stack σ) (X : PacketID) (past : List Frame) :
    (∀ (ps : List Str) (fs : List Frame), Fragmented X 0 ps (fs.map Prod.snd) →
      ((handleAll s (past ++ fs)).deliveries =
          (handleAll s past).deliveries ++ [(X, ps.flatten)] ↔
        ((handleAll s past).buffers.view X).Harmless ps)) ∧
    (∀ (p : Str) (f : Frame), IsWhole X p f.2 →
      (handleAll s (past ++ [f])).deliveries = (handleAll s past).deliveries ++ [(X, p)]) := by
  constructor
  · intro ps fs hfs
    rw [handleAll_append, deliveries_own hfs.ofID, List.append_cancel_left_eq]
    exact run_delivers_iff hfs _
  · intro p f hf
    obtain ⟨h, -, hX, hstep⟩ := step_whole (v := (handleAll s past).buffers.view X) hf
    rw [handleAll_append, deliveries_own (by simpa using hf.ofID)]
    rw [List.map_singleton, Machine.run_cons, hstep, Machine.run_nil, List.append_nil,
      map_delivery hX]

/-- Another packet with the ID of `halves 1`, not fragmented. -/
def reused : Frame :=
  sampleFrame 1 0 0 [0, 7, 31, 144, 0, 16, 0, 0, 119, 111, 114, 108, 100, 46, 46, 46]

/-- The two halves of a packet again, after themselves. -/
theorem reuse_iff_harmless_halves :
    (handleAll (Stack.init ()) (halves 1 ++ halves 1)).deliveries =
        (handleAll (Stack.init ()) (halves 1)).deliveries ++
          [(sampleID 1, [[0, 7, 31, 144, 0, 16, 0, 0],
            [104, 101, 108, 108, 111, 33, 33, 33]].flatten)] ↔
      ((handleAll (Stack.init ()) (halves 1)).buffers.view (sampleID 1)).Harmless
        [[0, 7, 31, 144, 0, 16, 0, 0], [104, 101, 108, 108, 111, 33, 33, 33]] :=
  (reuse_iff_harmless (Stack.init ()) (sampleID 1) (halves 1)).1 _ _
    (.more (by decide +kernel) (.last (by decide +kernel)))

/-- The second packet with an ID is delivered with the bytes of the first. -/
theorem reused_not_delivered :
    Fragmented (sampleID 1) 0
      [[0, 7, 31, 144, 0, 16, 0, 0, 119, 111, 114, 108, 100, 46, 46, 46]] [reused.2] ∧
    (handleAll (Stack.init ()) (halves 1)).deliveries =
      [(sampleID 1, [0, 7, 31, 144, 0, 16, 0, 0, 104, 101, 108, 108, 111, 33, 33, 33])] ∧
    (handleAll (Stack.init ()) (halves 1 ++ [reused])).deliveries =
      [(sampleID 1, [0, 7, 31, 144, 0, 16, 0, 0, 104, 101, 108, 108, 111, 33, 33, 33]),
        (sampleID 1, [0, 7, 31, 144, 0, 16, 0, 0, 104, 101, 108, 108, 111, 33, 33, 33])] := by
  refine ⟨.last (by decide +kernel), ?_, ?_⟩
  · rw [Stack.deliveries, (fresh_init ()).dispatched_run]
    decide +kernel
  · rw [Stack.deliveries, (fresh_init ()).dispatched_run]
    decide +kernel

end Unikernel.Network
