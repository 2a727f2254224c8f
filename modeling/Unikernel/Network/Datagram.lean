import Unikernel.Network.StackLemmas

/-!
# Datagrams in fragments

How a sender puts a payload on the wire, and what the view of its packet ID
makes of the frames.

- `Fragmented X k pieces frames`: the frames carry the pieces of a packet with
  ID `X`, in order, at the offsets where they belong; all but the last have the
  more-fragments flag, the last one has none.
- `IsWhole`: an unfragmented packet with the don't-fragment flag.
- `run_open`, `run_parked`: the frames of a fragmented packet, one after the
  other, starting from *any* view. `assembled_replay` says what is delivered:
  the payload, with the older fragments of that packet ID replayed over it.
-/

namespace Unikernel.Network

open Sml Overlay Keyed

/-- The frame carries `piece`, the bytes from `k` on of a packet with ID `X`. -/
def IsFragment (X : PacketID) (k : Nat) (piece : Str) (more : Bool) (ethFrame : Str) : Prop :=
  ∃ h : IPv4.Header, ipv4Packet ethFrame = .ok (h, piece) ∧ initPktID h = X ∧
    h.fragmentOffset * 8 = k ∧ h.flags = if more then 1 else 0

/-- The frame carries a whole packet that must not be fragmented. -/
def IsWhole (X : PacketID) (payload ethFrame : Str) : Prop :=
  ∃ h : IPv4.Header, ipv4Packet ethFrame = .ok (h, payload) ∧ initPktID h = X ∧
    h.fragmentOffset = 0 ∧ h.flags = 2

instance (X : PacketID) (k : Nat) (piece : Str) (more : Bool) (ethFrame : Str) :
    Decidable (IsFragment X k piece more ethFrame) :=
  match hp : ipv4Packet ethFrame with
  | .error e => isFalse fun ⟨h, hp', _⟩ => by rw [hp] at hp'; cases hp'
  | .ok (h, pay) =>
    decidable_of_iff (pay = piece ∧ initPktID h = X ∧ h.fragmentOffset * 8 = k ∧
        h.flags = if more then 1 else 0)
      ⟨fun ⟨hpay, hrest⟩ => ⟨h, hpay ▸ hp, hrest⟩, fun ⟨h', hp', hrest⟩ => by
        rw [hp] at hp'
        cases hp'
        exact ⟨rfl, hrest⟩⟩

/-- The frames carry consecutive pieces of a packet with ID `X`, from byte `k` to its end. -/
inductive Fragmented (X : PacketID) : Nat → List Str → List Str → Prop where
  | last {k : Nat} {p f : Str} (hf : IsFragment X k p false f) : Fragmented X k [p] [f]
  | more {k : Nat} {p f : Str} {ps fs : List Str} (hf : IsFragment X k p true f)
      (hfs : Fragmented X (k + p.length) ps fs) : Fragmented X k (p :: ps) (f :: fs)

/-- The stored form of consecutive pieces. -/
def fragmentsAt : Nat → List Str → List Fragment
  | _, [] => []
  | k, p :: ps => ⟨p, (k / 8 : Nat)⟩ :: fragmentsAt (k + p.length) ps

/-- Every piece starts at a multiple of eight bytes. -/
def Aligned : Nat → List Str → Prop
  | _, [] => True
  | k, p :: ps => 8 ∣ k ∧ Aligned (k + p.length) ps

/-! ## Frames -/

variable {X : PacketID} {k n : Nat} {p f : Str} {ps fs : List Str} {more : Bool} {v : View}

theorem IsFragment.dvd (hf : IsFragment X k p more f) : 8 ∣ k := by
  obtain ⟨h, -, -, hoff, -⟩ := hf
  omega

theorem IsFragment.ofID (hf : IsFragment X k p more f) : ofID X f = true := by
  obtain ⟨h, hp, hX, -⟩ := hf
  rw [ofID_iff, pktIDOf_ok hp, hX]

theorem IsWhole.ofID (hf : IsWhole X p f) : Network.ofID X f = true := by
  obtain ⟨h, hp, hX, -⟩ := hf
  rw [ofID_iff, pktIDOf_ok hp, hX]

theorem fragmentOf_eq {h : IPv4.Header} (hoff : h.fragmentOffset * 8 = k) (p : Str) :
    fragmentOf h p = ⟨p, (k / 8 : Nat)⟩ := by
  have hk : h.fragmentOffset = (k / 8 : Nat) := by omega
  unfold fragmentOf
  rw [hk]

theorem packetLength_eq {h : IPv4.Header} (hoff : h.fragmentOffset * 8 = k) (p : Str) :
    packetLength h p = k + p.length := by
  unfold packetLength
  rw [hoff]
  omega

theorem Fragmented.aligned (hf : Fragmented X k ps fs) : Aligned k ps := by
  induction hf with
  | last hf => exact ⟨hf.dvd, trivial⟩
  | more hf _ ih => exact ⟨hf.dvd, ih⟩

theorem Fragmented.ofID (hf : Fragmented X k ps fs) : ∀ f ∈ fs, ofID X f = true := by
  induction hf with
  | last hf => simpa using hf.ofID
  | more hf _ ih => exact List.forall_mem_cons.mpr ⟨hf.ofID, ih⟩

theorem Fragmented.isFragment (hf : Fragmented X k ps fs) (hmem : f ∈ fs) :
    ∃ k p more, IsFragment X k p more f := by
  induction hf with
  | last hf =>
    rw [List.mem_singleton.mp hmem]
    exact ⟨_, _, _, hf⟩
  | more hf _ ih =>
    rcases List.mem_cons.mp hmem with rfl | hmem
    · exact ⟨_, _, _, hf⟩
    · exact ih hmem

theorem Fragmented.ne_nil (hf : Fragmented X k ps fs) : ps ≠ [] := by
  cases hf with
  | last hf => exact List.cons_ne_nil _ _
  | more hf hfs => exact List.cons_ne_nil _ _

theorem Fragmented.length_eq (hf : Fragmented X k ps fs) : fs.length = ps.length := by
  induction hf with
  | last hf => rfl
  | more hf _ ih => rw [List.length_cons, List.length_cons, ih]

/-- A frame from `10.0.0.1`: one UDP packet or fragment, with a small
identification, the flags and the offset given as bytes. -/
def sampleFrame (ident flags block : UInt8) (piece : Str) : Frame :=
  (⟨.ipv4, [123, 124, 125, 126, 127, 128], [2, 0, 0, 0, 0, 1]⟩,
    [123, 124, 125, 126, 127, 128, 2, 0, 0, 0, 0, 1, 8, 0] ++
    ([69, 0, 0, 20 + UInt8.ofNat piece.length, 0, ident, 32 * flags, block, 64, 17, 0, 0,
      10, 0, 0, 1, 10, 0, 0, 2] ++ piece))

/-- The packet ID of a sample frame. -/
def sampleID (ident : Int) : PacketID := ⟨[10, 0, 0, 1], ident, .udp⟩

/-- One of the frames of a packet, and the piece it carries. -/
theorem Fragmented.split {fs₁ fs₂ : List Str} (hf : Fragmented X k ps (fs₁ ++ f :: fs₂)) :
    ∃ ps₁ p ps₂, ps = ps₁ ++ p :: ps₂ ∧ ps₁.length = fs₁.length ∧ (ps₂ = [] ↔ fs₂ = []) ∧
      IsFragment X (k + ps₁.flatten.length) p (decide (fs₂ ≠ [])) f := by
  induction fs₁ generalizing k ps with
  | nil =>
    cases hf with
    | last hf => exact ⟨[], _, [], rfl, rfl, Iff.rfl, by simpa using hf⟩
    | @more _ p _ ps' _ hf hfs =>
      have hne : fs₂ ≠ [] := by
        cases hfs with
        | last => exact List.cons_ne_nil _ _
        | more => exact List.cons_ne_nil _ _
      exact ⟨[], p, ps', rfl, rfl, iff_of_false hfs.ne_nil hne, by simpa [hne] using hf⟩
  | cons g fs₁ ih =>
    cases h : fs₁ ++ f :: fs₂ with
    | nil => simp at h
    | cons g' gs =>
      rw [List.cons_append, h] at hf
      cases hf with
      | @more _ p _ ps' _ hf hfs =>
        rw [← h] at hfs
        obtain ⟨ps₁, q, ps₂, rfl, hlen, hnil, hq⟩ := ih hfs
        refine ⟨p :: ps₁, q, ps₂, rfl, by simp [hlen], hnil, ?_⟩
        rwa [List.flatten_cons, List.length_append, ← Nat.add_assoc]

/-! ## Stored pieces -/

theorem fragmentsAt_append (k : Nat) (ps qs : List Str) :
    fragmentsAt k (ps ++ qs) = fragmentsAt k ps ++ fragmentsAt (k + ps.flatten.length) qs := by
  induction ps generalizing k with
  | nil => rfl
  | cons p ps ih => simp [fragmentsAt, ih, Nat.add_assoc]

theorem fragmentsAt_snoc (k : Nat) (ps : List Str) (p : Str) :
    fragmentsAt k (ps ++ [p]) =
      fragmentsAt k ps ++ [⟨p, ((k + ps.flatten.length) / 8 : Nat)⟩] := by
  rw [fragmentsAt_append]
  rfl

/-- A stored piece is the patch it was cut from. -/
theorem patch_piece (hk : 8 ∣ k) (p : Str) : Fragment.patch ⟨p, (k / 8 : Nat)⟩ = ⟨k, p⟩ := by
  have hstart : (((k / 8 : Nat) : Int) * 8).toNat = k := by omega
  rw [Fragment.patch, hstart]

theorem fits_piece (hn : k + p.length ≤ n) : Fragment.Fits n ⟨p, (k / 8 : Nat)⟩ := by
  refine .inr ⟨?_, ?_⟩
  · show 0 ≤ ((k / 8 : Nat) : Int) * 8
    omega
  · show ((k / 8 : Nat) : Int) * 8 + p.length ≤ n
    omega

/-- Stored pieces are the patches the payload is cut into. -/
theorem map_patch_fragmentsAt (ha : Aligned k ps) :
    (fragmentsAt k ps).map Fragment.patch = pieces k ps := by
  induction ps generalizing k with
  | nil => rfl
  | cons p ps ih =>
    obtain ⟨hk, ha⟩ := ha
    rw [fragmentsAt, List.map_cons, ih ha, patch_piece hk]
    rfl

theorem fits_of_mem_fragmentsAt {g : Fragment} (hg : g ∈ fragmentsAt k ps)
    (hn : k + ps.flatten.length ≤ n) : g.Fits n := by
  induction ps generalizing k with
  | nil => cases hg
  | cons p ps ih =>
    rw [List.flatten_cons, List.length_append] at hn
    rcases List.mem_cons.mp hg with rfl | hg
    · exact fits_piece (by omega)
    · exact ih hg (by omega)

/-- **What a packet in pieces is assembled to**: its payload, with the older
fragments replayed over it. -/
theorem assembled_replay (ha : Aligned 0 ps) (old : List Fragment) :
    assembled ps.flatten.length ((fragmentsAt 0 ps).reverse ++ old) =
      replay ps.flatten (old.map Fragment.patch) := by
  -- the packet's own pieces are newest, so they are copied first
  have hown : replay (blank ps.flatten.length) (pieces 0 ps).reverse = ps.flatten :=
    replay_pieces (length_blank _) fun _ => List.mem_reverse
  rw [assembled, List.map_append, List.map_reverse, map_patch_fragmentsAt ha, replay_append, hown]

/-! ## One fragment -/

/-- New fragments for the packet ID are stored: it was not assembled before, or
its entry is still there. -/
def View.Open (v : View) : Prop := v.stored = .none → v.parked = .none

/-- The stored fragments, newest first. -/
def View.fragments (v : View) : List Fragment := v.stored.getD []

theorem open_none : View.none.Open := fun _ => rfl

theorem open_of_stored {l : List Fragment} (hl : v.stored = some l) : v.Open := by
  intro hnone
  rw [hl] at hnone
  cases hnone

theorem add_open (hv : v.Open) (g : Fragment) :
    v.add g = ⟨some (g :: v.fragments), v.parked⟩ ∧ v.addFails g = false := by
  obtain ⟨stored, parked⟩ := v
  cases stored with
  | some l => exact ⟨rfl, rfl⟩
  | none =>
    obtain rfl : parked = .none := hv rfl
    exact ⟨rfl, rfl⟩

/-- What is stored after adding a fragment: it, in front of the others. -/
theorem stored_add {g : Fragment} {l : List Fragment} (hl : (v.add g).stored = some l) :
    l = g :: v.fragments := by
  obtain ⟨stored, parked⟩ := v
  cases stored with
  | some l' =>
    cases hl
    rfl
  | none =>
    cases parked with
    | some a => cases hl
    | none =>
      cases hl
      rfl

/-- If it is not stored, nothing is. -/
theorem unstored_add {g : Fragment} (hl : (v.add g).stored = .none) : v.fragments = [] := by
  obtain ⟨stored, parked⟩ := v
  cases stored with
  | some l => cases hl
  | none => rfl

/-- A fragment with others to come is stored. -/
theorem step_more (hv : v.Open) (hf : IsFragment X k p true f) :
    v.step f = (⟨some (⟨p, (k / 8 : Nat)⟩ :: v.fragments), v.parked⟩, []) := by
  obtain ⟨h, hp, -, hoff, hflags⟩ := hf
  obtain ⟨hadd, hok⟩ := add_open hv (fragmentOf h p)
  simp only [if_true] at hflags
  rw [viewStep_ok hp, View.receive_kept (by omega) (by simp [hok]) (by omega), hadd,
    fragmentOf_eq hoff]
  rfl

/-- The last fragment completes the packet, if the stored fragments fit. -/
theorem step_last (hv : v.Open) (hf : IsFragment X k p false f) :
    ∃ h, ipv4Packet f = .ok (h, p) ∧ initPktID h = X ∧
      v.step f = (((View.mk (some (⟨p, (k / 8 : Nat)⟩ :: v.fragments)) v.parked).complete
          (k + p.length)).1,
        ((View.mk (some (⟨p, (k / 8 : Nat)⟩ :: v.fragments)) v.parked).complete
          (k + p.length)).2.toList.map fun q => (h, q)) := by
  obtain ⟨h, hp, hX, hoff, hflags⟩ := hf
  obtain ⟨hadd, hok⟩ := add_open hv (fragmentOf h p)
  refine ⟨h, hp, hX, ?_⟩
  rw [viewStep_ok hp, View.receive_last (by simp [hok]) hflags, hadd, fragmentOf_eq hoff,
    packetLength_eq hoff]

/-- A view stays open under fragments. -/
theorem step_open (hv : v.Open) (hf : IsFragment X k p more f) : (v.step f).1.Open := by
  cases more with
  | true =>
    rw [step_more hv hf]
    exact open_of_stored rfl
  | false =>
    obtain ⟨h, -, -, hstep⟩ := step_last hv hf
    rw [hstep]
    by_cases hfits : ∀ g ∈ (⟨p, (k / 8 : Nat)⟩ : Fragment) :: v.fragments, g.Fits (k + p.length)
    · rw [View.complete_fits rfl hfits]
      exact open_of_stored rfl
    · rw [View.complete_misfit rfl hfits]
      exact open_of_stored rfl

/-- A whole packet is handed on as it is. -/
theorem step_whole (hf : IsWhole X p f) :
    ∃ h, ipv4Packet f = .ok (h, p) ∧ initPktID h = X ∧ v.step f = (v, [(h, p)]) := by
  obtain ⟨h, hp, hX, hwhole⟩ := hf
  refine ⟨h, hp, hX, ?_⟩
  rw [viewStep_ok hp, View.receive_whole hwhole]
  rfl

/-! ## A packet in progress -/

/-- The view when the pieces `ps` of a packet have arrived, and nothing else. -/
def holding : List Str → View
  | [] => View.none
  | p :: ps => ⟨some (fragmentsAt 0 (p :: ps)).reverse, .none⟩

theorem holding_open (ps : List Str) : (holding ps).Open := by
  cases ps with
  | nil => exact open_none
  | cons p ps => exact open_of_stored rfl

theorem holding_fragments (ps : List Str) :
    (holding ps).fragments = (fragmentsAt 0 ps).reverse := by
  cases ps with
  | nil => rfl
  | cons p ps => rfl

theorem holding_parked (ps : List Str) : (holding ps).parked = .none := by
  cases ps with
  | nil => rfl
  | cons p ps => rfl

theorem holding_snoc (ps : List Str) (p : Str) :
    holding (ps ++ [p]) =
      ⟨some (⟨p, (ps.flatten.length / 8 : Nat)⟩ :: (fragmentsAt 0 ps).reverse), .none⟩ := by
  have hsnoc := fragmentsAt_snoc 0 ps p
  rw [Nat.zero_add] at hsnoc
  obtain ⟨q, qs, hq⟩ := List.exists_cons_of_ne_nil (List.append_ne_nil_of_right_ne_nil ps
    (List.cons_ne_nil p []))
  rw [hq] at hsnoc ⊢
  rw [holding, hsnoc, List.reverse_append]
  rfl

/-- The next piece is added to those that arrived. -/
theorem holding_step (hf : IsFragment X ps.flatten.length p true f) :
    (holding ps).step f = (holding (ps ++ [p]), []) := by
  rw [step_more (holding_open ps) hf, holding_fragments, holding_parked, holding_snoc]

/-- **The last piece** completes the packet. -/
theorem holding_last (ha : Aligned 0 (ps ++ [p])) (hf : IsFragment X ps.flatten.length p false f) :
    ∃ h, initPktID h = X ∧ ((holding ps).step f).2 = [(h, (ps ++ [p]).flatten)] := by
  obtain ⟨h, -, hX, hstep⟩ := step_last (holding_open ps) hf
  refine ⟨h, hX, ?_⟩
  have hlen : ps.flatten.length + p.length = (ps ++ [p]).flatten.length := by simp
  have hfrags : (⟨p, (ps.flatten.length / 8 : Nat)⟩ : Fragment) :: (holding ps).fragments =
      (fragmentsAt 0 (ps ++ [p])).reverse ++ [] := by
    rw [holding_fragments, fragmentsAt_snoc, Nat.zero_add, List.reverse_append, List.append_nil]
    rfl
  have hfits : ∀ g ∈ (fragmentsAt 0 (ps ++ [p])).reverse ++ [],
      g.Fits (ps ++ [p]).flatten.length := by
    intro g hg
    rw [List.append_nil] at hg
    exact fits_of_mem_fragmentsAt (List.mem_reverse.mp hg) (by omega)
  rw [hstep, hlen, hfrags, View.complete_fits rfl hfits, assembled_replay ha]
  rfl

/-! ## All fragments of a packet -/

/-- **The frames of a packet** are stored, and the last one completes it. -/
theorem run_open (hf : Fragmented X k ps fs) (hv : v.Open) :
    ∃ h, (∃ f ∈ fs, ∃ p, ipv4Packet f = .ok (h, p)) ∧ initPktID h = X ∧
      Machine.run View.step v fs =
        (((View.mk (some ((fragmentsAt k ps).reverse ++ v.fragments)) v.parked).complete
            (k + ps.flatten.length)).1,
          ((View.mk (some ((fragmentsAt k ps).reverse ++ v.fragments)) v.parked).complete
            (k + ps.flatten.length)).2.toList.map fun q => (h, q)) := by
  induction hf generalizing v with
  | @last k p f hf =>
    obtain ⟨h, hp, hX, hstep⟩ := step_last hv hf
    refine ⟨h, ⟨f, List.mem_singleton_self f, p, hp⟩, hX, ?_⟩
    rw [Machine.run_cons, hstep, Machine.run_nil]
    simp [fragmentsAt]
  | @more k p f ps fs hf hfs ih =>
    -- from now on something is stored, so the view stays open
    have hstep := step_more hv hf
    obtain ⟨h, ⟨g, hg, hp⟩, hX, hrun⟩ := ih (open_of_stored (v := (v.step f).1) (by rw [hstep]))
    refine ⟨h, ⟨g, List.mem_cons_of_mem _ hg, hp⟩, hX, ?_⟩
    rw [Machine.run_cons, hrun, hstep]
    simp [fragmentsAt, View.fragments, Nat.add_assoc]

/-- When the older fragments fit, the packet is delivered under them. -/
theorem run_open_fits (hf : Fragmented X 0 ps fs) (hv : v.Open)
    (hfits : ∀ g ∈ v.fragments, g.Fits ps.flatten.length) :
    ∃ h, (∃ f ∈ fs, ∃ p, ipv4Packet f = .ok (h, p)) ∧ initPktID h = X ∧
      (Machine.run View.step v fs).2 =
        [(h, replay ps.flatten (v.fragments.map Fragment.patch))] := by
  obtain ⟨h, hp, hX, hrun⟩ := run_open hf hv
  refine ⟨h, hp, hX, ?_⟩
  have hall : ∀ g ∈ (fragmentsAt 0 ps).reverse ++ v.fragments, g.Fits ps.flatten.length := by
    intro g hg
    rcases List.mem_append.mp hg with hg | hg
    · exact fits_of_mem_fragmentsAt (List.mem_reverse.mp hg) (by omega)
    · exact hfits g hg
  rw [hrun, Nat.zero_add, View.complete_fits rfl hall, assembled_replay hf.aligned]
  rfl

/-- When one of the older fragments does not fit, nothing is delivered. -/
theorem run_open_misfit (hf : Fragmented X 0 ps fs) (hv : v.Open)
    (hfits : ¬ ∀ g ∈ v.fragments, g.Fits ps.flatten.length) :
    (Machine.run View.step v fs).2 = [] := by
  obtain ⟨h, -, -, hrun⟩ := run_open hf hv
  rw [hrun, Nat.zero_add, View.complete_misfit rfl]
  · rfl
  · exact fun hall => hfits fun g hg => hall g (List.mem_append_right _ hg)

/-- Until the last frame, nothing is delivered. -/
theorem Fragmented.exists_last (hf : Fragmented X k ps fs) :
    ∃ init last, fs = init ++ [last] ∧
      ∀ v : View, v.Open → (Machine.run View.step v init).2 = [] := by
  induction hf with
  | @last k p f hf => exact ⟨[], f, rfl, fun v _ => rfl⟩
  | @more k p f ps fs hf hfs ih =>
    obtain ⟨init, last, rfl, hquiet⟩ := ih
    refine ⟨f :: init, last, rfl, ?_⟩
    intro v hv
    have hstep := step_more hv hf
    rw [Machine.run_cons, hquiet _ (open_of_stored (v := (v.step f).1) (by rw [hstep])), hstep]
    rfl

/-- **A packet with a new ID** is delivered unchanged. -/
theorem run_none (hf : Fragmented X 0 ps fs) :
    ∃ h, (∃ f ∈ fs, ∃ p, ipv4Packet f = .ok (h, p)) ∧ initPktID h = X ∧
      (Machine.run View.step View.none fs).2 = [(h, ps.flatten)] :=
  run_open_fits hf open_none fun g hg => by cases hg

/-! ## Fragments written into an old array -/

/-- While an old array is parked and nothing is stored, fragments are written
into it, and the last one hands a blank packet on. -/
theorem step_parked {a : CharArray} (hf : IsFragment X k p more f) :
    ∃ h a', initPktID h = X ∧ a'.length = a.length ∧
      ((View.mk .none (some a)).step f).2 =
        (if more = false ∧ CopyFits a.length (k / 8 : Nat) p then [(h, blank (k + p.length))]
          else []) ∧
      (more = true → ((View.mk .none (some a)).step f).1 = ⟨.none, some a'⟩) := by
  obtain ⟨h, hp, hX, hoff, hflags⟩ := hf
  refine ⟨h, write a ⟨((k / 8 : Nat) : Int).toNat, p⟩, hX, length_write _ _, ?_⟩
  have hfail : (View.mk .none (some a)).addFails (fragmentOf h p) = true ↔
      ¬ CopyFits a.length (k / 8 : Nat) p := by
    rw [fragmentOf_eq hoff, View.addFails, Bool.not_eq_true', decide_eq_false_iff_not]
  have hadd : (View.mk .none (some a)).add (fragmentOf h p) =
      ⟨.none, some (write a ⟨((k / 8 : Nat) : Int).toNat, p⟩)⟩ := by
    rw [fragmentOf_eq hoff]
    rfl
  rw [viewStep_ok hp]
  cases more with
  | true =>
    -- the copy may fail, but the array keeps its length either way
    simp only [if_true] at hflags
    have hwhole : ¬ (h.fragmentOffset = 0 ∧ h.flags = 2) := by omega
    rw [if_neg (by simp)]
    by_cases hfits : CopyFits a.length (k / 8 : Nat) p
    · rw [View.receive_kept hwhole (fun hbad => hfail.mp hbad hfits) (by omega), hadd]
      exact ⟨rfl, fun _ => rfl⟩
    · rw [View.receive_rejected hwhole (hfail.mpr hfits), hadd]
      exact ⟨rfl, fun _ => rfl⟩
  | false =>
    by_cases hfits : CopyFits a.length (k / 8 : Nat) p
    · rw [View.receive_last (fun hbad => hfail.mp hbad hfits) hflags, hadd,
        View.complete_unstored rfl, packetLength_eq hoff, if_pos ⟨rfl, hfits⟩]
      exact ⟨rfl, fun hmore => absurd hmore Bool.false_ne_true⟩
    · rw [View.receive_rejected (not_whole hflags) (hfail.mpr hfits),
        if_neg fun hlast => hfits hlast.2]
      exact ⟨rfl, fun hmore => absurd hmore Bool.false_ne_true⟩

/-- The last fragment of a packet cut into `ps` can be copied to its unscaled
offset in an array of `m` bytes. -/
def LastFits (m : Nat) : Nat → List Str → Prop
  | _, [] => True
  | k, [p] => CopyFits m (k / 8 : Nat) p
  | k, p :: ps => LastFits m (k + p.length) ps

instance decidableLastFits (m : Nat) : ∀ (k : Nat) (ps : List Str), Decidable (LastFits m k ps)
  | _, [] => inferInstanceAs (Decidable True)
  | _, [_] => inferInstanceAs (Decidable (CopyFits _ _ _))
  | k, p :: q :: ps => decidableLastFits m (k + p.length) (q :: ps)

/-- **The frames of a packet over an old array**: a blank packet of its length,
or nothing. -/
theorem run_parked {a : CharArray} (hf : Fragmented X k ps fs) :
    ∃ h, initPktID h = X ∧ (Machine.run View.step ⟨.none, some a⟩ fs).2 =
      if LastFits a.length k ps then [(h, blank (k + ps.flatten.length))] else [] := by
  induction hf generalizing a with
  | @last k p f hf =>
    obtain ⟨h, -, hX, -, hout, -⟩ := step_parked (a := a) hf
    refine ⟨h, hX, ?_⟩
    rw [Machine.run_cons, Machine.run_nil, List.append_nil, hout]
    simp [LastFits]
  | @more k p f ps fs hf hfs ih =>
    obtain ⟨_, a', -, hlen, hout, hview⟩ := step_parked (a := a) hf
    obtain ⟨h, hX, hrun⟩ := ih (a := a')
    refine ⟨h, hX, ?_⟩
    have hcons : LastFits a.length k (p :: ps) ↔ LastFits a'.length (k + p.length) ps := by
      obtain ⟨q, qs, rfl⟩ := List.exists_cons_of_ne_nil hfs.ne_nil
      rw [hlen]
      rfl
    rw [Machine.run_cons, hview rfl, hrun, hout]
    simp [hcons, Nat.add_assoc]

end Unikernel.Network
