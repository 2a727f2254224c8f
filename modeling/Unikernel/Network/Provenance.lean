import Unikernel.Network.Isolation

/-!
# Where delivered bytes come from

Delivery is triggered by a last fragment alone, and the packet array starts out
as zeros; nothing checks that the fragments cover it. So a delivered byte is one
that a frame with the packet ID carried at that position, or a zero.

- `sourced_run`: whatever is stored for a packet ID was received with it, in
  every run.
- `stored_exactly`: as long as nothing evicts the packet ID, all its fragments
  are stored, so that zeros appear only where no fragment was received.
-/

namespace Unikernel.Network

open Sml Overlay

variable {σ : Type}

/-- The fragment that a frame contributes to packet ID `X`. -/
def fragmentFrom (X : PacketID) (ethFrame : Str) : Option Fragment :=
  match ipv4Packet ethFrame with
  | .error _ => .none
  | .ok (h, pay) =>
    if initPktID h = X ∧ ¬ (h.fragmentOffset = 0 ∧ h.flags = 2) then some (fragmentOf h pay)
    else .none

/-- The fragments with packet ID `X` among the frames. -/
def fragmentsOf (X : PacketID) (fs : List Str) : List Fragment := fs.filterMap (fragmentFrom X)

/-- The frame has packet ID `X` and carries the byte `x` at position `i` of the packet. -/
def CarriedBy (X : PacketID) (i : Nat) (x : UInt8) (ethFrame : Str) : Prop :=
  ∃ h pay j, ipv4Packet ethFrame = .ok (h, pay) ∧ initPktID h = X ∧
    (i : Int) = h.fragmentOffset * 8 + (j : Nat) ∧ pay[j]? = some x

/-- The fragment covers position `i` of its packet. -/
def Fragment.Covers (i : Nat) (g : Fragment) : Prop :=
  g.offset * 8 ≤ i ∧ (i : Int) < g.offset * 8 + g.data.length

section

variable {X : PacketID} {h : IPv4.Header} {pay f : Str} {fs : List Str} {v : View} {n : Nat}

theorem fragmentFrom_ok (hp : ipv4Packet f = .ok (h, pay)) (hX : initPktID h = X)
    (hwhole : ¬ (h.fragmentOffset = 0 ∧ h.flags = 2)) :
    fragmentFrom X f = some (fragmentOf h pay) := by
  simp only [fragmentFrom, hp, if_pos (And.intro hX hwhole)]

theorem fragmentFrom_whole (hp : ipv4Packet f = .ok (h, pay))
    (hwhole : h.fragmentOffset = 0 ∧ h.flags = 2) : fragmentFrom X f = .none := by
  simp only [fragmentFrom, hp]
  exact if_neg fun hfrag => hfrag.2 hwhole

theorem fragmentFrom_other (hother : pktIDOf f ≠ some X) : fragmentFrom X f = .none := by
  cases hp : ipv4Packet f with
  | error e => simp only [fragmentFrom, hp]
  | ok r =>
    obtain ⟨h, pay⟩ := r
    rw [pktIDOf_ok hp] at hother
    simp only [fragmentFrom, hp]
    exact if_neg fun hfrag => hother (congrArg some hfrag.1)

theorem fragmentsOf_snoc (X : PacketID) (fs : List Str) (f : Str) :
    fragmentsOf X (fs ++ [f]) = fragmentsOf X fs ++ (fragmentFrom X f).toList := by
  rw [fragmentsOf, List.filterMap_append]
  cases h : fragmentFrom X f with
  | none => simp [fragmentsOf, h]
  | some g => simp [fragmentsOf, h]

/-- A fragment of a frame holds the bytes that the frame carries. -/
theorem carriedBy_of_patch {g : Fragment} {i : Nat} {x : UInt8} (hg : g ∈ fragmentsOf X fs)
    (hx : g.patch.at? i = some x) : ∃ f ∈ fs, CarriedBy X i x f := by
  obtain ⟨f, hf, hfrom⟩ := List.mem_filterMap.mp hg
  refine ⟨f, hf, ?_⟩
  cases hp : ipv4Packet f with
  | error e => simp only [fragmentFrom, hp, reduceCtorEq] at hfrom
  | ok r =>
    obtain ⟨h, pay⟩ := r
    simp only [fragmentFrom, hp] at hfrom
    split at hfrom
    · next hX =>
      cases hfrom
      have hle := (at?_isSome_iff.mp (Option.isSome_of_eq_some hx)).1
      rw [at?_of_le hle] at hx
      have hoff := ipv4Packet_offset hp
      simp only [Fragment.patch, fragmentOf] at hle hx
      exact ⟨h, pay, _, hp, hX.1, by omega, hx⟩
    · cases hfrom

theorem isSome_patch_of_covers {g : Fragment} {i : Nat} (hg : g.Covers i) :
    (g.patch.at? i).isSome := by
  obtain ⟨h0, h1⟩ := hg
  rw [at?_isSome_iff]
  simp only [Fragment.patch]
  omega

/-! ## What is stored -/

theorem stored_complete (v : View) (n : Nat) : (v.complete n).1.stored = v.stored := by
  obtain ⟨stored, parked⟩ := v
  cases stored with
  | none => rfl
  | some l =>
    simp only [View.complete]
    split
    · rfl
    · rfl

/-- A packet changes what is stored as `addFragment` does, unless it is whole. -/
theorem stored_receive (v : View) (h : IPv4.Header) (pay : Str) :
    (v.receive h pay).1.stored =
      if h.fragmentOffset = 0 ∧ h.flags = 2 then v.stored
      else (v.add (fragmentOf h pay)).stored := by
  unfold View.receive
  split
  · rfl
  split
  · rfl
  split
  · exact stored_complete _ _
  · rfl

/-- Whatever is stored was received. -/
def Sourced (X : PacketID) (past : List Str) (v : View) : Prop :=
  ∀ l, v.stored = some l → ∀ g ∈ l, g ∈ fragmentsOf X past

theorem sourced_mono {past : List Str} (hv : Sourced X past v) (f : Str) :
    Sourced X (past ++ [f]) v := by
  intro l hl g hg
  rw [fragmentsOf_snoc]
  exact List.mem_append_left _ (hv l hl g hg)

theorem sourced_add {past : List Str} {g : Fragment} (hv : Sourced X past v)
    (hg : g ∈ fragmentsOf X past) : Sourced X past (v.add g) := by
  obtain ⟨stored, parked⟩ := v
  intro l hl
  cases stored with
  | some l' =>
    cases hl
    exact List.forall_mem_cons.mpr ⟨hg, hv l' rfl⟩
  | none =>
    cases parked with
    | some a => cases hl
    | none =>
      cases hl
      simpa using hg

/-- Adding a fragment of the latest frame. -/
theorem sourced_add_last {past : List Str} (hv : Sourced X past v)
    (hp : ipv4Packet f = .ok (h, pay)) (hX : initPktID h = X)
    (hwhole : ¬ (h.fragmentOffset = 0 ∧ h.flags = 2)) :
    Sourced X (past ++ [f]) (v.add (fragmentOf h pay)) := by
  refine sourced_add (sourced_mono hv f) ?_
  rw [fragmentsOf_snoc, fragmentFrom_ok hp hX hwhole]
  exact List.mem_append_right _ (List.mem_singleton_self _)

theorem sourced_step {past : List Str} (hv : Sourced X past v) (hown : pktIDOf f = some X) :
    Sourced X (past ++ [f]) (v.step f).1 := by
  obtain ⟨h, pay, hp, hX⟩ := packet_of_pktIDOf hown
  intro l hl
  rw [viewStep_ok hp] at hl
  simp only [stored_receive] at hl
  split at hl
  · exact sourced_mono hv f l hl
  · next hwhole => exact sourced_add_last hv hp hX hwhole l hl

/-- **In every run**, whatever is stored for a packet ID was received with it. -/
theorem sourced_run (X : PacketID) (fs : List Str) :
    (Machine.run Buffers.step .empty fs).1.Distinct ∧
      Sourced X fs ((Machine.run Buffers.step .empty fs).1.view X) := by
  have hstep : ∀ (past : List Str) (b : Buffers), ∀ f ∈ fs,
      b.Distinct ∧ Sourced X past (b.view X) →
        (b.step f).1.Distinct ∧ Sourced X (past ++ [f]) ((b.step f).1.view X) := by
    rintro past b f - ⟨hb, hv⟩
    refine ⟨distinct_step hb f, ?_⟩
    by_cases hown : pktIDOf f = some X
    · rw [((view_projection X).own b f (ofID_iff.mpr hown)).1]
      exact sourced_step hv hown
    · rw [step_view_other hb hown]
      split
      · exact fun l hl => by cases hl
      · exact sourced_mono hv f
  have hrun := Machine.run_history fs hstep [] ⟨distinct_empty, fun l hl => by cases hl⟩
  rwa [List.nil_append] at hrun

/-! ## What is stored when nothing was evicted -/

/-- All fragments received are stored, and there is an old array only behind them. -/
def Complete (X : PacketID) (past : List Str) (v : View) : Prop :=
  v.fragments = (fragmentsOf X past).reverse ∧ v.Open

theorem complete_step {past : List Str} (hv : Complete X past v) (hown : pktIDOf f = some X) :
    Complete X (past ++ [f]) (v.step f).1 := by
  obtain ⟨hfrags, hopen⟩ := hv
  obtain ⟨h, pay, hp, hX⟩ := packet_of_pktIDOf hown
  have hstored := stored_receive v h pay
  rw [viewStep_ok hp]
  by_cases hwhole : h.fragmentOffset = 0 ∧ h.flags = 2
  · rw [View.receive_whole hwhole, Complete, fragmentsOf_snoc, fragmentFrom_whole hp hwhole]
    simpa using ⟨hfrags, hopen⟩
  · rw [if_neg hwhole, (add_open hopen _).1] at hstored
    refine ⟨?_, open_of_stored hstored⟩
    rw [View.fragments, hstored, fragmentsOf_snoc, fragmentFrom_ok hp hX hwhole, hfrags]
    simp

theorem fragmentsOf_filter (X : PacketID) (fs : List Str) :
    fragmentsOf X (fs.filter (ofID X)) = fragmentsOf X fs := by
  induction fs with
  | nil => rfl
  | cons f fs ih =>
    simp only [fragmentsOf] at ih ⊢
    cases hf : ofID X f with
    | true => rw [List.filter_cons_of_pos hf, List.filterMap_cons, List.filterMap_cons, ih]
    | false =>
      have hnone : fragmentFrom X f = .none :=
        fragmentFrom_other fun hown => by simp [ofID_iff.mpr hown] at hf
      rw [List.filter_cons_of_neg (by simp [hf]), List.filterMap_cons, hnone, ih]

/-- **Without evictions**, all fragments received with the packet ID are stored. -/
theorem stored_exactly (X : PacketID) (fs : List Frame) (hfs : Undisturbed X .empty fs) :
    Complete X (fs.map Prod.snd)
      ((Machine.run Buffers.step .empty (fs.map Prod.snd)).1.view X) := by
  rw [((view_projection X).run hfs).1]
  have hown : ∀ f ∈ (fs.map Prod.snd).filter (ofID X), pktIDOf f = some X :=
    fun f hf => ofID_iff.mp (List.mem_filter.mp hf).2
  have hrun := Machine.run_history (P := Complete X) (s := View.none) _
    (fun past v f hf hv => complete_step hv (hown f hf)) [] ⟨rfl, open_none⟩
  rwa [List.nil_append, Complete, fragmentsOf_filter] at hrun

/-! ## What is delivered -/

/-- What a packet can hand on. -/
theorem receive_delivers {p : Str} (hdel : (v.receive h pay).2 = some p) :
    ((h.fragmentOffset = 0 ∧ h.flags = 2) ∧ p = pay) ∨
    (¬ (h.fragmentOffset = 0 ∧ h.flags = 2) ∧
      p = assembled p.length (v.add (fragmentOf h pay)).fragments) := by
  by_cases hwhole : h.fragmentOffset = 0 ∧ h.flags = 2
  · rw [View.receive_whole hwhole] at hdel
    cases hdel
    exact .inl ⟨hwhole, rfl⟩
  refine .inr ⟨hwhole, ?_⟩
  rw [View.receive, if_neg hwhole] at hdel
  split at hdel
  · cases hdel
  split at hdel
  · generalize v.add (fragmentOf h pay) = w at hdel ⊢
    obtain ⟨stored, parked⟩ := w
    cases stored with
    | some l =>
      simp only [View.complete] at hdel
      split at hdel
      · cases hdel
        rw [length_assembled]
        rfl
      · cases hdel
    | none =>
      cases hdel
      rw [length_blank]
      rfl
  · cases hdel

/-- A byte that the stored fragments put at its position was carried there. -/
theorem carried_of_top? {i : Nat} {x : UInt8} (hv : Sourced X fs v)
    (htop : top? (v.fragments.map Fragment.patch) i = some x) : ∃ f ∈ fs, CarriedBy X i x f := by
  obtain ⟨q, hq, hx⟩ := exists_of_top? htop
  obtain ⟨g, hg, rfl⟩ := List.mem_map.mp hq
  cases hst : v.stored with
  | none =>
    unfold View.fragments at hg
    rw [hst] at hg
    cases hg
  | some l =>
    unfold View.fragments at hg
    rw [hst] at hg
    exact carriedBy_of_patch (hv l hst g hg) hx

/-- Where all fragments received are stored, what they leave free none of them covers. -/
theorem uncovered_of_top? {i : Nat} (hfrags : v.fragments = (fragmentsOf X fs).reverse)
    (htop : top? (v.fragments.map Fragment.patch) i = .none) :
    ∀ g ∈ fragmentsOf X fs, ¬ g.Covers i := by
  intro g hg hcov
  have hmem : g.patch ∈ v.fragments.map Fragment.patch := by
    rw [hfrags]
    exact List.mem_map_of_mem (List.mem_reverse.mpr hg)
  have hsome := top?_isSome_of_mem hmem (isSome_patch_of_covers hcov)
  rw [htop] at hsome
  cases hsome

end

/-- The payload that a frame adds to the deliveries, and the packet it is. -/
theorem delivery_of_append {s : Stack σ} (hs : s.Fresh) {X : PacketID} {past : List Frame}
    {f : Frame} {payload : Str}
    (hdel : (handleAll s (past ++ [f])).deliveries =
      (handleAll s past).deliveries ++ [(X, payload)]) :
    ∃ h pay, ipv4Packet f.2 = .ok (h, pay) ∧ initPktID h = X ∧
      (((Machine.run Buffers.step .empty (past.map Prod.snd)).1.view X).receive h pay).2 =
        some payload := by
  rw [deliveries_snoc, List.append_cancel_left_eq, handleAll_buffers, hs.buffers] at hdel
  generalize (Machine.run Buffers.step .empty (past.map Prod.snd)).1 = b at hdel ⊢
  cases hp : ipv4Packet f.2 with
  | error e =>
    rw [step_error hp] at hdel
    cases hdel
  | ok r =>
    obtain ⟨h, pay⟩ := r
    have hself := (payloadOpt_view_self (ipv4Packet_offset hp) pay b).2
    rw [step_ok hp] at hdel
    cases ho : handedOn (payloadOpt h pay b) with
    | none =>
      rw [ho] at hdel
      cases hdel
    | some p =>
      rw [ho] at hdel
      cases hdel
      exact ⟨h, pay, rfl, rfl, by rw [← hself, ho]⟩

/-- **No fabricated bytes but zeros**: in every run, a byte delivered for `X` was
carried at its position by a frame with that packet ID, or it is a zero; and as
long as nothing evicted `X`, zeros are filled in only where no fragment received
for `X` covers. -/
theorem delivered_bytes (s : Stack σ) (hs : s.Fresh) (X : PacketID) (past : List Frame)
    (f : Frame) (payload : Str)
    (hdel : (handleAll s (past ++ [f])).deliveries =
      (handleAll s past).deliveries ++ [(X, payload)])
    (i : Nat) (x : UInt8) (hx : payload[i]? = some x) :
    (∃ g ∈ past ++ [f], CarriedBy X i x g.2) ∨
    (x = 0 ∧ (Undisturbed X .empty past →
      ∀ g ∈ fragmentsOf X ((past ++ [f]).map Prod.snd), ¬ g.Covers i)) := by
  obtain ⟨h, pay, hp, hX, hrec⟩ := delivery_of_append hs hdel
  have hsrc := (sourced_run X (past.map Prod.snd)).2
  have hall : Undisturbed X .empty past → Complete X _ _ := stored_exactly X past
  generalize (Machine.run Buffers.step .empty (past.map Prod.snd)).1.view X = v at hrec hsrc hall
  rcases receive_delivers hrec with ⟨hwhole, rfl⟩ | ⟨hwhole, hpay⟩
  · exact .inl ⟨f, List.mem_append_right _ (List.mem_singleton_self f), h, payload, i, hp, hX,
      by omega, hx⟩
  have hadd := sourced_add_last hsrc hp hX hwhole
  rw [hpay, assembled, getElem?_replay, Option.map_eq_some_iff] at hx
  obtain ⟨y, hy, hx⟩ := hx
  cases htop : top? ((v.add (fragmentOf h pay)).fragments.map Fragment.patch) i with
  | some z =>
    -- the topmost fragment at `i` was received
    rw [htop, Option.getD_some] at hx
    subst hx
    obtain ⟨g, hg, hcar⟩ := carried_of_top? hadd htop
    rw [← List.map_singleton, ← List.map_append] at hg
    obtain ⟨g', hg', rfl⟩ := List.mem_map.mp hg
    exact .inl ⟨g', hg', hcar⟩
  | none =>
    -- no stored fragment reaches `i`, and the array was created with zeros
    rw [htop, Option.getD_none] at hx
    subst hx
    refine .inr ⟨List.eq_of_mem_replicate (List.mem_of_getElem? hy), ?_⟩
    intro hq
    obtain ⟨hfrags, hopen⟩ := hall hq
    refine uncovered_of_top? ?_ htop
    rw [(add_open hopen _).1, List.map_append, List.map_singleton, fragmentsOf_snoc,
      fragmentFrom_ok hp hX hwhole]
    simp [View.fragments, ← hfrags]

/-- The first data byte of a packet in two halves. -/
theorem delivered_bytes_halves :
    (∃ g ∈ (halves 1).take 1 ++ [sampleFrame 1 0 1 [104, 101, 108, 108, 111, 33, 33, 33]],
      CarriedBy (sampleID 1) 8 104 g.2) ∨
    ((104 : UInt8) = 0 ∧ (Undisturbed (sampleID 1) .empty ((halves 1).take 1) →
      ∀ g ∈ fragmentsOf (sampleID 1) (((halves 1).take 1 ++
        [sampleFrame 1 0 1 [104, 101, 108, 108, 111, 33, 33, 33]]).map Prod.snd),
        ¬ g.Covers 8)) := by
  refine delivered_bytes (Stack.init ()) (fresh_init ()) (sampleID 1) ((halves 1).take 1)
    (sampleFrame 1 0 1 [104, 101, 108, 108, 111, 33, 33, 33])
    [0, 7, 31, 144, 0, 16, 0, 0, 104, 101, 108, 108, 111, 33, 33, 33] ?_ 8 104 rfl
  rw [Stack.deliveries, Stack.deliveries, (fresh_init ()).dispatched_run,
    (fresh_init ()).dispatched_run]
  decide +kernel

/-- The second half of a packet whose first half was lost. -/
def orphan : Frame := sampleFrame 1 0 1 [104, 101, 108, 108, 111, 33, 33, 33]

/-- It is delivered as a packet of sixteen bytes, of which no frame carried the first. -/
theorem orphan_delivered :
    (handleAll (Stack.init ()) [orphan]).deliveries =
      [(sampleID 1, [0, 0, 0, 0, 0, 0, 0, 0, 104, 101, 108, 108, 111, 33, 33, 33])] ∧
    ∀ x, ¬ CarriedBy (sampleID 1) 0 x orphan.2 := by
  constructor
  · rw [Stack.deliveries, (fresh_init ()).dispatched_run]
    decide +kernel
  · rintro x ⟨h, pay, j, hp, -, hj, -⟩
    have hoff : (ipv4Packet orphan.2).map (fun r => r.1.fragmentOffset) = .ok 1 := by
      decide +kernel
    rw [hp] at hoff
    simp only [Except.map, Except.ok.injEq] at hoff
    omega

end Unikernel.Network
