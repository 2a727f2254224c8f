import Unikernel.Udp
import Unikernel.Network.Reuse

/-!
# Reassembly under interleaving

A family of UDP datagrams, each cut into fragments, and an interleaving of all
their frames that keeps each datagram's own order. Every datagram is delivered
intact exactly when the interleaving is `WellNested`: at each completion, no
datagram that was started later is still in progress.

- `Intact`: the invariant of undisturbed progress. Each datagram in progress has
  exactly its fragments so far in its view, and later ones stand in front.
- `intact_snoc`: a step keeps it unless it evicts a datagram in progress.
- `Headless`: what is left of a datagram after an eviction. It lacks its first
  bytes for good, and `headless_wrong` says that it is not delivered.
-/

namespace Unikernel.Network

open Sml Overlay Keyed

/-- A UDP datagram as its sender cuts it: non-empty pieces of a consistent UDP packet. -/
structure UdpDatagram where
  pktID : PacketID
  pieces : List Str
  isUdp : pktID.prot = .udp
  nonempty : ∀ p ∈ pieces, p ≠ []
  consistent : ∃ h data, UDP.decode pieces.flatten = .ok (h, data) ∧
    h.length = pieces.flatten.length

def UdpDatagram.payload (d : UdpDatagram) : Str := d.pieces.flatten

variable {ι σ : Type} [DecidableEq ι]

/-- Received frames, each with the datagram it belongs to. -/
abbrev Trace (ι : Type) := List (ι × Frame)

/-- The datagrams that the frames of a trace belong to, in order. -/
def Trace.sched (tr : Trace ι) : List ι := tr.map Prod.fst

/-- The frames of a trace that belong to datagram `i`. -/
def Trace.framesOf (tr : Trace ι) (i : ι) : List Str :=
  (tr.filter fun e => decide (e.1 = i)).map fun e => e.2.2

/-- The trace consists of the frames of all the datagrams, in order for each of them. -/
def Interleaves (ds : ι → UdpDatagram) (tr : Trace ι) : Prop :=
  ∀ i, Fragmented (ds i).pktID 0 (ds i).pieces (tr.framesOf i)

/-- When the last frame of `i` comes, every datagram still in progress was
started before `i`. -/
def WellNested (sched : List ι) : Prop :=
  ∀ pre i post, sched = pre ++ i :: post → i ∉ post →
    ∀ j ∈ pre, j ∈ post → pre.idxOf j < pre.idxOf i

/-- The run delivers each datagram once, with its last frame, as it was sent. -/
def DeliversEach (ds : ι → UdpDatagram) (s : Stack σ) (tr : Trace ι) : Prop :=
  ∀ pre i f post, tr = pre ++ (i, f) :: post →
    (handleAll s ((pre ++ [(i, f)]).map Prod.snd)).deliveries =
      (handleAll s (pre.map Prod.snd)).deliveries ++
        if i ∈ Trace.sched post then [] else [((ds i).pktID, (ds i).payload)]

/-! ## Traces -/

section Traces

variable {ds : ι → UdpDatagram} {tr pre post : Trace ι} {i j : ι} {f : Frame}

theorem framesOf_append (pre post : Trace ι) (i : ι) :
    Trace.framesOf (pre ++ post) i = Trace.framesOf pre i ++ Trace.framesOf post i := by
  simp [Trace.framesOf]

theorem framesOf_cons_self (i : ι) (f : Frame) (post : Trace ι) :
    Trace.framesOf ((i, f) :: post) i = f.2 :: Trace.framesOf post i := by
  simp [Trace.framesOf]

theorem framesOf_cons_ne (h : i ≠ j) (f : Frame) (post : Trace ι) :
    Trace.framesOf ((i, f) :: post) j = Trace.framesOf post j := by
  simp [Trace.framesOf, h]

theorem framesOf_eq_nil : Trace.framesOf tr i = [] ↔ i ∉ tr.sched := by
  rw [Trace.framesOf, List.map_eq_nil_iff, List.filter_eq_nil_iff, Trace.sched, List.mem_map]
  constructor
  · rintro hall ⟨e, he, rfl⟩
    exact hall e he (decide_eq_true rfl)
  · intro hno e he hi
    exact hno ⟨e, he, of_decide_eq_true hi⟩

/-- The pieces of datagram `i` that arrived with the trace. -/
def arrived (ds : ι → UdpDatagram) (pre : Trace ι) (i : ι) : List Str :=
  (ds i).pieces.take (Trace.framesOf pre i).length

/-- The frame at one place of an interleaving carries the next piece. -/
theorem next_fragment (h : Interleaves ds (pre ++ (i, f) :: post)) :
    ∃ p, IsFragment (ds i).pktID (arrived ds pre i).flatten.length p (decide (i ∈ post.sched)) f.2 ∧
      arrived ds (pre ++ [(i, f)]) i = arrived ds pre i ++ [p] ∧
      (i ∉ post.sched → (ds i).pieces = arrived ds pre i ++ [p]) := by
  have hi := h i
  rw [framesOf_append, framesOf_cons_self] at hi
  obtain ⟨ps₁, p, ps₂, hps, hlen, hnil, hp⟩ := hi.split
  have harr : arrived ds pre i = ps₁ := by
    rw [arrived, hps, ← hlen, List.take_left]
  have hmore : Trace.framesOf post i ≠ [] ↔ i ∈ post.sched := by
    rw [ne_eq, framesOf_eq_nil, not_not]
  refine ⟨p, ?_, ?_, ?_⟩
  · rw [harr]
    simpa only [Nat.zero_add, hmore] using hp
  · rw [harr, arrived, framesOf_append, framesOf_cons_self, hps, List.length_append,
      ← hlen, List.take_length_add_append]
    rfl
  · intro hlast
    rw [hps, harr, hnil.mpr (framesOf_eq_nil.mpr hlast)]

theorem arrived_snoc_ne (h : i ≠ j) (pre : Trace ι) (f : Frame) :
    arrived ds (pre ++ [(i, f)]) j = arrived ds pre j := by
  rw [arrived, framesOf_append, framesOf_cons_ne h, arrived]
  simp [Trace.framesOf]

/-- Something of a datagram arrived if and only if one of its frames did. -/
theorem arrived_ne_nil (h : Interleaves ds tr) (i : ι) : arrived ds pre i ≠ [] ↔ i ∈ pre.sched := by
  have hps := (h i).ne_nil
  rw [ne_eq, arrived, List.take_eq_nil_iff, not_or, List.length_eq_zero_iff, framesOf_eq_nil,
    not_not]
  exact and_iff_left hps

theorem pktIDOf_fragment {X : PacketID} {k : Nat} {p g : Str} {more : Bool}
    (hg : IsFragment X k p more g) : pktIDOf g = some X := ofID_iff.mp hg.ofID

/-- A datagram that has begun is past its first eight bytes. -/
theorem eight_le_of_arrived (h : Interleaves ds (pre ++ (i, f) :: post)) (hi : i ∈ pre.sched) :
    8 ≤ (arrived ds pre i).flatten.length := by
  obtain ⟨p, hp, -, -⟩ := next_fragment h
  have hdvd := hp.dvd
  obtain ⟨q, qs, hq⟩ := List.exists_cons_of_ne_nil ((arrived_ne_nil h i).mpr hi)
  have hmem : q ∈ (ds i).pieces := by
    refine List.mem_of_mem_take (i := (Trace.framesOf pre i).length) ?_
    have hhead : q ∈ arrived ds pre i := hq ▸ List.mem_cons_self
    exact hhead
  have hpos := List.length_pos_of_ne_nil ((ds i).nonempty q hmem)
  rw [hq, List.flatten_cons, List.length_append] at hdvd ⊢
  omega

end Traces

omit [DecidableEq ι] in
theorem sched_snoc (pre : Trace ι) (i : ι) (f : Frame) :
    Trace.sched (pre ++ [(i, f)]) = pre.sched ++ [i] := by
  simp [Trace.sched]

/-- The first occurrences in a list with one more element. -/
theorem idxOf_snoc_lt {l : List ι} {a c i : ι} (ha : a ∈ l ++ [i])
    (hlt : (l ++ [i]).idxOf c < (l ++ [i]).idxOf a) :
    c ∈ l ∧ (a ∈ l ∧ l.idxOf c < l.idxOf a ∨ a ∉ l ∧ a = i) := by
  by_cases hal : a ∈ l
  · rw [List.idxOf_append_of_mem hal] at hlt
    have hlen := List.idxOf_lt_length_of_mem hal
    by_cases hc : c ∈ l
    · rw [List.idxOf_append_of_mem hc] at hlt
      exact ⟨hc, .inl ⟨hal, hlt⟩⟩
    · rw [List.idxOf_append_of_notMem hc] at hlt
      omega
  · obtain rfl : a = i := by simpa [hal] using ha
    refine ⟨?_, .inr ⟨hal, rfl⟩⟩
    by_contra hc
    rw [List.idxOf_append_of_notMem hc, List.idxOf_append_of_notMem hal,
      List.idxOf_cons_self] at hlt
    omega

/-! ## Undisturbed progress -/

/-- What the buffers hold after `pre`, with `post` to come, if nothing was lost. -/
structure Intact (ds : ι → UdpDatagram) (pre post : Trace ι) (b : Buffers) : Prop where
  distinct : b.Distinct
  /-- A datagram that is not complete has exactly its pieces so far in its view. -/
  view : ∀ i ∈ post.sched, b.view (ds i).pktID = holding (arrived ds pre i)
  /-- Of two datagrams in progress, the entry of the later one is in front. -/
  order : ∀ i j, i ∈ post.sched → j ∈ post.sched → i ∈ pre.sched →
    pre.sched.idxOf j < pre.sched.idxOf i →
    (ds i).pktID ∈ keys (front (ds j).pktID b.fragmentBuffer)

/-- The buffers after the frames of a trace. -/
def bufsAfter (tr : Trace ι) : Buffers :=
  (Machine.run Buffers.step .empty ((tr.map Prod.snd).map Prod.snd)).1

omit [DecidableEq ι] in
theorem bufsAfter_snoc (pre : Trace ι) (i : ι) (f : Frame) :
    bufsAfter (pre ++ [(i, f)]) = ((bufsAfter pre).step f.2).1 := by
  simp only [bufsAfter, List.map_append, List.map_singleton, Machine.run_snoc]

/-- As long as the invariant holds, no frame of the trace evicts a datagram in progress. -/
def Spares (ds : ι → UdpDatagram) (tr : Trace ι) : Prop :=
  ∀ pre i f post, tr = pre ++ (i, f) :: post → Intact ds pre ((i, f) :: post) (bufsAfter pre) →
    ∀ j ∈ Trace.sched post, i ≠ j → ¬ (bufsAfter pre).Evicts (ds j).pktID f.2

section Progress

variable {ds : ι → UdpDatagram} {pre post : Trace ι} {i j : ι} {f : Frame} {b : Buffers}

theorem intact_nil (ds : ι → UdpDatagram) (tr : Trace ι) :
    Intact ds [] tr (bufsAfter ([] : Trace ι)) where
  distinct := distinct_empty
  view := fun _ _ => rfl
  order := fun i j _ _ hi => by cases hi

/-- A datagram in progress has an entry. -/
theorem stored_of_arrived (h : Interleaves ds (pre ++ post)) (hb : Intact ds pre post b)
    (hi : i ∈ pre.sched) (hpost : i ∈ post.sched) :
    b.fragmentBuffer.lookup (ds i).pktID = some (fragmentsAt 0 (arrived ds pre i)).reverse := by
  obtain ⟨q, qs, hq⟩ := List.exists_cons_of_ne_nil ((arrived_ne_nil h i).mpr hi)
  have hview := congrArg View.stored (hb.view i hpost)
  rwa [hq, holding, ← hq] at hview

/-- A packet ID that has an entry belongs to a datagram that has begun. -/
theorem begun_of_stored (h : Interleaves ds (pre ++ post)) (hb : Intact ds pre post b)
    (hpost : i ∈ post.sched) (hi : (ds i).pktID ∈ keys b.fragmentBuffer) : i ∈ pre.sched := by
  rw [← arrived_ne_nil h i]
  intro hnil
  have hview := congrArg View.stored (hb.view i hpost)
  rw [hnil] at hview
  exact lookup_eq_none.mp hview hi

/-- **A completion evicts** the datagrams in progress that were started later, and no others. -/
theorem evicts_iff (h : Interleaves ds (pre ++ (i, f) :: post))
    (hb : Intact ds pre ((i, f) :: post) b) (hj : j ∈ post.sched) (hne : i ≠ j) :
    b.Evicts (ds j).pktID f.2 ↔
      i ∉ post.sched ∧ j ∈ pre.sched ∧ pre.sched.idxOf i < pre.sched.idxOf j := by
  obtain ⟨p, hp, -, hlast⟩ := next_fragment h
  have hj' : j ∈ Trace.sched ((i, f) :: post) := List.mem_cons_of_mem _ hj
  have hi' : i ∈ Trace.sched ((i, f) :: post) := List.mem_cons_self
  constructor
  · rintro ⟨h', pay, l, hp', hflags, hl, hfits, hX⟩
    have hown : initPktID h' = (ds i).pktID :=
      Option.some.inj ((pktIDOf_ok hp').symm.trans (pktIDOf_fragment hp))
    rw [hown] at hl hX
    have hjkeys : (ds j).pktID ∈ keys b.fragmentBuffer :=
      ((List.takeWhile_sublist _).map Prod.fst).subset hX
    have hjpre := begun_of_stored h hb hj' hjkeys
    have hipre := begun_of_stored h hb hi' (mem_keys_of_lookup hl)
    refine ⟨?_, hjpre, ?_⟩
    · -- only a frame without the more-fragments flag completes
      intro hi
      obtain ⟨h'', hp'', -, -, hflags'⟩ := hp
      rw [hp'] at hp''
      cases hp''
      rw [hflags, decide_eq_true hi] at hflags'
      cases hflags'
    · -- had `j` begun first, the entry of `i` would be in front
      by_contra hlt
      have hneq : pre.sched.idxOf j ≠ pre.sched.idxOf i :=
        fun heq => hne ((List.idxOf_inj hjpre).mp heq).symm
      exact front_asymm hX (hb.order i j hi' hj' hipre (by omega))
  · rintro ⟨hi, hjpre, hlt⟩
    have hipre : i ∈ pre.sched := by
      have := List.idxOf_lt_length_of_mem hjpre
      exact List.idxOf_lt_length_iff.mp (by omega)
    rw [decide_eq_false hi] at hp
    obtain ⟨h', hp', hX, hoff, hflags⟩ := hp
    refine ⟨h', p, _, hp', hflags, hX ▸ stored_of_arrived h hb hipre hi', ?_, ?_⟩
    · intro g hg
      rw [packetLength_eq hoff]
      exact fits_of_mem_fragmentsAt (List.mem_reverse.mp hg) (by omega)
    · rw [hX]
      exact hb.order j i hj' hi' hjpre hlt

variable (hid : Function.Injective fun i => (ds i).pktID)

include hid

theorem other_of_ne (h : Interleaves ds (pre ++ (i, f) :: post)) (hne : i ≠ j) :
    pktIDOf f.2 ≠ some (ds j).pktID := by
  obtain ⟨p, hp, -, -⟩ := next_fragment h
  rw [pktIDOf_fragment hp]
  exact fun heq => hne (hid (Option.some.inj heq))

/-- **A step keeps the invariant**, unless it evicts a datagram in progress. -/
theorem intact_snoc (h : Interleaves ds (pre ++ (i, f) :: post))
    (hb : Intact ds pre ((i, f) :: post) b)
    (hquiet : ∀ j ∈ post.sched, i ≠ j → ¬ b.Evicts (ds j).pktID f.2) :
    Intact ds (pre ++ [(i, f)]) post (b.step f.2).1 := by
  obtain ⟨p, hp, harr, -⟩ := next_fragment h
  have hview := hb.view i List.mem_cons_self
  refine ⟨distinct_step hb.distinct f.2, ?_, ?_⟩
  · -- the frame is stored for its own datagram; the others keep their views
    intro j hj
    by_cases hij : i = j
    · subst hij
      rw [decide_eq_true hj] at hp
      rw [((view_projection _).own b f.2 hp.ofID).1, hview, harr, holding_step hp]
    · rw [step_view_other hb.distinct (other_of_ne hid h hij), if_neg (hquiet j hj hij),
        arrived_snoc_ne hij]
      exact hb.view j (List.mem_cons_of_mem _ hj)
  · intro a c ha hc hapre hlt
    rw [sched_snoc] at hapre hlt
    obtain ⟨hcpre, ⟨hapre', hlt⟩ | ⟨hapre', rfl⟩⟩ := idxOf_snoc_lt hapre hlt
    · -- both were in progress before
      have hfront := hb.order a c (List.mem_cons_of_mem _ ha) (List.mem_cons_of_mem _ hc) hapre' hlt
      have hC := mem_keys_of_lookup (stored_of_arrived h hb hcpre (List.mem_cons_of_mem _ hc))
      refine front_step hC hfront ?_
      by_cases hia : i = a
      · subst hia
        rintro ⟨h', pay, l, hp', -, -, -, hX⟩
        have hown := (pktIDOf_ok hp').symm.trans (pktIDOf_fragment hp)
        exact ne_of_mem_front hX (Option.some.inj hown).symm
      · exact hquiet a ha hia
    · -- `a` begins with this frame
      have hnil : arrived ds pre a = [] := by
        by_contra hne
        exact hapre' ((arrived_ne_nil h a).mp hne)
      have hne : a ≠ c := fun hac => hapre' (hac ▸ hcpre)
      rw [decide_eq_true ha] at hp
      obtain ⟨h', hp', hX, -, hflags⟩ := hp
      rw [hnil, ← hX] at hview
      rw [← hX]
      refine front_pushed hp' hflags hview ?_
      rw [hX]
      exact fun heq => hne (hid heq)

end Progress

/-! ## After an eviction -/

/-- Only fragments behind the first eight bytes are held. -/
def View.Headless (v : View) : Prop := v.parked = .none ∧ ∀ g ∈ v.fragments, 1 ≤ g.offset

section Headless

variable {X : PacketID} {v : View} {k n : Nat} {p f : Str}

theorem headless_lost (hv : v.parked = .none) : v.lost.Headless := ⟨hv, fun g hg => by cases hg⟩

theorem headless_open (hv : v.Headless) : v.Open := fun _ => hv.1

theorem headless_step (hv : v.Headless) (hf : IsFragment X k p true f) (hk : 8 ≤ k) :
    (v.step f).1.Headless := by
  rw [step_more (headless_open hv) hf]
  refine ⟨hv.1, List.forall_mem_cons.mpr ⟨?_, hv.2⟩⟩
  simp only
  omega

/-- The first eight bytes are never written. -/
theorem assembled_headless {l : List Fragment} (hl : ∀ g ∈ l, 1 ≤ g.offset) {i : Nat} {x : UInt8}
    (hi : i < 8) (hx : (assembled n l)[i]? = some x) : x = 0 := by
  have huncovered : ∀ q ∈ l.map Fragment.patch, q.at? i = .none := by
    intro q hq
    obtain ⟨g, hg, rfl⟩ := List.mem_map.mp hq
    have hoff := hl g hg
    refine at?_of_lt ?_
    simp only [Fragment.patch]
    omega
  rw [assembled, getElem?_replay_of_uncovered huncovered] at hx
  exact List.eq_of_mem_replicate (List.mem_of_getElem? hx)

/-- The length field of a UDP packet is not zero. -/
theorem UdpDatagram.exists_head (d : UdpDatagram) :
    ∃ i x, i < 8 ∧ d.payload[i]? = some x ∧ x ≠ 0 := by
  obtain ⟨h, data, hdec, hlen⟩ := d.consistent
  have hlong := UDP.length_of_decode hdec
  obtain ⟨b0, b1, b2, b3, b4, b5, b6, b7, q, hq⟩ := UDP.exists_bytes_of_length hlong
  rw [hq, UDP.decode_bytes] at hdec
  cases hdec
  simp only at hlen
  by_cases h4 : b4 = 0
  · refine ⟨5, b5, by omega, by rw [UdpDatagram.payload, hq]; rfl, ?_⟩
    rintro rfl
    subst h4
    simp only [UInt8.toNat_zero] at hlen
    omega
  · exact ⟨4, b4, by omega, by rw [UdpDatagram.payload, hq]; rfl, h4⟩

/-- **A datagram without its head** is not delivered as it was sent. -/
theorem headless_wrong (hv : v.Headless) (hf : IsFragment X k p false f) (hk : 8 ≤ k)
    (d : UdpDatagram) :
    (v.step f).2.map (fun d => (initPktID d.1, d.2)) ≠ [(X, d.payload)] := by
  obtain ⟨h, -, hX, hstep⟩ := step_last (headless_open hv) hf
  have hl : ∀ g ∈ (⟨p, (k / 8 : Nat)⟩ : Fragment) :: v.fragments, 1 ≤ g.offset := by
    refine List.forall_mem_cons.mpr ⟨?_, hv.2⟩
    simp only
    omega
  rw [hstep]
  by_cases hfits : ∀ g ∈ (⟨p, (k / 8 : Nat)⟩ : Fragment) :: v.fragments, g.Fits (k + p.length)
  · rw [View.complete_fits rfl hfits]
    intro heq
    simp only [Option.toList_some, List.map_cons, List.map_nil, List.cons.injEq, Prod.mk.injEq,
      and_true] at heq
    obtain ⟨i, x, hi, hx, hne⟩ := d.exists_head
    rw [← heq.2] at hx
    exact hne (assembled_headless hl hi hx)
  · rw [View.complete_misfit rfl hfits]
    exact nofun

end Headless

/-! ## The main result -/

section Main

variable {ds : ι → UdpDatagram} {tr pre post : Trace ι} {i j : ι} {f : Frame} {s : Stack σ}

omit [DecidableEq ι] in
theorem handleAll_bufsAfter (hs : s.buffers = .empty) (pre : Trace ι) :
    (handleAll s (pre.map Prod.snd)).buffers = bufsAfter pre := by
  rw [handleAll_buffers, hs, bufsAfter]

/-- The deliveries of a run, one step at a time. -/
theorem deliversEach_iff (hs : s.buffers = .empty) :
    DeliversEach ds s tr ↔ ∀ pre i f post, tr = pre ++ (i, f) :: post →
      ((bufsAfter pre).step f.2).2.map (fun d => (initPktID d.1, d.2)) =
        if i ∈ Trace.sched post then [] else [((ds i).pktID, (ds i).payload)] := by
  refine forall₅_congr fun pre i f post _ => ?_
  rw [List.map_append, List.map_singleton, deliveries_snoc, handleAll_bufsAfter hs,
    List.append_cancel_left_eq]

omit [DecidableEq ι] in
/-- The last frame of a datagram. -/
theorem exists_last (hj : j ∈ post.sched) :
    ∃ mid f rest, post = mid ++ (j, f) :: rest ∧ j ∉ Trace.sched rest := by
  induction post with
  | nil => cases hj
  | cons e post ih =>
    by_cases hlater : j ∈ Trace.sched post
    · obtain ⟨mid, f, rest, rfl, hrest⟩ := ih hlater
      exact ⟨e :: mid, f, rest, rfl, hrest⟩
    · obtain ⟨i, f⟩ := e
      obtain rfl : j = i := (List.mem_cons.mp hj).resolve_right hlater
      exact ⟨[], f, post, rfl, hlater⟩

omit [DecidableEq ι] in
/-- The frame at a place of the schedule. -/
theorem sched_split {l m : List ι} (h : tr.sched = l ++ i :: m) :
    ∃ pre f post, tr = pre ++ (i, f) :: post ∧ Trace.sched pre = l ∧ Trace.sched post = m := by
  obtain ⟨pre, rest, rfl, rfl, hrest⟩ := List.map_eq_append_iff.mp h
  obtain ⟨e, post, rfl, rfl, rfl⟩ := List.map_eq_cons_iff.mp hrest
  exact ⟨pre, e.2, post, rfl, rfl, rfl⟩

variable (hid : Function.Injective fun i => (ds i).pktID) (h : Interleaves ds tr)

include hid h

/-- A lost head stays lost while more of the datagram is to come. -/
theorem headless_run {mid rest : Trace ι} (htr : tr = pre ++ (mid ++ (j, f) :: rest))
    (hpre : j ∈ pre.sched) (hd : (bufsAfter pre).Distinct)
    (hv : ((bufsAfter pre).view (ds j).pktID).Headless) :
    ((bufsAfter (pre ++ mid)).view (ds j).pktID).Headless := by
  have hrun : (bufsAfter (pre ++ mid)).Distinct ∧
      ((bufsAfter (pre ++ mid)).view (ds j).pktID).Headless := by
    rw [bufsAfter, List.map_append, List.map_append, Machine.run_append]
    refine Machine.run_invariant
      (P := fun b : Buffers => b.Distinct ∧ (b.view (ds j).pktID).Headless) ?_ ⟨hd, hv⟩
    rintro b g hg ⟨hb, hv⟩
    refine ⟨distinct_step hb g, ?_⟩
    rw [List.map_map] at hg
    obtain ⟨⟨i, f'⟩, hf', rfl⟩ := List.mem_map.mp hg
    obtain ⟨m₁, m₂, rfl⟩ := List.append_of_mem hf'
    have hplace : tr = (pre ++ m₁) ++ (i, f') :: (m₂ ++ (j, f) :: rest) := by
      rw [htr]
      simp
    rw [hplace] at h
    by_cases hij : i = j
    · -- another fragment, which is not the first and not the last
      subst hij
      obtain ⟨p, hp, -, -⟩ := next_fragment h
      have hmore : i ∈ Trace.sched (m₂ ++ (i, f) :: rest) := by
        simp [Trace.sched]
      have hbegun : i ∈ Trace.sched (pre ++ m₁) := by
        rw [Trace.sched, List.map_append]
        exact List.mem_append_left _ hpre
      rw [decide_eq_true hmore] at hp
      show ((b.step f'.2).1.view _).Headless
      rw [((view_projection _).own b f'.2 hp.ofID).1]
      exact headless_step hv hp (eight_le_of_arrived h hbegun)
    · show ((b.step f'.2).1.view _).Headless
      rw [step_view_other hb (other_of_ne hid h hij)]
      split
      · exact headless_lost hv.1
      · exact hv
  exact hrun.2

/-- Once a datagram in progress has lost its head, the run does not deliver it. -/
theorem not_deliversEach_of_headless (hs : s.buffers = .empty) (htr : tr = pre ++ post)
    (hpre : j ∈ pre.sched) (hpost : j ∈ post.sched) (hd : (bufsAfter pre).Distinct)
    (hv : ((bufsAfter pre).view (ds j).pktID).Headless) : ¬ DeliversEach ds s tr := by
  obtain ⟨mid, f, rest, rfl, hrest⟩ := exists_last hpost
  have hmid := headless_run hid h htr hpre hd hv
  have hplace : tr = (pre ++ mid) ++ (j, f) :: rest := by
    rw [htr, List.append_assoc]
  intro hdel
  have hout := (deliversEach_iff hs).mp hdel _ _ _ _ hplace
  rw [hplace] at h
  obtain ⟨p, hp, -, -⟩ := next_fragment h
  have hbegun : j ∈ Trace.sched (pre ++ mid) := by
    rw [Trace.sched, List.map_append]
    exact List.mem_append_left _ hpre
  rw [if_neg hrest, ((view_projection _).own _ f.2 hp.ofID).2.1] at hout
  rw [decide_eq_false hrest] at hp
  exact headless_wrong hmid hp (eight_le_of_arrived h hbegun) (ds j) hout

/-- The invariant holds throughout, if no step evicts a datagram in progress. -/
theorem intact_run (hspares : Spares ds tr) (pre : Trace ι) :
    ∀ post, tr = pre ++ post → Intact ds pre post (bufsAfter pre) := by
  induction pre using List.reverseRecOn with
  | nil => exact fun post _ => intact_nil ds post
  | append_singleton pre e ih =>
    intro post htr
    obtain ⟨i, f⟩ := e
    rw [List.append_assoc, List.singleton_append] at htr
    have hb := ih _ htr
    rw [bufsAfter_snoc]
    exact intact_snoc hid (htr ▸ h) hb (hspares pre i f post htr hb)

/-- Whether datagrams in progress are evicted depends on the schedule alone. -/
theorem spares_iff_wellNested : Spares ds tr ↔ WellNested tr.sched := by
  constructor
  · intro hspares l i m hsched hi j hjl hjm
    obtain ⟨pre, f, post, htr, rfl, rfl⟩ := sched_split hsched
    have hb := intact_run hid h hspares pre _ htr
    have hij : i ≠ j := fun hij => hi (hij ▸ hjm)
    have hne : List.idxOf i (Trace.sched pre) ≠ List.idxOf j (Trace.sched pre) :=
      fun heq => hij ((List.idxOf_inj hjl).mp heq.symm).symm
    by_contra hlt
    exact hspares pre i f post htr hb j hjm hij
      ((evicts_iff (htr ▸ h) hb hjm hij).mpr ⟨hi, hjl, by omega⟩)
  · intro hnest pre i f post htr hb j hj hij hev
    obtain ⟨hi, hjpre, hlt⟩ := (evicts_iff (htr ▸ h) hb hj hij).mp hev
    have hsched : tr.sched = Trace.sched pre ++ i :: Trace.sched post := by
      rw [htr, Trace.sched, List.map_append]
      rfl
    have := hnest _ _ _ hsched hi j hjpre hj
    omega

/-- An eviction loses a head, and the datagram is not delivered as it was sent. -/
theorem spares_of_deliversEach (hs : s.buffers = .empty) (hdel : DeliversEach ds s tr) :
    Spares ds tr := by
  intro pre i f post htr hb j hj hij hev
  have hjpre := ((evicts_iff (htr ▸ h) hb hj hij).mp hev).2.1
  have hview : (bufsAfter (pre ++ [(i, f)])).view (ds j).pktID =
      (holding (arrived ds pre j)).lost := by
    rw [bufsAfter_snoc, step_view_other hb.distinct (other_of_ne hid (htr ▸ h) hij), if_pos hev,
      hb.view j (List.mem_cons_of_mem _ hj)]
  have hplace : tr = (pre ++ [(i, f)]) ++ post := by
    rw [htr, List.append_assoc, List.singleton_append]
  refine not_deliversEach_of_headless hid h hs hplace ?_ hj ?_ ?_ hdel
  · rw [sched_snoc]
    exact List.mem_append_left _ hjpre
  · rw [bufsAfter_snoc]
    exact distinct_step hb.distinct _
  · rw [hview]
    exact headless_lost (holding_parked _)

/-- Without evictions, the last frame of each datagram completes it. -/
theorem deliversEach_of_spares (hs : s.buffers = .empty) (hspares : Spares ds tr) :
    DeliversEach ds s tr := by
  rw [deliversEach_iff hs]
  intro pre i f post htr
  have hb := intact_run hid h hspares pre _ htr
  obtain ⟨p, hp, harr, hlast⟩ := next_fragment (htr ▸ h)
  rw [((view_projection _).own _ f.2 hp.ofID).2.1, hb.view i List.mem_cons_self]
  by_cases hi : i ∈ Trace.sched post
  · rw [decide_eq_true hi] at hp
    rw [if_pos hi, holding_step hp]
    rfl
  · rw [decide_eq_false hi] at hp
    have haligned := (h i).aligned
    rw [hlast hi] at haligned
    obtain ⟨h', hX, hout⟩ := holding_last haligned hp
    rw [if_neg hi, hout, map_delivery hX, UdpDatagram.payload, hlast hi]

/-- **Reassembly under interleaving**: starting from empty buffers, every
datagram of the family is delivered exactly once, with its last frame and with
its original bytes, if and only if the interleaving is well nested. -/
theorem deliversEach_iff_wellNested (hs : s.buffers = .empty) :
    DeliversEach ds s tr ↔ WellNested tr.sched := by
  rw [← spares_iff_wellNested hid h]
  exact ⟨spares_of_deliversEach hid h hs, deliversEach_of_spares hid h hs⟩

end Main

/-! ## Two datagrams -/

/-- Two datagrams from one sender, as `halves` sends them. -/
def sampleDatagram (second : Bool) : UdpDatagram where
  pktID := sampleID (if second then 2 else 1)
  pieces := [[0, 7, 31, 144, 0, 16, 0, 0], [104, 101, 108, 108, 111, 33, 33, 33]]
  isUdp := rfl
  nonempty := by decide
  consistent := ⟨⟨7, 8080, 16, 0⟩, [104, 101, 108, 108, 111, 33, 33, 33], by decide, by decide⟩

/-- The frames of the two datagrams in a given order. -/
def sampleTrace : List (Bool × Bool) → Trace Bool :=
  List.map fun (second, last) =>
    (second, sampleFrame (if second then 2 else 1) (if last then 0 else 1) (if last then 1 else 0)
      (if last then [104, 101, 108, 108, 111, 33, 33, 33] else [0, 7, 31, 144, 0, 16, 0, 0]))

theorem sampleDatagram_injective : Function.Injective fun i => (sampleDatagram i).pktID := by
  decide

theorem interleaves_nested :
    Interleaves sampleDatagram
      (sampleTrace [(false, false), (true, false), (true, true), (false, true)]) := by
  intro i
  cases i with
  | false => exact .more (by decide +kernel) (.last (by decide +kernel))
  | true => exact .more (by decide +kernel) (.last (by decide +kernel))

theorem interleaves_crossing :
    Interleaves sampleDatagram
      (sampleTrace [(false, false), (true, false), (false, true), (true, true)]) := by
  intro i
  cases i with
  | false => exact .more (by decide +kernel) (.last (by decide +kernel))
  | true => exact .more (by decide +kernel) (.last (by decide +kernel))

/-- The second datagram inside the first. -/
theorem deliversEach_iff_wellNested_sample :
    DeliversEach sampleDatagram (Stack.init ())
        (sampleTrace [(false, false), (true, false), (true, true), (false, true)]) ↔
      WellNested [false, true, true, false] :=
  deliversEach_iff_wellNested sampleDatagram_injective interleaves_nested rfl

/-- Two crossing datagrams are not both delivered as they were sent. -/
theorem crossing_not_delivered :
    Function.Injective (fun i => (sampleDatagram i).pktID) ∧
    Interleaves sampleDatagram
      (sampleTrace [(false, false), (true, false), (false, true), (true, true)]) ∧
    ¬ DeliversEach sampleDatagram (Stack.init ())
      (sampleTrace [(false, false), (true, false), (false, true), (true, true)]) := by
  refine ⟨sampleDatagram_injective, interleaves_crossing, ?_⟩
  rw [deliversEach_iff rfl]
  intro hdel
  -- the second datagram was in progress when the first one was completed
  have hlast := hdel (sampleTrace [(false, false), (true, false), (false, true)]) true _ [] rfl
  revert hlast
  decide +kernel

end Unikernel.Network
