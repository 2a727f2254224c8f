import Unikernel.Network.Atomicity
import Unikernel.Network.Reuse

/-!
# Fragments in any order

The fragments with others to come may arrive in any order and any number of times:
`addFragment` only puts them in front of the others, and `initAssembling` copies
pieces of one payload, which agree wherever they overlap. What matters is that each
of them arrives before the last fragment does.

- `Arrives X init fs`: the frames carry the pieces `init`, each of them at least once.
- `Gathered`: what is stored on the way, as a set (`gathered_run`).
- `gathered_last`: the last fragment finds all pieces, so its packet is the payload.
-/

namespace Unikernel.Network

open Sml Overlay Keyed

variable {σ : Type}

/-- The frame carries one of the pieces of a packet with ID `X`, with others to come. -/
def CarriesPiece (X : PacketID) (init : List Str) (f : Str) : Prop :=
  ∃ pre q post, init = pre ++ q :: post ∧ IsFragment X pre.flatten.length q true f

/-- The frames carry the pieces `init`, in any order, each of them at least once. -/
structure Arrives (X : PacketID) (init fs : List Str) : Prop where
  only : ∀ f ∈ fs, CarriesPiece X init f
  all : ∀ pre q post, init = pre ++ q :: post →
    ∃ f ∈ fs, IsFragment X pre.flatten.length q true f

/-- The view after the frames `seen`: nothing is parked, and their pieces are stored. -/
structure Gathered (X : PacketID) (init seen : List Str) (v : View) : Prop where
  parked : v.parked = .none
  stored : ∀ g ∈ v.fragments, ∃ pre q post, init = pre ++ q :: post ∧
    8 ∣ pre.flatten.length ∧ g = ⟨q, (pre.flatten.length / 8 : Nat)⟩
  seen : ∀ f ∈ seen, ∀ k q, IsFragment X k q true f →
    (⟨q, (k / 8 : Nat)⟩ : Fragment) ∈ v.fragments

variable {X : PacketID} {init seen fs : List Str} {p f : Str} {v : View}

theorem Gathered.isOpen (hv : Gathered X init seen v) : v.Open := fun _ => hv.parked

theorem gathered_none (X : PacketID) (init : List Str) : Gathered X init [] View.none := by
  refine ⟨rfl, ?_, ?_⟩
  · intro g hg
    cases hg
  · intro f hf
    cases hf

theorem CarriesPiece.ofID (hf : CarriesPiece X init f) : Network.ofID X f = true := by
  obtain ⟨pre, q, post, -, hf⟩ := hf
  exact hf.ofID

/-- A frame carries one piece, at one place. -/
theorem IsFragment.unique {k k' : Nat} {q q' : Str} {more more' : Bool}
    (hf : IsFragment X k q more f) (hf' : IsFragment X k' q' more' f) : k = k' ∧ q = q' := by
  obtain ⟨h, hp, -, hk, -⟩ := hf
  obtain ⟨h', hp', -, hk', -⟩ := hf'
  rw [hp] at hp'
  cases hp'
  exact ⟨by omega, rfl⟩

/-- **One fragment** joins those that are stored. -/
theorem gathered_step (hv : Gathered X init seen v) (hf : CarriesPiece X init f) :
    Gathered X init (seen ++ [f]) (v.step f).1 ∧ (v.step f).2 = [] := by
  obtain ⟨pre, q, post, hinit, hfrag⟩ := hf
  rw [step_more hv.isOpen hfrag]
  refine ⟨⟨hv.parked, ?_, ?_⟩, rfl⟩
  · intro g hg
    rcases List.mem_cons.mp hg with rfl | hg
    · exact ⟨pre, q, post, hinit, hfrag.dvd, rfl⟩
    · exact hv.stored g hg
  · intro f' hf' k' q' hfrag'
    show _ ∈ _ :: v.fragments
    rcases List.mem_append.mp hf' with hold | hnew
    · exact List.mem_cons_of_mem _ (hv.seen f' hold k' q' hfrag')
    · rw [List.mem_singleton.mp hnew] at hfrag'
      obtain ⟨rfl, rfl⟩ := hfrag.unique hfrag'
      exact List.mem_cons_self

/-- **The fragments on the way**: all of them are stored, and nothing is handed on. -/
theorem gathered_run (hv : Gathered X init seen v) (hfs : ∀ f ∈ fs, CarriesPiece X init f) :
    Gathered X init (seen ++ fs) (Machine.run View.step v fs).1 ∧
      (Machine.run View.step v fs).2 = [] := by
  induction fs generalizing seen v with
  | nil =>
    rw [List.append_nil]
    exact ⟨hv, rfl⟩
  | cons f fs ih =>
    obtain ⟨hf, hfs⟩ := List.forall_mem_cons.mp hfs
    obtain ⟨hstep, hout⟩ := gathered_step hv hf
    obtain ⟨hrun, hnone⟩ := ih hstep hfs
    rw [List.append_assoc] at hrun
    rw [Machine.run_cons, hout, hnone]
    exact ⟨hrun, rfl⟩

/-! ## The last fragment -/

/-- The pieces with the last one, cut at one of them. -/
theorem snoc_split {pre post : List Str} {q : Str} (h : init ++ [p] = pre ++ q :: post) :
    (pre = init ∧ q = p) ∨ ∃ post', init = pre ++ q :: post' := by
  rcases List.eq_nil_or_concat' post with rfl | ⟨post', r, rfl⟩
  · obtain ⟨rfl, hq⟩ := List.append_inj' h rfl
    cases hq
    exact .inl ⟨rfl, rfl⟩
  · rw [← List.cons_append, ← List.append_assoc] at h
    obtain ⟨rfl, -⟩ := List.append_inj' h rfl
    exact .inr ⟨post', rfl⟩

/-- A stored piece ends within the payload. -/
theorem fits_gathered {pre post : List Str} {q : Str} (hinit : init = pre ++ q :: post) :
    Fragment.Fits (init.flatten.length + p.length) ⟨q, (pre.flatten.length / 8 : Nat)⟩ := by
  refine fits_piece ?_
  rw [hinit, List.flatten_append, List.flatten_cons, List.length_append, List.length_append]
  omega

/-- **The packet array**: pieces that were gathered give the payload, in whatever
order they are copied. -/
theorem assembled_gathered (hv : Gathered X init fs v) (harr : Arrives X init fs)
    (hlast : 8 ∣ init.flatten.length) :
    assembled (init ++ [p]).flatten.length
        (⟨p, (init.flatten.length / 8 : Nat)⟩ :: v.fragments) = (init ++ [p]).flatten := by
  refine replay_pieces (length_blank _) ?_
  intro r
  rw [List.map_cons, patch_piece hlast, mem_pieces_iff]
  constructor
  · intro hr
    rcases List.mem_cons.mp hr with rfl | hr
    · exact ⟨init, p, [], rfl, by rw [Nat.zero_add]⟩
    · obtain ⟨g, hg, rfl⟩ := List.mem_map.mp hr
      obtain ⟨pre, q, post, rfl, hk, rfl⟩ := hv.stored g hg
      refine ⟨pre, q, post ++ [p], by simp, ?_⟩
      rw [patch_piece hk, Nat.zero_add]
  · rintro ⟨pre, q, post, hsplit, rfl⟩
    rw [Nat.zero_add]
    rcases snoc_split hsplit with ⟨rfl, rfl⟩ | ⟨post', hinit⟩
    · exact List.mem_cons_self
    · -- the piece came with one of the frames
      obtain ⟨f, hf, hfrag⟩ := harr.all pre q post' hinit
      rw [← patch_piece hfrag.dvd]
      exact List.mem_cons_of_mem _ (List.mem_map_of_mem (hv.seen f hf _ q hfrag))

/-- **The last fragment** finds all pieces, and the packet is the payload. -/
theorem gathered_last (hv : Gathered X init fs v) (harr : Arrives X init fs)
    (hlast : IsFragment X init.flatten.length p false f) :
    ∃ h, initPktID h = X ∧ (v.step f).2 = [(h, (init ++ [p]).flatten)] := by
  obtain ⟨h, -, hX, hstep⟩ := step_last hv.isOpen hlast
  refine ⟨h, hX, ?_⟩
  have hlen : init.flatten.length + p.length = (init ++ [p]).flatten.length := by simp
  have hfits : ∀ g ∈ (⟨p, (init.flatten.length / 8 : Nat)⟩ : Fragment) :: v.fragments,
      g.Fits (init.flatten.length + p.length) := by
    intro g hg
    rcases List.mem_cons.mp hg with rfl | hg
    · exact fits_piece (Nat.le_refl _)
    · obtain ⟨pre, q, post, hinit, -, rfl⟩ := hv.stored g hg
      exact fits_gathered hinit
  rw [hstep, View.complete_fits rfl hfits, hlen, assembled_gathered hv harr hlast.dvd]
  rfl

/-! ## On the buffers -/

/-- A fragment with others to come raises nothing and hands nothing on. -/
theorem reassemble_more {b : Buffers} {k : Nat} {q : Str} (hb : (b.view X).Open)
    (hf : IsFragment X k q true f) : ∃ h b', reassemble f b = .ok (h, .none) b' := by
  obtain ⟨h, hp, rfl, -, hflags⟩ := hf
  simp only [if_true] at hflags
  have hok := mt (addFails_iff b (initPktID h) (fragmentOf h q)).mp
    (by rw [(add_open hb _).2]; exact Bool.false_ne_true)
  refine ⟨h, b.add (initPktID h) (fragmentOf h q), ?_⟩
  rw [reassemble_ok hp]
  generalize payloadOpt h q b = r, payloadOpt_outcome (ipv4Packet_offset hp) q b = ho
  cases ho with
  | whole hwhole => omega
  | rejected hwhole hbad => exact absurd hbad hok
  | kept hwhole hok hflags' => rfl
  | assembled hok hflags' hl hfits => omega
  | misfit hok hflags' hl hfits => omega
  | unstored hok hflags' hl => omega

/-- A packet is handed on only when nothing was raised. -/
theorem reassemble_of_delivered {b : Buffers} {h : IPv4.Header} {payload : Str}
    (hstep : (b.step f).2 = [(h, payload)]) :
    reassemble f b = .ok (h, some payload) (b.step f).1 := by
  obtain ⟨pay, hp, hr⟩ := delivered_of_step hstep
  rw [reassemble_ok hp, hr]

/-- The view when some of the frames were handled. -/
theorem gathered_handleAll {s : Stack σ} (hnew : s.buffers.view X = View.none) (gs : List Frame)
    (hgs : ∀ g ∈ gs.map Prod.snd, CarriesPiece X init g) :
    Gathered X init (gs.map Prod.snd) ((handleAll s gs).buffers.view X) ∧
      (handleAll s gs).deliveries = s.deliveries := by
  have hown : ∀ g ∈ gs.map Prod.snd, ofID X g = true := fun g hg => (hgs g hg).ofID
  obtain ⟨hview, hout⟩ := gathered_run (gathered_none X init) hgs
  constructor
  · rw [handleAll_buffers, ((view_projection X).run_own hown).1, hnew]
    exact hview
  · rw [deliveries_own hown, hnew, hout]
    exact List.append_nil _

/-- **Fragments in any order**: when a packet ID is in neither list, the fragments
of a payload are reassembled to it in whatever order those with others to come
arrive, and however often; nothing is raised, and nothing is delivered before the
last fragment. -/
theorem delivered_in_any_order (s : Stack σ) (X : PacketID) (init : List Str) (p : Str)
    (fs : List Frame) (f : Frame) (hfb : X ∉ keys s.buffers.fragmentBuffer)
    (hal : X ∉ keys s.buffers.assemblingList) (harr : Arrives X init (fs.map Prod.snd))
    (hlast : IsFragment X init.flatten.length p false f.2) :
    (∀ gs g rest, fs = gs ++ g :: rest →
      ∃ h b', reassemble g.2 (handleAll s gs).buffers = .ok (h, .none) b') ∧
    (handleAll s fs).deliveries = s.deliveries ∧
    (∃ h b', reassemble f.2 (handleAll s fs).buffers =
      .ok (h, some (init ++ [p]).flatten) b') ∧
    (handleAll s (fs ++ [f])).deliveries = s.deliveries ++ [(X, (init ++ [p]).flatten)] := by
  have hnew : s.buffers.view X = View.none := by
    unfold Buffers.view
    rw [lookup_eq_none.mpr hfb, lookup_eq_none.mpr hal]
    rfl
  obtain ⟨hview, hquiet⟩ := gathered_handleAll hnew fs harr.only
  obtain ⟨h, hX, hstep⟩ := gathered_last hview harr hlast
  have hown := ((view_projection X).own (handleAll s fs).buffers f.2 hlast.ofID).2.1
  rw [hstep] at hown
  refine ⟨?_, hquiet, ⟨h, _, reassemble_of_delivered hown⟩, ?_⟩
  · rintro gs g rest rfl
    rw [List.map_append, List.map_cons] at harr
    -- the frames before `g` are some of the fragments as well
    obtain ⟨hgs, -⟩ := gathered_handleAll hnew gs fun f' hf' =>
      harr.only f' (List.mem_append_left _ hf')
    obtain ⟨pre, q, post, -, hfrag⟩ := harr.only g.2 (by simp)
    exact reassemble_more hgs.isOpen hfrag
  · rw [deliveries_snoc, hquiet, hown, map_delivery hX]

/-- The second of three fragments, the first one, and the second one again. -/
def shuffled : List Frame :=
  [sampleFrame 1 1 1 [104, 101, 108, 108, 111, 33, 33, 33],
    sampleFrame 1 1 0 [0, 7, 31, 144, 0, 18, 0, 0],
    sampleFrame 1 1 1 [104, 101, 108, 108, 111, 33, 33, 33]]

theorem arrives_shuffled : Arrives (sampleID 1)
    [[0, 7, 31, 144, 0, 18, 0, 0], [104, 101, 108, 108, 111, 33, 33, 33]]
    (shuffled.map Prod.snd) := by
  have hfirst : IsFragment (sampleID 1) 0 [0, 7, 31, 144, 0, 18, 0, 0] true
      (sampleFrame 1 1 0 [0, 7, 31, 144, 0, 18, 0, 0]).2 := by decide +kernel
  have hsecond : IsFragment (sampleID 1) 8 [104, 101, 108, 108, 111, 33, 33, 33] true
      (sampleFrame 1 1 1 [104, 101, 108, 108, 111, 33, 33, 33]).2 := by decide +kernel
  constructor
  · intro f hf
    simp only [shuffled, List.map_cons, List.map_nil, List.mem_cons, List.not_mem_nil,
      or_false] at hf
    rcases hf with rfl | rfl | rfl
    · exact ⟨[_], _, [], rfl, hsecond⟩
    · exact ⟨[], _, [_], rfl, hfirst⟩
    · exact ⟨[_], _, [], rfl, hsecond⟩
  · intro pre q post hsplit
    rcases pre with _ | ⟨a, _ | ⟨a', pre⟩⟩
    · cases hsplit
      exact ⟨_, List.mem_cons_of_mem _ List.mem_cons_self, hfirst⟩
    · cases hsplit
      exact ⟨_, List.mem_cons_self, hsecond⟩
    · simp at hsplit

/-- The third fragment after them. -/
theorem delivered_in_any_order_shuffled :
    (∀ gs g rest, shuffled = gs ++ g :: rest →
      ∃ h b', reassemble g.2 (handleAll (Stack.init ()) gs).buffers = .ok (h, .none) b') ∧
    (handleAll (Stack.init ()) shuffled).deliveries = [] ∧
    (∃ h b', reassemble (sampleFrame 1 0 2 [63, 10]).2
        (handleAll (Stack.init ()) shuffled).buffers =
      .ok (h, some [0, 7, 31, 144, 0, 18, 0, 0, 104, 101, 108, 108, 111, 33, 33, 33, 63, 10]) b') ∧
    (handleAll (Stack.init ()) (shuffled ++ [sampleFrame 1 0 2 [63, 10]])).deliveries =
      [(sampleID 1,
        [0, 7, 31, 144, 0, 18, 0, 0, 104, 101, 108, 108, 111, 33, 33, 33, 63, 10])] :=
  delivered_in_any_order (Stack.init ()) (sampleID 1) _ [63, 10] shuffled
    (sampleFrame 1 0 2 [63, 10]) (by decide) (by decide) arrives_shuffled (by decide +kernel)

end Unikernel.Network
