import Unikernel.Network.Atomicity

/-!
# What completing a packet leaves behind

`initAssembling` and `assemblePacket` both end with `List.drop (l, i)`, where `i`
is the index of the entry they are done with: that entry stays, and the entries in
front of it go. So a completed packet is never removed, in any state, and its
array stays in `assemblingList` for good; only the loss of others depends on the
order of the entries (`completion_leaves_entry`).
-/

namespace Unikernel.Network

open Sml Keyed

/-- The packet ID is gone from both lists, and the other entries are as before. -/
structure RemovesEntry (X : PacketID) (b b' : Buffers) : Prop where
  fragmentBuffer : X ∉ keys b'.fragmentBuffer
  assemblingList : X ∉ keys b'.assemblingList
  otherFragments : others X b'.fragmentBuffer = others X b.fragmentBuffer
  otherArrays : others X b'.assemblingList = others X b.assemblingList

/-! ## Adding, by list -/

section Add

variable (b : Buffers) (X : PacketID) (g : Fragment)

@[simp] theorem keys_add_assemblingList :
    keys (b.add X g).assemblingList = keys b.assemblingList := by
  unfold Buffers.add
  cases b.fragmentBuffer.lookup X with
  | some l => rfl
  | none =>
    cases b.assemblingList.lookup X with
    | some a => exact keys_assign X _ _
    | none => rfl

theorem others_add : others X (b.add X g).fragmentBuffer = others X b.fragmentBuffer ∧
    others X (b.add X g).assemblingList = others X b.assemblingList := by
  unfold Buffers.add
  cases b.fragmentBuffer.lookup X with
  | some l => exact ⟨others_assign X _ _, rfl⟩
  | none =>
    cases b.assemblingList.lookup X with
    | some a => exact ⟨rfl, others_assign X _ _⟩
    | none => exact ⟨others_cons_self X _ _, rfl⟩

variable {b X g}

/-- Nothing is in front of the entry, if there was nothing in front of it before. -/
theorem front_add_iff (hX : X ∈ keys (b.add X g).fragmentBuffer) :
    front X (b.add X g).fragmentBuffer = [] ↔
      (X ∈ keys b.fragmentBuffer → front X b.fragmentBuffer = []) := by
  unfold Buffers.add at hX ⊢
  cases hfb : b.fragmentBuffer.lookup X with
  | some l =>
    have hkeys := keys_front_assign X X (g :: l) b.fragmentBuffer
    have hmem := mem_keys_of_lookup hfb
    rw [imp_iff_right hmem, ← List.map_eq_nil_iff (f := Prod.fst), ← keys, hkeys, keys,
      List.map_eq_nil_iff]
  | none =>
    have hnone := lookup_eq_none.mp hfb
    rw [hfb] at hX
    cases hal : b.assemblingList.lookup X with
    | some a =>
      rw [hal] at hX
      exact absurd hX hnone
    | none => exact iff_of_true (front_cons_self X _ _) fun h => absurd h hnone

end Add

/-! ## Completing -/

variable {b b' : Buffers} {ethFrame payload : Str} {h : IPv4.Header}

/-- The buffers when a last fragment was added, assembled and handed on. -/
theorem completed_cases (hdone : reassemble ethFrame b = .ok (h, some payload) b')
    (hflags : h.flags = 0) :
    ∃ g a, b'.assemblingList = (initPktID h, a) :: (b.add (initPktID h) g).assemblingList ∧
      ((initPktID h ∈ keys (b.add (initPktID h) g).fragmentBuffer ∧
          b'.fragmentBuffer = fromKey (initPktID h) (b.add (initPktID h) g).fragmentBuffer) ∨
        (initPktID h ∉ keys (b.add (initPktID h) g).fragmentBuffer ∧
          b'.fragmentBuffer = (b.add (initPktID h) g).fragmentBuffer)) := by
  cases hp : ipv4Packet ethFrame with
  | error e =>
    rw [reassemble, raising_bind_error hp] at hdone
    cases hdone
  | ok r =>
    obtain ⟨h', pay⟩ := r
    rw [reassemble_ok hp] at hdone
    generalize hr : payloadOpt h' pay b = r, payloadOpt_outcome (ipv4Packet_offset hp) pay b = ho
      at hdone
    cases ho with
    | whole hwhole =>
      cases hdone
      exact absurd hwhole (not_whole hflags)
    | rejected hwhole hbad => cases hdone
    | kept hwhole hok hflags' => cases hdone
    | assembled hok hflags' hl hfits =>
      cases hdone
      exact ⟨_, _, rfl, .inl ⟨mem_keys_of_lookup hl, rfl⟩⟩
    | misfit hok hflags' hl hfits => cases hdone
    | unstored hok hflags' hl =>
      cases hdone
      exact ⟨_, _, rfl, .inr ⟨lookup_eq_none.mp hl, rfl⟩⟩

/-- No step removes a packet ID from `assemblingList`. -/
theorem assembling_step {X : PacketID} (hX : X ∈ keys b.assemblingList) (ethFrame : Str) :
    X ∈ keys (b.step ethFrame).1.assemblingList := by
  rcases step_cases b ethFrame with hs | ⟨Y, g, hs | ⟨fb, a, hs, -⟩⟩
  · rwa [hs]
  · rwa [hs, keys_add_assemblingList]
  · rw [hs]
    show X ∈ keys ((Y, a) :: (b.add Y g).assemblingList)
    rw [keys_cons, keys_add_assemblingList]
    exact List.mem_cons_of_mem _ hX

/-- **Completing a packet** never removes its entry, and no later frame does: its
array stays in `assemblingList` in every continuation of the run. The other arrays
are kept; the fragments of other packets are kept exactly if no entry stood in
front of the one that was completed. -/
theorem completion_leaves_entry (b b' : Buffers) (ethFrame payload : Str) (h : IPv4.Header)
    (hdone : reassemble ethFrame b = .ok (h, some payload) b') (hflags : h.flags = 0) :
    ¬ RemovesEntry (initPktID h) b b' ∧
    (∀ rest, initPktID h ∈ keys (Machine.run Buffers.step b' rest).1.assemblingList) ∧
    others (initPktID h) b'.assemblingList = others (initPktID h) b.assemblingList ∧
    (others (initPktID h) b'.fragmentBuffer = others (initPktID h) b.fragmentBuffer ↔
      (initPktID h ∈ keys b.fragmentBuffer → front (initPktID h) b.fragmentBuffer = [])) := by
  obtain ⟨g, a, hal, hfb⟩ := completed_cases hdone hflags
  obtain ⟨hothers, harrays⟩ := others_add b (initPktID h) g
  have hmem : initPktID h ∈ keys b'.assemblingList := by
    rw [hal]
    exact List.mem_cons_self
  refine ⟨fun hremoves => hremoves.assemblingList hmem, fun rest => ?_, ?_, ?_⟩
  · exact Machine.run_invariant (P := fun c : Buffers => initPktID h ∈ keys c.assemblingList)
      (fun c f _ hc => assembling_step hc f) hmem
  · rw [hal, others_cons_self, harrays]
  · rw [← hothers]
    rcases hfb with ⟨hX, hfb⟩ | ⟨hX, hfb⟩
    · rw [hfb, others_fromKey_iff, front_add_iff hX]
    · rw [hfb]
      refine iff_of_true rfl fun hstored => absurd ?_ hX
      obtain ⟨l, hl⟩ := Option.ne_none_iff_exists'.mp (mt lookup_eq_none.mp (not_not_intro hstored))
      rw [add_of_stored hl, keys_assign]
      exact hstored

/-- The buffers after the first halves of two packets. -/
def halfway : Buffers :=
  ⟨[(sampleID 2, [⟨[0, 7, 31, 144, 0, 16, 0, 0], 0⟩]),
    (sampleID 1, [⟨[0, 7, 31, 144, 0, 16, 0, 0], 0⟩])], []⟩

/-- The second half of the first packet. -/
def lastHalf : Frame := sampleFrame 1 0 1 [104, 101, 108, 108, 111, 33, 33, 33]

/-- Its header. -/
def lastHeader : IPv4.Header :=
  ⟨4, 5, 0, 0, 28, 1, 0, 1, 64, .udp, 0, [10, 0, 0, 1], [10, 0, 0, 2]⟩

/-- The buffers after it. -/
def afterLast : Buffers :=
  ⟨[(sampleID 1, [⟨[104, 101, 108, 108, 111, 33, 33, 33], 1⟩, ⟨[0, 7, 31, 144, 0, 16, 0, 0], 0⟩])],
    [(sampleID 1, [0, 7, 31, 144, 0, 16, 0, 0, 104, 101, 108, 108, 111, 33, 33, 33])]⟩

theorem reassemble_lastHalf : reassemble lastHalf.2 halfway =
    .ok (lastHeader, some [0, 7, 31, 144, 0, 16, 0, 0, 104, 101, 108, 108, 111, 33, 33, 33])
      afterLast := by
  have hp : ipv4Packet lastHalf.2 = .ok (lastHeader, [104, 101, 108, 108, 111, 33, 33, 33]) := by
    decide +kernel
  rw [reassemble_ok hp]
  rfl

/-- Completing the first of two packets in progress. -/
theorem completion_leaves_entry_halfway :
    ¬ RemovesEntry (initPktID lastHeader) halfway afterLast ∧
    (∀ rest, initPktID lastHeader ∈
      keys (Machine.run Buffers.step afterLast rest).1.assemblingList) ∧
    others (initPktID lastHeader) afterLast.assemblingList =
      others (initPktID lastHeader) halfway.assemblingList ∧
    (others (initPktID lastHeader) afterLast.fragmentBuffer =
        others (initPktID lastHeader) halfway.fragmentBuffer ↔
      (initPktID lastHeader ∈ keys halfway.fragmentBuffer →
        front (initPktID lastHeader) halfway.fragmentBuffer = [])) :=
  completion_leaves_entry halfway afterLast lastHalf.2 _ lastHeader reassemble_lastHalf rfl

/-- The first packet stays in both lists, and the second one is lost. -/
theorem completed_not_removed :
    (handleAll (Stack.init ()) ((halves 1).take 1 ++ (halves 2).take 1)).buffers = halfway ∧
    reassemble lastHalf.2 halfway =
      .ok (lastHeader, some [0, 7, 31, 144, 0, 16, 0, 0, 104, 101, 108, 108, 111, 33, 33, 33])
        afterLast ∧
    initPktID lastHeader ∈ keys afterLast.fragmentBuffer ∧
    initPktID lastHeader ∈ keys afterLast.assemblingList ∧
    sampleID 2 ∈ keys halfway.fragmentBuffer ∧ sampleID 2 ∉ keys afterLast.fragmentBuffer := by
  refine ⟨?_, reassemble_lastHalf, by decide, by decide, by decide, by decide⟩
  rw [handleAll_buffers]
  decide +kernel

end Unikernel.Network
