import Unikernel.Xen.Spans

/-!
# What `malloc` does to the heap

- `firstFit_spec`: the search ends with a free chunk that has room, or with none.
- `carve`: a chunk in hand is put in use, and the rest of it in the queue.
- `wholePages_leads`, `newPage_leads`, `takeFree_leads`: the three ways to a block.
- `malloc_leads`: `malloc` returns a new block, or `NULL`.
-/

namespace Unikernel.Xmalloc

/-! ## Chunks in hand

`malloc` takes a chunk off the queue, or gets one from the page allocator. Until its header says
that it is in use, it is in hand: `Books` knows of the other chunks only, and its words may be
written. `maybe_split` cuts it if at least 64 bytes would be left over, which go to the queue. -/

/-- The chunk `c` is put in use for `n` bytes, as a whole or with the rest cut off. -/
inductive Split (c : Chunk) (n : Nat) : List Chunk → Prop where
  | whole : Split c n [⟨c.addr, c.size, some n⟩]
  | cut (k : Nat) (hk : 8 ∣ k) (hn : 32 + n ≤ k) (hrest : k + 64 ≤ c.size) :
    Split c n [⟨c.addr, k, some n⟩, ⟨c.addr + k, c.size - k, none⟩]

section Carve

variable {fl n : Nat} {m : Mem} {c : Chunk} {cs : List Chunk} {free : List Nat} {K : Nat → Prop}

/-- A chunk is cut in two. -/
theorem Apart.cut (h : Apart fl (c :: cs)) {k : Nat} (hk : 8 ∣ k) (hn : 32 + n ≤ k)
    (hrest : k + 64 ≤ c.size) :
    Apart fl (⟨c.addr, k, some n⟩ :: ⟨c.addr + k, c.size - k, none⟩ :: cs) := by
  have hc := h.ok c List.mem_cons_self
  -- both parts lie in the chunk, so they meet nothing that it did not meet
  have hlow : (⟨c.addr, k⟩ : Extent).Within c.extent :=
    ⟨Nat.le_refl _, by show c.addr + k ≤ c.addr + c.size; omega⟩
  have hhigh : (⟨c.addr + k, c.size - k⟩ : Extent).Within c.extent :=
    ⟨Nat.le_add_right _ _, by show c.addr + k + (c.size - k) ≤ c.addr + c.size; omega⟩
  have hothers := (Separated.cons_iff.mp h.separated).1
  refine ⟨?_, ?_, ?_⟩
  · refine Separated.cons_iff.mpr ⟨?_, Separated.cons_iff.mpr ⟨?_, h.tail.separated⟩⟩
    · intro f hf
      rcases List.mem_cons.mp hf with rfl | hf
      · exact Or.inl (Nat.le_refl _)
      · exact (hothers f hf).within hlow (.refl f)
    · exact fun f hf => (hothers f hf).within hhigh (.refl f)
  · intro d hd
    rcases List.mem_cons.mp hd with rfl | hd
    · exact ⟨hc.aligned, hk, hn⟩
    · rcases List.mem_cons.mp hd with rfl | hd
      · refine ⟨Nat.dvd_add hc.aligned hk, Nat.dvd_sub hc.sized hk, ?_⟩
        show 32 ≤ c.size - k
        omega
      · exact h.ok d (List.mem_cons_of_mem _ hd)
  · intro d hd
    have hhead := h.head c List.mem_cons_self
    rcases List.mem_cons.mp hd with rfl | hd
    · exact hhead.within hlow (.refl _)
    · rcases List.mem_cons.mp hd with rfl | hd
      · exact hhead.within hhigh (.refl _)
      · exact h.head d (List.mem_cons_of_mem _ hd)

/-- What `maybe_split` comes to without wrapping around: the size is rounded up to a multiple of
eight, and still fits, since chunk sizes are such multiples. -/
theorem maybeSplit_eq (fl : Nat) (hok : c.Ok) (hstop : c.addr + c.size < 2 ^ 64)
    (hn : 32 + n ≤ c.size) :
    ∃ k, 8 ∣ k ∧ 32 + n ≤ k ∧ ∀ m, maybeSplit fl m c.addr (32 + n) c.size =
      if c.size - k ≥ 64 then Function.update (Tailq.insertHead Hdr.freelist
        (Function.update m (c.addr + k) (c.size - k)) fl (c.addr + k)) c.addr k
      else Function.update m c.addr c.size := by
  have hsized := hok.sized
  obtain ⟨k, hround, hk8, hnk, hkc⟩ : ∃ k, alignUp (alignUp (32 + n) 8) 8 = k ∧ 8 ∣ k ∧
      32 + n ≤ k ∧ k ≤ c.size := by
    refine ⟨(32 + n + 7) / 8 * 8, ?_, Nat.dvd_mul_left 8 _, by omega, by omega⟩
    rw [alignUp_eq (n := 32 + n) (by omega)]
    exact alignUp_of_dvd (Nat.dvd_mul_left 8 _) (by omega)
  have hleft : sub c.size k = c.size - k := sub_eq hkc (by omega)
  refine ⟨k, hk8, hnk, ?_⟩
  intro m
  simp only [maybeSplit, alignofHdr, alignofPad, hround, hleft, add_eq (a := c.addr) (b := k)
    (by omega)]
  rfl

/-- Enough is left over: the chunk is cut. The rest is written and given to the queue, and then
the chunk itself is written. -/
theorem carve_cut (hb : Books fl m cs free) (hap : Apart fl (c :: cs)) (hK : Spares K fl cs)
    (hc : ∀ a, K a → ¬ c.extent.Has a) {k : Nat} (hk : 8 ∣ k) (hn : 32 + n ≤ k)
    (hrest : k + 64 ≤ c.size) {m' : Mem}
    (hm' : m' = Function.update (Function.update (Tailq.insertHead Hdr.freelist
      (Function.update m (c.addr + k) (c.size - k)) fl (c.addr + k)) c.addr k) (c.addr + 24) 32) :
    (∃ free', Books fl m' (⟨c.addr, k, some n⟩ :: ⟨c.addr + k, c.size - k, none⟩ :: cs) free') ∧
      AgreeOn K m m' := by
  subst hm'
  have hok := hap.ok c List.mem_cons_self
  have hcut := hap.cut (n := n) hk hn hrest
  -- the header of the rest is inside the chunk in hand
  have hextra : c.extent.Has (c.addr + k) :=
    ⟨Nat.le_add_right _ _, by show c.addr + k < c.addr + c.size; omega⟩
  -- what `K` spares was no part of the chunk, and so is no part of the rest
  have hspares : Spares K fl (⟨c.addr + k, c.size - k, none⟩ :: cs) := by
    refine hK.cons (hcut.tail.ok _ List.mem_cons_self) ?_
    intro a ha hhas
    refine hc a ha (Extent.Within.has ⟨Nat.le_add_right _ _, ?_⟩ hhas)
    show c.addr + k + (c.size - k) ≤ c.addr + c.size
    omega
  have h₁ := hb.store hap hextra (c.size - k)
  have h₂ := h₁.give (c := ⟨c.addr + k, c.size - k, none⟩) hcut.tail rfl
    (by show c.addr + k ≠ 0; omega) (Mem.update_self m (c.addr + k) (c.size - k))
  have hhas : ∀ j < 32, (Chunk.extent ⟨c.addr, k, some n⟩).Has (c.addr + j) := fun j hj =>
    (hcut.ok _ List.mem_cons_self).has hj
  have h₃ := (h₂.store hcut (hhas 0 (by decide)) k).store hcut (hhas 24 (by decide)) 32
  refine ⟨⟨_, h₃.use rfl ?_ (Function.update_self _ _ _)⟩, ?_⟩
  · exact (Function.update_of_ne (by show c.addr ≠ c.addr + 24; omega) _ _).trans
      (Function.update_self _ _ _)
  · refine ((AgreeOn.trans ((AgreeOn.refl K m).update ?_ _)
      (hspares.insertHead h₁)).update ?_ _).update ?_ _
    · exact fun ha => hc _ ha hextra
    · exact fun ha => hc _ ha (hok.has (by decide : 0 < 32))
    · exact fun ha => hc _ ha (hok.has (by decide : 24 < 32))

/-- Too little is left over, and the block gets all of it. -/
theorem carve_whole (hb : Books fl m cs free) (hap : Apart fl (c :: cs))
    (hc : ∀ a, K a → ¬ c.extent.Has a) {m' : Mem}
    (hm' : m' = Function.update (Function.update m c.addr c.size) (c.addr + 24) 32) :
    Books fl m' (⟨c.addr, c.size, some n⟩ :: cs) free ∧ AgreeOn K m m' := by
  subst hm'
  have hok := hap.ok c List.mem_cons_self
  have hsize : c.extent.Has c.addr := hok.has (by decide : 0 < 32)
  have hpad : c.extent.Has (c.addr + 24) := hok.has (by decide : 24 < 32)
  have h₁ := (hb.store hap hsize c.size).store hap hpad 32
  refine ⟨h₁.use (c := ⟨c.addr, c.size, some n⟩) rfl ?_ (Function.update_self _ _ _), ?_⟩
  · exact (Function.update_of_ne (by show c.addr ≠ c.addr + 24; omega) _ _).trans
      (Function.update_self _ _ _)
  · exact ((AgreeOn.refl K m).update (fun ha => hc _ ha hsize) _).update
      (fun ha => hc _ ha hpad) _

/-- **`maybe_split`**, and the word in front of the data. -/
theorem carve (hb : Books fl m cs free) (hap : Apart fl (c :: cs))
    (hstop : c.extent.stop < 2 ^ 64) (hn : 32 + n ≤ c.size) (hK : Spares K fl cs)
    (hc : ∀ a, K a → ¬ c.extent.Has a) :
    ∃ new free', Split c n new ∧
      Books fl (Function.update (maybeSplit fl m c.addr (32 + n) c.size) (c.addr + 24) 32)
        (new ++ cs) free' ∧
      AgreeOn K m
        (Function.update (maybeSplit fl m c.addr (32 + n) c.size) (c.addr + 24) 32) := by
  obtain ⟨k, hk, hnk, hsplit⟩ := maybeSplit_eq fl (hap.ok c List.mem_cons_self) hstop hn
  rw [hsplit]
  by_cases hroom : c.size - k ≥ 64
  · rw [if_pos hroom]
    obtain ⟨⟨free', hbooks⟩, hagree⟩ := carve_cut hb hap hK hc hk hnk (by omega) rfl
    exact ⟨_, free', .cut k hk hnk (by omega), hbooks, hagree⟩
  · rw [if_neg hroom]
    obtain ⟨hbooks, hagree⟩ := carve_whole hb hap hc rfl
    exact ⟨_, free, .whole, hbooks, hagree⟩

end Carve

/-! ## Spans

What cutting does to the page around the chunk: it stays filled without gaps, and no two of its
free chunks are neighbours. -/

section Carved

variable {b n : Nat} {c : Chunk} {new bs₁ bs₂ : List Chunk}

/-- A chunk in use separates the chunks on its two sides. -/
theorem isChain_used {u : Chunk} (hu : u.free = false) :
    (bs₁ ++ u :: bs₂).IsChain (fun c d => c.free = false ∨ d.free = false) ↔
      bs₁.IsChain (fun c d => c.free = false ∨ d.free = false) ∧
        bs₂.IsChain (fun c d => c.free = false ∨ d.free = false) := by
  rw [List.isChain_append, List.isChain_cons]
  simp [hu]

/-- The part of a span from which a block has been carved. -/
theorem Split.tiles (h : Split c n new) : Tiles c.addr new c.extent.stop := by
  cases h with
  | whole => exact ⟨rfl, rfl⟩
  | cut k hk hn hrest =>
    refine ⟨rfl, rfl, ?_⟩
    show c.addr + k + (c.size - k) = c.addr + c.size
    omega

/-- One block comes out of it. -/
theorem Split.live (h : Split c n new) : live new = [⟨c.addr + 32, n⟩] := by
  cases h <;> rfl

/-- The parts have room for their headers, and the block fits in its part. -/
theorem Split.ok (h : Split c n new) (hc : c.Ok) (hn : 32 + n ≤ c.size) {stop : Nat}
    (hin : c.addr + 32 < stop) (hstop : c.extent.stop ≤ stop) :
    ∀ d ∈ new, d.Ok ∧ d.addr + 32 < stop := by
  have hstop : c.addr + c.size ≤ stop := hstop
  cases h with
  | whole =>
    intro d hd
    obtain rfl := List.mem_singleton.mp hd
    exact ⟨⟨hc.aligned, hc.sized, hn⟩, hin⟩
  | cut k hk hnk hrest =>
    intro d hd
    rcases List.mem_pair.mp hd with rfl | rfl
    · exact ⟨⟨hc.aligned, hk, hnk⟩, hin⟩
    · refine ⟨⟨Nat.dvd_add hc.aligned hk, Nat.dvd_sub hc.sized hk, ?_⟩, ?_⟩
      · show 32 ≤ c.size - k
        omega
      · show c.addr + k + 32 < stop
        omega

/-- **A page keeps its form** when a block is carved from a free chunk of it. -/
theorem carve_ok (hcut : Span.Cut ⟨b, 0, bs₁ ++ c :: bs₂⟩)
    (hmerged : (bs₁ ++ c :: bs₂).IsChain fun c d => c.free = false ∨ d.free = false)
    (hc : c.free = true) (hn : 32 + n ≤ c.size) (hsplit : Split c n new) :
    Span.Ok ⟨b, 0, bs₁ ++ new ++ bs₂⟩ := by
  obtain ⟨htiles, hok⟩ := hcut
  obtain ⟨hleft, hright⟩ := Tiles.middle_iff.mp htiles
  obtain ⟨hcok, hcin⟩ := hok c (List.mem_append_right _ List.mem_cons_self)
  obtain ⟨hchain₁, hchain₂, -⟩ := List.isChain_append.mp hmerged
  -- filled, chunks in order, free chunks apart, in use, and one page only
  refine ⟨⟨?_, ?_⟩, ?_, ?_, fun hne => absurd rfl hne⟩
  · exact Tiles.append_iff.mpr ⟨_, Tiles.append_iff.mpr ⟨_, hleft, hsplit.tiles⟩, hright⟩
  · intro d hd
    rcases List.mem_append.mp hd with hd | hd
    · rcases List.mem_append.mp hd with hd | hd
      · exact hok d (List.mem_append_left _ hd)
      · exact hsplit.ok hcok hn hcin hright.le d hd
    · exact hok d (List.mem_append_right _ (List.mem_cons_of_mem _ hd))
  · cases hsplit with
    | whole =>
      show (bs₁ ++ [_] ++ bs₂).IsChain _
      rw [List.append_assoc, List.singleton_append]
      exact (isChain_used rfl).mpr ⟨hchain₁, hchain₂.tail⟩
    | cut k hk hnk hrest =>
      show (bs₁ ++ [_, _] ++ bs₂).IsChain _
      rw [List.append_assoc]
      refine (isChain_used rfl).mpr ⟨hchain₁, ?_⟩
      -- the free rest has the neighbour that the free chunk had
      refine List.isChain_cons.mpr ⟨?_, hchain₂.tail⟩
      intro d hd
      rcases (List.isChain_cons.mp hchain₂).1 d hd with hused | hused
      · rw [hc] at hused
        cases hused
      · exact Or.inr hused
  · cases hsplit with
    | whole => exact ⟨_, List.mem_append_left _ (List.mem_append_right _ List.mem_cons_self), rfl⟩
    | cut k hk hnk hrest =>
      exact ⟨_, List.mem_append_left _ (List.mem_append_right _ List.mem_cons_self), rfl⟩

end Carved

/-! ## The search

The queue is walked from its head. The invariant is about the elements that were passed
(`done`) and those to come (`todo`), which together are the queue; the ones that were
passed were too small. -/

section Search

variable {fl n i fuel : Nat} {m : Mem} {cs : List Chunk} {free todo : List Nat}

/-- The data of a block begin behind the header. -/
theorem alignUp_data {i : Nat} (hi : 8 ∣ i) (hlimit : i + 64 < 2 ^ 64) :
    alignUp (add i 32) 8 = i + 32 := by
  rw [add_eq (by omega)]
  exact alignUp_of_dvd (Nat.dvd_add hi (by decide)) (by omega)

/-- **The search** ends with a free chunk that has room, or with `NULL` when there is none. -/
theorem firstFit_spec (done : List Nat) (hb : Books fl m cs (done ++ todo)) (hn : n < 4096)
    (hcs : ∀ c ∈ cs, c.Ok ∧ c.extent.stop + 4096 ≤ 2 ^ 64) (hfuel : todo.length < fuel) :
    ∃ j, firstFit m 32 n 8 fuel (todo.headD 0) = .ok j ∧
      if j = 0 then ∀ i ∈ todo, m (Hdr.size i) < 32 + n
      else j ∈ todo ∧ ∃ c ∈ cs, c.free = true ∧ c.addr = j ∧ 32 + n ≤ c.size := by
  induction fuel generalizing done todo with
  | zero => exact absurd hfuel (Nat.not_lt_zero _)
  | succ fuel ih =>
    cases todo with
    | nil => exact ⟨0, rfl, fun i hi => by cases hi⟩
    | cons i todo =>
      -- an element of the queue is a free chunk
      obtain ⟨c, hc, hfree, rfl⟩ := hb.exists_chunk
        (List.mem_append_right _ (List.mem_cons_self (a := i)))
      obtain ⟨hok, hlimit⟩ := hcs c hc
      have hlimit : c.addr + c.size + 4096 ≤ 2 ^ 64 := hlimit
      have hleast := hok.room
      have hne : c.addr ≠ 0 :=
        Tailq.ne_zero hb.queue (List.mem_append_right _ List.mem_cons_self)
      have hnext : m (Tailq.next Hdr.freelist c.addr) = todo.headD 0 := Tailq.next_eq hb.queue
      have hsize : m (Hdr.size c.addr) = c.size := hb.size c hc
      have hbegin : alignUp (add c.addr 32) 8 = c.addr + 32 :=
        alignUp_data hok.aligned (by omega)
      rw [List.headD_cons]
      simp only [firstFit, if_neg hne, hnext, hsize, hbegin,
        add_eq (a := c.addr + 32) (b := n) (by omega),
        add_eq (a := c.addr) (b := c.size) (by omega)]
      by_cases hroom : c.addr + 32 + n > c.addr + c.size
      · -- the chunk is too small, and the search goes on behind it
        rw [if_pos hroom]
        obtain ⟨j, hfit, hj⟩ := ih (done ++ [c.addr])
          (by rwa [List.append_assoc, List.singleton_append]) (Nat.lt_of_succ_lt_succ hfuel)
        refine ⟨j, hfit, ?_⟩
        split
        · next hzero =>
          rw [if_pos hzero] at hj
          exact List.forall_mem_cons.mpr ⟨by omega, hj⟩
        · next hsome =>
          rw [if_neg hsome] at hj
          exact ⟨List.mem_cons_of_mem _ hj.1, hj.2⟩
      · rw [if_neg hroom]
        refine ⟨c.addr, rfl, ?_⟩
        rw [if_neg hne]
        exact ⟨List.mem_cons_self, c, hc, hfree, rfl, by omega⟩

end Search

/-! ## A chunk of a heap

The three ways to a block end alike: a chunk of some page has been carved, and the heap has one
block more. What is shown of each is `Leads`. -/

/-- `s'` has the blocks `l'` out, and nothing has been written to the blocks `l`. -/
def Leads {π : Type} (arena : Nat → Prop) (out : π → Mem → List Extent → Prop) (fl : Nat)
    (s : Heap π) (l : List Extent) (s' : Heap π) (l' : List Extent) : Prop :=
  AgreeOn (Malloc.Kept (Arena arena fl) l) s.mem s'.mem ∧ Out out fl s'.pager s'.mem l'

/-- The page around a chunk comes first. -/
theorem exists_around {Xs : List Span} {c : Chunk} (hc : c ∈ Xs.flatMap Span.chunks) :
    ∃ b k bs₁ bs₂ Ys, Xs.Perm (⟨b, k, bs₁ ++ c :: bs₂⟩ :: Ys) := by
  obtain ⟨⟨b, k, cs⟩, hX, hc⟩ := List.mem_flatMap.mp hc
  obtain ⟨bs₁, bs₂, rfl⟩ := List.append_of_mem hc
  obtain ⟨Ys₁, Ys₂, rfl⟩ := List.append_of_mem hX
  exact ⟨b, k, bs₁, bs₂, Ys₁ ++ Ys₂, List.perm_middle⟩

/-- Larger spans are one block. -/
theorem Span.Ok.order_eq {b k : Nat} {bs₁ bs₂ : List Chunk} {c : Chunk}
    (h : Span.Ok ⟨b, k, bs₁ ++ c :: bs₂⟩) (hc : c.free = true) : k = 0 := by
  by_contra hk
  obtain ⟨d, hd⟩ := h.single hk
  have hd : bs₁ ++ c :: bs₂ = [d] := hd
  obtain ⟨u, hu, hused⟩ := h.inUse
  have hmem : c ∈ bs₁ ++ c :: bs₂ := List.mem_append_right _ List.mem_cons_self
  have hu : u ∈ bs₁ ++ c :: bs₂ := hu
  rw [hd] at hmem hu
  rw [List.mem_singleton.mp hu, ← List.mem_singleton.mp hmem, hc] at hused
  cases hused

/-- The blocks do not depend on the order of the chunks. -/
theorem live_perm {cs cs' : List Chunk} (hp : cs.Perm cs') : (live cs).Perm (live cs') :=
  hp.filterMap _

/-- The blocks of two parts. -/
theorem live_append (cs cs' : List Chunk) : live (cs ++ cs') = live cs ++ live cs' :=
  List.filterMap_append

/-- A free chunk is no block. -/
theorem live_cons_free {c : Chunk} (hc : c.free = true) (cs : List Chunk) :
    live (c :: cs) = live cs := by
  refine List.filterMap_cons_none ?_
  rw [Chunk.data, Option.isNone_iff_eq_none.mp hc]
  rfl

/-- Chunks in the middle of a page come first. -/
theorem perm_around (bs₁ new bs₂ rest : List Chunk) :
    (bs₁ ++ new ++ bs₂ ++ rest).Perm (new ++ (bs₁ ++ bs₂ ++ rest)) := by
  rw [List.append_assoc, List.append_assoc, List.append_assoc]
  exact List.perm_append_comm_assoc bs₁ new (bs₂ ++ rest)

section Ways

variable {π : Type} {P : Pager π} {arena : Nat → Prop} {out : π → Mem → List Extent → Prop}
  {fl n b k p : Nat} {s : Heap π} {π' : π} {m' : Mem} {c : Chunk} {Xs Ys : List Span}
  {new bs₁ bs₂ : List Chunk} {free : List Nat}

/-- The heap after a block has been carved from a page. -/
theorem Rep.of_carved (hP : P.Lawful pageSize arena out)
    (hlaid : Laid out π' m' (⟨b, 0, bs₁ ++ c :: bs₂⟩ :: Ys)) (hYs : ∀ X ∈ Ys, X.Ok)
    (hmerged : (bs₁ ++ c :: bs₂).IsChain fun c d => c.free = false ∨ d.free = false)
    (hc : c.free = true) (hn : 32 + n ≤ c.size) (hsplit : Split c n new) {m : Mem}
    (hm : AgreeOn (Spared arena fl (⟨b, 0, bs₁ ++ c :: bs₂⟩ :: Ys)
      (live ((bs₁ ++ c :: bs₂) ++ Ys.flatMap Span.chunks))) m' m)
    (hb : Books fl m (new ++ (bs₁ ++ bs₂ ++ Ys.flatMap Span.chunks)) free) :
    Out out fl π' m (⟨c.addr + 32, n⟩ :: live ((bs₁ ++ c :: bs₂) ++ Ys.flatMap Span.chunks)) := by
  refine ⟨⟨b, 0, bs₁ ++ new ++ bs₂⟩ :: Ys, free, ⟨?_, ?_, ?_⟩, ?_⟩
  · exact hP.store _ _ _ _ hlaid.out (hm.mono fun a ha => Or.inr ha)
  · intro X hX
    rcases List.mem_cons.mp hX with rfl | hX
    · exact carve_ok (hlaid.cut _ List.mem_cons_self) hmerged hc hn hsplit
    · exact hYs X hX
  · exact hb.perm (perm_around bs₁ new bs₂ _).symm
  · -- the blocks that were out, without the carved chunk, which was none
    have hold : (live ((bs₁ ++ c :: bs₂) ++ Ys.flatMap Span.chunks)).Perm
        (live (bs₁ ++ bs₂ ++ Ys.flatMap Span.chunks)) := by
      rw [← live_cons_free hc (bs₁ ++ bs₂ ++ Ys.flatMap Span.chunks)]
      exact live_perm (List.perm_middle.append_right _)
    have hnew := live_perm (perm_around bs₁ new bs₂ (Ys.flatMap Span.chunks))
    refine ((hold.cons _).trans ?_).trans hnew.symm
    rw [live_append new, hsplit.live]
    exact List.Perm.refl _

/-- **A block from the free list.** -/
theorem takeFree_leads (hP : P.Lawful pageSize arena out)
    (hfl : ∀ a, (headExtent fl).Has a → ¬ arena a) (h : Rep out fl s Xs free)
    (hc : c ∈ Xs.flatMap Span.chunks) (hfree : c.free = true) (hn : 32 + n ≤ c.size) :
    Leads arena out fl s (live (Xs.flatMap Span.chunks))
      ⟨Function.update (maybeSplit fl (Tailq.remove Hdr.freelist s.mem fl c.addr) c.addr (32 + n)
        c.size) (c.addr + 24) 32, s.pager⟩
      (⟨c.addr + 32, n⟩ :: live (Xs.flatMap Span.chunks)) := by
  obtain ⟨b, k, bs₁, bs₂, Ys, hp⟩ := exists_around hc
  have hrep := h.perm hP hp
  -- a free chunk is in a span of one page
  obtain rfl := (hrep.ok _ List.mem_cons_self).order_eq hfree
  have hlaid := hrep.laid
  have hflat : (Xs.flatMap Span.chunks).Perm ((bs₁ ++ c :: bs₂) ++ Ys.flatMap Span.chunks) :=
    hp.flatMap_right _
  have hlive := live_perm hflat
  have harr : ((bs₁ ++ c :: bs₂) ++ Ys.flatMap Span.chunks).Perm
      (c :: (bs₁ ++ bs₂ ++ Ys.flatMap Span.chunks)) := List.perm_middle.append_right _
  have hap := (hlaid.apart hP hfl).perm harr
  have hspares := (hlaid.spares hP hfl fun e he => he).perm harr
  -- where the chunk is in the queue
  have hmem : c.addr ∈ free :=
    h.books.free.mem_iff.mpr (List.mem_map_of_mem (List.mem_filter.mpr ⟨hc, hfree⟩))
  obtain ⟨done, todo, rfl⟩ := List.append_of_mem hmem
  have hbooks := hrep.books.perm harr
  -- taking it off the queue writes to links of free chunks and to the head only
  have hremove := hspares.remove hap hbooks
  obtain ⟨hb, -⟩ := hbooks.take hap hfree
  have hstop : c.extent.stop < 2 ^ 64 := by
    have hlimit := (h.laid.chunk hP hc).2.2.1
    omega
  obtain ⟨new, free', hsplit, hb', hcarve⟩ := carve hb hap hstop hn
    hspares.tail (hspares.free c List.mem_cons_self hfree)
  have hm := hremove.trans hcarve
  refine ⟨hm.mono fun a ha => Or.inl (ha.mono fun e he => hlive.mem_iff.mp he), ?_⟩
  obtain ⟨Zs, free'', hZ, hpZ⟩ := Rep.of_carved hP hlaid
    (fun X hX => hrep.ok X (List.mem_cons_of_mem _ hX))
    (hrep.ok _ List.mem_cons_self).merged hfree hn hsplit hm hb'
  exact ⟨Zs, free'', hZ, (hlive.cons _).trans hpZ⟩

/-- **A block from a new page.** -/
theorem newPage_leads (hP : P.Lawful pageSize arena out)
    (hfl : ∀ a, (headExtent fl).Has a → ¬ arena a) (h : Rep out fl s Xs free)
    (hkept : AgreeOn (Malloc.Kept arena (Xs.map Span.extent)) s.mem m')
    (hout : out π' m' (⟨p, 4096⟩ :: Xs.map Span.extent)) (hn : 32 + n < 4096) :
    Leads arena out fl s (live (Xs.flatMap Span.chunks))
      ⟨Function.update (maybeSplit fl m' p (32 + n) 4096) (p + 24) 32, π'⟩
      (⟨p + 32, n⟩ :: live (Xs.flatMap Span.chunks)) := by
  have haligned := (hP.block _ _ _ hout _ List.mem_cons_self).2.1
  have haligned : 4096 ∣ p := haligned
  -- the new page is a single free chunk, in hand
  have hpage : Span.Cut ⟨p, 0, [] ++ (⟨p, 4096, none⟩ : Chunk) :: []⟩ := by
    refine ⟨⟨rfl, rfl⟩, ?_⟩
    intro c hc
    obtain rfl := List.mem_singleton.mp hc
    refine ⟨⟨Nat.dvd_trans (by decide) haligned, (by decide : 8 ∣ 4096),
      (by decide : 32 ≤ 4096)⟩, ?_⟩
    exact Nat.add_lt_add_left (by decide : 32 < 4096) p
  have hlaid : Laid out π' m' (⟨p, 0, [] ++ (⟨p, 4096, none⟩ : Chunk) :: []⟩ :: Xs) := by
    refine ⟨hout, ?_⟩
    intro X hX
    rcases List.mem_cons.mp hX with rfl | hX
    · exact hpage
    · exact (h.ok X hX).toCut
  have hap := hlaid.apart hP hfl
  have hspares := hlaid.spares hP hfl fun e he => he
  have hstop : (Chunk.extent ⟨p, 4096, none⟩).stop < 2 ^ 64 := by
    have hlimit := (hlaid.chunk hP (c := ⟨p, 4096, none⟩) List.mem_cons_self).2.2.1
    omega
  -- the chunks that were there have not been written to by the page allocator
  obtain ⟨new, free', hsplit, hb, hcarve⟩ := carve (h.books.kept hfl h.cut hkept) hap hstop
    (Nat.le_of_lt hn) hspares.tail (hspares.free _ List.mem_cons_self rfl)
  refine ⟨AgreeOn.trans (hkept.mono fun a ha => kept_pager h.cut (fun e he => he) ha)
    (hcarve.mono fun a ha => Or.inl ha), ?_⟩
  exact Rep.of_carved hP hlaid h.ok (List.isChain_singleton _) rfl (Nat.le_of_lt hn) hsplit hcarve
    hb

/-- **A block of whole pages.** -/
theorem wholePages_leads (hP : P.Lawful pageSize arena out)
    (hfl : ∀ a, (headExtent fl).Has a → ¬ arena a) (h : Rep out fl s Xs free)
    (hkept : AgreeOn (Malloc.Kept arena (Xs.map Span.extent)) s.mem m')
    (hout : out π' m' (⟨p, 4096 * 2 ^ k⟩ :: Xs.map Span.extent)) (hn : 32 + n ≤ 4096 * 2 ^ k) :
    Leads arena out fl s (live (Xs.flatMap Span.chunks))
      ⟨Function.update (Function.update m' p (4096 * 2 ^ k)) (p + 24) 32, π'⟩
      (⟨p + 32, n⟩ :: live (Xs.flatMap Span.chunks)) := by
  have haligned := (hP.block _ _ _ hout _ List.mem_cons_self).2.1
  have haligned : 4096 ∣ p := haligned
  have hpos := Nat.two_pow_pos k
  -- the pages are a single block, which is never cut
  have hspan : Span.Ok ⟨p, k, [⟨p, 4096 * 2 ^ k, some n⟩]⟩ := by
    refine ⟨⟨⟨rfl, rfl⟩, ?_⟩, List.isChain_singleton _, ⟨_, List.mem_cons_self, rfl⟩,
      fun _ => ⟨_, rfl⟩⟩
    intro c hc
    obtain rfl := List.mem_singleton.mp hc
    refine ⟨⟨Nat.dvd_trans (by decide) haligned, Nat.dvd_mul_right_of_dvd (by decide) _, hn⟩, ?_⟩
    show p + 32 < p + 4096 * 2 ^ k
    omega
  have hspans : ∀ X ∈ (⟨p, k, [⟨p, 4096 * 2 ^ k, some n⟩]⟩ : Span) :: Xs, X.Ok := by
    intro X hX
    rcases List.mem_cons.mp hX with rfl | hX
    · exact hspan
    · exact h.ok X hX
  have hlaid : Laid out π' m' (⟨p, k, [⟨p, 4096 * 2 ^ k, some n⟩]⟩ :: Xs) :=
    ⟨hout, fun X hX => (hspans X hX).toCut⟩
  have hap := hlaid.apart hP hfl
  have hspares := hlaid.spares (l := live (Xs.flatMap Span.chunks)) hP hfl
    fun e he => List.mem_cons_of_mem _ he
  have hok := (hspan.ok _ List.mem_cons_self).1
  -- the size and the distance to the header are written, both in front of the block
  have hm : AgreeOn (Spared arena fl (⟨p, k, [⟨p, 4096 * 2 ^ k, some n⟩]⟩ :: Xs)
      (live (Xs.flatMap Span.chunks))) m'
      (Function.update (Function.update m' p (4096 * 2 ^ k)) (p + 24) 32) :=
    ((AgreeOn.refl _ m').update (fun ha => hspares.head _ List.mem_cons_self _ ha
      (Chunk.head_has (by decide : 0 < 32))) _).update
      (fun ha => hspares.head _ List.mem_cons_self _ ha (Chunk.head_has (by decide : 24 < 32))) _
  refine ⟨AgreeOn.trans (hkept.mono fun a ha => kept_pager h.cut (fun e he => he) ha)
    (hm.mono fun a ha => Or.inl ha), ?_⟩
  refine ⟨_, free, ⟨hP.store _ _ _ _ hout (hm.mono fun a ha => Or.inr ha), hspans, ?_⟩,
    List.Perm.refl _⟩
  have hb := ((h.books.kept hfl h.cut hkept).store hap (hok.has (by decide : 0 < 32))
    (4096 * 2 ^ k)).store hap (hok.has (by decide : 24 < 32)) 32
  refine hb.use rfl ?_ (Function.update_self _ _ _)
  refine (Function.update_of_ne ?_ _ _).trans (Function.update_self _ _ _)
  show p ≠ p + 24
  omega

end Ways

/-! ## The allocator

What is left is arithmetic: below `2 ^ 62` nothing in `malloc` wraps around, and with the default
alignment the header and the pad take 32 bytes. -/

section Malloc

variable {π : Type} {P : Pager π} {arena : Nat → Prop} {out : π → Mem → List Extent → Prop}
  {fl fuel n k p : Nat} {s : Heap π} {m : Mem} {Xs : List Span} {free : List Nat}

/-- The word in front of the data is the distance to the header. -/
theorem setPad_eq {q : π} (hp : 8 ∣ p) (hlimit : p + 32 < 2 ^ 64) :
    setPad ⟨m, q⟩ p (p + 32) 8 = .ok (⟨Function.update m (p + 24) 32, q⟩, p + 32) := by
  have hpad : sub (p + 32) sizeofPad = p + 24 := sub_eq (by show 8 ≤ p + 32; omega) hlimit
  have hdist : sub (p + 32) p = 32 := by
    rw [sub_eq (Nat.le_add_right _ _) hlimit]
    omega
  have haligned : ¬ (p + 32) % 8 ≠ 0 := by omega
  simp only [setPad, hpad, hdist, if_neg haligned]

/-- A step that returns. -/
theorem ok_bind {ε α β : Type} (a : α) (f : α → Except ε β) : (Except.ok a >>= f) = f a := rfl

/-- The size of the pages, as the code shifts it. -/
theorem wholePages_size (hk : 4096 * 2 ^ k < 2 ^ 64) :
    (1 <<< (k + pageShift)) % 2 ^ 64 = 4096 * 2 ^ k := by
  rw [Nat.one_shiftLeft, pageShift, Nat.pow_add, Nat.mul_comm]
  exact Nat.mod_eq_of_lt hk

/-- The data begin where the header ends, so that nothing is cut off in front. -/
theorem takeFree_of_zero {i d : Nat} (h : sub (sub d k) i = 0) (hk : 0 < k) :
    takeFree fl m i d k n = (maybeSplit fl (Tailq.remove Hdr.freelist m fl i) i (sub (add d n) i)
        (Tailq.remove Hdr.freelist m fl i (Hdr.size i)), i) := by
  have hless : ¬ 0 ≥ 2 * k := by omega
  simp only [takeFree, h, if_neg hless]

/-- The arguments with which `malloc` calls it, without wrapping around. -/
theorem takeFree_eq (hlimit : p + 4096 + 32 ≤ 2 ^ 64) (hn : n < 4096) :
    takeFree fl m p (p + 32) 32 n =
      (maybeSplit fl (Tailq.remove Hdr.freelist m fl p) p (32 + n)
        (Tailq.remove Hdr.freelist m fl p (Hdr.size p)), p) := by
  have hbefore : sub (sub (p + 32) 32) p = 0 := by
    rw [sub_eq (a := p + 32) (by omega) (by omega), Nat.add_sub_cancel,
      sub_eq (Nat.le_refl p) (by omega), Nat.sub_self]
  have hsize : sub (add (p + 32) n) p = 32 + n := by
    rw [add_eq (by omega), sub_eq (by omega) (by omega)]
    omega
  rw [takeFree_of_zero hbefore (by decide), hsize]

/-- What the alignment of `malloc` comes to. -/
theorem layout_eq :
    alignUp (alignUp defaultAlign alignofHdr) alignofPad = 8 ∧
      alignUp (sizeofHdr + sizeofPad) 8 = 32 := by
  decide

/-- With its header the block does not fit in a page. -/
theorem malloc_large (hn : n < 2 ^ 62) (hlarge : 4096 ≤ 32 + n) :
    malloc P fl fuel s n = .ok (xmallocWholePages P s n 8) := by
  have hcond : add n (alignUp (sizeofHdr + sizeofPad)
      (alignUp (alignUp defaultAlign alignofHdr) alignofPad)) ≥ pageSize := by
    rw [layout_eq.1, layout_eq.2, add_eq (by omega), Nat.add_comm]
    exact hlarge
  rw [← layout_eq.1]
  exact if_pos hcond

/-- With its header the block is smaller than a page. -/
theorem not_large (hsmall : 32 + n < 4096) : ¬ add n (alignUp (sizeofHdr + sizeofPad)
      (alignUp (alignUp defaultAlign alignofHdr) alignofPad)) ≥ pageSize := by
  rw [layout_eq.1, layout_eq.2, add_eq (by omega), Nat.add_comm]
  exact Nat.not_le.mpr hsmall

/-- The search has found a chunk. -/
theorem malloc_fit {j i : Nat} {m' : Mem} (hsmall : 32 + n < 4096) (hj : j ≠ 0)
    (hfit : firstFit s.mem 32 n 8 fuel (s.mem (Tailq.first fl)) = .ok j)
    (htake : takeFree fl s.mem j (alignUp (add j 32) 8) 32 n = (m', i)) :
    malloc P fl fuel s n = setPad ⟨m', s.pager⟩ i (alignUp (add j 32) 8) 8 := by
  rw [malloc, _xmalloc, if_neg (not_large hsmall), layout_eq.1,
    show sizeofHdr + sizeofPad = 32 from rfl, hfit, ok_bind, if_pos hj]
  simp only [htake]

/-- The search has found nothing, and a page is asked for. -/
theorem malloc_fresh {p : Nat} {s' : Heap π} (hsmall : 32 + n < 4096)
    (hfit : firstFit s.mem 32 n 8 fuel (s.mem (Tailq.first fl)) = .ok 0)
    (hpage : xmallocNewPage P fl s (32 + n) = (s', p)) :
    malloc P fl fuel s n = if p = 0 then .ok (s', 0) else setPad s' p (add p 32) 8 := by
  have hdata : add (alignUp 32 8) n = 32 + n := by
    rw [alignUp_of_dvd (by decide) (by decide), add_eq (by omega)]
  rw [malloc, _xmalloc, if_neg (not_large hsmall), layout_eq.1,
    show sizeofHdr + sizeofPad = 32 from rfl, hfit, ok_bind, if_neg (not_not_intro rfl), hdata]
  simp only [hpage]
  rfl

/-- The page allocator has no pages. -/
theorem wholePages_zero {q : π} (hn : 32 + n < 2 ^ 64)
    (halloc : P.allocPages s.pager s.mem (getOrder (32 + n)) = (0, q, m)) :
    xmallocWholePages P s n 8 = (⟨m, q⟩, 0) := by
  simp only [xmallocWholePages, layout_eq.2, add_eq hn, halloc, if_true]

/-- The page allocator has pages. -/
theorem wholePages_eq {q : π} (hn : 32 + n < 2 ^ 64) (hp : p ≠ 0) (hlimit : p + 32 < 2 ^ 64)
    (hk : 4096 * 2 ^ getOrder (32 + n) < 2 ^ 64)
    (halloc : P.allocPages s.pager s.mem (getOrder (32 + n)) = (p, q, m)) :
    xmallocWholePages P s n 8 = (⟨Function.update (Function.update m p
      (4096 * 2 ^ getOrder (32 + n))) (p + 24) 32, q⟩, p + 32) := by
  have hpad : sub (p + 32) sizeofPad = p + 24 := sub_eq (by show 8 ≤ p + 32; omega) hlimit
  simp only [xmallocWholePages, layout_eq.2, add_eq hn, halloc, if_neg hp, add_eq hlimit, hpad,
    wholePages_size hk]

/-- The order of the pages that `malloc` asks for, if it asks for pages at all: as many as the
block and its header need, or one page to cut the block from. -/
def pagesFor (n : Nat) : Nat := if 4096 ≤ 32 + n then getOrder (32 + n) else 0

/-- The page allocator has no pages: nothing has happened to the blocks. -/
theorem null_leads (hfl : ∀ a, (headExtent fl).Has a → ¬ arena a) (h : Rep out fl s Xs free)
    {q : π} {m' : Mem} (hkept : AgreeOn (Malloc.Kept arena (Xs.map Span.extent)) s.mem m')
    (hout : out q m' (Xs.map Span.extent)) :
    Leads arena out fl s (live (Xs.flatMap Span.chunks)) ⟨m', q⟩
      (live (Xs.flatMap Span.chunks)) :=
  ⟨hkept.mono fun _ ha => kept_pager h.cut (fun _ he => he) ha, Xs, free,
    ⟨hout, h.ok, h.books.kept hfl h.cut hkept⟩, List.Perm.refl _⟩

/-- **Whole pages**, or `NULL` if there are none of the order. -/
theorem malloc_large_leads (fuel : Nat) (hP : P.Lawful pageSize arena out)
    (hfl : ∀ a, (headExtent fl).Has a → ¬ arena a) (h : Rep out fl s Xs free) (hn : n < 2 ^ 62)
    (hlarge : 4096 ≤ 32 + n) :
    ∃ s' p, malloc P fl fuel s n = .ok (s', p) ∧
      (p = 0 ↔ (P.allocPages s.pager s.mem (getOrder (32 + n))).1 = 0) ∧
      Leads arena out fl s (live (Xs.flatMap Span.chunks)) s'
        (if p = 0 then live (Xs.flatMap Span.chunks)
          else ⟨p, n⟩ :: live (Xs.flatMap Span.chunks)) := by
  obtain ⟨hkept, hout⟩ := hP.alloc _ _ (getOrder (32 + n)) _ h.out
  obtain ⟨p, q, m', halloc⟩ : ∃ p q m',
      P.allocPages s.pager s.mem (getOrder (32 + n)) = (p, q, m') := ⟨_, _, _, rfl⟩
  rw [malloc_large hn hlarge, halloc]
  rw [halloc] at hkept hout
  by_cases hp : p = 0
  · subst hp
    rw [wholePages_zero (by omega) halloc]
    exact ⟨_, _, rfl, Iff.rfl, null_leads hfl h hkept hout⟩
  · have hout : out q m' (⟨p, 4096 * 2 ^ getOrder (32 + n)⟩ :: Xs.map Span.extent) := by
      rwa [if_neg hp] at hout
    have hle := le_getOrder (n := 32 + n) (by omega) (by omega)
    have hstop : p + 4096 * 2 ^ getOrder (32 + n) < 2 ^ 64 :=
      (hP.block _ _ _ hout _ List.mem_cons_self).2.2.1
    rw [wholePages_eq (by omega) hp (by omega) (by omega) halloc]
    refine ⟨_, _, rfl, iff_of_false (Nat.succ_ne_zero _) hp, ?_⟩
    rw [if_neg (Nat.succ_ne_zero _)]
    exact wholePages_leads hP hfl h hkept hout hle

/-- **A single page**, of which the rest becomes free, or `NULL` if there is none: the free list
had no room. -/
theorem malloc_fresh_leads (hP : P.Lawful pageSize arena out)
    (hfl : ∀ a, (headExtent fl).Has a → ¬ arena a) (h : Rep out fl s Xs free)
    (hsmall : 32 + n < 4096)
    (hfit : firstFit s.mem 32 n 8 fuel (s.mem (Tailq.first fl)) = .ok 0) :
    ∃ s' p, malloc P fl fuel s n = .ok (s', p) ∧
      (p = 0 ↔ (P.allocPages s.pager s.mem 0).1 = 0) ∧
      Leads arena out fl s (live (Xs.flatMap Span.chunks)) s'
        (if p = 0 then live (Xs.flatMap Span.chunks)
          else ⟨p, n⟩ :: live (Xs.flatMap Span.chunks)) := by
  obtain ⟨hkept, hout⟩ := hP.alloc _ _ 0 _ h.out
  obtain ⟨p, q, m', halloc⟩ : ∃ p q m', P.allocPages s.pager s.mem 0 = (p, q, m') :=
    ⟨_, _, _, rfl⟩
  rw [halloc] at hkept hout ⊢
  by_cases hp : p = 0
  · subst hp
    have hpage : xmallocNewPage P fl s (32 + n) = (⟨m', q⟩, 0) := by
      simp only [xmallocNewPage, halloc, if_true]
    rw [malloc_fresh hsmall hfit hpage]
    exact ⟨_, _, rfl, Iff.rfl, null_leads hfl h hkept hout⟩
  · have hpage : xmallocNewPage P fl s (32 + n) =
        (⟨maybeSplit fl m' p (32 + n) 4096, q⟩, p) := by
      simp only [xmallocNewPage, halloc, if_neg hp, pageSize_eq]
    have hout : out q m' (⟨p, 4096⟩ :: Xs.map Span.extent) := by
      rwa [if_neg hp] at hout
    obtain ⟨-, haligned, hstop, -⟩ := hP.block _ _ _ hout _ List.mem_cons_self
    have haligned : 4096 ∣ p := haligned
    have hstop : p + 4096 < 2 ^ 64 := hstop
    rw [malloc_fresh hsmall hfit hpage, if_neg hp, add_eq (by omega),
      setPad_eq (by omega) (by omega)]
    refine ⟨_, _, rfl, iff_of_false (Nat.succ_ne_zero _) hp, ?_⟩
    rw [if_neg (Nat.succ_ne_zero _)]
    exact newPage_leads hP hfl h hkept hout hsmall

/-- **A chunk of the free list** that has room; the page allocator is not asked. -/
theorem malloc_fit_leads (hP : P.Lawful pageSize arena out)
    (hfl : ∀ a, (headExtent fl).Has a → ¬ arena a) (h : Rep out fl s Xs free)
    (hsmall : 32 + n < 4096) {c : Chunk} (hc : c ∈ Xs.flatMap Span.chunks) (hfree : c.free = true)
    (hroom : 32 + n ≤ c.size)
    (hfit : firstFit s.mem 32 n 8 fuel (s.mem (Tailq.first fl)) = .ok c.addr) :
    ∃ s', malloc P fl fuel s n = .ok (s', c.addr + 32) ∧
      Leads arena out fl s (live (Xs.flatMap Span.chunks)) s'
        (⟨c.addr + 32, n⟩ :: live (Xs.flatMap Span.chunks)) := by
  obtain ⟨hok, hne, hlimit, -⟩ := h.laid.chunk hP hc
  have hlimit : c.addr + c.size + 4096 ≤ 2 ^ 64 := hlimit
  have hbegin : alignUp (add c.addr 32) 8 = c.addr + 32 := alignUp_data hok.aligned (by omega)
  have hsize : Tailq.remove Hdr.freelist s.mem fl c.addr (Hdr.size c.addr) = c.size :=
    h.books.remove_size (h.laid.apart hP hfl) hc hfree
  have htake : takeFree fl s.mem c.addr (c.addr + 32) 32 n = _ :=
    takeFree_eq (by omega) (by omega)
  rw [hsize, ← hbegin] at htake
  rw [malloc_fit hsmall hne hfit htake, hbegin, setPad_eq hok.aligned (by omega)]
  exact ⟨_, rfl, takeFree_leads hP hfl h hc hfree hroom⟩

/-- **`malloc`** returns a new block, or `NULL` exactly if the page allocator has no pages for it
and, for a small one, no free chunk has room; it does not write to the blocks that are out. -/
theorem malloc_leads (hP : P.Lawful pageSize arena out)
    (hfl : ∀ a, (headExtent fl).Has a → ¬ arena a) (h : Rep out fl s Xs free)
    (hfuel : free.length < fuel) (hn : n < 2 ^ 62) :
    ∃ s' p, malloc P fl fuel s n = .ok (s', p) ∧
      (p = 0 ↔ (P.allocPages s.pager s.mem (pagesFor n)).1 = 0 ∧
        (32 + n < 4096 → ∀ i ∈ free, s.mem (Hdr.size i) < 32 + n)) ∧
      Leads arena out fl s (live (Xs.flatMap Span.chunks)) s'
        (if p = 0 then live (Xs.flatMap Span.chunks)
          else ⟨p, n⟩ :: live (Xs.flatMap Span.chunks)) := by
  by_cases hlarge : 4096 ≤ 32 + n
  · obtain ⟨s', p, heq, hnull, hlead⟩ := malloc_large_leads fuel hP hfl h hn hlarge
    refine ⟨s', p, heq, ?_, hlead⟩
    rw [pagesFor, if_pos hlarge, hnull]
    exact (and_iff_left fun hsmall => absurd hsmall (by omega)).symm
  · have hsmall : 32 + n < 4096 := by omega
    -- the free list is searched first
    obtain ⟨j, hfit, hfound⟩ := firstFit_spec (n := n) [] h.books (by omega)
      (fun c hc => ⟨(h.laid.chunk hP hc).1, (h.laid.chunk hP hc).2.2.1⟩) hfuel
    rw [← Tailq.first_eq h.books.queue] at hfit
    rw [pagesFor, if_neg hlarge]
    by_cases hj : j = 0
    · subst hj
      rw [if_pos rfl] at hfound
      obtain ⟨s', p, heq, hnull, hlead⟩ := malloc_fresh_leads hP hfl h hsmall hfit
      exact ⟨s', p, heq, hnull.trans (and_iff_left fun _ => hfound).symm, hlead⟩
    · rw [if_neg hj] at hfound
      obtain ⟨hmem, c, hc, hfree, rfl, hroom⟩ := hfound
      obtain ⟨s', heq, hlead⟩ := malloc_fit_leads hP hfl h hsmall hc hfree hroom hfit
      have hheader : s.mem (Hdr.size c.addr) = c.size := h.books.size c hc
      refine ⟨s', c.addr + 32, heq, iff_of_false (Nat.succ_ne_zero _) ?_, ?_⟩
      · intro hnull
        have hless := hnull.2 hsmall _ hmem
        omega
      · rw [if_neg (Nat.succ_ne_zero _)]
        exact hlead

end Malloc

end Unikernel.Xmalloc
