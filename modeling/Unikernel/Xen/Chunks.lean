import Mathlib.Data.Nat.Log
import Unikernel.Xen.Xmalloc

/-!
# Chunks and the books about them

A chunk is a piece of a page with a header, in use or free. The books are what the memory
says about chunks: their sizes, the words in front of the data, and the queue of the free
ones.

- `le_getOrder`, `getOrder_pages`: the orders of whole pages.
- `Apart`: chunks that do not meet each other or the head of the queue.
- `Books.store`, `Books.take`, `Books.give`: a chunk that the books do not mention may be
  written, a free one is taken out of the books, and put back.
-/

namespace Unikernel.Xmalloc

/-! ## Arithmetic -/

section Arithmetic

variable {a b n k : Nat}

/-- Below the word size nothing wraps. -/
theorem add_eq (h : a + b < 2 ^ 64) : add a b = a + b := Nat.mod_eq_of_lt h

theorem sub_eq (hba : b ≤ a) (ha : a < 2 ^ 64) : sub a b = a - b := by
  unfold sub
  omega

theorem pageSize_eq : pageSize = 4096 := rfl

/-- Up to the next multiple of eight, -/
theorem alignUp_eq (hn : n + 7 < 2 ^ 64) : alignUp n 8 = (n + 7) / 8 * 8 := by
  have hmask : (n + 7) &&& ((2 ^ 64 - 1) ^^^ (2 ^ 3 - 1)) = (n + 7) / 2 ^ 3 * 2 ^ 3 :=
    Masks.and_high hn 3
  rw [alignUp, show 8 - 1 = 7 from rfl, add_eq hn]
  exact hmask

/-- which is the number itself if it is one. -/
theorem alignUp_of_dvd (hdvd : 8 ∣ n) (hn : n + 7 < 2 ^ 64) : alignUp n 8 = n := by
  rw [alignUp_eq hn]
  omega

/-- The start of the page. -/
theorem pageMask_eq (ha : a < 2 ^ 64) : a &&& pageMask = a / 4096 * 4096 :=
  Masks.and_high ha 12

/-- The two addresses are on the same page. -/
theorem samePage_iff (ha : a < 2 ^ 64) (hb : b < 2 ^ 64) :
    (a ^^^ b) &&& pageMask = 0 ↔ a / 4096 = b / 4096 := by
  rw [Nat.and_xor_distrib_right, pageMask_eq ha, pageMask_eq hb, Nat.xor_eq_zero_iff]
  omega

/-- The place in the page. -/
theorem pageOffset_eq (a : Nat) : a &&& (pageSize - 1) = a % 4096 :=
  Nat.and_two_pow_sub_one_eq_mod a 12

/-- `shifts` counts the bits. -/
theorem shifts_spec (fuel : Nat) {x : Nat} (hx : x < 2 ^ fuel) :
    x < 2 ^ shifts fuel x ∧ ∀ k, x < 2 ^ k → shifts fuel x ≤ k := by
  induction fuel generalizing x with
  | zero => exact ⟨hx, fun k _ => Nat.zero_le k⟩
  | succ fuel ih =>
    unfold shifts
    by_cases hzero : x = 0
    · rw [if_neg (not_not_intro hzero)]
      refine ⟨?_, fun k _ => Nat.zero_le k⟩
      rw [hzero]
      exact Nat.one_pos
    · have hhalf : x >>> 1 = x / 2 := Nat.shiftRight_one x
      obtain ⟨hlt, hmin⟩ := ih (x := x >>> 1) (by rw [hhalf]; omega)
      rw [if_pos hzero]
      constructor
      · rw [pow_succ]
        omega
      · intro k hk
        cases k with
        | zero => omega
        | succ k =>
          rw [pow_succ] at hk
          exact Nat.succ_le_succ (hmin k (by omega))

/-- The pages that are asked for are enough. -/
theorem le_getOrder (hpos : 0 < n) (hn : n < 2 ^ 64) : n ≤ 4096 * 2 ^ getOrder n := by
  have hshift : sub n 1 >>> pageShift = (n - 1) / 4096 := by
    rw [sub_eq hpos hn]
    exact Nat.shiftRight_eq_div_pow _ _
  have hlt := (shifts_spec 64 (x := (n - 1) / 4096) (by omega)).1
  unfold getOrder
  rw [hshift]
  omega

/-- No order is larger than it has to be. -/
theorem getOrder_le (hpos : 0 < n) (hn : n < 2 ^ 64) (hk : n ≤ 4096 * 2 ^ k) :
    getOrder n ≤ k := by
  have hshift : sub n 1 >>> pageShift = (n - 1) / 4096 := by
    rw [sub_eq hpos hn]
    exact Nat.shiftRight_eq_div_pow _ _
  unfold getOrder
  rw [hshift]
  exact (shifts_spec 64 (by omega)).2 k (by omega)

/-- The order of a block of pages is found again from its size. -/
theorem getOrder_pages (hk : 4096 * 2 ^ k < 2 ^ 64) : getOrder (4096 * 2 ^ k) = k := by
  have hpos : 0 < 4096 * 2 ^ k := Nat.mul_pos (by decide) (Nat.two_pow_pos k)
  refine Nat.le_antisymm (getOrder_le hpos hk (Nat.le_refl _)) ?_
  have hle := le_getOrder hpos hk
  exact (Nat.pow_le_pow_iff_right (by decide)).mp (Nat.le_of_mul_le_mul_left hle (by decide))

end Arithmetic

/-! ## Chunks -/

/-- A chunk; `used` is the size that was asked for, if it is in use. -/
structure Chunk where
  addr : Nat
  size : Nat
  used : Option Nat
deriving DecidableEq, Repr

namespace Chunk

/-- The bytes of the chunk, with its header. -/
def extent (c : Chunk) : Extent := ⟨c.addr, c.size⟩

/-- The header and the word in front of the data. -/
def head (c : Chunk) : Extent := ⟨c.addr, 32⟩

def free (c : Chunk) : Bool := c.used.isNone

/-- What the program has of the chunk. -/
def data (c : Chunk) : Option Extent := c.used.map fun n => ⟨c.addr + 32, n⟩

/-- There is room for the header and the data. -/
structure Ok (c : Chunk) : Prop where
  aligned : 8 ∣ c.addr
  sized : 8 ∣ c.size
  room : 32 + c.used.getD 0 ≤ c.size

/-- The header lies in it. -/
theorem Ok.head_within {c : Chunk} (h : c.Ok) : c.head.Within c.extent := by
  refine ⟨Nat.le_refl _, ?_⟩
  have hroom := h.room
  show c.addr + 32 ≤ c.addr + c.size
  omega

theorem head_has {c : Chunk} {k : Nat} (hk : k < 32) : c.head.Has (c.addr + k) :=
  ⟨Nat.le_add_right _ _, Nat.add_lt_add_left hk _⟩

theorem Ok.has {c : Chunk} (h : c.Ok) {k : Nat} (hk : k < 32) : c.extent.Has (c.addr + k) :=
  h.head_within.has (head_has hk)

end Chunk

/-- The two words of the free list. -/
def headExtent (fl : Nat) : Extent := ⟨fl, 16⟩

/-- The chunks do not meet, and are not where the head of the queue is. -/
structure Apart (fl : Nat) (cs : List Chunk) : Prop where
  separated : Separated (cs.map Chunk.extent)
  ok : ∀ c ∈ cs, c.Ok
  head : ∀ c ∈ cs, c.extent.Disjoint (headExtent fl)

section Apart

variable {fl : Nat} {c d : Chunk} {cs cs' : List Chunk}

/-- The order does not matter. -/
theorem Apart.perm (h : Apart fl cs) (hp : cs.Perm cs') : Apart fl cs' :=
  ⟨h.separated.perm (hp.map _), fun c hc => h.ok c (hp.mem_iff.mpr hc),
    fun c hc => h.head c (hp.mem_iff.mpr hc)⟩

theorem Apart.tail (h : Apart fl (c :: cs)) : Apart fl cs :=
  ⟨(Separated.cons_iff.mp h.separated).2, fun d hd => h.ok d (List.mem_cons_of_mem _ hd),
    fun d hd => h.head d (List.mem_cons_of_mem _ hd)⟩

/-- A chunk and the ones behind it. -/
theorem Apart.disjoint (h : Apart fl (c :: cs)) (hd : d ∈ cs) : c.extent.Disjoint d.extent :=
  (Separated.cons_iff.mp h.separated).1 _ (List.mem_map_of_mem hd)

/-- A word of the chunk is not in the header of another one. -/
theorem Apart.ne (h : Apart fl (c :: cs)) (hd : d ∈ cs) {a k : Nat} (ha : c.extent.Has a)
    (hk : k < 32) : a ≠ d.addr + k := by
  rintro rfl
  exact (h.disjoint hd).not_has ha ((h.ok d (List.mem_cons_of_mem _ hd)).has hk)

/-- The free list's head is in no chunk. -/
theorem Apart.ne_head (h : Apart fl cs) (hc : c ∈ cs) {a k : Nat} (ha : c.extent.Has a)
    (hk : k < 16) : a ≠ fl + k := by
  rintro rfl
  exact (h.head c hc).not_has ha ⟨Nat.le_add_right _ _, Nat.add_lt_add_left hk _⟩

/-- Words of headers are the same only where they are the same word of the same chunk. -/
theorem Apart.word_inj (h : Apart fl cs) (hc : c ∈ cs) (hd : d ∈ cs) {j k : Nat} (hj : j < 32)
    (hk : k < 32) (heq : c.addr + j = d.addr + k) : c = d ∧ j = k := by
  by_cases hcd : c = d
  · subst hcd
    exact ⟨rfl, Nat.add_left_cancel heq⟩
  · have : Std.Symm fun x y : Chunk => x.extent.Disjoint y.extent := ⟨fun _ _ hd => hd.symm⟩
    have hdisj : c.extent.Disjoint d.extent :=
      List.Pairwise.forall (List.pairwise_map.mp h.separated) hc hd hcd
    exact absurd (heq ▸ (h.ok d hd).has hk) (hdisj.not_has ((h.ok c hc).has hj))

/-- The words of the queue are different words. -/
theorem Apart.tailq (h : Apart fl cs) : Tailq.Apart Hdr.freelist fl (cs.map Chunk.addr) := by
  refine ⟨?_, ?_, ?_⟩
  · refine List.pairwise_map.mpr ((List.pairwise_map.mp h.separated).imp_of_mem ?_)
    intro c d hc hd hdisj heq
    exact hdisj.not_has ((h.ok c hc).has (by decide : 0 < 32))
      (heq ▸ (h.ok d hd).has (by decide : 0 < 32))
  · intro x hx y hy heq
    obtain ⟨c, hc, rfl⟩ := List.mem_map.mp hx
    obtain ⟨d, hd, rfl⟩ := List.mem_map.mp hy
    have hinj := h.word_inj hc hd (by decide : 0 < 32) (by decide : 8 < 32) heq
    exact absurd hinj.2 (by decide)
  · intro x hx k hk j hj
    obtain ⟨c, hc, rfl⟩ := List.mem_map.mp hx
    have hk : 8 + k < 32 := by
      rcases List.mem_pair.mp hk with rfl | rfl <;> decide
    have hj : j < 16 := by
      rcases List.mem_pair.mp hj with rfl | rfl <;> decide
    have hne := h.ne_head hc ((h.ok c hc).has hk) hj
    rwa [← Nat.add_assoc] at hne

/-- The words that the queue does not use. -/
theorem Apart.not_word (h : Apart fl cs) {free : List Nat}
    (hfree : ∀ x ∈ free, x ∈ cs.map Chunk.addr) (hc : c ∈ cs) {k : Nat} (hk : k < 32) (h8 : k ≠ 8)
    (h16 : k ≠ 16) : ¬ Tailq.Word Hdr.freelist fl free (c.addr + k) := by
  rintro (hw | hw | ⟨x, hx, hw⟩)
  · exact h.ne_head hc ((h.ok c hc).has hk) (by decide : 0 < 16) hw
  · exact h.ne_head hc ((h.ok c hc).has hk) (by decide : 8 < 16) hw
  · obtain ⟨d, hd, rfl⟩ := List.mem_map.mp (hfree x hx)
    rcases hw with hw | hw
    · exact h8 (h.word_inj hc hd hk (by decide : 8 < 32) hw).2
    · exact h16 (h.word_inj hc hd hk (by decide : 16 < 32) hw).2

end Apart

/-! ## Books -/

/-- The memory says what there is to say about the chunks; `free` is the queue. -/
structure Books (fl : Nat) (m : Mem) (cs : List Chunk) (free : List Nat) : Prop where
  size : ∀ c ∈ cs, m (Hdr.size c.addr) = c.size
  pad : ∀ c ∈ cs, c.free = false → m (c.addr + 24) = 32
  queue : Tailq Hdr.freelist m fl free
  free : free.Perm ((cs.filter Chunk.free).map Chunk.addr)

namespace Books

variable {fl : Nat} {m m' : Mem} {c d : Chunk} {cs cs' : List Chunk} {free done todo : List Nat}

/-- The books list the chunks in any order. -/
theorem perm (h : Books fl m cs free) (hp : cs.Perm cs') : Books fl m cs' free :=
  ⟨fun c hc => h.size c (hp.mem_iff.mpr hc), fun c hc => h.pad c (hp.mem_iff.mpr hc), h.queue,
    h.free.trans ((hp.filter _).map _)⟩

/-- The addresses of the queue are those of chunks. -/
theorem exists_chunk (h : Books fl m cs free) {i : Nat} (hi : i ∈ free) :
    ∃ c ∈ cs, c.free = true ∧ c.addr = i := by
  obtain ⟨c, hc, rfl⟩ := List.mem_map.mp (h.free.mem_iff.mp hi)
  obtain ⟨hc, hfree⟩ := List.mem_filter.mp hc
  exact ⟨c, hc, hfree, rfl⟩

/-- The words of the queue are in the headers. -/
theorem word_cases (h : Books fl m cs free) {a : Nat} (ha : Tailq.Word Hdr.freelist fl free a) :
    (∃ k < 16, a = fl + k) ∨ ∃ c ∈ cs, a = c.addr + 8 ∨ a = c.addr + 16 := by
  rcases ha with rfl | rfl | ⟨x, hx, ha⟩
  · exact Or.inl ⟨0, by decide, rfl⟩
  · exact Or.inl ⟨8, by decide, rfl⟩
  · obtain ⟨c, hc, -, rfl⟩ := h.exists_chunk hx
    exact Or.inr ⟨c, hc, ha⟩

/-- Only the headers matter, and the head of the queue. -/
theorem frame (h : Books fl m cs free) (hhead : ∀ k < 16, m' (fl + k) = m (fl + k))
    (hm : ∀ c ∈ cs, ∀ k < 32, m' (c.addr + k) = m (c.addr + k)) : Books fl m' cs free := by
  refine ⟨?_, ?_, ?_, h.free⟩
  · exact fun c hc => (hm c hc 0 (by decide)).trans (h.size c hc)
  · exact fun c hc hused => (hm c hc 24 (by decide)).trans (h.pad c hc hused)
  · refine Tailq.congr h.queue ?_
    intro a ha
    rcases h.word_cases ha with ⟨k, hk, rfl⟩ | ⟨c, hc, rfl | rfl⟩
    · exact hhead k hk
    · exact hm c hc 8 (by decide)
    · exact hm c hc 16 (by decide)

/-- A chunk that the books do not mention may be written. -/
theorem store (h : Books fl m cs free) (hap : Apart fl (c :: cs)) {a : Nat}
    (ha : c.extent.Has a) (v : Nat) : Books fl (Function.update m a v) cs free := by
  refine h.frame ?_ ?_
  · intro k hk
    exact Function.update_of_ne (hap.ne_head List.mem_cons_self ha hk).symm v m
  · intro d hd k hk
    exact Function.update_of_ne (hap.ne hd ha hk).symm v m

/-- The elements of the queue are different, and so are their words. -/
theorem tailq_apart (h : Books fl m cs free) (hap : Apart fl cs) :
    Tailq.Apart Hdr.freelist fl free :=
  (hap.tailq.sublist (List.filter_sublist.map _)).perm h.free.symm

/-- What is on the free list is a chunk. -/
theorem mem_addr (h : Books fl m cs free) : ∀ x ∈ free, x ∈ cs.map Chunk.addr := by
  intro x hx
  obtain ⟨c, hc, -, rfl⟩ := h.exists_chunk hx
  exact List.mem_map_of_mem hc

/-- A chunk in use is taken out of the books. -/
theorem drop (h : Books fl m (c :: cs) free) (hc : c.free = false) : Books fl m cs free := by
  refine ⟨fun d hd => h.size d (List.mem_cons_of_mem _ hd),
    fun d hd => h.pad d (List.mem_cons_of_mem _ hd), h.queue, ?_⟩
  have hfree := h.free
  rwa [List.filter_cons_of_neg (by rw [hc]; decide)] at hfree

/-- A chunk in use is put in the books. -/
theorem use (h : Books fl m cs free) (hc : c.free = false) (hsize : m (Hdr.size c.addr) = c.size)
    (hpad : m (c.addr + 24) = 32) : Books fl m (c :: cs) free := by
  refine ⟨?_, ?_, h.queue, ?_⟩
  · intro d hd
    rcases List.mem_cons.mp hd with rfl | hd
    · exact hsize
    · exact h.size d hd
  · intro d hd hused
    rcases List.mem_cons.mp hd with rfl | hd
    · exact hpad
    · exact h.pad d hd hused
  · rw [List.filter_cons_of_neg (by rw [hc]; decide)]
    exact h.free

/-- A free chunk is taken out of the queue and of the books. -/
theorem take (h : Books fl m (c :: cs) (done ++ c.addr :: todo)) (hap : Apart fl (c :: cs))
    (hc : c.free = true) :
    Books fl (Tailq.remove Hdr.freelist m fl c.addr) cs (done ++ todo) ∧
      Tailq.remove Hdr.freelist m fl c.addr (Hdr.size c.addr) = c.size := by
  have hapq := h.tailq_apart hap
  have hsub : ∀ x ∈ done ++ todo, x ∈ (c :: cs).map Chunk.addr := by
    intro x hx
    refine h.mem_addr x ?_
    rcases List.mem_append.mp hx with hx | hx
    · exact List.mem_append_left _ hx
    · exact List.mem_append_right _ (List.mem_cons_of_mem _ hx)
  have hother : ∀ d ∈ c :: cs, ∀ k < 32, k ≠ 8 → k ≠ 16 →
      Tailq.remove Hdr.freelist m fl c.addr (d.addr + k) = m (d.addr + k) :=
    fun d hd k hk h8 h16 =>
      Tailq.remove_other h.queue hapq (hap.not_word hsub hd hk h8 h16)
  have hsize : ∀ d ∈ c :: cs, Tailq.remove Hdr.freelist m fl c.addr (Hdr.size d.addr) = d.size :=
    fun d hd => (hother d hd 0 (by decide) (by decide) (by decide)).trans (h.size d hd)
  refine ⟨⟨fun d hd => hsize d (List.mem_cons_of_mem _ hd), ?_, Tailq.remove_spec h.queue hapq,
    ?_⟩, hsize c List.mem_cons_self⟩
  · intro d hd hused
    have hd' := List.mem_cons_of_mem c hd
    exact (hother d hd' 24 (by decide) (by decide) (by decide)).trans (h.pad d hd' hused)
  · have hfree := h.free
    rw [List.filter_cons_of_pos hc, List.map_cons] at hfree
    exact (List.perm_middle.symm.trans hfree).cons_inv

/-- The size of a chunk is not changed when it is taken out of the queue. -/
theorem remove_size (h : Books fl m cs free) (hap : Apart fl cs) (hc : c ∈ cs)
    (hfree : c.free = true) :
    Tailq.remove Hdr.freelist m fl c.addr (Hdr.size c.addr) = c.size := by
  have hmem : c.addr ∈ free :=
    h.free.mem_iff.mpr (List.mem_map_of_mem (List.mem_filter.mpr ⟨hc, hfree⟩))
  obtain ⟨done, todo, rfl⟩ := List.append_of_mem hmem
  obtain ⟨cs₁, cs₂, rfl⟩ := List.append_of_mem hc
  exact ((h.perm List.perm_middle).take (hap.perm List.perm_middle) hfree).2

/-- A free chunk is put in the queue and in the books. -/
theorem give (h : Books fl m cs free) (hap : Apart fl (c :: cs)) (hc : c.free = true)
    (hne : c.addr ≠ 0) (hsize : m (Hdr.size c.addr) = c.size) :
    Books fl (Tailq.insertHead Hdr.freelist m fl c.addr) (c :: cs) (c.addr :: free) := by
  have hfree : (c.addr :: free).Perm (((c :: cs).filter Chunk.free).map Chunk.addr) := by
    rw [List.filter_cons_of_pos hc, List.map_cons]
    exact h.free.cons _
  have hapq : Tailq.Apart Hdr.freelist fl (c.addr :: free) :=
    (hap.tailq.sublist (List.filter_sublist.map _)).perm hfree.symm
  have hsub : ∀ x ∈ c.addr :: free, x ∈ (c :: cs).map Chunk.addr := fun x hx =>
    (List.filter_sublist.map _).subset (hfree.mem_iff.mp hx)
  have hother : ∀ d ∈ c :: cs, ∀ k < 32, k ≠ 8 → k ≠ 16 →
      Tailq.insertHead Hdr.freelist m fl c.addr (d.addr + k) = m (d.addr + k) :=
    fun d hd k hk h8 h16 => Tailq.insertHead_other h.queue (hap.not_word hsub hd hk h8 h16)
  refine ⟨?_, ?_, Tailq.insertHead_spec h.queue hapq hne, hfree⟩
  · intro d hd
    refine (hother d hd 0 (by decide) (by decide) (by decide)).trans ?_
    rcases List.mem_cons.mp hd with rfl | hd
    · exact hsize
    · exact h.size d hd
  · intro d hd hused
    refine (hother d hd 24 (by decide) (by decide) (by decide)).trans ?_
    rcases List.mem_cons.mp hd with rfl | hd
    · rw [hc] at hused
      cases hused
    · exact h.pad d hd hused

end Books

/-! ## Words that are spared -/

/-- None of the words in `K` is the allocator's. -/
structure Spares (K : Nat → Prop) (fl : Nat) (cs : List Chunk) : Prop where
  queue : ∀ a, K a → ¬ (headExtent fl).Has a
  head : ∀ c ∈ cs, ∀ a, K a → ¬ c.head.Has a
  free : ∀ c ∈ cs, c.free = true → ∀ a, K a → ¬ c.extent.Has a

section Spares

variable {K : Nat → Prop} {fl : Nat} {m : Mem} {c : Chunk} {cs : List Chunk}
  {free done todo : List Nat}

theorem Spares.perm {cs' : List Chunk} (h : Spares K fl cs) (hp : cs.Perm cs') : Spares K fl cs' :=
  ⟨h.queue, fun c hc => h.head c (hp.mem_iff.mpr hc), fun c hc => h.free c (hp.mem_iff.mpr hc)⟩

/-- What is spared with one chunk more is spared without it. -/
theorem Spares.tail (h : Spares K fl (c :: cs)) : Spares K fl cs :=
  ⟨h.queue, fun d hd => h.head d (List.mem_cons_of_mem _ hd),
    fun d hd => h.free d (List.mem_cons_of_mem _ hd)⟩

/-- A chunk of which no word is spared. -/
theorem Spares.cons (h : Spares K fl cs) (hok : c.Ok) (hc : ∀ a, K a → ¬ c.extent.Has a) :
    Spares K fl (c :: cs) := by
  refine ⟨h.queue, ?_, ?_⟩
  · intro d hd a ha hhas
    rcases List.mem_cons.mp hd with rfl | hd
    · exact hc a ha (hok.head_within.has hhas)
    · exact h.head d hd a ha hhas
  · intro d hd hfree a ha hhas
    rcases List.mem_cons.mp hd with rfl | hd
    · exact hc a ha hhas
    · exact h.free d hd hfree a ha hhas

/-- The words of the queue are not spared. -/
theorem Spares.not_word (h : Spares K fl cs) (hfree : ∀ x ∈ free, x ∈ cs.map Chunk.addr) {a : Nat}
    (ha : K a) : ¬ Tailq.Word Hdr.freelist fl free a := by
  rintro (rfl | rfl | ⟨x, hx, hw⟩)
  · exact h.queue _ ha ⟨Nat.le_refl _, Nat.lt_add_of_pos_right (by decide : 0 < 16)⟩
  · exact h.queue _ ha ⟨Nat.le_add_right _ 8, Nat.add_lt_add_left (by decide : 8 < 16) _⟩
  · obtain ⟨c, hc, rfl⟩ := List.mem_map.mp (hfree x hx)
    rcases hw with rfl | rfl
    · exact h.head c hc _ ha (Chunk.head_has (by decide : 8 < 32))
    · exact h.head c hc _ ha (Chunk.head_has (by decide : 16 < 32))

/-- Taking a chunk from the free list writes headers only, -/
theorem Spares.remove (h : Spares K fl cs) (hap : Apart fl cs)
    (hb : Books fl m cs (done ++ c.addr :: todo)) :
    AgreeOn K m (Tailq.remove Hdr.freelist m fl c.addr) := by
  intro a ha
  refine Tailq.remove_other hb.queue (hb.tailq_apart hap) (h.not_word ?_ ha)
  intro x hx
  refine hb.mem_addr x ?_
  rcases List.mem_append.mp hx with hx | hx
  · exact List.mem_append_left _ hx
  · exact List.mem_append_right _ (List.mem_cons_of_mem _ hx)

/-- and so does putting one on it. -/
theorem Spares.insertHead (h : Spares K fl (c :: cs)) (hb : Books fl m cs free) :
    AgreeOn K m (Tailq.insertHead Hdr.freelist m fl c.addr) := by
  intro a ha
  refine Tailq.insertHead_other hb.queue (h.not_word ?_ ha)
  intro x hx
  rcases List.mem_cons.mp hx with rfl | hx
  · exact List.mem_cons_self
  · exact List.mem_cons_of_mem _ (hb.mem_addr x hx)

end Spares

end Unikernel.Xmalloc
