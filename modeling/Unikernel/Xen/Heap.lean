import Unikernel.Xen.Freeing

/-!
# The allocator as its users see it

`Boot`: what the allocator finds when the kernel starts. From there users ask for blocks, give
them back and write to them, in any order (`Malloc.Reached`).

- `allocator_lawful`: over any page allocator that does what it promises, so does `malloc`.
- `malloc_serves`, `free_serves`: no request ends in `BUG()`, and blocks keep their contents.
- `Balance`, `bytes_balance`: each byte of a page is in a block or in the free list, and a page
  is held only as long as there is a block in it.
- `no_neighbours`: what is free is not in pieces.
-/

namespace Unikernel.Xmalloc

variable {π : Type} {P : Pager π} {arena : Nat → Prop} {out : π → Mem → List Extent → Prop}
  {fl fuel : Nat} {q q₀ : π} {m m₀ : Mem} {s : Heap π} {Xs : List Span} {free : List Nat}
  {l : List Extent}

/-! ## The promises of an allocator -/

/-- The free list is shorter than any fuel that is not tight. -/
theorem Rep.free_length (h : Rep out fl s Xs free) (hP : P.Lawful pageSize arena out)
    (hfl : ∀ a, (headExtent fl).Has a → ¬ arena a) : free.length * 32 ≤ 2 ^ 64 := by
  have hap := h.laid.apart hP hfl
  have hcount : ((Xs.flatMap Span.chunks).map Chunk.extent).length * 32 ≤ 2 ^ 64 := by
    refine hap.separated.length_mul_le ?_ ?_
    · intro e he
      obtain ⟨c, hc, rfl⟩ := List.mem_map.mp he
      have hlimit := (h.laid.chunk hP hc).2.2.1
      omega
    · intro e he
      obtain ⟨c, hc, rfl⟩ := List.mem_map.mp he
      have hroom := (hap.ok c hc).room
      show 32 ≤ c.size
      omega
  have hlen := h.books.free.length_eq
  have hfilter := List.length_filter_le Chunk.free (Xs.flatMap Span.chunks)
  rw [List.length_map] at hlen hcount
  omega

/-- **A lawful allocator**, over any lawful page allocator. -/
theorem allocator_lawful (hP : P.Lawful pageSize arena out)
    (hfl : ∀ a, (headExtent fl).Has a → ¬ arena a) (hfuel : 2 ^ 59 < fuel) :
    (allocator P fl fuel).Lawful (Arena arena fl) (Out out fl) where
  toHolds := holds hP hfl
  malloc := by
    rintro s m n l ⟨Xs, free, h, hl⟩ hn
    have hlen := h.free_length hP hfl
    obtain ⟨s', p, heq, -, hkept, hout⟩ := malloc_leads hP hfl h (by omega : free.length < fuel) hn
    refine ⟨p, s'.pager, s'.mem, ?_,
      hkept.mono fun a ha => ha.mono fun e he => hl.mem_iff.mp he, ?_⟩
    · simp only [allocator, heq]
    · refine (holds hP hfl).perm _ _ _ _ hout ?_
      split
      · exact hl.symm
      · exact hl.symm.cons _
  free := by
    rintro s m e l ⟨Xs, fs, h, hl⟩
    have hlen := h.free_length hP hfl
    obtain ⟨s', l', heq, hl', hkept, hout⟩ := free_leads hP hfl h (by omega : fs.length < fuel)
      (hl.mem_iff.mp List.mem_cons_self)
    have hrest : l'.Perm l := (hl'.symm.trans hl.symm).cons_inv
    refine ⟨s'.pager, s'.mem, ?_, hkept.mono fun a ha => ha.mono fun f hf => hrest.mem_iff.mpr hf,
      (holds hP hfl).perm _ _ _ _ hout hrest⟩
    have heq : free P fl fuel ⟨m, s⟩ e.base = .ok s' := heq
    simp only [allocator, heq]

/-- What the kernel starts with: a page allocator that has not been asked yet, and the head of
the queue, which is not on its pages. -/
structure Boot (P : Pager π) (arena : Nat → Prop) (out : π → Mem → List Extent → Prop) (fl : Nat)
    (q : π) (m : Mem) : Prop where
  pager : P.Lawful pageSize arena out
  head : ∀ a, (headExtent fl).Has a → ¬ arena a
  queue : Initial fl m
  empty : out q m []

/-- Nothing is out at the start, -/
theorem Boot.starts (h : Boot P arena out fl q m) : Out out fl q m [] := by
  refine ⟨[], [], ⟨h.empty, ?_, ?_, ?_, ?_, List.Perm.nil⟩, List.Perm.nil⟩
  · intro X hX
    cases hX
  · intro c hc
    cases hc
  · intro c hc
    cases hc
  · exact Tailq.nil_iff.mpr ⟨h.queue.2, h.queue.1⟩

/-- and the allocator keeps its promises from there on, with fuel for a list of all
chunks there can be. -/
theorem Boot.lawful (h : Boot P arena out fl q m) (hfuel : 2 ^ 59 < fuel) :
    (allocator P fl fuel).Lawful (Arena arena fl) (Out out fl) :=
  allocator_lawful h.pager h.head hfuel

/-- The blocks that are out in a state that users have come to. -/
theorem Boot.reached (hboot : Boot P arena out fl q₀ m₀) (hfuel : 2 ^ 59 < fuel)
    (h : (allocator P fl fuel).Reached (Arena arena fl) q₀ m₀ q m l) : Out out fl q m l :=
  h.out (hboot.lawful hfuel) hboot.starts

/-! ## A session -/

/-- The head of the queue is at `4096`, in a memory that is empty otherwise. -/
def bootMem : Mem := Function.update (fun _ => 0) (Tailq.last 4096) 4096

/-- The pages begin at `8192`. -/
def bootPages : Malloc.Ledger := ⟨8192, []⟩

theorem bootMem_boot : Boot (Pager.ledger pageSize) (8192 ≤ ·)
    (fun s (_ : Mem) => s.Out pageSize 8192) 4096 bootPages bootMem where
  pager := Pager.ledger_lawful (by decide) (by decide)
  head := fun _ ha => Nat.not_le.mpr (Nat.lt_trans ha.2 (by decide : 4112 < 8192))
  queue := ⟨by decide, by decide⟩
  empty := Malloc.Ledger.out_start (by decide) (by decide)

/-- Two blocks are taken, and the first one is given back. -/
theorem session : ∃ q m, (allocator (Pager.ledger pageSize) 4096 (2 ^ 60)).Reached
    (Arena (8192 ≤ ·) 4096) bootPages bootMem q m [⟨8360, 200⟩] := by
  let A := allocator (Pager.ledger pageSize) 4096 (2 ^ 60)
  have heval : ((A.malloc bootPages bootMem 100).bind fun r =>
      (A.malloc r.2.1 r.2.2 200).bind fun r' =>
        (A.free r'.2.1 r'.2.2 8224).map fun _ => (r.1, r'.1)) = some (8224, 8360) := by
    decide +kernel
  obtain ⟨⟨p, q₁, m₁⟩, h₁, heval⟩ := Option.bind_eq_some_iff.mp heval
  obtain ⟨⟨p', q₂, m₂⟩, h₂, heval⟩ := Option.bind_eq_some_iff.mp heval
  obtain ⟨⟨q₃, m₃⟩, h₃, heval⟩ := Option.map_eq_some_iff.mp heval
  cases heval
  have hstart : A.Reached (Arena (8192 ≤ ·) 4096) bootPages bootMem bootPages bootMem [] := .start
  have hfirst := hstart.malloc (by decide : 100 < 2 ^ 62) h₁
  have hsecond := hfirst.malloc (by decide : 200 < 2 ^ 62) h₂
  exact ⟨q₃, m₃, hsecond.free (e := ⟨8224, 100⟩) (List.mem_cons_of_mem _ List.mem_cons_self) h₃⟩

/-! ## Requests -/

/-- The data of chunks are on pages. -/
theorem Out.on_pages (hP : P.Lawful pageSize arena out) (h : Out out fl q m l) {e : Extent}
    (he : e ∈ l) {a : Nat} (ha : e.Has a) : arena a := by
  obtain ⟨Xs, free, hrep, hl⟩ := h
  obtain ⟨c, hc, hce⟩ := mem_live (hl.mem_iff.mp he)
  obtain ⟨hok, -, -, harena⟩ := hrep.laid.chunk hP hc
  exact harena a ((Chunk.data_within hok hce).1.has ha)

/-- **`malloc` serves**: in every state that users come to, it returns. The result is a new block,
aligned, on pages, and apart from the blocks that are out, or it is `NULL`; that is so exactly if
the page allocator has returned `NULL` for the pages that were asked for, a single page being
asked for only if nothing in the free list has room. What users have written stays. -/
theorem malloc_serves (hboot : Boot P arena out fl q₀ m₀) (hfuel : 2 ^ 59 < fuel)
    (h : (allocator P fl fuel).Reached (Arena arena fl) q₀ m₀ q m l) {n : Nat} (hn : n < 2 ^ 62) :
    ∃ s' p fs, malloc P fl fuel ⟨m, q⟩ n = .ok (s', p) ∧
      AgreeOn (Malloc.Kept (Arena arena fl) l) m s'.mem ∧ Tailq Hdr.freelist m fl fs ∧
      (p = 0 ↔ (P.allocPages q m (pagesFor n)).1 = 0 ∧
        (32 + n < pageSize → ∀ i ∈ fs, m (Hdr.size i) < 32 + n)) ∧
      (p ≠ 0 → 8 ∣ p ∧ p + n < 2 ^ 64 ∧ (∀ a, Extent.Has ⟨p, n⟩ a → arena a) ∧
        ∀ e ∈ l, Extent.Disjoint ⟨p, n⟩ e) := by
  obtain ⟨Xs, fs, hrep, hl⟩ := hboot.reached hfuel h
  have hlen := hrep.free_length hboot.pager hboot.head
  obtain ⟨s', p, heq, hnull, hkept, hout⟩ :=
    malloc_leads hboot.pager hboot.head hrep (by omega : fs.length < fuel) hn
  refine ⟨s', p, fs, heq, hkept.mono fun a ha => ha.mono fun e he => hl.mem_iff.mp he,
    hrep.books.queue, hnull, ?_⟩
  intro hp
  rw [if_neg hp] at hout
  have hholds : Malloc.Holds 8 (Arena arena fl) (Out out fl) := holds hboot.pager hboot.head
  obtain ⟨-, haligned, hstop, -⟩ := hholds.block _ _ _ hout _ List.mem_cons_self
  refine ⟨haligned, hstop, fun a ha => Out.on_pages hboot.pager hout List.mem_cons_self ha, ?_⟩
  intro e he
  exact (Separated.cons_iff.mp (hholds.separated _ _ _ hout)).1 e (hl.mem_iff.mp he)

theorem malloc_serves_sample :
    ∃ q m, (allocator (Pager.ledger pageSize) 4096 (2 ^ 60)).Reached (Arena (8192 ≤ ·) 4096)
        bootPages bootMem q m [⟨8360, 200⟩] ∧
      ∃ s' p fs, malloc (Pager.ledger pageSize) 4096 (2 ^ 60) ⟨m, q⟩ 5000 = .ok (s', p) ∧
        AgreeOn (Malloc.Kept (Arena (8192 ≤ ·) 4096) [⟨8360, 200⟩]) m s'.mem ∧
        Tailq Hdr.freelist m 4096 fs ∧
        (p = 0 ↔ ((Pager.ledger pageSize).allocPages q m (pagesFor 5000)).1 = 0 ∧
          (32 + 5000 < pageSize → ∀ i ∈ fs, m (Hdr.size i) < 32 + 5000)) ∧
        (p ≠ 0 → 8 ∣ p ∧ p + 5000 < 2 ^ 64 ∧ (∀ a, Extent.Has ⟨p, 5000⟩ a → 8192 ≤ a) ∧
          ∀ e ∈ [(⟨8360, 200⟩ : Extent)], Extent.Disjoint ⟨p, 5000⟩ e) := by
  obtain ⟨q, m, h⟩ := session
  exact ⟨q, m, h, malloc_serves bootMem_boot (by decide) h (by decide : 5000 < 2 ^ 62)⟩

/-- **`free` serves**: each block that is out can be given back, and the others stay. -/
theorem free_serves (hboot : Boot P arena out fl q₀ m₀) (hfuel : 2 ^ 59 < fuel)
    (h : (allocator P fl fuel).Reached (Arena arena fl) q₀ m₀ q m l) {e : Extent} (he : e ∈ l) :
    ∃ s', Xmalloc.free P fl fuel ⟨m, q⟩ e.base = .ok s' ∧
      AgreeOn (Malloc.Kept (Arena arena fl) (l.erase e)) m s'.mem := by
  obtain ⟨Xs, fs, hrep, hl⟩ := hboot.reached hfuel h
  have hlen := hrep.free_length hboot.pager hboot.head
  obtain ⟨s', l', heq, hl', hkept, -⟩ := free_leads hboot.pager hboot.head hrep
    (by omega : fs.length < fuel) (hl.mem_iff.mp he)
  have hrest : l'.Perm (l.erase e) :=
    (hl'.symm.trans (hl.symm.trans (List.perm_cons_erase he))).cons_inv
  exact ⟨s', heq, hkept.mono fun a ha => ha.mono fun f hf => hrest.mem_iff.mpr hf⟩

theorem free_serves_sample :
    ∃ q m, (allocator (Pager.ledger pageSize) 4096 (2 ^ 60)).Reached (Arena (8192 ≤ ·) 4096)
        bootPages bootMem q m [⟨8360, 200⟩] ∧
      ∃ s', Xmalloc.free (Pager.ledger pageSize) 4096 (2 ^ 60) ⟨m, q⟩ 8360 = .ok s' ∧
        AgreeOn (Malloc.Kept (Arena (8192 ≤ ·) 4096)
          ([(⟨8360, 200⟩ : Extent)].erase ⟨8360, 200⟩)) m s'.mem := by
  obtain ⟨q, m, h⟩ := session
  exact ⟨q, m, h, free_serves bootMem_boot (by decide) h List.mem_cons_self⟩

/-! ## Where the pages are -/

section Pages

variable {a b : Nat} {cs : List Chunk}

/-- The chunk around a block: the size is in the header, behind which the data begin. -/
def chunkOf (m : Mem) (e : Extent) : Extent := ⟨e.base - 32, m (Hdr.size (e.base - 32))⟩

/-- An element of the free list. -/
def freeChunk (m : Mem) (i : Nat) : Extent := ⟨i, m (Hdr.size i)⟩

/-- A chunk is free, or it is found from the block in it. -/
theorem chunks_perm (hsize : ∀ c ∈ cs, m (Hdr.size c.addr) = c.size) :
    (cs.map Chunk.extent).Perm
      ((cs.filter Chunk.free).map Chunk.extent ++ (live cs).map (chunkOf m)) := by
  induction cs with
  | nil => exact List.Perm.nil
  | cons c cs ih =>
    have hrest := ih fun d hd => hsize d (List.mem_cons_of_mem _ hd)
    cases hused : c.used with
    | none =>
      have hfree : c.free = true := by rw [Chunk.free, hused]; rfl
      rw [live_cons_free hfree, List.filter_cons_of_pos hfree, List.map_cons, List.map_cons,
        List.cons_append]
      exact hrest.cons _
    | some n =>
      have hfree : ¬ c.free = true := by rw [Chunk.free, hused]; exact Bool.false_ne_true
      have hdata : c.data = some ⟨c.addr + 32, n⟩ := by rw [Chunk.data, hused]; rfl
      have hlive : live (c :: cs) = ⟨c.addr + 32, n⟩ :: live cs := List.filterMap_cons_some hdata
      have hchunk : chunkOf m ⟨c.addr + 32, n⟩ = c.extent :=
        congrArg (Extent.mk c.addr) (hsize c List.mem_cons_self)
      rw [hlive, List.filter_cons_of_neg hfree, List.map_cons, List.map_cons, hchunk]
      exact (hrest.cons _).trans List.perm_middle.symm

/-- In each span there is a block. -/
theorem Rep.length_le (hok : ∀ X ∈ Xs, X.Ok) :
    Xs.length ≤ (live (Xs.flatMap Span.chunks)).length := by
  induction Xs with
  | nil => exact Nat.le_refl _
  | cons X Xs ih =>
    obtain ⟨c, hc, hused⟩ := (hok X List.mem_cons_self).inUse
    obtain ⟨n, hn⟩ : ∃ n, c.used = some n :=
      Option.ne_none_iff_exists'.mp fun hnone => by
        rw [Chunk.free, hnone] at hused
        cases hused
    have hmem : (⟨c.addr + 32, n⟩ : Extent) ∈ live X.chunks :=
      List.mem_filterMap.mpr ⟨c, hc, by rw [Chunk.data, hn]; rfl⟩
    have hpos := List.length_pos_of_mem hmem
    have hrest := ih fun Y hY => hok Y (List.mem_cons_of_mem _ hY)
    rw [List.flatMap_cons, live_append, List.length_append, List.length_cons]
    omega

end Pages

/-- What is held for the blocks `l`: spans of pages, each of them filled by a row of chunks, which
are those of the blocks and of the free list; in particular the bytes add up. -/
structure Balance (out : π → Mem → List Extent → Prop) (fl : Nat) (q : π) (m : Mem)
    (l spans : List Extent) (fs : List Nat) : Prop where
  out : out q m spans
  queue : Tailq Hdr.freelist m fl fs
  few : spans.length ≤ l.length
  tiled : ∃ rows, Filled spans rows ∧
    rows.flatten.Perm (fs.map (freeChunk m) ++ l.map (chunkOf m))
  sum : (spans.map Extent.len).sum = (fs.map m).sum + (l.map fun e => m (e.base - 32)).sum
  room : ∀ e ∈ l, 32 + e.len ≤ m (e.base - 32)

/-- The spans are filled by the chunks of the free list and of the blocks. -/
theorem Rep.tiled (h : Rep out fl ⟨m, q⟩ Xs free) (hl : l.Perm (live (Xs.flatMap Span.chunks))) :
    ∃ rows, Filled (Xs.map Span.extent) rows ∧
      rows.flatten.Perm (free.map (freeChunk m) ++ l.map (chunkOf m)) := by
  have hsize : ∀ c ∈ Xs.flatMap Span.chunks, m (Hdr.size c.addr) = c.size := h.books.size
  refine ⟨Xs.map fun X => X.chunks.map Chunk.extent, ?_, ?_⟩
  · rw [Filled, List.forall₂_map_left_iff, List.forall₂_map_right_iff, List.forall₂_same]
    exact fun X hX => (h.ok X hX).tiles.row
  · have hfree : (free.map (freeChunk m)).Perm
        (((Xs.flatMap Span.chunks).filter Chunk.free).map Chunk.extent) := by
      refine (h.books.free.map (freeChunk m)).trans ?_
      rw [List.map_map]
      refine List.Perm.of_eq (List.map_congr_left ?_)
      intro c hc
      exact congrArg (Extent.mk c.addr) (hsize c (List.mem_filter.mp hc).1)
    rw [← List.flatMap_def, ← List.map_flatMap]
    exact (chunks_perm hsize).trans (hfree.symm.append (hl.symm.map (chunkOf m)))

/-- The books balance in every state that the promises speak of. -/
theorem Out.balance (hP : P.Lawful pageSize arena out) (h : Out out fl q m l) :
    ∃ spans fs, Balance out fl q m l spans fs := by
  obtain ⟨Xs, fs, hrep, hl⟩ := h
  obtain ⟨rows, hrows, hperm⟩ := hrep.tiled hl
  refine ⟨Xs.map Span.extent, fs, hrep.out, hrep.books.queue, ?_, ⟨rows, hrows, hperm⟩, ?_, ?_⟩
  · rw [List.length_map, hl.length_eq]
    exact Rep.length_le hrep.ok
  · rw [← hrows.sum_len, (hperm.map Extent.len).sum_eq, List.map_append, List.sum_append,
      List.map_map, List.map_map]
    rfl
  · intro e he
    obtain ⟨c, hc, hce⟩ := mem_live (hl.mem_iff.mp he)
    obtain ⟨n, hn, rfl⟩ := Chunk.data_eq hce
    have hroom := (hrep.laid.chunk hP hc).1.room
    have hhdr : m (c.addr + 32 - 32) = c.size := hrep.books.size c hc
    rw [hn, Option.getD_some] at hroom
    rw [hhdr]
    exact hroom

/-- **No page is lost**: in every state that users come to, the pages that are held are filled by
the chunks of the blocks that are out and of the free list, without a gap; and there are no more
spans of pages than blocks, so that all pages are back when all blocks are. -/
theorem bytes_balance (hboot : Boot P arena out fl q₀ m₀) (hfuel : 2 ^ 59 < fuel)
    (h : (allocator P fl fuel).Reached (Arena arena fl) q₀ m₀ q m l) :
    ∃ spans fs, Balance out fl q m l spans fs :=
  (hboot.reached hfuel h).balance hboot.pager

theorem bytes_balance_sample :
    ∃ q m, (allocator (Pager.ledger pageSize) 4096 (2 ^ 60)).Reached (Arena (8192 ≤ ·) 4096)
        bootPages bootMem q m [⟨8360, 200⟩] ∧
      ∃ spans fs, Balance (fun s (_ : Mem) => s.Out pageSize 8192) 4096 q m [⟨8360, 200⟩]
        spans fs := by
  obtain ⟨q, m, h⟩ := session
  exact ⟨q, m, h, bytes_balance bootMem_boot (by decide) h⟩

/-- Another free chunk is on another page, or does not begin where the first one ends. -/
theorem Rep.apart_free (h : Rep out fl s Xs free) (hP : P.Lawful pageSize arena out) {c d : Chunk}
    (hc : c ∈ Xs.flatMap Span.chunks) (hd : d ∈ Xs.flatMap Span.chunks) (hcfree : c.free = true)
    (hdfree : d.free = true) :
    c.size < 4096 ∧ (c.addr + c.size = d.addr → c.addr / 4096 ≠ d.addr / 4096) := by
  obtain ⟨b, k, bs₁, bs₂, Ys, hp⟩ := exists_around hc
  have hrep := h.perm hP hp
  have hX := hrep.ok _ List.mem_cons_self
  obtain rfl := hX.order_eq hcfree
  have hcok := (hX.ok c (List.mem_append_right _ List.mem_cons_self)).1
  have hcpos := hcok.pos
  obtain ⟨-, hbal, -, -⟩ := hrep.laid.span hP List.mem_cons_self
  have hbal : 4096 ∣ b := hbal
  obtain ⟨hclow, hchigh⟩ := hX.within (List.mem_append_right _ List.mem_cons_self)
  have hclow : b ≤ c.addr := hclow
  have hchigh : c.addr + c.size ≤ b + 4096 := hchigh
  obtain ⟨hleft, hright⟩ := Tiles.middle_iff.mp hX.tiles
  constructor
  · -- a free chunk as large as the page would be the only one, but one is in use
    by_contra hlarge
    obtain ⟨rfl, rfl, -, -⟩ := hX.eq_whole (Nat.not_lt.mp hlarge)
    obtain ⟨u, hu, hused⟩ := hX.inUse
    rw [List.mem_singleton.mp hu, hcfree] at hused
    cases hused
  · intro hstop hpage
    rcases List.mem_append.mp (((hp.flatMap_right Span.chunks).mem_iff).mp hd) with hd | hd
    · have hd : d ∈ bs₁ ++ c :: bs₂ := hd
      rcases List.mem_append.mp hd with hd | hd
      · have hbefore : d.addr + d.size ≤ c.addr := (hleft.within hd).2
        omega
      · rcases List.mem_cons.mp hd with rfl | hd
        · omega
        · -- the neighbour on the right is in use
          obtain ⟨l, l', rfl⟩ := List.append_of_mem hd
          have hbetween := (Tiles.middle_iff.mp hright).1
          rw [show c.extent.stop = d.addr from hstop] at hbetween
          have hnil := hbetween.eq_nil fun e he => (hX.ok e (List.mem_append_right _
            (List.mem_cons_of_mem _ (List.mem_append_left _ he)))).1
          rw [hnil, List.nil_append] at hX
          have hchain := (List.isChain_append.mp hX.merged).2.1
          rcases (List.isChain_cons.mp hchain).1 d rfl with hused | hused
          · rw [hused] at hcfree
            cases hcfree
          · rw [hused] at hdfree
            cases hdfree
    · obtain ⟨Y, hY, hd⟩ := List.mem_flatMap.mp hd
      have hdisj := (Separated.cons_iff.mp (hP.separated _ _ _ hrep.out)).1 _
        (List.mem_map_of_mem hY)
      have hYcut := (hrep.ok Y (List.mem_cons_of_mem _ hY)).toCut
      refine hdisj.not_has (a := d.addr) ⟨?_, ?_⟩
        ((hYcut.within hd).has ((hYcut.ok d hd).1.has (by decide : 0 < 32)))
      · show b ≤ d.addr
        omega
      · show d.addr < b + 4096
        omega

/-- **What is free is not in pieces**: no element of the free list is a whole page, and none
begins where another one on its page ends. -/
theorem no_neighbours (hboot : Boot P arena out fl q₀ m₀) (hfuel : 2 ^ 59 < fuel)
    (h : (allocator P fl fuel).Reached (Arena arena fl) q₀ m₀ q m l) :
    ∃ fs, Tailq Hdr.freelist m fl fs ∧ (∀ i ∈ fs, m i < pageSize) ∧
      ∀ i ∈ fs, ∀ j ∈ fs, i + m i = j → i / pageSize ≠ j / pageSize := by
  obtain ⟨Xs, fs, hrep, -⟩ := hboot.reached hfuel h
  have hsize := hrep.books.size
  refine ⟨fs, hrep.books.queue, ?_, ?_⟩
  · intro i hi
    obtain ⟨c, hc, hfree, rfl⟩ := hrep.books.exists_chunk hi
    rw [show m c.addr = c.size from hsize c hc]
    exact (hrep.apart_free hboot.pager hc hc hfree hfree).1
  · intro i hi j hj hij
    obtain ⟨c, hc, hcfree, rfl⟩ := hrep.books.exists_chunk hi
    obtain ⟨d, hd, hdfree, rfl⟩ := hrep.books.exists_chunk hj
    rw [show m c.addr = c.size from hsize c hc] at hij
    exact (hrep.apart_free hboot.pager hc hd hcfree hdfree).2 hij

theorem no_neighbours_sample :
    ∃ q m, (allocator (Pager.ledger pageSize) 4096 (2 ^ 60)).Reached (Arena (8192 ≤ ·) 4096)
        bootPages bootMem q m [⟨8360, 200⟩] ∧
      ∃ fs, Tailq Hdr.freelist m 4096 fs ∧ (∀ i ∈ fs, m i < pageSize) ∧
        ∀ i ∈ fs, ∀ j ∈ fs, i + m i = j → i / pageSize ≠ j / pageSize := by
  obtain ⟨q, m, h⟩ := session
  exact ⟨q, m, h, no_neighbours bootMem_boot (by decide) h⟩

end Unikernel.Xmalloc
