import Unikernel.Runtime.Pages

/-!
# Allocation in regions

- `RegionLayout.bump`, `RegionLayout.grow`, `RegionLayout.addLobj`: what an allocation does to
  the layout of a region.
- `alloc_rep`: `alloc` does one of these, whichever the size of the object and the room in
  the last page ask for.
- `allocateRegion_rep`: a region with one page is put on the stack.
-/

namespace Unikernel.Runtime

variable {σ : Type} {A : Host σ} {arena : Nat → Prop} {out : σ → Mem → List Extent → Prop}
  {s : State σ} {L : Layout}

/-! ## Inside one region

What an allocation does to the region it is made in. That nothing else of the region changes
follows from its extents (the descriptor, the pages, the blocks of its large objects) being apart,
so the first lemmas say which words cannot be the same. For each of the three ways to allocate
there is one lemma about the layout (`_ok`) and one about the memory (`_rep`). -/

namespace RegionLayout

variable {R : RegionLayout} {m : Mem} {below : Nat}

/-- A new object at the allocation pointer, without contents: the bytes are those that the
page had before. -/
def bump (R : RegionLayout) (n : Nat) : RegionLayout :=
  { R with fill := R.fill + n, objs := ⟨R.ptr, List.replicate n none⟩ :: R.objs }

/-- A new last page. -/
def grow (R : RegionLayout) (np : Nat) : RegionLayout :=
  { R with older := R.pages, last := np, fill := 0 }

/-- A new large object, in a block from `malloc`. -/
def addLobj (R : RegionLayout) (l n : Nat) : RegionLayout :=
  { R with
    lobjs := ⟨l, wordSizeBytes * n + sizeofLobjs⟩ :: R.lobjs
    objs := ⟨Lobjs.value l, List.replicate n none⟩ :: R.objs }

/-- The descriptor lies on the stack, and meets nothing of what the region has in the heap. -/
theorem desc_apart (h : Separated R.extents) {e : Extent}
    (he : e ∈ R.body) :
    (descExtent R.desc).Disjoint e := (Separated.cons_iff.mp h).1 e he

/-- The four words of a descriptor. -/
theorem desc_has (R : RegionLayout) {k : Nat} (hk : k < sizeofRo) :
    (descExtent R.desc).Has (R.desc + k) := ⟨Nat.le_add_right _ _, Nat.add_lt_add_left hk _⟩

/-- The bytes of a page, header included. -/
theorem page_has (p : Nat) {k : Nat} (hk : k < sizeofRp) : (pageExtent p).Has (p + k) :=
  ⟨Nat.le_add_right _ _, Nat.add_lt_add_left hk _⟩

/-- A word of a page is not a word of a large object's block. -/
theorem page_ne_lobj (h : Separated R.extents) {p k a : Nat} {e : Extent} (hp : p ∈ R.pages)
    (he : e ∈ R.lobjs) (hk : k < sizeofRp) (ha : e.Has a) : p + k ≠ a := by
  intro heq
  obtain ⟨-, -, hcross⟩ := Separated.append_iff.mp (Separated.cons_iff.mp h).2
  exact (hcross _ (List.mem_map_of_mem hp) e he).not_has (page_has p hk) (heq ▸ ha)

theorem page_disjoint (h : Separated R.extents) {p q : Nat} (hp : p ∈ R.pages) (hq : q ∈ R.pages)
    (hpq : p ≠ q) : (pageExtent p).Disjoint (pageExtent q) :=
  h.disjoint_of_mem (page_mem_extents hp) (page_mem_extents hq)
    fun heq => hpq (congrArg Extent.base heq)

/-- A page is in the list once: two places would be the same bytes. -/
theorem pages_nodup (h : Separated R.extents) : R.pages.Nodup := by
  have hpages := (Separated.append_iff.mp (Separated.cons_iff.mp h).2).1
  refine (List.pairwise_map.mp hpages).imp ?_
  rintro p q hd rfl
  have hpos : 0 < sizeofRp := by decide
  exact hd.not_has (page_has p hpos) (page_has p hpos)

/-- So that a link of the last page may change without the older ones' links. -/
theorem last_notMem_older (h : Separated R.extents) : R.last ∉ R.older := by
  have hnodup := pages_nodup h
  rw [pages, List.nodup_append] at hnodup
  intro hmem
  exact hnodup.2.2 _ hmem _ (List.mem_singleton_self _) rfl

/-- Words of the headers are not words of the pages' data. -/
theorem page_ne_page (h : Separated R.extents) {p q j k : Nat} (hp : p ∈ R.pages)
    (hq : q ∈ R.pages) (hj : j < sizeofRp) (hk : k < sizeofRp) (hjk : j ≠ k) : p + j ≠ q + k := by
  intro heq
  by_cases hpq : p = q
  · subst hpq
    exact hjk (Nat.add_left_cancel heq)
  · exact (page_disjoint h hp hq hpq).not_has (page_has p hj) (heq ▸ page_has q hk)

/-- The rooms of a region are behind the headers of its pages. -/
theorem room_ne_header (h : Separated R.extents) (hok : R.Ok) {e : Extent} {a p k : Nat}
    (he : e ∈ R.rooms) (ha : e.Has a) (hp : p ∈ R.pages) (hk : k < 16) : a ≠ p + k := by
  have hkp : k < sizeofRp := Nat.lt_of_lt_of_le hk (by decide)
  rcases hok.room_cases he ha with ⟨q, hq, hlow, hhigh⟩ | ⟨f, hf, -, hhas⟩
  · have hoff : a = q + (a - q) := by omega
    rw [hoff]
    exact page_ne_page h hq hp (by omega) hkp (by omega)
  · exact (page_ne_lobj h hp hf hkp hhas).symm

/-- What is written in a page header changes no word of an object. -/
theorem word_ne_header (h : Separated R.extents) (hok : R.Ok) {o : Obj} (ho : o ∈ R.objs)
    {i p k : Nat} (hi : i < o.words.length) (hp : p ∈ R.pages) (hk : k < 16) :
    o.addr + wordSizeBytes * i ≠ p + k := by
  obtain ⟨-, e, he, hin⟩ := hok.placed o ho
  exact room_ne_header h hok he (hin.has (o.has_word hi)) hp hk

/-- What is written in the descriptor changes no word of an object. -/
theorem word_ne_desc (h : Separated R.extents) (hok : R.Ok) {o : Obj} (ho : o ∈ R.objs) {i k : Nat}
    (hi : i < o.words.length) (hk : k < sizeofRo) : o.addr + wordSizeBytes * i ≠ R.desc + k := by
  obtain ⟨e, he, ha⟩ := hok.word_covered ho hi
  intro heq
  exact (desc_apart h he).not_has (R.desc_has hk) (heq ▸ ha)

/-! ### New objects -/

/-- The bytes of an object that has just been allocated. -/
theorem new_extent (a n : Nat) :
    Obj.extent ⟨a, List.replicate n none⟩ = ⟨a, wordSizeBytes * n⟩ := by
  rw [Obj.extent, List.length_replicate]

/-- The words behind the allocation pointer are in no room. -/
theorem rooms_disjoint (h : Separated R.extents) {n : Nat}
    (hn : R.fill + n ≤ allocatableWordsInRegionPage) (hok : R.Ok) {e : Extent} (he : e ∈ R.rooms) :
    (⟨R.ptr, wordSizeBytes * n⟩ : Extent).Disjoint e := by
  have hn : R.fill + n ≤ 1022 := hn
  have hin : (⟨R.ptr, wordSizeBytes * n⟩ : Extent).Within (pageExtent R.last) := by
    refine ⟨?_, ?_⟩
    · show R.last ≤ R.last + 16 + 8 * R.fill
      omega
    · show R.last + 16 + 8 * R.fill + 8 * n ≤ R.last + 8192
      omega
  rcases List.mem_append.mp he with he | he
  · -- older pages are other pages
    obtain ⟨p, hp, rfl⟩ := List.mem_map.mp he
    have hne : R.last ≠ p := by
      rintro rfl
      exact last_notMem_older h hp
    refine (page_disjoint h R.last_mem_pages (List.mem_append_left _ hp) hne).within hin ?_
    refine ⟨Nat.le_add_right _ _, ?_⟩
    show p + 16 + 8 * 1022 ≤ p + 8192
    omega
  · -- the room in the last page ends where the new object begins
    rcases List.mem_cons.mp he with rfl | he
    · exact Or.inr (Nat.le_refl _)
    · obtain ⟨f, hf, rfl⟩ := List.mem_map.mp he
      have hlen : 16 ≤ f.len := hok.lobjs_len f hf
      obtain ⟨-, -, hcross⟩ := Separated.append_iff.mp (Separated.cons_iff.mp h).2
      refine (hcross _ (List.mem_map_of_mem R.last_mem_pages) f hf).within hin ?_
      refine ⟨Nat.le_add_right _ _, ?_⟩
      show f.base + 8 + (f.len - 8) ≤ f.base + f.len
      omega

/-- The new object lies between the allocation pointer and the end of the page,
where no object is. -/
theorem bump_ok (h : Separated R.extents) (hok : R.Ok) (hlast : 8 ∣ R.last) {n : Nat}
    (hn : R.fill + n ≤ allocatableWordsInRegionPage) : (R.bump n).Ok := by
  refine ⟨hn, hok.lobjs_len, ?_, ?_⟩
  · intro o ho
    rcases List.mem_cons.mp ho with rfl | ho
    · refine ⟨?_, ⟨R.last + 16, wordSizeBytes * (R.fill + n)⟩,
        List.mem_append_right _ List.mem_cons_self, ?_⟩
      · show 8 ∣ R.last + 16 + 8 * R.fill
        omega
      · rw [new_extent]
        refine ⟨Nat.le_add_right _ _, ?_⟩
        show R.last + 16 + 8 * R.fill + 8 * n ≤ R.last + 16 + 8 * (R.fill + n)
        omega
    · obtain ⟨hal, e, he, hin⟩ := hok.placed o ho
      refine ⟨hal, ?_⟩
      rcases List.mem_append.mp he with he | he
      · exact ⟨e, List.mem_append_left _ he, hin⟩
      · rcases List.mem_cons.mp he with rfl | he
        · refine ⟨_, List.mem_append_right _ List.mem_cons_self, hin.trans ⟨Nat.le_refl _, ?_⟩⟩
          show R.last + 16 + 8 * R.fill ≤ R.last + 16 + 8 * (R.fill + n)
          omega
        · exact ⟨e, List.mem_append_right _ (List.mem_cons_of_mem _ he), hin⟩
  · -- the other objects are in rooms, and the new one is behind all of these
    refine Separated.cons_iff.mpr ⟨?_, hok.separated⟩
    intro f hf
    obtain ⟨o, ho, rfl⟩ := List.mem_map.mp hf
    obtain ⟨-, e, he, hin⟩ := hok.placed o ho
    rw [new_extent]
    exact (rooms_disjoint h hn hok he).within (.refl _) hin

/-- A new block has room for one object, behind its link. -/
theorem addLobj_ok (hok : R.Ok) {l n : Nat} (hl : 8 ∣ l)
    (hnew : ∀ e ∈ R.body, (⟨l, wordSizeBytes * n + sizeofLobjs⟩ : Extent).Disjoint e) :
    (R.addLobj l n).Ok := by
  have hin : (⟨Lobjs.value l, wordSizeBytes * n⟩ : Extent).Within
      ⟨l, wordSizeBytes * n + sizeofLobjs⟩ := by
    refine ⟨Nat.le_add_right _ _, ?_⟩
    show l + 8 + 8 * n ≤ l + (8 * n + 16)
    omega
  refine ⟨hok.fill_le, ?_, ?_, ?_⟩
  · intro e he
    rcases List.mem_cons.mp he with rfl | he
    · exact Nat.le_add_left _ _
    · exact hok.lobjs_len e he
  · intro o ho
    rcases List.mem_cons.mp ho with rfl | ho
    · -- behind the link, the block is the room of the object
      refine ⟨Nat.dvd_add hl (Nat.dvd_refl 8), ⟨l + 8, 8 * n + 16 - 8⟩, ?_, ?_⟩
      · exact List.mem_append_right _ (List.mem_cons_of_mem _ List.mem_cons_self)
      · rw [new_extent]
        refine ⟨Nat.le_refl _, ?_⟩
        show l + 8 + 8 * n ≤ l + 8 + (8 * n + 16 - 8)
        omega
    · obtain ⟨hal, e, he, hin⟩ := hok.placed o ho
      refine ⟨hal, e, ?_, hin⟩
      rcases List.mem_append.mp he with he | he
      · exact List.mem_append_left _ he
      · rcases List.mem_cons.mp he with rfl | he
        · exact List.mem_append_right _ List.mem_cons_self
        · exact List.mem_append_right _ (List.mem_cons_of_mem _ (List.mem_cons_of_mem _ he))
  · refine Separated.cons_iff.mpr ⟨?_, hok.separated⟩
    intro f hf
    obtain ⟨o, ho, rfl⟩ := List.mem_map.mp hf
    obtain ⟨-, e, he, hobj⟩ := hok.placed o ho
    obtain ⟨g, hg, hroom⟩ := hok.room_within he
    rw [new_extent]
    exact (hnew g hg).within hin (hobj.trans hroom)

/-- An object without stores holds in any memory. -/
theorem new_holds (a n : Nat) (m : Mem) : Obj.Holds m ⟨a, List.replicate n none⟩ := by
  intro k v hv
  rw [List.getElem?_replicate] at hv
  split at hv
  all_goals cases hv

/-- Moving the allocation pointer is a store in the descriptor, which nothing else of the region
looks at. -/
theorem bump_rep (h : Separated R.extents) (hok : R.Ok) (hrep : R.Rep m below) (n : Nat) :
    (R.bump n).Rep (Function.update m (Gen.a R.desc) (R.ptr + wordSizeBytes * n)) below := by
  have hdesc : ∀ k, 0 < k →
      Function.update m R.desc (R.ptr + wordSizeBytes * n) (R.desc + k) = m (R.desc + k) :=
    fun k hk => Function.update_of_ne (by omega) _ m
  have hbody : ∀ a, Covers R.body a →
      Function.update m R.desc (R.ptr + wordSizeBytes * n) a = m a := by
    rintro a ha
    refine Function.update_of_ne ?_ _ m
    rintro rfl
    exact not_covers (fun e => desc_apart h) (R.desc_has (by decide : 0 < sizeofRo)) ha
  have hpage : ∀ p ∈ R.pages, ∀ k < sizeofRp, Covers R.body (p + k) :=
    fun p hp k hk => ⟨_, page_mem_body hp, page_has p hk⟩
  -- pointer, pages, their `gen` fields, region below, large objects, contents
  refine ⟨?_, ?_, ?_, ?_, ?_, ?_⟩
  · show Function.update m R.desc (R.ptr + wordSizeBytes * n) R.desc =
      R.last + 16 + wordSizeBytes * (R.fill + n)
    rw [Function.update_self, Nat.mul_add, ← Nat.add_assoc]
    rfl
  · rw [show Gen.fp (R.bump n).desc = R.desc + 8 from rfl, hdesc 8 (by decide)]
    exact hrep.fp.congr fun p hp => hbody p (hpage p hp 0 (by decide))
  · intro p hp
    exact (hbody _ (hpage p hp 8 (by decide))).trans (hrep.gen p hp)
  · exact (hdesc 16 (by decide)).trans hrep.p
  · rw [show Ro.lobjs (R.bump n).desc = R.desc + 24 from rfl, hdesc 24 (by decide)]
    refine hrep.lobjs.congr ?_
    intro a ha
    obtain ⟨e, he, rfl⟩ := List.mem_map.mp ha
    refine hbody _ ⟨e, lobj_mem_body he, Nat.le_refl _, ?_⟩
    exact Nat.lt_add_of_pos_right (Nat.lt_of_lt_of_le (by decide) (hok.lobjs_len e he))
  · intro o ho
    rcases List.mem_cons.mp ho with rfl | ho
    · exact new_holds _ _ _
    · intro k v hv
      have hk := (List.getElem?_eq_some_iff.mp hv).1
      rw [hbody _ (hok.word_covered ho hk)]
      exact hrep.holds o ho k v hv

/-- The block links to the blocks before it, and the descriptor to the block. -/
theorem addLobj_rep (h : Separated R.extents) (hok : R.Ok) (hrep : R.Rep m below) {l n : Nat}
    (hnew : ∀ e ∈ R.extents, (⟨l, wordSizeBytes * n + sizeofLobjs⟩ : Extent).Disjoint e) :
    (R.addLobj l n).Rep (Function.update (Function.update m (Lobjs.next l) (m (Ro.lobjs R.desc)))
      (Ro.lobjs R.desc) l) below := by
  have hl : (⟨l, wordSizeBytes * n + sizeofLobjs⟩ : Extent).Has l :=
    ⟨Nat.le_refl _, Nat.lt_add_of_pos_right (Nat.lt_of_lt_of_le (by decide : 0 < sizeofLobjs)
      (Nat.le_add_left _ _))⟩
  -- both stores miss the pages and the blocks that were there
  have hbody : ∀ a, Covers R.body a → Function.update (Function.update m l
      (m (Ro.lobjs R.desc))) (Ro.lobjs R.desc) l a = m a := by
    rintro a ⟨e, he, ha⟩
    have hdesc : a ≠ R.desc + 24 := by
      rintro rfl
      exact (desc_apart h he).not_has (R.desc_has (by decide : 24 < sizeofRo)) ha
    have hne : a ≠ l := by
      rintro rfl
      exact (hnew e (List.mem_cons_of_mem _ he)).not_has hl ha
    rw [Function.update_of_ne hdesc, Function.update_of_ne hne]
  have hdesc : ∀ k < 24, Function.update (Function.update m l (m (Ro.lobjs R.desc)))
      (Ro.lobjs R.desc) l (R.desc + k) = m (R.desc + k) := by
    intro k hk
    have hne : R.desc + k ≠ l := by
      intro heq
      exact (hnew _ R.desc_mem_extents).not_has hl (heq ▸ R.desc_has (Nat.lt_trans hk (by decide)))
    rw [Function.update_of_ne (by show R.desc + k ≠ R.desc + 24; omega), Function.update_of_ne hne]
  have hpage : ∀ p ∈ R.pages, ∀ k < sizeofRp, Covers R.body (p + k) :=
    fun p hp k hk => ⟨_, page_mem_body hp, page_has p hk⟩
  refine ⟨?_, ?_, ?_, ?_, ?_, ?_⟩
  · exact (hdesc 0 (by decide)).trans hrep.a
  · rw [show Gen.fp (R.addLobj l n).desc = R.desc + 8 from rfl, hdesc 8 (by decide)]
    exact hrep.fp.congr fun p hp => hbody p (hpage p hp 0 (by decide))
  · intro p hp
    exact (hbody _ (hpage p hp 8 (by decide))).trans (hrep.gen p hp)
  · exact (hdesc 16 (by decide)).trans hrep.p
  · have hne : l ≠ R.desc + 24 := by
      intro heq
      exact (hnew _ R.desc_mem_extents).not_has hl (heq ▸ R.desc_has (by decide : 24 < sizeofRo))
    refine Segment.cons_iff.mpr ⟨Function.update_self _ _ _, ?_⟩
    rw [Function.update_of_ne hne, Function.update_self]
    refine hrep.lobjs.congr ?_
    intro a ha
    obtain ⟨e, he, rfl⟩ := List.mem_map.mp ha
    refine hbody _ ⟨e, lobj_mem_body he, Nat.le_refl _, ?_⟩
    exact Nat.lt_add_of_pos_right (Nat.lt_of_lt_of_le (by decide) (hok.lobjs_len e he))
  · intro o ho
    rcases List.mem_cons.mp ho with rfl | ho
    · exact new_holds _ _ _
    · intro k v hv
      have hk := (List.getElem?_eq_some_iff.mp hv).1
      rw [hbody _ (hok.word_covered ho hk)]
      exact hrep.holds o ho k v hv

end RegionLayout

/-! ## In the state

The same with the rest of the runtime around it: the other regions, the free list and `malloc`.
Every store below is to a word of this region, at which the others and the free list do not
look. -/

namespace Rep

variable {pre post : List RegionLayout} {R : RegionLayout}

/-- The region that is worked on is one of the stack. -/
theorem mem_regions (hL : L.regions = pre ++ R :: post) : R ∈ L.regions := by
  rw [hL]
  exact List.mem_append_right _ List.mem_cons_self

/-- The region's own part of what the memory holds; the part below it starts with `post`. -/
theorem region (h : Rep arena out s L) (hL : L.regions = pre ++ R :: post) :
    R.Rep s.mem (topOf post) := by
  have hstack := h.stack
  rw [hL] at hstack
  exact hstack.get

/-- The last page of a region is one of the pages from `malloc`. -/
theorem last_mem (hL : L.regions = pre ++ R :: post) : R.last ∈ L.pages :=
  mem_pages_of_region (mem_regions hL) R.last_mem_pages

/-- What is written in a region leaves the others alone. -/
theorem agree_others (h : Rep arena out s L) (hA : A.Lawful arena out)
    (hL : L.regions = pre ++ R :: post) {e : Extent} (he : e ∈ R.extents) {a : Nat}
    (ha : e.Has a) :
    ¬ Covers ((L.held ++ L.free).map pageExtent ++
      (pre ++ post).flatMap RegionLayout.extents) a :=
  not_covers ((h.apart hA hL).2 e he) ha

/-- A store to a word of the region is none to the free pages, nor to the other regions. -/
theorem others_update (h : Rep arena out s L) (hA : A.Lawful arena out)
    (hL : L.regions = pre ++ R :: post) {e : Extent} (he : e ∈ R.extents) {a : Nat} (ha : e.Has a)
    {m' : Mem} (hm : AgreeOn (Covers (L.free.map pageExtent ++
      (pre ++ post).flatMap RegionLayout.extents)) s.mem m') (v : Nat) :
    AgreeOn (Covers (L.free.map pageExtent ++ (pre ++ post).flatMap RegionLayout.extents)) s.mem
      (Function.update m' a v) := by
  refine hm.update ?_ v
  intro hcov
  refine h.agree_others hA hL he ha (hcov.mono ?_)
  intro f hf
  rw [List.map_append, List.append_assoc]
  exact List.mem_append_right _ hf

/-- A memory that agrees on the free pages has the free list. -/
theorem free_agree (h : Rep arena out s L) {l : List Extent} {m' : Mem}
    (hm : AgreeOn (Covers (L.free.map pageExtent ++ l)) s.mem m') :
    Segment m' s.freelist L.free 0 := by
  refine h.free.agree hm ?_
  intro p hp
  exact covers_append.mpr (Or.inl ⟨_, List.mem_map_of_mem hp,
    RegionLayout.page_has p (by decide : 0 < sizeofRp)⟩)

/-- **Room in the last page**: the allocation pointer moves over the new object. -/
theorem bump (h : Rep arena out s L) (hA : A.Lawful arena out)
    (hL : L.regions = pre ++ R :: post) {n : Nat}
    (hn : R.fill + n ≤ allocatableWordsInRegionPage) :
    Rep arena out (s.store (Gen.a R.desc) (R.ptr + wordSizeBytes * n))
      { L with regions := pre ++ R.bump n :: post } := by
  have hok := h.ok R (mem_regions hL)
  obtain ⟨hsep, -⟩ := h.apart hA hL
  have hlast : 8 ∣ R.last := Nat.dvd_trans (by decide) (h.page_aligned (last_mem hL))
  -- the store is to the descriptor of this region only
  have hm := h.others_update hA hL R.desc_mem_extents (R.desc_has (by decide : 0 < sizeofRo))
    (AgreeOn.refl _ _) (R.ptr + wordSizeBytes * n)
  refine h.replace hL rfl (RegionLayout.bump_ok hsep hok hlast hn)
    (RegionLayout.bump_rep hsep hok (h.region hL) n)
    (hm.mono fun a ha => covers_append.mpr (Or.inr ha)) (h.free_agree hm) ?_ (List.Perm.refl _)
  rw [blocks_replace hL (show (R.bump n).lobjs = R.lobjs from rfl)]
  exact hA.update h.out (h.region_kept (mem_regions hL) R.desc_mem_extents
    (R.desc_has (by decide : 0 < sizeofRo))) _

/-- A block that `malloc` hands out meets nothing that matters. -/
theorem fresh_block (h : Rep arena out s L) (hA : A.Lawful arena out) {os' : σ} {m' : Mem}
    {b : Extent} (hout : out os' m' (b :: L.blocks)) (hlen : 0 < b.len) {e : Extent}
    (he : e ∈ L.extents) :
    b.Disjoint e := by
  have hblocks := (Separated.cons_iff.mp (hA.separated _ _ _ hout)).1
  have hpage : ∀ p ∈ L.pages, b.Disjoint (pageExtent p) := by
    intro p hp
    obtain ⟨sb, hsb, hp⟩ := h.page_chunk hp
    exact (hblocks _ (chunkBlock_mem hsb)).within (.refl b) (chunkPages_within hp)
  rcases List.mem_append.mp he with he | he
  · obtain ⟨p, hp, rfl⟩ := List.mem_map.mp he
    exact hpage p (List.mem_append_left _ (List.mem_append_right _ hp))
  · obtain ⟨R, hR, he⟩ := List.mem_flatMap.mp he
    rcases List.mem_cons.mp he with rfl | he
    · exact (desc_disjoint (h.descs _ (List.mem_map_of_mem hR)) hlen
        (hA.block _ _ _ hout b List.mem_cons_self).2.2.2).symm
    · rcases List.mem_append.mp he with he | he
      · obtain ⟨p, hp, rfl⟩ := List.mem_map.mp he
        exact hpage p (mem_pages_of_region hR hp)
      · exact hblocks e (List.mem_append_right _ (mem_lobjs_of_region hR he))

/-- A block from `malloc` becomes a large object of the region. -/
theorem addLobj (h : Rep arena out s L) (hA : A.Lawful arena out)
    (hL : L.regions = pre ++ R :: post) {os' : σ} {mem' : Mem} {l n : Nat}
    (hout : out os' mem' (⟨l, wordSizeBytes * n + sizeofLobjs⟩ :: L.blocks))
    (hmem : AgreeOn (Malloc.Kept arena L.blocks) s.mem mem') :
    Rep arena out
      { s with
        mem := Function.update (Function.update mem' (Lobjs.next l) (mem' (Ro.lobjs R.desc)))
          (Ro.lobjs R.desc) l
        os := os' }
      { L with regions := pre ++ R.addLobj l n :: post } := by
  have hok := h.ok R (mem_regions hL)
  obtain ⟨hsep, -⟩ := h.apart hA hL
  have hnew : ∀ e ∈ L.extents, (⟨l, wordSizeBytes * n + sizeofLobjs⟩ : Extent).Disjoint e :=
    fun e he => h.fresh_block hA hout
      (Nat.lt_of_lt_of_le (by decide : 0 < sizeofLobjs) (Nat.le_add_left _ _)) he
  have hR : ∀ e ∈ R.extents, e ∈ L.extents := fun e he =>
    List.mem_append_right _ (List.mem_flatMap.mpr ⟨R, mem_regions hL, he⟩)
  have hl : (⟨l, wordSizeBytes * n + sizeofLobjs⟩ : Extent).Has l :=
    ⟨Nat.le_refl _, Nat.lt_add_of_pos_right (Nat.lt_of_lt_of_le (by decide : 0 < sizeofLobjs)
      (Nat.le_add_left _ _))⟩
  -- what `malloc` has written is in none of the extents of the layout
  have hframe : R.Rep mem' (topOf post) := (h.region hL).frame hok
    (hmem.mono fun a ha => h.extents_kept (ha.mono hR))
  have hothers : ∀ f ∈ L.free.map pageExtent ++ (pre ++ post).flatMap RegionLayout.extents,
      f ∈ L.extents := by
    intro f hf
    rcases List.mem_append.mp hf with hf | hf
    · exact List.mem_append_left _ hf
    · refine List.mem_append_right _ ?_
      rw [hL]
      exact (List.perm_middle.flatMap_right RegionLayout.extents).mem_iff.mpr
        (List.mem_append_right _ hf)
  -- the two stores are to the new block and to the descriptor of this region
  have hm := h.others_update hA hL R.desc_mem_extents (R.desc_has (by decide : 24 < sizeofRo))
    ((hmem.mono fun a ha => h.extents_kept (ha.mono hothers)).update
      (not_covers (fun f hf => hnew f (hothers f hf)) hl) (mem' (Ro.lobjs R.desc))) l
  refine h.replace hL rfl (RegionLayout.addLobj_ok hok ?_ ?_)
    (RegionLayout.addLobj_rep hsep hok hframe fun e he => hnew e (hR e he))
    (hm.mono fun a ha => covers_append.mpr (Or.inr ha)) (h.free_agree hm) ?_ (List.Perm.refl _)
  · exact (hA.block _ _ _ hout _ List.mem_cons_self).2.1
  · exact fun e he => hnew e (hR e (List.mem_cons_of_mem _ he))
  · -- `malloc` has the block in front, the layout has it among those of the region
    refine hA.perm _ _ _ _ (hA.update (hA.update hout ?_ _) ?_ _) ?_
    · exact Or.inr ⟨_, List.mem_cons_self, hl⟩
    · exact (h.region_kept (mem_regions hL) R.desc_mem_extents
        (R.desc_has (by decide : 24 < sizeofRo))).mono fun e he => List.mem_cons_of_mem _ he
    rw [Layout.blocks, Layout.lobjs, hL, List.flatMap_append, List.flatMap_append,
      List.flatMap_cons, List.flatMap_cons, ← List.append_assoc,
      ← List.append_assoc (L.chunks.map chunkBlock)]
    exact List.perm_middle.symm

end Rep

/-! ## `alloc_new_page`

Between taking a page off the free list and linking it somewhere, the page is in hand: it belongs
to the layout (`held`), but neither to the free list nor to a region. -/

/-- What `alloc` makes of a layout with the region `R`, and the object's address: room in the last
page, a new page, or a block of its own. -/
inductive Allocated (L : Layout) (pre : List RegionLayout) (R : RegionLayout)
    (post : List RegionLayout) (n : Nat) : Layout → Nat → Prop where
  | bump (hn : R.fill + n ≤ allocatableWordsInRegionPage) :
    Allocated L pre R post n { L with regions := pre ++ R.bump n :: post } R.ptr
  | grow {L₁ : Layout} {np : Nat} {fs : List Nat} (hn : n ≤ allocatableWordsInRegionPage)
    (hfull : allocatableWordsInRegionPage < R.fill + n) (hs : Supply L L₁)
    (hfree : L₁.free = np :: fs) :
    Allocated L pre R post n
      { L₁ with regions := pre ++ (R.grow np).bump n :: post, free := fs } (Rp.i np)
  | lobj (l : Nat) (hn : allocatableWordsInRegionPage < n) :
    Allocated L pre R post n { L with regions := pre ++ R.addLobj l n :: post } (Lobjs.value l)

/-- A region with one empty page. -/
def RegionLayout.fresh (r np : Nat) : RegionLayout :=
  { desc := r, older := [], last := np, fill := 0, lobjs := [], objs := [] }

/-- The page in hand becomes a region on top of the stack. -/
theorem Rep.push (h : Rep arena out s L) {r np : Nat} {held : List Nat}
    (hheld : L.held = np :: held) (hr : DescOk arena r)
    (horder : ∀ r' ∈ L.descs, r + sizeofRo ≤ r') (hn : s.mem (Rp.n np) = 0)
    (hgen : s.mem (Rp.gen np) = r) (ha : s.mem (Gen.a r) = Rp.i np)
    (hfp : s.mem (Gen.fp r) = np) (hp : s.mem (Ro.p r) = s.topregion)
    (hlobjs : s.mem (Ro.lobjs r) = 0) :
    Rep arena out { s with topregion := r }
      { L with regions := .fresh r np :: L.regions, held } := by
  have hrep : (RegionLayout.fresh r np).Rep s.mem (topOf L.regions) := by
    refine ⟨ha, ⟨hfp, hn⟩, ?_, hp.trans h.stack.top_eq, hlobjs, ?_⟩
    · intro p hmem
      obtain rfl := List.mem_singleton.mp hmem
      exact hgen
    · intro o ho
      cases ho
  -- everything but the new region is as it was
  refine ⟨h.free, ⟨rfl, hrep, h.stack.top_eq ▸ h.stack⟩, h.total, ?_, h.out, ?_, ?_, ?_⟩
  · -- the page moves from the hand to the region
    refine List.Perm.trans ?_ h.pages
    rw [Layout.pages, Layout.pages, hheld]
    exact List.perm_middle
  · exact List.pairwise_cons.mpr ⟨horder, h.order⟩
  · intro r' hr'
    rcases List.mem_cons.mp hr' with rfl | hr'
    · exact hr
    · exact h.descs r' hr'
  · intro R hR
    rcases List.mem_cons.mp hR with rfl | hR
    · refine ⟨Nat.zero_le _, ?_, ?_, List.Pairwise.nil⟩
      · intro e he
        cases he
      · intro o ho
        cases ho
    · exact h.ok R hR

/-- A descriptor below the others meets nothing. -/
theorem Rep.fresh_desc (h : Rep arena out s L) (hA : A.Lawful arena out) {r : Nat}
    (hr : DescOk arena r) (horder : ∀ r' ∈ L.descs, r + sizeofRo ≤ r') {e : Extent}
    (he : e ∈ L.held.map pageExtent ++ L.extents) : (descExtent r).Disjoint e := by
  have hpage : ∀ p ∈ L.pages, (descExtent r).Disjoint (pageExtent p) := fun p hp =>
    Rep.desc_disjoint hr (by decide : 0 < sizeofRp) fun a ha => h.page_arena hA hp ha
  rcases List.mem_append.mp he with he | he
  · obtain ⟨p, hp, rfl⟩ := List.mem_map.mp he
    exact hpage p (List.mem_append_left _ (List.mem_append_left _ hp))
  · rcases List.mem_append.mp he with he | he
    · obtain ⟨p, hp, rfl⟩ := List.mem_map.mp he
      exact hpage p (List.mem_append_left _ (List.mem_append_right _ hp))
    · obtain ⟨R, hR, he⟩ := List.mem_flatMap.mp he
      rcases List.mem_cons.mp he with rfl | he
      · exact Or.inl (horder _ (List.mem_map_of_mem hR))
      · rcases List.mem_append.mp he with he | he
        · obtain ⟨p, hp, rfl⟩ := List.mem_map.mp he
          exact hpage p (Rep.mem_pages_of_region hR hp)
        · have hlen : 16 ≤ e.len := (h.ok R hR).lobjs_len e he
          have hblock := hA.block _ _ _ h.out e
            (List.mem_append_right _ (Rep.mem_lobjs_of_region hR he))
          exact Rep.desc_disjoint hr (Nat.lt_of_lt_of_le (by decide) hlen) hblock.2.2.2

/-- A descriptor that is not on the stack yet may be written. -/
theorem Rep.store_fresh (h : Rep arena out s L) (hA : A.Lawful arena out) {d : Nat}
    (hr : DescOk arena d) (horder : ∀ r' ∈ L.descs, d + sizeofRo ≤ r') {k : Nat}
    (hk : k < sizeofRo) (v : Nat) : Rep arena out (s.store (d + k) v) L := by
  have hhas : (descExtent d).Has (d + k) := ⟨Nat.le_add_right _ _, Nat.add_lt_add_left hk _⟩
  refine h.frame ((AgreeOn.refl _ _).update ?_ v) (hA.update h.out ?_ v)
  · exact not_covers (fun _ he => h.fresh_desc hA hr horder (List.mem_append_right _ he)) hhas
  · exact Or.inl (hr.stack _ hhas)

/-- The descriptor of a region that has no page yet. -/
theorem Rep.opened (h : Rep arena out s L) (hA : A.Lawful arena out) {d : Nat}
    (hr : DescOk arena d) (horder : ∀ r' ∈ L.descs, d + sizeofRo ≤ r') :
    Rep arena out (s.opened d) L :=
  ((h.store_fresh hA hr horder (by decide : 8 < sizeofRo) _).store_fresh hA hr horder
    (by decide : 16 < sizeofRo) _).store_fresh hA hr horder (by decide : 24 < sizeofRo) _

/-- What `allocateRegion` makes of a layout. -/
inductive Pushed (L : Layout) (r : Nat) : Layout → Prop where
  | mk {L₁ : Layout} {np : Nat} {fs : List Nat} (hs : Supply L L₁) (hfree : L₁.free = np :: fs) :
    Pushed L r { L₁ with regions := .fresh r np :: L₁.regions, free := fs }

end Unikernel.Runtime
