import Unikernel.Lib.Masks
import Unikernel.Lib.Segment
import Unikernel.Runtime.Region

/-!
# The layout of regions in memory

A layout says which pages, large objects and objects each region has, which pages are
free, and which chunks they were cut from. `Rep s L`: the memory and the globals of the
state `s` hold the layout `L`.

- `Rep.separated`: descriptors, pages and large objects do not meet.
- `Rep.frame`: what is stored elsewhere does not matter.
- `Stack.replace`: one region of the stack changes, and the others stay.
-/

namespace Unikernel.Runtime

/-! ## Arithmetic of pages

Pages are found from an address by masking its low bits, and the end of a page by rounding. On
aligned pages both are what they should be. -/

theorem sizeofRp_eq : sizeofRp = 8192 := rfl

theorem bytesAllocBySbrk_eq : bytesAllocBySbrk = 819200 := rfl

/-- An object, with the words that the program has stored in it. -/
structure Obj where
  addr : Nat
  words : List (Option Nat)
deriving DecidableEq, Repr

/-- The bytes of its words. -/
def Obj.extent (o : Obj) : Extent := ⟨o.addr, wordSizeBytes * o.words.length⟩

/-- The memory holds what was stored in the object. -/
def Obj.Holds (m : Mem) (o : Obj) : Prop :=
  ∀ k v, o.words[k]? = some (some v) → m (o.addr + wordSizeBytes * k) = v

/-- A region: the pages `older` and then `last`, oldest first, `fill` words of the last one
in use; the blocks of the large objects, newest first; and all objects. -/
structure RegionLayout where
  desc : Nat
  older : List Nat
  last : Nat
  fill : Nat
  lobjs : List Extent
  objs : List Obj

/-- The regions, the top of the stack first; the free pages; pages in between; and what
`malloc` has given for pages. -/
structure Layout where
  regions : List RegionLayout
  free : List Nat
  held : List Nat
  chunks : List Nat

/-- A page in memory, -/
def pageExtent (p : Nat) : Extent := ⟨p, sizeofRp⟩

/-- and a descriptor on the stack. -/
def descExtent (r : Nat) : Extent := ⟨r, sizeofRo⟩

namespace RegionLayout

def pages (R : RegionLayout) : List Nat := R.older ++ [R.last]

/-- The allocation pointer. -/
def ptr (R : RegionLayout) : Nat := R.last + 16 + wordSizeBytes * R.fill

/-- The pages and the large objects. -/
def body (R : RegionLayout) : List Extent := R.pages.map pageExtent ++ R.lobjs

/-- Everything that must keep its contents while the region lives. -/
def extents (R : RegionLayout) : List Extent := descExtent R.desc :: R.body

/-- The places of the region in which objects lie. -/
def rooms (R : RegionLayout) : List Extent :=
  R.older.map (fun p => ⟨p + 16, wordSizeBytes * allocatableWordsInRegionPage⟩) ++
    ⟨R.last + 16, wordSizeBytes * R.fill⟩ :: R.lobjs.map fun e => ⟨e.base + 8, e.len - 8⟩

/-- What holds of a region whatever the memory is. -/
structure Ok (R : RegionLayout) : Prop where
  fill_le : R.fill ≤ allocatableWordsInRegionPage
  lobjs_len : ∀ e ∈ R.lobjs, sizeofLobjs ≤ e.len
  placed : ∀ o ∈ R.objs, 8 ∣ o.addr ∧ ∃ e ∈ R.rooms, o.extent.Within e
  separated : Separated (R.objs.map Obj.extent)

/-- The memory holds the region, and `below` is the next descriptor. -/
structure Rep (R : RegionLayout) (m : Mem) (below : Nat) : Prop where
  a : m (Gen.a R.desc) = R.ptr
  fp : Segment m (m (Gen.fp R.desc)) R.pages 0
  gen : ∀ p ∈ R.pages, m (Rp.gen p) = R.desc
  p : m (Ro.p R.desc) = below
  lobjs : Segment m (m (Ro.lobjs R.desc)) (R.lobjs.map Extent.base) 0
  holds : ∀ o ∈ R.objs, o.Holds m

end RegionLayout

/-- The descriptor of the top region, or `NULL`. -/
def topOf : List RegionLayout → Nat
  | [] => 0
  | R :: _ => R.desc

/-- The memory holds the stack of regions. -/
def Stack (m : Mem) : Nat → List RegionLayout → Prop
  | top, [] => top = 0
  | top, R :: Rs => top = R.desc ∧ R.Rep m (topOf Rs) ∧ Stack m (topOf Rs) Rs

/-- A chunk starts at the first page boundary in what `malloc` has given. -/
def chunkBase (sb : Nat) : Nat := (sb + (sizeofRp - 1)) / sizeofRp * sizeofRp

/-- The pages of a block, in the order of their addresses. -/
def chunkPages (sb : Nat) : List Nat :=
  (List.range regionPageBagSize).map fun i => chunkBase sb + sizeofRp * i

/-- The block that starts at `sb`. -/
def chunkBlock (sb : Nat) : Extent := ⟨sb, bytesAllocBySbrk + sizeofRp + sizeofRp⟩

namespace Layout

def pages (L : Layout) : List Nat := L.held ++ L.free ++ L.regions.flatMap RegionLayout.pages

def lobjs (L : Layout) : List Extent := L.regions.flatMap RegionLayout.lobjs

def descs (L : Layout) : List Nat := L.regions.map RegionLayout.desc

/-- What the runtime has from `malloc`. -/
def blocks (L : Layout) : List Extent := L.chunks.map chunkBlock ++ L.lobjs

/-- The memory that matters. -/
def extents (L : Layout) : List Extent :=
  L.free.map pageExtent ++ L.regions.flatMap RegionLayout.extents

end Layout

/-- Where a descriptor may be: on the stack, and aligned to words. -/
structure DescOk (arena : Nat → Prop) (r : Nat) : Prop where
  pos : 0 < r
  aligned : 8 ∣ r
  limit : r + sizeofRo ≤ 2 ^ 64
  stack : ∀ a, (descExtent r).Has a → ¬ arena a

/-- The state holds the layout. -/
structure Rep {σ : Type} (arena : Nat → Prop) (out : σ → Mem → List Extent → Prop) (s : State σ)
    (L : Layout) : Prop where
  free : Segment s.mem s.freelist L.free 0
  stack : Stack s.mem s.topregion L.regions
  total : s.rpTotal = regionPageBagSize * L.chunks.length
  pages : L.pages.Perm (L.chunks.flatMap chunkPages)
  out : out s.os s.mem L.blocks
  order : L.descs.Pairwise fun r r' => r + sizeofRo ≤ r'
  descs : ∀ r ∈ L.descs, DescOk arena r
  ok : ∀ R ∈ L.regions, R.Ok

/-! ## Chunks and pages

One call of `malloc` gives a block for a hundred pages and the bytes that aligning them may cost.
The pages lie in the block one behind the other. -/

/-- Rounded up, by less than a page. -/
theorem chunkBase_spec (sb : Nat) :
    sb ≤ chunkBase sb ∧ chunkBase sb < sb + sizeofRp ∧ sizeofRp ∣ chunkBase sb := by
  refine ⟨?_, ?_, Nat.dvd_mul_left _ _⟩
  all_goals
    unfold chunkBase
    rw [sizeofRp_eq]
    omega

/-- They are a page apart. -/
theorem mem_chunkPages {sb p : Nat} :
    p ∈ chunkPages sb ↔ ∃ i < regionPageBagSize, p = chunkBase sb + sizeofRp * i := by
  rw [chunkPages, List.mem_map]
  constructor
  · rintro ⟨i, hi, rfl⟩
    exact ⟨i, List.mem_range.mp hi, rfl⟩
  · rintro ⟨i, hi, rfl⟩
    exact ⟨i, List.mem_range.mpr hi, rfl⟩

theorem chunkPages_aligned {sb p : Nat} (hp : p ∈ chunkPages sb) : sizeofRp ∣ p := by
  obtain ⟨i, -, rfl⟩ := mem_chunkPages.mp hp
  exact Nat.dvd_add (chunkBase_spec sb).2.2 (Nat.dvd_mul_right _ i)

/-- The block has room for the rounding. -/
theorem chunkPages_within {sb p : Nat} (hp : p ∈ chunkPages sb) :
    (pageExtent p).Within (chunkBlock sb) := by
  obtain ⟨i, hi, rfl⟩ := mem_chunkPages.mp hp
  obtain ⟨hlow, hhigh, -⟩ := chunkBase_spec sb
  simp only [Extent.Within, Extent.stop, pageExtent, chunkBlock, bytesAllocBySbrk_eq,
    regionPageBagSize, sizeofRp_eq] at *
  omega

/-- They do not overlap. -/
theorem chunkPages_separated (sb : Nat) : Separated ((chunkPages sb).map pageExtent) := by
  rw [Separated, chunkPages, List.map_map, List.pairwise_map]
  refine List.pairwise_lt_range.imp ?_
  intro i j hij
  refine Or.inl ?_
  simp only [Function.comp_apply, Extent.stop, pageExtent, sizeofRp_eq]
  omega

/-- Pages of separated chunks. -/
theorem pages_separated {chunks : List Nat} (h : Separated (chunks.map chunkBlock)) :
    Separated ((chunks.flatMap chunkPages).map pageExtent) := by
  have hwithin : ∀ e ∈ chunks.map chunkBlock, ∀ p ∈ (chunkPages e.base).map pageExtent,
      p.Within e := by
    intro e he p hp
    obtain ⟨sb, -, rfl⟩ := List.mem_map.mp he
    obtain ⟨q, hq, rfl⟩ := List.mem_map.mp hp
    exact chunkPages_within hq
  have hparts := h.flatMap (fun e _ => chunkPages_separated e.base) hwithin
  rw [List.flatMap_map] at hparts
  rwa [List.map_flatMap]

/-! ## What a region occupies

Its descriptor lies on the stack of the program, its pages in chunks, its large objects in blocks
of their own. The last two are the body of the region. -/

theorem Obj.has_word (o : Obj) {k : Nat} (hk : k < o.words.length) :
    o.extent.Has (o.addr + wordSizeBytes * k) := by
  refine ⟨Nat.le_add_right _ _, ?_⟩
  show o.addr + 8 * k < o.addr + 8 * o.words.length
  omega

/-- The same extents, sorted by kind. -/
theorem extents_perm (Rs : List RegionLayout) :
    (Rs.flatMap RegionLayout.extents).Perm ((Rs.map RegionLayout.desc).map descExtent ++
      ((Rs.flatMap RegionLayout.pages).map pageExtent ++ Rs.flatMap RegionLayout.lobjs)) := by
  have hcut : (Rs.flatMap RegionLayout.extents).Perm
      (Rs.flatMap (fun R => [descExtent R.desc]) ++
        Rs.flatMap fun R => R.pages.map pageExtent ++ R.lobjs) :=
    (List.flatMap_append_perm Rs (fun R => [descExtent R.desc])
      fun R => R.pages.map pageExtent ++ R.lobjs).symm
  have hrest := (List.flatMap_append_perm Rs (fun R => R.pages.map pageExtent)
    RegionLayout.lobjs).symm
  have hdescs : Rs.flatMap (fun R => [descExtent R.desc]) =
      (Rs.map RegionLayout.desc).map descExtent := by
    rw [List.map_map, List.map_eq_flatMap]
    rfl
  rw [hdescs] at hcut
  rw [List.map_flatMap]
  exact hcut.trans (hrest.append_left _)

namespace RegionLayout

variable {R : RegionLayout} {m m' : Mem} {below : Nat}

theorem desc_mem_extents (R : RegionLayout) : descExtent R.desc ∈ R.extents :=
  List.mem_cons_self

theorem page_mem_body {p : Nat} (hp : p ∈ R.pages) : pageExtent p ∈ R.body :=
  List.mem_append_left _ (List.mem_map_of_mem hp)

theorem lobj_mem_body {e : Extent} (he : e ∈ R.lobjs) : e ∈ R.body := List.mem_append_right _ he

theorem page_mem_extents {p : Nat} (hp : p ∈ R.pages) : pageExtent p ∈ R.extents :=
  List.mem_cons_of_mem _ (page_mem_body hp)

theorem lobj_mem_extents {e : Extent} (he : e ∈ R.lobjs) : e ∈ R.extents :=
  List.mem_cons_of_mem _ (lobj_mem_body he)

theorem last_mem_pages (R : RegionLayout) : R.last ∈ R.pages :=
  List.mem_append_right _ (List.mem_singleton_self _)

/-- Objects lie in pages and large objects. -/
theorem Ok.room_within (h : R.Ok) {e : Extent} (he : e ∈ R.rooms) :
    ∃ f ∈ R.body, e.Within f := by
  rcases List.mem_append.mp he with he | he
  · obtain ⟨p, hp, rfl⟩ := List.mem_map.mp he
    refine ⟨pageExtent p, page_mem_body (List.mem_append_left _ hp), Nat.le_add_right p 16, ?_⟩
    show p + 16 + 8 * 1022 ≤ p + 8192
    omega
  · rcases List.mem_cons.mp he with rfl | he
    · refine ⟨pageExtent R.last, page_mem_body R.last_mem_pages, Nat.le_add_right _ 16, ?_⟩
      have hfill : R.fill ≤ 1022 := h.fill_le
      show R.last + 16 + 8 * R.fill ≤ R.last + 8192
      omega
    · obtain ⟨f, hf, rfl⟩ := List.mem_map.mp he
      refine ⟨f, lobj_mem_body hf, Nat.le_add_right _ 8, ?_⟩
      have hlen : 16 ≤ f.len := h.lobjs_len f hf
      show f.base + 8 + (f.len - 8) ≤ f.base + f.len
      omega

/-- The addresses of a room are behind the header of a page, or behind the link of a large
object. -/
theorem Ok.room_cases (h : R.Ok) {e : Extent} (he : e ∈ R.rooms) {a : Nat} (ha : e.Has a) :
    (∃ p ∈ R.pages, p + 16 ≤ a ∧ a < p + sizeofRp) ∨
      ∃ f ∈ R.lobjs, f.base + 8 ≤ a ∧ f.Has a := by
  rcases List.mem_append.mp he with he | he
  · obtain ⟨p, hp, rfl⟩ := List.mem_map.mp he
    refine Or.inl ⟨p, List.mem_append_left _ hp, ha.1, Nat.lt_of_lt_of_le ha.2 ?_⟩
    show p + 16 + 8 * 1022 ≤ p + 8192
    omega
  · rcases List.mem_cons.mp he with rfl | he
    · refine Or.inl ⟨R.last, R.last_mem_pages, ha.1, Nat.lt_of_lt_of_le ha.2 ?_⟩
      have hfill : R.fill ≤ 1022 := h.fill_le
      show R.last + 16 + 8 * R.fill ≤ R.last + 8192
      omega
    · obtain ⟨f, hf, rfl⟩ := List.mem_map.mp he
      refine Or.inr ⟨f, hf, ha.1, Nat.le_trans (Nat.le_add_right _ 8) ha.1,
        Nat.lt_of_lt_of_le ha.2 ?_⟩
      have hlen : 16 ≤ f.len := h.lobjs_len f hf
      show f.base + 8 + (f.len - 8) ≤ f.base + f.len
      omega

/-- A word of an object lies in the body of its region. -/
theorem Ok.word_covered (h : R.Ok) {o : Obj} (ho : o ∈ R.objs) {k : Nat}
    (hk : k < o.words.length) : Covers R.body (o.addr + wordSizeBytes * k) := by
  obtain ⟨-, e, he, hin⟩ := h.placed o ho
  obtain ⟨f, hf, hwithin⟩ := h.room_within he
  exact ⟨f, hf, hwithin.has (hin.has (o.has_word hk))⟩

/-- Stores elsewhere do not change a region. -/
theorem Rep.frame (h : R.Rep m below) (hok : R.Ok) (hm : AgreeOn (Covers R.extents) m m') :
    R.Rep m' below := by
  have hdesc : ∀ k < 32, m' (R.desc + k) = m (R.desc + k) := by
    intro k hk
    refine hm _ ⟨_, R.desc_mem_extents, Nat.le_add_right _ _, ?_⟩
    exact Nat.add_lt_add_left hk _
  have hpage : ∀ p ∈ R.pages, ∀ k < 16, m' (p + k) = m (p + k) := by
    intro p hp k hk
    refine hm _ ⟨_, page_mem_extents hp, Nat.le_add_right _ _, ?_⟩
    show p + k < p + 8192
    omega
  refine ⟨?_, ?_, ?_, ?_, ?_, ?_⟩
  · exact (hdesc 0 (by decide)).trans h.a
  · have hfp : Segment m' (m (Gen.fp R.desc)) R.pages 0 :=
      h.fp.congr fun p hp => hpage p hp 0 (by decide)
    rwa [← hdesc 8 (by decide)] at hfp
  · intro p hp
    exact (hpage p hp 8 (by decide)).trans (h.gen p hp)
  · exact (hdesc 16 (by decide)).trans h.p
  · have hlobjs : Segment m' (m (Ro.lobjs R.desc)) (R.lobjs.map Extent.base) 0 := by
      refine h.lobjs.congr ?_
      intro a ha
      obtain ⟨e, he, rfl⟩ := List.mem_map.mp ha
      refine hm _ ⟨e, lobj_mem_extents he, Nat.le_refl _, ?_⟩
      exact Nat.lt_add_of_pos_right (Nat.lt_of_lt_of_le (by decide) (hok.lobjs_len e he))
    rwa [← hdesc 24 (by decide)] at hlobjs
  · intro o ho k v hv
    have hk := (List.getElem?_eq_some_iff.mp hv).1
    rw [hm _ (covers_cons.mpr (Or.inr (hok.word_covered ho hk)))]
    exact h.holds o ho k v hv

end RegionLayout

/-! ## Stacks

Regions on the stack, the top one first; each descriptor leads to the one below. -/

namespace Stack

variable {m m' : Mem} {top : Nat} {pre post Rs : List RegionLayout} {R R' : RegionLayout}

/-- The top of the stack is known from the list. -/
theorem top_eq (h : Stack m top Rs) : top = topOf Rs := by
  cases Rs with
  | nil => exact h
  | cons R Rs => exact h.1

/-- Any region of the stack is held by the memory. -/
theorem get (h : Stack m top (pre ++ R :: post)) : R.Rep m (topOf post) := by
  induction pre generalizing top with
  | nil => exact h.2.1
  | cons R₀ pre ih => exact ih h.2.2

/-- Stores outside what the regions occupy leave the stack as it is. -/
theorem frame (h : Stack m top Rs) (hok : ∀ R ∈ Rs, R.Ok)
    (hm : AgreeOn (Covers (Rs.flatMap RegionLayout.extents)) m m') : Stack m' top Rs := by
  induction Rs generalizing top with
  | nil => exact h
  | cons R Rs ih =>
    obtain ⟨htop, hR, hRs⟩ := h
    rw [List.flatMap_cons] at hm
    refine ⟨htop, hR.frame (hok R List.mem_cons_self) (hm.mono ?_),
      ih hRs (fun R hR => hok R (List.mem_cons_of_mem _ hR)) (hm.mono ?_)⟩
    · exact fun a ha => covers_append.mpr (Or.inl ha)
    · exact fun a ha => covers_append.mpr (Or.inr ha)

/-- A region may change its contents, but not its place. -/
theorem topOf_replace (hdesc : R'.desc = R.desc) :
    topOf (pre ++ R' :: post) = topOf (pre ++ R :: post) := by
  cases pre with
  | nil => exact hdesc
  | cons R₀ pre => rfl

/-- One region changes, and the others stay. -/
theorem replace (h : Stack m top (pre ++ R :: post)) (hok : ∀ R ∈ pre ++ post, R.Ok)
    (hm : AgreeOn (Covers ((pre ++ post).flatMap RegionLayout.extents)) m m')
    (hdesc : R'.desc = R.desc) (hR' : R'.Rep m' (topOf post)) :
    Stack m' top (pre ++ R' :: post) := by
  induction pre generalizing top with
  | nil => exact ⟨h.1.trans hdesc.symm, hR', h.2.2.frame hok hm⟩
  | cons R₀ pre ih =>
    obtain ⟨htop, hR₀, hrest⟩ := h
    rw [List.cons_append, List.flatMap_cons] at hm
    have htopOf : topOf (pre ++ R' :: post) = topOf (pre ++ R :: post) := topOf_replace hdesc
    refine ⟨htop, ?_, ?_⟩
    · show R₀.Rep m' (topOf (pre ++ R' :: post))
      rw [htopOf]
      exact hR₀.frame (hok R₀ List.mem_cons_self)
        (hm.mono fun a ha => covers_append.mpr (Or.inl ha))
    · show Stack m' (topOf (pre ++ R' :: post)) (pre ++ R' :: post)
      rw [htopOf]
      exact ih hrest (fun R hR => hok R (List.mem_cons_of_mem _ hR))
        (hm.mono fun a ha => covers_append.mpr (Or.inr ha))

end Stack

/-! ## States that hold a layout

The representation. What is in a block of the layout is in the arena, so a pointer into it is
neither null nor near the end of memory. -/

namespace Rep

variable {σ : Type} {A : Host σ} {arena : Nat → Prop} {out : σ → Mem → List Extent → Prop}
  {s : State σ} {L : Layout}

/-- The allocator keeps its blocks apart. -/
theorem blocks_separated (h : Rep arena out s L) (hA : A.Lawful arena out) :
    Separated L.blocks := hA.separated _ _ _ h.out

/-- A page lies in a chunk. -/
theorem page_chunk (h : Rep arena out s L) {p : Nat} (hp : p ∈ L.pages) :
    ∃ sb ∈ L.chunks, p ∈ chunkPages sb := List.mem_flatMap.mp (h.pages.mem_iff.mp hp)

theorem chunkBlock_mem {sb : Nat} (hsb : sb ∈ L.chunks) : chunkBlock sb ∈ L.blocks :=
  List.mem_append_left _ (List.mem_map_of_mem hsb)

theorem page_aligned (h : Rep arena out s L) {p : Nat} (hp : p ∈ L.pages) : sizeofRp ∣ p := by
  obtain ⟨sb, -, hp⟩ := h.page_chunk hp
  exact chunkPages_aligned hp

theorem page_arena (h : Rep arena out s L) (hA : A.Lawful arena out) {p a : Nat}
    (hp : p ∈ L.pages) (ha : (pageExtent p).Has a) : arena a := by
  obtain ⟨sb, hsb, hp⟩ := h.page_chunk hp
  obtain ⟨-, -, -, harena⟩ := hA.block _ _ _ h.out _ (chunkBlock_mem hsb)
  exact harena a ((chunkPages_within hp).has ha)

theorem mem_pages_of_region {R : RegionLayout} (hR : R ∈ L.regions) {p : Nat} (hp : p ∈ R.pages) :
    p ∈ L.pages := List.mem_append_right _ (List.mem_flatMap.mpr ⟨R, hR, hp⟩)

theorem mem_lobjs_of_region {R : RegionLayout} (hR : R ∈ L.regions) {e : Extent}
    (he : e ∈ R.lobjs) : e ∈ L.lobjs := List.mem_flatMap.mpr ⟨R, hR, he⟩

/-- A descriptor does not meet what lies in the arena. -/
theorem desc_disjoint {r : Nat} (hr : DescOk arena r) {e : Extent} (hlen : 0 < e.len)
    (he : ∀ a, e.Has a → arena a) : (descExtent r).Disjoint e :=
  Extent.disjoint_of_forall (by decide : 0 < sizeofRo) hlen fun a ha hea => hr.stack a ha (he a hea)

open List in
/-- **Nothing meets**: the pages, the large objects and the descriptors. -/
theorem separated (h : Rep arena out s L) (hA : A.Lawful arena out) :
    Separated (L.held.map pageExtent ++ L.extents) := by
  obtain ⟨hchunks, hlobjs, hcross⟩ := Separated.append_iff.mp (h.blocks_separated hA)
  have hpages : Separated (L.pages.map pageExtent) :=
    (pages_separated hchunks).perm (h.pages.map pageExtent).symm
  have hdescs : Separated (L.descs.map descExtent) :=
    List.pairwise_map.mpr (h.order.imp fun hle => Or.inl hle)
  have hlower : Separated (L.pages.map pageExtent ++ L.lobjs) := by
    refine Separated.append_iff.mpr ⟨hpages, hlobjs, ?_⟩
    intro e he f hf
    obtain ⟨p, hp, rfl⟩ := List.mem_map.mp he
    obtain ⟨sb, hsb, hp⟩ := h.page_chunk hp
    exact (hcross _ (List.mem_map_of_mem hsb) f hf).within (chunkPages_within hp) (.refl f)
  have hall : Separated (L.descs.map descExtent ++ (L.pages.map pageExtent ++ L.lobjs)) := by
    refine Separated.append_iff.mpr ⟨hdescs, hlower, ?_⟩
    intro e he f hf
    obtain ⟨r, hr, rfl⟩ := List.mem_map.mp he
    rcases List.mem_append.mp hf with hf | hf
    · obtain ⟨p, hp, rfl⟩ := List.mem_map.mp hf
      exact desc_disjoint (h.descs r hr) (by decide : 0 < sizeofRp)
        fun a ha => h.page_arena hA hp ha
    · obtain ⟨R, hR, hfR⟩ := List.mem_flatMap.mp hf
      have hlen : 16 ≤ f.len := (h.ok R hR).lobjs_len f hfR
      obtain ⟨-, -, -, harena⟩ := hA.block _ _ _ h.out f (List.mem_append_right _ hf)
      exact desc_disjoint (h.descs r hr) (Nat.lt_of_lt_of_le (by decide) hlen) harena
  have hregions := (extents_perm L.regions).symm
  refine hall.perm ?_
  calc L.descs.map descExtent ++ (L.pages.map pageExtent ++ L.lobjs)
      = L.descs.map descExtent ++ (L.held.map pageExtent ++ L.free.map pageExtent ++
          ((L.regions.flatMap RegionLayout.pages).map pageExtent ++ L.lobjs)) := by
        rw [Layout.pages, List.map_append, List.map_append, List.append_assoc]
    _ ~ (L.held.map pageExtent ++ L.free.map pageExtent) ++ (L.descs.map descExtent ++
          ((L.regions.flatMap RegionLayout.pages).map pageExtent ++ L.lobjs)) :=
        List.perm_append_comm_assoc _ _ _
    _ ~ (L.held.map pageExtent ++ L.free.map pageExtent) ++
          L.regions.flatMap RegionLayout.extents := hregions.append_left _
    _ = L.held.map pageExtent ++ L.extents := List.append_assoc _ _ _

/-! ### Words that the allocator leaves alone -/

/-- Words of pages are not for the allocator to write, whatever else is out, -/
theorem page_kept (h : Rep arena out s L) {p a : Nat} (hp : p ∈ L.pages)
    (ha : (pageExtent p).Has a) (l : List Extent) :
    Malloc.Kept arena (L.chunks.map chunkBlock ++ l) a := by
  obtain ⟨sb, hsb, hp⟩ := h.page_chunk hp
  exact Or.inr ⟨_, List.mem_append_left _ (List.mem_map_of_mem hsb), (chunkPages_within hp).has ha⟩

/-- What matters for some of the regions is kept by the allocator, as long as it has not taken
back their large objects. -/
theorem kept_of_regions (h : Rep arena out s L) {Rs : List RegionLayout}
    (hRs : ∀ R ∈ Rs, R ∈ L.regions) {a : Nat}
    (ha : Covers (L.free.map pageExtent ++ Rs.flatMap RegionLayout.extents) a) :
    Malloc.Kept arena (L.chunks.map chunkBlock ++ Rs.flatMap RegionLayout.lobjs) a := by
  obtain ⟨e, he, ha⟩ := ha
  rcases List.mem_append.mp he with he | he
  · obtain ⟨p, hp, rfl⟩ := List.mem_map.mp he
    exact h.page_kept (List.mem_append_left _ (List.mem_append_right _ hp)) ha _
  · obtain ⟨R, hR, he⟩ := List.mem_flatMap.mp he
    rcases List.mem_cons.mp he with rfl | he
    · exact Or.inl ((h.descs _ (List.mem_map_of_mem (hRs R hR))).stack a ha)
    · rcases List.mem_append.mp he with he | he
      · obtain ⟨p, hp, rfl⟩ := List.mem_map.mp he
        exact h.page_kept (mem_pages_of_region (hRs R hR) hp) ha _
      · exact Or.inr ⟨e, List.mem_append_right _ (List.mem_flatMap.mpr ⟨R, hR, he⟩), ha⟩

/-- nor is anything a region occupies, -/
theorem extents_kept (h : Rep arena out s L) {a : Nat} (ha : Covers L.extents a) :
    Malloc.Kept arena L.blocks a := h.kept_of_regions (fun _ hR => hR) ha

/-- in particular one of the regions on the stack. -/
theorem region_kept (h : Rep arena out s L) {R : RegionLayout} (hR : R ∈ L.regions) {e : Extent}
    (he : e ∈ R.extents) {a : Nat} (ha : e.Has a) : Malloc.Kept arena L.blocks a :=
  h.extents_kept ⟨e, List.mem_append_right _ (List.mem_flatMap.mpr ⟨R, hR, he⟩), ha⟩

/-- Stores to what the layout does not mention do not matter, when they are none to the
allocator's words. -/
theorem frame (h : Rep arena out s L) {m' : Mem} (hm : AgreeOn (Covers L.extents) s.mem m')
    (hout : out s.os m' L.blocks) : Rep arena out { s with mem := m' } L := by
  refine ⟨?_, ?_, h.total, h.pages, hout, h.order, h.descs, h.ok⟩
  · refine h.free.congr ?_
    intro p hp
    refine hm p (covers_append.mpr (Or.inl ⟨_, List.mem_map_of_mem hp, Nat.le_refl _, ?_⟩))
    exact Nat.lt_add_of_pos_right (by decide : 0 < sizeofRp)
  · exact h.stack.frame h.ok (hm.mono fun a ha => covers_append.mpr (Or.inr ha))

end Rep

end Unikernel.Runtime
