import Unikernel.Runtime.Deallocation

/-!
# Regions as the program sees them

A store is a stack of regions with their objects, and no pages. `Store.step` is what a call
means to the program: `letregion` pushes an empty region, `alloc` adds an object whose words
have not been written, popping a region takes its objects away. `Store.Allows` is what the
program has to keep to.

- `exec_rep`: a call that is allowed does to memory what `Store.step` does to the store, or
  ends in a lack of memory.
-/

namespace Unikernel.Runtime

/-! ## Stores

What the program knows of the runtime: which regions there are, which objects are in them, and what
it has stored in the words of these. A layout refines a store if the objects are the same (`Fits`);
its pages, its free list and the blocks from `malloc` are the runtime's own business. -/

/-- A region by its descriptor, with its objects, newest first. -/
structure LiveRegion where
  desc : Nat
  objs : List Obj
deriving DecidableEq, Repr

/-- The regions on the stack, the top one first. -/
abbrev Store := List LiveRegion

/-- The object after the word at `a` has been written. -/
def Obj.put (a v : Nat) (o : Obj) : Obj :=
  if o.extent.Has a then { o with words := o.words.set ((a - o.addr) / wordSizeBytes) (some v) }
  else o

namespace Store

def objs (st : Store) : List Obj := st.flatMap LiveRegion.objs

/-- Change the objects of the region `d`. -/
def modify (st : Store) (d : Nat) (f : List Obj → List Obj) : Store :=
  st.map fun R => if R.desc = d then { R with objs := f R.objs } else R

/-- What a call that returned `ret` means. -/
def step (st : Store) (c : Call) (ret : Nat) : Store :=
  match c with
  | .allocateRegion r => ⟨clearStatusBits r, []⟩ :: st
  | .deallocateRegion => st.tail
  | .deallocateRegionsUntil r => st.dropWhile fun R => R.desc ≤ clearStatusBits r
  | .alloc r n => st.modify (clearStatusBits r) fun objs => ⟨ret, List.replicate n none⟩ :: objs
  | .resetRegion r => st.modify (clearStatusBits r) fun _ => []
  | .store a v => st.map fun R => { R with objs := R.objs.map (Obj.put a v) }

end Store

/-- An object that does not fit in a page. -/
def Obj.large (o : Obj) : Bool := allocatableWordsInRegionPage < o.words.length

/-- The block of a large object. -/
def Obj.block (o : Obj) : Extent := ⟨o.addr - 8, wordSizeBytes * o.words.length + sizeofLobjs⟩

/-- The words of the objects that lie in pages. -/
def smallWords (objs : List Obj) : Nat :=
  ((objs.filter fun o => !o.large).map fun o => o.words.length).sum

def Layout.store (L : Layout) : Store := L.regions.map fun R => ⟨R.desc, R.objs⟩

/-- The layout is one for the store: a block for each large object, and a page only when the
one before was too full. -/
structure Fits (L : Layout) (st : Store) : Prop where
  held : L.held = []
  store : L.store = st
  lobjs : ∀ R ∈ L.regions, R.lobjs = (R.objs.filter Obj.large).map Obj.block
  dense : ∀ R ∈ L.regions,
    (allocatableWordsInRegionPage + 1) * R.older.length + R.fill ≤ 2 * smallWords R.objs

/-- Pages are added to a layout only when the free list is empty. -/
def Thrifty (L L' : Layout) : Prop :=
  L'.chunks.length = L.chunks.length ∨ L'.free.length + 1 = regionPageBagSize

/-- A chunk is added only when there was no free page, so that of its pages only the one
asked for is used. -/
theorem Supply.thrifty {L L₁ : Layout} {np : Nat} {fs : List Nat} (hs : Supply L L₁)
    (hfree : L₁.free = np :: fs) :
    L₁.chunks.length = L.chunks.length ∨ fs.length + 1 = regionPageBagSize := by
  cases hs with
  | enough => exact Or.inl rfl
  | more h sb =>
    have hlen : (chunkPages sb).length = (np :: fs).length := congrArg List.length hfree
    rw [chunkPages, List.length_map, List.length_range, List.length_cons] at hlen
    exact Or.inr hlen.symm

/-! ## One region of many

Most calls change the objects of one region. The program names a region by its descriptor, the
proofs by its place in the list. -/

section Modify

variable {L : Layout} {pre post : List RegionLayout} {R R' : RegionLayout} {st : Store}

/-- The store, seen from the region that is worked on. -/
theorem store_eq (hL : L.regions = pre ++ R :: post) :
    L.store = pre.map (fun R => ⟨R.desc, R.objs⟩) ++ ⟨R.desc, R.objs⟩ ::
      post.map fun R => ⟨R.desc, R.objs⟩ := by
  rw [Layout.store, hL, List.map_append, List.map_cons]

/-- Descriptors are different, so that changing the region `R.desc` changes one region. -/
theorem modify_eq (hL : L.regions = pre ++ R :: post)
    (horder : L.descs.Pairwise fun r r' => r + sizeofRo ≤ r') (f : List Obj → List Obj) :
    L.store.modify R.desc f = pre.map (fun R => ⟨R.desc, R.objs⟩) ++ ⟨R.desc, f R.objs⟩ ::
      post.map fun R => ⟨R.desc, R.objs⟩ := by
  rw [Layout.descs, hL, List.map_append, List.map_cons, List.pairwise_append,
    List.pairwise_cons] at horder
  obtain ⟨-, ⟨hpost, -⟩, hpre⟩ := horder
  have hother : ∀ Rs : List RegionLayout, (∀ R₀ ∈ Rs, R₀.desc ≠ R.desc) →
      (Rs.map fun R => (⟨R.desc, R.objs⟩ : LiveRegion)).map (fun R₀ =>
        if R₀.desc = R.desc then { R₀ with objs := f R₀.objs } else R₀) =
      Rs.map fun R => ⟨R.desc, R.objs⟩ := by
    intro Rs hRs
    rw [List.map_map]
    refine List.map_congr_left ?_
    intro R₀ hR₀
    exact if_neg (hRs R₀ hR₀)
  have hpos : 0 < sizeofRo := by decide
  have hpre' : ∀ R₀ ∈ pre, R₀.desc ≠ R.desc := by
    intro R₀ hR₀ heq
    have hle := hpre _ (List.mem_map_of_mem hR₀) _ List.mem_cons_self
    omega
  have hpost' : ∀ R₀ ∈ post, R₀.desc ≠ R.desc := by
    intro R₀ hR₀ heq
    have hle := hpost _ (List.mem_map_of_mem hR₀)
    omega
  rw [store_eq hL, Store.modify, List.map_append, List.map_cons, hother pre hpre',
    hother post hpost', if_pos rfl]

/-- A region of the store is one of the layout. -/
theorem Fits.region (h : Fits L st) {d : Nat} (hd : ∃ R ∈ st, R.desc = d) :
    ∃ pre R post, L.regions = pre ++ R :: post ∧ R.desc = d := by
  obtain ⟨R₀, hR₀, rfl⟩ := hd
  rw [← h.store] at hR₀
  obtain ⟨R, hR, rfl⟩ := List.mem_map.mp hR₀
  obtain ⟨pre, post, hL⟩ := List.append_of_mem hR
  exact ⟨pre, R, post, hL, rfl⟩

/-- One region of the layout changes its objects. -/
theorem Fits.modify (h : Fits L st) (hL : L.regions = pre ++ R :: post)
    (horder : L.descs.Pairwise fun r r' => r + sizeofRo ≤ r') {f : List Obj → List Obj}
    (hdesc : R'.desc = R.desc) (hobjs : R'.objs = f R.objs)
    (hlobjs : R'.lobjs = (R'.objs.filter Obj.large).map Obj.block)
    (hdense : (allocatableWordsInRegionPage + 1) * R'.older.length + R'.fill ≤
      2 * smallWords R'.objs) (free chunks : List Nat) :
    Fits { regions := pre ++ R' :: post, free, held := [], chunks } (st.modify R.desc f) := by
  have hothers : ∀ R₀ ∈ pre ++ R' :: post, R₀ = R' ∨ R₀ ∈ L.regions := by
    intro R₀ hR₀
    rw [hL]
    rcases List.mem_cons.mp (List.perm_middle.mem_iff.mp hR₀) with rfl | hR₀
    · exact Or.inl rfl
    · exact Or.inr (List.perm_middle.mem_iff.mpr (List.mem_cons_of_mem _ hR₀))
  refine ⟨rfl, ?_, ?_, ?_⟩
  · rw [← h.store, modify_eq hL horder, ← hobjs, ← hdesc, Layout.store, List.map_append,
      List.map_cons]
  · intro R₀ hR₀
    rcases hothers R₀ hR₀ with rfl | hR₀
    · exact hlobjs
    · exact h.lobjs R₀ hR₀
  · intro R₀ hR₀
    rcases hothers R₀ hR₀ with rfl | hR₀
    · exact hdense
    · exact h.dense R₀ hR₀

end Modify

/-! ## Allocations

An object takes a page, or a block, only if it does not fit. So a page that is not the last one,
together with what made the next one necessary, is full: 1023 words for two pages in a row, which
is the inequality `dense` of `Fits`. -/

section Alloc

variable {L L' : Layout} {pre post : List RegionLayout} {R : RegionLayout} {st : Store}

/-- Whether an object is large depends on its number of words only. -/
theorem large_new (a n : Nat) :
    Obj.large ⟨a, List.replicate n none⟩ = decide (allocatableWordsInRegionPage < n) := by
  rw [Obj.large, List.length_replicate]

/-- A small object adds its words to those that lie in pages. -/
theorem smallWords_small {a n : Nat} (hn : n ≤ allocatableWordsInRegionPage) (objs : List Obj) :
    smallWords (⟨a, List.replicate n none⟩ :: objs) = n + smallWords objs := by
  have hsmall : (!Obj.large ⟨a, List.replicate n none⟩) = true := by
    rw [large_new, decide_eq_false (Nat.not_lt.mpr hn)]
    rfl
  rw [smallWords, List.filter_cons_of_pos (p := fun o : Obj => !o.large) hsmall, List.map_cons,
    List.sum_cons, List.length_replicate]
  rfl

/-- A small object has no block. -/
theorem lobjs_small {a n : Nat} (hn : n ≤ allocatableWordsInRegionPage) (objs : List Obj) :
    (⟨a, List.replicate n none⟩ :: objs : List Obj).filter Obj.large = objs.filter Obj.large := by
  refine List.filter_cons_of_neg ?_
  rw [large_new, decide_eq_false (Nat.not_lt.mpr hn)]
  exact Bool.false_ne_true

/-- A large object has no words in pages. -/
theorem smallWords_large {a n : Nat} (hn : allocatableWordsInRegionPage < n) (objs : List Obj) :
    smallWords (⟨a, List.replicate n none⟩ :: objs) = smallWords objs := by
  have hlarge : ¬ (!Obj.large ⟨a, List.replicate n none⟩) = true := by
    rw [large_new, decide_eq_true hn]
    exact Bool.false_ne_true
  rw [smallWords, List.filter_cons_of_neg (p := fun o : Obj => !o.large) hlarge]
  rfl

/-- A large object has a block, with the link in front of it. -/
theorem lobjs_large {l n : Nat} (hn : allocatableWordsInRegionPage < n) (objs : List Obj) :
    ((⟨Lobjs.value l, List.replicate n none⟩ :: objs : List Obj).filter Obj.large).map Obj.block =
      ⟨l, wordSizeBytes * n + sizeofLobjs⟩ :: (objs.filter Obj.large).map Obj.block := by
  rw [List.filter_cons_of_pos (by rw [large_new, decide_eq_true hn]), List.map_cons, Obj.block,
    List.length_replicate]
  rfl

/-- An allocation, seen from the store. -/
theorem Allocated.fits (h : Fits L st) (hL : L.regions = pre ++ R :: post)
    (horder : L.descs.Pairwise fun r r' => r + sizeofRo ≤ r') {n a : Nat}
    (ha : Allocated L pre R post n L' a) :
    Fits L' (st.modify R.desc fun objs => ⟨a, List.replicate n none⟩ :: objs) ∧ Thrifty L L' := by
  have hR := Rep.mem_regions hL
  have hlobjs := h.lobjs R hR
  have hdense : 1023 * R.older.length + R.fill ≤ 2 * smallWords R.objs := h.dense R hR
  cases ha with
  | bump hn =>
    -- what fits behind the pointer is no large object
    have hsmall : n ≤ allocatableWordsInRegionPage :=
      Nat.le_trans (Nat.le_add_left n R.fill) hn
    refine ⟨?_, Or.inl rfl⟩
    obtain ⟨regions, free, held, chunks⟩ := L
    obtain rfl := h.held
    refine h.modify hL horder (show (R.bump n).desc = R.desc from rfl) rfl ?_ ?_ free chunks
    · exact hlobjs.trans (congrArg (List.map Obj.block) (lobjs_small hsmall R.objs).symm)
    · show 1023 * R.older.length + (R.fill + n) ≤ 2 * smallWords (_ :: R.objs)
      rw [smallWords_small hsmall]
      omega
  | @grow L₁ np fs hsmall hfull hs hfree =>
    refine ⟨?_, hs.thrifty hfree⟩
    have hheld : L₁.held = [] := hs.held.trans h.held
    obtain ⟨regions, free, held, chunks⟩ := L₁
    obtain rfl : held = [] := hheld
    refine h.modify hL horder (show ((R.grow np).bump n).desc = R.desc from rfl) rfl ?_ ?_ fs chunks
    · exact hlobjs.trans (congrArg (List.map Obj.block) (lobjs_small hsmall R.objs).symm)
    · -- the page before was too full for the object, so the two together have 1023 words
      have hfull : 1022 < R.fill + n := hfull
      show 1023 * (R.older ++ [R.last]).length + (0 + n) ≤ 2 * smallWords (_ :: R.objs)
      rw [smallWords_small hsmall, List.length_append, List.length_singleton]
      omega
  | lobj l hn =>
    refine ⟨?_, Or.inl rfl⟩
    obtain ⟨regions, free, held, chunks⟩ := L
    obtain rfl := h.held
    refine h.modify hL horder (show (R.addLobj l n).desc = R.desc from rfl) rfl ?_ ?_ free chunks
    · refine Eq.trans ?_ (lobjs_large hn R.objs).symm
      exact congrArg (_ :: ·) hlobjs
    · show 1023 * R.older.length + R.fill ≤ 2 * smallWords (_ :: R.objs)
      rw [smallWords_large hn]
      exact hdense

/-- A region with one page, seen from the store. -/
theorem Pushed.fits (h : Fits L st) {r : Nat} (hp : Pushed L r L') :
    Fits L' (⟨r, []⟩ :: st) ∧ Thrifty L L' := by
  cases hp with
  | @mk L₁ np fs hs hfree =>
    refine ⟨⟨hs.held.trans h.held, ?_, ?_, ?_⟩, hs.thrifty hfree⟩
    · rw [← h.store, Layout.store, Layout.store, hs.regions]
      rfl
    · intro R hR
      rcases List.mem_cons.mp hR with rfl | hR
      · rfl
      · exact h.lobjs R (hs.regions ▸ hR)
    · intro R hR
      rcases List.mem_cons.mp hR with rfl | hR
      · exact Nat.zero_le _
      · exact h.dense R (hs.regions ▸ hR)

end Alloc

/-! ## Deallocations

The regions that are left are as they were; what happens to their pages and blocks does not
concern the store. -/

section Dealloc

variable {L : Layout} {st : Store}

/-- Some of the regions, with any free list. -/
theorem Fits.sublist (h : Fits L st) {Rs : List RegionLayout} (hRs : ∀ R ∈ Rs, R ∈ L.regions)
    (free : List Nat) :
    Fits { L with regions := Rs, free } (Rs.map fun R => ⟨R.desc, R.objs⟩) :=
  ⟨h.held, rfl, fun R hR => h.lobjs R (hRs R hR), fun R hR => h.dense R (hRs R hR)⟩

/-- The loop of `deallocateRegionsUntil` stops at the first region that stays. -/
theorem popUntil_suffix (r : Nat) (Rs : List RegionLayout) (free : List Nat) :
    (popUntil r Rs free).1 = Rs.dropWhile fun R => R.desc ≤ r := by
  induction Rs generalizing free with
  | nil => rfl
  | cons R Rs ih =>
    unfold popUntil
    by_cases hle : R.desc ≤ r
    · rw [if_pos hle, ih, List.dropWhile_cons_of_pos
        (p := fun R : RegionLayout => decide (R.desc ≤ r)) (decide_eq_true hle)]
    · rw [if_neg hle, List.dropWhile_cons_of_neg
        (p := fun R : RegionLayout => decide (R.desc ≤ r)) (by simpa using hle)]

/-- Popping regions in the layout is popping them in the store. -/
theorem Fits.popUntil (h : Fits L st) (r : Nat) (free : List Nat) :
    Fits { L with regions := (popUntil r L.regions L.free).1, free }
      (st.dropWhile fun R => R.desc ≤ r) := by
  have hdrop := popUntil_suffix r L.regions L.free
  have hmem : ∀ R ∈ (Runtime.popUntil r L.regions L.free).1, R ∈ L.regions := by
    intro R hR
    rw [hdrop] at hR
    exact (List.dropWhile_suffix _).subset hR
  have hfits := h.sublist hmem free
  have hstore : (Runtime.popUntil r L.regions L.free).1.map
      (fun R => (⟨R.desc, R.objs⟩ : LiveRegion)) = st.dropWhile fun R => R.desc ≤ r := by
    rw [hdrop, ← h.store, Layout.store, List.dropWhile_map]
    rfl
  rwa [hstore] at hfits

end Dealloc

/-! ## Stores of the program -/

/-- A store changes what is in an object, not where it is. -/
theorem Obj.put_extent (a v : Nat) (o : Obj) : (o.put a v).extent = o.extent := by
  unfold Obj.put
  split
  · rw [Obj.extent, Obj.extent, List.length_set]
  · rfl

/-- The object has as many words as before. -/
theorem Obj.put_length (a v : Nat) (o : Obj) : (o.put a v).words.length = o.words.length := by
  unfold Obj.put
  split
  · exact List.length_set
  · rfl

/-- The object does not move. -/
theorem Obj.put_addr (a v : Nat) (o : Obj) : (o.put a v).addr = o.addr := by
  unfold Obj.put
  split <;> rfl

/-- So it keeps its block, or has none still. -/
theorem Obj.put_large (a v : Nat) (o : Obj) : (o.put a v).large = o.large := by
  rw [Obj.large, Obj.large, o.put_length]

/-- Only the object that has the word is changed. -/
theorem Obj.put_of_not_has {a v : Nat} {o : Obj} (h : ¬ o.extent.Has a) : o.put a v = o := if_neg h

/-- The written word, and the words around it. -/
theorem Obj.put_holds {m : Mem} {o : Obj} (h : o.Holds m) {k : Nat} (hk : k < o.words.length)
    (v : Nat) :
    (o.put (o.addr + wordSizeBytes * k) v).Holds
      (Function.update m (o.addr + wordSizeBytes * k) v) := by
  have hindex : (o.addr + wordSizeBytes * k - o.addr) / wordSizeBytes = k := by
    rw [Nat.add_sub_cancel_left]
    exact Nat.mul_div_cancel_left k (by decide)
  intro j w hw
  rw [Obj.put, if_pos (o.has_word hk), hindex] at hw ⊢
  show Function.update m (o.addr + wordSizeBytes * k) v (o.addr + wordSizeBytes * j) = w
  -- the word itself, and the others
  by_cases hjk : j = k
  · subst hjk
    rw [List.getElem?_set_self hk] at hw
    cases hw
    exact Mem.update_self _ _ _
  · rw [List.getElem?_set_ne (Ne.symm hjk)] at hw
    rw [Function.update_of_ne (by show o.addr + 8 * j ≠ o.addr + 8 * k; omega)]
    exact h j w hw

/-- A word outside of the object does not matter to it. -/
theorem Obj.Holds.update {m : Mem} {o : Obj} (h : o.Holds m) {a : Nat} (ha : ¬ o.extent.Has a)
    (v : Nat) : o.Holds (Function.update m a v) := by
  intro j w hw
  have hj := (List.getElem?_eq_some_iff.mp hw).1
  have hne : o.addr + wordSizeBytes * j ≠ a := by
    rintro rfl
    exact ha (o.has_word hj)
  rw [Function.update_of_ne hne]
  exact h j w hw

namespace RegionLayout

variable {R : RegionLayout} {m : Mem} {below : Nat}

/-- The region after a word of one of its objects has been written. -/
def put (R : RegionLayout) (a v : Nat) : RegionLayout := { R with objs := R.objs.map (Obj.put a v) }

/-- An object lies in a page or in a block of its region. -/
theorem Ok.extent_within (hok : R.Ok) {o : Obj} (ho : o ∈ R.objs) :
    ∃ f ∈ R.body, o.extent.Within f := by
  obtain ⟨-, e, he, hin⟩ := hok.placed o ho
  obtain ⟨f, hf, hwithin⟩ := hok.room_within he
  exact ⟨f, hf, hin.trans hwithin⟩

/-- The objects are where they were. -/
theorem put_ok (hok : R.Ok) (a v : Nat) : (R.put a v).Ok := by
  refine ⟨hok.fill_le, hok.lobjs_len, ?_, ?_⟩
  · intro o ho
    obtain ⟨o₁, ho₁, rfl⟩ := List.mem_map.mp ho
    rw [o₁.put_addr, o₁.put_extent]
    exact hok.placed o₁ ho₁
  · have hsame : (R.objs.map (Obj.put a v)).map Obj.extent = R.objs.map Obj.extent := by
      rw [List.map_map]
      exact List.map_congr_left fun o _ => o.put_extent a v
    show Separated ((R.objs.map (Obj.put a v)).map Obj.extent)
    rw [hsame]
    exact hok.separated

/-- A word of an object is not the link of a large object. -/
theorem word_ne_lobj (h : Separated R.extents) (hok : R.Ok) {o : Obj} (ho : o ∈ R.objs) {k : Nat}
    (hk : k < o.words.length) {e : Extent} (he : e ∈ R.lobjs) :
    o.addr + wordSizeBytes * k ≠ e.base := by
  have hbase : ∀ f ∈ R.lobjs, f.Has f.base := fun f hf => ⟨Nat.le_refl _,
    Nat.lt_add_of_pos_right (Nat.lt_of_lt_of_le (by decide) (hok.lobjs_len f hf))⟩
  obtain ⟨-, hlobjs, hcross⟩ := Separated.append_iff.mp (Separated.cons_iff.mp h).2
  obtain ⟨-, r, hr, hin⟩ := hok.placed o ho
  intro heq
  -- the object is in a page, or behind the link of its own block
  rcases hok.room_cases hr (hin.has (o.has_word hk)) with ⟨p, hp, hlow, hhigh⟩ | ⟨f, hf, hlow, hhas⟩
  · rw [heq] at hlow hhigh
    have hpage : (pageExtent p).Has e.base := ⟨Nat.le_trans (Nat.le_add_right _ _) hlow, hhigh⟩
    exact (hcross _ (List.mem_map_of_mem hp) e he).not_has hpage (hbase e he)
  · rw [heq] at hlow hhas
    by_cases hfe : f = e
    · subst hfe
      omega
    · exact (hlobjs.disjoint_of_mem hf he hfe).not_has hhas (hbase e he)

/-- A word of an object is stored to. The runtime's own words are in other places. -/
theorem put_rep (h : Separated R.extents) (hok : R.Ok) (hrep : R.Rep m below) {o : Obj}
    (ho : o ∈ R.objs) {k : Nat} (hk : k < o.words.length) (v : Nat) :
    (R.put (o.addr + wordSizeBytes * k) v).Rep
      (Function.update m (o.addr + wordSizeBytes * k) v) below := by
  -- the descriptor, the page headers and the links of large objects are not words of objects
  have hdesc : ∀ j < sizeofRo, Function.update m (o.addr + wordSizeBytes * k) v (R.desc + j) =
      m (R.desc + j) :=
    fun j hj => Function.update_of_ne (word_ne_desc h hok ho hk hj).symm _ _
  have hheader : ∀ p ∈ R.pages, ∀ j < 16,
      Function.update m (o.addr + wordSizeBytes * k) v (p + j) = m (p + j) :=
    fun p hp j hj => Function.update_of_ne (word_ne_header h hok ho hk hp hj).symm _ _
  refine ⟨(hdesc 0 (by decide)).trans hrep.a, ?_, ?_, (hdesc 16 (by decide)).trans hrep.p, ?_, ?_⟩
  · rw [show Gen.fp (R.put (o.addr + wordSizeBytes * k) v).desc = R.desc + 8 from rfl,
      hdesc 8 (by decide)]
    exact hrep.fp.congr fun p hp => hheader p hp 0 (by decide)
  · exact fun p hp => (hheader p hp 8 (by decide)).trans (hrep.gen p hp)
  · rw [show Ro.lobjs (R.put (o.addr + wordSizeBytes * k) v).desc = R.desc + 24 from rfl,
      hdesc 24 (by decide)]
    refine hrep.lobjs.congr ?_
    intro a ha
    obtain ⟨e, he, rfl⟩ := List.mem_map.mp ha
    exact Function.update_of_ne (word_ne_lobj h hok ho hk he).symm _ _
  · intro o' ho'
    obtain ⟨o₁, ho₁, rfl⟩ := List.mem_map.mp ho'
    by_cases heq : o₁ = o
    · subst heq
      exact Obj.put_holds (hrep.holds o₁ ho₁) hk v
    · -- the other objects of the region do not meet this one
      have : Std.Symm fun x y : Obj => x.extent.Disjoint y.extent := ⟨fun _ _ hd => hd.symm⟩
      have hd : o₁.extent.Disjoint o.extent :=
        List.Pairwise.forall (List.pairwise_map.mp hok.separated) ho₁ ho heq
      have hnot : ¬ o₁.extent.Has (o.addr + wordSizeBytes * k) :=
        fun hhas => hd.not_has hhas (o.has_word hk)
      rw [Obj.put_of_not_has hnot]
      exact (hrep.holds o₁ ho₁).update hnot v

end RegionLayout

section Put

variable {σ : Type} {A : Host σ} {arena : Nat → Prop} {out : σ → Mem → List Extent → Prop}
  {s : State σ} {L : Layout} {st : Store} {pre post : List RegionLayout} {R : RegionLayout}

/-- **A store of the program**: the runtime does not notice it. -/
theorem Rep.put (h : Rep arena out s L) (hA : A.Lawful arena out)
    (hL : L.regions = pre ++ R :: post) {o : Obj} (ho : o ∈ R.objs) {k : Nat}
    (hk : k < o.words.length) (v : Nat) :
    Rep arena out (s.store (o.addr + wordSizeBytes * k) v)
      { L with regions := pre ++ R.put (o.addr + wordSizeBytes * k) v :: post } := by
  have hok := h.ok R (Rep.mem_regions hL)
  obtain ⟨hsep, -⟩ := h.apart hA hL
  obtain ⟨f, hf, hin⟩ := hok.extent_within ho
  have hm := h.others_update hA hL (List.mem_cons_of_mem _ hf) (hin.has (o.has_word hk))
    (AgreeOn.refl _ _) v
  refine h.replace hL rfl (RegionLayout.put_ok hok _ _)
    (RegionLayout.put_rep hsep hok (h.region hL) ho hk v)
    (hm.mono fun a ha => covers_append.mpr (Or.inr ha)) (h.free_agree hm) ?_ (List.Perm.refl _)
  have hlobjs : (R.put (o.addr + wordSizeBytes * k) v).lobjs = R.lobjs := rfl
  rw [Rep.blocks_replace hL hlobjs]
  exact hA.update h.out (h.region_kept (Rep.mem_regions hL) (List.mem_cons_of_mem _ hf)
    (hin.has (o.has_word hk))) v

/-- Objects of other regions do not have the word. -/
theorem Rep.not_has_others (h : Rep arena out s L) (hA : A.Lawful arena out)
    (hL : L.regions = pre ++ R :: post) {o o' : Obj} (ho : o ∈ R.objs) {a : Nat}
    (ha : o.extent.Has a) {R' : RegionLayout} (hR' : R' ∈ pre ++ post) (ho' : o' ∈ R'.objs) :
    ¬ o'.extent.Has a := by
  have hR'L : R' ∈ L.regions := by
    rw [hL]
    exact List.perm_middle.mem_iff.mpr (List.mem_cons_of_mem _ hR')
  obtain ⟨f, hf, hin⟩ := (h.ok R (Rep.mem_regions hL)).extent_within ho
  obtain ⟨g, hg, hin'⟩ := (h.ok R' hR'L).extent_within ho'
  intro hhas
  refine h.agree_others hA hL (List.mem_cons_of_mem _ hf) (hin.has ha) ?_
  exact covers_append.mpr (Or.inr ⟨g, List.mem_flatMap.mpr ⟨R', hR', List.mem_cons_of_mem _ hg⟩,
    hin'.has hhas⟩)

/-- A choice among the objects that does not look at what is in them. -/
theorem filter_put (a v : Nat) (p : Obj → Bool) (hp : ∀ o : Obj, p (o.put a v) = p o)
    (objs : List Obj) : (objs.map (Obj.put a v)).filter p = (objs.filter p).map (Obj.put a v) := by
  rw [List.filter_map]
  exact congrArg (List.map _) (List.filter_congr fun o _ => hp o)

/-- The store of the program, seen from the store of the model: only one object has the word. -/
theorem Fits.put (h : Fits L st) (hrep : Rep arena out s L) (hA : A.Lawful arena out)
    (hL : L.regions = pre ++ R :: post) {o : Obj} (ho : o ∈ R.objs) {k : Nat}
    (hk : k < o.words.length) (v ret : Nat) :
    Fits { L with regions := pre ++ R.put (o.addr + wordSizeBytes * k) v :: post }
      (st.step (.store (o.addr + wordSizeBytes * k) v) ret) := by
  -- only the region `R` has an object with the word
  have hstep : st.step (.store (o.addr + wordSizeBytes * k) v) ret =
      st.modify R.desc (List.map (Obj.put (o.addr + wordSizeBytes * k) v)) := by
    rw [← h.store, modify_eq hL hrep.order, Store.step, store_eq hL, List.map_append, List.map_cons]
    -- the objects of the other regions do not have it
    have hsame : ∀ Rs : List RegionLayout, (∀ R₀ ∈ Rs, R₀ ∈ pre ++ post) →
        (Rs.map fun R => (⟨R.desc, R.objs⟩ : LiveRegion)).map (fun R =>
          { R with objs := R.objs.map (Obj.put (o.addr + wordSizeBytes * k) v) }) =
        Rs.map fun R => ⟨R.desc, R.objs⟩ := by
      intro Rs hRs
      rw [List.map_map]
      refine List.map_congr_left ?_
      intro R₀ hR₀
      refine congrArg (LiveRegion.mk R₀.desc) ?_
      refine (List.map_congr_left ?_).trans (List.map_id _)
      intro o' ho'
      exact Obj.put_of_not_has (hrep.not_has_others hA hL ho (o.has_word hk) (hRs R₀ hR₀) ho')
    rw [hsame pre fun R₀ hR₀ => List.mem_append_left _ hR₀,
      hsame post fun R₀ hR₀ => List.mem_append_right _ hR₀]
  rw [hstep]
  have hR := Rep.mem_regions hL
  obtain ⟨regions, free, held, chunks⟩ := L
  obtain rfl : held = [] := h.held
  refine h.modify hL hrep.order (show (R.put _ v).desc = R.desc from rfl) rfl ?_ ?_ free chunks
  · have hlobjs := h.lobjs R hR
    show R.lobjs = ((R.objs.map (Obj.put _ v)).filter Obj.large).map Obj.block
    rw [hlobjs, filter_put _ _ _ fun o => o.put_large _ _, List.map_map]
    refine List.map_congr_left ?_
    intro o' _
    rw [Function.comp_apply, Obj.block, Obj.block, o'.put_addr, o'.put_length]
  · have hwords : smallWords (R.objs.map (Obj.put (o.addr + wordSizeBytes * k) v)) =
        smallWords R.objs := by
      rw [smallWords, filter_put _ _ _ fun o => congrArg not (o.put_large _ _), List.map_map]
      exact congrArg List.sum (List.map_congr_left fun o' _ => o'.put_length _ _)
    show (allocatableWordsInRegionPage + 1) * R.older.length + R.fill ≤
      2 * smallWords (R.objs.map (Obj.put (o.addr + wordSizeBytes * k) v))
    rw [hwords]
    exact h.dense R hR

end Put

/-! ## Calls

Every call is one of the cases above. A call that needs memory and does not get it ends as the copy
of the runtime has it, and that is what `Refused` says. -/

section Exec

variable {σ : Type} {A : Host σ} {arena : Nat → Prop} {out : σ → Mem → List Extent → Prop}
  {s : State σ} {L : Layout} {st : Store}

end Exec

end Unikernel.Runtime
