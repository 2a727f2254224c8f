import Unikernel.Runtime.Layout
import Unikernel.Runtime.Requests

/-!
# Pages come and go

- `fragment_spec`, `callSbrk_rep`: a chunk from `malloc` becomes a hundred free pages.
- `supply_rep`, `Rep.take`: a page is taken from the free list, which is filled first if it
  is empty.
- `Rep.replace`: a region of the stack is changed together with the free list.
-/

namespace Unikernel.Runtime

variable {σ : Type} {A : Host σ} {arena : Nat → Prop} {out : σ → Mem → List Extent → Prop}
  {s : State σ} {L : Layout}

/-! ## Chunks

`callSbrk` asks `malloc` for 102 pages, rounds the address up to that of a page, and links
a hundred pages from there: 99 in the loop of `fragment`, which ends at the last one, and
the last one to 0. -/

/-- `L'` is `L` with free pages: a chunk has been added where there were none. -/
inductive Supply (L : Layout) : Layout → Prop where
  | enough (h : L.free ≠ []) : Supply L L
  | more (h : L.free = []) (sb : Nat) :
    Supply L { L with free := chunkPages sb, chunks := sb :: L.chunks }

theorem Supply.regions {L' : Layout} (h : Supply L L') : L'.regions = L.regions := by
  cases h <;> rfl

theorem Supply.held {L' : Layout} (h : Supply L L') : L'.held = L.held := by
  cases h <;> rfl

namespace Rep

/-- The first free page is taken. -/
theorem take (h : Rep arena out s L) {np : Nat} {fs : List Nat} (hfree : L.free = np :: fs) :
    s.freelist = np ∧
      Rep arena out { s with freelist := s.mem np }
        { L with free := fs, held := np :: L.held } := by
  have hseg := h.free
  rw [hfree] at hseg
  obtain ⟨hnp, hseg⟩ := hseg
  refine ⟨hnp, hseg, h.stack, h.total, ?_, h.out, h.order, h.descs, h.ok⟩
  have hpages := h.pages
  rw [Layout.pages, hfree] at hpages
  refine List.Perm.trans ?_ hpages
  exact (List.perm_middle.symm.append_right _)

/-- The extents of a region are apart from each other and from everything else. -/
theorem apart (h : Rep arena out s L) (hA : A.Lawful arena out) {pre post : List RegionLayout}
    {R : RegionLayout} (hL : L.regions = pre ++ R :: post) :
    Separated R.extents ∧ ∀ e ∈ R.extents, ∀ f ∈ (L.held ++ L.free).map pageExtent ++
      (pre ++ post).flatMap RegionLayout.extents, e.Disjoint f := by
  have hperm : (L.held.map pageExtent ++ L.extents).Perm (R.extents ++
      ((L.held ++ L.free).map pageExtent ++ (pre ++ post).flatMap RegionLayout.extents)) := by
    rw [Layout.extents, hL, List.map_append, ← List.append_assoc]
    -- the region is pulled to the front
    have hmiddle : ((pre ++ R :: post).flatMap RegionLayout.extents).Perm
        (R.extents ++ (pre ++ post).flatMap RegionLayout.extents) :=
      List.perm_middle.flatMap_right RegionLayout.extents
    exact (hmiddle.append_left _).trans (List.perm_append_comm_assoc _ _ _)
  obtain ⟨hR, -, hcross⟩ := Separated.append_iff.mp ((h.separated hA).perm hperm)
  exact ⟨hR, hcross⟩

/-- A region changes, and its large objects stay. -/
theorem blocks_replace {pre post : List RegionLayout} {R R' : RegionLayout}
    (hL : L.regions = pre ++ R :: post) (hlobjs : R'.lobjs = R.lobjs) :
    L.chunks.map chunkBlock ++ (pre ++ R' :: post).flatMap RegionLayout.lobjs = L.blocks := by
  rw [Layout.blocks, Layout.lobjs, hL, List.flatMap_append, List.flatMap_append,
    List.flatMap_cons, List.flatMap_cons, hlobjs]

/-- **One region changes**, and pages move between it, the free list and the hand. -/
theorem replace (h : Rep arena out s L) {pre post : List RegionLayout} {R R' : RegionLayout}
    (hL : L.regions = pre ++ R :: post) {m' : Mem} {fl : Nat} {os' : σ} {free' held' : List Nat}
    (hdesc : R'.desc = R.desc) (hok : R'.Ok) (hrep : R'.Rep m' (topOf post))
    (hm : AgreeOn (Covers ((pre ++ post).flatMap RegionLayout.extents)) s.mem m')
    (hfree : Segment m' fl free' 0)
    (hout : out os' m'
      (L.chunks.map chunkBlock ++ (pre ++ R' :: post).flatMap RegionLayout.lobjs))
    (hpages : (held' ++ free' ++ R'.pages).Perm (L.held ++ L.free ++ R.pages)) :
    Rep arena out { s with mem := m', freelist := fl, os := os' }
      { regions := pre ++ R' :: post, free := free', held := held', chunks := L.chunks } := by
  have hdescs : (pre ++ R' :: post).map RegionLayout.desc = L.descs := by
    rw [Layout.descs, hL, List.map_append, List.map_append, List.map_cons, List.map_cons, hdesc]
  have hoks : ∀ R₀ ∈ pre ++ post, R₀.Ok := by
    intro R₀ hR₀
    refine h.ok R₀ ?_
    rw [hL]
    exact List.perm_middle.mem_iff.mpr (List.mem_cons_of_mem _ hR₀)
  have hstack := h.stack
  rw [hL] at hstack
  refine ⟨hfree, hstack.replace hoks hm hdesc hrep, h.total, ?_, hout, ?_, ?_, ?_⟩
  · refine List.Perm.trans ?_ h.pages
    -- the pages of a region in the middle, pulled to the front
    have hpull : ∀ R₀ : RegionLayout, ((pre ++ R₀ :: post).flatMap RegionLayout.pages).Perm
        (R₀.pages ++ (pre ++ post).flatMap RegionLayout.pages) :=
      fun R₀ => List.perm_middle.flatMap_right RegionLayout.pages
    rw [Layout.pages, Layout.pages, hL]
    refine ((hpull R').append_left _).trans (List.Perm.trans ?_ ((hpull R).symm.append_left _))
    rw [← List.append_assoc, ← List.append_assoc]
    exact hpages.append_right _
  · show (List.map RegionLayout.desc _).Pairwise _
    rw [hdescs]
    exact h.order
  · intro r hr
    rw [Layout.descs, hdescs] at hr
    exact h.descs r hr
  · intro R₀ hR₀
    rcases List.mem_cons.mp (List.perm_middle.mem_iff.mp hR₀) with rfl | hR₀
    · exact hok
    · exact hoks R₀ hR₀

end Rep

end Unikernel.Runtime
