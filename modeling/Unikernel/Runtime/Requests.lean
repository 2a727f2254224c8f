import Unikernel.Runtime.Region

/-!
# What the runtime asks for

A call asks `malloc` for memory once at most: for a chunk of pages, if it needs a page and the
free list is empty, or for the block of a large object. `State.request` says which of these a
call will make, and in what memory.

- `Refused`: the request was made and `malloc` has returned `NULL`.
- `exec_refused`: then the call ends the process, each copy of the runtime in its way.
-/

namespace Unikernel.Runtime

variable {σ : Type} {A : Host σ} {s : State σ} {fuel : Nat}

/-- A call of `malloc`: the memory at that time, the size, and how the process ends at `NULL`. -/
structure Request where
  mem : Mem
  size : Nat
  fails : Stop

/-- Without pages, one copy of `callSbrk` ends the process, and the other one leaves that to the
first use of the free list. -/
def noPages : Copy → Stop
  | .unix => .exit sbrkFailed
  | .xen => .null

/-- What `alloc_new_page` asks for. -/
def State.pageRequest (s : State σ) (copy : Copy) : Option Request :=
  if s.freelist = 0 then some ⟨s.mem, bytesAllocBySbrk + sizeofRp + sizeofRp, noPages copy⟩
  else none

/-- The descriptor of a region that has no page yet. -/
def State.opened (s : State σ) (r : Nat) : State σ :=
  ((s.store (Gen.fp (Ro.g0 r)) 0).store (Ro.p r) s.topregion).store (Ro.lobjs r) 0

/-- What a call asks for. -/
def State.request (s : State σ) (copy : Copy) : Call → Option Request
  | .allocateRegion r => (s.opened (clearStatusBits r)).pageRequest copy
  | .alloc r n =>
    let a := s.mem (Gen.a (Ro.g0 (clearStatusBits r)))
    if n > allocatableWordsInRegionPage then some ⟨s.mem, lobjsBytes n, lobjsFailed copy⟩
    else if a + n * wordSizeBytes > rpBoundary a then s.pageRequest copy
    else none
  | _ => none

end Unikernel.Runtime
