import Unikernel.Lib.Malloc
import Unikernel.Lib.Ensures
import Mathlib.Data.Int.ModEq

/-!
# The region runtime

The runtime keeps the values of a compiled program in regions. A region is a list of
pages of 8 KiB and a list of large objects; its descriptor lies on the stack of the
program, and the descriptors are linked together. Pages that no region uses are in a
free list, and come from `malloc` a hundred at a time.

There are two copies of `Region.c`, in `UnixRuntimeMini` and in `XenRuntimeMini`. They differ
in what is printed, and in how they end when `malloc` has no memory: one exits, the other
comes back with an empty free list, and takes a page from it.

Memory is a map from addresses to words of eight bytes. The structures lie in it as the
C compiler lays them out, and are known by their addresses. Loops carry a fuel, one unit
for each test of their condition.
-/

namespace Unikernel.Runtime

/-! ## Sizes and layouts -/

def regionPageSizeBytes : Nat := 8 * 1024
def headerWordsInRegionPage : Nat := 2
def wordSizeBytes : Nat := 8
def allocatableWordsInRegionPage : Nat :=
  regionPageSizeBytes / wordSizeBytes - headerWordsInRegionPage
def regionPageBagSize : Nat := 100

/-- `sizeof(Rp)`: the header and the data. -/
def sizeofRp : Nat :=
  (headerWordsInRegionPage + allocatableWordsInRegionPage) * wordSizeBytes

def bytesAllocBySbrk : Nat := regionPageBagSize * sizeofRp

/-- `sizeof(Ro)` -/
def sizeofRo : Nat := 32

/-- `sizeof(Lobjs)` -/
def sizeofLobjs : Nat := 16

/-- The addresses of the fields of a region page. -/
abbrev Rp.n (rp : Nat) : Nat := rp
abbrev Rp.gen (rp : Nat) : Nat := rp + 8
abbrev Rp.i (rp : Nat) : Nat := rp + 16

/-- The addresses of the fields of a generation. -/
abbrev Gen.a (gen : Nat) : Nat := gen
abbrev Gen.fp (gen : Nat) : Nat := gen + 8

/-- The addresses of the fields of a region descriptor. -/
abbrev Ro.g0 (r : Nat) : Nat := r
abbrev Ro.p (r : Nat) : Nat := r + 16
abbrev Ro.lobjs (r : Nat) : Nat := r + 24

/-- The addresses of the fields of a large object. -/
abbrev Lobjs.next (l : Nat) : Nat := l
abbrev Lobjs.value (l : Nat) : Nat := l + 8

def uintptrMax : Nat := 2 ^ 64 - 1

def isRpAligned (rp : Nat) : Bool := rp &&& (sizeofRp - 1) == 0

/-- The first address behind the page into which `a` points, or at whose end it stands. -/
def rpBoundary (a : Nat) : Nat := ((a - 1) ||| (sizeofRp - 1)) + 1

def setInfiniteBit (x : Nat) : Nat := x ||| 1
def clearStatusBits (x : Nat) : Nat := x &&& (uintptrMax ^^^ 3)

/-! ## State -/

/-- The two copies of `Region.c`, with the `die` of the runtime each is part of. -/
inductive Copy where
  | unix
  | xen
deriving DecidableEq, Repr

/-- What the runtime is linked with. -/
structure Host (σ : Type) extends Malloc σ where
  copy : Copy

/-- How the process ends: by itself with a message, or in an endless loop behind one; where a
`NULL` pointer is used; or because the allocator has stopped it. `fuel` is not a reason of its
own. -/
inductive Stop where
  | exit (msg : String)
  | loop (msg : String)
  | null
  | heap
  | fuel
deriving DecidableEq, Repr

/-- `die` in `Runtime.c`. -/
def die (copy : Copy) (s : String) : Stop :=
  match copy with
  | .unix => .exit ("Runtime Error: " ++ s ++ "\n")
  | .xen => .loop ("Runtime Error: " ++ s ++ "\n")

/-- A call of the C library's allocator. -/
def heap {α : Type} : Option α → Except Stop α
  | some a => .ok a
  | none => .error .heap

/-- The memory, the globals of `Region.c`, the context, and the state of the C library's
allocator. -/
structure State (σ : Type) where
  mem : Mem
  freelist : Nat
  rpTotal : Nat
  topregion : Nat
  os : σ

def sbrkFailed : String :=
  "I could not allocate more memory; either no more memory is\navailable or " ++
    "the memory subsystem is detectively corrupted\n"

/-- The check of a new page, -/
def notAligned (copy : Copy) : Stop := die copy "SBRK region page is not properly aligned."

/-- and the one of a large object, each with the text of its copy. -/
def lobjsFailed (copy : Copy) : Stop := die copy "alloc_lobjs: malloc returned NULL"

variable {σ : Type}

def State.store (s : State σ) (a v : Nat) : State σ :=
  { s with mem := Function.update s.mem a v }

/-- The page that holds the last allocated word of the generation. -/
def lastRpOfGen (s : State σ) (gen : Nat) : Nat :=
  (s.mem (Gen.a gen) - 1) &&& (uintptrMax ^^^ (sizeofRp - 1))

/-- The loop of `callSbrk`, which cuts the chunk into pages. -/
def fragment : Nat → State σ → Nat → Except Stop (State σ × Nat)
  | 0, _, _ => .error .fuel
  | fuel + 1, s, np =>
    if np + sizeofRp < s.freelist + bytesAllocBySbrk then
      fragment fuel { s.store (Rp.n np) (np + sizeofRp) with rpTotal := s.rpTotal + 1 }
        (np + sizeofRp)
    else .ok (s, np)

/-- A chunk of new pages in front of the free list. On Xen a failure is printed, and the
list stays as it is. -/
def callSbrk (A : Host σ) (fuel : Nat) (s : State σ) : Except Stop (State σ) := do
  let (sb, os, mem) ← heap (A.malloc s.os s.mem (bytesAllocBySbrk + sizeofRp + sizeofRp))
  let s := { s with mem, os }
  if sb = 0 then
    -- both print the same; one copy exits, the other one returns
    match A.copy with
    | .unix => .error (.exit sbrkFailed)
    | .xen => pure s
  else
    let temp := sb % sizeofRp
    let sb := if temp ≠ 0 then sb + sizeofRp - temp else sb
    if isRpAligned sb = false then .error (notAligned A.copy)
    else
      let oldFreeList := s.freelist
      let (s, np) ← fragment fuel { s with freelist := sb, rpTotal := s.rpTotal + 1 } sb
      pure (s.store (Rp.n np) oldFreeList)

/-- The first free page, behind the last page of the generation. -/
def allocNewPage (A : Host σ) (fuel : Nat) (s : State σ) (gen : Nat) :
    Except Stop (State σ × Nat) := do
  let s ← (if s.freelist ≠ 0 then pure s else callSbrk A fuel s : Except Stop (State σ))
  let np := s.freelist
  -- `FREELIST->n`
  if np = 0 then .error .null
  else
    let s := { s with freelist := s.mem (Rp.n np) }
    let s := s.store (Rp.n np) 0
    let s := s.store (Rp.gen np) gen
    let s :=
      if s.mem (Gen.fp gen) ≠ 0 then s.store (Rp.n (lastRpOfGen s gen)) np
      else s.store (Gen.fp gen) np
    pure (s, Rp.i np)

/-- A descriptor on the stack, with a first page. -/
def allocateRegion (A : Host σ) (fuel : Nat) (s : State σ) (r : Nat) :
    Except Stop (State σ × Nat) := do
  let r := clearStatusBits r
  let s := s.store (Gen.fp (Ro.g0 r)) 0
  let s := s.store (Ro.p r) s.topregion
  let s := s.store (Ro.lobjs r) 0
  let (s, a) ← allocNewPage A fuel s (Ro.g0 r)
  let s := s.store (Gen.a (Ro.g0 r)) a
  pure ({ s with topregion := r }, setInfiniteBit r)

/-- Every large object of the list goes back to `free`. -/
def freeLobjs (A : Host σ) : Nat → State σ → Nat → Except Stop (State σ)
  | 0, _, _ => .error .fuel
  | fuel + 1, s, lobjs =>
    if lobjs ≠ 0 then do
      let lobjsTmp := s.mem (Lobjs.next lobjs)
      let (os, mem) ← heap (A.free s.os s.mem lobjs)
      freeLobjs A fuel { s with mem, os } lobjsTmp
    else .ok s

/-- The top region: its large objects to `free`, its pages to the free list. -/
def deallocateRegion (A : Host σ) (fuel : Nat) (s : State σ) : Except Stop (State σ) := do
  let s ← freeLobjs A fuel s (s.mem (Ro.lobjs s.topregion))
  let s := s.store (Rp.n (lastRpOfGen s (Ro.g0 s.topregion))) s.freelist
  let s := { s with freelist := s.mem (Gen.fp (Ro.g0 s.topregion)) }
  pure { s with topregion := s.mem (Ro.p s.topregion) }

/-- The value of a `size_t` as an `int`. -/
def intOfSize (n : Nat) : Int := (n : Int).bmod (2 ^ 32)

/-- What `alloc_lobjs` asks `malloc` for; its parameter is an `int`. -/
def lobjsBytes (n : Nat) : Nat := ((wordSizeBytes * intOfSize n + sizeofLobjs) % 2 ^ 64).toNat

def allocLobjs (A : Host σ) (s : State σ) (n : Nat) : Except Stop (State σ × Nat) := do
  let (lobjs, os, mem) ← heap (A.malloc s.os s.mem (lobjsBytes n))
  if lobjs = 0 then .error (lobjsFailed A.copy)
  else .ok ({ s with mem, os }, lobjs)

/-- A large object gets a block of its own. Any other goes to the last page, or to a new one if
there is no room. -/
def allocGen (A : Host σ) (fuel : Nat) (s : State σ) (gen n : Nat) :
    Except Stop (State σ × Nat) :=
  if n > allocatableWordsInRegionPage then do
    let r := gen
    let (s, lobjs) ← allocLobjs A s n
    let s := s.store (Lobjs.next lobjs) (s.mem (Ro.lobjs r))
    let s := s.store (Ro.lobjs r) lobjs
    pure (s, Lobjs.value lobjs)
  else do
    let t1 := s.mem (Gen.a gen)
    let t2 := t1 + n * wordSizeBytes
    let t3 := rpBoundary t1
    if t2 > t3 then
      let (s, t1) ← allocNewPage A fuel s gen
      let s := s.store (Gen.a gen) t1
      let t2 := t1 + n * wordSizeBytes
      pure (s.store (Gen.a gen) t2, t1)
    else pure (s.store (Gen.a gen) t2, t1)

/-- A region has a single generation. -/
def alloc (A : Host σ) (fuel : Nat) (s : State σ) (r n : Nat) : Except Stop (State σ × Nat) :=
  allocGen A fuel s (Ro.g0 (clearStatusBits r)) n

def resetGen (s : State σ) (gen : Nat) : State σ :=
  let s :=
    if s.mem (Rp.n (s.mem (Gen.fp gen))) ≠ 0 then
      let s := s.store (Rp.n (lastRpOfGen s gen)) s.freelist
      let s := { s with freelist := s.mem (Rp.n (s.mem (Gen.fp gen))) }
      s.store (Rp.n (s.mem (Gen.fp gen))) 0
    else s
  s.store (Gen.a gen) (Rp.i (s.mem (Gen.fp gen)))

/-- A region keeps its first page and loses the others. -/
def resetRegion (A : Host σ) (fuel : Nat) (s : State σ) (rAdr : Nat) :
    Except Stop (State σ × Nat) := do
  let r := clearStatusBits rAdr
  let s := resetGen s (Ro.g0 r)
  let s ← freeLobjs A fuel s (s.mem (Ro.lobjs r))
  let s := s.store (Ro.lobjs r) 0
  pure (s, rAdr)

/-- The loop of `deallocateRegionsUntil`; the bodies have fuel of their own. -/
def deallocateWhile (A : Host σ) (inner : Nat) (r : Nat) :
    Nat → State σ → Except Stop (State σ)
  | 0, _ => .error .fuel
  | fuel + 1, s =>
    if s.topregion ≠ 0 ∧ r ≥ s.topregion then do
      let s ← deallocateRegion A inner s
      deallocateWhile A inner r fuel s
    else .ok s

/-- From the top of the stack down to the region. -/
def deallocateRegionsUntil (A : Host σ) (fuel : Nat) (s : State σ) (r : Nat) :
    Except Stop (State σ) :=
  deallocateWhile A fuel (clearStatusBits r) fuel s

/-! ## What a program does -/

/-- The calls of a compiled program to the runtime, and its own stores to memory. -/
inductive Call where
  | allocateRegion (r : Nat)
  | deallocateRegion
  | deallocateRegionsUntil (r : Nat)
  | alloc (r n : Nat)
  | resetRegion (r : Nat)
  | store (a v : Nat)
deriving DecidableEq, Repr

/-- The state after a call, and what the call returns (`0` where it returns nothing). -/
def exec (A : Host σ) (fuel : Nat) (s : State σ) : Call → Except Stop (State σ × Nat)
  | .allocateRegion r => allocateRegion A fuel s r
  | .deallocateRegion => do
    let s ← deallocateRegion A fuel s
    pure (s, 0)
  | .deallocateRegionsUntil r => do
    let s ← deallocateRegionsUntil A fuel s r
    pure (s, 0)
  | .alloc r n => alloc A fuel s r n
  | .resetRegion r => resetRegion A fuel s r
  | .store a v => .ok (s.store a v, 0)

/-- Before the first call: no pages, no regions. -/
def State.init (mem : Mem) (os : σ) : State σ :=
  { mem, freelist := 0, rpTotal := 0, topregion := 0, os }

end Unikernel.Runtime
