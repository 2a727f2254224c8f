import Unikernel.Lib.Malloc
import Unikernel.Lib.Masks
import Unikernel.Lib.Tailq

/-!
# The allocator of the Xen runtime

`lib/xmalloc.c`. A block starts with a header that has its size, and in front of the data is
a word with the distance to the header. Blocks that are not in use are in a tail queue, and
are merged with their neighbours on the page when they are freed; whole pages come from the
page allocator, and go back to it.

Arithmetic is that of `size_t`. `__cacheline_aligned` is defined nowhere, so that it names a
variable and the header is aligned to its words. The loops over the queue carry a fuel.
-/

namespace Unikernel.Xmalloc

/-! ## Words and layouts -/

/-- Words of 64 bits, which wrap around. -/
def add (a b : Nat) : Nat := (a + b) % 2 ^ 64

def sub (a b : Nat) : Nat := (2 ^ 64 + a - b) % 2 ^ 64

def pageShift : Nat := 12
def pageSize : Nat := 1 <<< pageShift
def pageMask : Nat := (2 ^ 64 - 1) ^^^ (pageSize - 1)

/-- `sizeof(struct xmalloc_hdr)` and its alignment -/
def sizeofHdr : Nat := 24
def alignofHdr : Nat := 8

/-- `sizeof(struct xmalloc_pad)` and its alignment -/
def sizeofPad : Nat := 8
def alignofPad : Nat := 8

/-- The addresses of the fields of a header, and where the entry of the queue is. -/
abbrev Hdr.size (hdr : Nat) : Nat := hdr
abbrev Hdr.freelist : Nat := 8

abbrev Pad.hdrSize (pad : Nat) : Nat := pad

def defaultAlign : Nat := 8

/-- `size` up to the next multiple of `align`. -/
def alignUp (size align : Nat) : Nat :=
  add size (align - 1) &&& ((2 ^ 64 - 1) ^^^ (align - 1))

/-- The loop of `get_order`; a word has no more than 64 bits. -/
def shifts : Nat → Nat → Nat
  | 0, _ => 0
  | fuel + 1, size => if size ≠ 0 then shifts fuel (size >>> 1) + 1 else 0

def getOrder (size : Nat) : Nat := shifts 64 (sub size 1 >>> pageShift)

/-! ## State -/

/-- `BUG()`, after what has been printed; `fuel` is not a reason of its own. -/
inductive Stop where
  | bug (msg : String)
  | fuel
deriving DecidableEq, Repr

def notSamePage : Stop := .bug "Header should be on the same page\n"

def notPageStart : Stop := .bug "Bug\n"

def notAligned : Stop := .bug "ASSERTION FAILED: !(data_begin % align)"

/-- The memory, and the state of the page allocator. -/
structure Heap (π : Type) where
  mem : Mem
  pager : π

variable {π : Type}

/-! ## Allocation

`fl` is the address of the head of the queue. -/

/-- What is left behind the first `size` bytes of the block becomes a free one, if it
is large enough. -/
def maybeSplit (fl : Nat) (m : Mem) (hdr size block : Nat) : Mem :=
  let size := alignUp size alignofHdr
  let size := alignUp size alignofPad
  let leftover := sub block size
  if leftover ≥ 2 * (sizeofHdr + sizeofPad) then
    let extra := add hdr size
    let m := Function.update m (Hdr.size extra) leftover
    let m := Tailq.insertHead Hdr.freelist m fl extra
    Function.update m (Hdr.size hdr) size
  else
    let size := block
    Function.update m (Hdr.size hdr) size

/-- A page of its own, of which the rest becomes free. -/
def xmallocNewPage (P : Pager π) (fl : Nat) (s : Heap π) (size : Nat) : Heap π × Nat :=
  let (hdr, pager, mem) := P.allocPages s.pager s.mem 0
  if hdr = 0 then ({ mem, pager }, 0)
  else ({ mem := maybeSplit fl mem hdr size pageSize, pager }, hdr)

/-- Whole pages, which are never on the free list. -/
def xmallocWholePages (P : Pager π) (s : Heap π) (size align : Nat) : Heap π × Nat :=
  let hdrSize := sizeofHdr + sizeofPad
  let hdrSize := alignUp hdrSize align
  let pageorder := getOrder (add hdrSize size)
  let (hdr, pager, mem) := P.allocPages s.pager s.mem pageorder
  if hdr = 0 then ({ mem, pager }, 0)
  else
    let mem := Function.update mem (Hdr.size hdr) ((1 <<< (pageorder + pageShift)) % 2 ^ 64)
    let ret := add hdr hdrSize
    let pad := sub ret sizeofPad
    ({ mem := Function.update mem (Pad.hdrSize pad) hdrSize, pager }, ret)

/-- The loop over the free list: the first block with room for the data, or `NULL`. -/
def firstFit (m : Mem) (hdrSize size align : Nat) : Nat → Nat → Except Stop Nat
  | 0, _ => .error .fuel
  | fuel + 1, i =>
    if i = 0 then .ok 0
    else
      let tmp := m (Tailq.next Hdr.freelist i)
      let dataBegin := alignUp (add i hdrSize) align
      if add dataBegin size > add i (m (Hdr.size i)) then firstFit m hdrSize size align fuel tmp
      else .ok i

/-- The block `i` is taken from the free list, and what it has too much of is split off. -/
def takeFree (fl : Nat) (m : Mem) (i dataBegin hdrSize size : Nat) : Mem × Nat :=
  let m := Tailq.remove Hdr.freelist m fl i
  let sizeBefore := sub (sub dataBegin hdrSize) i
  let (m, i) :=
    if sizeBefore ≥ 2 * hdrSize then
      let newI := sub dataBegin hdrSize
      let m := Function.update m (Hdr.size newI) (sub (m (Hdr.size i)) sizeBefore)
      let m := Function.update m (Hdr.size i) sizeBefore
      (Tailq.insertHead Hdr.freelist m fl i, newI)
    else (m, i)
  (maybeSplit fl m i (sub (add dataBegin size) i) (m (Hdr.size i)), i)

/-- The word in front of the data. -/
def setPad (s : Heap π) (hdr dataBegin align : Nat) : Except Stop (Heap π × Nat) :=
  let pad := sub dataBegin sizeofPad
  let mem := Function.update s.mem (Pad.hdrSize pad) (sub dataBegin hdr)
  if dataBegin % align ≠ 0 then .error notAligned else .ok ({ s with mem }, dataBegin)

/-- The first chunk of the free list that is large enough, or new pages. -/
def _xmalloc (P : Pager π) (fl fuel : Nat) (s : Heap π) (size align : Nat) :
    Except Stop (Heap π × Nat) :=
  let hdrSize := sizeofHdr + sizeofPad
  let align := alignUp align alignofHdr
  let align := alignUp align alignofPad
  if add size (alignUp hdrSize align) ≥ pageSize then .ok (xmallocWholePages P s size align)
  else do
    let hdr ← firstFit s.mem hdrSize size align fuel (s.mem (Tailq.first fl))
    if hdr ≠ 0 then
      let dataBegin := alignUp (add hdr hdrSize) align
      let (mem, hdr) := takeFree fl s.mem hdr dataBegin hdrSize size
      setPad { s with mem } hdr dataBegin align
    else
      let (s, hdr) := xmallocNewPage P fl s (add (alignUp hdrSize align) size)
      if hdr = 0 then pure (s, 0)
      else setPad s hdr (add hdr (alignUp hdrSize align)) align

/-- With the default alignment. -/
def malloc (P : Pager π) (fl fuel : Nat) (s : Heap π) (size : Nat) : Except Stop (Heap π × Nat) :=
  _xmalloc P fl fuel s size defaultAlign

/-! ## Deallocation -/

/-- The loop of `xfree` over the free list: the block `hdr` grows by its free neighbours. -/
def mergeFree (fl : Nat) : Nat → Mem → Nat → Nat → Except Stop (Mem × Nat)
  | 0, _, _, _ => .error .fuel
  | fuel + 1, m, hdr, i =>
    if i = 0 then .ok (m, hdr)
    else
      let tmp := m (Tailq.next Hdr.freelist i)
      let _hdr := hdr
      if (i ^^^ _hdr) &&& pageMask ≠ 0 then mergeFree fl fuel m hdr tmp
      else
        let (m, hdr) :=
          if add i (m (Hdr.size i)) = _hdr then
            let m := Tailq.remove Hdr.freelist m fl i
            (Function.update m (Hdr.size i) (add (m (Hdr.size i)) (m (Hdr.size hdr))), i)
          else (m, hdr)
        let m :=
          if add _hdr (m (Hdr.size hdr)) = i then
            let m := Tailq.remove Hdr.freelist m fl i
            Function.update m (Hdr.size hdr) (add (m (Hdr.size hdr)) (m (Hdr.size i)))
          else m
        mergeFree fl fuel m hdr tmp

/-- Whole pages go back. Any other block is joined with the free ones beside it, and put on the
free list unless it has grown to its page. -/
def xfree (P : Pager π) (fl fuel : Nat) (s : Heap π) (p : Nat) : Except Stop (Heap π) :=
  if p = 0 then .ok s
  else
    let pad := sub p sizeofPad
    let hdr := sub p (s.mem (Pad.hdrSize pad))
    if s.mem (Hdr.size hdr) ≥ pageSize then
      let (pager, mem) := P.freePages s.pager s.mem hdr (getOrder (s.mem (Hdr.size hdr)))
      .ok { mem, pager }
    else if p &&& pageMask ≠ hdr &&& pageMask then .error notSamePage
    else do
      let (mem, hdr) ← mergeFree fl fuel s.mem hdr (s.mem (Tailq.first fl))
      if mem (Hdr.size hdr) = pageSize then
        if hdr &&& (pageSize - 1) ≠ 0 then .error notPageStart
        else
          let (pager, mem) := P.freePages s.pager mem hdr 0
          pure { mem, pager }
      else pure { s with mem := Tailq.insertHead Hdr.freelist mem fl hdr }

/-- A null pointer is left alone. -/
def free (P : Pager π) (fl fuel : Nat) (s : Heap π) (ptr : Nat) : Except Stop (Heap π) :=
  xfree P fl fuel s ptr

/-- What a program sees of it. -/
def allocator (P : Pager π) (fl fuel : Nat) : Malloc π where
  malloc s m n :=
    match malloc P fl fuel ⟨m, s⟩ n with
    | .ok (s, p) => some (p, s.pager, s.mem)
    | .error _ => none
  free s m p :=
    match free P fl fuel ⟨m, s⟩ p with
    | .ok s => some (s.pager, s.mem)
    | .error _ => none

/-- The queue as the compiler initialises it. -/
def Initial (fl : Nat) (m : Mem) : Prop :=
  m (Tailq.first fl) = 0 ∧ m (Tailq.last fl) = Tailq.first fl

end Unikernel.Xmalloc
