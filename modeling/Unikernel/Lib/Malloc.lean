import Mathlib.Data.Nat.ModEq
import Unikernel.Lib.Extent

/-!
# Allocators

An allocator has a state of its own and works on the memory that its blocks are taken from,
its arena. It keeps its books in the words of the arena that it has not handed out.
`Holds … out`: what its users rely on, the blocks that are out are separated, lie in the
arena, and stay as long as nobody else writes to the allocator's words. `Malloc.Lawful` adds
what `malloc` and `free` do to the blocks, and `Pager.Lawful` says the same of an allocator
for pages.

`Reached` are the states that users come to, and `Reached.out` carries the promises to them.
`ledger` and `Pager.ledger` are allocators that write down which blocks are out, and hand out
no address twice.
-/

/-- `malloc` and `free`. The address `0` says that there is no block, and `none` that the
allocator has stopped the process. -/
structure Malloc (σ : Type) where
  malloc : σ → Mem → Nat → Option (Nat × σ × Mem)
  free : σ → Mem → Nat → Option (σ × Mem)

namespace Malloc

variable {σ : Type}

/-- The words that an allocator leaves alone while the blocks `l` are out. -/
def Kept (arena : Nat → Prop) (l : List Extent) (a : Nat) : Prop := ¬ arena a ∨ Covers l a

theorem Kept.mono {arena : Nat → Prop} {l l' : List Extent} {a : Nat} (h : Kept arena l a)
    (hl : ∀ e ∈ l, e ∈ l') : Kept arena l' a := h.imp_right fun hc => hc.mono hl

/-- What is promised of blocks: `out s m l` says that in the state `s`, with the memory `m`,
the blocks `l` have been handed out and not taken back. -/
structure Holds (align : Nat) (arena : Nat → Prop) (out : σ → Mem → List Extent → Prop) :
    Prop where
  separated : ∀ s m l, out s m l → Separated l
  block : ∀ s m l, out s m l → ∀ e ∈ l,
    e.base ≠ 0 ∧ align ∣ e.base ∧ e.stop < 2 ^ 64 ∧ ∀ a, e.Has a → arena a
  perm : ∀ s m l l', out s m l → l.Perm l' → out s m l'
  store : ∀ s m m' l, out s m l → AgreeOn (fun a => ¬ Kept arena l a) m m' → out s m' l

/-- What is promised of `malloc`, up to a size of `2 ^ 62`, and of `free`. -/
structure Lawful (A : Malloc σ) (arena : Nat → Prop) (out : σ → Mem → List Extent → Prop) : Prop
    extends Holds 8 arena out where
  malloc : ∀ s m n l, out s m l → n < 2 ^ 62 → ∃ p s' m', A.malloc s m n = some (p, s', m') ∧
    AgreeOn (Kept arena l) m m' ∧ out s' m' (if p = 0 then l else ⟨p, n⟩ :: l)
  free : ∀ s m e l, out s m (e :: l) → ∃ s' m', A.free s m e.base = some (s', m') ∧
    AgreeOn (Kept arena l) m m' ∧ out s' m' l

section Holds

variable {align : Nat} {arena : Nat → Prop} {out : σ → Mem → List Extent → Prop} {s : σ}
  {m : Mem} {l : List Extent}

/-- A store that is none of the allocator's business. -/
theorem Holds.update (h : Holds align arena out) (hout : out s m l) {a : Nat}
    (ha : Kept arena l a) (v : Nat) : out s (Function.update m a v) l :=
  h.store _ _ _ _ hout ((AgreeOn.refl _ _).update (not_not_intro ha) v)

end Holds

/-! ## Users -/

/-- What a user has come to, with the blocks `l`: in any order, blocks are asked for, blocks
that are out are given back, and words are written that are not the allocator's. -/
inductive Reached (A : Malloc σ) (arena : Nat → Prop) (s₀ : σ) (m₀ : Mem) :
    σ → Mem → List Extent → Prop where
  | start : Reached A arena s₀ m₀ s₀ m₀ []
  | malloc {s m l n p s' m'} : Reached A arena s₀ m₀ s m l → n < 2 ^ 62 →
    A.malloc s m n = some (p, s', m') →
    Reached A arena s₀ m₀ s' m' (if p = 0 then l else ⟨p, n⟩ :: l)
  | free {s m e l s' m'} : Reached A arena s₀ m₀ s m l → e ∈ l →
    A.free s m e.base = some (s', m') → Reached A arena s₀ m₀ s' m' (l.erase e)
  | store {s m l a} : Reached A arena s₀ m₀ s m l → Kept arena l a → (v : Nat) →
    Reached A arena s₀ m₀ s (Function.update m a v) l

/-- What a lawful allocator promises holds in every state that a user comes to. -/
theorem Reached.out {A : Malloc σ} {arena : Nat → Prop} {out : σ → Mem → List Extent → Prop}
    {s₀ s : σ} {m₀ m : Mem} {l : List Extent} (h : Reached A arena s₀ m₀ s m l)
    (hA : A.Lawful arena out) (hstart : out s₀ m₀ []) : out s m l := by
  induction h with
  | start => exact hstart
  | malloc _ hn hmalloc ih =>
    obtain ⟨p, s', m', heq, -, hout⟩ := hA.malloc _ _ _ _ ih hn
    rw [heq] at hmalloc
    cases hmalloc
    exact hout
  | free _ he hfree ih =>
    obtain ⟨s', m', heq, -, hout⟩ :=
      hA.free _ _ _ _ (hA.perm _ _ _ _ ih (List.perm_cons_erase he))
    rw [heq] at hfree
    cases hfree
    exact hout
  | store _ ha v ih => exact hA.update ih ha v

/-! ## An allocator -/

/-- The first address that has not been used, and the blocks that are out. -/
structure Ledger where
  next : Nat
  blocks : List Extent

namespace Ledger

/-- At least one address behind a block stays unused, so that no two blocks begin at the same. -/
def take (align : Nat) (s : Ledger) (n : Nat) : Nat × Ledger :=
  if s.next + (n / align + 1) * align < 2 ^ 64 then
    (s.next, ⟨s.next + (n / align + 1) * align, ⟨s.next, n⟩ :: s.blocks⟩)
  else (0, s)

def give (s : Ledger) (p : Nat) : Ledger :=
  { s with blocks := s.blocks.eraseP fun e => e.base = p }

/-- The books are right: the blocks `l` are out, and no others. -/
structure Out (align lo : Nat) (s : Ledger) (l : List Extent) : Prop where
  perm : s.blocks.Perm l
  start : lo ≤ s.next
  aligned : align ∣ s.next
  limit : s.next < 2 ^ 64
  separated : Separated s.blocks
  nodup : (s.blocks.map Extent.base).Nodup
  block : ∀ e ∈ s.blocks, lo ≤ e.base ∧ align ∣ e.base ∧ e.stop < s.next

variable {align lo n : Nat} {s : Ledger} {l : List Extent}

/-- No block has been handed out. -/
theorem out_start (halign : align ∣ lo) (hlo : lo < 2 ^ 64) : Out align lo ⟨lo, []⟩ [] where
  perm := List.Perm.nil
  start := Nat.le_refl lo
  aligned := halign
  limit := hlo
  separated := List.Pairwise.nil
  nodup := List.nodup_nil
  block e he := by cases he

theorem out_holds (hlo : 0 < lo) : Holds align (lo ≤ ·) fun s (_ : Mem) => Out align lo s where
  separated _ _ _ h := h.separated.perm h.perm
  block s _ l h e he := by
    obtain ⟨hpos, hal, hstop⟩ := h.block e (h.perm.mem_iff.mpr he)
    have hlimit := h.limit
    exact ⟨by omega, hal, by omega, fun a ha => Nat.le_trans hpos ha.1⟩
  perm _ _ _ _ h hp := { h with perm := h.perm.trans hp }
  store _ _ _ _ h _ := h

/-- A new block is behind the others. -/
theorem Out.take (h : Out align lo s l) (hlo : 0 < lo) (halign : 0 < align) (n : Nat) :
    Out align lo (take align s n).2
      (if (take align s n).1 = 0 then l else ⟨(take align s n).1, n⟩ :: l) := by
  unfold Ledger.take
  have hnext := h.start
  by_cases hroom : s.next + (n / align + 1) * align < 2 ^ 64
  · have hlen : n < (n / align + 1) * align := by
      rw [Nat.mul_comm]
      exact Nat.lt_mul_div_succ n halign
    rw [if_pos hroom, if_neg (by show ¬ s.next = 0; omega)]
    have hstop : ∀ e ∈ s.blocks, e.stop < s.next := fun e he => (h.block e he).2.2
    refine ⟨h.perm.cons _, by show lo ≤ _ + _; omega,
      Nat.dvd_add h.aligned (Nat.dvd_mul_left _ _), hroom, ?_, ?_, ?_⟩
    · exact Separated.cons_iff.mpr ⟨fun e he => Or.inr (hstop e he).le, h.separated⟩
    · refine List.nodup_cons.mpr ⟨?_, h.nodup⟩
      intro hmem
      obtain ⟨e, he, hbase⟩ := List.mem_map.mp hmem
      have hless := hstop e he
      rw [Extent.stop, hbase] at hless
      exact absurd hless (Nat.not_lt.mpr (Nat.le_add_right _ _))
    · intro e he
      rcases List.mem_cons.mp he with rfl | he
      · exact ⟨hnext, h.aligned, Nat.add_lt_add_left hlen _⟩
      · obtain ⟨hpos, hal, hless⟩ := h.block e he
        exact ⟨hpos, hal, Nat.lt_of_lt_of_le hless (Nat.le_add_right _ _)⟩
  · rw [if_neg hroom, if_pos rfl]
    exact h

/-- The block is found from where it begins. -/
theorem eraseP_base {l : List Extent} {e : Extent} (hl : (l.map Extent.base).Nodup) (he : e ∈ l) :
    l.eraseP (fun f => f.base = e.base) = l.erase e := by
  induction l with
  | nil => cases he
  | cons f l ih =>
    rw [List.map_cons, List.nodup_cons] at hl
    by_cases hfe : f = e
    · rw [hfe, List.eraseP_cons_of_pos (by simp), List.erase_cons_head]
    · have he := (List.mem_cons.mp he).resolve_left fun h => hfe h.symm
      have hbase : ¬ f.base = e.base := fun h => hl.1 (h ▸ List.mem_map_of_mem he)
      rw [List.eraseP_cons_of_neg (by simpa using hbase), ih hl.2 he,
        List.erase_cons_tail (by simpa using hfe)]

theorem Out.give {e : Extent} (h : Out align lo s (e :: l)) : Out align lo (s.give e.base) l := by
  have hsub : (s.give e.base).blocks.Sublist s.blocks := List.eraseP_sublist
  refine ⟨?_, h.start, h.aligned, h.limit, h.separated.sublist hsub,
    h.nodup.sublist (hsub.map _), fun f hf => h.block f (hsub.subset hf)⟩
  rw [Ledger.give, eraseP_base h.nodup (h.perm.mem_iff.mpr List.mem_cons_self)]
  have hrest := h.perm.erase e
  rwa [List.erase_cons_head] at hrest

end Ledger

def ledger : Malloc Ledger where
  malloc s m n := some ((s.take 8 n).1, (s.take 8 n).2, m)
  free s m p := some (s.give p, m)

theorem ledger_lawful {lo : Nat} (hlo : 0 < lo) :
    ledger.Lawful (lo ≤ ·) fun s (_ : Mem) => s.Out 8 lo where
  toHolds := Ledger.out_holds hlo
  malloc _ m n _ h _ := ⟨_, _, m, rfl, AgreeOn.refl _ _, h.take hlo (by decide) n⟩
  free _ m _ _ h := ⟨_, m, rfl, AgreeOn.refl _ _, h.give⟩

end Malloc

/-! ## Pages -/

/-- An allocator for `2 ^ order` pages that lie together. -/
structure Pager (π : Type) where
  allocPages : π → Mem → Nat → Nat × π × Mem
  freePages : π → Mem → Nat → Nat → π × Mem

namespace Pager

open Malloc

variable {π : Type}

/-- What is promised of a pager with pages of `size` bytes. -/
structure Lawful (P : Pager π) (size : Nat) (arena : Nat → Prop)
    (out : π → Mem → List Extent → Prop) : Prop extends Holds size arena out where
  alloc : ∀ s m k l, out s m l →
    AgreeOn (Kept arena l) m (P.allocPages s m k).2.2 ∧
      out (P.allocPages s m k).2.1 (P.allocPages s m k).2.2
        (if (P.allocPages s m k).1 = 0 then l else ⟨(P.allocPages s m k).1, size * 2 ^ k⟩ :: l)
  free : ∀ s m b k l, out s m (⟨b, size * 2 ^ k⟩ :: l) →
    AgreeOn (Kept arena l) m (P.freePages s m b k).2 ∧
      out (P.freePages s m b k).1 (P.freePages s m b k).2 l

def ledger (size : Nat) : Pager Ledger where
  allocPages s m k := ((s.take size (size * 2 ^ k)).1, (s.take size (size * 2 ^ k)).2, m)
  freePages s m p _ := (s.give p, m)

theorem ledger_lawful {size lo : Nat} (hsize : 0 < size) (hlo : 0 < lo) :
    (ledger size).Lawful size (lo ≤ ·) fun s (_ : Mem) => s.Out size lo where
  toHolds := Ledger.out_holds hlo
  alloc _ _ k _ h := ⟨AgreeOn.refl _ _, h.take hlo hsize (size * 2 ^ k)⟩
  free _ _ _ _ _ h := ⟨AgreeOn.refl _ _, h.give⟩

end Pager
