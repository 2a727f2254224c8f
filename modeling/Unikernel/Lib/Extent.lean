import Mathlib.Algebra.GroupWithZero.Nat
import Mathlib.Algebra.Order.BigOperators.Group.List
import Mathlib.Algebra.Order.Group.Nat
import Mathlib.Data.List.Pairwise
import Mathlib.Data.List.Perm.Basic
import Mathlib.Logic.Function.Basic
import Mathlib.Order.Interval.Finset.Nat

/-!
# Extents of a memory

A memory maps addresses to words. An extent is a range of addresses, and a list of
extents is `Separated` when no two of them meet.

- `Separated.flatMap`: extents that are cut into separated parts stay separated.
- `Separated.sum_len_le`: separated extents have room for themselves.
- `Row a l b`: the extents lie one behind the other from `a` to `b`.
- `AgreeOn P m m'`: the second memory holds what the first does at the addresses in `P`.
- `AgreeOn.update`: a word stored in one extent leaves the others alone.
-/

/-- The words of a memory, by address. -/
abbrev Mem := Nat → Nat

theorem Mem.update_self (m : Mem) (a v : Nat) : Function.update m a v a = v :=
  Function.update_self a v m

/-- `len` addresses from `base` on. -/
structure Extent where
  base : Nat
  len : Nat
deriving DecidableEq, Repr

namespace Extent

/-- The first address behind the extent. -/
def stop (e : Extent) : Nat := e.base + e.len

/-- The addresses of the extent. -/
def Has (e : Extent) (a : Nat) : Prop := e.base ≤ a ∧ a < e.stop

/-- The extents share no address, by their bounds. -/
def Disjoint (e f : Extent) : Prop := e.stop ≤ f.base ∨ f.stop ≤ e.base

/-- By the bounds too, so that an empty extent has a place. -/
def Within (e f : Extent) : Prop := f.base ≤ e.base ∧ e.stop ≤ f.stop

instance (e : Extent) (a : Nat) : Decidable (e.Has a) := inferInstanceAs (Decidable (_ ∧ _))
instance (e f : Extent) : Decidable (e.Disjoint f) := inferInstanceAs (Decidable (_ ∨ _))
instance (e f : Extent) : Decidable (e.Within f) := inferInstanceAs (Decidable (_ ∧ _))

variable {e f g : Extent} {a : Nat}

theorem Disjoint.symm (h : e.Disjoint f) : f.Disjoint e := Or.symm h

theorem Disjoint.not_has (h : e.Disjoint f) (ha : e.Has a) : ¬ f.Has a := by
  intro hf
  unfold Disjoint Has at *
  omega

theorem Within.refl (e : Extent) : e.Within e := ⟨Nat.le_refl _, Nat.le_refl _⟩

theorem Within.trans (h : e.Within f) (h' : f.Within g) : e.Within g :=
  ⟨Nat.le_trans h'.1 h.1, Nat.le_trans h.2 h'.2⟩

theorem Within.has (h : e.Within f) (ha : e.Has a) : f.Has a :=
  ⟨Nat.le_trans h.1 ha.1, Nat.lt_of_lt_of_le ha.2 h.2⟩

/-- Parts of disjoint extents are disjoint. -/
theorem Disjoint.within (h : e.Disjoint f) {e' f' : Extent} (he : e'.Within e)
    (hf : f'.Within f) : e'.Disjoint f' := by
  rcases h with h | h
  · exact Or.inl (Nat.le_trans he.2 (Nat.le_trans h hf.1))
  · exact Or.inr (Nat.le_trans hf.2 (Nat.le_trans h he.1))

/-- Where one extent lies inside `P` and another outside of it, they do not meet. -/
theorem disjoint_of_forall (he : 0 < e.len) (hf : 0 < f.len) (h : ∀ a, e.Has a → ¬ f.Has a) :
    e.Disjoint f := by
  by_contra hc
  unfold Disjoint stop at hc
  rcases Nat.le_total e.base f.base with hle | hle
  · refine h f.base ⟨hle, ?_⟩ ⟨Nat.le_refl _, ?_⟩
    all_goals unfold stop; omega
  · refine h e.base ⟨Nat.le_refl _, ?_⟩ ⟨hle, ?_⟩
    all_goals unfold stop; omega

end Extent

/-! ## Separated extents -/

/-- No two of the extents meet. -/
def Separated (l : List Extent) : Prop := l.Pairwise Extent.Disjoint

instance (l : List Extent) : Decidable (Separated l) :=
  inferInstanceAs (Decidable (List.Pairwise _ l))

namespace Separated

variable {l l' : List Extent} {e f : Extent}

/-- The order does not matter. -/
theorem perm (h : Separated l) (hp : l.Perm l') : Separated l' :=
  List.Pairwise.perm h hp Extent.Disjoint.symm

theorem sublist (h : Separated l) (hs : l'.Sublist l) : Separated l' := List.Pairwise.sublist hs h

theorem cons_iff : Separated (e :: l) ↔ (∀ f ∈ l, e.Disjoint f) ∧ Separated l :=
  List.pairwise_cons

/-- Two lists of extents that are apart. -/
theorem append_iff :
    Separated (l ++ l') ↔
      Separated l ∧ Separated l' ∧ ∀ e ∈ l, ∀ f ∈ l', e.Disjoint f :=
  List.pairwise_append

/-- Parts of separated extents are separated. -/
theorem flatMap (h : Separated l) {parts : Extent → List Extent}
    (hsep : ∀ e ∈ l, Separated (parts e)) (hin : ∀ e ∈ l, ∀ p ∈ parts e, p.Within e) :
    Separated (l.flatMap parts) := by
  induction l with
  | nil => exact List.Pairwise.nil
  | cons e l ih =>
    obtain ⟨hhead, htail⟩ := cons_iff.mp h
    rw [List.flatMap_cons, append_iff]
    refine ⟨hsep e List.mem_cons_self, ih htail (fun f hf => hsep f (List.mem_cons_of_mem _ hf))
      (fun f hf => hin f (List.mem_cons_of_mem _ hf)), ?_⟩
    intro p hp q hq
    obtain ⟨f, hf, hq⟩ := List.mem_flatMap.mp hq
    exact (hhead f hf).within (hin e List.mem_cons_self p hp)
      (hin f (List.mem_cons_of_mem _ hf) q hq)

instance : Std.Symm Extent.Disjoint := ⟨fun _ _ h => h.symm⟩

/-- Two different members. -/
theorem disjoint_of_mem (h : Separated l) (he : e ∈ l) (hf : f ∈ l) (hne : e ≠ f) :
    e.Disjoint f := List.Pairwise.forall h he hf hne

end Separated

/-! ## Memories that agree -/

/-- At the addresses in `P`, `m'` holds what `m` does. -/
def AgreeOn (P : Nat → Prop) (m m' : Mem) : Prop := ∀ a, P a → m' a = m a

/-- The addresses of the extents. -/
def Covers (l : List Extent) (a : Nat) : Prop := ∃ e ∈ l, e.Has a

namespace AgreeOn

variable {P Q : Nat → Prop} {m m' m'' : Mem}

theorem refl (P : Nat → Prop) (m : Mem) : AgreeOn P m m := fun _ _ => rfl

theorem trans (h : AgreeOn P m m') (h' : AgreeOn P m' m'') : AgreeOn P m m'' := by
  intro a ha
  rw [h' a ha, h a ha]

/-- Agreement on less. -/
theorem mono (h : AgreeOn P m m') (hPQ : ∀ a, Q a → P a) : AgreeOn Q m m' :=
  fun a ha => h a (hPQ a ha)

/-- A word stored elsewhere. -/
theorem update (h : AgreeOn P m m') {a : Nat} (ha : ¬ P a) (v : Nat) :
    AgreeOn P m (Function.update m' a v) := by
  intro b hb
  have hne : b ≠ a := by
    rintro rfl
    exact ha hb
  rw [Function.update_of_ne hne, h b hb]

end AgreeOn

section Covers

variable {l l' : List Extent} {e : Extent} {a : Nat} {m m' : Mem}

/-- What two lists cover together. -/
theorem covers_append : Covers (l ++ l') a ↔ Covers l a ∨ Covers l' a := by
  simp [Covers, or_and_right, exists_or]

theorem covers_cons : Covers (e :: l) a ↔ e.Has a ∨ Covers l a := by
  simp [Covers]

theorem Covers.mono (h : Covers l a) (hl : ∀ e ∈ l, e ∈ l') : Covers l' a := by
  obtain ⟨e, he, ha⟩ := h
  exact ⟨e, hl e he, ha⟩

/-- What an extent has is not covered by extents that are disjoint from it. -/
theorem not_covers (h : ∀ f ∈ l, e.Disjoint f) (ha : e.Has a) : ¬ Covers l a := by
  rintro ⟨f, hf, hfa⟩
  exact (h f hf).not_has ha hfa

end Covers

/-! ## Counting -/

namespace Separated

variable {l : List Extent} {n k : Nat}

/-- Separated extents have as many addresses as their lengths add up to. -/
theorem exists_finset (h : Separated l) :
    ∃ S : Finset Nat, S.card = (l.map Extent.len).sum ∧ ∀ a ∈ S, Covers l a := by
  induction l with
  | nil =>
    refine ⟨∅, rfl, ?_⟩
    intro a ha
    exact absurd ha (Finset.notMem_empty a)
  | cons e l ih =>
    obtain ⟨hhead, htail⟩ := cons_iff.mp h
    obtain ⟨S, hcard, hS⟩ := ih htail
    have hhas : ∀ a ∈ Finset.Ico e.base e.stop, e.Has a := fun a ha => Finset.mem_Ico.mp ha
    have hdisj : Disjoint (Finset.Ico e.base e.stop) S :=
      Finset.disjoint_left.mpr fun a ha haS => not_covers hhead (hhas a ha) (hS a haS)
    refine ⟨Finset.Ico e.base e.stop ∪ S, ?_, ?_⟩
    · rw [Finset.card_union_of_disjoint hdisj, Nat.card_Ico, hcard, Extent.stop,
        Nat.add_sub_cancel_left, List.map_cons, List.sum_cons]
    · intro a ha
      rcases Finset.mem_union.mp ha with ha | ha
      · exact covers_cons.mpr (Or.inl (hhas a ha))
      · exact covers_cons.mpr (Or.inr (hS a ha))

/-- Disjoint extents below a bound have no more bytes than there are. -/
theorem sum_len_le (h : Separated l) (hn : ∀ e ∈ l, e.stop ≤ n) : (l.map Extent.len).sum ≤ n := by
  obtain ⟨S, hcard, hS⟩ := h.exists_finset
  rw [← hcard, ← Finset.card_range n]
  refine Finset.card_le_card ?_
  intro a ha
  obtain ⟨e, he, hhas⟩ := hS a ha
  exact Finset.mem_range.mpr (Nat.lt_of_lt_of_le hhas.2 (hn e he))

/-- There are not many extents of a size. -/
theorem length_mul_le (h : Separated l) (hn : ∀ e ∈ l, e.stop ≤ n) (hk : ∀ e ∈ l, k ≤ e.len) :
    l.length * k ≤ n := by
  have hsum := List.card_nsmul_le_sum (l.map Extent.len) k (by
    intro x hx
    obtain ⟨e, he, rfl⟩ := List.mem_map.mp hx
    exact hk e he)
  rw [List.length_map, Nat.nsmul_eq_mul] at hsum
  exact Nat.le_trans hsum (h.sum_len_le hn)

end Separated

/-! ## Rows -/

/-- The extents lie one behind the other from `a` to `b`. -/
def Row : Nat → List Extent → Nat → Prop
  | a, [], b => a = b
  | a, e :: l, b => e.base = a ∧ Row e.stop l b

/-- A row has as many bytes as there are between its ends. -/
theorem Row.sum_len {l : List Extent} {a b : Nat} (h : Row a l b) :
    a + (l.map Extent.len).sum = b := by
  induction l generalizing a with
  | nil => exact h
  | cons e l ih =>
    obtain ⟨rfl, h⟩ := h
    have hrest := ih h
    rw [Extent.stop] at hrest
    rw [List.map_cons, List.sum_cons]
    omega

/-- Each extent is filled by a row of parts. -/
def Filled (l : List Extent) (rows : List (List Extent)) : Prop :=
  List.Forall₂ (fun e row => Row e.base row e.stop) l rows

/-- The parts have the lengths of the extents they fill. -/
theorem Filled.sum_len {l : List Extent} {rows : List (List Extent)} (h : Filled l rows) :
    (rows.flatten.map Extent.len).sum = (l.map Extent.len).sum := by
  induction h with
  | nil => rfl
  | @cons e row l rows hrow _ ih =>
    have hlen : (row.map Extent.len).sum = e.len := Nat.add_left_cancel hrow.sum_len
    rw [List.flatten_cons, List.map_append, List.sum_append, hlen, ih, List.map_cons,
      List.sum_cons]
