import Unikernel.Lib.Overlay

/-!
# Arrays with a record of their accesses

An array of a fixed number of cells, as C has it: nothing checks an index. The
indices that a program stores to and loads from are recorded, whether or not they
name a cell; a store outside the array is lost here, and a load there returns a
default.

- `fill`, `drain`: the two loops that copy a sequence into the array and out of it.
- `fill_all`, `fill_le`: what `fill` stores, and where it stops.
- `drain_eq`: what `drain` loads.
-/

namespace CBuffer

open Overlay

variable {α : Type}

/-- The cells of an array, and the indices used so far, oldest first. -/
structure Buf (α : Type) where
  cells : List α
  stored : List Int
  loaded : List Int

/-- The array before its first access. -/
def Buf.fresh (cells : List α) : Buf α := ⟨cells, [], []⟩

def Buf.store (b : Buf α) (k : Int) (x : α) : Buf α :=
  { b with
    cells := if k < 0 then b.cells else b.cells.set k.toNat x
    stored := b.stored ++ [k] }

def Buf.load [Inhabited α] (b : Buf α) (k : Int) : α × Buf α :=
  (if k < 0 then default else b.cells[k.toNat]?.getD default,
    { b with loaded := b.loaded ++ [k] })

/-- The indices name cells. -/
def Within (size : Nat) (used : List Int) : Prop := ∀ k ∈ used, 0 ≤ k ∧ k < size

/-- The indices from `i` on. -/
def span (i n : Nat) : List Int := (List.range' i n).map Int.ofNat

/-- Store a sequence in one go, from index `i` on. -/
def Buf.storeAll (b : Buf α) (i : Nat) (l : List α) : Buf α :=
  { b with cells := write b.cells ⟨i, l⟩, stored := b.stored ++ span i l.length }

/-- Store a sequence from index `i` on, as long as the index satisfies `go`. -/
def fill (go : Nat → Bool) : List α → Nat → Buf α → Nat × Buf α
  | [], i, b => (i, b)
  | x :: l, i, b => if go i then fill go l (i + 1) (b.store i x) else (i, b)

/-- Load `n` elements from index `i` on. -/
def drain [Inhabited α] (b : Buf α) (i : Nat) : Nat → List α × Buf α
  | 0 => ([], b)
  | n + 1 =>
    let (x, b) := b.load i
    let (l, b) := drain b (i + 1) n
    (x :: l, b)

/-! ## Indices -/

section Within

variable {size : Nat} {used used' : List Int}

theorem within_nil : Within size [] := by simp [Within]

theorem within_append : Within size (used ++ used') ↔ Within size used ∧ Within size used' :=
  List.forall_mem_append

theorem within_singleton {k : Int} : Within size [k] ↔ 0 ≤ k ∧ k < size :=
  List.forall_mem_singleton

theorem span_succ (i n : Nat) : span i (n + 1) = (i : Int) :: span (i + 1) n := rfl

theorem within_span {i n : Nat} : Within size (span i n) ↔ n = 0 ∨ i + n ≤ size := by
  induction n generalizing i with
  | zero => exact iff_of_true within_nil (.inl rfl)
  | succ n ih =>
    rw [span_succ, ← List.singleton_append, within_append, within_singleton, ih]
    omega

end Within

/-! ## The loops -/

variable {b : Buf α} {go : Nat → Bool} {i : Nat}

theorem store_natCast (b : Buf α) (k : Nat) (x : α) :
    b.store k x = { b with cells := b.cells.set k x, stored := b.stored ++ [(k : Int)] } := by
  rw [Buf.store, if_neg (by omega), Int.toNat_natCast]

theorem storeAll_nil (b : Buf α) (i : Nat) : b.storeAll i [] = b := by
  show Buf.mk (write b.cells ⟨i, []⟩) (b.stored ++ []) b.loaded = b
  rw [write_nil, List.append_nil]

theorem storeAll_cons (b : Buf α) (i : Nat) (x : α) (l : List α) :
    b.storeAll i (x :: l) = (b.store i x).storeAll (i + 1) l := by
  rw [store_natCast]
  show Buf.mk (write b.cells ⟨i, x :: l⟩) (b.stored ++ span i (l.length + 1)) b.loaded =
    Buf.mk (write (b.cells.set i x) ⟨i + 1, l⟩)
      (b.stored ++ [(i : Int)] ++ span (i + 1) l.length) b.loaded
  rw [write_cons, span_succ, List.append_assoc, List.singleton_append]

/-- As long as the guard holds, everything is stored. -/
theorem fill_all {l : List α} (h : ∀ k, k < i + l.length → go k = true) :
    fill go l i b = (i + l.length, b.storeAll i l) := by
  induction l generalizing i b with
  | nil => rw [fill, storeAll_nil, List.length_nil, Nat.add_zero]
  | cons x l ih =>
    rw [List.length_cons] at h ⊢
    rw [fill, if_pos (h i (by omega)), ih fun k hk => h k (by omega), ← storeAll_cons,
      Nat.add_assoc, Nat.add_comm 1]

/-- A guard `i <= last` lets what fits up to index `last` through, that one included. -/
theorem fill_le {last : Nat} (l : List α) (h : i ≤ last + 1) :
    fill (fun k => decide (k ≤ last)) l i b =
      (i + (l.take (last + 1 - i)).length, b.storeAll i (l.take (last + 1 - i))) := by
  induction l generalizing i b with
  | nil =>
    rw [List.take_nil, fill, storeAll_nil]
    rfl
  | cons x l ih =>
    by_cases hi : i ≤ last
    · have hsub : last + 1 - i = last + 1 - (i + 1) + 1 := by omega
      rw [fill, if_pos (decide_eq_true hi), ih (by omega), hsub, List.take_succ_cons,
        storeAll_cons, List.length_cons]
      rw [Prod.mk.injEq]
      exact ⟨by omega, rfl⟩
    · have hsub : last + 1 - i = 0 := by omega
      rw [fill, if_neg (by simpa using hi), hsub, List.take_zero, storeAll_nil]
      rfl

/-- What was stored inside the array is there. -/
theorem take_storeAll {l : List α} (h : i + l.length ≤ b.cells.length) :
    (b.storeAll i l).cells.take (i + l.length) = b.cells.take i ++ l := by
  refine List.ext_getElem? ?_
  intro k
  show ((write b.cells ⟨i, l⟩).take (i + l.length))[k]? = _
  rw [List.getElem?_take]
  by_cases hk : k < i
  · rw [if_pos (by omega), getElem?_write, at?_of_lt hk,
      List.getElem?_append_left (by rw [List.length_take]; omega), List.getElem?_take, if_pos hk]
    simp
  · rw [List.getElem?_append_right (by rw [List.length_take]; omega), List.length_take,
      Nat.min_eq_left (by omega)]
    by_cases hl : k < i + l.length
    · rw [if_pos hl, getElem?_write, at?_of_le (show i ≤ k by omega)]
      simp only
      rw [List.getElem?_eq_getElem (by omega : k < b.cells.length),
        List.getElem?_eq_getElem (by omega : k - i < l.length)]
      rfl
    · rw [if_neg hl, List.getElem?_eq_none (by omega)]

@[simp] theorem length_cells_storeAll (b : Buf α) (i : Nat) (l : List α) :
    (b.storeAll i l).cells.length = b.cells.length :=
  length_write _ _

/-- Loading a part of the array. -/
theorem drain_eq [Inhabited α] {n : Nat} (h : i + n ≤ b.cells.length) :
    drain b i n = ((b.cells.drop i).take n, { b with loaded := b.loaded ++ span i n }) := by
  induction n generalizing i b with
  | zero =>
    show ([], b) = _
    rw [List.take_zero]
    show _ = ([], Buf.mk b.cells b.stored (b.loaded ++ []))
    rw [List.append_nil]
  | succ n ih =>
    have hi : i < b.cells.length := by omega
    rw [drain]
    simp only [Buf.load]
    rw [ih (by simp only; omega), if_neg (by omega), Int.toNat_natCast,
      List.getElem?_eq_getElem hi, Option.getD_some, List.drop_eq_getElem_cons hi,
      List.take_succ_cons, span_succ]
    simp only [List.append_assoc, List.singleton_append]

end CBuffer
