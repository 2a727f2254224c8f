import Mathlib.Data.Nat.ModEq
import Mathlib.Logic.Function.Basic

/-!
# Rings, and the queues they hold

A ring is an array of `n` cells that is used modulo `n`. Positions are counted
without bound here, and `slot` wraps them; a queue lies in the ring from a
position on (`Holds`).

- `Holds.push`, `Holds.head`, `Holds.tail`: writing behind a queue that leaves a
  cell free, reading its first element, and advancing past it.
- `Holds.cyclic`: reading round after round from a ring that is full.
- `Fifo.step` is the queue as such, without a bound, and `Fifo.Bounded` what may
  be made of it with room for `n` elements.
-/

namespace Ring

variable {β : Type} {n : Nat} [NeZero n]

/-- The cell of a position. -/
def slot (n : Nat) [NeZero n] (k : Nat) : Fin n := ⟨k % n, Nat.mod_lt k (Nat.pos_of_neZero n)⟩

/-- The cells from position `start` on hold the elements of `l`. -/
def Holds (cells : Fin n → β) (start : Nat) (l : List β) : Prop :=
  ∀ i (hi : i < l.length), cells (slot n (start + i)) = l[i]

/-- Positions less than a round apart have different cells. -/
theorem slot_add_inj {start i j : Nat} (hi : i < n) (hj : j < n) :
    slot n (start + i) = slot n (start + j) ↔ i = j := by
  constructor
  · intro h
    have hmod : start + i ≡ start + j [MOD n] := congrArg Fin.val h
    have hij := Nat.ModEq.add_left_cancel' start hmod
    rwa [Nat.ModEq, Nat.mod_eq_of_lt hi, Nat.mod_eq_of_lt hj] at hij
  · rintro rfl
    rfl

theorem slot_self (start : Nat) : slot n (start + n) = slot n start :=
  Fin.ext (Nat.add_mod_right start n)

/-- The next cell is that of the next position. -/
theorem slot_succ (k : Nat) (h : ((slot n k).val + 1) % n < n) :
    (⟨((slot n k).val + 1) % n, h⟩ : Fin n) = slot n (k + 1) :=
  Fin.ext (Nat.mod_add_mod k n 1)

variable {cells : Fin n → β} {start : Nat} {a : β} {l : List β}

theorem holds_nil : Holds cells start [] := by
  intro i hi
  cases hi

/-- Writing behind a queue that is shorter than the ring. -/
theorem Holds.push (h : Holds cells start l) (hlen : l.length < n) (b : β) :
    Holds (Function.update cells (slot n (start + l.length)) b) start (l ++ [b]) := by
  intro i hi
  rw [List.length_append, List.length_singleton] at hi
  rcases Nat.lt_succ_iff_lt_or_eq.mp hi with hlt | rfl
  · have hne : slot n (start + i) ≠ slot n (start + l.length) := by
      rw [Ne, slot_add_inj (by omega) hlen]
      omega
    rw [Function.update_of_ne hne, h i hlt, List.getElem_append_left]
  · rw [Function.update_self, List.getElem_concat_length rfl]

theorem Holds.head (h : Holds cells start (a :: l)) : cells (slot n start) = a :=
  h 0 (Nat.zero_lt_succ _)

theorem Holds.tail (h : Holds cells start (a :: l)) : Holds cells (start + 1) l := by
  intro i hi
  have hnext := h (i + 1) (Nat.succ_lt_succ hi)
  rw [List.getElem_cons_succ] at hnext
  rw [← hnext, Nat.add_assoc, Nat.add_comm 1]

/-- A full ring is read as a cycle. -/
theorem Holds.cyclic (h : Holds cells start l) (hlen : l.length = n) (k : Nat) :
    l[k % n]? = some (cells (slot n (start + k))) := by
  have hk : k % n < l.length := by
    rw [hlen]
    exact Nat.mod_lt k (Nat.pos_of_neZero n)
  have hslot : slot n (start + k % n) = slot n (start + k) := Fin.ext (Nat.add_mod_mod start k n)
  rw [List.getElem?_eq_getElem hk, ← h _ hk, hslot]

/-! ## Arrays as lists -/

/-- The first `n` cells of an array that is kept as a list. -/
def ofList (n : Nat) (arr : List β) : Fin n → Option β := fun j => arr[j.val]?

theorem ofList_set {arr : List β} (hlen : arr.length = n) (j : Fin n) (b : β) :
    ofList n (arr.set j.val b) = Function.update (ofList n arr) j (some b) := by
  funext i
  by_cases hij : i = j
  · subst hij
    rw [Function.update_self, ofList, List.getElem?_set_self (hlen ▸ i.isLt)]
  · have hval : j.val ≠ i.val := fun h => hij (Fin.ext h.symm)
    rw [Function.update_of_ne hij, ofList, ofList, List.getElem?_set_ne hval]

end Ring

namespace Fifo

variable {β : Type}

/-- What is done to a queue. -/
inductive Op (β : Type) where
  | put (b : β)
  | get

/-- The unbounded queue: elements in order of arrival, and what is taken out of it. -/
def step : List β → Op β → List β × List β
  | l, .put b => (l ++ [b], [])
  | [], .get => ([], [])
  | a :: l, .get => (l, [a])

/-- The queue with room for `n` elements: when it is full, what is put may be dropped. -/
inductive Bounded (n : Nat) : List β → Op β → List β → List β → Prop where
  | step {l : List β} {op : Op β} : Bounded n l op (step l op).1 (step l op).2
  | drop {l : List β} {b : β} (hfull : n ≤ l.length) : Bounded n l (.put b) l []

/-- Nothing is put into the full queue. -/
def Room (n : Nat) (l : List β) : Op β → Prop
  | .put _ => l.length < n
  | .get => True

/-- With room there is nothing to choose. -/
theorem bounded_iff {n : Nat} {l l' out : List β} {op : Op β} (hroom : Room n l op) :
    Bounded n l op l' out ↔ (l', out) = step l op := by
  constructor
  · intro h
    cases h with
    | step => rfl
    | drop hfull => exact absurd hroom (Nat.not_lt.mpr hfull)
  · intro h
    obtain ⟨rfl, rfl⟩ := Prod.mk.inj h
    exact .step

end Fifo
