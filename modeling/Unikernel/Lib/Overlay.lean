import Mathlib.Data.List.Basic
import Mathlib.Data.List.Monad

/-!
# Overlaying patches on a sequence

A `Patch` is a run of elements with the position it belongs at. Writing one
into a sequence replaces the positions it covers and leaves the others; a list
of patches is replayed in order, so at each position the last patch that
covers it decides (`getElem?_replay`).

- `top? ps i`: what that last patch holds at `i`.
- `replay_eq_of_cover`: patches that agree with a target and cover it produce
  it, from any start of its length and **in any order**.
- `replay_eq_self_iff`: when later patches leave a sequence as it was.
- `pieces`: the patches a sequence is cut into; `replay_pieces` puts them together again.
-/

namespace Overlay

universe u

variable {α : Type u}

/-- Elements to be put at `start`, `start + 1`, … -/
structure Patch (α : Type u) where
  start : Nat
  data : List α

/-- What the patch holds for position `i`. -/
def Patch.at? (p : Patch α) (i : Nat) : Option α :=
  if p.start ≤ i then p.data[i - p.start]? else none

/-- The patch holds nothing but elements of `t`, at their positions. -/
def Patch.Agrees (t : List α) (p : Patch α) : Prop :=
  ∀ i x, p.at? i = some x → t[i]? = some x

/-- Put a patch into `a`; positions beyond the end are lost. -/
def write (a : List α) (p : Patch α) : List α :=
  a.mapIdx fun i x => (p.at? i).getD x

/-- Put patches into `a`, one after the other. -/
def replay (a : List α) (ps : List (Patch α)) : List α := ps.foldl write a

/-- What the last of the patches that cover `i` holds there. -/
def top? : List (Patch α) → Nat → Option α
  | [], _ => none
  | p :: ps, i => (top? ps i).or (p.at? i)

/-! ## One patch -/

theorem at?_of_lt {p : Patch α} {i : Nat} (h : i < p.start) : p.at? i = none :=
  if_neg (by omega)

theorem at?_of_le {p : Patch α} {i : Nat} (h : p.start ≤ i) :
    p.at? i = p.data[i - p.start]? := if_pos h

theorem at?_isSome_iff {p : Patch α} {i : Nat} :
    (p.at? i).isSome ↔ p.start ≤ i ∧ i < p.start + p.data.length := by
  by_cases h : p.start ≤ i
  · rw [at?_of_le h, isSome_getElem?]
    omega
  · rw [at?_of_lt (by omega)]
    simp only [Option.isSome_none, Bool.false_eq_true, false_iff]
    omega

@[simp] theorem length_write (a : List α) (p : Patch α) : (write a p).length = a.length :=
  List.length_mapIdx

theorem getElem?_write (a : List α) (p : Patch α) (i : Nat) :
    (write a p)[i]? = a[i]?.map fun x => (p.at? i).getD x :=
  List.getElem?_mapIdx

theorem write_nil (a : List α) (k : Nat) : write a ⟨k, []⟩ = a := by
  refine List.ext_getElem? ?_
  intro i
  have hnone : (Patch.mk k ([] : List α)).at? i = none := by
    simp [Patch.at?]
  rw [getElem?_write, hnone]
  simp

/-- Writing element by element, from the front. -/
theorem write_cons {a : List α} {k : Nat} {c : α} {r : List α} :
    write a ⟨k, c :: r⟩ = write (a.set k c) ⟨k + 1, r⟩ := by
  refine List.ext_getElem? ?_
  intro i
  rw [getElem?_write, getElem?_write, List.getElem?_set]
  rcases Nat.lt_trichotomy i k with hlt | rfl | hgt
  · rw [at?_of_lt hlt, at?_of_lt (show i < k + 1 by omega), if_neg (by omega)]
  · rw [at?_of_le (Nat.le_refl i), at?_of_lt (show i < i + 1 by omega), if_pos rfl]
    by_cases hi : i < a.length
    · simp [hi]
    · simp [hi]
  · rw [at?_of_le (show k ≤ i by omega), at?_of_le (show k + 1 ≤ i by omega), if_neg (by omega)]
    simp only
    rw [show i - k = (i - (k + 1)) + 1 by omega, List.getElem?_cons_succ]

/-- Beyond the end nothing is written. -/
theorem write_of_length_le {a : List α} {p : Patch α} (h : a.length ≤ p.start) :
    write a p = a := by
  refine List.ext_getElem? ?_
  intro i
  rw [getElem?_write]
  by_cases hi : i < a.length
  · rw [at?_of_lt (by omega)]
    simp
  · rw [List.getElem?_eq_none (by omega)]
    rfl

/-! ## Several patches -/

@[simp] theorem replay_nil (a : List α) : replay a [] = a := rfl

@[simp] theorem replay_cons (a : List α) (p : Patch α) (ps : List (Patch α)) :
    replay a (p :: ps) = replay (write a p) ps := rfl

theorem replay_append (a : List α) (ps qs : List (Patch α)) :
    replay a (ps ++ qs) = replay (replay a ps) qs := List.foldl_append

@[simp] theorem length_replay (a : List α) (ps : List (Patch α)) :
    (replay a ps).length = a.length := by
  induction ps generalizing a with
  | nil => rfl
  | cons p ps ih => rw [replay_cons, ih, length_write]

/-- **The last patch decides.** -/
theorem getElem?_replay (a : List α) (ps : List (Patch α)) (i : Nat) :
    (replay a ps)[i]? = a[i]?.map fun x => (top? ps i).getD x := by
  induction ps generalizing a with
  | nil => simp [top?]
  | cons p ps ih =>
    rw [replay_cons, ih, getElem?_write, Option.map_map]
    congr 1
    funext x
    simp only [Function.comp, top?]
    cases top? ps i <;> rfl

theorem exists_of_top? {ps : List (Patch α)} {i : Nat} {x : α} (h : top? ps i = some x) :
    ∃ p ∈ ps, p.at? i = some x := by
  induction ps with
  | nil => cases h
  | cons p ps ih =>
    rw [top?, Option.or_eq_some_iff] at h
    rcases h with h | ⟨-, h⟩
    · obtain ⟨q, hq, hx⟩ := ih h
      exact ⟨q, List.mem_cons_of_mem _ hq, hx⟩
    · exact ⟨p, List.mem_cons_self, h⟩

theorem top?_isSome_of_mem {ps : List (Patch α)} {i : Nat} {p : Patch α} (hp : p ∈ ps)
    (h : (p.at? i).isSome) : (top? ps i).isSome := by
  induction ps with
  | nil => cases hp
  | cons q ps ih =>
    rw [top?, Option.isSome_or]
    rcases List.mem_cons.mp hp with rfl | hp
    · rw [h, Bool.or_true]
    · rw [ih hp, Bool.true_or]

/-- A position that no patch covers keeps its element. -/
theorem getElem?_replay_of_uncovered {a : List α} {ps : List (Patch α)} {i : Nat}
    (h : ∀ p ∈ ps, p.at? i = none) : (replay a ps)[i]? = a[i]? := by
  have htop : top? ps i = none := by
    cases htop : top? ps i with
    | none => rfl
    | some x =>
      obtain ⟨p, hp, hx⟩ := exists_of_top? htop
      rw [h p hp] at hx
      cases hx
  rw [getElem?_replay, htop]
  simp

/-- **Cover and agree**: the order of the patches does not matter. -/
theorem replay_eq_of_cover {a t : List α} {ps : List (Patch α)} (hlen : a.length = t.length)
    (hagree : ∀ p ∈ ps, p.Agrees t)
    (hcover : ∀ i < t.length, ∃ p ∈ ps, (p.at? i).isSome) : replay a ps = t := by
  refine List.ext_getElem? ?_
  intro i
  by_cases hi : i < t.length
  · obtain ⟨p, hp, hsome⟩ := hcover i hi
    obtain ⟨x, hx⟩ := Option.isSome_iff_exists.mp (top?_isSome_of_mem hp hsome)
    obtain ⟨q, hq, hqx⟩ := exists_of_top? hx
    rw [getElem?_replay, hx, hagree q hq i x hqx, List.getElem?_eq_getElem (by omega)]
    rfl
  · rw [List.getElem?_eq_none (by simp; omega), List.getElem?_eq_none (by omega)]

/-- Patches leave `t` unchanged exactly when the last one at each position
holds what is there. -/
theorem replay_eq_self_iff {t : List α} {ps : List (Patch α)} :
    replay t ps = t ↔ ∀ i x, i < t.length → top? ps i = some x → t[i]? = some x := by
  constructor
  · intro h i x hi hx
    have hget := getElem?_replay t ps i
    rw [h, hx, List.getElem?_eq_getElem hi] at hget
    rw [List.getElem?_eq_getElem hi, hget]
    rfl
  · intro h
    refine List.ext_getElem? ?_
    intro i
    rw [getElem?_replay]
    by_cases hi : i < t.length
    · rw [List.getElem?_eq_getElem hi]
      cases htop : top? ps i with
      | none => rfl
      | some x =>
        have := h i x hi htop
        rw [List.getElem?_eq_getElem hi] at this
        exact this.symm
    · rw [List.getElem?_eq_none (by omega)]
      rfl

/-! ## Cutting a sequence into patches -/

/-- The patches of consecutive pieces, from position `k` on. -/
def pieces : Nat → List (List α) → List (Patch α)
  | _, [] => []
  | k, c :: cs => ⟨k, c⟩ :: pieces (k + c.length) cs

/-- A piece is cut where those in front of it end. -/
theorem mem_pieces_iff {k : Nat} {cs : List (List α)} {p : Patch α} :
    p ∈ pieces k cs ↔
      ∃ pre c post, cs = pre ++ c :: post ∧ p = ⟨k + pre.flatten.length, c⟩ := by
  induction cs generalizing k with
  | nil => simp [pieces]
  | cons d cs ih =>
    rw [pieces, List.mem_cons, ih]
    constructor
    · rintro (rfl | ⟨pre, c, post, rfl, rfl⟩)
      · exact ⟨[], d, cs, rfl, rfl⟩
      · refine ⟨d :: pre, c, post, rfl, ?_⟩
        rw [List.flatten_cons, List.length_append, ← Nat.add_assoc]
    · rintro ⟨pre, c, post, hcs, rfl⟩
      rcases List.cons_eq_append_iff.mp hcs with ⟨rfl, hc⟩ | ⟨pre', rfl, rfl⟩
      · cases hc
        exact .inl rfl
      · refine .inr ⟨pre', c, post, rfl, ?_⟩
        rw [List.flatten_cons, List.length_append, ← Nat.add_assoc]

/-- A piece holds the elements of the sequence it was cut from. -/
theorem at?_of_mem_pieces {k : Nat} {cs : List (List α)} {p : Patch α} (hp : p ∈ pieces k cs)
    {i : Nat} {x : α} (h : p.at? i = some x) : k ≤ i ∧ cs.flatten[i - k]? = some x := by
  induction cs generalizing k with
  | nil => cases hp
  | cons c cs ih =>
    rcases List.mem_cons.mp hp with rfl | hp
    · have hk := (at?_isSome_iff.mp (Option.isSome_of_eq_some h))
      rw [at?_of_le hk.1] at h
      simp only at hk h
      rw [List.flatten_cons, List.getElem?_append_left (by omega)]
      exact ⟨hk.1, h⟩
    · obtain ⟨hk, hx⟩ := ih hp
      rw [List.flatten_cons, List.getElem?_append_right (by omega)]
      refine ⟨by omega, ?_⟩
      rwa [show i - k - c.length = i - (k + c.length) by omega]

theorem pieces_agree {cs : List (List α)} {p : Patch α} (hp : p ∈ pieces 0 cs) :
    p.Agrees cs.flatten := fun _ _ h => (at?_of_mem_pieces hp h).2

/-- The pieces leave no position out. -/
theorem pieces_cover {k : Nat} {cs : List (List α)} {i : Nat} (hk : k ≤ i)
    (hi : i < k + cs.flatten.length) : ∃ p ∈ pieces k cs, (p.at? i).isSome := by
  induction cs generalizing k with
  | nil => simp at hi; omega
  | cons c cs ih =>
    by_cases hc : i < k + c.length
    · exact ⟨⟨k, c⟩, List.mem_cons_self, at?_isSome_iff.mpr ⟨hk, hc⟩⟩
    · rw [List.flatten_cons, List.length_append] at hi
      obtain ⟨p, hp, h⟩ := ih (k := k + c.length) (by omega) (by omega)
      exact ⟨p, List.mem_cons_of_mem _ hp, h⟩

/-- **All pieces, in any order** and any number of times, give the sequence they were cut from. -/
theorem replay_pieces {a : List α} {cs : List (List α)} {ps : List (Patch α)}
    (hlen : a.length = cs.flatten.length) (hps : ∀ p, p ∈ ps ↔ p ∈ pieces 0 cs) :
    replay a ps = cs.flatten := by
  refine replay_eq_of_cover hlen (fun p hp => pieces_agree ((hps p).mp hp)) ?_
  intro i hi
  obtain ⟨p, hp, hsome⟩ : ∃ p ∈ pieces 0 cs, (p.at? i).isSome :=
    pieces_cover (Nat.zero_le i) (by omega)
  exact ⟨p, (hps p).mpr hp, hsome⟩

end Overlay
