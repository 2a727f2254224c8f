import Mathlib.Data.Nat.Count
import Mathlib.Logic.Function.Iterate

/-!
# While loops, and counters that bound them

`Loop.run` is a loop with fuel, one unit for each test of its condition. It returns
with some fuel if and only if the condition fails after some number of rounds
(`returns_iff`).

A loop that runs while a counter is below a bound returns when the counter does not
miss too many rounds: `Counted.returns_iff` counts those in which it is advanced, and
`exists_le_count` finds enough of them when every `n`-th round is one.
-/

namespace Loop

universe u

variable {σ : Type u}

/-- `while go do step`, with `none` for running out of fuel. -/
def run (go : σ → Bool) (step : σ → σ) : Nat → σ → Option σ
  | 0, _ => none
  | fuel + 1, s => if go s then run go step fuel (step s) else some s

/-- The loop returns. -/
def Returns (go : σ → Bool) (step : σ → σ) (s : σ) : Prop := ∃ fuel t, run go step fuel s = some t

variable {go : σ → Bool} {step : σ → σ}

theorem run_go {s : σ} (h : go s = true) (fuel : Nat) :
    run go step (fuel + 1) s = run go step fuel (step s) := if_pos h

theorem run_stop {s : σ} (h : go s = false) (fuel : Nat) :
    run go step (fuel + 1) s = some s := if_neg (Bool.eq_false_iff.mp h)

theorem returns_stop {s : σ} (h : go s = false) : Returns go step s := ⟨1, s, run_stop h 0⟩

/-- One round more or less does not matter. -/
theorem returns_go {s : σ} (h : go s = true) : Returns go step s ↔ Returns go step (step s) := by
  constructor
  · rintro ⟨fuel, t, ht⟩
    cases fuel with
    | zero => cases ht
    | succ fuel => exact ⟨fuel, t, by rwa [run_go h] at ht⟩
  · rintro ⟨fuel, t, ht⟩
    exact ⟨fuel + 1, t, by rwa [run_go h]⟩

/-- **Termination**: the condition fails after some number of rounds. -/
theorem returns_iff (s : σ) : Returns go step s ↔ ∃ k, go (step^[k] s) = false := by
  constructor
  · rintro ⟨fuel, t, ht⟩
    induction fuel generalizing s with
    | zero => cases ht
    | succ fuel ih =>
      cases hgo : go s with
      | false => exact ⟨0, hgo⟩
      | true =>
        rw [run_go hgo] at ht
        obtain ⟨k, hk⟩ := ih (step s) ht
        exact ⟨k + 1, hk⟩
  · rintro ⟨k, hk⟩
    induction k generalizing s with
    | zero => exact returns_stop hk
    | succ k ih =>
      cases hgo : go s with
      | false => exact returns_stop hgo
      | true => exact (returns_go hgo).mpr (ih (step s) hk)

/-- What every round carries on holds after any number of rounds. -/
theorem iterate_invariant {I : Nat → σ → Prop} (hstep : ∀ j s, I j s → I (j + 1) (step s)) {s : σ}
    (h : I 0 s) (j : Nat) : I j (step^[j] s) := by
  induction j with
  | zero => exact h
  | succ j ih =>
    rw [Function.iterate_succ_apply']
    exact hstep j _ ih

/-! ## Counters -/

/-- The loop runs while `count` is below `bound`, and the rounds that start in a `good`
state are the ones that advance `count`. -/
structure Counted (go : σ → Bool) (step : σ → σ) (count bound : σ → Int) (good : σ → Bool) :
    Prop where
  go_iff : ∀ s, go s = true ↔ count s < bound s
  bound_step : ∀ s, bound (step s) = bound s
  count_step : ∀ s, count (step s) = count s + if good s = true then 1 else 0

variable {count bound : σ → Int} {good : σ → Bool}

/-- The rounds among the first `k` that advance the counter. -/
def advances (step : σ → σ) (good : σ → Bool) (s : σ) (k : Nat) : Nat :=
  Nat.count (fun j => good (step^[j] s) = true) k

theorem advances_succ (s : σ) (k : Nat) :
    advances step good s (k + 1) =
      advances step good s k + if good (step^[k] s) = true then 1 else 0 := Nat.count_succ _ k

theorem Counted.iterate (h : Counted go step count bound good) (s : σ) (k : Nat) :
    count (step^[k] s) = count s + advances step good s k ∧ bound (step^[k] s) = bound s := by
  induction k with
  | zero => exact ⟨(Int.add_zero _).symm, rfl⟩
  | succ k ih =>
    obtain ⟨hcount, hbound⟩ := ih
    rw [Function.iterate_succ_apply', h.count_step, h.bound_step, hcount, hbound, advances_succ]
    refine ⟨?_, rfl⟩
    by_cases hgood : good (step^[k] s) = true
    · rw [if_pos hgood, if_pos hgood, Int.add_assoc]
      rfl
    · rw [if_neg hgood, if_neg hgood, Int.add_zero]
      rfl

/-- **A counted loop** returns when enough of its rounds advance the counter. -/
theorem Counted.returns_iff (h : Counted go step count bound good) (s : σ) :
    Returns go step s ↔ ∃ k, bound s ≤ count s + advances step good s k := by
  rw [Loop.returns_iff]
  refine exists_congr ?_
  intro k
  obtain ⟨hcount, hbound⟩ := h.iterate s k
  rw [← Bool.not_eq_true, h.go_iff, hcount, hbound, Int.not_lt]

/-- What holds of every `n`-th number holds of as many as wanted. -/
theorem exists_le_count {p : Nat → Prop} [DecidablePred p] {n : Nat} (hn : 0 < n)
    (h : ∀ k, p (n * k)) (m : Int) : ∃ k, m ≤ Nat.count p k := by
  have hcount : ∀ k, k ≤ Nat.count p (n * k) := by
    intro k
    induction k with
    | zero => exact Nat.zero_le _
    | succ k ih =>
      have hlt := Nat.count_strict_mono (h k) (Nat.mul_lt_mul_of_pos_left (Nat.lt_succ_self k) hn)
      exact Nat.succ_le_of_lt (Nat.lt_of_le_of_lt ih hlt)
  have hle := hcount m.toNat
  exact ⟨n * m.toNat, by omega⟩

end Loop
