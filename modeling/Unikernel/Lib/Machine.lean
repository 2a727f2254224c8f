import Mathlib.Data.List.Basic

/-!
# Machines with outputs, and their projections

A machine is a step function `σ → ι → σ × List ο`. This library runs one over
a list of inputs, carries invariants along runs, and relates a machine to a
smaller one that it contains:

- `Projection`: a view of the state that the inputs of one class (`mine`)
  change as a smaller machine would, while the others leave it alone — as long
  as they are `Quiet`.
- `Projection.run`: along quiet steps, the view of a run is the run of the
  smaller machine over the inputs of the class.
- `Projection.noninterference`: two quiet runs with the same inputs of the class
  have the same outputs of the class, whatever else happened in them.
- `Follows`: a run that a specification allows step by step; `follows_iff` finds
  the runs on which a machine keeps to its specification.
-/

namespace Machine

universe u

variable {σ ν ι ο : Type u}

/-- The state after the inputs `xs`, and everything that was output. -/
def run (step : σ → ι → σ × List ο) : σ → List ι → σ × List ο
  | s, [] => (s, [])
  | s, x :: xs => ((run step (step s x).1 xs).1, (step s x).2 ++ (run step (step s x).1 xs).2)

@[simp] theorem run_nil (step : σ → ι → σ × List ο) (s : σ) : run step s [] = (s, []) := rfl

@[simp] theorem run_cons (step : σ → ι → σ × List ο) (s : σ) (x : ι) (xs : List ι) :
    run step s (x :: xs) =
      ((run step (step s x).1 xs).1, (step s x).2 ++ (run step (step s x).1 xs).2) := rfl

theorem run_append (step : σ → ι → σ × List ο) (s : σ) (xs ys : List ι) :
    run step s (xs ++ ys) =
      ((run step (run step s xs).1 ys).1,
        (run step s xs).2 ++ (run step (run step s xs).1 ys).2) := by
  induction xs generalizing s with
  | nil => rfl
  | cons x xs ih => simp [ih]

theorem run_snoc (step : σ → ι → σ × List ο) (s : σ) (xs : List ι) (x : ι) :
    run step s (xs ++ [x]) =
      ((step (run step s xs).1 x).1, (run step s xs).2 ++ (step (run step s xs).1 x).2) := by
  simp [run_append]

/-- Every step of the run over `xs` satisfies `P`. -/
def Along (step : σ → ι → σ × List ο) (P : σ → ι → Prop) : σ → List ι → Prop
  | _, [] => True
  | s, x :: xs => P s x ∧ Along step P (step s x).1 xs

instance decidableAlong (step : σ → ι → σ × List ο) (P : σ → ι → Prop)
    [∀ s x, Decidable (P s x)] : ∀ (s : σ) (xs : List ι), Decidable (Along step P s xs)
  | _, [] => inferInstanceAs (Decidable True)
  | s, x :: xs =>
    have := decidableAlong step P (step s x).1 xs
    inferInstanceAs (Decidable (P s x ∧ Along step P (step s x).1 xs))

/-- What every step on one of the inputs preserves, the run preserves. -/
theorem run_invariant {step : σ → ι → σ × List ο} {P : σ → Prop} {xs : List ι}
    (hstep : ∀ s, ∀ x ∈ xs, P s → P (step s x).1) {s : σ} (h : P s) : P (run step s xs).1 := by
  induction xs generalizing s with
  | nil => exact h
  | cons x xs ih =>
    rw [run_cons]
    exact ih (fun s y hy => hstep s y (List.mem_cons_of_mem _ hy))
      (hstep s x List.mem_cons_self h)

/-- An invariant about the inputs seen so far as well. -/
theorem run_history {step : σ → ι → σ × List ο} {P : List ι → σ → Prop} (xs : List ι)
    (hstep : ∀ past s, ∀ x ∈ xs, P past s → P (past ++ [x]) (step s x).1) (past : List ι) {s : σ}
    (h : P past s) : P (past ++ xs) (run step s xs).1 := by
  induction xs generalizing past s with
  | nil => rwa [List.append_nil]
  | cons x xs ih =>
    have hrest := ih (fun past s y hy => hstep past s y (List.mem_cons_of_mem _ hy)) (past ++ [x])
      (hstep past s x List.mem_cons_self h)
    rwa [List.append_assoc] at hrest

/-- The specification `Spec` allows every step of the run over `xs`, starting in its state `t`,
and every state on the way fits the one of the specification. -/
def Follows (step : σ → ι → σ × List ο) (Spec : ν → ι → ν → List ο → Prop) (Fits : σ → ν → Prop) :
    σ → ν → List ι → Prop
  | s, t, [] => Fits s t
  | s, t, x :: xs =>
    Fits s t ∧ ∃ t', Spec t x t' (step s x).2 ∧ Follows step Spec Fits (step s x).1 t' xs

theorem Follows.fits {step : σ → ι → σ × List ο} {Spec : ν → ι → ν → List ο → Prop}
    {Fits : σ → ν → Prop} {s : σ} {t : ν} {xs : List ι} (h : Follows step Spec Fits s t xs) :
    Fits s t := by
  cases xs with
  | nil => exact h
  | cons x xs => exact h.1

/-- **When a machine keeps to a specification**: a relation `R` to the states of a reference
machine `ref` is kept by the steps that satisfy `Guard`, on which `ref` is all that `Spec` allows;
a step that does not satisfy it ends outside of what fits. Then the runs that follow the
specification are those in which every step satisfies `Guard`. -/
theorem follows_iff {step : σ → ι → σ × List ο} {ref : ν → ι → ν × List ο}
    {Spec : ν → ι → ν → List ο → Prop} {Fits R : σ → ν → Prop} {Guard : ν → ι → Prop}
    (hfits : ∀ s t, R s t → Fits s t)
    (hguard : ∀ s t x, R s t → Guard t x →
      R (step s x).1 (ref t x).1 ∧ ∀ t', Spec t x t' (step s x).2 ↔ t' = (ref t x).1)
    (hfail : ∀ s t x, R s t → ¬ Guard t x → ∀ t', Spec t x t' (step s x).2 →
      ¬ Fits (step s x).1 t')
    {s : σ} {t : ν} (h : R s t) (xs : List ι) :
    Follows step Spec Fits s t xs ↔ Along ref Guard t xs := by
  induction xs generalizing s t with
  | nil => exact iff_of_true (hfits s t h) trivial
  | cons x xs ih =>
    constructor
    · rintro ⟨-, t', hspec, hrest⟩
      by_cases hg : Guard t x
      · obtain ⟨hR, hunique⟩ := hguard s t x h hg
        obtain rfl := (hunique t').mp hspec
        exact ⟨hg, (ih hR).mp hrest⟩
      · exact absurd hrest.fits (hfail s t x h hg t' hspec)
    · rintro ⟨hg, hrest⟩
      obtain ⟨hR, hunique⟩ := hguard s t x h hg
      exact ⟨hfits s t h, _, (hunique _).mpr rfl, (ih hR).mpr hrest⟩

/-- The smaller machine `vstep` that runs inside `step`: inputs of the class `mine` change the
view and produce outputs as `vstep` does, quiet inputs of other classes do not change it.
`seen` are the outputs of the class. -/
structure Projection (step : σ → ι → σ × List ο) (vstep : ν → ι → ν × List ο) (view : σ → ν)
    (mine : ι → Bool) (seen : ο → Bool) (Quiet : σ → ι → Prop) : Prop where
  own : ∀ s x, mine x = true →
    view (step s x).1 = (vstep (view s) x).1 ∧ (step s x).2 = (vstep (view s) x).2 ∧
      ∀ o ∈ (step s x).2, seen o = true
  other : ∀ s x, mine x = false → Quiet s x →
    view (step s x).1 = view s ∧ (step s x).2.filter seen = []

namespace Projection

variable {step : σ → ι → σ × List ο} {vstep : ν → ι → ν × List ο} {view : σ → ν}
  {mine : ι → Bool} {seen : ο → Bool} {Quiet : σ → ι → Prop}

/-- A run over inputs of the class alone, with no condition on them. -/
theorem run_own (p : Projection step vstep view mine seen Quiet) {xs : List ι} {s : σ}
    (hown : ∀ x ∈ xs, mine x = true) :
    view (Machine.run step s xs).1 = (Machine.run vstep (view s) xs).1 ∧
      (Machine.run step s xs).2 = (Machine.run vstep (view s) xs).2 := by
  induction xs generalizing s with
  | nil => exact ⟨rfl, rfl⟩
  | cons x xs ih =>
    obtain ⟨hview, hout, -⟩ := p.own s x (hown x List.mem_cons_self)
    have hrest := ih (s := (step s x).1) fun y hy => hown y (List.mem_cons_of_mem _ hy)
    rw [hview] at hrest
    rw [run_cons, run_cons]
    refine ⟨hrest.1, ?_⟩
    rw [hout, hrest.2]

/-- **A quiet run, seen through the view**, is a run of the smaller machine. -/
theorem run (p : Projection step vstep view mine seen Quiet) {xs : List ι} {s : σ}
    (hq : Along step Quiet s xs) :
    view (Machine.run step s xs).1 = (Machine.run vstep (view s) (xs.filter mine)).1 ∧
      (Machine.run step s xs).2.filter seen =
        (Machine.run vstep (view s) (xs.filter mine)).2 := by
  induction xs generalizing s with
  | nil => exact ⟨rfl, rfl⟩
  | cons x xs ih =>
    obtain ⟨hx, hxs⟩ := hq
    obtain ⟨hview, hout⟩ := ih hxs
    cases hm : mine x with
    | true =>
      obtain ⟨h1, h2, hseen⟩ := p.own s x hm
      rw [h1] at hview hout
      rw [List.filter_cons_of_pos hm, run_cons, run_cons]
      refine ⟨hview, ?_⟩
      rw [List.filter_append, List.filter_eq_self.mpr hseen, h2, hout]
    | false =>
      obtain ⟨h1, h2⟩ := p.other s x hm hx
      rw [h1] at hview hout
      rw [List.filter_cons_of_neg (by simp [hm]), run_cons]
      refine ⟨hview, ?_⟩
      rw [List.filter_append, h2, hout]
      rfl

/-- **Noninterference**: quiet runs that agree on the inputs of the class, from states with one
view, agree on its outputs. -/
theorem noninterference (p : Projection step vstep view mine seen Quiet) {xs ys : List ι} {s t : σ}
    (hst : view s = view t) (hsame : xs.filter mine = ys.filter mine)
    (hxs : Along step Quiet s xs) (hys : Along step Quiet t ys) :
    (Machine.run step s xs).2.filter seen = (Machine.run step t ys).2.filter seen := by
  rw [(p.run hxs).2, (p.run hys).2, hst, hsame]

end Projection

end Machine
