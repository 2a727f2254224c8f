import Mathlib.Logic.Basic

/-!
# Programs on representations

An `EStateM ε σ` raises and keeps a state. A program that does the same with values and states
that only stand for those, and that has fuel because it may run forever, is an
`ExceptT ε (StateT τ Option)`, where `none` is the run whose fuel is spent.

`Simulates r f p q`: the second kind of program, `p`, does what `q` does, where `r` represents
the states and `f` the results. The rules take two programs apart together, one operation at a
time; `apply_ok` is what is left for one that returns.
-/

namespace Simulation

variable {ε σ τ α β γ δ : Type} {r : σ → τ} {f : α → β} {g : γ → δ}

/-- How a run ends, in the values that represent its state and its result. -/
def image (r : σ → τ) (f : α → β) : EStateM.Result ε σ α → Option (Except ε β × τ)
  | .ok a s => some (.ok (f a), r s)
  | .error e s => some (.error e, r s)

/-- `p` does on the values that represent states what `q` does on the states. -/
def Simulates (r : σ → τ) (f : α → β) (p : ExceptT ε (StateT τ Option) β)
    (q : EStateM ε σ α) : Prop :=
  ∀ s, p.run.run (r s) = image r f (q s)

namespace Simulates

theorem pure (a : α) : Simulates (ε := ε) r f (Pure.pure (f a)) (Pure.pure a) := fun _ => rfl

theorem get : Simulates (ε := ε) r r MonadState.get MonadState.get := fun _ => rfl

theorem set (s : σ) :
    Simulates (ε := ε) r id (MonadStateOf.set (r s)) (MonadStateOf.set s) := fun _ => rfl

/-- One after the other: the second program goes on with what represents the result. -/
theorem bind {p : ExceptT ε (StateT τ Option) β} {q : EStateM ε σ α}
    {k : β → ExceptT ε (StateT τ Option) δ} {l : α → EStateM ε σ γ} (h : Simulates r f p q)
    (hk : ∀ a, Simulates r g (k (f a)) (l a)) : Simulates r g (p >>= k) (q >>= l) := by
  intro s
  rw [ExceptT.run_bind, StateT.run_bind, h s]
  show _ = image r g (EStateM.bind q l s)
  unfold EStateM.bind
  cases q s with
  | ok a s' => exact hk a s'
  | error e s' => rfl

/-- Both decide on the same condition. -/
theorem ite {c : Prop} [Decidable c] {p p' : ExceptT ε (StateT τ Option) β}
    {q q' : EStateM ε σ α} (h : c → Simulates r f p q) (h' : ¬ c → Simulates r f p' q') :
    Simulates r f (if c then p else p') (if c then q else q') := by
  by_cases hc : c
  · rw [if_pos hc, if_pos hc]
    exact h hc
  · rw [if_neg hc, if_neg hc]
    exact h' hc

end Simulates

end Simulation
