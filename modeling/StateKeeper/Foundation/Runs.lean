import Mathlib.Tactic.TypeStar

/-!
# Foundation - Runs of a transition system

Main results:

- Theorem {lit}`Reachable.invariant`: what holds initially and is preserved by
  every step holds in every reachable state.
-/

namespace Runs

variable {σ : Type*} {init : σ → Prop} {step : σ → σ → Prop}

/-- The states a run from an initial state reaches. -/
inductive Reachable (init : σ → Prop) (step : σ → σ → Prop) : σ → Prop where
  | start {s : σ} : init s → Reachable init step s
  | next {s s' : σ} : Reachable init step s → step s s' → Reachable init step s'

/-- An invariant of the steps holds in every reachable state. -/
theorem Reachable.invariant {Inv : σ → Prop} (hinit : ∀ s, init s → Inv s)
    (hstep : ∀ s s', Inv s → step s s' → Inv s') {s : σ} (h : Reachable init step s) : Inv s := by
  induction h with
  | start hs => exact hinit _ hs
  | next _ hs ih => exact hstep _ _ ih hs

/-- A run from a reached state is the rest of a run. -/
theorem Reachable.trans {s t : σ} (hs : Reachable init step s)
    (ht : Reachable (fun x => x = s) step t) : Reachable init step t := by
  induction ht with
  | start heq => exact heq ▸ hs
  | next _ hstep ih => exact ih.next hstep

end Runs
