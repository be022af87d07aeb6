import Mathlib.Logic.Basic

/-!
# Transition systems

Results:
1. `System.invariant`: what holds at the start and is preserved by every step
   holds in every reachable state.
-/

namespace Lib

/-- States, where runs start, and how they continue. -/
structure System (σ : Type) where
  init : σ → Prop
  step : σ → σ → Prop

/-- The states of the runs of a system. -/
inductive System.Reachable {σ : Type} (S : System σ) : σ → Prop
  | init {s : σ} : S.init s → S.Reachable s
  | step {s s' : σ} : S.Reachable s → S.step s s' → S.Reachable s'

variable {σ : Type} {S T : System σ}

theorem System.invariant {I : σ → Prop} (hinit : ∀ s, S.init s → I s)
    (hstep : ∀ s s', I s → S.step s s' → I s') {s : σ} (h : S.Reachable s) : I s := by
  induction h with
  | init h => exact hinit _ h
  | step _ hs ih => exact hstep _ _ ih hs

end Lib
