import Mathlib.Data.List.Basic

/-!
# Worklists

A traversal pops the item pushed last, visits it, and pushes what the visit finds.
The traversal is written with fuel.

Results:
1. `worklist_invariant`: what a visit preserves holds at the end.
-/

namespace Lib
open List

variable {σ α : Type}

/-- Visits pending items until none is left. A visit gives the next state and the
items that it pushes, or rejects the traversal. -/
def worklist (visit : σ → α → Option (σ × List α)) : Nat → σ → List α → Option σ
  | _, s, [] => some s
  | 0, _, _ :: _ => none
  | fuel + 1, s, a :: pending =>
    match visit s a with
    | some (s', pushed) => worklist visit fuel s' (pushed.reverse ++ pending)
    | none => none

variable {visit : σ → α → Option (σ × List α)}

/-- What every visit preserves holds at the end. -/
theorem worklist_invariant {I : σ → Prop}
    (hvisit : ∀ s a s' pushed, I s → visit s a = some (s', pushed) → I s') :
    ∀ {fuel : Nat} {s s' : σ} {pending : List α}, I s →
      worklist visit fuel s pending = some s' → I s' := by
  intro fuel
  induction fuel with
  | zero =>
    intro s s' pending hI h
    cases pending with
    | nil =>
      cases h
      exact hI
    | cons a pending => cases h
  | succ fuel ih =>
    intro s s' pending hI h
    cases pending with
    | nil =>
      cases h
      exact hI
    | cons a pending =>
      rw [worklist] at h
      cases hv : visit s a with
      | none =>
        rw [hv] at h
        cases h
      | some r =>
        rw [hv] at h
        exact ih (hvisit s a r.1 r.2 hI hv) h

end Lib
