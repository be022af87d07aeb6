import EffectTorch.Lib.Fault

/-!
# Computations in lockstep

Two fallible computations are in lockstep when both return, with related values, or both stop,
with related failures. One computation then simulates the other in both directions, failures
included.

Results:
1. `Lockstep.bind`, `Lockstep.foldlM`: lockstep is preserved by `>>=` and by loops.
2. `Lockstep.error_left`, `Lockstep.ok_left`: what one computation does, the other does.
-/

namespace Lib

/-- Both return with `R`, or both stop with `F`. -/
inductive Lockstep {ε ε' α β : Type} (F : ε → ε' → Prop) (R : α → β → Prop) :
    Except ε α → Except ε' β → Prop
  | ok {a : α} {b : β} : R a b → Lockstep F R (.ok a) (.ok b)
  | error {e : ε} {e' : ε'} : F e e' → Lockstep F R (.error e) (.error e')

section Rules

variable {ε ε' α α' β β' σ τ : Type} {F G : ε → ε' → Prop} {R : α → β → Prop} {S : α' → β' → Prop}

theorem Lockstep.ok_left {a : α} {y : Except ε' β} (h : Lockstep F R (.ok a) y) :
    ∃ b, y = .ok b ∧ R a b := by
  cases h with
  | ok h => exact ⟨_, rfl, h⟩

theorem Lockstep.error_left {e : ε} {y : Except ε' β} (h : Lockstep F R (.error e) y) :
    ∃ e', y = .error e' ∧ F e e' := by
  cases h with
  | error h => exact ⟨_, rfl, h⟩

theorem Lockstep.mono {T : α → β → Prop} {x : Except ε α} {y : Except ε' β}
    (h : Lockstep F R x y) (hF : ∀ e e', F e e' → G e e') (hR : ∀ a b, R a b → T a b) :
    Lockstep G T x y := by
  cases h with
  | ok h => exact .ok (hR _ _ h)
  | error h => exact .error (hF _ _ h)

theorem Lockstep.bind {x : Except ε α} {y : Except ε' β} {k : α → Except ε α'}
    {k' : β → Except ε' β'} (h : Lockstep F R x y)
    (hk : ∀ a b, R a b → Lockstep F S (k a) (k' b)) : Lockstep F S (x >>= k) (y >>= k') := by
  cases h with
  | ok h => exact hk _ _ h
  | error h => exact .error h

/-- A loop over related items, whose turns are in lockstep. -/
theorem Lockstep.foldlM {Q : α → β → Prop} {R : σ → τ → Prop} {f : σ → α → Except ε σ}
    {g : τ → β → Except ε' τ} {l : List α} {l' : List β} {s : σ} {t : τ}
    (hl : List.Forall₂ Q l l')
    (hstep : ∀ s t a b, R s t → Q a b → Lockstep F R (f s a) (g t b)) (h : R s t) :
    Lockstep F R (l.foldlM f s) (l'.foldlM g t) := by
  induction hl generalizing s t with
  | nil => exact .ok h
  | cons hab _ ih =>
    rw [List.foldlM_cons, List.foldlM_cons]
    exact (hstep _ _ _ _ h hab).bind fun _ _ h => ih h

end Rules

end Lib
