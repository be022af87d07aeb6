import Mathlib

/-!
# Gradients of functions of many numbers

A function of the numbers of an array has a gradient when it has a derivative in each of them, the
others being fixed.

Results:
1. `hasDerivAt_update`: the array itself.
2. `hasDerivAt_dot`: a sum of products with fixed coefficients.
-/

namespace Lib

/-- On its first `n` places, `gradient` holds the derivatives of `f` at `point`. -/
def IsGradient (f : (Nat → ℝ) → ℝ) (point : Nat → ℝ) (n : Nat) (gradient : Nat → ℝ) : Prop :=
  ∀ i < n, HasDerivAt (fun v => f (Function.update point i v)) (gradient i) (point i)

section Rules

variable {point : Nat → ℝ} {i : Nat}

/-- Changing one number of an array moves that number alone. -/
theorem hasDerivAt_update (point : Nat → ℝ) (i j : Nat) (v : ℝ) :
    HasDerivAt (fun v => Function.update point i v j) (if j = i then 1 else 0) v := by
  by_cases h : j = i
  · subst h
    simp only [Function.update_self, if_pos]
    exact hasDerivAt_id v
  · simp only [Function.update_of_ne h, if_neg h]
    exact hasDerivAt_const v _

/-- A sum of products, as one array changes: the coefficient of the number that changes. -/
theorem hasDerivAt_dot (s : Finset Nat) (place : Nat → Nat) (coefficient : Nat → ℝ) (i : Nat) (v : ℝ) :
    HasDerivAt (fun v => ∑ k ∈ s, Function.update point i v (place k) * coefficient k)
      (∑ k ∈ s, if place k = i then coefficient k else 0) v := by
  refine HasDerivAt.fun_sum fun k _ => ?_
  refine ((hasDerivAt_update point i (place k) v).mul_const (coefficient k)).congr_deriv ?_
  rw [ite_mul, one_mul, zero_mul]

end Rules

end Lib
