import Mathlib.Algebra.BigOperators.Group.Finset.Sigma
import Mathlib.Algebra.BigOperators.Ring.Finset

/-!
# Grouped convolutions

A convolution with its channels in groups, over any kinds of positions: `hit t u y` says that the
tap `u` of the output position `t` reads the input position `y`. The transposed convolution is its
adjoint.

Results:
1. `groupedConv_adjoint`: the two have the same inner products.
-/

namespace Lib
open Finset

theorem sum_range_blocks {M : Type} [AddCommMonoid M] (a b : Nat) (f : Nat → M) :
    ∑ i ∈ Finset.range (a * b), f i = ∑ q ∈ Finset.range a, ∑ r ∈ Finset.range b, f (q * b + r) := by
  induction a with
  | zero => rw [Nat.zero_mul, sum_range_zero, sum_range_zero]
  | succ a ih => rw [Nat.succ_mul, sum_range_add, ih, Finset.sum_range_succ]

/-- The block of a position, and a position in it. -/
theorem block_lt {blocks size size' i r : Nat} (hi : i < blocks * size) (hr : r < size') :
    i / size * size' + r < blocks * size' := by
  have hblock : i / size + 1 ≤ blocks := Nat.div_lt_of_lt_mul (Nat.mul_comm blocks size ▸ hi)
  calc i / size * size' + r
      < i / size * size' + size' := Nat.add_lt_add_left hr _
    _ = (i / size + 1) * size' := (Nat.succ_mul _ _).symm
    _ ≤ blocks * size' := Nat.mul_le_mul_right _ hblock

section Convolution

variable {M : Type} [CommRing M] {τ υ γ : Type} (oGroup cGroup : Nat) (T : Finset τ) (U : Finset υ)
  (Y : Finset γ) (hit : τ → υ → γ → Prop) [∀ t u y, Decidable (hit t u y)]

/-- The output channel `o` at the position `t`. -/
def groupedConv (x : Nat → γ → M) (w : Nat → Nat → υ → M) (o : Nat) (t : τ) : M :=
  ∑ ch ∈ Finset.range cGroup, ∑ u ∈ U, ∑ y ∈ Y,
    if hit t u y then x (o / oGroup * cGroup + ch) y * w o ch u else 0

/-- The input channel `c` at the position `y`. -/
def groupedConvTranspose (g : Nat → τ → M) (w : Nat → Nat → υ → M) (c : Nat) (y : γ) : M :=
  ∑ ch ∈ Finset.range oGroup, ∑ t ∈ T, ∑ u ∈ U,
    if hit t u y then g (c / cGroup * oGroup + ch) t * w (c / cGroup * oGroup + ch) (c % cGroup) u else 0

/-- What a group adds to the inner products. -/
theorem groupedConv_group (g : Nat → τ → M) (x : Nat → γ → M) (w : Nat → Nat → υ → M) :
    ∑ r ∈ Finset.range oGroup, ∑ t ∈ T, g r t * ∑ ch ∈ Finset.range cGroup, ∑ u ∈ U, ∑ y ∈ Y,
        (if hit t u y then x ch y * w r ch u else 0) =
      ∑ ch ∈ Finset.range cGroup, ∑ y ∈ Y, (∑ r ∈ Finset.range oGroup, ∑ t ∈ T, ∑ u ∈ U,
        if hit t u y then g r t * w r ch u else 0) * x ch y := by
  calc _ = ∑ r ∈ Finset.range oGroup, ∑ t ∈ T, ∑ ch ∈ Finset.range cGroup, ∑ y ∈ Y, ∑ u ∈ U,
          (if hit t u y then g r t * w r ch u else 0) * x ch y := by
        refine sum_congr rfl fun r _ => sum_congr rfl fun t _ => ?_
        rw [mul_sum]
        refine sum_congr rfl fun ch _ => ?_
        rw [sum_comm, mul_sum]
        refine sum_congr rfl fun y _ => ?_
        rw [mul_sum]
        refine sum_congr rfl fun u _ => ?_
        rw [mul_ite, ite_mul, mul_zero, zero_mul, mul_comm (x ch y), mul_assoc]
    _ = ∑ r ∈ Finset.range oGroup, ∑ ch ∈ Finset.range cGroup, ∑ y ∈ Y, ∑ t ∈ T, ∑ u ∈ U,
          (if hit t u y then g r t * w r ch u else 0) * x ch y := by
        refine sum_congr rfl fun r _ => ?_
        rw [sum_comm]
        exact sum_congr rfl fun ch _ => sum_comm
    _ = ∑ ch ∈ Finset.range cGroup, ∑ y ∈ Y, ∑ r ∈ Finset.range oGroup, ∑ t ∈ T, ∑ u ∈ U,
          (if hit t u y then g r t * w r ch u else 0) * x ch y := by
        rw [sum_comm]
        exact sum_congr rfl fun ch _ => sum_comm
    _ = _ := by
        refine sum_congr rfl fun ch _ => sum_congr rfl fun y _ => ?_
        simp only [sum_mul]

/-- The transposed convolution is the adjoint of the convolution. -/
theorem groupedConv_adjoint (groups : Nat) (g : Nat → τ → M) (x : Nat → γ → M) (w : Nat → Nat → υ → M) :
    ∑ o ∈ Finset.range (groups * oGroup), ∑ t ∈ T, g o t * groupedConv oGroup cGroup U Y hit x w o t =
      ∑ c ∈ Finset.range (groups * cGroup), ∑ y ∈ Y,
        groupedConvTranspose oGroup cGroup T U hit g w c y * x c y := by
  rw [sum_range_blocks, sum_range_blocks]
  refine sum_congr rfl fun q _ => ?_
  have hblock : ∀ size r, r ∈ Finset.range size → (q * size + r) / size = q ∧ (q * size + r) % size = r := by
    intro size r hr
    have hlt := Finset.mem_range.mp hr
    exact ⟨by rw [Nat.mul_comm, Nat.mul_add_div (Nat.zero_lt_of_lt hlt), Nat.div_eq_of_lt hlt, Nat.add_zero],
      by rw [Nat.mul_add_mod', Nat.mod_eq_of_lt hlt]⟩
  have hgroup := groupedConv_group oGroup cGroup T U Y hit
    (fun r t => g (q * oGroup + r) t) (fun ch y => x (q * cGroup + ch) y)
    fun r ch u => w (q * oGroup + r) ch u
  refine Eq.trans ?_ (hgroup.trans ?_)
  · refine sum_congr rfl fun r hr => sum_congr rfl fun t _ => ?_
    rw [groupedConv, (hblock oGroup r hr).1]
  · refine sum_congr rfl fun ch hch => sum_congr rfl fun y _ => ?_
    rw [groupedConvTranspose, (hblock cGroup ch hch).1, (hblock cGroup ch hch).2]

end Convolution

end Lib
