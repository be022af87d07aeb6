import Mathlib.Algebra.BigOperators.Field
import Mathlib.Order.Interval.Finset.Nat

/-!
# Softmax means

The mean of values under weights that are exponentials of scores. Shifting the scores
does not change it, and neither does dividing each weight first.
-/

namespace Lib
open Finset

/-- What a softmax needs of an exponential. -/
structure ExpLaws {α : Type*} [Field α] (exp : α → α) : Prop where
  sub : ∀ a b, exp (a - b) = exp a / exp b
  ne_zero : ∀ a, exp a ≠ 0

section Softmax

variable {ι α : Type*} [Field α] {exp : α → α}

/-- The mean of `value` over `s`, weighted by the exponentials of `score`. -/
def softmaxMean (exp : α → α) (s : Finset ι) (score value : ι → α) : α :=
  (∑ i ∈ s, exp (score i) * value i) / ∑ i ∈ s, exp (score i)

/-- Only the scores and values of `s` matter. -/
theorem softmaxMean_congr {s : Finset ι} {score score' value value' : ι → α}
    (hscore : ∀ i ∈ s, score i = score' i) (hvalue : ∀ i ∈ s, value i = value' i) :
    softmaxMean exp s score value = softmaxMean exp s score' value' := by
  unfold softmaxMean
  congr 1
  · exact sum_congr rfl fun i hi => by rw [hscore i hi, hvalue i hi]
  · exact sum_congr rfl fun i hi => by rw [hscore i hi]

theorem softmaxMean_shift (h : ExpLaws exp) (s : Finset ι) (score value : ι → α) (shift : α) :
    softmaxMean exp s (fun i => score i - shift) value = softmaxMean exp s score value := by
  have hweighted : ∑ i ∈ s, exp (score i - shift) * value i =
      (∑ i ∈ s, exp (score i) * value i) / exp shift := by
    rw [sum_div]
    exact sum_congr rfl fun i _ => by rw [h.sub, div_mul_eq_mul_div]
  have hweights : ∑ i ∈ s, exp (score i - shift) = (∑ i ∈ s, exp (score i)) / exp shift := by
    rw [sum_div]
    exact sum_congr rfl fun i _ => h.sub _ _
  unfold softmaxMean
  rw [hweighted, hweights, div_div_div_cancel_right₀ (h.ne_zero shift)]

/-- Dividing each weight before the sum. -/
theorem softmaxMean_weights (s : Finset ι) (score value : ι → α) :
    ∑ i ∈ s, exp (score i) / (∑ j ∈ s, exp (score j)) * value i =
      softmaxMean exp s score value := by
  rw [softmaxMean, sum_div]
  exact sum_congr rfl fun i _ => div_mul_eq_mul_div _ _ _

end Softmax

/-- A loop that adds over an interval. -/
theorem foldl_add_range' {α : Type*} [AddCommMonoid α] (f : Nat → α) (start count : Nat) :
    (List.range' start count).foldl (fun total i => total + f i) 0 =
      ∑ i ∈ Finset.Ico start (start + count), f i := by
  have hsum : ∀ (l : List Nat) (total : α),
      l.foldl (fun total i => total + f i) total = total + (l.map f).sum := by
    intro l
    induction l with
    | nil => exact fun total => (add_zero total).symm
    | cons i l ih =>
      intro total
      rw [List.foldl_cons, ih, List.map_cons, List.sum_cons, add_assoc]
  rw [hsum, zero_add]
  show _ = ((List.range' start (start + count - start)).map f).sum
  rw [Nat.add_sub_cancel_left]

end Lib
