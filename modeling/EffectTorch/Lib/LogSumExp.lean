import EffectTorch.Lib.Softmax
import Mathlib

/-!
# Logarithms of sums of exponentials

Shifting the scores before the exponentials and adding the shift to the logarithm leaves the
logarithm of the sum. Over the real numbers the derivatives are those of the softmax.

Results:
1. `logSumExp_shift`: any shift may be taken out.
2. `exp_sub_logSumExp`: the softmax from the logarithm of the sum.
3. `hasDerivAt_logSumExp`, `hasDerivAt_softmaxMeans`: derivatives.
-/

namespace Lib
open Finset

/-- What a logarithm of sums needs of an exponential and a logarithm. -/
structure LogLaws {α : Type*} [Field α] [LinearOrder α] (exp ln : α → α) : Prop extends ExpLaws exp where
  pos : ∀ a, 0 < exp a
  ln_exp : ∀ a, ln (exp a) = a
  exp_ln : ∀ a, 0 < a → exp (ln a) = a

theorem real_logLaws : LogLaws Real.exp Real.log where
  sub := Real.exp_sub
  ne_zero := Real.exp_ne_zero
  pos := Real.exp_pos
  ln_exp := Real.log_exp
  exp_ln _ h := Real.exp_log h

section Laws

variable {ι α : Type*} [Field α] {exp ln : α → α} {s : Finset ι}

theorem ExpLaws.sum_shift (h : ExpLaws exp) (s : Finset ι) (score : ι → α) (shift : α) :
    ∑ i ∈ s, exp (score i - shift) = (∑ i ∈ s, exp (score i)) / exp shift := by
  rw [sum_div]
  exact sum_congr rfl fun i _ => h.sub _ _

/-- Shifting the scores does not change their softmax. -/
theorem ExpLaws.softmax_shift (h : ExpLaws exp) (s : Finset ι) (score : ι → α) (shift a : α) :
    exp (a - shift) / ∑ i ∈ s, exp (score i - shift) = exp a / ∑ i ∈ s, exp (score i) := by
  rw [h.sum_shift, h.sub, div_div_div_cancel_right₀ (h.ne_zero shift)]

variable [LinearOrder α] [IsStrictOrderedRing α]

theorem LogLaws.sum_pos (h : LogLaws exp ln) (hs : s.Nonempty) (score : ι → α) : 0 < ∑ i ∈ s, exp (score i) :=
  Finset.sum_pos (fun i _ => h.pos (score i)) hs

/-- Any shift may be taken out. -/
theorem logSumExp_shift (h : LogLaws exp ln) (hs : s.Nonempty) (score : ι → α) (shift : α) :
    shift + ln (∑ i ∈ s, exp (score i - shift)) = ln (∑ i ∈ s, exp (score i)) := by
  have hsum := h.sum_pos hs score
  have hln : (∑ i ∈ s, exp (score i)) / exp shift = exp (ln (∑ i ∈ s, exp (score i)) - shift) := by
    rw [h.sub, h.exp_ln _ hsum]
  rw [h.toExpLaws.sum_shift, hln, h.ln_exp, add_sub_cancel]

/-- The softmax from the logarithm of the sum. -/
theorem exp_sub_logSumExp (h : LogLaws exp ln) (hs : s.Nonempty) (score : ι → α) (a : α) :
    exp (a - ln (∑ i ∈ s, exp (score i))) = exp a / ∑ i ∈ s, exp (score i) := by
  rw [h.sub, h.exp_ln _ (h.sum_pos hs score)]

end Laws

/-! ## Derivatives -/

section Derivatives

variable {ι : Type*} {s : Finset ι} {score value : ℝ → ι → ℝ} {score' value' : ι → ℝ} {t : ℝ}

theorem hasDerivAt_sumExp (hscore : ∀ i ∈ s, HasDerivAt (score · i) (score' i) t) :
    HasDerivAt (fun t => ∑ i ∈ s, Real.exp (score t i)) (∑ i ∈ s, Real.exp (score t i) * score' i) t :=
  HasDerivAt.fun_sum fun i hi => (hscore i hi).exp

/-- The derivative of the logarithm of a sum of exponentials is a softmax mean. -/
theorem hasDerivAt_logSumExp (hs : s.Nonempty) (hscore : ∀ i ∈ s, HasDerivAt (score · i) (score' i) t) :
    HasDerivAt (fun t => Real.log (∑ i ∈ s, Real.exp (score t i)))
      (softmaxMean Real.exp s (score t) score') t :=
  (hasDerivAt_sumExp hscore).log (real_logLaws.sum_pos hs (score t)).ne'

/-- The derivative of a softmax mean: the values move with their weights, and each score moves the
weights towards its value. -/
theorem hasDerivAt_softmaxMean (hs : s.Nonempty) (hscore : ∀ i ∈ s, HasDerivAt (score · i) (score' i) t)
    (hvalue : ∀ i ∈ s, HasDerivAt (value · i) (value' i) t) :
    HasDerivAt (fun t => softmaxMean Real.exp s (score t) (value t))
      (∑ i ∈ s, Real.exp (score t i) / (∑ j ∈ s, Real.exp (score t j)) *
        (value' i + score' i * (value t i - softmaxMean Real.exp s (score t) (value t)))) t := by
  have hpos := real_logLaws.sum_pos hs (score t)
  have hnumerator : HasDerivAt (fun t => ∑ i ∈ s, Real.exp (score t i) * value t i)
      (∑ i ∈ s, (Real.exp (score t i) * score' i * value t i + Real.exp (score t i) * value' i)) t :=
    HasDerivAt.fun_sum fun i hi => (hscore i hi).exp.mul (hvalue i hi)
  refine (hnumerator.div (hasDerivAt_sumExp hscore) hpos.ne').congr_deriv ?_
  have hterm : ∀ i ∈ s, Real.exp (score t i) / (∑ j ∈ s, Real.exp (score t j)) *
      (value' i + score' i * (value t i - softmaxMean Real.exp s (score t) (value t))) =
        (Real.exp (score t i) * score' i * value t i + Real.exp (score t i) * value' i) / (∑ j ∈ s, Real.exp (score t j)) -
          Real.exp (score t i) * score' i * (softmaxMean Real.exp s (score t) (value t) / ∑ j ∈ s, Real.exp (score t j)) :=
    fun i _ => by ring
  rw [sum_congr rfl hterm, sum_sub_distrib, ← sum_div, ← sum_mul, softmaxMean, sq]
  field_simp

/-- A weighted sum of means under the same scores. -/
theorem hasDerivAt_softmaxMeans {κ : Type*} (r : Finset κ) (weight : κ → ℝ) {value : ℝ → κ → ι → ℝ} {value' : κ → ι → ℝ}
    (hs : s.Nonempty) (hscore : ∀ i ∈ s, HasDerivAt (score · i) (score' i) t)
    (hvalue : ∀ c ∈ r, ∀ i ∈ s, HasDerivAt (value · c i) (value' c i) t) :
    HasDerivAt (fun t => ∑ c ∈ r, weight c * softmaxMean Real.exp s (score t) (value t c))
      (∑ i ∈ s, (Real.exp (score t i) / (∑ j ∈ s, Real.exp (score t j)) *
        (∑ c ∈ r, weight c * value t c i - ∑ c ∈ r, weight c * softmaxMean Real.exp s (score t) (value t c)) * score' i +
          ∑ c ∈ r, Real.exp (score t i) / (∑ j ∈ s, Real.exp (score t j)) * weight c * value' c i)) t := by
  refine (HasDerivAt.fun_sum fun c hc =>
    (hasDerivAt_softmaxMean hs hscore (hvalue c hc)).const_mul (weight c)).congr_deriv ?_
  simp only [mul_sum]
  rw [sum_comm]
  refine sum_congr rfl fun i _ => ?_
  rw [← sum_sub_distrib, mul_sum, sum_mul, ← sum_add_distrib]
  exact sum_congr rfl fun c _ => by ring

end Derivatives

end Lib
