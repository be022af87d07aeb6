import EffectTorch.Lib.LogSumExp

/-!
# Streamed softmax means

The terms of a softmax mean come one by one. What is kept is the largest score so far and the sums of
the exponentials relative to it; a larger score rescales the sums.

Results:
1. `Streams.turn`: one more term.
2. `Streams.mean`, `Streams.logSumExp`: what the sums are at the end.
-/

namespace Lib
open Finset

section Turn

variable {α : Type} [Field α] [LinearOrder α] (exp : α → α)

/-- The largest score so far; none before the first. -/
def nextMaximum (maximum : Option α) (score : α) : α := maximum.elim score (max · score)

/-- What the sums so far are rescaled by. -/
def previousScale (maximum : Option α) (next : α) : α := maximum.elim 0 fun maximum => exp (maximum - next)

end Turn

section Streams

variable {ι α : Type} [Field α] {exp : α → α} {s : Finset ι} {score value : ι → α} {total : α}

/-- The exponentials of the scores of `s`, relative to the largest so far and with values for weights,
add up to `total`. -/
def Streams (exp : α → α) (s : Finset ι) (score value : ι → α) : Option α → α → Prop
  | none, total => s = ∅ ∧ total = 0
  | some maximum, total => s.Nonempty ∧ total = ∑ i ∈ s, exp (score i - maximum) * value i

theorem Streams.start : Streams exp ∅ score value none 0 := ⟨rfl, rfl⟩

section Step

variable [LinearOrder α] {maximum : Option α}

/-- One more term. -/
theorem Streams.turn [DecidableEq ι] (hexp : ExpLaws exp) (h : Streams exp s score value maximum total) {i : ι}
    (hi : i ∉ s) :
    Streams exp (insert i s) score value (some (nextMaximum maximum (score i)))
      (total * previousScale exp maximum (nextMaximum maximum (score i)) +
        exp (score i - nextMaximum maximum (score i)) * value i) := by
  refine ⟨insert_nonempty i s, ?_⟩
  generalize nextMaximum maximum (score i) = next
  rw [sum_insert hi, add_comm]
  refine congrArg (exp (score i - next) * value i + ·) ?_
  cases maximum with
  | none =>
    obtain ⟨rfl, rfl⟩ := h
    rw [zero_mul, sum_empty]
  | some maximum =>
    rw [h.2]
    show (∑ j ∈ s, exp (score j - maximum) * value j) * exp (maximum - next) = _
    rw [sum_mul]
    refine sum_congr rfl fun j _ => ?_
    have hscale : exp (score j - maximum) * exp (maximum - next) = exp (score j - next) := by
      rw [hexp.sub, hexp.sub, hexp.sub, div_mul_div_cancel₀ (hexp.ne_zero maximum)]
    rw [mul_right_comm, hscale]

end Step

section Result

variable {maximum denominator : α}

theorem Streams.isSome {maximum : Option α} (h : Streams exp s score value maximum total) (hs : s.Nonempty) :
    ∃ m, maximum = some m := by
  cases maximum with
  | none => exact absurd h.1 hs.ne_empty
  | some m => exact ⟨m, rfl⟩

/-- The quotient of the sums is the mean. -/
theorem Streams.mean (hexp : ExpLaws exp) (h : Streams exp s score value (some maximum) total)
    (hdenominator : Streams exp s score 1 (some maximum) denominator) :
    total / denominator = softmaxMean exp s score value := by
  rw [← softmaxMean_shift hexp s score value maximum, softmaxMean, h.2, hdenominator.2]
  simp only [Pi.one_apply, mul_one]

/-- The largest score plus the logarithm of the sum. -/
theorem Streams.logSumExp [LinearOrder α] [IsStrictOrderedRing α] {ln : α → α} (hexp : LogLaws exp ln)
    (h : Streams exp s score 1 (some maximum) denominator) :
    maximum + ln denominator = ln (∑ i ∈ s, exp (score i)) := by
  rw [← logSumExp_shift hexp h.1 score maximum, h.2]
  simp only [Pi.one_apply, mul_one]

end Result

end Streams

end Lib
