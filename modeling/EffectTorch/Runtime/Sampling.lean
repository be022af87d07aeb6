import EffectTorch.Lib.Categorical
import EffectTorch.Runtime.Memory

/-!
# Sampling

`sample_probabilities` and `rejection_sample` of `runtime/src/sampling.rs`, over the exact
numbers of an ordered field; there every number is finite. The uniform draws of the
random coordinates are arguments, and so are the answers of the cancellation poll.
-/

namespace EffectTorch
open List Lib

variable {K : Type} [Field K] [LinearOrder K]

/-! ## The code -/

/-- A turn of the loop of `sample_probabilities_with_draw` that checks the row. -/
def addProbability (cancelled : Nat → Bool) (total : K) (entry : K × Nat) : Fallible String K := do
  rejectIf (entry.2 &&& 4095 = 0 ∧ cancelled entry.2) "operation aborted"
  rejectIf (entry.1 < 0) s!"sample: probability {entry.2} is invalid"
  return total + entry.1

def sampleProbabilitiesWithDraw (probabilities : List K) (unitDraw : K) (cancelled : Nat → Bool) :
    Fallible String Nat := do
  rejectIf (probabilities = [] ∨ u32Max < probabilities.length)
    "sample: probability row has invalid vocabulary size"
  let total ← probabilities.zipIdx.foldlM (addProbability cancelled) 0
  rejectIf (total ≤ 0) "sample: probability row has no positive mass"
  match pick probabilities (unitDraw * total) with
  | some token => return token
  | none => return probabilities.length - 1

/-- Result of one exact speculative rejection test. -/
inductive RejectionResult where
  | accepted
  | rejected (token : Nat)
deriving DecidableEq, Repr

/-- `max(0, p - q)`, the weights for the replacement of a rejected candidate. -/
def residual (target proposal : List K) : List K :=
  List.zipWith (fun target proposal => max (target - proposal) 0) target proposal

/-- `rejection_sample`, with the draws at its two coordinates. -/
def rejectionSample (target proposal : List K) (candidate : Nat) (acceptDraw residualDraw : K)
    (cancelled : Nat → Bool) : Fallible String RejectionResult := do
  rejectIf (target.length ≠ proposal.length ∨ target = [])
    "speculative sampling: target and proposal vocabularies differ"
  let p ← okOr target[candidate]? "speculative sampling: candidate is outside the vocabulary"
  let q ← okOr proposal[candidate]? "speculative sampling: candidate is outside the vocabulary"
  rejectIf (q ≤ 0 ∨ p < 0) "speculative sampling: candidate has invalid probability"
  if q ≤ p ∨ acceptDraw < p / q then return .accepted
  else
    let token ← sampleProbabilitiesWithDraw (residual target proposal) residualDraw cancelled
    return .rejected token

/-- The token that takes the candidate's place in the output. -/
def emitted (candidate : Nat) : Fallible String RejectionResult → Option Nat
  | .ok .accepted => some candidate
  | .ok (.rejected token) => some token
  | .error _ => none

/-! ## What a draw returns -/

/-- The poll of a caller that does not cancel. -/
def neverCancelled (_ : Nat) : Bool := false

section Draw

variable {weights : List K} {draw : K}

theorem foldlM_addProbability (hweights : ∀ w ∈ weights, 0 ≤ w) (first : Nat) (total : K) :
    (weights.zipIdx first).foldlM (addProbability neverCancelled) total =
      .ok (total + weights.sum) := by
  induction weights generalizing first total with
  | nil => simp only [zipIdx_nil, foldlM_nil, sum_nil, add_zero]; rfl
  | cons w weights ih =>
    obtain ⟨hw, hrest⟩ := forall_mem_cons.mp hweights
    have hturn : addProbability neverCancelled total (w, first) = .ok (total + w) := by
      simp [addProbability, rejectIf, neverCancelled, not_lt.mpr hw, bind, Except.bind, pure,
        Except.pure]
    rw [zipIdx_cons, foldlM_cons, hturn, ok_bind, ih hrest, sum_cons, add_assoc]

/-- A row with a positive total is sampled as `pick` says. -/
theorem sampleProbabilities_pick [IsStrictOrderedRing K] (hweights : ∀ w ∈ weights, 0 ≤ w)
    (hlength : weights.length ≤ u32Max) (hpos : 0 < weights.sum) (h0 : 0 ≤ draw) (h1 : draw < 1) :
    ∃ token w, sampleProbabilitiesWithDraw weights draw neverCancelled = .ok token ∧
      pick weights (draw * weights.sum) = some token ∧ weights[token]? = some w ∧ 0 < w := by
  have hlt : draw * weights.sum < weights.sum := mul_lt_of_lt_one_left hpos h1
  obtain ⟨token, w, hpick, hw, hwpos⟩ :=
    pick_returns hweights (mul_nonneg h0 hpos.le) hlt
  refine ⟨token, w, ?_, hpick, hw, hwpos⟩
  have hne : weights ≠ [] := by
    rintro rfl
    exact absurd hpos (lt_irrefl _)
  simp [sampleProbabilitiesWithDraw, rejectIf, hne, not_lt.mpr hlength,
    foldlM_addProbability hweights, ok_bind, not_le.mpr hpos, hpick]

end Draw

end EffectTorch
