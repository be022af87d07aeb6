import EffectTorch.Runtime.Sampling

/-!
# Sampling from logits

`effective_probabilities`, `sample_logits` and their filters in `runtime/src/sampling.rs`,
over the exact numbers of an ordered field. `exp` is a parameter. A logit is `none` where
the source has a NaN or an infinity; the options are finite.
-/

namespace EffectTorch.Sampling
open Lib

variable {K : Type} [Field K] [LinearOrder K]

/-- Controls for one token draw, with the uniform draw of its seed and counter. -/
structure SamplingOptions (K : Type) where
  temperature : K
  topK : Option Nat
  topP : K
  unitDraw : K

inductive SamplingError (K : Type) where
  | emptyLogits
  | exceedsTokenRange
  | exceedsLimit (length : Nat)
  | temperature (got : K)
  | topP (got : K)
  | topK (length got : Nat)
  | notFinite (token : Nat)
  | aborted
deriving DecidableEq, Repr

/-- `MAX_SAMPLING_VOCABULARY`. -/
def maxSamplingVocabulary : Nat := 1048576

/-- Where the cancellation flag is polled. -/
inductive Poll where
  | scan (token : Nat)
  | select
  | sort
  | sorted
  | weigh (index : Nat)
  | cross (index : Nat)
  | draw (index : Nat)
deriving DecidableEq, Repr

structure Candidate (K : Type) where
  token : Nat
  value : K
deriving DecidableEq, Repr

/-- Larger values first, then lower tokens. -/
def descending (left right : Candidate K) : Bool :=
  decide (right.value < left.value ∨ left.value = right.value ∧ left.token ≤ right.token)

def SamplingOptions.validate (options : SamplingOptions K) (length : Nat) :
    Fallible (SamplingError K) Unit := do
  rejectIf (length = 0) .emptyLogits
  rejectIf (u32Max < length) .exceedsTokenRange
  rejectIf (maxSamplingVocabulary < length) (.exceedsLimit length)
  rejectIf (options.temperature < 0) (.temperature options.temperature)
  rejectIf (options.topP ≤ 0 ∨ 1 < options.topP) (.topP options.topP)
  match options.topK with
  | some topK => rejectIf (topK = 0 ∨ length < topK) (.topK length topK)
  | none => .ok ()

section Loops

variable (exp : K → K) (cancelled : Poll → Bool)

/-- The poll of every 4096th turn of a loop. -/
def pollTurn (index : Nat) (poll : Poll) : Fallible (SamplingError K) Unit :=
  rejectIf (index &&& 4095 = 0 ∧ cancelled poll = true) .aborted

/-! ## Scans -/

/-- A turn of a scan that reads one logit. -/
def scanLogit (entry : Option K × Nat) : Fallible (SamplingError K) K := do
  pollTurn cancelled entry.2 (.scan entry.2)
  okOr entry.1 (.notFinite entry.2)

/-- Whether a value is above the best one so far, which starts at minus infinity. -/
def exceeds (value : K) : Option K → Bool
  | none => true
  | some best => decide (best < value)

/-- The scan of the greedy path: the first of the largest logits. -/
def sampleGreedy (logits : List (Option K)) : Fallible (SamplingError K) Nat := do
  let (selected, _) ← logits.zipIdx.foldlM (fun (state : Nat × Option K) entry => do
    let value ← scanLogit cancelled entry
    return if exceeds value state.2 then (entry.2, some value) else state) (0, none)
  return selected

def maxLogit (logits : List (Option K)) : Fallible (SamplingError K) (Option K) :=
  logits.zipIdx.foldlM (fun (best : Option K) entry => do
    let value ← scanLogit cancelled entry
    return match best with
      | none => some value
      | some best => some (max best value)) none

def scanCandidates (logits : List (Option K)) : Fallible (SamplingError K) (List (Candidate K)) :=
  logits.zipIdx.foldlM (fun (candidates : List (Candidate K)) entry => do
    let value ← scanLogit cancelled entry
    return candidates ++ [⟨entry.2, value⟩]) []

/-! ## Filters -/

/-- `options.top_k.filter(|&top_k| top_k < length)`. -/
def SamplingOptions.activeTopK (options : SamplingOptions K) (length : Nat) : Option Nat :=
  options.topK.filter (· < length)

/-- `select_nth_unstable_by` and `truncate`: the first `topK` candidates in descending
order. They are sorted afterwards. -/
def truncateTopK (topK : Option Nat) (candidates : List (Candidate K)) : List (Candidate K) :=
  match topK with
  | some topK => (candidates.mergeSort descending).take topK
  | none => candidates

/-- Replaces the sorted values by their weights and adds the weights up. -/
def weigh (temperature : K) (candidates : List (Candidate K)) :
    Fallible (SamplingError K) (List (Candidate K) × K) := do
  let first ← expect candidates.head? "index out of bounds: the len is 0 but the index is 0"
  candidates.zipIdx.foldlM (fun (state : List (Candidate K) × K) entry => do
    pollTurn cancelled entry.2 (.weigh entry.2)
    let value := exp ((entry.1.value - first.value) / temperature)
    return (state.1 ++ [⟨entry.1.token, value⟩], state.2 + value)) ([], 0)

/-- The length and the mass of the first prefix that reaches the threshold. -/
def crossing (threshold : K) : List (Candidate K) → (index : Nat) → (cumulative : K) →
    Fallible (SamplingError K) (Option (Nat × K))
  | [], _, _ => .ok none
  | candidate :: candidates, index, cumulative => do
    pollTurn cancelled index (.cross index)
    if threshold ≤ cumulative + candidate.value then
      return some (index + 1, cumulative + candidate.value)
    else crossing threshold candidates (index + 1) (cumulative + candidate.value)

/-- How many of the weighted candidates top-p keeps, and their mass. -/
def retain (topP : K) (candidates : List (Candidate K)) (total : K) :
    Fallible (SamplingError K) (Nat × K) := do
  if topP < 1 then
    let crossed ← crossing cancelled (topP * total) candidates 0 0
    return crossed.getD (candidates.length, total)
  else return (candidates.length, total)

/-- The loop that takes the weights off the draw: the first index at which it falls
below zero. -/
def drawLoop : (weights : List K) → (index : Nat) → (draw : K) →
    Fallible (SamplingError K) (Option Nat)
  | [], _, _ => .ok none
  | weight :: weights, index, draw => do
    pollTurn cancelled index (.draw index)
    if draw - weight < 0 then return some index
    else drawLoop weights (index + 1) (draw - weight)

/-! ## Sampling -/

/-- The path without filters, in token order. The scan for the maximum has found every
logit finite. -/
def sampleUnfiltered (logits : List (Option K)) (options : SamplingOptions K) :
    Fallible (SamplingError K) Nat := do
  let best ← maxLogit cancelled logits
  let weight := fun value : Option K =>
    exp ((value.getD 0 - best.getD 0) / options.temperature)
  let total ← logits.zipIdx.foldlM (fun (total : K) entry => do
    pollTurn cancelled entry.2 (.weigh entry.2)
    return total + weight entry.1) 0
  let picked ← drawLoop cancelled (logits.map weight) 0 (options.unitDraw * total)
  return picked.getD (logits.length - 1)

/-- The path with top-k or top-p, in descending order. -/
def sampleFiltered (logits : List (Option K)) (options : SamplingOptions K) :
    Fallible (SamplingError K) Nat := do
  let candidates ← scanCandidates cancelled logits
  rejectIf (cancelled .select = true) .aborted
  let selected := truncateTopK (options.activeTopK logits.length) candidates
  rejectIf (cancelled .sort = true) .aborted
  let ranked := selected.mergeSort descending
  rejectIf (cancelled .sorted = true) .aborted
  let (weighted, mass) ← weigh exp cancelled options.temperature ranked
  let (retained, total) ← retain cancelled options.topP weighted mass
  let kept := weighted.take retained
  let picked ← drawLoop cancelled (kept.map (·.value)) 0 (options.unitDraw * total)
  let chosen ← expect kept[picked.getD (retained - 1)]? "index out of bounds"
  return chosen.token

/-- Samples one token. -/
def sampleLogits (logits : List (Option K)) (options : SamplingOptions K) :
    Fallible (SamplingError K) Nat := do
  options.validate logits.length
  if options.temperature = 0 then sampleGreedy cancelled logits
  else if (options.activeTopK logits.length).isSome = false ∧ ¬ options.topP < 1 then
    sampleUnfiltered exp cancelled logits options
  else sampleFiltered exp cancelled logits options

/-- The distribution after temperature, top-k and top-p. -/
def effectiveProbabilities (logits : List (Option K)) (options : SamplingOptions K) :
    Fallible (SamplingError K) (List K) := do
  options.validate logits.length
  if options.temperature = 0 then
    let token ← sampleLogits exp cancelled logits options
    return (List.replicate logits.length 0).set token 1
  else
    let candidates ← scanCandidates cancelled logits
    rejectIf (cancelled .select = true) .aborted
    let selected := truncateTopK (options.activeTopK logits.length) candidates
    let ranked := selected.mergeSort descending
    rejectIf (cancelled .sorted = true) .aborted
    let (weighted, mass) ← weigh exp cancelled options.temperature ranked
    let (retained, total) ← retain cancelled options.topP weighted mass
    return (weighted.take retained).foldl
      (fun (probabilities : List K) candidate =>
        probabilities.set candidate.token (candidate.value / total))
      (List.replicate logits.length 0)

end Loops

end EffectTorch.Sampling
