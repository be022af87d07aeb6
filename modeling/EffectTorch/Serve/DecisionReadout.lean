import EffectTorch.Core.Decision
import EffectTorch.Lib.InsertionMap
import EffectTorch.Serve.DecisionPlanner

/-!
# Readout of decisions

`packages/serve/src/DecisionReadout.ts`, over any arithmetic. A record is the list of its fields.
-/

namespace EffectTorch.DecisionReadout
open Lib Chat DecisionPlanner

/-- The operations on numbers. -/
structure Arithmetic (N : Type) extends Decision.Arithmetic N where
  mul : N → N → N

section Readout

variable {N : Type} (A : Arithmetic N)

/-! ## Distributions -/

def sum (values : List N) : N := Decision.sum A.toArithmetic values

def validateVector (values : List N) (count : Nat) : Except String Unit :=
  if count < 1 then .error "Option count must be a positive safe integer"
  else if values.length ≠ count then .error "Missing values or wrong option count"
  else match values.findIdx? fun value => !A.isFinite value with
    | some index => .error ("Missing or non-finite value at option " ++ toString index)
    | none => .ok ()

def probabilities (values : List N) (count : Nat) : Except String (List N) := do
  validateVector A values count
  if values.any (fun value => A.less value A.zero || A.less A.one value) then .error "Probabilities must be in [0, 1]" else
  let total := sum A values
  if A.atLeast A.zero total || A.less A.tolerance (A.abs (A.sub total A.one)) then .error "Probabilities must sum to one"
  else .ok (values.map (A.div · total))

/-- The message of a `DecisionError`. -/
def messageOf : Decision.Failure Empty → String
  | .decision message => message

def restrictedSoftmax (logits : List N) (optionCount : Nat) : Except String (List N) := do
  validateVector A logits optionCount
  (Decision.restrictedSoftmax A.toArithmetic logits optionCount).mapError messageOf

def meanProbabilities (reads : List (List N)) (optionCount : Nat) : Except String (List N) := do
  if reads = [] then .error "At least one probability read is required" else
  reads.forM fun read => validateVector A read optionCount
  (Decision.meanProbabilities A.toArithmetic reads optionCount).mapError messageOf

/-! ## Answers -/

/-- The first of the largest values. -/
def mode (values : List N) : Nat :=
  (List.range' 1 (values.length - 1)).foldl (fun best index =>
    if A.less (values.getD best A.zero) (values.getD index A.zero) then index else best) 0

def choiceConcentration (p : List N) : N :=
  if p.length = 1 then A.one else
  let uniform := A.div A.one (A.ofNat p.length)
  A.div (A.sub (p.getD (mode A p) A.zero) uniform) (A.sub A.one uniform)

def scoreConcentration (p : List N) : N :=
  if p.length = 1 then A.one else
  let modalIndex := A.ofNat (mode A p)
  let distance := sum A (p.zipIdx.map fun (value, index) => A.mul value (A.abs (A.sub (A.ofNat index) modalIndex)))
  let center := A.div (A.ofNat (p.length - 1)) (A.ofNat 2)
  let uniformDistance := A.div (sum A (p.zipIdx.map fun (_, index) => A.abs (A.sub (A.ofNat index) center))) (A.ofNat p.length)
  A.max A.zero (A.sub A.one (A.div distance uniformDistance))

inductive Answer (N : Type) where
  | noul (noul : N)
  | choice (choice : Text) (probabilities : List (Text × N)) (confidence : N)
  | score (score : N) (legend : List (Text × Description)) (probabilities : List (Text × N)) (confidence : N)

def answerFromProbabilities (question : Question) (values : List N) : Except String (Answer N) := do
  let options := optionsFor question
  let p ← probabilities A values options.length
  let distribution := (options.map QuestionOption.name).zip p
  match question with
  | .noul .. => .ok (.noul (p.getD 1 A.zero))
  | .choice .. =>
    .ok (.choice (((options.map QuestionOption.name)[mode A p]?).getD []) distribution (choiceConcentration A p))
  | .score .. =>
    .ok (.score (sum A (p.zipIdx.map fun (value, index) => A.mul (A.ofNat index) value))
      (options.map fun option => (option.name, option.description)) distribution (scoreConcentration A p))

def answerFromLogits (question : Question) (reads : List (List N)) : Except String (Answer N) := do
  if reads = [] then .error "At least one logit read is required" else
  let count := (optionsFor question).length
  let distributions ← reads.mapM fun read => restrictedSoftmax A read count
  let average ← meanProbabilities A distributions count
  answerFromProbabilities A question average

/-! ## Responses -/

/-- Token counts, which the schema takes when they are safe integers. -/
structure Usage where
  inputTokens : Nat
  outputTokens : Nat
deriving DecidableEq

def Usage.valid (usage : Usage) : Prop := usage.inputTokens < 2 ^ 53 ∧ usage.outputTokens < 2 ^ 53

instance (usage : Usage) : Decidable usage.valid := inferInstanceAs (Decidable (_ ∧ _))

structure Response (N : Type) where
  model : Text
  answers : List (Text × Answer N)
  usage : Usage

/-- The turn of the loop over the routes. -/
def answerRoute (readsByKey : List (Text × List (List N))) (route : Route) : Except String (Text × Answer N) :=
  match InsertionMap.get readsByKey route.decision.semanticKey with
  | none => .error "Missing question result"
  | some reads => do
    let answer ← answerFromLogits A route.decision.question reads
    .ok (route.questionId, answer)

/-- `usageMessage` is what the schema says of counts that it does not take. -/
def responseFromLogits (usageMessage : Usage → String) (plan : RequestPlan) (readsByKey : List (Text × List (List N)))
    (usage : Usage) : Except String (Response N) := do
  if ¬ usage.valid then .error (usageMessage usage) else
  let answers ← plan.routes.mapM (answerRoute A readsByKey)
  .ok ⟨plan.model, answers, usage⟩

end Readout

end EffectTorch.DecisionReadout
