import EffectTorch.Serve.CanonicalJson
import EffectTorch.Serve.DecisionNoise

/-!
# Plans of decisions

The schemas of `packages/serve/src/Decision.ts` and `plan` of `DecisionPlanner.ts`, from a request that
the schema has decoded. The options of a choice stand in the order of their enumeration.

Results:
1. `body_iff`: what the body of a prompt says.
2. `semanticKeyOf_iff`: questions have one key when their bodies say the same.
-/

namespace EffectTorch.DecisionPlanner
open List Lib Chat

/-! ## Contract -/

/-- A text, an object or an array. -/
def Json.isContent : Json → Bool
  | .string _ | .array _ | .object _ => true
  | _ => false

structure Content where
  value : Json
  distinct : value.Distinct
  content : value.isContent = true

/-- `NullOr(Content)`. -/
abbrev Description := Option Content

def Description.json : Description → Json
  | none => .null
  | some content => content.value

structure NoulCriteria where
  false : Description
  true : Description

inductive Question where
  | noul (instructions : Description) (criteria : NoulCriteria)
  | choice (instructions : Description) (criteria : List (Text × Description))
    (distinct : (criteria.map Prod.fst).Nodup) (bounds : 1 ≤ criteria.length ∧ criteria.length ≤ 255)
  | score (instructions : Description) (criteria : List Description)
    (bounds : 2 ≤ criteria.length ∧ criteria.length ≤ 10)

/-- `question.type`. -/
def Question.type : Question → Text
  | .noul .. => text "noul"
  | .choice .. => text "choice"
  | .score .. => text "score"

def Question.instructions : Question → Description
  | .noul instructions _ => instructions
  | .choice instructions .. => instructions
  | .score instructions .. => instructions

/-- A request after its decoding. -/
structure Request where
  model : Text
  state : Content
  questions : List (Text × Question)
  modelNonempty : model ≠ []
  distinct : (questions.map Prod.fst).Nodup
  nonempty : questions ≠ []

structure ModelConfig where
  modelId : Text
  nonempty : modelId ≠ []

structure ValidationError where
  message : Text
deriving DecidableEq

/-! ## Plans -/

/-- `Option`. -/
structure QuestionOption where
  name : Text
  description : Description

def optionsFor : Question → List QuestionOption
  | .noul _ criteria => [⟨text "false", criteria.false⟩, ⟨text "true", criteria.true⟩]
  | .choice _ criteria _ _ => criteria.map fun (name, description) => ⟨name, description⟩
  | .score _ criteria _ => criteria.zipIdx.map fun (description, index) => ⟨text (toString index), description⟩

structure QuestionPlan where
  model : Text
  state : Content
  semanticKey : Text
  prompt : Text
  question : Question
  options : List QuestionOption

structure Route where
  questionId : Text
  decision : QuestionPlan

structure RequestPlan where
  model : Text
  routes : List Route

def template : Text := text "decision-model/isolated-question/v1"

def optionJson (option : QuestionOption) : Json :=
  .object [(text "name", .string option.name), (text "description", option.description.json)]

/-- The argument of `canonicalJson`: choices are arrays of options before keys are sorted. -/
def body (state : Content) (question : Question) : Json :=
  .object [(text "state", state.value), (text "question", .object [(text "type", .string question.type),
    (text "instructions", question.instructions.json),
    (text "options", .array ((optionsFor question).map optionJson))])]

def promptOf (state : Content) (question : Question) : Text :=
  template ++ text "\nEvaluate this question using the supplied state.\n" ++ canonicalJson (body state question)

/-- `digest("hex")`. -/
def hex (digest : DecisionNoise.Digest) : Text :=
  digest.bytes.flatMap fun byte => [hexDigit (byte.toNat / 16), hexDigit (byte.toNat % 16)]

def identity (model prompt : Text) : Json := .object [(text "model", .string model), (text "prompt", .string prompt)]

/-- What is hashed. -/
def hashed (model prompt : Text) : List UInt8 := utf8 (canonicalJson (identity model prompt))

section Plan

variable (sha256 : List UInt8 → DecisionNoise.Digest)

def semanticKeyOf (model : Text) (state : Content) (question : Question) : Text :=
  hex (sha256 (hashed model (promptOf state question)))

def planQuestion (model : Text) (state : Content) (question : Question) : QuestionPlan :=
  ⟨model, state, semanticKeyOf sha256 model state question, promptOf state question, question, optionsFor question⟩

def plan (request : Request) (config : ModelConfig) : Except ValidationError RequestPlan :=
  if request.model ≠ config.modelId then .error ⟨text "Unsupported model: " ++ request.model⟩
  else .ok ⟨config.modelId, request.questions.map fun (questionId, question) =>
    ⟨questionId, planQuestion sha256 config.modelId request.state question⟩⟩

end Plan

/-! ## Meanings -/

/-- The name and the meaning of the description. -/
def QuestionOption.denote (option : QuestionOption) : Text × JsonValue := (option.name, option.description.json.denote)

/-- State, type, instructions and the options in their order are equal as JSON values. -/
structure SameMeaning (state state' : Content) (question question' : Question) : Prop where
  state_eq : state.value.denote = state'.value.denote
  type_eq : question.type = question'.type
  instructions_eq : question.instructions.json.denote = question'.instructions.json.denote
  options_eq : (optionsFor question).map QuestionOption.denote = (optionsFor question').map QuestionOption.denote

section Bodies

variable {state state' : Content} {question question' : Question}

theorem Description.distinct (description : Description) : description.json.Distinct := by
  cases description with
  | none => trivial
  | some content => exact content.distinct

theorem option_keys : [text "name", text "description"].Nodup := by decide

theorem optionJson_distinct (option : QuestionOption) : (optionJson option).Distinct :=
  ⟨option_keys, trivial, option.description.distinct, trivial⟩

theorem question_keys : [text "type", text "instructions", text "options"].Nodup := by decide

theorem body_keys : [text "state", text "question"].Nodup := by decide

theorem body_distinct (state : Content) (question : Question) : (body state question).Distinct := by
  have hoptions : distinctItems ((optionsFor question).map optionJson) := distinctItems_iff.mpr fun a ha => by
    obtain ⟨option, -, rfl⟩ := mem_map.mp ha
    exact optionJson_distinct option
  exact ⟨body_keys, state.distinct, ⟨question_keys, trivial, question.instructions.distinct, hoptions, trivial⟩, trivial⟩

theorem denote_object {fields fields' : List (Text × Json)} {keys : List Text} (hkeys : keys.Nodup)
    (h : fields.map Prod.fst = keys) (h' : fields'.map Prod.fst = keys) :
    (Json.object fields).denote = (Json.object fields').denote ↔
      (fields.map fun f => f.2.denote) = fields'.map fun f => f.2.denote := by
  rw [Json.denote, Json.denote, JsonValue.object.injEq, denoteFields_iff (h ▸ hkeys) (h.trans h'.symm)]

theorem optionJson_inj {option option' : QuestionOption} :
    (optionJson option).denote = (optionJson option').denote ↔ option.denote = option'.denote := by
  refine Iff.trans (denote_object option_keys rfl rfl) ?_
  simp only [map_cons, map_nil, Json.denote, List.cons.injEq, JsonValue.string.injEq, and_true,
    QuestionOption.denote, Prod.mk.injEq]

/-- What the body of a prompt says. -/
theorem body_iff : (body state question).denote = (body state' question').denote ↔ SameMeaning state state' question question' := by
  have hoptions : ((optionsFor question).map optionJson).map Json.denote = ((optionsFor question').map optionJson).map Json.denote ↔
      (optionsFor question).map QuestionOption.denote = (optionsFor question').map QuestionOption.denote := by
    rw [map_map, map_map]
    constructor
    · exact fun h => map_eq_of_map_eq h fun _ _ _ _ => optionJson_inj.mp
    · exact fun h => map_eq_of_map_eq h fun _ _ _ _ => optionJson_inj.mpr
  refine Iff.trans (denote_object body_keys rfl rfl) ?_
  simp only [map_cons, map_nil, List.cons.injEq, and_true]
  refine Iff.trans (and_congr_right' (denote_object question_keys rfl rfl)) ?_
  simp only [map_cons, map_nil, List.cons.injEq, and_true, Json.denote, JsonValue.string.injEq,
    JsonValue.array.injEq, denoteItems_eq, hoptions]
  constructor
  · rintro ⟨hstate, htype, hinstructions, hoptions⟩
    exact ⟨hstate, htype, hinstructions, hoptions⟩
  · rintro ⟨hstate, htype, hinstructions, hoptions⟩
    exact ⟨hstate, htype, hinstructions, hoptions⟩

end Bodies

/-! ## Keys -/

section Keys

variable {model : Text} {state state' : Content} {question question' : Question}
  {sha256 : List UInt8 → DecisionNoise.Digest}

theorem promptOf_iff : promptOf state question = promptOf state' question' ↔ SameMeaning state state' question question' := by
  rw [promptOf, promptOf, append_cancel_left_eq, canonicalJson_iff (body_distinct state question)
    (body_distinct state' question'), body_iff]

theorem identity_keys : [text "model", text "prompt"].Nodup := by decide

theorem identity_distinct (model prompt : Text) : (identity model prompt).Distinct := ⟨identity_keys, trivial, trivial, trivial⟩

/-- The prompts are known by what is hashed. -/
theorem hashed_iff (model : Text) {prompt prompt' : Text} : hashed model prompt = hashed model prompt' ↔ prompt = prompt' := by
  constructor
  · intro h
    have htext := utf8_inj (wellFormed_canonicalJson _) (wellFormed_canonicalJson _) h
    have hdenote := (canonicalJson_iff (identity_distinct model prompt) (identity_distinct model prompt')).mp htext
    have hvalues := (denote_object identity_keys rfl rfl).mp hdenote
    simp only [map_cons, map_nil, List.cons.injEq, Json.denote, JsonValue.string.injEq, and_true, true_and] at hvalues
    exact hvalues
  · rintro rfl
    rfl

theorem hexDigit_inj {n m : Nat} (hn : n < 16) (hm : m < 16) (h : hexDigit n = hexDigit m) : n = m := by
  rw [← hexValue_hexDigit hn, h, hexValue_hexDigit hm]

theorem hexByte_inj {b b' : UInt8} (hhigh : hexDigit (b.toNat / 16) = hexDigit (b'.toNat / 16))
    (hlow : hexDigit (b.toNat % 16) = hexDigit (b'.toNat % 16)) : b = b' := by
  have hdiv := hexDigit_inj (Nat.div_lt_of_lt_mul b.toNat_lt) (Nat.div_lt_of_lt_mul b'.toNat_lt) hhigh
  have hmod := hexDigit_inj (Nat.mod_lt _ (by decide)) (Nat.mod_lt _ (by decide)) hlow
  refine UInt8.toNat_inj.mp ?_
  rw [← Nat.div_add_mod b.toNat 16, hdiv, hmod, Nat.div_add_mod]

theorem hexBytes_inj {bytes bytes' : List UInt8} (hlength : bytes.length = bytes'.length)
    (h : (bytes.flatMap fun byte => [hexDigit (byte.toNat / 16), hexDigit (byte.toNat % 16)]) =
      bytes'.flatMap fun byte => [hexDigit (byte.toNat / 16), hexDigit (byte.toNat % 16)]) : bytes = bytes' := by
  induction bytes generalizing bytes' with
  | nil => rw [length_eq_zero_iff.mp hlength.symm]
  | cons b bytes ih =>
    cases bytes' with
    | nil => cases hlength
    | cons b' bytes' =>
      simp only [flatMap_cons, cons_append, nil_append, List.cons.injEq] at h
      rw [hexByte_inj h.1 h.2.1, ih (Nat.succ_inj.mp hlength) h.2.2]

/-- A digest is known by its text. -/
theorem hex_inj {digest digest' : DecisionNoise.Digest} (h : hex digest = hex digest') : digest = digest' := by
  obtain ⟨bytes, hlength⟩ := digest
  obtain ⟨bytes', hlength'⟩ := digest'
  cases hexBytes_inj (hlength.trans hlength'.symm) h
  rfl

/-- Questions have one key when their bodies say the same, unless what is hashed collides. -/
theorem semanticKeyOf_iff (hsha256 : sha256 (hashed model (promptOf state question)) =
    sha256 (hashed model (promptOf state' question')) →
      hashed model (promptOf state question) = hashed model (promptOf state' question')) :
    semanticKeyOf sha256 model state question = semanticKeyOf sha256 model state' question' ↔
      SameMeaning state state' question question' := by
  refine Iff.trans ?_ ((hashed_iff model).trans promptOf_iff)
  constructor
  · exact fun h => hsha256 (hex_inj h)
  · intro h
    rw [semanticKeyOf, semanticKeyOf, h]

end Keys

end EffectTorch.DecisionPlanner
