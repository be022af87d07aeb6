import EffectTorch.Serve.DecisionReadout
import Mathlib.Algebra.Order.BigOperators.Group.List
import Mathlib.Algebra.Order.Monoid.NatCast

/-!
# Execution of decisions

`execute` of `packages/serve/src/DecisionEngine.ts` on an open engine, and `prepareRead` of
`DecisionScaffold.ts`. A prefix is a function of its tokens: that cached prefixes are shared does not show.

Results:
1. `Evaluate.unique`: a question that is evaluated has one result.
2. `semanticKey_routes`: questions that mean the same share a key and no others do, so that every question
   of a request gets the answer that it gets alone.
-/

namespace EffectTorch.DecisionExecution
open List Lib Chat DecisionPlanner DecisionReadout

/-! ## Scaffolds -/

structure Scaffold where
  semanticKey : Text
  model : Text
  vocabularySize : Number
  slot : Nat
  prefixIds : List UInt32
  canvasIds : List UInt32
  allowedTokenIds : List UInt32

structure Read where
  semanticKey : Text
  readIndex : Nat
  slot : Nat
  prefixIds : List UInt32
  canvasIds : List UInt32
  allowedTokenIds : List UInt32

/-- `fuel`: the noise has not been drawn within the fuel. -/
inductive Failure (ε : Type) where
  | engine (message : String)
  | validation (failure : ValidationError)
  | noise (failure : DecisionNoise.NoiseError)
  | readout (message : String)
  | runtime (failure : ε)
  | fuel

def integer (n : Nat) : Number := ⟨some n, text (toString n)⟩

/-- Only the slot of the answer is noise. -/
def prepareRead {ε : Type} (noise : DecisionNoise.Runtime) (fuel : Nat) (scaffold : Scaffold) (seed : Text) (readIndex : Nat) :
    Except (Failure ε) Read :=
  match DecisionNoise.make noise fuel ⟨scaffold.semanticKey, seed, integer readIndex, integer 1, scaffold.vocabularySize, []⟩ with
  | none => .error .fuel
  | some (.error e) => .error (.noise e)
  | some (.ok tokens) => .ok ⟨scaffold.semanticKey, readIndex, scaffold.slot, scaffold.prefixIds,
      scaffold.canvasIds.set scaffold.slot (tokens.headD 0), scaffold.allowedTokenIds⟩

/-! ## The engine -/

structure Runtime (Prefix N ε : Type) where
  prefill : List UInt32 → Except ε Prefix
  read : Prefix → List UInt32 → Nat → List UInt32 → Except ε (List N)

structure Options (Prefix N ε : Type) where
  config : ModelConfig
  runtime : Runtime Prefix N ε
  prepare : QuestionPlan → Except ε Scaffold
  maxActiveQuestions : Nat
  maxPrefixTokens : Nat
  active_pos : 1 ≤ maxActiveQuestions

structure Settings where
  seed : Text
  reads : Nat
  valid : reads = 1 ∨ reads = 4

/-- What is not the engine's: numbers, hashes and noise, and the message of the schema of counts. -/
structure Platform (N : Type) where
  arithmetic : Arithmetic N
  noise : DecisionNoise.Runtime
  fuel : Nat
  usageMessage : Usage → String

structure Evaluated (N : Type) where
  key : Text
  logits : List (List N)
  inputTokens : Nat
  canvasTokens : Nat

section Execution

variable {Prefix N ε : Type} (platform : Platform N) (options : Options Prefix N ε) (settings : Settings)

/-- Everything before the reads. -/
def start (model : Text) (question : QuestionPlan) : Except (Failure ε) (Scaffold × Prefix) := do
  let scaffold ← (options.prepare question).mapError .runtime
  if scaffold.model ≠ model then .error (.engine "Prepared scaffold uses a different model") else
  if scaffold.prefixIds.length = 0 ∨ options.maxPrefixTokens < scaffold.prefixIds.length then
    .error (.engine "Prompt exceeds the configured token bound") else
  let cached ← (options.runtime.prefill scaffold.prefixIds).mapError .runtime
  .ok (scaffold, cached)

def readTask (scaffold : Scaffold) (cached : Prefix) (readIndex : Nat) : Except (Failure ε) (List N) := do
  let prepared ← prepareRead platform.noise platform.fuel scaffold settings.seed readIndex
  (options.runtime.read cached prepared.canvasIds prepared.slot prepared.allowedTokenIds).mapError .runtime

def readTasks (scaffold : Scaffold) (cached : Prefix) : List (Except (Failure ε) (List N)) :=
  (List.range settings.reads).map (readTask platform options settings scaffold cached)

def evaluated (question : QuestionPlan) (scaffold : Scaffold) (logits : List (List N)) : Evaluated N :=
  ⟨question.semanticKey, logits, scaffold.prefixIds.length, scaffold.canvasIds.length * settings.reads⟩

/-- The outcomes of one question: its reads end in any order. -/
inductive Evaluate (model : Text) (question : QuestionPlan) : Except (Failure ε) (Evaluated N) → Prop
  | stopped {e : Failure ε} : start options model question = .error e → Evaluate model question (.error e)
  | read {scaffold : Scaffold} {cached : Prefix} {results : Except (Failure ε) (List (List N))} :
      start options model question = .ok (scaffold, cached) →
      Finishes (readTasks platform options settings scaffold cached) settings.reads results →
      Evaluate model question (results.map (evaluated settings question scaffold))

/-- One question for each key. -/
def unique (plan : RequestPlan) : List QuestionPlan :=
  (InsertionMap.ofEntries (plan.routes.map fun route => (route.decision.semanticKey, route.decision))).map Prod.snd

def usageOf (results : List (Evaluated N)) : Usage :=
  ⟨(results.map Evaluated.inputTokens).sum, (results.map Evaluated.canvasTokens).sum⟩

def respond (plan : RequestPlan) (results : List (Evaluated N)) : Except (Failure ε) (Response N) :=
  (responseFromLogits platform.arithmetic platform.usageMessage plan
    (InsertionMap.ofEntries (results.map fun result => (result.key, result.logits))) (usageOf results)).mapError .readout

/-- The outcomes of a request: its questions end in any order. -/
inductive Execute (request : Request) : Except (Failure ε) (Response N) → Prop
  | rejected {e : ValidationError} : plan platform.noise.sha256 request options.config = .error e →
      Execute request (.error (.validation e))
  | planned {p : RequestPlan} {tasks : List (Except (Failure ε) (Evaluated N))}
      {results : Except (Failure ε) (List (Evaluated N))} : plan platform.noise.sha256 request options.config = .ok p →
      List.Forall₂ (Evaluate platform options settings p.model) (unique p) tasks →
      Finishes tasks options.maxActiveQuestions results →
      Execute request (results >>= respond platform p)

end Execution

/-! ## One question -/

section Question

variable {Prefix N ε : Type} {platform : Platform N} {options : Options Prefix N ε}
  {settings : Settings} {model : Text}
  {question question' : QuestionPlan} {result : Evaluated N} {outcome : Except (Failure ε) (Evaluated N)}

theorem evaluate_ok : Evaluate platform options settings model question (.ok result) ↔ ∃ scaffold cached logits,
    start options model question = .ok (scaffold, cached) ∧
      Finishes (readTasks platform options settings scaffold cached) settings.reads (.ok logits) ∧
      result = evaluated settings question scaffold logits := by
  constructor
  · intro h
    generalize hresult : Except.ok result = outcome at h
    cases h with
    | stopped => cases hresult
    | @read scaffold cached results hstart hreads =>
      cases results with
      | error e => cases hresult
      | ok logits => exact ⟨scaffold, cached, logits, hstart, hreads, Except.ok.inj hresult⟩
  · rintro ⟨scaffold, cached, logits, hstart, hreads, rfl⟩
    exact .read hstart hreads

/-- A question that is evaluated has one result. -/
theorem Evaluate.unique (h : Evaluate platform options settings model question (.ok result))
    (h' : Evaluate platform options settings model question outcome) : outcome = .ok result := by
  obtain ⟨scaffold, cached, logits, hstart, hreads, rfl⟩ := evaluate_ok.mp h
  cases h' with
  | stopped herror => cases hstart.symm.trans herror
  | read hstart' hreads' =>
    cases hstart.symm.trans hstart'
    rw [hreads'.eq_ok hreads.eq_map]
    rfl

/-- Only the scaffold and the key of a question count. -/
theorem Evaluate.congr (hprepare : options.prepare question = options.prepare question')
    (hkey : question.semanticKey = question'.semanticKey) (h : Evaluate platform options settings model question outcome) :
    Evaluate platform options settings model question' outcome := by
  have hstart : start options model question = start options model question' := by
    rw [start, start, hprepare]
  cases h with
  | stopped herror => exact .stopped (hstart ▸ herror)
  | @read scaffold cached results hok hreads =>
    have hevaluated : evaluated settings question scaffold = evaluated (N := N) settings question' scaffold :=
      funext fun logits => by rw [evaluated, evaluated, hkey]
    rw [hevaluated]
    exact .read (hstart ▸ hok) hreads

theorem exists_evaluate : ∃ outcome, Evaluate platform options settings model question outcome := by
  cases hstart : start options model question with
  | error e => exact ⟨_, .stopped hstart⟩
  | ok started =>
    have hpos : 0 < settings.reads := by
      rcases settings.valid with h | h
      · rw [h]; decide
      · rw [h]; decide
    obtain ⟨results, hresults⟩ := @exists_finishes _ _ (readTasks platform options settings started.1 started.2) _ hpos
    exact ⟨_, .read hstart hresults⟩

end Question

/-! ## Routes -/

/-- The scaffold of a question depends on its meaning only. -/
def ReadsMeaning {ε : Type} (sha256 : List UInt8 → DecisionNoise.Digest) (prepare : QuestionPlan → Except ε Scaffold) : Prop :=
  ∀ (model : Text) {state state' : Content} {question question' : Question}, SameMeaning state state' question question' →
    prepare (planQuestion sha256 model state question) = prepare (planQuestion sha256 model state' question')

/-- What is hashed for the questions of a request does not collide. -/
def NoCollision (sha256 : List UInt8 → DecisionNoise.Digest) (model : Text) (request : Request) : Prop :=
  ∀ p ∈ request.questions, ∀ p' ∈ request.questions,
    sha256 (hashed model (promptOf request.state p.2)) = sha256 (hashed model (promptOf request.state p'.2)) →
      hashed model (promptOf request.state p.2) = hashed model (promptOf request.state p'.2)

section Routes

variable {Prefix N ε : Type} {platform : Platform N} {options : Options Prefix N ε}
  {settings : Settings} {request : Request}
  {p : RequestPlan} {results : List (Evaluated N)}

theorem plan_ok : plan platform.noise.sha256 request options.config = .ok p ↔ request.model = options.config.modelId ∧
    p = ⟨options.config.modelId, request.questions.map fun q =>
      ⟨q.1, planQuestion platform.noise.sha256 options.config.modelId request.state q.2⟩⟩ := by
  unfold plan
  split
  · next h => exact ⟨nofun, fun h' => absurd h'.1 h⟩
  · next h =>
    rw [Except.ok.injEq, eq_comm]
    exact ⟨fun hp => ⟨not_not.mp h, hp⟩, And.right⟩

/-- One question for each key: a route with the same key. -/
theorem mem_unique {decision : QuestionPlan} (h : decision ∈ unique p) : ∃ route ∈ p.routes, route.decision = decision := by
  obtain ⟨entry, hentry, rfl⟩ := mem_map.mp h
  obtain ⟨route, hroute, rfl⟩ := mem_map.mp (InsertionMap.mem_ofEntries hentry)
  exact ⟨route, hroute, rfl⟩

theorem exists_unique {route : Route} (h : route ∈ p.routes) :
    ∃ decision ∈ unique p, decision.semanticKey = route.decision.semanticKey := by
  have hkey : route.decision.semanticKey ∈ (p.routes.map fun route => (route.decision.semanticKey, route.decision)).map Prod.fst := by
    rw [map_map]
    exact mem_map.mpr ⟨route, h, rfl⟩
  obtain ⟨entry, hentry, heq⟩ := mem_map.mp (InsertionMap.exists_ofEntries hkey)
  obtain ⟨route', _, rfl⟩ := mem_map.mp (InsertionMap.mem_ofEntries hentry)
  exact ⟨_, mem_map_of_mem hentry, heq⟩

/-- Two routes with one key have one outcome. -/
theorem evaluate_route (hprepare : ReadsMeaning platform.noise.sha256 options.prepare)
    (hsha256 : NoCollision platform.noise.sha256 options.config.modelId request)
    (hplan : plan platform.noise.sha256 request options.config = .ok p) {route route' : Route} (h : route ∈ p.routes)
    (h' : route' ∈ p.routes) (hkey : route.decision.semanticKey = route'.decision.semanticKey)
    {outcome : Except (Failure ε) (Evaluated N)} (houtcome : Evaluate platform options settings p.model route.decision outcome) :
    Evaluate platform options settings p.model route'.decision outcome := by
  obtain ⟨_, rfl⟩ := plan_ok.mp hplan
  obtain ⟨q, hq, rfl⟩ := mem_map.mp h
  obtain ⟨q', hq', rfl⟩ := mem_map.mp h'
  have hmeaning := (semanticKeyOf_iff (hsha256 q hq q' hq')).mp hkey
  exact houtcome.congr (hprepare _ hmeaning) hkey

/-- What the results of the questions lead to under the key of a route. -/
theorem get_route (hprepare : ReadsMeaning platform.noise.sha256 options.prepare)
    (hsha256 : NoCollision platform.noise.sha256 options.config.modelId request)
    (hplan : plan platform.noise.sha256 request options.config = .ok p)
    (hresults : List.Forall₂ (fun decision result => Evaluate platform options settings p.model decision (.ok result)) (unique p) results)
    {route : Route} (h : route ∈ p.routes) : ∃ result ∈ results,
      InsertionMap.get (InsertionMap.ofEntries (results.map fun result => (result.key, result.logits)))
        route.decision.semanticKey = some result.logits ∧
      Evaluate platform options settings p.model route.decision (.ok result) := by
  have hkeyOf : ∀ {decision : QuestionPlan} {result : Evaluated N},
      Evaluate platform options settings p.model decision (.ok result) → result.key = decision.semanticKey := by
    intro decision result hresult
    obtain ⟨_, _, _, _, _, rfl⟩ := evaluate_ok.mp hresult
    rfl
  obtain ⟨decision, hdecision, hkey⟩ := exists_unique h
  obtain ⟨result, hresult, hevaluated⟩ := mem_of_forall₂_right hresults.flip hdecision
  have hmem : route.decision.semanticKey ∈ (results.map fun result => (result.key, result.logits)).map Prod.fst := by
    rw [map_map, ← hkey, ← hkeyOf hevaluated]
    exact mem_map.mpr ⟨result, hresult, rfl⟩
  obtain ⟨entry, hentry, heq⟩ := mem_map.mp (InsertionMap.exists_ofEntries hmem)
  obtain ⟨result, hresult, rfl⟩ := mem_map.mp (InsertionMap.mem_ofEntries hentry)
  obtain ⟨decision, hdecision, hevaluated⟩ := mem_of_forall₂_right hresults hresult
  obtain ⟨route', hroute', rfl⟩ := mem_unique hdecision
  have hkey : route'.decision.semanticKey = route.decision.semanticKey := (hkeyOf hevaluated).symm.trans heq
  refine ⟨result, hresult, ?_, evaluate_route hprepare hsha256 hplan hroute' h hkey hevaluated⟩
  rw [InsertionMap.get_eq (InsertionMap.nodup_ofEntries _), ← heq]
  exact hentry

theorem respond_ok {response : Response N} : respond (ε := ε) platform p results = .ok response ↔
    (usageOf results).valid ∧ ∃ answers, p.routes.mapM (answerRoute platform.arithmetic
      (InsertionMap.ofEntries (results.map fun result => (result.key, result.logits)))) = .ok answers ∧
      response = ⟨p.model, answers, usageOf results⟩ := by
  rw [respond, mapError_ok, responseFromLogits]
  split
  · next h => exact ⟨nofun, fun h' => absurd h'.1 h⟩
  · next h =>
    rw [bind_ok]
    simp only [Except.ok.injEq]
    constructor
    · rintro ⟨answers, hanswers, rfl⟩
      exact ⟨not_not.mp h, answers, hanswers, rfl⟩
    · rintro ⟨-, answers, hanswers, rfl⟩
      exact ⟨answers, hanswers, rfl⟩

theorem answerRoute_ok {A : Arithmetic N} {readsByKey : List (Text × List (List N))} {route : Route} {reads : List (List N)}
    (h : InsertionMap.get readsByKey route.decision.semanticKey = some reads) {entry : Text × Answer N} :
    answerRoute A readsByKey route = .ok entry ↔
      answerFromLogits A route.decision.question reads = .ok entry.2 ∧ entry.1 = route.questionId := by
  rw [answerRoute, h]
  refine bind_ok.trans ?_
  constructor
  · rintro ⟨answer, hanswer, heq⟩
    cases heq
    exact ⟨hanswer, rfl⟩
  · rintro ⟨hanswer, hid⟩
    exact ⟨entry.2, hanswer, congrArg Except.ok (Prod.ext hid.symm rfl)⟩

/-- A request that is answered: every question has been evaluated. -/
theorem execute_ok {response : Response N} {outcome : Except (Failure ε) (Response N)}
    (h : Execute platform options settings request outcome) (hresponse : outcome = .ok response) : ∃ p results,
      plan platform.noise.sha256 request options.config = .ok p ∧
      List.Forall₂ (fun decision result => Evaluate platform options settings p.model decision (.ok result)) (unique p) results ∧
      respond (ε := ε) platform p results = .ok response := by
  cases h with
  | rejected => cases hresponse
  | @planned p tasks results hplan htasks hfinishes =>
    obtain ⟨results, rfl, hrespond⟩ := bind_ok.mp hresponse
    rw [hfinishes.eq_map, forall₂_map_right_iff] at htasks
    exact ⟨p, results, hplan, htasks, hrespond⟩

end Routes

/-! ## Isolation -/

/-- The request with one question only. -/
def alone (request : Request) (questionId : Text) (question : Question) : Request :=
  { request with questions := [(questionId, question)], distinct := nodup_singleton _, nonempty := cons_ne_nil _ _ }

section Isolation

variable {Prefix N ε : Type} {platform : Platform N} {options : Options Prefix N ε}
  {settings : Settings} {request : Request}
  {p : RequestPlan} {results : List (Evaluated N)}

theorem exists_execute (request : Request) : ∃ outcome, Execute platform options settings request outcome := by
  cases hplan : plan platform.noise.sha256 request options.config with
  | error e => exact ⟨_, .rejected hplan⟩
  | ok p =>
    obtain ⟨tasks, htasks⟩ := exists_forall₂ fun decision _ =>
      @exists_evaluate _ _ _ platform options settings p.model decision
    obtain ⟨results, hresults⟩ := @exists_finishes _ _ tasks _ options.active_pos
    exact ⟨_, .planned hplan htasks hresults⟩

theorem tasks_eq {decisions : List QuestionPlan} {tasks : List (Except (Failure ε) (Evaluated N))} {model : Text}
    (h : List.Forall₂ (Evaluate platform options settings model) decisions tasks)
    (hresults : List.Forall₂ (fun decision result => Evaluate platform options settings model decision (.ok result)) decisions results) :
    tasks = results.map .ok := by
  induction hresults generalizing tasks with
  | nil =>
    cases h
    rfl
  | cons hresult _ ih =>
    cases h with
    | cons htask htasks => rw [hresult.unique htask, ih htasks, map_cons]

/-- When every question is evaluated, the response is up to the readout. -/
theorem execute_eq (hplan : plan platform.noise.sha256 request options.config = .ok p)
    (hresults : List.Forall₂ (fun decision result => Evaluate platform options settings p.model decision (.ok result)) (unique p) results)
    {outcome : Except (Failure ε) (Response N)} (h : Execute platform options settings request outcome) :
    outcome = respond platform p results := by
  cases h with
  | rejected hrejected => cases hplan.symm.trans hrejected
  | planned hplan' htasks hfinishes =>
    cases hplan.symm.trans hplan'
    rw [hfinishes.eq_ok (tasks_eq htasks hresults)]
    rfl

/-- Alone, the question has this answer. -/
def AnsweredAlone (platform : Platform N) (options : Options Prefix N ε) (settings : Settings) (request : Request) (questionId : Text)
    (question : Question) (answer : Answer N) : Prop :=
  (∃ outcome, Execute platform options settings (alone request questionId question) outcome) ∧
    ∀ outcome, Execute platform options settings (alone request questionId question) outcome →
      ∃ response, outcome = .ok response ∧ response.answers = [(questionId, answer)]

theorem answeredAlone (hmodel : request.model = options.config.modelId) {question : Question} {result : Evaluated N} {answer : Answer N}
    (hresult : Evaluate platform options settings options.config.modelId
      (planQuestion platform.noise.sha256 options.config.modelId request.state question) (.ok result))
    (hvalid : (usageOf [result]).valid) (hanswer : answerFromLogits platform.arithmetic question result.logits = .ok answer)
    (questionId : Text) : AnsweredAlone platform options settings request questionId question answer := by
  refine ⟨exists_execute _, fun outcome houtcome => ?_⟩
  have hplan : plan platform.noise.sha256 (alone request questionId question) options.config = .ok ⟨options.config.modelId,
      [⟨questionId, planQuestion platform.noise.sha256 options.config.modelId request.state question⟩]⟩ :=
    plan_ok.mpr ⟨hmodel, rfl⟩
  have hkey : result.key = semanticKeyOf platform.noise.sha256 options.config.modelId request.state question := by
    obtain ⟨_, _, _, _, _, rfl⟩ := evaluate_ok.mp hresult
    rfl
  have hget : InsertionMap.get (InsertionMap.ofEntries [(result.key, result.logits)])
      (semanticKeyOf platform.noise.sha256 options.config.modelId request.state question) = some result.logits := by
    rw [InsertionMap.get_eq (InsertionMap.nodup_ofEntries _), ← hkey]
    exact mem_singleton.mpr rfl
  refine ⟨⟨options.config.modelId, [(questionId, answer)], usageOf [result]⟩, ?_, rfl⟩
  rw [execute_eq hplan (.cons hresult .nil) houtcome]
  refine respond_ok.mpr ⟨hvalid, _, mapM_forall₂.mpr (.cons ?_ .nil), rfl⟩
  exact (answerRoute_ok hget).mpr ⟨hanswer, rfl⟩

theorem usageOf_single {result : Evaluated N} (h : result ∈ results) (hvalid : (usageOf results).valid) : (usageOf [result]).valid := by
  have hle : ∀ f : Evaluated N → Nat, (([result] : List (Evaluated N)).map f).sum ≤ (results.map f).sum := fun f => by
    rw [map_singleton, sum_singleton]
    exact le_sum_of_mem (mem_map_of_mem h)
  exact ⟨Nat.lt_of_le_of_lt (hle _) hvalid.1, Nat.lt_of_le_of_lt (hle _) hvalid.2⟩

/-- A question of an answered request has its answer, and alone it has the same. -/
theorem execute_alone (hprepare : ReadsMeaning platform.noise.sha256 options.prepare)
    (hsha256 : NoCollision platform.noise.sha256 options.config.modelId request) {response : Response N}
    (h : Execute platform options settings request (.ok response)) {q : Text × Question} (hq : q ∈ request.questions) :
    ∃ answer, (q.1, answer) ∈ response.answers ∧
      ∀ questionId, AnsweredAlone platform options settings request questionId q.2 answer := by
  obtain ⟨p, results, hplan, hresults, hrespond⟩ := execute_ok h rfl
  obtain ⟨hvalid, answers, hanswers, rfl⟩ := respond_ok.mp hrespond
  obtain ⟨hmodel, hp⟩ := plan_ok.mp hplan
  have hroute : (⟨q.1, planQuestion platform.noise.sha256 options.config.modelId request.state q.2⟩ : Route) ∈ p.routes := by
    rw [hp]
    exact mem_map_of_mem hq
  obtain ⟨result, hresult, hget, hevaluated⟩ := get_route hprepare hsha256 hplan hresults hroute
  obtain ⟨⟨_, answer⟩, hentry, hanswer⟩ := mapM_mem_left hanswers hroute
  obtain ⟨hanswer, rfl⟩ := (answerRoute_ok hget).mp hanswer
  refine ⟨answer, hentry, answeredAlone hmodel ?_ (usageOf_single hresult hvalid) hanswer⟩
  rw [hp] at hevaluated
  exact hevaluated

/-- A request whose questions are all answered alone is answered, as long as its tokens can be counted. -/
theorem execute_answered (hprepare : ReadsMeaning platform.noise.sha256 options.prepare)
    (hsha256 : NoCollision platform.noise.sha256 options.config.modelId request)
    (hall : ∀ q ∈ request.questions, ∃ response, Execute platform options settings (alone request q.1 q.2) (.ok response))
    {outcome : Except (Failure ε) (Response N)} (h : Execute platform options settings request outcome) :
    (∃ response, outcome = .ok response) ∨
      ∃ usage : Usage, ¬ usage.valid ∧ outcome = .error (.readout (platform.usageMessage usage)) := by
  -- every route alone: its result, and its answer
  have hroute : ∀ q ∈ request.questions, request.model = options.config.modelId ∧ ∃ result answer,
      Evaluate platform options settings options.config.modelId
        (planQuestion platform.noise.sha256 options.config.modelId request.state q.2) (.ok result) ∧
      answerFromLogits platform.arithmetic q.2 result.logits = .ok answer := by
    intro q hq
    obtain ⟨response, hresponse⟩ := hall q hq
    obtain ⟨p, results, hplan, hresults, hrespond⟩ := execute_ok hresponse rfl
    obtain ⟨hmodel, rfl⟩ := plan_ok.mp hplan
    have hsingle : NoCollision platform.noise.sha256 options.config.modelId (alone request q.1 q.2) := by
      intro q₁ hq₁ q₂ hq₂ _
      rw [mem_singleton.mp hq₁, mem_singleton.mp hq₂]
    obtain ⟨-, answers, hanswers, rfl⟩ := respond_ok.mp hrespond
    obtain ⟨result, -, hget, hevaluated⟩ := get_route hprepare hsingle hplan hresults mem_cons_self
    obtain ⟨entry, -, hanswer⟩ := mapM_mem_left hanswers mem_cons_self
    exact ⟨hmodel, result, entry.2, hevaluated, ((answerRoute_ok hget).mp hanswer).1⟩
  obtain ⟨first, hfirst⟩ := exists_mem_of_ne_nil _ request.nonempty
  obtain ⟨p, hp⟩ : ∃ p : RequestPlan, p = ⟨options.config.modelId, request.questions.map fun q =>
    ⟨q.1, planQuestion platform.noise.sha256 options.config.modelId request.state q.2⟩⟩ := ⟨_, rfl⟩
  have hplan : plan platform.noise.sha256 request options.config = .ok p := plan_ok.mpr ⟨(hroute first hfirst).1, hp⟩
  have hroutes : ∀ route ∈ p.routes, ∃ result answer, Evaluate platform options settings p.model route.decision (.ok result) ∧
      answerFromLogits platform.arithmetic route.decision.question result.logits = .ok answer := by
    subst hp
    intro route hmem
    obtain ⟨q, hq, rfl⟩ := mem_map.mp hmem
    exact (hroute q hq).2
  obtain ⟨results, hresults⟩ : ∃ results, List.Forall₂ (fun decision result =>
      Evaluate platform options settings p.model decision (.ok result)) (unique p) results :=
    exists_forall₂ fun decision hdecision => by
      obtain ⟨route, hmem, rfl⟩ := mem_unique hdecision
      obtain ⟨result, -, hresult, -⟩ := hroutes route hmem
      exact ⟨result, hresult⟩
  rw [execute_eq hplan hresults h]
  by_cases hvalid : (usageOf results).valid
  · refine .inl ?_
    obtain ⟨answers, hanswers⟩ : ∃ answers, List.Forall₂ (fun route entry => answerRoute platform.arithmetic
        (InsertionMap.ofEntries (results.map fun result => (result.key, result.logits))) route = .ok entry) p.routes answers :=
      exists_forall₂ fun route hmem => by
        obtain ⟨result, -, hget, hevaluated⟩ := get_route hprepare hsha256 hplan hresults hmem
        obtain ⟨result', answer, hresult', hanswer⟩ := hroutes route hmem
        cases hresult'.unique hevaluated
        exact ⟨(route.questionId, answer), (answerRoute_ok hget).mpr ⟨hanswer, rfl⟩⟩
    exact ⟨_, respond_ok.mpr ⟨hvalid, answers, mapM_forall₂.mpr hanswers, rfl⟩⟩
  · refine .inr ⟨usageOf results, hvalid, ?_⟩
    rw [respond, responseFromLogits, if_pos hvalid]
    rfl

theorem execute_ids {response : Response N} (h : Execute platform options settings request (.ok response)) :
    response.answers.map Prod.fst = request.questions.map Prod.fst := by
  obtain ⟨p, results, hplan, hresults, hrespond⟩ := execute_ok h rfl
  obtain ⟨-, answers, hanswers, rfl⟩ := respond_ok.mp hrespond
  obtain ⟨-, rfl⟩ := plan_ok.mp hplan
  refine (map_eq_of_forall₂ (f := Route.questionId) (mapM_forall₂.mp hanswers) fun route entry hentry => ?_).trans ?_
  · rw [answerRoute] at hentry
    split at hentry
    · cases hentry
    · obtain ⟨answer, -, heq⟩ := bind_ok.mp hentry
      cases heq
      rfl
  · rw [map_map]
    rfl

/-- Questions that mean the same share a key, and no others do; every question of a request gets the answer
that it gets alone. -/
theorem semanticKey_routes (platform : Platform N) (options : Options Prefix N ε) (settings : Settings)
    (hprepare : ReadsMeaning platform.noise.sha256 options.prepare) :
    (∀ (model : Text) (state state' : Content) (question question' : Question),
      (platform.noise.sha256 (hashed model (promptOf state question)) =
          platform.noise.sha256 (hashed model (promptOf state' question')) →
        hashed model (promptOf state question) = hashed model (promptOf state' question')) →
      (semanticKeyOf platform.noise.sha256 model state question = semanticKeyOf platform.noise.sha256 model state' question' ↔
        SameMeaning state state' question question')) ∧
    ∀ request : Request, NoCollision platform.noise.sha256 options.config.modelId request →
      (∀ response, Execute platform options settings request (.ok response) →
        response.answers.map Prod.fst = request.questions.map Prod.fst ∧
        ∀ q ∈ request.questions, ∃ answer, (q.1, answer) ∈ response.answers ∧
          ∀ questionId, AnsweredAlone platform options settings request questionId q.2 answer) ∧
      ((∀ q ∈ request.questions, ∃ response, Execute platform options settings (alone request q.1 q.2) (.ok response)) →
        ∀ outcome, Execute platform options settings request outcome → (∃ response, outcome = .ok response) ∨
          ∃ usage : Usage, ¬ usage.valid ∧ outcome = .error (.readout (platform.usageMessage usage))) := by
  refine ⟨fun model state state' question question' => semanticKeyOf_iff, fun request hsha256 => ⟨fun response h => ?_, ?_⟩⟩
  · exact ⟨execute_ids h, fun q hq => execute_alone hprepare hsha256 h hq⟩
  · exact fun hall outcome h => execute_answered hprepare hsha256 hall h

/-- Numbers that are whole. -/
def wholeNumbers : Arithmetic Int where
  zero := 0
  one := 1
  add := (· + ·)
  sub := (· - ·)
  div := (· / ·)
  max := max
  abs a := a.natAbs
  exp _ := 1
  less a b := a < b
  atLeast a b := b ≤ a
  isFinite _ := true
  ofNat n := n
  tolerance := 0
  mul := (· * ·)

def wholePlatform : Platform Int := ⟨wholeNumbers, DecisionNoise.constantRuntime, 1, fun _ => ""⟩

/-- The slot is the first token of the canvas. -/
def oneSlot : Scaffold := ⟨text "key", text "m", ⟨some 3, text "3"⟩, 0, [2], [0, 106], [7]⟩

def oneLogit : Options Unit Int Empty where
  config := ⟨text "m", cons_ne_nil _ _⟩
  runtime := ⟨fun _ => .ok (), fun _ _ _ _ => .ok [5]⟩
  prepare _ := .ok oneSlot
  maxActiveQuestions := 1
  maxPrefixTokens := 8
  active_pos := Nat.le_refl 1

def oneRead : Settings := ⟨[], 1, .inl rfl⟩

def onlyOption : Question := .choice none [(text "x", none)] (nodup_singleton _) (by decide)

/-- One question under two names. -/
def twoNames : Request where
  model := text "m"
  state := ⟨.string (text "s"), trivial, rfl⟩
  questions := [(text "a", onlyOption), (text "b", onlyOption)]
  modelNonempty := cons_ne_nil _ _
  distinct := by decide
  nonempty := cons_ne_nil _ _

def onlyAnswer : Answer Int := .choice (text "x") [(text "x", 1)] 1

theorem semanticKey_routes_two : ∃ response, Execute wholePlatform oneLogit oneRead twoNames (.ok response) ∧
    response.answers.map Prod.fst = [text "a", text "b"] ∧ ∀ q ∈ twoNames.questions, ∃ answer,
      (q.1, answer) ∈ response.answers ∧ ∀ questionId, AnsweredAlone wholePlatform oneLogit oneRead twoNames questionId q.2 answer := by
  have hprepare : ReadsMeaning wholePlatform.noise.sha256 oneLogit.prepare := fun _ _ _ _ _ _ => rfl
  have hsha256 : NoCollision wholePlatform.noise.sha256 oneLogit.config.modelId twoNames := by
    intro q hq q' hq' _
    simp only [twoNames, mem_cons, not_mem_nil, or_false] at hq hq'
    rcases hq with rfl | rfl <;> rcases hq' with rfl | rfl <;> rfl
  have hplan : plan wholePlatform.noise.sha256 twoNames oneLogit.config = .ok ⟨text "m", twoNames.questions.map fun q =>
      ⟨q.1, planQuestion wholePlatform.noise.sha256 (text "m") twoNames.state q.2⟩⟩ := plan_ok.mpr ⟨rfl, rfl⟩
  obtain ⟨reads, hreads⟩ := @exists_finishes _ _ (readTasks wholePlatform oneLogit oneRead oneSlot ()) _ Nat.one_pos
  rw [hreads.eq_ok (r := [[5]]) rfl] at hreads
  have hresult : ∀ decision, Evaluate wholePlatform oneLogit oneRead (text "m") decision
      (.ok (evaluated oneRead decision oneSlot [[5]])) := fun decision =>
    evaluate_ok.mpr ⟨oneSlot, (), [[5]], rfl, hreads, rfl⟩
  obtain ⟨outcome, houtcome⟩ := @exists_execute _ _ _ wholePlatform oneLogit oneRead twoNames
  rw [execute_eq hplan (.cons (hresult _) .nil) houtcome] at houtcome
  have hanswered := (semanticKey_routes wholePlatform oneLogit oneRead hprepare).2 twoNames hsha256
  exact ⟨⟨text "m", [(text "a", onlyAnswer), (text "b", onlyAnswer)], ⟨1, 2⟩⟩, houtcome, hanswered.1 _ houtcome⟩

end Isolation

end EffectTorch.DecisionExecution
