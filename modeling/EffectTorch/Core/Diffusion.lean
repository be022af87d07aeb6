import EffectTorch.Lib.Effect
import EffectTorch.Lib.Scopes

/-!
# The diffusion generation driver

`runGeneration` of `packages/core/src/Diffusion.ts`. The callbacks and the policy are those
of the caller: each sees the events so far and returns or fails as it likes, and a failure
is also an interruption. The driver itself may be interrupted behind an acquisition.
Every owned value has a number, in the order of the acquisitions.

A scope is the runtime's, known by what `Scopes` promises. A number of JavaScript is given
as `none` unless it is a safe integer.
-/

namespace EffectTorch.Diffusion
open Lib

/-! ## Data -/

structure Block where
  index : Nat
  position : Nat
  remainingTokens : Nat
  canvasLength : Nat
deriving DecidableEq, Repr

structure Step where
  index : Nat
  remaining : Nat
deriving DecidableEq, Repr

inductive Feedback (F : Type) where
  | initial
  | supplied (value : F)
  | previous (value : F)
deriving DecidableEq, Repr

inductive InitialFeedback (F : Type) where
  | initial
  | supplied (value : F)
deriving DecidableEq, Repr

def InitialFeedback.feedback {F : Type} : InitialFeedback F → Feedback F
  | initial => .initial
  | supplied value => .supplied value

structure InitialCanvas (F : Type) where
  canvas : List UInt32
  feedback : InitialFeedback F
deriving DecidableEq, Repr

structure Evaluation (P F : Type) where
  prediction : P
  feedback : F
deriving DecidableEq, Repr

structure Refinement (S : Type) where
  state : S
  canvas : List UInt32
  draft : List UInt32
  done : Bool
deriving DecidableEq, Repr

structure CompletedBlock where
  tokens : List UInt32
  stop : Bool
deriving DecidableEq, Repr

inductive OutputLimit where
  | exact
  | wholeBlock
deriving DecidableEq, Repr

/-- How many tokens of a completed block are published. -/
def OutputLimit.count (length remainingTokens : Nat) : OutputLimit → Nat
  | exact => min length remainingTokens
  | wholeBlock => length

inductive StopReason where
  | length
  | policy
deriving DecidableEq, Repr

structure GenerationResult where
  generatedTokens : Nat
  blocks : Nat
  refinements : Nat
  stop : StopReason
deriving DecidableEq, Repr

/-- How an owned value came about. -/
inductive Origin where
  | encoded
  | committed (source tokens : Nat)
  | other
deriving DecidableEq, Repr

/-- What the driver does. A call names the owned values whose parts it is given, and a block
the prefix it is for. -/
inductive Event where
  | encode
  | block (source : Nat) (block : Block)
  | initializeCanvas (block : Block)
  | start (block : Block)
  | evaluate (source feedback : Nat) (block : Block) (step : Step)
  | refine (evaluation : Nat) (block : Block) (step : Step)
  | progress (block : Block) (step : Step) (done : Bool)
  | finish (evaluation : Nat) (block : Block)
  | page (tokens : List UInt32) (block : Block)
  | commit (source : Nat) (tokens : List UInt32) (block : Block)
  | acquired (id : Nat) (origin : Origin)
  | released (id : Nat)
deriving DecidableEq, Repr

/-- The events so far, the last one first. -/
abbrev Trace := List Event

/-- The cause of a failure: one of the caller's, or `DiffusionGenerationError`. The last one
stands for a loop of the driver that does not end. -/
inductive Cause (ε : Type) where
  | caller (cause : ε)
  | generation (message : String)
  | endless
deriving DecidableEq, Repr

variable {ε Prefix F P S : Type}

structure Callbacks (ε Prefix F P : Type) where
  encode : Trace → List UInt32 → Except ε Prefix
  initializeCanvas : Trace → Block → Except ε (InitialCanvas F)
  evaluate : Trace → Prefix → List UInt32 → Feedback F → Block → Step →
    Except ε (Evaluation P F)
  commit : Trace → Prefix → List UInt32 → Block → Except ε Prefix
  /-- The `release` of an owned value: it may die. -/
  release : Trace → Nat → Except ε Unit

structure Policy (ε P S : Type) where
  canvasLength : Option Int
  maxSteps : Option Int
  start : Trace → List UInt32 → Block → Except ε S
  refine : Trace → S → List UInt32 → P → Block → Step → Except ε (Refinement S)
  finish : Trace → List UInt32 → Block → Except ε CompletedBlock

structure GenerationOptions (ε Prefix F P S : Type) where
  prompt : List UInt32
  maxNewTokens : Option Int
  outputLimit : OutputLimit
  callbacks : Callbacks ε Prefix F P
  policy : Policy ε P S
  onProgress : Option (Trace → Block → Step → List UInt32 → Bool → Except ε Unit)
  onPage : Trace → List UInt32 → Block → Except ε Unit
  /-- Whether the fiber is interrupted when it goes on behind an acquisition. -/
  interrupted : Trace → Except ε Unit

/-! ## The driver -/

structure World (scopes : Scopes Nat) where
  trace : Trace
  state : scopes.State

/-- An owned value's number and the child scope that releases it. -/
structure Owner (scopes : Scopes Nat) where
  id : Nat
  scope : scopes.Id

structure Acquired (scopes : Scopes Nat) (α : Type) extends Owner scopes where
  value : α

section Driver

variable (scopes : Scopes Nat) (options : GenerationOptions ε Prefix F P S)

abbrev Driver (ε α : Type) := Effect (World scopes) (Cause ε) α

/-- A call of the caller's code. -/
def invoke {α : Type} (event : Event) (call : Trace → Except ε α) : Driver scopes ε α :=
  Effect.step fun w => ((call w.trace).mapError .caller, { w with trace := event :: w.trace })

/-- A block is formed. -/
def openBlock (source : Nat) (block : Block) : Driver scopes ε Unit :=
  Effect.step fun w => (.ok (), { w with trace := .block source block :: w.trace })

/-- Runs finalizers, whether those before them die or not. -/
def runFinalizers : List Nat → Driver scopes ε Unit
  | [] => pure ()
  | id :: ids => (invoke scopes (.released id) (options.callbacks.release · id)).onExit
    (runFinalizers ids)

/-- `Scope.close`. -/
def closeScope (scope : scopes.Id) : Driver scopes ε Unit := fun w =>
  let (ids, state) := scopes.close w.state scope
  runFinalizers scopes options ids { w with state }

/-- `Scope.use`. -/
def useScope {α : Type} (program : Driver scopes ε α) (scope : scopes.Id) : Driver scopes ε α :=
  program.onExit (closeScope scopes options scope)

/-- The numbers of the values acquired so far. -/
def acquiredIds : Trace → List Nat
  | [] => []
  | .acquired id _ :: trace => id :: acquiredIds trace
  | _ :: trace => acquiredIds trace

def forkScope : Driver scopes ε scopes.Id :=
  Effect.step fun w => (.ok (scopes.fork w.state).1, { w with state := (scopes.fork w.state).2 })

/-- `Effect.acquireRelease` has the value: its finalizer is added to the scope. -/
def own (scope : scopes.Id) (origin : Origin) : Driver scopes ε Nat :=
  Effect.step fun w =>
    let id := (acquiredIds w.trace).length
    (.ok id, ⟨.acquired id origin :: w.trace, scopes.addFinalizer w.state scope id⟩)

/-- The `acquire` of the driver. -/
def acquire {α : Type} (event : Event) (call : Trace → Except ε α) (origin : Origin) :
    Driver scopes ε (Acquired scopes α) := do
  let scope ← forkScope scopes
  let value ← invoke scopes event call
  let id ← own scopes scope origin
  Effect.step fun w => ((options.interrupted w.trace).mapError .caller, w)
  return { id, scope, value }

def checkWidth (canvasLength : Nat) (tokens : List UInt32) : Driver scopes ε Unit :=
  if tokens.length = canvasLength then pure ()
  else Effect.fail (.generation "Policy canvas must retain the configured full width")

/-- The optional call of `onProgress`. -/
def reportProgress (block : Block) (step : Step) (draft : List UInt32) (done : Bool) :
    Driver scopes ε Unit :=
  match options.onProgress with
  | none => pure ()
  | some onProgress => invoke scopes (.progress block step done) (onProgress · block step draft done)

/-- What a refinement hands to the next one. -/
structure RefineState (scopes : Scopes Nat) (F S : Type) where
  canvas : List UInt32
  feedback : Feedback F
  owner : Owner scopes
  state : S
  draft : List UInt32
  refinements : Nat

/-- The loop over the steps, with `remaining` steps to go. -/
def refineLoop (canvasLength maxSteps : Nat) (source : Acquired scopes Prefix) (block : Block) :
    Nat → RefineState scopes F S → Driver scopes ε (RefineState scopes F S)
  | 0, s => pure s
  | remaining + 1, s => do
    let step : Step := ⟨maxSteps - (remaining + 1), remaining + 1⟩
    let evaluated ← acquire scopes options (.evaluate source.id s.owner.id block step)
      (options.callbacks.evaluate · source.value s.canvas s.feedback block step) .other
    let next ← useScope scopes options (do
      let next ← invoke scopes (.refine evaluated.id block step)
        (options.policy.refine · s.state s.canvas evaluated.value.prediction block step)
      checkWidth scopes canvasLength next.canvas
      checkWidth scopes canvasLength next.draft
      return next) s.owner.scope
    let done := next.done || step.remaining == 1
    reportProgress scopes options block step next.draft done
    let s' : RefineState scopes F S := ⟨next.canvas, .previous evaluated.value.feedback,
      evaluated.toOwner, next.state, next.draft, s.refinements + 1⟩
    if done then return s' else refineLoop canvasLength maxSteps source block remaining s'

structure BlockState (scopes : Scopes Nat) (Prefix : Type) where
  source : Acquired scopes Prefix
  generatedTokens : Nat
  blocks : Nat
  refinements : Nat

def BlockState.result {scopes : Scopes Nat} (s : BlockState scopes Prefix) (stop : StopReason) :
    GenerationResult :=
  ⟨s.generatedTokens, s.blocks, s.refinements, stop⟩

/-- The loop over the blocks, for a number of turns. -/
def blockLoop (maxNewTokens canvasLength maxSteps : Nat) :
    Nat → BlockState scopes Prefix → Driver scopes ε GenerationResult
  | 0, s =>
    if maxNewTokens ≤ s.generatedTokens then pure (s.result .length) else Effect.fail .endless
  | turns + 1, s =>
    if maxNewTokens ≤ s.generatedTokens then pure (s.result .length)
    else do
      let block : Block := ⟨s.blocks, options.prompt.length + s.blocks * canvasLength,
        maxNewTokens - s.generatedTokens, canvasLength⟩
      openBlock scopes s.source.id block
      let initial ← acquire scopes options (.initializeCanvas block)
        (options.callbacks.initializeCanvas · block) .other
      let canvas := initial.value.canvas
      checkWidth scopes canvasLength canvas
      let state ← invoke scopes (.start block) (options.policy.start · canvas block)
      let refined ← refineLoop scopes options canvasLength maxSteps s.source block maxSteps
        ⟨canvas, initial.value.feedback.feedback, initial.toOwner, state, canvas, s.refinements⟩
      let completed ← useScope scopes options (do
        let completed ← invoke scopes (.finish refined.owner.id block)
          (options.policy.finish · refined.draft block)
        checkWidth scopes canvasLength completed.tokens
        return completed) refined.owner.scope
      let count := options.outputLimit.count completed.tokens.length block.remainingTokens
      invoke scopes (.page (completed.tokens.take count) block)
        (options.onPage · (completed.tokens.take count) block)
      let generatedTokens := s.generatedTokens + count
      let blocks := s.blocks + 1
      if completed.stop || decide (maxNewTokens ≤ generatedTokens) then
        return ⟨generatedTokens, blocks, refined.refinements,
          if completed.stop then .policy else .length⟩
      else
        let source ← useScope scopes options
          (acquire scopes options (.commit s.source.id completed.tokens block)
            (options.callbacks.commit · s.source.value completed.tokens block)
            (.committed s.source.id completed.tokens.length)) s.source.scope
        blockLoop maxNewTokens canvasLength maxSteps turns
          ⟨source, generatedTokens, blocks, refined.refinements⟩

/-- The body of `runGeneration`, in the request scope. -/
def generate : Driver scopes ε GenerationResult :=
  match options.maxNewTokens, options.policy.canvasLength, options.policy.maxSteps with
  | some maxNewTokens, some canvasLength, some maxSteps =>
    if maxNewTokens < 0 ∨ canvasLength < 1 ∨ maxSteps < 1 then invalid
    else if maxNewTokens = 0 then pure ⟨0, 0, 0, .length⟩
    else do
      let source ← acquire scopes options .encode (options.callbacks.encode · options.prompt)
        .encoded
      blockLoop scopes options maxNewTokens.toNat canvasLength.toNat maxSteps.toNat
        maxNewTokens.toNat ⟨source, 0, 0, 0⟩
  | _, _, _ => invalid
where
  invalid : Driver scopes ε GenerationResult := Effect.fail (.generation
    "maxNewTokens must be nonnegative; canvasLength and maxSteps must be positive integers")

/-- Closes the request scope. -/
def closeRequest : Driver scopes ε Unit := fun w =>
  runFinalizers scopes options (scopes.closeAll w.state) w

/-- `runGeneration`, from no events. -/
def runGeneration : Except (Cause ε) GenerationResult × World scopes :=
  ((generate scopes options).onExit (closeRequest scopes options)).exec ⟨[], scopes.opened⟩

end Driver

end EffectTorch.Diffusion
