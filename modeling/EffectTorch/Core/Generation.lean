import EffectTorch.Cpu.Session

/-!
# The generation driver

`openGeneration` of `packages/core/src/AutoRegressive.ts`: `add`, `step`, `finish` and
`close` over a native session. A call holds the round lock from its first step to its last.
Between two steps of it the native session may go on, also with calls whose fibers are
gone, and the fiber may be interrupted where it is not in the uninterruptible region.

A sequence is known by its id: the adapter keeps one handle for each. The validation of an
entry, of its prompt, and the computation of the prompts touch neither the list nor the
session; a call that fails there ends as an interrupted one does.
-/

namespace EffectTorch

namespace Generation
open Lib

/-! ## Calls -/

/-- An entry of `add` behind its validation. The sampling is that of the adapter, over the
defaults of the artifact. -/
structure GenerationAdd where
  prompt : PromptTensor
  sampling : NativeInferenceSamplingOptions
  maxTokens : Option UInt32
  eosTokens : List Token

structure GenerationStep where
  seq : Nat
  sampling : NativeInferenceSamplingOverrides
deriving DecidableEq, Repr

structure NativeGenerationEntry where
  id : Nat
  terminal : Option StopReason
deriving DecidableEq, Repr

/-- A page of the driver names its sequence by the id. -/
abbrev TokenPage := ReceiptPage

/-- What the uninterruptible region does to the list. -/
inductive Update where
  | push (added : List NativeGenerationEntry)
  | mark (selected : List NativeGenerationEntry)
deriving DecidableEq, Repr

/-- Where the call stands that holds the round lock. `started` tells whether the native
session has taken the call. -/
inductive Call where
  | adding (requests : List GenerationAdd) (started : Bool)
  | stepping (selected : List NativeGenerationEntry) (requests : List GenerationStep)
      (started : Bool)
  | acknowledging (update : Update) (result : NativeInferenceRoundResult) (pages : List TokenPage)
  | acknowledged (update : Update) (result : NativeInferenceRoundResult) (pages : List TokenPage)
  | finishing (id : Nat)
  | finished (id : Nat)
  | closing
  | closed

/-- `abandoned` are native calls whose fiber is gone before the session took them.
`acknowledged` is history: the pages of the acknowledged rounds, in order. -/
structure World where
  live : List NativeGenerationEntry
  native : InferenceSession
  call : Option Call
  abandoned : List SessionEvent
  acknowledged : List TokenPage

inductive Event where
  /-- A method takes the round lock and goes up to its first native call. -/
  | add (requests : List GenerationAdd)
  | step (requests : List GenerationStep)
  | finish (seq : Nat)
  | close
  /-- The call goes on. -/
  | advance
  /-- The native operation goes on. -/
  | proceed (outcome : Outcome)
  /-- The native session takes an abandoned call. -/
  | late (index : Nat)
  /-- Another session of the artifact reserves ids. -/
  | reserve (sequenceCount : Nat)
  /-- The caller is interrupted, or what it awaits fails, and the call ends. -/
  | interrupt

/-! ## The driver -/

def nativeAdd (requests : List GenerationAdd) : AddCall where
  prompts := requests.map (·.prompt)
  sampling := requests.map (·.sampling)
  maxTokens := requests.map fun request => request.maxTokens.getD 0
  eosTokens := requests.map (·.eosTokens)

def startAdd (batchSize : Nat) (w : World) (requests : List GenerationAdd) : Except String Call :=
  if requests.length = 0 then .error "add expects at least one entry"
  else if batchSize < w.live.length + requests.length then
    .error s!"add needs {requests.length} free lanes, but only {batchSize - w.live.length} remain"
  else .ok (.adding requests false)

/-- The entries a step selects, in the order of its requests. -/
def select (live : List NativeGenerationEntry) (index : Nat) (selected : List NativeGenerationEntry) :
    List GenerationStep → Except String (List NativeGenerationEntry)
  | [] => .ok selected
  | request :: requests =>
    match live.find? (·.id = request.seq) with
    | none => .error s!"entry {index} is not a live sequence"
    | some entry =>
      if selected.contains entry then .error "step entries must be distinct sequences"
      else match entry.terminal with
        | some .eos => .error s!"entry {index} is terminal (eos)"
        | some .maxTokens => .error s!"entry {index} is terminal (maxTokens)"
        | none => select live (index + 1) (selected ++ [entry]) requests

def startStep (batchSize : Nat) (w : World) (requests : List GenerationStep) : Except String Call :=
  if requests.length = 0 then .error "step expects at least one entry"
  else if batchSize < requests.length then
    .error s!"step accepts at most batchSize ({batchSize}) entries, got {requests.length}"
  else (select w.live 0 [] requests).map fun selected => .stepping selected requests false

/-- The native call of `add` and `step`. -/
def Call.event (sessionId : Nat) : Call → Option SessionEvent
  | adding requests _ => some (.addCall (nativeAdd requests))
  | stepping selected requests _ =>
    some (.roundCall (selected.map fun entry => ⟨sessionId, entry.id⟩) (requests.map (·.sampling)))
  | _ => none

def Call.started : Call → Bool
  | adding _ started => started
  | stepping _ _ started => started
  | _ => false

def Call.start : Call → Call
  | adding requests _ => .adding requests true
  | stepping selected requests _ => .stepping selected requests true
  | call => call

/-- `pagesFor`. -/
def pagesFor (op : String) (result : NativeInferenceRoundResult)
    (expected : List NativeGenerationEntry) : Except String (List TokenPage) :=
  if result.pages.length ≠ expected.length then
    .error s!"{op}: native inference returned a malformed round receipt"
  else (result.pages.zip expected).mapM fun (page, entry) =>
    if page.sequenceId ≠ entry.id ∨ page.tokens.length = 0 then
      .error s!"{op}: native inference returned a malformed token page"
    else .ok ⟨entry.id, page.tokens, page.stopReason⟩

/-- The entries of the pages of an admission. -/
def addedEntries (added : List NativeGenerationEntry) :
    List ReceiptPage → Except String (List NativeGenerationEntry)
  | [] => .ok added
  | page :: pages =>
    if added.any (·.id = page.sequenceId) then
      .error "add: native inference returned invalid sequence identity"
    else addedEntries (added ++ [⟨page.sequenceId, none⟩]) pages

/-- What the call makes of the native result, up to the uninterruptible region. -/
def Call.receive (result : NativeInferenceRoundResult) : Call → Except String Call
  | adding requests _ => do
    if result.pages.length ≠ requests.length then
      throw "add: native inference returned the wrong page count"
    let added ← addedEntries [] result.pages
    let pages ← pagesFor "add" result added
    return .acknowledging (.push added) result pages
  | stepping selected _ _ => do
    let pages ← pagesFor "step" result selected
    return .acknowledging (.mark selected) result pages
  | call => .ok call

/-- The entries with the stop reasons of their pages. -/
def setTerminals (entries : List NativeGenerationEntry) (pages : List ReceiptPage) :
    List NativeGenerationEntry :=
  (entries.zip pages).map fun (entry, page) => { entry with terminal := page.stopReason }

/-- The list behind the region: the entries are shared with it. -/
def Update.apply (live : List NativeGenerationEntry) (pages : List ReceiptPage) :
    Update → List NativeGenerationEntry
  | push added => live ++ setTerminals added pages
  | mark selected => live.map fun entry =>
    ((setTerminals selected pages).find? (·.id = entry.id)).getD entry

/-- The reply of the native session to the call it has taken. -/
def deliver (w : World) (call : Call) : Option SessionReply → World
  | none => w
  | some (.ok (some result)) =>
    match call.receive result with
    | .error _ => { w with call := none }
    | .ok call => { w with call := some call }
  | some _ => { w with call := none }

section Steps

variable (P : InferencePrograms)

/-- The next step of the call. The native calls of `acknowledge`, `finish` and `close` end
at once. -/
def advance (w : World) : Call → Option World
  | .acknowledging update result pages =>
    (w.native.perform P (.acknowledge result.roundId)).map fun (native, reply) =>
      match reply with
      | some (.ok _) => { w with
        native, call := some (.acknowledged update result pages)
        acknowledged := w.acknowledged ++ pages }
      | _ => { w with native, call := none }
  | .acknowledged update result _ =>
    some { w with live := update.apply w.live result.pages, call := none }
  | .finishing id =>
    (w.native.perform P (.finish [⟨w.native.id, id⟩])).map fun (native, reply) =>
      match reply with
      | some (.ok _) => { w with native, call := some (.finished id) }
      | _ => { w with native, call := none }
  | .finished id => some { w with live := w.live.eraseP (·.id = id), call := none }
  | .closing =>
    (w.native.perform P .close).map fun (native, reply) =>
      match reply with
      | some (.ok _) => { w with native, call := some .closed }
      | _ => { w with native, call := none }
  | .closed => some { w with live := [], call := none }
  | call =>
    if call.started then none
    else (call.event w.native.id).bind fun event =>
      (w.native.perform P event).map fun (native, reply) =>
        deliver { w with native, call := some call.start } call.start reply

/-- The call ends. A native call that the session has not taken is abandoned. -/
def interrupt (w : World) : Call → Option World
  | .acknowledged _ _ _ => none
  | call => some { w with
      call := none
      abandoned := if call.started then w.abandoned
        else w.abandoned ++ (call.event w.native.id).toList }

/-- A method at the lock: its checks, then its call. -/
def World.take (w : World) (call : Except String Call) : Option World :=
  if w.call.isSome then none
  else match call with
    | .error _ => some w
    | .ok call => some { w with call := some call }

/-- The native session goes on. A reply reaches the fiber that still waits for it. -/
def World.goOn (w : World) (event : SessionEvent) : Option World :=
  (w.native.perform P event).map fun (native, reply) =>
    match w.call with
    | some call => if call.started then deliver { w with native } call reply else { w with native }
    | none => { w with native }

/-- One event; `none` where it cannot happen. -/
def World.perform (w : World) : Event → Option World
  | .add requests => w.take (startAdd P.batchSize w requests)
  | .step requests => w.take (startStep P.batchSize w requests)
  | .finish seq =>
    if w.call.isSome then none
    else if w.live.any (·.id = seq) then some { w with call := some (.finishing seq) } else some w
  | .close => w.take (.ok .closing)
  | .advance => w.call.bind (advance P w)
  | .proceed outcome => w.goOn P (.proceed outcome)
  | .late index =>
    (w.abandoned[index]?).bind fun event =>
      if w.native.operation.isSome then none
      else ({ w with abandoned := w.abandoned.eraseIdx index } : World).goOn P event
  | .reserve sequenceCount => w.goOn P (.reserve sequenceCount)
  | .interrupt => w.call.bind (interrupt w)

end Steps

/-- A driver over a new session. -/
def World.new (id : Nat) (ids : InferenceIds) : World := ⟨[], .new id ids, none, [], []⟩

/-- The native session has finished sequences that the list still has. -/
def World.Unsettled (w : World) : Prop :=
  match w.call with
  | some (.finished _) => True
  | some .closed => True
  | _ => False

end Generation

/-- The runs of a driver. -/
def generation (P : InferencePrograms) : Lib.System Generation.World where
  init w := ∃ id ids, w = .new id ids
  step w w' := ∃ event, w.perform P event = some w'

/-- The runs in which no interruption lands between the success of `finish` or `close` in
the native session and the update of the list. -/
def settledGeneration (P : InferencePrograms) : Lib.System Generation.World where
  init w := ∃ id ids, w = .new id ids
  step w w' := ∃ event, w.perform P event = some w' ∧ ¬ (event = .interrupt ∧ w.Unsettled)

end EffectTorch
