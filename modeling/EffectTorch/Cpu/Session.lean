import EffectTorch.Cpu.InferenceSequence
import EffectTorch.Lib.Transition

/-!
# Inference sessions

`NativeInferenceSession` (`runtime-cpu/src/napi/mod.rs`): `add`, `run_round`,
`acknowledge`, `finish` and `close`. A call that takes the operation lock runs in
steps. Between two of them any other call may run that does not need the lock, and
other sessions of the artifact may reserve ids. What an execution returns, and whether
it fails, is up to the run.

Native state is the cursor of the target sequence. An execution moves it before its
pages are published.
-/

namespace EffectTorch
open Lib

/-! ## Requests and receipts -/

structure SamplingIdentity where
  temperature : UInt64
  topK : Option Nat
  topP : UInt64
  seed : UInt64
deriving DecidableEq, Repr

def SamplingOptions.identity (value : SamplingOptions) : SamplingIdentity where
  temperature := value.temperature.bits
  topK := value.topK
  topP := value.topP.bits
  seed := value.seed

structure AddRequestIdentity where
  prompt : List Token
  sampling : SamplingIdentity
  maxTokens : UInt32
  eosTokens : List Token
deriving DecidableEq, Repr

structure SamplingOverrideIdentity where
  temperature : Option UInt64
  topK : Option UInt32
  topP : Option UInt64
  seed : Option UInt64
deriving DecidableEq, Repr

def NativeInferenceSamplingOverrides.identity (value : NativeInferenceSamplingOverrides) :
    SamplingOverrideIdentity where
  temperature := value.temperature.map (·.bits)
  topK := value.topK
  topP := value.topP.map (·.bits)
  seed := value.seed

structure RoundRequestIdentity where
  sequenceId : Nat
  sampling : SamplingOverrideIdentity
deriving DecidableEq, Repr

inductive ReceiptRequest where
  | add (entries : List AddRequestIdentity)
  | round (entries : List RoundRequestIdentity)
deriving DecidableEq, Repr

structure Receipt where
  roundId : Nat
  request : ReceiptRequest
  pages : List ReceiptPage
deriving DecidableEq, Repr

structure NativeInferenceRoundResult where
  roundId : Nat
  recovered : Bool
  pages : List ReceiptPage
deriving DecidableEq, Repr

/-- `receipt_result`. -/
def Receipt.result (receipt : Receipt) (recovered : Bool) : NativeInferenceRoundResult where
  roundId := receipt.roundId
  recovered := recovered
  pages := receipt.pages

def RoundRequest.identity (request : RoundRequest) : ReceiptRequest :=
  .round (request.map fun entry => ⟨entry.1, entry.2.identity⟩)

/-! ## Admission requests -/

/-- The dtypes of a token input. -/
inductive TokenDType where
  | u32
  | i64
deriving DecidableEq, Repr

structure PromptTensor where
  dtype : TokenDType
  shape : List Nat
  values : List Int
deriving Repr

/-- `prompt_tokens`. -/
def promptTokens (prompt : PromptTensor) (dtype : TokenDType) : Except String (List Token) :=
  if prompt.shape.length ≠ 2 ∨ prompt.shape[0]? ≠ some 1 ∨ prompt.shape[1]? = some 0 ∨
      prompt.dtype ≠ dtype then
    .error (inferenceError "admission" "prompt must be a nonempty [1,T] token tensor")
  else
    match dtype with
    | .u32 => .ok (prompt.values.map fun value => UInt32.ofNat value.toNat)
    | .i64 => prompt.values.mapM fun value =>
      if 0 ≤ value ∧ value < 2 ^ 32 then .ok (UInt32.ofNat value.toNat)
      else .error (inferenceError "admission" "prompt token does not fit u32")

/-- The arguments of an `add` call. -/
structure AddCall where
  prompts : List PromptTensor
  sampling : List NativeInferenceSamplingOptions
  maxTokens : List UInt32
  eosTokens : List (List Token)

/-- One validated entry of an `add` call. -/
structure AddEntry where
  prompt : List Token
  sampling : SamplingOptions
  maxTokens : UInt32
  eosTokens : List Token
deriving DecidableEq, Repr

def AddEntry.identity (entry : AddEntry) : AddRequestIdentity where
  prompt := entry.prompt
  sampling := entry.sampling.identity
  maxTokens := entry.maxTokens
  eosTokens := entry.eosTokens

def addIdentity (entries : List AddEntry) : ReceiptRequest :=
  .add (entries.map (·.identity))

/-- What `add` checks of its arguments before it looks at the session. -/
def addEntries (dtype : TokenDType) (call : AddCall) : Except String (List AddEntry) :=
  if call.prompts = [] ∨ call.sampling.length ≠ call.prompts.length ∨
      call.maxTokens.length ≠ call.prompts.length ∨
      call.eosTokens.length ≠ call.prompts.length then
    .error (inferenceError "admission" "add arrays must be nonempty and have equal length")
  else do
    let prompts ← call.prompts.mapM (promptTokens · dtype)
    let sampling ← call.sampling.mapM (inferenceSampling · "admission")
    pure ((prompts.zip (sampling.zip (call.maxTokens.zip call.eosTokens))).map
      fun entry => ⟨entry.1, entry.2.1, entry.2.2.1, entry.2.2.2⟩)

/-! ## State -/

/-- Which execution `run_round` takes. -/
inductive RoundPath where
  | parallelBlock
  | historyLookup
  | exactChain
  | ordinary
deriving DecidableEq, Repr

/-- The programs of an artifact as its sessions see them. `rows_lt` is what
`validate_inference_program` reads off the token input of the verifier. -/
structure InferencePrograms where
  batchSize : Nat
  maxDraftTokens : Nat
  tokenDtype : TokenDType
  defaultSampling : SamplingOptions
  path : RoundPath
  rows_lt : path ≠ .ordinary → batchSize * (maxDraftTokens + 1) < 2 ^ 32

structure InferenceIds where
  nextSequenceId : Nat
  nextRoundId : Nat
deriving DecidableEq, Repr

/-- `reserve_inference_ids`: the round id, the sequence ids and the ids that are left. -/
def reserveInferenceIds (ids : InferenceIds) (sequenceCount : Nat) :
    Except String (Nat × List Nat × InferenceIds) :=
  if 2 ^ 64 ≤ ids.nextRoundId + 1 then
    .error (inferenceError "admission" "round ID space exhausted")
  else if 2 ^ 64 ≤ ids.nextSequenceId + sequenceCount then
    .error (inferenceError "admission" "sequence ID space exhausted")
  else .ok (ids.nextRoundId, List.range' ids.nextSequenceId sequenceCount,
    ⟨ids.nextSequenceId + sequenceCount, ids.nextRoundId + 1⟩)

/-- A sequence of a session: its native state is the cursor of the target. -/
abbrev SessionSequence := InferenceSequenceState Nat

structure InferenceSessionState where
  closed : Bool
  sequences : LiveSequences Nat
  receipt : Option Receipt

structure NativeInferenceSequence where
  sessionId : Nat
  sequenceId : Nat
deriving DecidableEq, Repr

/-- Where the call stands that holds the operation lock. -/
inductive Operation where
  | roundSelected (request : RoundRequest) (lanes : List (RoundLane Nat))
  | roundAdmitted (request : RoundRequest) (lanes : List (RoundLane Nat))
  | roundReserved (request : RoundRequest) (lanes : List (RoundLane Nat)) (roundId : Nat)
  | roundExecuted (request : RoundRequest) (lanes : List (RoundLane Nat)) (roundId : Nat)
      (pages : List (List Token))
  | addRequested (entries : List AddEntry)
  | addAdmitted (entries : List AddEntry)
  | addSlotted (entries : List AddEntry) (slots : List Nat)
  | addReserved (entries : List AddEntry) (slots : List Nat) (roundId : Nat) (ids : List Nat)
  | addSampled (entries : List AddEntry) (slots : List Nat) (roundId : Nat) (ids : List Nat)
      (tokens : List Token)

/-- A session with the ids of its artifact. The last three fields are history: the round
and sequence ids its calls reserved and the receipts it published, in order. -/
structure InferenceSession where
  id : Nat
  state : InferenceSessionState
  ids : InferenceIds
  operation : Option Operation
  roundIds : List Nat
  sequenceIds : List Nat
  receipts : List Receipt

/-- What a call returns; only `add` and `run_round` return a result. -/
abbrev SessionReply := Except String (Option NativeInferenceRoundResult)

/-- What the environment decides for one step of an operation. -/
inductive Outcome where
  | next
  | failed (phase reason : String)
  | pages (pages : List (List Token))
  | tokens (tokens : List Token)

inductive SessionEvent where
  | addCall (call : AddCall)
  | roundCall (handles : List NativeInferenceSequence)
      (overrides : List NativeInferenceSamplingOverrides)
  | proceed (outcome : Outcome)
  | acknowledge (roundId : Nat)
  | finish (handles : List NativeInferenceSequence)
  | close
  | reserve (sequenceCount : Nat)

namespace InferenceSession

/-- The operation returns an error. -/
def abort (w : InferenceSession) (reason : String) : InferenceSession × Option SessionReply :=
  ({ w with operation := none }, some (.error reason))

/-- The operation has reached `operation`. -/
def await (w : InferenceSession) (operation : Operation) :
    InferenceSession × Option SessionReply :=
  ({ w with operation := some operation }, none)

/-- `recovered`. -/
def recovered (w : InferenceSession) (request : ReceiptRequest) :
    Except String (Option NativeInferenceRoundResult) :=
  if w.state.closed then .error (inferenceError "publish" "session is closed")
  else
    match w.state.receipt with
    | none => .ok none
    | some receipt =>
      if receipt.request ≠ request then
        .error (inferenceError "publish"
          "pending receipt belongs to a different operation or request")
      else .ok (some (receipt.result true))

/-- `publish_receipt`. -/
def publishReceipt (w : InferenceSession) (sequences : LiveSequences Nat) (receipt : Receipt) :
    InferenceSession × Option SessionReply :=
  ({ w with
    state := { w.state with sequences, receipt := some receipt }
    operation := none
    receipts := w.receipts ++ [receipt] }, some (.ok (some (receipt.result false))))

/-! ## Rounds -/

/-- `run_round` up to `recovered`: it reads the live sequences and resolves the sampling. -/
def startRound (w : InferenceSession) (handles : List NativeInferenceSequence)
    (overrides : List NativeInferenceSamplingOverrides) :
    InferenceSession × Option SessionReply :=
  if handles = [] ∨ handles.length ≠ overrides.length then
    w.abort (inferenceError "admission" "runRound arrays must be nonempty and have equal length")
  else if handles.any fun handle => handle.sessionId != w.id then
    w.abort (inferenceError "admission" "foreign or duplicate inference sequence")
  else
    let request := (handles.map (·.sequenceId)).zip overrides
    match selectLanes w.state.sequences request with
    | .error reason => w.abort reason
    | .ok lanes => w.await (.roundSelected request lanes)

/-- The retry of a pending round, and the check for terminal sequences. -/
def recoverRound (w : InferenceSession) (request : RoundRequest) (lanes : List (RoundLane Nat)) :
    InferenceSession × Option SessionReply :=
  match w.recovered request.identity with
  | .error reason => w.abort reason
  | .ok (some result) => ({ w with operation := none }, some (.ok (some result)))
  | .ok none =>
    if lanes.any (·.sequence.terminal.isSome) then
      w.abort (inferenceError "admission" "sequence is terminal")
    else w.await (.roundAdmitted request lanes)

def reserveRound (w : InferenceSession) (request : RoundRequest) (lanes : List (RoundLane Nat)) :
    InferenceSession × Option SessionReply :=
  match reserveInferenceIds w.ids 0 with
  | .error reason => w.abort reason
  | .ok (roundId, _, ids) =>
    ({ w with
      ids
      operation := some (.roundReserved request lanes roundId)
      roundIds := w.roundIds ++ [roundId] }, none)

/-- The pages an execution makes of the tokens it accepted, none where no execution accepts
them: the ordinary path samples one token for a sequence, the others accept at least one
and cut. -/
def roundPages (P : InferencePrograms) (lanes : List (RoundLane Nat))
    (accepted : List (List Token)) : Option (List (List Token)) :=
  if accepted.length ≠ lanes.length ∨ [] ∈ accepted then none
  else
    match P.path with
    | .ordinary => if ∀ page ∈ accepted, page.length = 1 then some accepted else none
    | _ => some (List.zipWith (fun lane page => truncatePage lane.sequence.eos
        (lane.sequence.pageLimit P.maxDraftTokens) page) lanes accepted)

/-- The cursors after a round: each sequence keeps one row for each token of its page. -/
def roundCursors (lanes : List (RoundLane Nat)) (pages : List (List Token)) : List Nat :=
  List.zipWith (fun lane page => lane.sequence.target + page.length) lanes pages

def executeRound (P : InferencePrograms) (w : InferenceSession) (request : RoundRequest)
    (lanes : List (RoundLane Nat)) (roundId : Nat) :
    Outcome → Option (InferenceSession × Option SessionReply)
  | .failed phase reason => some (w.abort (inferenceError phase reason))
  | .pages accepted => (roundPages P lanes accepted).map fun pages =>
      ({ w with
        state := { w.state with
          sequences := commitTargets w.state.sequences
            ((request.map (·.1)).zip (roundCursors lanes pages)) }
        operation := some (.roundExecuted request lanes roundId pages) }, none)
  | _ => none

/-- The publication of a round; `none` is a panic. -/
def publishRound (w : InferenceSession) (request : RoundRequest) (roundId : Nat)
    (pages : List (List Token)) : Option (InferenceSession × Option SessionReply) :=
  (publishPages w.state.sequences ((request.map (·.1)).zip pages)).map fun published =>
    w.publishReceipt published.1 ⟨roundId, request.identity, published.2⟩

/-! ## Admissions -/

def startAdd (P : InferencePrograms) (w : InferenceSession) (call : AddCall) :
    InferenceSession × Option SessionReply :=
  match addEntries P.tokenDtype call with
  | .error reason => w.abort reason
  | .ok entries => w.await (.addRequested entries)

def recoverAdd (w : InferenceSession) (entries : List AddEntry) :
    InferenceSession × Option SessionReply :=
  match w.recovered (addIdentity entries) with
  | .error reason => w.abort reason
  | .ok (some result) => ({ w with operation := none }, some (.ok (some result)))
  | .ok none => w.await (.addAdmitted entries)

/-- The first free slots. -/
def freeSlots (batchSize : Nat) (sequences : LiveSequences Nat) (count : Nat) : List Nat :=
  ((List.range batchSize).filter fun slot =>
    sequences.entries.all fun entry => entry.2.slot != slot).take count

def slotAdd (P : InferencePrograms) (w : InferenceSession) (entries : List AddEntry) :
    InferenceSession × Option SessionReply :=
  let slots := freeSlots P.batchSize w.state.sequences entries.length
  if slots.length ≠ entries.length then
    w.abort (inferenceError "admission" "session has insufficient free slots")
  else w.await (.addSlotted entries slots)

def reserveAdd (w : InferenceSession) (entries : List AddEntry) (slots : List Nat) :
    InferenceSession × Option SessionReply :=
  match reserveInferenceIds w.ids entries.length with
  | .error reason => w.abort reason
  | .ok (roundId, sequenceIds, ids) =>
    ({ w with
      ids
      operation := some (.addReserved entries slots roundId sequenceIds)
      roundIds := w.roundIds ++ [roundId]
      sequenceIds := w.sequenceIds ++ sequenceIds }, none)

/-- The prefill and the first tokens. -/
def sampleAdd (w : InferenceSession) (entries : List AddEntry) (slots : List Nat) (roundId : Nat)
    (ids : List Nat) : Outcome → Option (InferenceSession × Option SessionReply)
  | .failed phase reason => some (w.abort (inferenceError phase reason))
  | .tokens tokens =>
    if tokens.length ≠ entries.length then none
    else some (w.await (.addSampled entries slots roundId ids tokens))
  | _ => none

/-- The sequence `add` makes of an entry. -/
def admittedSequence (P : InferencePrograms) (entry : AddEntry) (slot id : Nat) (token : Token) :
    SessionSequence :=
  let budget := if entry.maxTokens = 0 then none else some entry.maxTokens.toNat
  { id, slot
    target := entry.prompt.length
    pending := token
    history := entry.prompt ++ [token]
    generated := 1
    budget
    eos := entry.eosTokens
    terminal :=
      if token ∈ entry.eosTokens then some .eos
      else if budget = some 1 then some .maxTokens
      else none
    sampling := P.defaultSampling }

def admittedSequences (P : InferencePrograms) (entries : List AddEntry) (slots ids : List Nat)
    (tokens : List Token) : List SessionSequence :=
  (entries.zip (slots.zip (ids.zip tokens))).map fun e =>
    admittedSequence P e.1 e.2.1 e.2.2.1 e.2.2.2

def publishAdd (P : InferencePrograms) (w : InferenceSession) (entries : List AddEntry)
    (slots : List Nat) (roundId : Nat) (ids : List Nat) (tokens : List Token) :
    InferenceSession × Option SessionReply :=
  let admitted := admittedSequences P entries slots ids tokens
  w.publishReceipt (admitted.foldl (fun sequences s => sequences.insert s.id s) w.state.sequences)
    ⟨roundId, addIdentity entries, admitted.map fun s => ⟨s.id, [s.pending], s.terminal⟩⟩

/-! ## The other calls -/

def acknowledge (w : InferenceSession) (roundId : Nat) : InferenceSession × Option SessionReply :=
  if w.state.receipt.map (·.roundId) ≠ some roundId then
    (w, some (.error (inferenceError "publish" "round receipt is not pending")))
  else ({ w with state := { w.state with receipt := none } }, some (.ok none))

/-- `validate_finish_lifecycle`. -/
def validateFinishLifecycle (state : InferenceSessionState) : Except String Unit :=
  if state.closed then .error (inferenceError "finish" "session is closed")
  else if state.receipt.isSome then
    .error (inferenceError "finish"
      "round receipt must be acknowledged before finishing sequences")
  else .ok ()

def finish (w : InferenceSession) (handles : List NativeInferenceSequence) :
    InferenceSession × Option SessionReply :=
  if w.operation.isSome then
    (w, some (.error (inferenceError "finish" "an inference operation is active")))
  else
    match validateFinishLifecycle w.state with
    | .error reason => (w, some (.error reason))
    | .ok () =>
      if (handles.any fun handle => handle.sessionId != w.id) ∨
          ¬ (handles.map (·.sequenceId)).Nodup ∨
          handles.any fun handle => (w.state.sequences.lookup handle.sequenceId).isNone then
        (w, some (.error (inferenceError "finish" "foreign, duplicate, or dead sequence")))
      else
        ({ w with
          state := { w.state with
            sequences := handles.foldl (fun sequences handle => sequences.erase handle.sequenceId)
              w.state.sequences } }, some (.ok none))

def close (w : InferenceSession) : InferenceSession × Option SessionReply :=
  if w.state.closed then (w, some (.ok none))
  else if w.operation.isSome then
    (w, some (.error (inferenceError "close" "an inference operation is active")))
  else ({ w with state := { closed := true, sequences := ∅, receipt := none } }, some (.ok none))

/-! ## Runs -/

/-- One step of the call that holds the operation lock. -/
def proceed (P : InferencePrograms) (w : InferenceSession) (outcome : Outcome) :
    Operation → Option (InferenceSession × Option SessionReply)
  | .roundSelected request lanes => some (w.recoverRound request lanes)
  | .roundAdmitted request lanes => some (w.reserveRound request lanes)
  | .roundReserved request lanes roundId => executeRound P w request lanes roundId outcome
  | .roundExecuted request _ roundId pages => w.publishRound request roundId pages
  | .addRequested entries => some (w.recoverAdd entries)
  | .addAdmitted entries => some (slotAdd P w entries)
  | .addSlotted entries slots => some (w.reserveAdd entries slots)
  | .addReserved entries slots roundId ids => w.sampleAdd entries slots roundId ids outcome
  | .addSampled entries slots roundId ids tokens =>
    some (publishAdd P w entries slots roundId ids tokens)

/-- One event with the reply it gives, if it ends a call; `none` where it cannot happen. -/
def perform (P : InferencePrograms) (w : InferenceSession) :
    SessionEvent → Option (InferenceSession × Option SessionReply)
  | .addCall call => if w.operation.isSome then none else some (startAdd P w call)
  | .roundCall handles overrides =>
    if w.operation.isSome then none else some (w.startRound handles overrides)
  | .proceed outcome => w.operation.bind (proceed P w outcome)
  | .acknowledge roundId => some (w.acknowledge roundId)
  | .finish handles => some (w.finish handles)
  | .close => some w.close
  | .reserve sequenceCount =>
    match reserveInferenceIds w.ids sequenceCount with
    | .error _ => some (w, none)
    | .ok (_, _, ids) => some ({ w with ids }, none)

/-- A new session of an artifact whose other sessions have used some ids. -/
def new (id : Nat) (ids : InferenceIds) : InferenceSession where
  id := id
  state := ⟨false, ∅, none⟩
  ids := ids
  operation := none
  roundIds := []
  sequenceIds := []
  receipts := []

end InferenceSession

/-- The runs of one session. -/
def inferenceSession (P : InferencePrograms) : System InferenceSession where
  init w := ∃ id ids, w = .new id ids
  step w w' := ∃ event reply, w.perform P event = some (w', reply)

end EffectTorch
