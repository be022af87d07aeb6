/-!
# The chat stream

`makeParser` and `streamGeneration` of `packages/core/src/Chat.ts`. The tokenizer, the
template engine and the generator are those of the caller. Tokens are numbers of
JavaScript, known by their equality. Texts are in code units of UTF-16. Durations are left
out of the events and of the statistics.
-/

namespace EffectTorch.Chat

/-! ## Texts -/

abbrev Text := List UInt16

/-- The code units of an ASCII text. -/
def text (s : String) : Text := s.toList.map fun c => c.val.toUInt16

/-- `\s` of a regular expression, and what `trim` takes off. -/
def isSpace (c : UInt16) : Bool :=
  [9, 10, 11, 12, 13, 0x20, 0xa0, 0x1680, 0x2028, 0x2029, 0x202f, 0x205f, 0x3000, 0xfeff].contains c ||
    (0x2000 ≤ c && c ≤ 0x200a)

def trim (t : Text) : Text := ((t.dropWhile isSpace).reverse.dropWhile isSpace).reverse

def word (t : Text) : Text := t.takeWhile fun c => !isSpace c

/-- `header.split(/\s+/, 1)[0]` of a trimmed header. -/
def firstWord (header : Text) : Text := word header

def recipientKey : Text := text "to="

/-- `/(?:^|\s)to=([^\s]+)/.exec(header)?.[1]`: `boundary` stands at the start and behind a
space. -/
def matchRecipient : Bool → Text → Option Text
  | _, [] => none
  | boundary, c :: rest =>
    let value := word ((c :: rest).drop recipientKey.length)
    if boundary && recipientKey.isPrefixOf (c :: rest) && !value.isEmpty then some value
    else matchRecipient (isSpace c) rest

def hexDigit (n : Nat) : UInt16 := if n < 10 then (48 + n).toUInt16 else (87 + n).toUInt16

/-- `\uXXXX` of a JSON string. -/
def unicodeEscape (c : UInt16) : Text :=
  text "\\u" ++ [12, 8, 4, 0].map fun shift => hexDigit ((c.toNat >>> shift) % 16)

def escapeUnit (c : UInt16) : Text :=
  if c = 0x22 then text "\\\""
  else if c = 0x5c then text "\\\\"
  else if c = 8 then text "\\b"
  else if c = 9 then text "\\t"
  else if c = 10 then text "\\n"
  else if c = 12 then text "\\f"
  else if c = 13 then text "\\r"
  else if c < 0x20 then unicodeEscape c
  else [c]

def isHighSurrogate (c : UInt16) : Bool := 0xd800 ≤ c && c ≤ 0xdbff

def isLowSurrogate (c : UInt16) : Bool := 0xdc00 ≤ c && c ≤ 0xdfff

/-- The inside of `JSON.stringify`: a lone surrogate is escaped. -/
def escapeText : Text → Text
  | [] => []
  | [c] => if isHighSurrogate c || isLowSurrogate c then unicodeEscape c else escapeUnit c
  | c :: c' :: rest =>
    if isHighSurrogate c && isLowSurrogate c' then c :: c' :: escapeText rest
    else if isHighSurrogate c || isLowSurrogate c then unicodeEscape c ++ escapeText (c' :: rest)
    else escapeUnit c ++ escapeText (c' :: rest)

def jsonStringify (t : Text) : Text := text "\"" ++ escapeText t ++ text "\""

/-- A number of JavaScript: its value when it is a safe integer, and its text. -/
structure Number where
  safeInteger : Option Int
  text : Text
deriving DecidableEq, Repr

/-! ## Data -/

variable {ε γ Token D Message Variables : Type}

/-- The caller's tokenizer. `decodeStream` is a new incremental decoder when there are
any, and `decodeStep` its `step`. -/
structure ChatTokenizer (ε Token D Message Variables : Type) where
  /-- The template, the messages, `addGenerationPrompt`, the `bos_token`, and the variables
  that are spread over it. -/
  applyChatTemplate : Text → List Message → Bool → Option Text → Option Variables → Except ε Text
  encode : Text → Except ε (List Token)
  decode : List Token → Except ε Text
  decodeStream : Option D
  decodeStep : D → Token → Except ε (Option Text × D)
  tokenToId : Text → Option Token
  idToToken : Token → Option Text

structure ChatControlTokens where
  start : Text
  message : Text
  endOfMessage : Text
  endOfTurn : Option Text
  endOfText : Text
deriving DecidableEq, Repr

def defaultControls : ChatControlTokens :=
  ⟨text "<|start|>", text "<|message|>", text "<|eom|>", some (text "<|eot|>"),
    text "<|end_of_text|>"⟩

/-- A partial override. The optional control may be overridden by `undefined`. -/
structure ControlOverrides where
  start : Option Text
  message : Option Text
  endOfMessage : Option Text
  endOfTurn : Option (Option Text)
  endOfText : Option Text
deriving DecidableEq, Repr

/-- The `controls` option. -/
inductive Controls where
  | omitted
  | overridden (overrides : ControlOverrides)
  | disabled
deriving DecidableEq, Repr

structure ChatOptions (ε Token D Message Variables : Type) where
  tokenizer : ChatTokenizer ε Token D Message Variables
  template : Text
  messages : List Message
  addGenerationPrompt : Option Bool
  /-- The `variables` option. -/
  templateVariables : Option Variables
  bosTokenId : Option Token
  maxTokens : Option Number
  controls : Controls
  stopTokens : Option (List Token)

inductive ChatSegmentKind where
  | content
  | reasoning
  | tool
  | other
deriving DecidableEq, Repr

structure ChatSegment where
  index : Nat
  role : Text
  recipient : Option Text
  kind : ChatSegmentKind
deriving DecidableEq, Repr

inductive ChatSegmentFinish where
  | message
  | turn
  | limit
deriving DecidableEq, Repr

structure CompletedChatSegment extends ChatSegment where
  content : Text
  finish : ChatSegmentFinish
deriving DecidableEq, Repr

structure ChatStats where
  promptTokens : Nat
  generatedTokens : Nat
deriving DecidableEq, Repr

/-- `StopReason`. -/
inductive StopReason where
  | stop
  | maxTokens
deriving DecidableEq, Repr

inductive PageStopReason where
  | eos
  | maxTokens
deriving DecidableEq, Repr

structure ChatResult where
  content : Text
  reasoning : Text
  segments : List CompletedChatSegment
  finishReason : StopReason
  stats : ChatStats
deriving DecidableEq, Repr

/-- `ended` is the event `end`. -/
inductive ChatEvent where
  | prefill (tokens : Nat)
  | start (segment : ChatSegment)
  | delta (segment : ChatSegment) (text : Text)
  | ended (segment : ChatSegment) (finish : ChatSegmentFinish)
  | done (result : ChatResult)
deriving DecidableEq, Repr

inductive Op where
  | validate
  | template
  | sample
deriving DecidableEq, Repr

/-- `ChatError`, or an error of the tokenizer or of the generator. -/
inductive Failure (ε γ : Type) where
  | chat (op : Op) (message : Text)
  | tokenizer (cause : ε)
  | generation (cause : γ)
deriving DecidableEq, Repr

def segmentKind (role : Text) (recipient : Option Text) : ChatSegmentKind :=
  if role = text "assistant" then
    if recipient = some (text "self") then .reasoning
    else if recipient = none ∨ recipient = some (text "user") then .content
    else .tool
  else .other

structure ResolvedControls (Token : Type) where
  start : Token
  message : Token
  endOfMessage : Token
  endOfTurn : Option Token
deriving DecidableEq, Repr

/-! ## The parser -/

inductive ParserState where
  | header
  | content
  | seekStart
  | done
deriving DecidableEq, Repr

structure Parser (Token D : Type) where
  state : ParserState
  role : Text
  recipient : Option Text
  headerIds : List Token
  contentIds : List Token
  content : Text
  segmentIndex : Nat
  current : Option ChatSegment
  completed : List CompletedChatSegment
  contentDecoder : Option D

section Parser

variable [DecidableEq Token] (tokenizer : ChatTokenizer ε Token D Message Variables)
  (controls : Option (ResolvedControls Token)) (initialRole : Text)

def makeParser (startsInHeader : Bool) : Parser Token D where
  state := if startsInHeader then .header else .seekStart
  role := initialRole
  recipient := none
  headerIds := []
  contentIds := []
  content := []
  segmentIndex := 0
  current := none
  completed := []
  contentDecoder := match controls with
    | none => tokenizer.decodeStream
    | some _ => none

/-- The text that the last of the content ids adds. -/
def Parser.decodeContent (p : Parser Token D) (token : Token) : Except ε (Text × Parser Token D) :=
  match p.contentDecoder with
  | some decoder => do
    let (delta, decoder) ← tokenizer.decodeStep decoder token
    match delta with
    | none => return ([], { p with contentDecoder := some decoder })
    | some delta =>
      return (delta, { p with contentDecoder := some decoder, content := p.content ++ delta })
  | none => do
    let text ← tokenizer.decode p.contentIds
    return (text.drop p.content.length, { p with content := text })

/-- The segment that `begin` makes current. -/
def Parser.nextSegment (p : Parser Token D) : ChatSegment :=
  ⟨p.segmentIndex, p.role, p.recipient, segmentKind p.role p.recipient⟩

def Parser.begin (p : Parser Token D) : List ChatEvent × Parser Token D :=
  ([.start p.nextSegment],
    { p with current := some p.nextSegment, segmentIndex := p.segmentIndex + 1 })

/-- `end`, which is also the `finish` of the parser. -/
def Parser.finish (p : Parser Token D) (finish : ChatSegmentFinish) :
    List ChatEvent × Parser Token D :=
  match p.current with
  | none => ([], p)
  | some segment => ([.ended segment finish],
      { p with
        completed := p.completed ++ [⟨segment, p.content, finish⟩]
        current := none
        headerIds := []
        contentIds := []
        content := []
        contentDecoder := none
        state := if finish = .turn ∨ finish = .limit then .done else .seekStart })

/-- The delta of a content token, when it is not empty. -/
def Parser.acceptContent (p : Parser Token D) (token : Token) :
    Except ε (List ChatEvent × Parser Token D) := do
  let (delta, p) ← { p with contentIds := p.contentIds ++ [token] }.decodeContent tokenizer token
  match p.current with
  | some segment => return (if 0 < delta.length then [.delta segment delta] else [], p)
  | none => return ([], p)

/-- The header is complete. -/
def Parser.acceptHeader (p : Parser Token D) : Except ε (List ChatEvent × Parser Token D) := do
  let header := trim (← tokenizer.decode p.headerIds)
  let first := firstWord header
  let role := if first.length = 0 ∨ recipientKey.isPrefixOf first then initialRole else first
  return { p with
    state := .content
    role
    recipient := matchRecipient true header
    headerIds := []
    contentIds := []
    content := []
    contentDecoder := tokenizer.decodeStream }.begin

/-- `accept` of the parser without controls. -/
def Parser.acceptPlain (p : Parser Token D) (token : Token) :
    Except ε (List ChatEvent × Parser Token D) := do
  let (started, p) := match p.current with
    | none => p.begin
    | some _ => ([], p)
  let (events, p) ← p.acceptContent tokenizer token
  return (started ++ events, p)

/-- `accept` of the parser with controls. -/
def Parser.acceptSegmented (controls : ResolvedControls Token) (p : Parser Token D) (token : Token) :
    Except ε (List ChatEvent × Parser Token D) :=
  match p.state with
  | .done => .ok ([], p)
  | .seekStart =>
    if token ≠ controls.start then .ok ([], p)
    else .ok ([], { p with
      state := .header
      role := initialRole
      recipient := none
      headerIds := []
      contentIds := []
      content := [] })
  | .header =>
    if token ≠ controls.message then .ok ([], { p with headerIds := p.headerIds ++ [token] })
    else p.acceptHeader tokenizer initialRole
  | .content =>
    if token = controls.endOfMessage ∨ some token = controls.endOfTurn then
      .ok (p.finish (if token = controls.endOfMessage then .message else .turn))
    else p.acceptContent tokenizer token

def Parser.accept (p : Parser Token D) (token : Token) : Except ε (List ChatEvent × Parser Token D) :=
  match controls with
  | none => p.acceptPlain tokenizer token
  | some controls => p.acceptSegmented tokenizer initialRole controls token

end Parser

/-! ## The generator -/

structure Page (Token : Type) where
  tokens : List Token
  stopReason : Option PageStopReason
deriving DecidableEq, Repr

/-- What a read of the generator gives. A page knows the read behind it. A read that fails
stands for one whose page fails as well. -/
inductive GenerationRead (γ Token : Type) where
  | page (page : Page Token) (next : Token → GenerationRead γ Token)
  | done (finishReason : StopReason)
  | failed (cause : γ)

structure Request (Token : Type) where
  prompt : List Token
  maxTokens : Option Number
  eosTokens : List Token
deriving DecidableEq, Repr

abbrev OpenGeneration (γ Token : Type) := Request Token → Except γ (GenerationRead γ Token)

/-! ## The stream -/

/-- The state of `Stream.paginate`. -/
inductive State (γ Token : Type) where
  | prefill
  | read (read : GenerationRead γ Token)
  | next (next : Token → GenerationRead γ Token) (token : Token)
  | tokens (page : Page Token) (next : Token → GenerationRead γ Token) (offset : Nat)

/-- What the callbacks of the stream share. -/
structure Driver (Token D : Type) where
  parser : Parser Token D
  generatedTokens : Nat
  sampledTokens : Nat

inductive Outcome (ε γ : Type) where
  | running
  | finished
  | failed (cause : Failure ε γ)
deriving DecidableEq, Repr

/-- The events of the stream, the tokens the parser was given, and how it stands. -/
structure Run (ε γ Token : Type) where
  events : List ChatEvent
  parsed : List Token
  outcome : Outcome ε γ
deriving DecidableEq, Repr

/-- One callback of `Stream.paginate`. -/
structure Turn (ε γ Token D : Type) where
  events : List ChatEvent
  parsed : List Token
  next : Except (Failure ε γ) (Option (State γ Token × Driver Token D))

/-- What the stream needs when it starts. -/
structure Prepared (γ Token : Type) where
  controls : Option (ResolvedControls Token)
  stopTokens : List Token
  promptTokens : Nat
  initialRead : GenerationRead γ Token

section Stream

variable [DecidableEq Token] [ToString Token] (options : ChatOptions ε Token D Message Variables)

def requireTokenId (token : Text) : Except (Failure ε γ) Token :=
  match options.tokenizer.tokenToId token with
  | none => .error (.chat .validate
      (text "chat control token " ++ jsonStringify token ++ text " is not in the tokenizer"))
  | some id => .ok id

/-- The `controls` of the stream. -/
def ChatOptions.resolved : Option ChatControlTokens :=
  match options.controls with
  | .disabled => none
  | .omitted => some defaultControls
  | .overridden o => some ⟨o.start.getD defaultControls.start, o.message.getD defaultControls.message,
      o.endOfMessage.getD defaultControls.endOfMessage, o.endOfTurn.getD defaultControls.endOfTurn,
      o.endOfText.getD defaultControls.endOfText⟩

def resolveControls : Option ChatControlTokens →
    Except (Failure ε γ) (Option (ResolvedControls Token))
  | none => .ok none
  | some controls => do
    let start ← requireTokenId options controls.start
    let message ← requireTokenId options controls.message
    let endOfMessage ← requireTokenId options controls.endOfMessage
    let endOfTurn ← match controls.endOfTurn with
      | none => .ok none
      | some token => some <$> requireTokenId options token
    return some ⟨start, message, endOfMessage, endOfTurn⟩

/-- The stop set, in the order of insertion. -/
def resolveStopTokens (controls : Option ChatControlTokens)
    (resolvedControls : Option (ResolvedControls Token)) : Except (Failure ε γ) (List Token) :=
  match options.stopTokens with
  | some stopTokens => .ok stopTokens.eraseDups
  | none => do
    let endOfText ← requireTokenId options
      ((controls.getD defaultControls).endOfText)
    return (((resolvedControls.bind (·.endOfTurn)).toList ++ [endOfText]).eraseDups)

def resolveBosToken : Except (Failure ε γ) (Option Text) :=
  match options.bosTokenId with
  | none => .ok none
  | some id =>
    match options.tokenizer.idToToken id with
    | none => .error (.chat .validate
        (text "bosTokenId " ++ text (toString id) ++ text " is not in the tokenizer"))
    | some token => .ok (some token)

def checkOptions : Except (Failure ε γ) Unit :=
  if options.template.length = 0 then
    .error (.chat .template (text "chat template must be non-empty"))
  else if options.messages.length = 0 then
    .error (.chat .validate (text "messages must not be empty"))
  else match options.maxTokens with
    | none => .ok ()
    | some maxTokens =>
      if maxTokens.safeInteger.any (0 < ·) then .ok ()
      else .error (.chat .validate
        (text "maxTokens must be a positive integer, got " ++ maxTokens.text))

/-- The controls and the request, up to the encoded prompt. -/
def prepareRequest :
    Except (Failure ε γ) (Option (ResolvedControls Token) × Request Token) := do
  let controls := options.resolved
  let resolvedControls ← resolveControls options controls
  let stopTokens ← resolveStopTokens options controls resolvedControls
  let bosToken ← resolveBosToken options
  let rendered ← (options.tokenizer.applyChatTemplate options.template options.messages
    (options.addGenerationPrompt.getD true) bosToken options.templateVariables).mapError .tokenizer
  let encoded ← (options.tokenizer.encode rendered).mapError .tokenizer
  return (resolvedControls, ⟨encoded, options.maxTokens, stopTokens⟩)

/-- The part of `streamGeneration` before the stream. -/
def prepare (prepareOpen : Except γ (OpenGeneration γ Token)) :
    Except (Failure ε γ) (Prepared γ Token) := do
  checkOptions options
  let openGeneration ← prepareOpen.mapError .generation
  let (controls, request) ← prepareRequest options
  let initialRead ← (openGeneration request).mapError .generation
  return ⟨controls, request.eosTokens, request.prompt.length, initialRead⟩

/-- `Array.join`. -/
def join (separator : Text) : List Text → Text
  | [] => []
  | [t] => t
  | t :: rest => t ++ separator ++ join separator rest

def chatResult (promptTokens generatedTokens : Nat) (segments : List CompletedChatSegment)
    (finishReason : StopReason) : ChatResult where
  content := join [] ((segments.filter (·.kind = .content)).map (·.content))
  reasoning := join (text "\n\n") ((segments.filter (·.kind = .reasoning)).map (·.content))
  segments
  finishReason
  stats := ⟨promptTokens, generatedTokens⟩

/-- `finish` of the stream: the events that end it. -/
def Driver.finish (promptTokens : Nat) (d : Driver Token D) (events : List ChatEvent)
    (finishReason : StopReason) : List ChatEvent :=
  let (ended, parser) := d.parser.finish (if finishReason = .stop then .turn else .limit)
  events ++ ended ++
    [.done (chatResult promptTokens d.generatedTokens parser.completed finishReason)]

/-- `options.maxTokens !== undefined && sampledTokens >= options.maxTokens`. -/
def limitReached (maxTokens : Option Number) (sampledTokens : Nat) : Bool :=
  match maxTokens with
  | none => false
  | some maxTokens => maxTokens.safeInteger.any (· ≤ (sampledTokens : Int))

variable (prepared : Prepared γ Token)

/-- The counters behind an accepted token. -/
def Driver.count (stopTokens : List Token) (d : Driver Token D) (parser : Parser Token D)
    (token : Token) : Driver Token D :=
  ⟨parser, if stopTokens.contains token then d.generatedTokens else d.generatedTokens + 1,
    d.sampledTokens + 1⟩

/-- A callback behind the prefill, at an offset of what was read. -/
def turnAt (read : GenerationRead γ Token) (offset : Nat) (d : Driver Token D) :
    Turn ε γ Token D :=
  match read with
  | .failed cause => ⟨[], [], .error (.generation cause)⟩
  | .done finishReason => ⟨d.finish prepared.promptTokens [] finishReason, [], .ok none⟩
  | .page page next =>
    match page.tokens[offset]? with
    | none => ⟨[], [], .error (.chat .sample (text "generation returned an empty token page"))⟩
    | some token =>
      match d.parser.accept options.tokenizer prepared.controls (text "assistant") token with
      | .error cause => ⟨[], [token], .error (.tokenizer cause)⟩
      | .ok (events, parser) =>
        let d := d.count prepared.stopTokens parser token
        let stopped := prepared.stopTokens.contains token
        let pageStopped := if offset + 1 = page.tokens.length then page.stopReason else none
        if stopped || pageStopped.isSome || limitReached options.maxTokens d.sampledTokens then
          ⟨d.finish prepared.promptTokens events
            (if stopped || pageStopped = some .eos then .stop else .maxTokens), [token], .ok none⟩
        else if offset + 1 < page.tokens.length then
          ⟨events, [token], .ok (some (.tokens page next (offset + 1), d))⟩
        else ⟨events, [token], .ok (some (.next next token, d))⟩

/-- The callback of `Stream.paginate`. -/
def turn (state : State γ Token) (d : Driver Token D) : Turn ε γ Token D :=
  match state with
  | .prefill =>
    ⟨[.prefill prepared.promptTokens], [], .ok (some (.read prepared.initialRead, d))⟩
  | .read read => turnAt options prepared read 0 d
  | .next next token => turnAt options prepared (next token) 0 d
  | .tokens page next offset => turnAt options prepared (.page page next) offset d

def Run.after (run : Run ε γ Token) (events : List ChatEvent) (parsed : List Token) :
    Run ε γ Token :=
  ⟨events ++ run.events, parsed ++ run.parsed, run.outcome⟩

/-- `Stream.paginate`, for a number of callbacks. -/
def paginate : Nat → State γ Token → Driver Token D → Run ε γ Token
  | 0, _, _ => ⟨[], [], .running⟩
  | turns + 1, state, d =>
    let t := turn options prepared state d
    match t.next with
    | .error cause => ⟨t.events, t.parsed, .failed cause⟩
    | .ok none => ⟨t.events, t.parsed, .finished⟩
    | .ok (some (state, d)) => (paginate turns state d).after t.events t.parsed

def Prepared.driver : Driver Token D where
  parser := makeParser options.tokenizer prepared.controls (text "assistant")
    (options.addGenerationPrompt.getD true)
  generatedTokens := 0
  sampledTokens := 0

/-- `streamGeneration`, followed for a number of callbacks. -/
def streamGeneration (prepareOpen : Except γ (OpenGeneration γ Token)) (turns : Nat) :
    Run ε γ Token :=
  match prepare options prepareOpen with
  | .error cause => ⟨[], [], .failed cause⟩
  | .ok prepared => paginate options prepared turns .prefill (prepared.driver options)

end Stream

end EffectTorch.Chat
