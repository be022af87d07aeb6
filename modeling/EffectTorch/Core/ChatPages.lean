import EffectTorch.Core.ChatSegments

/-!
# Pages of the chat stream

The stream depends on the token sequence of the generator and not on its pages, and what it
emits is a prefill, complete segments in order, and the result built from them.

Results:
1. `paginate_eq_consume`: the pages are read as one token sequence.
2. `consume_shape`, `consume_parsed`, `consume_ends`: what the stream emits, which tokens it
   parses, and that it ends.
3. `streamGeneration_pages`: the stream as a whole.
-/

namespace EffectTorch.Chat
open List

/-! ## Token sequences -/

/-- What stands behind the last token of a generator. -/
inductive Ending (γ : Type) where
  | done (finishReason : StopReason)
  | stopped (stopReason : PageStopReason)
  | failed (cause : γ)
  | emptyPage
deriving DecidableEq, Repr

variable {ε γ Token D Message Variables : Type}

def Ending.stopReason : Ending γ → Option PageStopReason
  | stopped reason => some reason
  | _ => none

/-- The tokens that the generator gives, whatever its pages are. -/
def GenerationRead.sequence : GenerationRead γ Token → List Token × Ending γ
  | .failed cause => ([], .failed cause)
  | .done finishReason => ([], .done finishReason)
  | .page p next =>
    match p.tokens.getLast?, p.stopReason with
    | none, _ => ([], .emptyPage)
    | some _, some reason => (p.tokens, .stopped reason)
    | some token, none => (p.tokens ++ (next token).sequence.1, (next token).sequence.2)

variable {p : Page Token} {next : Token → GenerationRead γ Token} {token : Token}

/-- A page with a stop reason is the last one. -/
theorem sequence_last {reason : PageStopReason} (hlast : p.tokens.getLast? = some token)
    (hstop : p.stopReason = some reason) :
    (GenerationRead.page p next).sequence = (p.tokens, .stopped reason) := by
  unfold GenerationRead.sequence
  rw [hlast, hstop]

theorem sequence_page (hlast : p.tokens.getLast? = some token) (hstop : p.stopReason = none) :
    (GenerationRead.page p next).sequence =
      (p.tokens ++ (next token).sequence.1, (next token).sequence.2) := by
  rw [GenerationRead.sequence, hlast, hstop]

/-- A stop reason stands on a token. -/
theorem sequence_stopReason (read : GenerationRead γ Token) (h : read.sequence.1 = []) :
    read.sequence.2.stopReason = none := by
  cases read with
  | failed cause => unfold GenerationRead.sequence; rfl
  | done finishReason => unfold GenerationRead.sequence; rfl
  | page p next =>
    cases hlast : p.tokens.getLast? with
    | none => unfold GenerationRead.sequence; rw [hlast]; rfl
    | some token =>
      have hne : p.tokens ≠ [] := by
        rintro hnil
        rw [hnil] at hlast
        cases hlast
      cases hstop : p.stopReason with
      | some reason =>
        rw [sequence_last hlast hstop] at h
        exact absurd h hne
      | none =>
        rw [sequence_page hlast hstop] at h
        exact absurd (append_eq_nil_iff.mp h).1 hne

/-- The state stands at an offset of a read. -/
inductive At : State γ Token → GenerationRead γ Token → Nat → Prop where
  | read (read : GenerationRead γ Token) : At (.read read) read 0
  | next (next : Token → GenerationRead γ Token) (token : Token) :
      At (.next next token) (next token) 0
  | tokens (page : Page Token) (next : Token → GenerationRead γ Token) {offset : Nat} :
      offset < page.tokens.length → At (.tokens page next offset) (.page page next) offset

/-- What stands behind a token of a page. -/
structure Behind (p : Page Token) (next : Token → GenerationRead γ Token) (offset : Nat)
    (token : Token) (tokens : List Token) (ending : Ending γ) : Prop where
  rest : (GenerationRead.page p next).sequence.1.drop (offset + 1) = tokens
  stop : (if tokens = [] then ending.stopReason else none) =
    if offset + 1 = p.tokens.length then p.stopReason else none
  next : offset + 1 = p.tokens.length → p.stopReason = none → (next token).sequence = (tokens, ending)

theorem sequence_behind (next : Token → GenerationRead γ Token) (htoken : p.tokens[offset]? = some token) :
    ∃ tokens, (GenerationRead.page p next).sequence.1.drop offset = token :: tokens ∧
      Behind p next offset token tokens (GenerationRead.page p next).sequence.2 := by
  obtain ⟨hoffset, hget⟩ := List.getElem?_eq_some_iff.mp htoken
  have hdrop : p.tokens.drop offset = token :: p.tokens.drop (offset + 1) := by
    rw [drop_eq_getElem_cons hoffset, hget]
  have hne : p.tokens ≠ [] := ne_nil_of_length_pos (Nat.zero_lt_of_lt hoffset)
  have hlast := List.getLast?_eq_some_getLast hne
  have hend : p.tokens.drop (offset + 1) = [] ↔ offset + 1 = p.tokens.length := by
    rw [drop_eq_nil_iff]
    omega
  cases hstop : p.stopReason with
  | some reason =>
    rw [sequence_last hlast hstop]
    refine ⟨_, hdrop, ⟨by rw [sequence_last hlast hstop], ?_, fun _ hnone => ?_⟩⟩
    · simp only [hstop, hend, Ending.stopReason]
    · rw [hstop] at hnone
      cases hnone
  | none =>
    rw [sequence_page hlast hstop]
    refine ⟨p.tokens.drop (offset + 1) ++ (next (p.tokens.getLast hne)).sequence.1, ?_,
      ⟨?_, ?_, fun hlength _ => ?_⟩⟩
    · rw [drop_append_of_le_length (Nat.le_of_lt hoffset), hdrop, cons_append]
    · rw [sequence_page hlast hstop]
      exact drop_append_of_le_length hoffset
    · rw [hstop, ite_self]
      split
      next hnil => exact sequence_stopReason _ (append_eq_nil_iff.mp hnil).2
      next => rfl
    · have htoken : p.tokens.getLast hne = token := by
        rw [getLast_eq_getElem, ← hget]
        congr 1
        omega
      rw [hend.mpr hlength, nil_append, htoken]

/-- Only an empty page has no token where the state stands. -/
theorem At.sequence_empty {state : State γ Token} {offset : Nat} (h : At state (.page p next) offset)
    (hnone : p.tokens[offset]? = none) : (GenerationRead.page p next).sequence = ([], .emptyPage) := by
  have hlength := List.getElem?_eq_none_iff.mp hnone
  have hnil : p.tokens = [] := by
    generalize hread : GenerationRead.page p next = read at h
    cases h with
    | read => exact eq_nil_of_length_eq_zero (Nat.le_zero.mp hlength)
    | next => exact eq_nil_of_length_eq_zero (Nat.le_zero.mp hlength)
    | tokens page next' hoffset =>
      cases hread
      exact absurd hoffset (Nat.not_lt.mpr hlength)
  rw [GenerationRead.sequence, hnil]
  rfl

/-! ## The stream over tokens -/

section Stream

variable [DecidableEq Token] (options : ChatOptions ε Token D Message Variables)
  (prepared : Prepared γ Token)

/-- The stream over a token sequence, for a number of callbacks. -/
def consume : Nat → List Token → Ending γ → Driver Token D → Run ε γ Token
  | 0, _, _, _ => ⟨[], [], .running⟩
  | _ + 1, [], ending, d =>
    match ending with
    | .done finishReason => ⟨d.finish prepared.promptTokens [] finishReason, [], .finished⟩
    | .failed cause => ⟨[], [], .failed (.generation cause)⟩
    | _ => ⟨[], [], .failed (.chat .sample (text "generation returned an empty token page"))⟩
  | turns + 1, token :: tokens, ending, d =>
    match d.parser.accept options.tokenizer prepared.controls (text "assistant") token with
    | .error cause => ⟨[], [token], .failed (.tokenizer cause)⟩
    | .ok (events, parser) =>
      let d := d.count prepared.stopTokens parser token
      let stopped := prepared.stopTokens.contains token
      let pageStopped := if tokens = [] then ending.stopReason else none
      if stopped || pageStopped.isSome || limitReached options.maxTokens d.sampledTokens then
        ⟨d.finish prepared.promptTokens events
          (if stopped || pageStopped = some .eos then .stop else .maxTokens), [token], .finished⟩
      else (consume turns tokens ending d).after events [token]

variable {options prepared} {state : State γ Token} {read : GenerationRead γ Token} {offset : Nat}
  {d : Driver Token D}

theorem turn_at (h : At state read offset) :
    turn options prepared state d = turnAt options prepared read offset d := by
  cases h <;> rfl

/-- Pages are read as one token sequence. -/
theorem paginate_eq_consume (turns : Nat) (h : At state read offset) :
    paginate options prepared turns state d =
      consume options prepared turns (read.sequence.1.drop offset) read.sequence.2 d := by
  induction turns generalizing state read offset d with
  | zero => rfl
  | succ turns ih =>
    unfold paginate
    rw [turn_at h]
    cases read with
    | failed cause =>
      unfold turnAt GenerationRead.sequence
      rw [drop_nil]
      rfl
    | done finishReason =>
      unfold turnAt GenerationRead.sequence
      rw [drop_nil]
      rfl
    | page p next =>
      unfold turnAt
      dsimp only
      cases htoken : p.tokens[offset]? with
      | none =>
        rw [h.sequence_empty htoken, drop_nil]
        rfl
      | some token =>
        obtain ⟨tokens, hdrop, hbehind⟩ := sequence_behind next htoken
        rw [hdrop]
        unfold consume
        dsimp only
        rw [hbehind.stop]
        cases haccept : d.parser.accept options.tokenizer prepared.controls (text "assistant") token with
        | error cause => rfl
        | ok result =>
          obtain ⟨events, parser⟩ := result
          dsimp only
          by_cases hstops : (prepared.stopTokens.contains token ||
              (if offset + 1 = p.tokens.length then p.stopReason else none).isSome ||
              limitReached options.maxTokens
                (d.count prepared.stopTokens parser token).sampledTokens) = true
          · rw [if_pos hstops, if_pos hstops]
          · rw [if_neg hstops, if_neg hstops]
            by_cases hmore : offset + 1 < p.tokens.length
            · rw [if_pos hmore]
              dsimp only
              rw [ih (.tokens p next hmore), hbehind.rest]
            · have hlast : offset + 1 = p.tokens.length := by
                have := (List.getElem?_eq_some_iff.mp htoken).1
                omega
              have hopen : p.stopReason = none := by
                simp only [hlast, if_true, Bool.or_eq_true, not_or] at hstops
                exact Option.not_isSome_iff_eq_none.mp hstops.1.2
              rw [if_neg hmore]
              dsimp only
              rw [ih (.next next token), hbehind.next hlast hopen, drop_zero]

/-- An accepted token ends the stream, or the stream goes on short of the limit. -/
theorem consume_cons {token : Token} {events : List ChatEvent} {parser : Parser Token D}
    (turns : Nat) (tokens : List Token) (ending : Ending γ)
    (h : d.parser.accept options.tokenizer prepared.controls (text "assistant") token =
      .ok (events, parser)) :
    let d' := d.count prepared.stopTokens parser token
    (∃ finishReason, consume options prepared (turns + 1) (token :: tokens) ending d =
      ⟨d'.finish prepared.promptTokens events finishReason, [token], .finished⟩) ∨
    token ∉ prepared.stopTokens ∧ limitReached options.maxTokens d'.sampledTokens = false ∧
      consume options prepared (turns + 1) (token :: tokens) ending d =
        (consume options prepared turns tokens ending d').after events [token] := by
  intro d'
  by_cases hstops : (prepared.stopTokens.contains token ||
      (if tokens = [] then ending.stopReason else none).isSome ||
      limitReached options.maxTokens d'.sampledTokens) = true
  · refine .inl ⟨if prepared.stopTokens.contains token ||
      (if tokens = [] then ending.stopReason else none) = some .eos then .stop else .maxTokens, ?_⟩
    rw [consume, h]
    exact if_pos hstops
  · refine .inr ⟨?_, ?_, by rw [consume, h]; exact if_neg hstops⟩
    · simp only [Bool.or_eq_true, not_or] at hstops
      simpa using hstops.1.1
    · simp only [Bool.or_eq_true, not_or] at hstops
      simpa using hstops.2

/-! ## What is emitted -/

/-- Complete segments, then the result when the stream is finished and an open segment when
it is not. -/
def Shape (promptTokens generatedTokens : Nat) (run : Run ε γ Token) : Prop :=
  ∃ parts current deltas, PartsOk parts current deltas ∧
    match run.outcome with
    | .finished => current = none ∧ ∃ finishReason,
      run.events = parts.flatMap Part.events ++
        [.done (chatResult promptTokens generatedTokens (parts.map Part.completed) finishReason)]
    | _ => run.events = parts.flatMap Part.events ++ openEvents current deltas

/-- The accepted tokens that are not stop tokens. -/
def countGenerated (stopTokens parsed : List Token) : Nat :=
  parsed.countP fun token => !stopTokens.contains token

variable {emitted : List ChatEvent} {parts : List Part} {deltas : List Text}

omit [DecidableEq Token] in
theorem finish_shape {promptTokens : Nat} {events : List ChatEvent} {parsed : List Token}
    (hemitted : Emitted (emitted ++ events) d.parser parts deltas) (finishReason : StopReason) :
    Shape (ε := ε) (γ := γ) promptTokens d.generatedTokens
      ⟨emitted ++ d.finish promptTokens events finishReason, parsed, .finished⟩ := by
  obtain ⟨parts', hfinished, hnone⟩ :=
    hemitted.finish (if finishReason = .stop then .turn else .limit)
  refine ⟨parts', none, [], hnone ▸ hfinished.toPartsOk, rfl, finishReason, ?_⟩
  have hevents := hfinished.events
  rw [hnone] at hevents
  unfold Driver.finish
  dsimp only
  rw [← append_assoc, ← append_assoc, hevents, hfinished.completed, openEvents,
    append_nil]

theorem count_generated (stopTokens : List Token) (d : Driver Token D) (parser : Parser Token D)
    (token : Token) (parsed : List Token) :
    (d.count stopTokens parser token).generatedTokens + countGenerated stopTokens parsed =
      d.generatedTokens + countGenerated stopTokens (token :: parsed) := by
  unfold Driver.count countGenerated
  rw [countP_cons]
  cases stopTokens.contains token
  · exact (Nat.add_assoc ..).trans (congrArg _ (Nat.add_comm ..))
  · rfl

theorem consume_shape (turns : Nat) (tokens : List Token) (ending : Ending γ)
    (hstable : options.tokenizer.PrefixStable) (hemitted : Emitted emitted d.parser parts deltas)
    (hready : Ready options.tokenizer prepared.controls.isSome d.parser) :
    Shape prepared.promptTokens
      (d.generatedTokens + countGenerated prepared.stopTokens
        (consume options prepared turns tokens ending d).parsed)
      ((consume options prepared turns tokens ending d).after emitted []) := by
  induction turns generalizing tokens d emitted parts deltas with
  | zero => exact ⟨parts, _, deltas, hemitted.toPartsOk, by rw [← hemitted.events]; exact append_nil _⟩
  | succ turns ih =>
    have hstays : ∀ {cause : Failure ε γ} {parsed : List Token} {generatedTokens : Nat},
        Shape prepared.promptTokens generatedTokens
          (Run.after ⟨[], parsed, .failed cause⟩ emitted []) := fun {_ _ _} =>
      ⟨parts, _, deltas, hemitted.toPartsOk, by rw [← hemitted.events]; exact append_nil _⟩
    cases tokens with
    | nil =>
      cases ending with
      | done finishReason =>
        exact finish_shape (by rwa [append_nil]) finishReason
      | _ => exact hstays
    | cons token tokens =>
      cases haccept : d.parser.accept options.tokenizer prepared.controls (text "assistant") token with
      | error cause =>
        unfold consume
        rw [haccept]
        exact hstays
      | ok result =>
        obtain ⟨events, parser⟩ := result
        obtain ⟨parts', deltas', hemitted', hready'⟩ := accept_emitted hstable hemitted hready haccept
        rcases consume_cons turns tokens ending haccept with
          ⟨finishReason, hrun⟩ | ⟨-, -, hrun⟩
        · rw [hrun]
          have hcount := count_generated prepared.stopTokens d parser token []
          dsimp only
          rw [← hcount]
          exact finish_shape (d := d.count prepared.stopTokens parser token) hemitted' finishReason
        · have hrest := ih (d := d.count prepared.stopTokens parser token) tokens hemitted' hready'
          rw [count_generated] at hrest
          unfold Shape Run.after at hrest
          rw [append_assoc] at hrest
          rw [hrun]
          exact hrest

/-! ## What is parsed -/

/-- The parsed tokens start the sequence, end at the first stop token and keep the limit. -/
structure ParsedOk (stopTokens : List Token) (maxTokens : Option Number) (sampledTokens : Nat)
    (tokens parsed : List Token) : Prop where
  isPrefix : parsed <+: tokens
  stop : ∀ token ∈ parsed.dropLast, token ∉ stopTokens
  limit : parsed = [] ∨ limitReached maxTokens (sampledTokens + parsed.length - 1) = false

section Parsed

variable {stopTokens tokens parsed : List Token} {maxTokens : Option Number} {sampledTokens : Nat}
  {token : Token}

omit [DecidableEq Token] in
theorem ParsedOk.nil : ParsedOk stopTokens maxTokens sampledTokens tokens [] :=
  ⟨⟨tokens, rfl⟩, nofun, .inl rfl⟩

omit [DecidableEq Token] in
theorem ParsedOk.one (hlimit : limitReached maxTokens sampledTokens = false) :
    ParsedOk stopTokens maxTokens sampledTokens (token :: tokens) [token] :=
  ⟨⟨tokens, rfl⟩, nofun, .inr hlimit⟩

omit [DecidableEq Token] in
theorem ParsedOk.cons (h : ParsedOk stopTokens maxTokens (sampledTokens + 1) tokens parsed)
    (hstop : token ∉ stopTokens) (hlimit : limitReached maxTokens sampledTokens = false) :
    ParsedOk stopTokens maxTokens sampledTokens (token :: tokens) (token :: parsed) := by
  refine ⟨(cons_prefix_cons).mpr ⟨rfl, h.isPrefix⟩, ?_, .inr ?_⟩
  · cases parsed with
    | nil => exact nofun
    | cons next parsed =>
      rw [dropLast_cons_of_ne_nil (cons_ne_nil _ _)]
      exact forall_mem_cons.mpr ⟨hstop, h.stop⟩
  · rcases h.limit with rfl | hrest
    · exact hlimit
    · have hcount : sampledTokens + 1 + parsed.length - 1 = sampledTokens + (token :: parsed).length - 1 := by
        rw [length_cons, Nat.add_right_comm, Nat.add_assoc]
      exact hcount ▸ hrest

end Parsed

theorem consume_parsed (turns : Nat) (tokens : List Token) (ending : Ending γ)
    (hlimit : limitReached options.maxTokens d.sampledTokens = false) :
    ParsedOk prepared.stopTokens options.maxTokens d.sampledTokens tokens
      (consume options prepared turns tokens ending d).parsed := by
  induction turns generalizing tokens d with
  | zero => exact ParsedOk.nil
  | succ turns ih =>
    cases tokens with
    | nil => cases ending <;> exact ParsedOk.nil
    | cons token tokens =>
      cases haccept : d.parser.accept options.tokenizer prepared.controls (text "assistant") token with
      | error cause =>
        rw [consume, haccept]
        exact ParsedOk.one hlimit
      | ok result =>
        rcases consume_cons turns tokens ending haccept with
          ⟨finishReason, hrun⟩ | ⟨hstop, hless, hrun⟩
        · rw [hrun]
          exact ParsedOk.one hlimit
        · rw [hrun]
          exact (ih tokens hless).cons hstop hlimit

/-- A token takes one callback, and the end one more. -/
theorem consume_ends (turns : Nat) (tokens : List Token) (ending : Ending γ)
    (hturns : tokens.length < turns) :
    (consume options prepared turns tokens ending d).outcome ≠ .running := by
  induction turns generalizing tokens d with
  | zero => exact absurd hturns (Nat.not_lt_zero _)
  | succ turns ih =>
    cases tokens with
    | nil => cases ending <;> exact nofun
    | cons token tokens =>
      cases haccept : d.parser.accept options.tokenizer prepared.controls (text "assistant") token with
      | error cause =>
        rw [consume, haccept]
        exact nofun
      | ok result =>
        rcases consume_cons turns tokens ending haccept with ⟨finishReason, hrun⟩ | ⟨-, -, hrun⟩
        · rw [hrun]
          exact nofun
        · rw [hrun]
          exact ih tokens (Nat.lt_of_succ_lt_succ hturns)

theorem consume_read (initialRead : GenerationRead γ Token) (turns : Nat) (tokens : List Token)
    (ending : Ending γ) (d : Driver Token D) :
    consume options { prepared with initialRead } turns tokens ending d =
      consume options prepared turns tokens ending d := by
  induction turns generalizing tokens d with
  | zero => rfl
  | succ turns ih =>
    cases tokens with
    | nil => cases ending <;> rfl
    | cons token tokens => simp only [consume, ih]

end Stream

/-! ## The stream as a whole -/

section Whole

variable [DecidableEq Token] [ToString Token] {options : ChatOptions ε Token D Message Variables}
  {prepareOpen : Except γ (OpenGeneration γ Token)} {prepared : Prepared γ Token}

/-- The token sequence that a generator gives for each request. -/
def OpenGeneration.tokens (openGeneration : OpenGeneration γ Token) (request : Request Token) :
    Except γ (List Token × Ending γ) :=
  (openGeneration request).map GenerationRead.sequence

/-- The limit of a stream that starts is positive. -/
theorem prepare_limit (h : prepare options prepareOpen = .ok prepared) (maxTokens : Number)
    (hlimit : options.maxTokens = some maxTokens) :
    ∃ n : Nat, 0 < n ∧ maxTokens.safeInteger = some ↑n := by
  have hcheck : checkOptions (γ := γ) options = .ok () := by
    unfold prepare at h
    cases hcheck : checkOptions (γ := γ) options with
    | error cause => rw [hcheck] at h; cases h
    | ok => rfl
  unfold checkOptions at hcheck
  rw [hlimit] at hcheck
  split at hcheck
  next => cases hcheck
  next =>
  split at hcheck
  next => cases hcheck
  next =>
  dsimp only at hcheck
  split at hcheck
  next hpositive =>
    cases hvalue : maxTokens.safeInteger with
    | none => rw [hvalue] at hpositive; cases hpositive
    | some n =>
      rw [hvalue] at hpositive
      have hn : 0 < n := of_decide_eq_true hpositive
      obtain ⟨m, rfl⟩ := Int.eq_ofNat_of_zero_le (Int.le_of_lt hn)
      exact ⟨m, Int.ofNat_lt.mp hn, rfl⟩
  next => cases hcheck

/-- What the stream owes its reader: the prefill comes first, then complete segments in
order and the result built from them, or an open segment while there is no result. -/
structure StreamOk (options : ChatOptions ε Token D Message Variables) (prepared : Prepared γ Token)
    (run : Run ε γ Token) : Prop where
  events : ∃ rest, run.events = .prefill prepared.promptTokens :: rest ∧
    Shape prepared.promptTokens (countGenerated prepared.stopTokens run.parsed) { run with events := rest }
  parsed : run.parsed <+: prepared.initialRead.sequence.1
  stop : ∀ token ∈ run.parsed.dropLast, token ∉ prepared.stopTokens
  limit : ∀ maxTokens, options.maxTokens = some maxTokens →
    ∃ n : Nat, maxTokens.safeInteger = some ↑n ∧ run.parsed.length ≤ n

theorem streamGeneration_ok (hprepare : prepare options prepareOpen = .ok prepared) (turns : Nat) :
    streamGeneration options prepareOpen (turns + 1) =
      (consume options prepared turns prepared.initialRead.sequence.1
        prepared.initialRead.sequence.2 (prepared.driver options)).after
          [.prefill prepared.promptTokens] [] := by
  unfold streamGeneration
  rw [hprepare]
  exact congrArg (Run.after · _ _) (paginate_eq_consume turns (.read prepared.initialRead))

omit [DecidableEq Token] [ToString Token] in
theorem limitReached_some {maxTokens : Number} {n : Nat} (hvalue : maxTokens.safeInteger = some ↑n)
    (sampledTokens : Nat) :
    limitReached (some maxTokens) sampledTokens = decide (n ≤ sampledTokens) := by
  simp only [limitReached, hvalue, Option.any_some, Int.ofNat_le]

theorem limit_positive (hprepare : prepare options prepareOpen = .ok prepared) :
    limitReached options.maxTokens 0 = false := by
  cases hmax : options.maxTokens with
  | none => rfl
  | some maxTokens =>
    obtain ⟨n, hn, hvalue⟩ := prepare_limit hprepare maxTokens hmax
    rw [limitReached_some hvalue]
    exact decide_eq_false (Nat.not_le.mpr hn)

/-- A stream that starts. -/
theorem streamGeneration_started (hstable : options.tokenizer.PrefixStable)
    (hprepare : prepare options prepareOpen = .ok prepared) (turns : Nat) :
    StreamOk options prepared (streamGeneration options prepareOpen (turns + 1)) := by
  rw [streamGeneration_ok hprepare]
  generalize hread : prepared.initialRead.sequence = sequence
  obtain ⟨tokens, ending⟩ := sequence
  have hparsed : ParsedOk prepared.stopTokens options.maxTokens 0 tokens
      (consume options prepared turns tokens ending (prepared.driver options)).parsed :=
    consume_parsed (d := prepared.driver options) turns tokens ending (limit_positive hprepare)
  have hshape : Shape prepared.promptTokens
      (0 + countGenerated prepared.stopTokens
        (consume options prepared turns tokens ending (prepared.driver options)).parsed)
      ((consume options prepared turns tokens ending (prepared.driver options)).after [] []) :=
    consume_shape turns tokens ending hstable (makeParser_emitted ..) (makeParser_ready ..)
  rw [Nat.zero_add] at hshape
  refine ⟨⟨_, rfl, hshape⟩, ?_, hparsed.stop, fun maxTokens hmax => ?_⟩
  · rw [hread]
    exact hparsed.isPrefix
  · obtain ⟨n, -, hvalue⟩ := prepare_limit hprepare maxTokens hmax
    refine ⟨n, hvalue, ?_⟩
    change (consume options prepared turns tokens ending (prepared.driver options)).parsed.length ≤ n
    rcases hparsed.limit with hnil | hshort
    · rw [hnil]
      exact Nat.zero_le n
    · rw [hmax, limitReached_some hvalue] at hshort
      have := of_decide_eq_false hshort
      omega

/-- A generator is known by its token sequences. -/
theorem prepare_tokens (options : ChatOptions ε Token D Message Variables)
    {prepareOpen' : Except γ (OpenGeneration γ Token)} (h : prepareOpen'.map OpenGeneration.tokens = prepareOpen.map OpenGeneration.tokens) :
    (∃ cause, prepare options prepareOpen = .error cause ∧ prepare options prepareOpen' = .error cause) ∨
    ∃ prepared initialRead, prepare options prepareOpen = .ok prepared ∧
      prepare options prepareOpen' = .ok { prepared with initialRead } ∧
      initialRead.sequence = prepared.initialRead.sequence := by
  unfold prepare
  cases checkOptions (γ := γ) options with
  | error cause => exact .inl ⟨cause, rfl, rfl⟩
  | ok =>
    cases prepareOpen with
    | error cause =>
      cases prepareOpen' with
      | error cause' =>
        cases h
        exact .inl ⟨_, rfl, rfl⟩
      | ok openGeneration' => cases h
    | ok openGeneration =>
      cases prepareOpen' with
      | error cause' => cases h
      | ok openGeneration' =>
        cases prepareRequest (γ := γ) options with
        | error cause => exact .inl ⟨cause, rfl, rfl⟩
        | ok result =>
          obtain ⟨controls, request⟩ := result
          have hread : (openGeneration' request).map GenerationRead.sequence =
              (openGeneration request).map GenerationRead.sequence :=
            congrFun (Except.ok.inj h) request
          dsimp only [Except.mapError, bind, Except.bind]
          cases hfirst : openGeneration request with
          | error cause =>
            cases hsecond : openGeneration' request with
            | error cause' =>
              rw [hfirst, hsecond] at hread
              cases hread
              exact .inl ⟨_, rfl, rfl⟩
            | ok read' => rw [hfirst, hsecond] at hread; cases hread
          | ok read =>
            cases hsecond : openGeneration' request with
            | error cause' => rw [hfirst, hsecond] at hread; cases hread
            | ok read' =>
              rw [hfirst, hsecond] at hread
              exact .inr ⟨_, read', rfl, rfl, Except.ok.inj hread⟩

/-- Generators that give the same tokens give the same stream, and a stream that starts
keeps what it owes, for every number of callbacks. -/
theorem streamGeneration_pages (options : ChatOptions ε Token D Message Variables)
    (hstable : options.tokenizer.PrefixStable) (prepareOpen : Except γ (OpenGeneration γ Token)) :
    (∀ prepareOpen' : Except γ (OpenGeneration γ Token),
      prepareOpen'.map OpenGeneration.tokens = prepareOpen.map OpenGeneration.tokens →
      ∀ turns, streamGeneration options prepareOpen' turns = streamGeneration options prepareOpen turns) ∧
    ∀ prepared, prepare options prepareOpen = .ok prepared → ∀ turns,
      StreamOk options prepared (streamGeneration options prepareOpen (turns + 1)) ∧
      (prepared.initialRead.sequence.1.length < turns →
        (streamGeneration options prepareOpen (turns + 1)).outcome ≠ .running) := by
  refine ⟨fun prepareOpen' htokens turns => ?_, fun prepared hprepare turns =>
    ⟨streamGeneration_started hstable hprepare turns, fun hturns => ?_⟩⟩
  · rcases prepare_tokens options htokens with
      ⟨cause, hfirst, hsecond⟩ | ⟨prepared, read', hfirst, hsecond, hread⟩
    · unfold streamGeneration
      rw [hfirst, hsecond]
    · cases turns with
      | zero =>
        unfold streamGeneration
        rw [hfirst, hsecond]
        rfl
      | succ turns =>
        rw [streamGeneration_ok hfirst, streamGeneration_ok hsecond, consume_read, hread]
        rfl
  · rw [streamGeneration_ok hprepare]
    exact consume_ends turns _ _ hturns

/-- A tokenizer whose ids are code units. -/
def unitTokenizer : ChatTokenizer Empty Nat Unit Unit Unit where
  applyChatTemplate _ _ _ _ _ := .ok []
  encode t := .ok (t.map UInt16.toNat)
  decode ids := .ok (ids.map Nat.toUInt16)
  decodeStream := none
  decodeStep _ _ := .ok (none, ())
  tokenToId _ := none
  idToToken _ := none

theorem unitTokenizer_stable : unitTokenizer.PrefixStable := by
  rintro - ids id before after hbefore hafter
  cases hbefore
  cases hafter
  rw [map_append]
  exact prefix_append _ _

def unitOptions : ChatOptions Empty Nat Unit Unit Unit where
  tokenizer := unitTokenizer
  template := [97]
  messages := [()]
  addGenerationPrompt := none
  templateVariables := none
  bosTokenId := none
  maxTokens := none
  controls := .disabled
  stopTokens := some [3]

/-- The tokens 104, 105 and 3 on one page, and on two. -/
theorem streamGeneration_pages_unit :
    let once : OpenGeneration Empty Nat := fun _ => .ok (.page ⟨[104, 105, 3], none⟩ fun _ => .done .stop)
    let twice : OpenGeneration Empty Nat := fun _ =>
      .ok (.page ⟨[104], none⟩ fun _ => .page ⟨[105, 3], none⟩ fun _ => .done .stop)
    streamGeneration unitOptions (.ok twice) 9 = streamGeneration unitOptions (.ok once) 9 ∧
      (streamGeneration unitOptions (.ok once) 9).outcome ≠ .running := by
  intro once twice
  have hpages := streamGeneration_pages unitOptions unitTokenizer_stable (.ok once)
  exact ⟨hpages.1 (.ok twice) rfl 9, (hpages.2 _ rfl 8).2 (by decide)⟩

end Whole

end EffectTorch.Chat
