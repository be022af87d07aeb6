import EffectTorch.Core.Chat

/-!
# Segments of the chat stream

What the parser has emitted is a list of complete segments and at most one open segment
behind them.

Results:
1. `Emitted.finish`, `acceptContent_emitted`, `acceptHeader_emitted`: the operations of the
   parser.
2. `accept_emitted`: an accepted token.
-/

namespace EffectTorch.Chat
open List Option

variable {ε Token D Message Variables : Type}

/-! ## Parts -/

/-- A complete segment with its deltas. -/
structure Part where
  segment : ChatSegment
  deltas : List Text
  finish : ChatSegmentFinish
deriving DecidableEq, Repr

def Part.events (part : Part) : List ChatEvent :=
  .start part.segment :: part.deltas.map (.delta part.segment) ++ [.ended part.segment part.finish]

def Part.completed (part : Part) : CompletedChatSegment :=
  ⟨part.segment, part.deltas.flatten, part.finish⟩

/-- The events of a segment that has not ended. -/
def openEvents : Option ChatSegment → List Text → List ChatEvent
  | none, _ => []
  | some segment, deltas => .start segment :: deltas.map (.delta segment)

/-- The parts are numbered in order, and no delta is empty. -/
structure PartsOk (parts : List Part) (current : Option ChatSegment) (deltas : List Text) : Prop where
  indices : parts.map (·.segment.index) = List.range parts.length
  last : ∀ segment, current = some segment → segment.index = parts.length
  nonempty : ∀ part ∈ parts, [] ∉ part.deltas
  lastNonempty : [] ∉ deltas

/-- The events are those of the parts and of the open segment, and the parser knows them. -/
structure Emitted (emitted : List ChatEvent) (p : Parser Token D) (parts : List Part)
    (deltas : List Text) : Prop extends PartsOk parts p.current deltas where
  events : emitted = parts.flatMap Part.events ++ openEvents p.current deltas
  completed : p.completed = parts.map Part.completed
  segmentIndex : p.segmentIndex = parts.length + if p.current.isSome then 1 else 0
  content : p.current.isSome → p.content = deltas.flatten
  empty : p.current = none → p.content = [] ∧ p.contentIds = []

/-- Texts of a growing list of ids extend each other, when there is no incremental decoder. -/
def ChatTokenizer.PrefixStable (tokenizer : ChatTokenizer ε Token D Message Variables) : Prop :=
  tokenizer.decodeStream.isNone → ∀ ids id before after,
    tokenizer.decode ids = .ok before → tokenizer.decode (ids ++ [id]) = .ok after → before <+: after

/-- The parser may take a token. -/
structure Ready (tokenizer : ChatTokenizer ε Token D Message Variables) (segmented : Bool)
    (p : Parser Token D) : Prop where
  phase : segmented → (p.state = .content ↔ p.current.isSome)
  decoder : (segmented → p.state = .content) → p.contentDecoder.isNone → tokenizer.decodeStream.isNone
  decoded : p.contentDecoder = none →
    (p.contentIds = [] ∧ p.content = []) ∨ tokenizer.decode p.contentIds = .ok p.content

variable {tokenizer : ChatTokenizer ε Token D Message Variables} {emitted : List ChatEvent}
  {p : Parser Token D} {parts : List Part} {deltas : List Text} {segmented : Bool}

theorem makeParser_emitted (controls : Option (ResolvedControls Token)) (initialRole : Text)
    (startsInHeader : Bool) :
    Emitted [] (makeParser tokenizer controls initialRole startsInHeader) [] [] :=
  ⟨⟨rfl, nofun, nofun, nofun⟩, rfl, rfl, rfl, nofun, fun _ => ⟨rfl, rfl⟩⟩

theorem makeParser_ready (controls : Option (ResolvedControls Token)) (initialRole : Text)
    (startsInHeader : Bool) :
    Ready tokenizer controls.isSome (makeParser tokenizer controls initialRole startsInHeader) where
  phase _ := by cases startsInHeader <;> simp [makeParser]
  decoder hcontent hnone := by
    cases controls with
    | none => exact hnone
    | some controls =>
      have hstate := hcontent rfl
      cases startsInHeader <;> cases hstate
  decoded _ := .inl ⟨rfl, rfl⟩

/-! ## Operations -/

theorem openEvents_append (segment : ChatSegment) (deltas : List Text) (delta : Text) :
    openEvents (some segment) (deltas ++ [delta]) =
      openEvents (some segment) deltas ++ [.delta segment delta] := by
  simp [openEvents]

theorem Emitted.begin (h : Emitted emitted p parts deltas) (hcurrent : p.current = none) :
    Emitted (emitted ++ p.begin.1) p.begin.2 parts [] := by
  have hindex : p.segmentIndex = parts.length := by
    rw [h.segmentIndex, hcurrent]
    rfl
  refine ⟨⟨h.indices, ?_, h.nonempty, not_mem_nil⟩, ?_, h.completed, ?_, fun _ => ?_, nofun⟩
  · rintro segment ⟨⟩
    exact hindex
  · rw [h.events, hcurrent]
    simp [openEvents, Parser.begin]
  · exact congrArg (· + 1) hindex
  · exact (h.empty hcurrent).1

/-- `end` closes the open segment, if there is one. -/
theorem Emitted.finish (h : Emitted emitted p parts deltas) (finish : ChatSegmentFinish) :
    ∃ parts', Emitted (emitted ++ (p.finish finish).1) (p.finish finish).2 parts' [] ∧
      (p.finish finish).2.current = none := by
  unfold Parser.finish
  split
  next hcurrent =>
    refine ⟨parts, ⟨⟨h.indices, h.last, h.nonempty, not_mem_nil⟩, ?_, h.completed,
      h.segmentIndex, fun hsome => ?_, h.empty⟩, hcurrent⟩
    · rw [append_nil, h.events, hcurrent]
      rfl
    · rw [hcurrent] at hsome
      cases hsome
  next segment hcurrent =>
    have hsome : p.current.isSome := by rw [hcurrent]; rfl
    refine ⟨parts ++ [⟨segment, deltas, finish⟩], ⟨⟨?_, nofun, ?_, not_mem_nil⟩, ?_, ?_, ?_,
      nofun, fun _ => ⟨rfl, rfl⟩⟩, rfl⟩
    · rw [map_append, length_append, h.indices, length_singleton, range_succ]
      exact congrArg _ (congrArg (fun n => [n]) (h.last segment hcurrent))
    · intro part hpart
      rcases mem_append.mp hpart with hpart | hpart
      · exact h.nonempty part hpart
      · rw [mem_singleton.mp hpart]
        exact h.lastNonempty
    · rw [h.events, hcurrent]
      simp [openEvents, Part.events]
    · rw [map_append, ← h.completed, h.content hsome]
      rfl
    · rw [h.segmentIndex, hcurrent, length_append]
      rfl

variable {token : Token} {p' : Parser Token D} {events : List ChatEvent} {initialRole : Text}

/-- The decoded text grows by the delta. -/
theorem decodeContent_ok {delta : Text} (hstable : tokenizer.PrefixStable)
    (hdecoder : p.contentDecoder.isNone → tokenizer.decodeStream.isNone)
    (hdecoded : p.contentDecoder = none → (p.contentIds = [] ∧ p.content = []) ∨ tokenizer.decode p.contentIds = .ok p.content)
    (h : { p with contentIds := p.contentIds ++ [token] }.decodeContent tokenizer token = .ok (delta, p')) :
    ∃ decoder, p' = { p with
        contentIds := p.contentIds ++ [token], content := p.content ++ delta
        contentDecoder := decoder } ∧
      (decoder.isNone → p.contentDecoder.isNone) ∧
      (decoder = none → tokenizer.decode p'.contentIds = .ok p'.content) := by
  unfold Parser.decodeContent at h
  split at h
  next decoder hsome =>
    cases hstep : tokenizer.decodeStep decoder token with
    | error cause => rw [hstep] at h; cases h
    | ok result =>
      obtain ⟨_ | text, decoder'⟩ := result
      · rw [hstep] at h
        cases h
        exact ⟨some decoder', by rw [append_nil], nofun, nofun⟩
      · rw [hstep] at h
        cases h
        exact ⟨some decoder', rfl, nofun, nofun⟩
  next hnone =>
    dsimp only at hnone h
    cases htext : tokenizer.decode (p.contentIds ++ [token]) with
    | error cause => rw [htext] at h; cases h
    | ok text =>
      rw [htext] at h
      cases h
      have hstarts : p.content <+: text := by
        rcases hdecoded hnone with ⟨-, hempty⟩ | hbefore
        · rw [hempty]
          exact ⟨text, rfl⟩
        · exact hstable (hdecoder (by rw [hnone]; rfl)) _ _ _ _ hbefore htext
      obtain ⟨rest, rfl⟩ := hstarts
      refine ⟨none, ?_, fun _ => by rw [hnone]; rfl, fun _ => htext⟩
      rw [drop_left, ← hnone]

/-- The parser reads the text of an open segment. -/
theorem acceptContent_emitted (hstable : tokenizer.PrefixStable) (hemitted : Emitted emitted p parts deltas)
    (hready : Ready tokenizer segmented p) (hopen : p.current.isSome)
    (h : p.acceptContent tokenizer token = .ok (events, p')) :
    ∃ deltas', Emitted (emitted ++ events) p' parts deltas' ∧ Ready tokenizer segmented p' := by
  have hcontent : segmented → p.state = .content := fun hsegmented =>
    (hready.phase hsegmented).mpr hopen
  unfold Parser.acceptContent at h
  cases hdecode : { p with contentIds := p.contentIds ++ [token] }.decodeContent tokenizer token with
  | error cause => rw [hdecode] at h; cases h
  | ok result =>
    obtain ⟨delta, p₁⟩ := result
    obtain ⟨decoder, rfl, hdecoder, hdecoded⟩ :=
      decodeContent_ok hstable (hready.decoder hcontent) hready.decoded hdecode
    rw [hdecode] at h
    dsimp only [bind, Except.bind] at h
    have hready' : Ready tokenizer segmented { p with
        contentIds := p.contentIds ++ [token], content := p.content ++ delta
        contentDecoder := decoder } :=
      ⟨hready.phase, fun hstate hnone => hready.decoder hstate (hdecoder hnone),
        fun hnone => .inr (hdecoded hnone)⟩
    have hindices : PartsOk parts p.current deltas := hemitted.toPartsOk
    have hsome : ∀ {P : Prop}, p.current = none → P := fun hnone =>
      absurd hnone (isSome_iff_ne_none.mp hopen)
    split at h
    next segment hcurrent =>
      cases h
      by_cases hdelta : 0 < delta.length
      · refine ⟨deltas ++ [delta], ⟨⟨hindices.indices, hindices.last, hindices.nonempty, ?_⟩, ?_,
          hemitted.completed, hemitted.segmentIndex, fun _ => ?_, hsome⟩, hready'⟩
        · rw [mem_append, mem_singleton]
          rintro (hmem | rfl)
          · exact hindices.lastNonempty hmem
          · cases hdelta
        · rw [if_pos hdelta, hemitted.events, append_assoc]
          dsimp only
          rw [hcurrent, openEvents_append]
        · rw [hemitted.content hopen, flatten_append, flatten_singleton]
      · obtain rfl := eq_nil_of_length_eq_zero (Nat.eq_zero_of_not_pos hdelta)
        refine ⟨deltas, ⟨hindices, ?_, hemitted.completed, hemitted.segmentIndex, fun _ => ?_, hsome⟩,
          hready'⟩
        · rw [if_neg hdelta, append_nil]
          exact hemitted.events
        · rw [append_nil]
          exact hemitted.content hopen
    next hnone => exact hsome hnone

/-- A header opens a segment. -/
theorem acceptHeader_emitted (hemitted : Emitted emitted p parts deltas) (hclosed : p.current = none)
    (h : p.acceptHeader tokenizer initialRole = .ok (events, p')) :
    Emitted (emitted ++ events) p' parts [] ∧ Ready tokenizer segmented p' := by
  unfold Parser.acceptHeader at h
  cases hdecode : tokenizer.decode p.headerIds with
  | error cause => rw [hdecode] at h; cases h
  | ok header =>
    rw [hdecode] at h
    cases h
    constructor
    · exact Emitted.begin ⟨hemitted.toPartsOk, hemitted.events, hemitted.completed,
        hemitted.segmentIndex, fun hsome => absurd hclosed (isSome_iff_ne_none.mp hsome),
        fun _ => ⟨rfl, rfl⟩⟩ hclosed
    · exact ⟨fun _ => iff_of_true rfl rfl, fun _ hnone => hnone, fun _ => .inl ⟨rfl, rfl⟩⟩

/-- The first token of an unsegmented response opens its segment. -/
theorem acceptPlain_emitted (hstable : tokenizer.PrefixStable) (hemitted : Emitted emitted p parts deltas)
    (hready : Ready tokenizer false p) (h : p.acceptPlain tokenizer token = .ok (events, p')) :
    ∃ deltas', Emitted (emitted ++ events) p' parts deltas' ∧ Ready tokenizer false p' := by
  unfold Parser.acceptPlain at h
  cases hcurrent : p.current with
  | none =>
    rw [hcurrent] at h
    dsimp only at h
    cases hcontent : p.begin.2.acceptContent tokenizer token with
    | error cause => rw [hcontent] at h; cases h
    | ok result =>
      rw [hcontent] at h
      cases h
      rw [← append_assoc]
      have hbegun : Ready tokenizer false p.begin.2 := ⟨nofun, hready.decoder, hready.decoded⟩
      exact acceptContent_emitted hstable (hemitted.begin hcurrent) hbegun rfl hcontent
  | some segment =>
    rw [hcurrent] at h
    dsimp only at h
    cases hcontent : p.acceptContent tokenizer token with
    | error cause => rw [hcontent] at h; cases h
    | ok result =>
      rw [hcontent] at h
      cases h
      exact acceptContent_emitted hstable hemitted hready (by rw [hcurrent]; rfl) hcontent

/-- Behind the end of a segment the parser seeks the next one, or is done. -/
theorem finish_ready (hopen : p.current.isSome) (finish : ChatSegmentFinish) :
    Ready tokenizer true (p.finish finish).2 := by
  unfold Parser.finish
  split
  next hnone => exact absurd hnone (isSome_iff_ne_none.mp hopen)
  next segment hcurrent =>
    have hstate : (if finish = .turn ∨ finish = .limit then ParserState.done else .seekStart) ≠
        .content := by
      split <;> nofun
    exact ⟨fun _ => iff_of_false hstate nofun, fun hcontent => absurd (hcontent rfl) hstate,
      fun _ => .inl ⟨rfl, rfl⟩⟩

theorem acceptSegmented_emitted [DecidableEq Token] {controls : ResolvedControls Token}
    (hstable : tokenizer.PrefixStable) (hemitted : Emitted emitted p parts deltas)
    (hready : Ready tokenizer true p)
    (h : p.acceptSegmented tokenizer initialRole controls token = .ok (events, p')) :
    ∃ parts' deltas', Emitted (emitted ++ events) p' parts' deltas' ∧ Ready tokenizer true p' := by
  have hclosed : p.state ≠ .content → p.current = none := fun hstate =>
    not_isSome_iff_eq_none.mp fun hsome => hstate ((hready.phase rfl).mpr hsome)
  unfold Parser.acceptSegmented at h
  split at h
  next hstate =>
    cases h
    exact ⟨parts, deltas, by rwa [append_nil], hready⟩
  next hstate =>
    have hnone := hclosed (by rw [hstate]; nofun)
    split at h
    · cases h
      exact ⟨parts, deltas, by rwa [append_nil], hready⟩
    · cases h
      rw [append_nil]
      refine ⟨parts, deltas, ⟨hemitted.toPartsOk, hemitted.events, hemitted.completed,
        hemitted.segmentIndex, fun hsome => absurd hnone (isSome_iff_ne_none.mp hsome),
        fun _ => ⟨rfl, rfl⟩⟩, ⟨fun _ => ?_, ?_, fun _ => .inl ⟨rfl, rfl⟩⟩⟩
      · dsimp only
        rw [hnone]
        exact iff_of_false nofun nofun
      · intro hcontent
        cases hcontent rfl
  next hstate =>
    have hnone := hclosed (by rw [hstate]; nofun)
    split at h
    · cases h
      rw [append_nil]
      exact ⟨parts, deltas, ⟨hemitted.toPartsOk, hemitted.events, hemitted.completed,
        hemitted.segmentIndex, hemitted.content, hemitted.empty⟩,
        hready.phase, hready.decoder, hready.decoded⟩
    · exact ⟨parts, [], acceptHeader_emitted hemitted hnone h⟩
  next hstate =>
    have hopen := (hready.phase rfl).mp hstate
    split at h
    · have hfinish := Except.ok.inj h
      obtain rfl := congrArg Prod.fst hfinish
      obtain rfl := congrArg Prod.snd hfinish
      obtain ⟨parts', hfinished, -⟩ := hemitted.finish _
      exact ⟨parts', [], hfinished, finish_ready hopen _⟩
    · exact ⟨parts, acceptContent_emitted hstable hemitted hready hopen h⟩

/-- What is emitted behind an accepted token. -/
theorem accept_emitted [DecidableEq Token] {controls : Option (ResolvedControls Token)}
    (hstable : tokenizer.PrefixStable) (hemitted : Emitted emitted p parts deltas)
    (hready : Ready tokenizer controls.isSome p)
    (h : p.accept tokenizer controls initialRole token = .ok (events, p')) :
    ∃ parts' deltas', Emitted (emitted ++ events) p' parts' deltas' ∧
      Ready tokenizer controls.isSome p' := by
  cases controls with
  | none => exact ⟨parts, acceptPlain_emitted hstable hemitted hready h⟩
  | some controls => exact acceptSegmented_emitted hstable hemitted hready h

end EffectTorch.Chat
