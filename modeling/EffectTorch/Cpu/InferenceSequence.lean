import EffectTorch.Cpu.BlockStore
import EffectTorch.Runtime.Storage

/-!
# Inference sequences

What the rounds of an inference session share: sampling options and coordinates
(`runtime/src/sampling.rs`), the state of one sequence, how a page is cut and how it
is published (`run_round` in `runtime-cpu/src/napi/mod.rs`).

Results:
1. `publish_cons`: publishing a page is publishing its tokens one after the other.
2. `truncatePage_cons`: how a page is cut, token by token.
3. `publishPages_spec`: what publishing the pages of a round does to the live sequences.
-/

namespace EffectTorch
open List Option Lib

/-! ## Sampling options -/

structure SamplingOptions where
  temperature : F64
  topK : Option Nat
  topP : F64
  seed : UInt64
  counter : UInt64
deriving DecidableEq, Repr

structure NativeInferenceSamplingOptions where
  temperature : F64
  topK : UInt32
  topP : F64
  seed : UInt64
deriving DecidableEq, Repr

structure NativeInferenceSamplingOverrides where
  temperature : Option F64 := none
  topK : Option UInt32 := none
  topP : Option F64 := none
  seed : Option UInt64 := none
deriving DecidableEq, Repr

/-- `inference_error`. -/
def inferenceError (phase message : String) : String :=
  "inference[" ++ phase ++ "]: " ++ message

def inferenceSampling (value : NativeInferenceSamplingOptions) (phase : String) :
    Except String SamplingOptions :=
  if !value.temperature.isFinite || value.temperature.negative then
    .error (inferenceError phase "temperature must be finite and non-negative")
  else if !value.topP.isFinite || value.topP.nonPositive || value.topP.aboveOne then
    .error (inferenceError phase "topP must be in (0, 1]")
  else
    .ok {
      temperature := value.temperature
      topK := if value.topK = 0 then none else some value.topK.toNat
      topP := value.topP
      seed := value.seed
      counter := 0 }

def inferenceSamplingOverride (value : NativeInferenceSamplingOverrides) (base : SamplingOptions)
    (phase : String) : Except String SamplingOptions :=
  inferenceSampling {
    temperature := value.temperature.getD base.temperature
    topK := value.topK.getD (UInt32.ofNat (base.topK.getD 0))
    topP := value.topP.getD base.topP
    seed := value.seed.getD base.seed } phase

/-! ## Sampling coordinates -/

inductive SamplingPurpose where
  | proposal
  | accept
  | residual
  | target
deriving DecidableEq, Repr

/-- The discriminant of a purpose. -/
def SamplingPurpose.toUInt64 : SamplingPurpose → UInt64
  | .proposal => 0x243f6a8885a308d3
  | .accept => 0x13198a2e03707344
  | .residual => 0xa4093822299f31d0
  | .target => 0x082efa98ec4e6c89

def purposeCounter (position : UInt64) (purpose : SamplingPurpose) (subcounter : UInt64) :
    UInt64 :=
  let value := position ^^^ purpose.toUInt64
  let value := value + subcounter * 0x9e3779b97f4a7c15
  let value := (value ^^^ (value >>> 30)) * 0xbf58476d1ce4e5b9
  let value := (value ^^^ (value >>> 27)) * 0x94d049bb133111eb
  value ^^^ (value >>> 31)

def coordinateSeed (seed sequenceId absolutePosition : UInt64) (purpose : SamplingPurpose)
    (subcounter : UInt64) : UInt64 :=
  [sequenceId, absolutePosition, purpose.toUInt64, subcounter].foldl
    (fun key component => purposeCounter key .target component) seed

/-- The options of the draw at an absolute position of a sequence: what
`execute_history_lookup_detailed`, `run_round` and `sample_value_at` all build. -/
def SamplingOptions.at (options : SamplingOptions) (sequenceId absolutePosition : Nat)
    (purpose : SamplingPurpose) : SamplingOptions :=
  { options with
    seed := coordinateSeed options.seed (.ofNat sequenceId) (.ofNat absolutePosition) purpose 0
    counter := 0 }

/-! ## Sequences -/

inductive StopReason where
  | eos
  | maxTokens
deriving DecidableEq, Repr

/-- `InferenceSequenceState`. `κ` is what the native state of the target is to a round. -/
structure InferenceSequenceState (κ : Type) where
  id : Nat
  slot : Nat
  target : κ
  pending : Token
  history : List Token
  generated : Nat
  budget : Option Nat
  eos : List Token
  terminal : Option StopReason
  sampling : SamplingOptions
deriving DecidableEq, Repr

structure ReceiptPage where
  sequenceId : Nat
  tokens : List Token
  stopReason : Option StopReason
deriving DecidableEq, Repr

namespace InferenceSequenceState

variable {κ : Type}

/-- Why a sequence stops at `token`, its last one, or goes on. -/
def stopReason (s : InferenceSequenceState κ) (token : Token) (generated : Nat) :
    Option StopReason :=
  if token ∈ s.eos then some .eos
  else if s.budget.any (fun budget => decide (budget ≤ generated)) then some .maxTokens
  else none

/-- The sequence after its page; an empty page is the panic of `expect`. -/
def publish (s : InferenceSequenceState κ) (tokens : List Token) :
    Option (InferenceSequenceState κ) :=
  match tokens.getLast? with
  | none => none
  | some token =>
    some { s with
      pending := token
      history := s.history ++ tokens
      generated := s.generated + tokens.length
      terminal := s.stopReason token (s.generated + tokens.length) }

/-- The sequence once an execution has moved its native state. -/
def keep (s : InferenceSequenceState κ) (target : κ) : InferenceSequenceState κ :=
  { s with target }

/-- The page limit of a speculative round, with its cast to `u32`. -/
def pageLimit (s : InferenceSequenceState κ) (maxDraftTokens : Nat) : Nat :=
  max (min (s.budget.elim (2 ^ 64 - 1) (· - s.generated)) (maxDraftTokens + 1)) 1 % 2 ^ 32

end InferenceSequenceState

/-- How a speculative round cuts the tokens it accepted: after the first stop token, then
to the page limit. -/
def truncatePage (eos : List Token) (limit : Nat) (page : List Token) : List Token :=
  let page := match page.findIdx? (· ∈ eos) with
    | some position => page.take (position + 1)
    | none => page
  page.take limit

/-- The live sequences of a session, by id. -/
abbrev LiveSequences (κ : Type) := AList fun _ : Nat => InferenceSequenceState κ

/-- A selected sequence with the options its request resolves to. -/
structure RoundLane (κ : Type) where
  sequence : InferenceSequenceState κ
  sampling : SamplingOptions

/-- The sequences are stored under their ids. -/
def Keyed {κ : Type} (sequences : LiveSequences κ) : Prop :=
  ∀ id s, sequences.lookup id = some s → s.id = id

/-- The sequences and the overrides of a `run_round` call. -/
abbrev RoundRequest := List (Nat × NativeInferenceSamplingOverrides)

/-- The tokens of the pages of a sequence, one after the other. -/
def tokensOf (id : Nat) (pages : List ReceiptPage) : List Token :=
  (pages.filter (·.sequenceId == id)).flatMap (·.tokens)

section Selection

variable {κ : Type}

def selectSequence (sequences : LiveSequences κ) (id : Nat) :
    Except String (InferenceSequenceState κ) :=
  match sequences.lookup id with
  | none => .error (inferenceError "admission" "sequence is not live")
  | some s => .ok s

/-- The part of `run_round` that reads the live sequences. -/
def selectLanes (sequences : LiveSequences κ) (request : RoundRequest) :
    Except String (List (RoundLane κ)) :=
  if request = [] then
    .error (inferenceError "admission" "runRound arrays must be nonempty and have equal length")
  else if ¬ (request.map (·.1)).Nodup then
    .error (inferenceError "admission" "foreign or duplicate inference sequence")
  else do
    let selected ← request.mapM fun entry => selectSequence sequences entry.1
    (selected.zip request).mapM fun entry =>
      (inferenceSamplingOverride entry.2.2 entry.1.sampling "sample").map (⟨entry.1, ·⟩)

/-- The sequences once an execution has moved their native states. -/
def commitTargets : LiveSequences κ → List (Nat × κ) → LiveSequences κ
  | sequences, [] => sequences
  | sequences, (id, target) :: rest =>
    match sequences.lookup id with
    | none => commitTargets sequences rest
    | some s => commitTargets (sequences.insert id (s.keep target)) rest

/-- The publication loop of `run_round`; `none` is a panic of one of its `expect`s. -/
def publishPages : LiveSequences κ → List (Nat × List Token) →
    Option (LiveSequences κ × List ReceiptPage)
  | sequences, [] => some (sequences, [])
  | sequences, (id, tokens) :: rest =>
    match sequences.lookup id with
    | none => none
    | some s =>
      match s.publish tokens with
      | none => none
      | some s' =>
        (publishPages (sequences.insert id s') rest).map fun published =>
          (published.1, ⟨s'.id, tokens, s'.terminal⟩ :: published.2)

end Selection

section Pages

variable {κ : Type} {s s' : InferenceSequenceState κ}

/-! ## Pages -/

theorem publish_one (s : InferenceSequenceState κ) (token : Token) :
    s.publish [token] = some { s with
      pending := token
      history := s.history ++ [token]
      generated := s.generated + 1
      terminal := s.stopReason token (s.generated + 1) } := rfl

theorem publish_cons (s : InferenceSequenceState κ) (token : Token) {rest : List Token}
    (hrest : rest ≠ []) :
    s.publish (token :: rest) = (s.publish [token]).bind (·.publish rest) := by
  rw [publish_one]
  unfold InferenceSequenceState.publish
  rw [List.getLast?_cons, List.getLast?_eq_some_getLast hrest]
  simp only [getD_some, bind_some, length_cons, append_assoc,
    cons_append, nil_append, Nat.add_assoc, Nat.add_comm 1]
  rfl

/-- A sequence goes on when `token` is no stop token and its budget is not reached. -/
theorem stopReason_none {token : Token} {generated : Nat} (htoken : token ∉ s.eos)
    (hbudget : ∀ budget, s.budget = some budget → generated < budget) :
    s.stopReason token generated = none := by
  unfold InferenceSequenceState.stopReason
  rw [if_neg htoken, if_neg]
  intro h
  obtain ⟨budget, hb, hle⟩ := (Option.any_eq_true _ _).mp h
  exact absurd (of_decide_eq_true hle) (Nat.not_le_of_lt (hbudget budget hb))

theorem publish_of_ne_nil (s : InferenceSequenceState κ) {tokens : List Token} (h : tokens ≠ []) :
    ∃ s', s.publish tokens = some s' := by
  unfold InferenceSequenceState.publish
  rw [List.getLast?_eq_some_getLast h]
  exact ⟨_, rfl⟩

/-- What publishing a page leaves as it was. -/
theorem publish_frame {tokens : List Token} (h : s.publish tokens = some s') :
    s'.id = s.id ∧ s'.slot = s.slot ∧ s'.target = s.target ∧ s'.budget = s.budget ∧
      s'.eos = s.eos ∧ s'.sampling = s.sampling := by
  unfold InferenceSequenceState.publish at h
  split at h
  · cases h
  · obtain rfl := some.inj h
    exact ⟨rfl, rfl, rfl, rfl, rfl, rfl⟩

/-- What publishing a page writes. -/
theorem publish_fields {tokens : List Token} (h : s.publish tokens = some s') :
    tokens.getLast? = some s'.pending ∧ s'.history = s.history ++ tokens ∧
      s'.generated = s.generated + tokens.length ∧
      s'.terminal = s'.stopReason s'.pending s'.generated := by
  unfold InferenceSequenceState.publish at h
  split at h
  · cases h
  · next token hlast =>
    obtain rfl := some.inj h
    exact ⟨hlast, rfl, rfl, rfl⟩

theorem truncatePage_nil (eos : List Token) (limit : Nat) : truncatePage eos limit [] = [] := by
  simp [truncatePage]

theorem truncatePage_cons (eos : List Token) (limit : Nat) (token : Token) (rest : List Token) :
    truncatePage eos (limit + 1) (token :: rest) =
      if token ∈ eos then [token] else token :: truncatePage eos limit rest := by
  unfold truncatePage
  by_cases hstop : token ∈ eos
  · simp [List.findIdx?_cons, hstop]
  · rw [List.findIdx?_cons, if_neg (by simpa using hstop), if_neg hstop]
    cases rest.findIdx? (· ∈ eos) with
    | none => rfl
    | some position => rfl

theorem truncatePage_zero (eos page : List Token) : truncatePage eos 0 page = [] := by
  unfold truncatePage
  exact take_zero

theorem truncatePage_one (eos : List Token) {limit : Nat} (hlimit : 0 < limit) (token : Token) :
    truncatePage eos limit [token] = [token] := by
  obtain ⟨limit, rfl⟩ := Nat.exists_eq_succ_of_ne_zero (Nat.ne_of_gt hlimit)
  rw [Nat.succ_eq_add_one, truncatePage_cons, truncatePage_nil, ite_self]

theorem truncatePage_length_le (eos : List Token) (limit : Nat) (page : List Token) :
    (truncatePage eos limit page).length ≤ min limit page.length := by
  unfold truncatePage
  rw [length_take]
  refine Nat.le_min.mpr ⟨Nat.min_le_left _ _, Nat.le_trans (Nat.min_le_right _ _) ?_⟩
  cases page.findIdx? (· ∈ eos) with
  | none => exact Nat.le_refl _
  | some position => exact length_take_le' _ _

theorem truncatePage_ne_nil (eos : List Token) {limit : Nat} (hlimit : 0 < limit)
    {page : List Token} (hpage : page ≠ []) : truncatePage eos limit page ≠ [] := by
  obtain ⟨limit, rfl⟩ := Nat.exists_eq_succ_of_ne_zero (Nat.ne_of_gt hlimit)
  obtain ⟨token, rest, rfl⟩ := exists_cons_of_ne_nil hpage
  rw [Nat.succ_eq_add_one, truncatePage_cons]
  split
  · exact cons_ne_nil _ _
  · exact cons_ne_nil _ _

/-- A page never passes the budget of a sequence that has some of it left. -/
theorem pageLimit_le (s : InferenceSequenceState κ) {maxDraftTokens budget : Nat}
    (hbudget : s.budget = some budget) :
    s.pageLimit maxDraftTokens ≤ max (budget - s.generated) 1 := by
  unfold InferenceSequenceState.pageLimit
  rw [hbudget, elim_some]
  exact Nat.le_trans (Nat.mod_le _ _) (Nat.max_le.mpr
    ⟨Nat.le_trans (Nat.min_le_left _ _) (Nat.le_max_left _ _), Nat.le_max_right _ _⟩)

theorem pageLimit_pos (s : InferenceSequenceState κ) {maxDraftTokens : Nat}
    (h : maxDraftTokens + 1 < 2 ^ 32) : 0 < s.pageLimit maxDraftTokens := by
  unfold InferenceSequenceState.pageLimit
  rw [Nat.mod_eq_of_lt]
  · exact Nat.lt_of_lt_of_le Nat.one_pos (Nat.le_max_right _ _)
  · exact Nat.max_lt.mpr ⟨Nat.lt_of_le_of_lt (Nat.min_le_right _ _) h, by decide⟩

end Pages

section Rounds

variable {κ : Type} {sequences sequences' : LiveSequences κ}

/-! ## The sequences of a round -/

theorem selectSequence_ok {id : Nat} {s : InferenceSequenceState κ} :
    selectSequence sequences id = .ok s ↔ sequences.lookup id = some s := by
  unfold selectSequence
  cases sequences.lookup id with
  | none => exact ⟨nofun, nofun⟩
  | some s' => rw [Except.ok.injEq, Option.some.injEq]

theorem selectLanes_ok {request : RoundRequest} {lanes : List (RoundLane κ)} :
    selectLanes sequences request = .ok lanes ↔
      request ≠ [] ∧ (request.map (·.1)).Nodup ∧ request.length = lanes.length ∧
        ∀ (k : Nat) entry, request[k]? = some entry →
          ∃ lane, lanes[k]? = some lane ∧ sequences.lookup entry.1 = some lane.sequence ∧
            inferenceSamplingOverride entry.2 lane.sequence.sampling "sample" =
              .ok lane.sampling := by
  unfold selectLanes
  split
  · next hempty => exact ⟨nofun, fun h => absurd hempty h.1⟩
  · next hempty =>
    split
    · next hdup => exact ⟨nofun, fun h => absurd h.2.1 hdup⟩
    · next hdup =>
      rw [not_not] at hdup
      simp only [bind_ok, mapM_ok, map_ok, selectSequence_ok]
      constructor
      · rintro ⟨selected, ⟨hlen, hselected⟩, hlen', hlanes⟩
        rw [length_zip, ← hlen, Nat.min_self] at hlen'
        refine ⟨hempty, hdup, hlen', fun k entry hk => ?_⟩
        obtain ⟨s, hs, hlookup⟩ := hselected k _ hk
        obtain ⟨lane, hlane, options, hoptions, rfl⟩ := hlanes k (s, entry)
          (List.getElem?_zip_eq_some.mpr ⟨hs, hk⟩)
        exact ⟨_, hlane, hlookup, hoptions⟩
      · rintro ⟨_, _, hlen, hlanes⟩
        refine ⟨lanes.map (·.sequence), ⟨by rw [length_map, hlen], fun k entry hk => ?_⟩,
          by rw [length_zip, length_map, hlen, Nat.min_self], fun k ⟨s, entry⟩ hk => ?_⟩
        · obtain ⟨lane, hlane, hlookup, _⟩ := hlanes k entry hk
          exact ⟨lane.sequence, by rw [List.getElem?_map, hlane]; rfl, hlookup⟩
        · obtain ⟨hs, hk⟩ := List.getElem?_zip_eq_some.mp hk
          obtain ⟨lane, hlane, _, hoptions⟩ := hlanes k _ hk
          rw [List.getElem?_map, hlane] at hs
          obtain rfl := some.inj hs
          exact ⟨lane, hlane, _, hoptions, rfl⟩

theorem commitTargets_spec (sequences : LiveSequences κ) {entries : List (Nat × κ)}
    (hnodup : (entries.map (·.1)).Nodup) :
    (∀ id, id ∉ entries.map (·.1) →
      (commitTargets sequences entries).lookup id = sequences.lookup id) ∧
      ∀ entry ∈ entries, (commitTargets sequences entries).lookup entry.1 =
        (sequences.lookup entry.1).map (·.keep entry.2) := by
  induction entries generalizing sequences with
  | nil => exact ⟨fun _ _ => rfl, fun _ h => absurd h not_mem_nil⟩
  | cons entry entries ih =>
    obtain ⟨id, target⟩ := entry
    obtain ⟨hid, hrest⟩ := nodup_cons.mp hnodup
    have hne : ∀ entry ∈ entries, entry.1 ≠ id := fun entry hentry heq =>
      hid (mem_map.mpr ⟨entry, hentry, heq⟩)
    rw [commitTargets]
    cases hs : sequences.lookup id with
    | none =>
      obtain ⟨hother, hentries⟩ := ih sequences hrest
      refine ⟨fun id' hid' => hother id' fun h => hid' (mem_cons_of_mem _ h),
        fun entry hentry => ?_⟩
      rcases mem_cons.mp hentry with rfl | hentry
      · rw [hother id hid, hs]
        rfl
      · exact hentries entry hentry
    | some s =>
      obtain ⟨hother, hentries⟩ := ih (sequences.insert id (s.keep target)) hrest
      refine ⟨fun id' hid' => ?_, fun entry hentry => ?_⟩
      · obtain ⟨hne', hnot⟩ := not_or.mp (fun h => hid' (mem_cons.mpr h))
        rw [hother id' hnot, AList.lookup_insert_ne hne']
      · rcases mem_cons.mp hentry with rfl | hentry
        · rw [hother id hid, AList.lookup_insert, hs]
          rfl
        · rw [hentries entry hentry, AList.lookup_insert_ne (hne entry hentry)]

theorem zip_keys {α : Type} (request : RoundRequest) {results : List α}
    (hlen : request.length = results.length) :
    ((request.map (·.1)).zip results).map (·.1) = request.map (·.1) :=
  map_fst_zip (by rw [length_map, hlen])

/-- Publishing the pages of a round publishes one page for each sequence of the round and
touches no other sequence. -/
theorem publishPages_spec {entries : List (Nat × List Token)} {pages : List ReceiptPage}
    (hnodup : (entries.map (·.1)).Nodup)
    (h : publishPages sequences entries = some (sequences', pages)) :
    (∀ id, id ∉ entries.map (·.1) → sequences'.lookup id = sequences.lookup id) ∧
      (∀ entry ∈ entries, ∃ s s', sequences.lookup entry.1 = some s ∧
        s.publish entry.2 = some s' ∧ sequences'.lookup entry.1 = some s') ∧
      List.Forall₂ (fun entry page => ∃ s', sequences'.lookup entry.1 = some s' ∧
        page = ⟨s'.id, entry.2, s'.terminal⟩) entries pages := by
  induction entries generalizing sequences pages with
  | nil =>
    obtain ⟨rfl, rfl⟩ := Prod.mk.inj (some.inj h)
    exact ⟨fun _ _ => rfl, fun _ h => absurd h not_mem_nil, .nil⟩
  | cons entry entries ih =>
    obtain ⟨id, tokens⟩ := entry
    obtain ⟨hid, hrest⟩ := nodup_cons.mp hnodup
    rw [publishPages] at h
    split at h
    · cases h
    · next s hs =>
      split at h
      · cases h
      · next s' hs' =>
        obtain ⟨⟨published, pages'⟩, hpublish, heq⟩ := map_eq_some_iff.mp h
        obtain ⟨rfl, rfl⟩ := Prod.mk.inj heq
        obtain ⟨hother, hentries, hpages⟩ := ih hrest hpublish
        have hlookup : published.lookup id = some s' := by
          rw [hother id hid, AList.lookup_insert]
        refine ⟨fun id' hid' => ?_, fun entry hentry => ?_, .cons ⟨s', hlookup, rfl⟩ hpages⟩
        · obtain ⟨hne, hnot⟩ := not_or.mp (fun h => hid' (mem_cons.mpr h))
          rw [hother id' hnot, AList.lookup_insert_ne hne]
        · rcases mem_cons.mp hentry with rfl | hentry
          · exact ⟨s, s', hs, hs', hlookup⟩
          · have hne : entry.1 ≠ id := fun heq =>
              hid (mem_map.mpr ⟨entry, hentry, heq⟩)
            obtain ⟨q, q', hq, hpublish⟩ := hentries entry hentry
            rw [AList.lookup_insert_ne hne] at hq
            exact ⟨q, q', hq, hpublish⟩

theorem publishPages_total (sequences : LiveSequences κ) {entries : List (Nat × List Token)}
    (hnodup : (entries.map (·.1)).Nodup)
    (h : ∀ entry ∈ entries, (∃ s, sequences.lookup entry.1 = some s) ∧ entry.2 ≠ []) :
    ∃ published, publishPages sequences entries = some published := by
  induction entries generalizing sequences with
  | nil => exact ⟨_, rfl⟩
  | cons entry entries ih =>
    obtain ⟨id, tokens⟩ := entry
    obtain ⟨hid, hrest⟩ := nodup_cons.mp hnodup
    obtain ⟨⟨⟨s, hs⟩, htokens⟩, hentries⟩ := forall_mem_cons.mp h
    obtain ⟨s', hs'⟩ := publish_of_ne_nil s htokens
    obtain ⟨published, hpublished⟩ := ih (sequences.insert id s') hrest
      fun entry hentry => by
        have hne : entry.1 ≠ id := fun heq => hid (mem_map.mpr ⟨entry, hentry, heq⟩)
        rw [AList.lookup_insert_ne hne]
        exact hentries entry hentry
    refine ⟨(published.1, ⟨s'.id, tokens, s'.terminal⟩ :: published.2), ?_⟩
    simp only [publishPages, hs, hs', hpublished, map_some]

theorem tokensOf_append (id : Nat) (pages pages' : List ReceiptPage) :
    tokensOf id (pages ++ pages') = tokensOf id pages ++ tokensOf id pages' := by
  rw [tokensOf, filter_append, flatMap_append]
  rfl

/-- A round has one page for each of its sequences. -/
theorem tokensOf_pages {entries : List (Nat × List Token)} {pages : List ReceiptPage}
    (hnodup : (entries.map (·.1)).Nodup)
    (h : List.Forall₂ (fun entry page => page.sequenceId = entry.1 ∧ page.tokens = entry.2)
      entries pages) :
    (∀ id, id ∉ entries.map (·.1) → tokensOf id pages = []) ∧
      ∀ entry ∈ entries, tokensOf entry.1 pages = entry.2 := by
  induction h with
  | nil => exact ⟨fun _ _ => rfl, fun _ h => absurd h not_mem_nil⟩
  | @cons entry page entries pages hpage _ ih =>
    obtain ⟨hid, htokens⟩ := hpage
    obtain ⟨hfresh, hrest⟩ := nodup_cons.mp hnodup
    obtain ⟨hother, hentries⟩ := ih hrest
    have hcons : ∀ id, tokensOf id (page :: pages) =
        (if entry.1 = id then entry.2 else []) ++ tokensOf id pages := by
      intro id
      rw [tokensOf, filter_cons, hid, ← htokens]
      by_cases heq : entry.1 = id
      · simp [heq, tokensOf]
      · simp [heq, tokensOf]
    refine ⟨fun id hnot => ?_, fun entry' hentry => ?_⟩
    · obtain ⟨hne, hnot⟩ := not_or.mp (fun h => hnot (mem_cons.mpr h))
      rw [hcons, if_neg (Ne.symm hne), hother id hnot]
      rfl
    · rcases mem_cons.mp hentry with rfl | hentry
      · rw [hcons, if_pos rfl, hother _ hfresh, append_nil]
      · have hne : entry.1 ≠ entry'.1 := fun heq =>
          hfresh (mem_map.mpr ⟨entry', hentry, heq.symm⟩)
        rw [hcons, if_neg hne, hentries _ hentry]
        rfl

end Rounds

end EffectTorch
