import EffectTorch.Cpu.InferenceSequence
import EffectTorch.Cpu.PackedChain
import Mathlib.Algebra.Group.Action.Defs
import Mathlib.Algebra.Order.BigOperators.Group.List

/-!
# History lookup

`history_lookup`, `execute_history_lookup_detailed` and the ordinary path of
`run_round` (`runtime-cpu/src/napi/mod.rs`). The target is any function from token
histories to logits rows. A sequence keeps the tokens whose rows its pages hold; a
packed row sees them and the tokens of its own chain up to the row.

Results:
1. `verify_row`: a row of a verified chain gives the logits that decoding the chain
   token by token gives.
2. `executeHistoryLookup_ok` and `executeHistoryLookup_total`: what a lookup execution
   returns for each lane, and when it returns.
-/

namespace EffectTorch
open List Lib

/-! ## Proposals -/

structure HistoryLookupConfig where
  minMatchTokens : Nat
  maxMatchTokens : Nat
deriving DecidableEq, Repr

def historyLookup (history : List Token) (minMatchTokens maxMatchTokens maxDraftTokens : Nat) :
    List Token :=
  if maxDraftTokens = 0 ∨ history.length ≤ minMatchTokens then []
  else
    let maxMatchTokens := min maxMatchTokens (history.length - 1)
    let widths := (List.range' minMatchTokens (maxMatchTokens + 1 - minMatchTokens)).reverse
    let found := widths.findSome? fun width =>
      let suffix := history.length - width
      let starts := (List.range suffix).reverse
      (starts.find? fun start => (history.drop start).take width == history.drop suffix).map
        fun start => (history.drop (start + width)).take maxDraftTokens
    found.getD []

theorem historyLookup_length_le (history : List Token)
    (minMatchTokens maxMatchTokens maxDraftTokens : Nat) :
    (historyLookup history minMatchTokens maxMatchTokens maxDraftTokens).length ≤
      maxDraftTokens := by
  unfold historyLookup
  split
  · exact Nat.zero_le _
  · dsimp only
    generalize hfound : List.findSome? _ _ = found
    cases found with
    | none => exact Nat.zero_le _
    | some tokens =>
      obtain ⟨width, _, htokens⟩ := exists_of_findSome?_eq_some hfound
      obtain ⟨start, _, rfl⟩ := Option.map_eq_some_iff.mp htokens
      exact length_take_le _ _

example : historyLookup [5, 6, 7, 5, 6] 1 4 8 = [7, 5, 6] := by decide

/-! ## Programs -/

/-- The programs of an artifact as decoding sees them: the target is a function of the
history, its sampler draws a token of the vocabulary. `rows_lt` is what
`validate_inference_program` reads off the token input, whose dimensions are `u32`. -/
structure DecodePrograms (Λ : Type) where
  logits : List Token → Λ
  sample : Λ → SamplingOptions → Except String Token
  vocabulary : Nat
  batchSize : Nat
  maxTokens : Nat
  maxDraftTokens : Nat
  config : HistoryLookupConfig
  sample_lt : ∀ row options token, sample row options = .ok token → token.toNat < vocabulary
  rows_lt : batchSize * (maxDraftTokens + 1) < 2 ^ 32
  maxTokens_le : maxTokens ≤ usizeMax

/-- A sequence with the tokens whose rows its pages hold. -/
abbrev DecodeState := InferenceSequenceState (List Token)

def InferenceSequenceState.cursor (s : DecodeState) : Nat := s.target.length

abbrev DecodeLane := RoundLane (List Token)

namespace DecodePrograms

variable {Λ : Type} (P : DecodePrograms Λ)

def graphRows : Nat := P.batchSize * (P.maxDraftTokens + 1)

/-- The candidates of a sequence. -/
def draft (s : DecodeState) : List Token :=
  historyLookup s.history P.config.minMatchTokens P.config.maxMatchTokens
    (min (min P.maxDraftTokens (s.pageLimit P.maxDraftTokens - 1)) (P.maxTokens - s.cursor - 1))

/-- The chain of a sequence in the verification. -/
def chain (s : DecodeState) : List Token := s.pending :: P.draft s

/-- The checks of `execute_history_lookup_detailed` that depend on the sequences. -/
def validateLookup (lanes : List DecodeLane) : Except String Unit :=
  if lanes = [] ∨ P.maxDraftTokens = 0 ∨ P.batchSize < lanes.length then
    .error "executeHistoryLookup: inconsistent batch arrays or unsupported target state"
  else if lanes.any fun lane => (lane.sequence.pending :: lane.sequence.eos).any fun token =>
      decide (P.vocabulary ≤ token.toNat) then
    .error "executeHistoryLookup: malformed verifier logits or token metadata"
  else if (lanes.any fun lane => decide (P.batchSize ≤ lane.sequence.slot)) ∨
      ¬ (lanes.map (·.sequence.slot)).Nodup ∨
      (lanes.any fun lane => lane.sequence.pageLimit P.maxDraftTokens == 0) ∨
      ¬ (lanes.map (·.sequence.id)).Nodup then
    .error "executeHistoryLookup: slots and sequences must be live and unique"
  else if lanes.any fun lane => decide (P.maxTokens ≤ lane.sequence.cursor) ||
      lane.sequence.history.length != lane.sequence.cursor + 1 ||
      lane.sequence.history.getLast? != some lane.sequence.pending then
    .error "executeHistoryLookup: visible history does not match target cursor"
  else .ok ()

/-- `copy_from_slice` of a chain into the token buffer. -/
def copyChain (tokens : Nat → Token) (base : Nat) (chain : List Token) : Nat → Token :=
  fun row => if base ≤ row ∧ row < base + chain.length then chain.getD (row - base) 0 else tokens row

/-- `verify_tokens`, with the chains at their offsets. -/
def verifyTokens (offsets : List Nat) (chains : List (List Token)) : Nat → Token :=
  (offsets.zip chains).foldl (fun tokens entry => copyChain tokens entry.1 entry.2) fun _ => 0

/-- The tokens a graph row of the verifier sees: the rows its lane keeps and the chain of
the lane up to the row. -/
def visible (packed : PackedCausalRows) (tokens : Nat → Token) (context : Nat → List Token)
    (row : Nat) : List Token :=
  match packed.graphRow row with
  | none => []
  | some (physical, position) =>
    let step := position - (context physical).length
    context physical ++ (List.range (step + 1)).map fun u => tokens (row - step + u)

/-- The rows kept by the lane of a physical slot. -/
def slotContext (lanes : List DecodeLane) (physical : Nat) : List Token :=
  ((lanes.find? (·.sequence.slot == physical)).map (·.sequence.target)).getD []

def speculativeSampleLogits (output : Nat → Λ) (row : Nat) (options : SamplingOptions) :
    Except String Token :=
  if P.graphRows ≤ row then .error "executeSpeculative: target logits row is out of range"
  else P.sample (output row) options

/-- The loop over the candidates of a lane: `draw step` samples the row of `step`. -/
def acceptCandidates (draw : Nat → Except String Token) :
    Nat → List Token → Except String (List Token)
  | step, [] => (draw step).map fun target => [target]
  | step, candidate :: rest =>
    match draw step with
    | .error e => .error e
    | .ok target =>
      if target = candidate then (acceptCandidates draw (step + 1) rest).map (candidate :: ·)
      else .ok [target]

/-- The page of one lane and the rows it keeps. -/
def lookupPage (packed : PackedCausalRows) (output : Nat → Λ) (entry : DecodeLane × Nat) :
    Except String (List Token × List Token) :=
  let s := entry.1.sequence
  let offset := packed.rowOffsets.getD entry.2 0
  (acceptCandidates (fun step => P.speculativeSampleLogits output (offset + step)
    (entry.1.sampling.at s.id (s.generated + step) .target)) 0 (P.draft s)).map fun page =>
      let page := truncatePage s.eos (s.pageLimit P.maxDraftTokens) page
      (page, (s.target ++ P.chain s).take (s.cursor + page.length))

/-- `execute_history_lookup_detailed`. -/
def executeHistoryLookup (lanes : List DecodeLane) :
    Except String (List (List Token × List Token)) := do
  P.validateLookup lanes
  let packed ← PackedCausalRows.build P.graphRows P.batchSize (lanes.map (·.sequence.slot))
    (lanes.map (·.sequence.cursor)) (lanes.map fun lane => (P.chain lane.sequence).length)
  let tokens := verifyTokens packed.rowOffsets (lanes.map fun lane => P.chain lane.sequence)
  let output := fun row => P.logits (visible packed tokens (slotContext lanes) row)
  lanes.zipIdx.mapM (P.lookupPage packed output)

/-- The execution of the ordinary path: one token for each lane. -/
def executeDecode (lanes : List DecodeLane) : Except String (List (List Token × List Token)) := do
  lanes.zipIdx.foldlM (fun _ entry =>
    if P.maxTokens < entry.1.sequence.cursor + 1 then
      .error ("execute: sequence " ++ toString entry.2 ++ " exceeds compiled max_tokens " ++
        toString P.maxTokens)
    else .ok ()) ()
  lanes.mapM fun lane =>
    let s := lane.sequence
    (P.sample (P.logits (s.target ++ [s.pending]))
      (lane.sampling.at s.id s.generated .target)).map fun token =>
        ([token], s.target ++ [s.pending])

/-! ## The verified rows -/

variable {k : Nat} {lanes : List DecodeLane} {lane : DecodeLane}

theorem verifyTokens_chain {offsets : List Nat} {chains : List (List Token)} {base : Nat}
    {chain : List Token} (hoffset : offsets[k]? = some base) (hchain : chains[k]? = some chain)
    (hlater : ∀ j later, k < j → j < chains.length → offsets[j]? = some later → base + chain.length ≤ later)
    {u : Nat} {token : Token} (hu : chain[u]? = some token) :
    verifyTokens offsets chains (base + u) = token := by
  have hlt : u < chain.length := (List.getElem?_eq_some_iff.mp hu).1
  have hentry : (offsets.zip chains)[k]? = some (base, chain) :=
    List.getElem?_zip_eq_some.mpr ⟨hoffset, hchain⟩
  obtain ⟨hk, heq⟩ := List.getElem?_eq_some_iff.mp hentry
  have hrest : ∀ (entries : List (Nat × List Token)) (tokens : Nat → Token),
      (∀ e ∈ entries, base + chain.length ≤ e.1) →
      entries.foldl (fun tokens entry => copyChain tokens entry.1 entry.2) tokens (base + u) =
        tokens (base + u) := by
    intro entries
    induction entries with
    | nil => exact fun _ _ => rfl
    | cons e entries ih =>
      intro tokens h
      obtain ⟨he, hentries⟩ := forall_mem_cons.mp h
      rw [foldl_cons, ih _ hentries, copyChain, if_neg]
      exact fun hin => absurd hin.1 (Nat.not_le_of_lt (Nat.lt_of_lt_of_le
        (Nat.add_lt_add_left hlt base) he))
  unfold verifyTokens
  rw [← take_append_drop k (offsets.zip chains), foldl_append,
    drop_eq_getElem_cons hk, heq, foldl_cons, hrest]
  · rw [copyChain, if_pos ⟨Nat.le_add_right _ _, Nat.add_lt_add_left hlt base⟩,
      Nat.add_sub_cancel_left, getD_eq_getElem?_getD, hu]
    rfl
  · intro e he
    obtain ⟨j, hj⟩ := mem_iff_getElem?.mp he
    rw [List.getElem?_drop] at hj
    obtain ⟨hfirst, hsecond⟩ := List.getElem?_zip_eq_some.mp hj
    exact hlater _ _ (by omega) (List.getElem?_eq_some_iff.mp hsecond).1 hfirst

theorem slotContext_eq (hslots : (lanes.map (·.sequence.slot)).Nodup) (hlane : lane ∈ lanes) :
    slotContext lanes lane.sequence.slot = lane.sequence.target := by
  unfold slotContext
  cases hfind : lanes.find? (·.sequence.slot == lane.sequence.slot) with
  | none =>
    have hnot := List.find?_eq_none.mp hfind lane hlane
    exact absurd (beq_self_eq_true _) hnot
  | some other =>
    have hslot : other.sequence.slot = lane.sequence.slot := by
      simpa using List.find?_some hfind
    rw [inj_on_of_nodup_map hslots (mem_of_find?_eq_some hfind) hlane hslot]
    rfl

variable {P}

/-- A verified row sees the rows its sequence keeps and its chain up to the row. -/
theorem verify_row {packed : PackedCausalRows} (hslots : (lanes.map (·.sequence.slot)).Nodup)
    (hbuild : PackedCausalRows.build P.graphRows P.batchSize (lanes.map (·.sequence.slot)) (lanes.map (·.sequence.cursor)) (lanes.map fun lane => (P.chain lane.sequence).length) = .ok packed)
    (hlane : lanes[k]? = some lane) {step : Nat} (hstep : step < (P.chain lane.sequence).length) :
    packed.rowOffsets.getD k 0 + step < P.graphRows ∧
      visible packed
          (verifyTokens packed.rowOffsets (lanes.map fun lane => P.chain lane.sequence))
          (slotContext lanes) (packed.rowOffsets.getD k 0 + step) =
        lane.sequence.target ++ (P.chain lane.sequence).take (step + 1) := by
  let entries := lanes.map fun lane =>
    (lane.sequence.slot, lane.sequence.cursor, (P.chain lane.sequence).length)
  have hentry : entries[k]? = some
      (lane.sequence.slot, lane.sequence.cursor, (P.chain lane.sequence).length) := by
    rw [List.getElem?_map, hlane]
    rfl
  have hk : k < entries.length := (List.getElem?_eq_some_iff.mp hentry).1
  have hlaid := @build_laid entries packed P.graphRows P.batchSize (by
    rw [map_map, map_map, map_map]
    exact hbuild)
  obtain ⟨_, htotal, hoffsets, hrows, _⟩ := hlaid
  have hoffset := hoffsets k (Nat.le_of_lt hk)
  rw [getD_eq_getElem?_getD, hoffset, Option.getD_some]
  have hend : laneBase entries k + (P.chain lane.sequence).length ≤
      laneBase entries entries.length := laneBase_le hentry
  refine ⟨by omega, ?_⟩
  have hrow := (hrows k _ hentry).2 step hstep
  unfold visible
  rw [hrow]
  simp only [slotContext_eq hslots (mem_of_getElem? hlane), InferenceSequenceState.cursor,
    Nat.add_sub_cancel_left]
  congr 1
  refine ext_getElem? fun u => ?_
  rw [List.getElem?_map, List.getElem?_take]
  rcases Nat.lt_or_ge u (step + 1) with hu | hu
  · rw [List.getElem?_range hu, if_pos hu, Option.map_some, Nat.add_sub_assoc (Nat.le_refl step),
      Nat.sub_self, Nat.add_zero]
    have hin : u < (P.chain lane.sequence).length := Nat.lt_of_lt_of_le hu hstep
    rw [List.getElem?_eq_getElem hin]
    refine congrArg some (verifyTokens_chain hoffset ?_ ?_ (List.getElem?_eq_getElem hin))
    · rw [List.getElem?_map, hlane]
      rfl
    · intro j later hj hbound hlater
      rw [length_map, ← length_map (f := fun lane : DecodeLane =>
        (lane.sequence.slot, lane.sequence.cursor, (P.chain lane.sequence).length))] at hbound
      rw [hoffsets j (Nat.le_of_lt hbound)] at hlater
      obtain rfl := Option.some.inj hlater
      have hnext := laneBase_succ hentry
      exact hnext ▸ laneBase_mono entries hj
  · rw [List.getElem?_eq_none (by rw [length_range]; exact hu), if_neg (Nat.not_lt_of_le hu)]
    rfl

/-- What drawing step `step` of a chain samples. -/
def drawAt (P : DecodePrograms Λ) (lane : DecodeLane) (step : Nat) : Except String Token :=
  P.sample (P.logits (lane.sequence.target ++ (P.chain lane.sequence).take (step + 1)))
    (lane.sampling.at lane.sequence.id (lane.sequence.generated + step) .target)

theorem acceptCandidates_congr {draw draw' : Nat → Except String Token} {candidates : List Token}
    {step : Nat} (h : ∀ k ≤ candidates.length, draw (step + k) = draw' (step + k)) :
    acceptCandidates draw step candidates = acceptCandidates draw' step candidates := by
  induction candidates generalizing step with
  | nil =>
    have hfirst : draw step = draw' step := h 0 (Nat.le_refl _)
    rw [acceptCandidates, acceptCandidates, hfirst]
  | cons candidate rest ih =>
    have hfirst : draw step = draw' step := h 0 (Nat.zero_le _)
    rw [acceptCandidates, acceptCandidates, hfirst, ih fun k hk => by
      rw [Nat.add_right_comm, Nat.add_assoc]
      exact h (k + 1) (Nat.succ_le_succ hk)]

/-- The result of one lane of a lookup execution. -/
structure LookupPage (P : DecodePrograms Λ) (lane : DecodeLane)
    (result : List Token × List Token) : Prop where
  accepted : ∃ page, acceptCandidates (P.drawAt lane) 0 (P.draft lane.sequence) = .ok page ∧
    result.1 = truncatePage lane.sequence.eos (lane.sequence.pageLimit P.maxDraftTokens) page
  kept : result.2 = (lane.sequence.target ++ P.chain lane.sequence).take
    (lane.sequence.cursor + result.1.length)

theorem lookupPage_ok {packed : PackedCausalRows} (hslots : (lanes.map (·.sequence.slot)).Nodup)
    (hbuild : PackedCausalRows.build P.graphRows P.batchSize (lanes.map (·.sequence.slot)) (lanes.map (·.sequence.cursor)) (lanes.map fun lane => (P.chain lane.sequence).length) = .ok packed)
    (hlane : lanes[k]? = some lane) {result : List Token × List Token} :
    P.lookupPage packed (fun row => P.logits (visible packed
        (verifyTokens packed.rowOffsets (lanes.map fun lane => P.chain lane.sequence))
        (slotContext lanes) row)) (lane, k) = .ok result ↔ LookupPage P lane result := by
  have hdraw : ∀ step ≤ (P.draft lane.sequence).length,
      P.speculativeSampleLogits (fun row => P.logits (visible packed
          (verifyTokens packed.rowOffsets (lanes.map fun lane => P.chain lane.sequence))
          (slotContext lanes) row)) (packed.rowOffsets.getD k 0 + (0 + step))
        (lane.sampling.at lane.sequence.id (lane.sequence.generated + (0 + step)) .target) =
      P.drawAt lane (0 + step) := by
    intro step hstep
    obtain ⟨hrow, hvisible⟩ := verify_row hslots hbuild hlane (Nat.lt_succ_of_le hstep)
    rw [Nat.zero_add, speculativeSampleLogits, if_neg (Nat.not_le_of_lt hrow), hvisible, drawAt]
  unfold lookupPage
  rw [map_ok, acceptCandidates_congr hdraw]
  constructor
  · rintro ⟨page, hpage, rfl⟩
    exact ⟨⟨page, hpage, rfl⟩, rfl⟩
  · rintro ⟨⟨page, hpage, hcut⟩, hkept⟩
    exact ⟨page, hpage, Prod.ext hcut.symm (by rw [hkept, hcut])⟩

/-! ## The executions -/

/-- What the checks of a lookup execution let through. -/
structure LookupAccepts (P : DecodePrograms Λ) (lanes : List DecodeLane) : Prop where
  nonempty : lanes ≠ []
  drafts : P.maxDraftTokens ≠ 0
  count : lanes.length ≤ P.batchSize
  tokens : ∀ lane ∈ lanes, ∀ token ∈ lane.sequence.pending :: lane.sequence.eos,
    token.toNat < P.vocabulary
  slots_lt : ∀ lane ∈ lanes, lane.sequence.slot < P.batchSize
  slots : (lanes.map (·.sequence.slot)).Nodup
  limits : ∀ lane ∈ lanes, lane.sequence.pageLimit P.maxDraftTokens ≠ 0
  ids : (lanes.map (·.sequence.id)).Nodup
  room : ∀ lane ∈ lanes, lane.sequence.cursor < P.maxTokens
  history : ∀ lane ∈ lanes, lane.sequence.history.length = lane.sequence.cursor + 1
  pending : ∀ lane ∈ lanes, lane.sequence.history.getLast? = some lane.sequence.pending

theorem validateLookup_ok {u : Unit} : P.validateLookup lanes = .ok u ↔ LookupAccepts P lanes := by
  unfold validateLookup
  constructor
  · intro h
    split at h
    · cases h
    · next hcount =>
      split at h
      · cases h
      · next htokens =>
        split at h
        · cases h
        · next hslots =>
          split at h
          · cases h
          · next hstates =>
            simp only [not_or, Nat.not_lt] at hcount
            simp only [any_eq_true, not_exists, not_and, decide_eq_true_eq,
              Nat.not_le] at htokens
            simp only [not_or, not_not, any_eq_true, not_exists, not_and, decide_eq_true_eq,
              Nat.not_le, beq_iff_eq] at hslots
            simp only [any_eq_true, not_exists, not_and, not_or, not_not, decide_eq_true_eq,
              Nat.not_le, Bool.or_eq_true, bne_iff_ne] at hstates
            exact {
              nonempty := hcount.1
              drafts := hcount.2.1
              count := hcount.2.2
              tokens := htokens
              slots_lt := hslots.1
              slots := hslots.2.1
              limits := hslots.2.2.1
              ids := hslots.2.2.2
              room := fun lane hlane => (hstates lane hlane).1.1
              history := fun lane hlane => (hstates lane hlane).1.2
              pending := fun lane hlane => (hstates lane hlane).2 }
  · intro h
    rw [if_neg (by simpa using ⟨h.nonempty, h.drafts, h.count⟩), if_neg, if_neg, if_neg]
    · simpa using fun lane hlane => ⟨⟨h.room lane hlane, h.history lane hlane⟩, h.pending lane hlane⟩
    · simpa using ⟨h.slots_lt, h.slots, h.limits, h.ids⟩
    · simpa using h.tokens

/-- What a lookup execution returns. -/
theorem executeHistoryLookup_ok {results : List (List Token × List Token)}
    (h : P.executeHistoryLookup lanes = .ok results) :
    LookupAccepts P lanes ∧ lanes.length = results.length ∧
      ∀ (k : Nat) lane, lanes[k]? = some lane →
        ∃ result, results[k]? = some result ∧ LookupPage P lane result := by
  unfold executeHistoryLookup at h
  obtain ⟨_, hvalid, h⟩ := bind_ok.mp h
  obtain ⟨packed, hbuild, h⟩ := bind_ok.mp h
  have haccepts := validateLookup_ok.mp hvalid
  obtain ⟨hlen, hpages⟩ := mapM_ok.mp h
  refine ⟨haccepts, by rw [← hlen, length_zipIdx], fun k lane hlane => ?_⟩
  obtain ⟨result, hresult, hpage⟩ := hpages k (lane, k) (by
    rw [List.getElem?_zipIdx, hlane, Nat.zero_add]
    rfl)
  exact ⟨result, hresult, (lookupPage_ok haccepts.slots hbuild hlane).mp hpage⟩

theorem draft_length_le (P : DecodePrograms Λ) (s : DecodeState) :
    (P.draft s).length ≤ P.maxDraftTokens ∧
      (P.draft s).length ≤ P.maxTokens - s.cursor - 1 := by
  have h := historyLookup_length_le s.history P.config.minMatchTokens P.config.maxMatchTokens
    (min (min P.maxDraftTokens (s.pageLimit P.maxDraftTokens - 1)) (P.maxTokens - s.cursor - 1))
  exact ⟨h.trans ((Nat.min_le_left _ _).trans (Nat.min_le_left _ _)), h.trans (Nat.min_le_right _ _)⟩

theorem acceptCandidates_total {draw : Nat → Except String Token}
    (h : ∀ step, ∃ token, draw step = .ok token) (step : Nat) (candidates : List Token) :
    ∃ page, acceptCandidates draw step candidates = .ok page := by
  induction candidates generalizing step with
  | nil =>
    obtain ⟨token, htoken⟩ := h step
    exact ⟨[token], by rw [acceptCandidates, htoken]; rfl⟩
  | cons candidate rest ih =>
    obtain ⟨token, htoken⟩ := h step
    obtain ⟨page, hpage⟩ := ih (step + 1)
    rw [acceptCandidates, htoken]
    dsimp only
    split
    · exact ⟨candidate :: page, by rw [hpage]; rfl⟩
    · exact ⟨[token], rfl⟩

/-- A lookup execution whose lanes pass the checks returns, if every logits row can be
sampled. -/
theorem executeHistoryLookup_total (hsample : ∀ row options, ∃ token, P.sample row options = .ok token)
    (h : LookupAccepts P lanes) : ∃ results, P.executeHistoryLookup lanes = .ok results := by
  let entries := lanes.map fun lane =>
    (lane.sequence.slot, lane.sequence.cursor, (P.chain lane.sequence).length)
  have hchain : ∀ lane ∈ lanes, (P.chain lane.sequence).length ≤ P.maxDraftTokens + 1 ∧
      lane.sequence.cursor + (P.chain lane.sequence).length ≤ P.maxTokens := by
    intro lane hlane
    obtain ⟨hdraft, hroom⟩ := draft_length_le P lane.sequence
    have hcursor := h.room lane hlane
    rw [chain, length_cons]
    exact ⟨Nat.succ_le_succ hdraft, by omega⟩
  have hsum : (entries.map (·.2.2)).sum ≤ P.graphRows := by
    refine (sum_le_card_nsmul _ (P.maxDraftTokens + 1) ?_).trans ?_
    · intro length hlength
      rw [map_map] at hlength
      obtain ⟨lane, hlane, rfl⟩ := mem_map.mp hlength
      exact (hchain lane hlane).1
    · rw [length_map, length_map, smul_eq_mul]
      exact Nat.mul_le_mul_right _ h.count
  have hlanes : ∀ entry ∈ entries, entry.1 < P.batchSize ∧ entry.2.2 ≠ 0 ∧
      entry.2.1 + entry.2.2 ≤ usizeMax := by
    intro entry hentry
    obtain ⟨lane, hlane, rfl⟩ := mem_map.mp hentry
    exact ⟨h.slots_lt lane hlane, Nat.succ_ne_zero _, (hchain lane hlane).2.trans P.maxTokens_le⟩
  obtain ⟨packed, hbuild⟩ := build_total (P.rows_lt.le.trans (by decide)) hlanes hsum
  rw [map_map, map_map, map_map] at hbuild
  obtain ⟨results, hresults⟩ := mapM_total (f := P.lookupPage packed fun row =>
    P.logits (visible packed
      (verifyTokens packed.rowOffsets (lanes.map fun lane => P.chain lane.sequence))
      (slotContext lanes) row)) (l := lanes.zipIdx) (by
    rintro ⟨lane, k⟩ hentry
    have hlane : lanes[k]? = some lane := mem_zipIdx_iff_getElem?.mp hentry
    obtain ⟨page, hpage⟩ := @acceptCandidates_total (P.drawAt lane)
      (fun step => hsample _ _) 0 (P.draft lane.sequence)
    let cut := truncatePage lane.sequence.eos (lane.sequence.pageLimit P.maxDraftTokens) page
    exact ⟨(cut, (lane.sequence.target ++ P.chain lane.sequence).take
      (lane.sequence.cursor + cut.length)),
      (lookupPage_ok h.slots hbuild hlane).mpr ⟨⟨page, hpage, rfl⟩, rfl⟩⟩)
  exact ⟨results, bind_ok.mpr ⟨(), validateLookup_ok.mpr h, bind_ok.mpr ⟨packed, hbuild, hresults⟩⟩⟩

/-- What the execution of an ordinary round returns. -/
theorem executeDecode_ok {results : List (List Token × List Token)} :
    P.executeDecode lanes = .ok results ↔
      (∀ lane ∈ lanes, lane.sequence.cursor < P.maxTokens) ∧ lanes.length = results.length ∧
        ∀ (k : Nat) lane, lanes[k]? = some lane → ∃ result, results[k]? = some result ∧
          ∃ token, P.sample (P.logits (lane.sequence.target ++ [lane.sequence.pending]))
              (lane.sampling.at lane.sequence.id lane.sequence.generated .target) = .ok token ∧
            ([token], lane.sequence.target ++ [lane.sequence.pending]) = result := by
  unfold executeDecode
  simp only [bind_ok, mapM_ok, map_ok, foldlM_check]
  refine ⟨fun ⟨_, hroom, hresults⟩ => ⟨fun lane hlane => ?_, hresults⟩,
    fun ⟨hroom, hresults⟩ => ⟨(), fun entry hentry => ?_, hresults⟩⟩
  · obtain ⟨k, hk⟩ := mem_iff_getElem?.mp hlane
    have hcheck := hroom (lane, k) (mem_zipIdx_iff_getElem?.mpr hk)
    split at hcheck
    · cases hcheck
    · next h => exact Nat.lt_of_succ_le (Nat.le_of_not_lt h)
  · have hlane := mem_of_getElem? (mem_zipIdx_iff_getElem?.mp hentry)
    rw [if_neg (Nat.not_lt_of_le (hroom _ hlane))]

end DecodePrograms

end EffectTorch
