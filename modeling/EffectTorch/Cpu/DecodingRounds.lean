import EffectTorch.Cpu.HistoryLookup

/-!
# Decoding rounds

`run_round` of an inference session over its live sequences, with the ordinary
execution or with history lookup, and runs of rounds. A round that fails leaves the
sequences as they were.

Results:
1. `accepted_emits`: a page of a lookup round is a run of ordinary steps of its sequence.
2. `runRounds_emits`: so is what a sequence emits over any run of rounds.
3. `history_lookup_lossless`: history lookup changes nothing but the grouping of tokens
   into pages.
-/

namespace EffectTorch
open List Lib

variable {Λ : Type}

/-! ## Rounds -/

section Rounds

/-- `run_round`: `execute` is the execution of its path, `phase` names it in errors. -/
def runRound (execute : List DecodeLane → Except String (List (List Token × List Token)))
    (phase : String) (interrupted : Bool) (sequences : LiveSequences (List Token))
    (request : RoundRequest) :
    Fallible String (LiveSequences (List Token) × List ReceiptPage) := do
  let lanes ← (selectLanes sequences request).mapError .error
  rejectIf (lanes.any (·.sequence.terminal.isSome))
    (inferenceError "admission" "sequence is terminal")
  rejectIf interrupted (inferenceError phase "operation aborted")
  let results ← (execute lanes).mapError fun reason => .error (inferenceError phase reason)
  let ids := request.map (·.1)
  expect (publishPages (commitTargets sequences (ids.zip (results.map (·.2))))
    (ids.zip (results.map (·.1)))) "selected sequence remained live"

/-- A `run_round` call for some sequences that something outside of the model (a
cancellation, a pool without free pages) may interrupt. -/
structure DecodeRound where
  ids : List Nat
  interrupted : Bool

/-- A run of rounds. `overrides` are the sampling overrides of the calls for each
sequence, the same in every call. -/
def runRounds (execute : List DecodeLane → Except String (List (List Token × List Token)))
    (phase : String) (overrides : Nat → NativeInferenceSamplingOverrides) :
    List DecodeRound → LiveSequences (List Token) → LiveSequences (List Token) × List ReceiptPage
  | [], sequences => (sequences, [])
  | round :: rest, sequences =>
    match runRound execute phase round.interrupted sequences
      (round.ids.map fun id => (id, overrides id)) with
    | .error _ => runRounds execute phase overrides rest sequences
    | .ok (sequences', pages) =>
      let last := runRounds execute phase overrides rest sequences'
      (last.1, pages ++ last.2)

end Rounds

/-! ## Ordinary decoding of one sequence -/

section Ordinary

variable (P : DecodePrograms Λ) (overrides : NativeInferenceSamplingOverrides)

/-- An ordinary round makes `token` the next token of `s`. -/
structure OrdinaryStep (s : DecodeState) (token : Token) (s' : DecodeState) : Prop where
  live : s.terminal = none
  room : s.cursor < P.maxTokens
  sampled : ∃ options, inferenceSamplingOverride overrides s.sampling "sample" = .ok options ∧
    P.sample (P.logits (s.target ++ [s.pending])) (options.at s.id s.generated .target) = .ok token
  published : (s.keep (s.target ++ [s.pending])).publish [token] = some s'

/-- Ordinary decoding of `s` emits `tokens`, one a round, and leaves `s'`. -/
inductive Emits : DecodeState → List Token → DecodeState → Prop
  | refl (s : DecodeState) : Emits s [] s
  | step {s s₁ s' : DecodeState} {token : Token} {tokens : List Token} :
      OrdinaryStep P overrides s token s₁ → Emits s₁ tokens s' → Emits s (token :: tokens) s'

variable {P overrides} {s s₁ s₂ : DecodeState} {token token₁ token₂ : Token}
  {tokens tokens₁ tokens₂ : List Token}

theorem OrdinaryStep.unique (h₁ : OrdinaryStep P overrides s token₁ s₁)
    (h₂ : OrdinaryStep P overrides s token₂ s₂) : token₁ = token₂ ∧ s₁ = s₂ := by
  obtain ⟨options₁, hoptions₁, hsample₁⟩ := h₁.sampled
  obtain ⟨options₂, hoptions₂, hsample₂⟩ := h₂.sampled
  obtain rfl := Except.ok.inj (hoptions₁.symm.trans hoptions₂)
  obtain rfl := Except.ok.inj (hsample₁.symm.trans hsample₂)
  exact ⟨rfl, Option.some.inj (h₁.published.symm.trans h₂.published)⟩

/-- What an ordinary step writes. -/
theorem OrdinaryStep.fields (h : OrdinaryStep P overrides s token s₁) :
    s₁.target = s.target ++ [s.pending] ∧ s₁.pending = token ∧
      s₁.generated = s.generated + 1 ∧ s₁.id = s.id ∧ s₁.budget = s.budget ∧ s₁.eos = s.eos ∧
      s₁.sampling = s.sampling ∧ s₁.terminal = s.stopReason token (s.generated + 1) := by
  have hpublished := h.published
  rw [publish_one] at hpublished
  obtain rfl := Option.some.inj hpublished
  exact ⟨rfl, rfl, rfl, rfl, rfl, rfl, rfl, rfl⟩

/-- Publishing a longer page is publishing the rest of it after the first token. -/
theorem OrdinaryStep.publish_rest (h : OrdinaryStep P overrides s token s₁) (target : List Token)
    {rest : List Token} (hrest : rest ≠ []) :
    (s.keep target).publish (token :: rest) = (s₁.keep target).publish rest := by
  have hpublished := h.published
  rw [publish_one] at hpublished
  obtain rfl := Option.some.inj hpublished
  rw [publish_cons _ _ hrest, publish_one, Option.bind_some]
  rfl

theorem OrdinaryStep.id_eq (h : OrdinaryStep P overrides s token s₁) :
    s₁.id = s.id :=
  h.fields.2.2.2.1

theorem Emits.trans (h₁ : Emits P overrides s tokens₁ s₁) (h₂ : Emits P overrides s₁ tokens₂ s₂) :
    Emits P overrides s (tokens₁ ++ tokens₂) s₂ := by
  induction h₁ with
  | refl s => exact h₂
  | step hstep _ ih => exact .step hstep (ih h₂)

/-- Two runs of one sequence: one emits what the other does, and maybe more. -/
theorem Emits.compare (h₁ : Emits P overrides s tokens₁ s₁) (h₂ : Emits P overrides s tokens₂ s₂) :
    (∃ more, tokens₂ = tokens₁ ++ more ∧ Emits P overrides s₁ more s₂) ∨
      ∃ more, tokens₁ = tokens₂ ++ more ∧ Emits P overrides s₂ more s₁ := by
  induction h₁ generalizing tokens₂ with
  | refl s => exact .inl ⟨tokens₂, rfl, h₂⟩
  | step hstep₁ hrest₁ ih =>
    cases h₂ with
    | refl => exact .inr ⟨_, rfl, .step hstep₁ hrest₁⟩
    | step hstep₂ hrest₂ =>
      obtain ⟨rfl, rfl⟩ := hstep₁.unique hstep₂
      rcases ih hrest₂ with ⟨more, rfl, hmore⟩ | ⟨more, rfl, hmore⟩
      · exact .inl ⟨more, rfl, hmore⟩
      · exact .inr ⟨more, rfl, hmore⟩

/-- A terminal sequence emits nothing. -/
theorem Emits.terminal (h : Emits P overrides s tokens s₁) (hterminal : s.terminal.isSome) :
    tokens = [] ∧ s₁ = s := by
  cases h with
  | refl => exact ⟨rfl, rfl⟩
  | step hstep =>
    rw [hstep.live] at hterminal
    cases hterminal

theorem Emits.id_eq (h : Emits P overrides s tokens s₁) : s₁.id = s.id := by
  induction h with
  | refl => rfl
  | step hstep _ ih => exact ih.trans hstep.id_eq

end Ordinary

/-! ## A page of a lookup round -/

section Page

variable {P : DecodePrograms Λ} {overrides : NativeInferenceSamplingOverrides}

variable {candidates : List Token}

theorem acceptCandidates_ne_nil {draw : Nat → Except String Token} {step : Nat} {page : List Token}
    (h : DecodePrograms.acceptCandidates draw step candidates = .ok page) : page ≠ [] := by
  cases candidates with
  | nil =>
    obtain ⟨token, _, rfl⟩ := map_ok.mp h
    exact cons_ne_nil _ _
  | cons candidate rest =>
    rw [DecodePrograms.acceptCandidates] at h
    split at h
    · cases h
    · split at h
      · obtain ⟨page, _, rfl⟩ := map_ok.mp h
        exact cons_ne_nil _ _
      · cases h
        exact cons_ne_nil _ _

/-- A page of one token is one ordinary step. -/
theorem single_emits {s : DecodeState} {options : SamplingOptions} {token : Token}
    (hoptions : inferenceSamplingOverride overrides s.sampling "sample" = .ok options)
    (hlive : s.terminal = none) (hroom : s.cursor < P.maxTokens)
    (hsample : P.sample (P.logits (s.target ++ [s.pending])) (options.at s.id s.generated .target) = .ok token) :
    ∃ s', (s.keep ((s.target ++ s.pending :: candidates).take (s.cursor + 1))).publish [token] =
      some s' ∧ Emits P overrides s [token] s' := by
  have htake : (s.target ++ s.pending :: candidates).take (s.cursor + 1) =
      s.target ++ [s.pending] := by
    rw [InferenceSequenceState.cursor, take_length_add_append]
    rfl
  rw [htake]
  obtain ⟨s', hs'⟩ := publish_of_ne_nil (s.keep (s.target ++ [s.pending])) (cons_ne_nil token [])
  exact ⟨s', hs', .step ⟨hlive, hroom, ⟨options, hoptions, hsample⟩, hs'⟩ (.refl s')⟩

/-- The page that the loop over the candidates accepts, once it is cut, is what ordinary
decoding emits. By induction on the candidates: the sequence after an accepted candidate
is the one the rest of the chain continues. -/
theorem accepted_emits {s : DecodeState} {options : SamplingOptions} {draw : Nat → Except String Token}
    {step limit : Nat} {page : List Token}
    (hoptions : inferenceSamplingOverride overrides s.sampling "sample" = .ok options)
    (hlive : s.terminal = none) (hroom : s.cursor + candidates.length < P.maxTokens)
    (hdraw : ∀ k ≤ candidates.length, draw (step + k) = P.sample (P.logits (s.target ++ (s.pending :: candidates).take (k + 1))) (options.at s.id (s.generated + k) .target))
    (hpage : DecodePrograms.acceptCandidates draw step candidates = .ok page) (hpos : 0 < limit)
    (hlimit : ∀ budget, s.budget = some budget → limit ≤ max (budget - s.generated) 1) :
    ∃ s', (s.keep ((s.target ++ s.pending :: candidates).take
        (s.cursor + (truncatePage s.eos limit page).length))).publish
          (truncatePage s.eos limit page) = some s' ∧
      Emits P overrides s (truncatePage s.eos limit page) s' := by
  induction candidates generalizing s step limit page with
  | nil =>
    obtain ⟨token, htoken, rfl⟩ := map_ok.mp hpage
    rw [truncatePage_one s.eos hpos]
    exact single_emits hoptions hlive hroom ((hdraw 0 (Nat.zero_le _)).symm.trans htoken)
  | cons candidate rest ih =>
    have hcursor : s.cursor < P.maxTokens := Nat.lt_of_le_of_lt (Nat.le_add_right _ _) hroom
    rw [DecodePrograms.acceptCandidates] at hpage
    split at hpage
    · cases hpage
    · next token htoken =>
      have hsample : P.sample (P.logits (s.target ++ [s.pending]))
          (options.at s.id s.generated .target) = .ok token :=
        (hdraw 0 (Nat.zero_le _)).symm.trans htoken
      split at hpage
      · next heq =>
        subst heq
        obtain ⟨page, hrest, rfl⟩ := map_ok.mp hpage
        obtain ⟨limit, rfl⟩ := Nat.exists_eq_succ_of_ne_zero (Nat.ne_of_gt hpos)
        rw [Nat.succ_eq_add_one, truncatePage_cons]
        split
        · exact single_emits hoptions hlive hcursor hsample
        · next hstop =>
          rcases Nat.eq_zero_or_pos limit with rfl | hlimit_pos
          · rw [truncatePage_zero]
            exact single_emits hoptions hlive hcursor hsample
          -- the page goes on, so neither a stop token nor the budget ends the sequence here
          have hbudget : ∀ budget, s.budget = some budget → limit + 1 ≤ budget - s.generated := by
            intro budget hb
            have h := hlimit budget hb
            omega
          obtain ⟨s₁, hs₁⟩ := publish_of_ne_nil (s.keep (s.target ++ [s.pending]))
            (cons_ne_nil token [])
          have hstep : OrdinaryStep P overrides s token s₁ :=
            ⟨hlive, hcursor, ⟨options, hoptions, hsample⟩, hs₁⟩
          obtain ⟨htarget, hpending, hgenerated, hid, hbudget_eq, heos, hsampling, hterminal⟩ :=
            hstep.fields
          have hcursor₁ : s₁.cursor = s.cursor + 1 := by
            rw [InferenceSequenceState.cursor, htarget, length_append]
            rfl
          have hlive₁ : s₁.terminal = none := by
            refine hterminal.trans (stopReason_none hstop fun budget hb => ?_)
            have h := hbudget budget hb
            omega
          have hdraw₁ : ∀ k ≤ rest.length, draw (step + 1 + k) =
              P.sample (P.logits (s₁.target ++ (s₁.pending :: rest).take (k + 1)))
                (options.at s₁.id (s₁.generated + k) .target) := by
            intro k hk
            have h := hdraw (k + 1) (Nat.succ_le_succ hk)
            rw [htarget, hpending, hid, hgenerated, append_assoc, Nat.add_assoc, Nat.add_assoc,
              Nat.add_comm 1 k]
            exact h
          obtain ⟨s', hs', hemits⟩ := ih (hsampling ▸ hoptions) hlive₁
            (by rw [hcursor₁, Nat.add_assoc, Nat.add_comm 1]; exact hroom) hdraw₁ hrest hlimit_pos
            (fun budget hb => by
              have h := hbudget budget (hbudget_eq ▸ hb)
              rw [hgenerated]
              omega)
          have hne : truncatePage s.eos limit page ≠ [] :=
            truncatePage_ne_nil _ hlimit_pos (acceptCandidates_ne_nil hrest)
          rw [heos, hcursor₁, htarget, hpending, append_assoc] at hs'
          rw [heos] at hemits
          refine ⟨s', ?_, .step hstep hemits⟩
          rw [hstep.publish_rest _ hne, length_cons, Nat.add_comm _ 1, ← Nat.add_assoc]
          exact hs'
      · cases hpage
        rw [truncatePage_one s.eos hpos]
        exact single_emits hoptions hlive hcursor hsample

end Page

/-! ## A round of the session -/

section Session

variable {P : DecodePrograms Λ}
  {execute : List DecodeLane → Except String (List (List Token × List Token))} {phase : String}
  {interrupted : Bool} {sequences sequences' : LiveSequences (List Token)}
  {request : RoundRequest} {pages : List ReceiptPage}

/-- An execution whose pages are what ordinary decoding of their sequences emits. -/
def Emitting (P : DecodePrograms Λ)
    (execute : List DecodeLane → Except String (List (List Token × List Token))) : Prop :=
  ∀ lanes results, execute lanes = .ok results → lanes.length = results.length ∧
    ∀ (k : Nat) lane, lanes[k]? = some lane → ∃ result, results[k]? = some result ∧
      result.1 ≠ [] ∧ ∀ overrides,
        inferenceSamplingOverride overrides lane.sequence.sampling "sample" = .ok lane.sampling →
        lane.sequence.terminal = none →
        ∃ s', (lane.sequence.keep result.2).publish result.1 = some s' ∧
          Emits P overrides lane.sequence result.1 s'

theorem executeDecode_emitting (P : DecodePrograms Λ) : Emitting P P.executeDecode := by
  intro lanes results h
  obtain ⟨hroom, hlen, hresults⟩ := DecodePrograms.executeDecode_ok.mp h
  refine ⟨hlen, fun k lane hlane => ?_⟩
  obtain ⟨_, hresult, token, hsample, rfl⟩ := hresults k lane hlane
  refine ⟨_, hresult, cons_ne_nil _ _, fun overrides hoptions hlive => ?_⟩
  obtain ⟨s', hs'⟩ := publish_of_ne_nil
    (lane.sequence.keep (lane.sequence.target ++ [lane.sequence.pending])) (cons_ne_nil token [])
  exact ⟨s', hs', .step ⟨hlive, hroom lane (mem_of_getElem? hlane),
    ⟨lane.sampling, hoptions, hsample⟩, hs'⟩ (.refl s')⟩

theorem executeHistoryLookup_emitting (P : DecodePrograms Λ) :
    Emitting P P.executeHistoryLookup := by
  intro lanes results h
  obtain ⟨haccepts, hlen, hresults⟩ := DecodePrograms.executeHistoryLookup_ok h
  refine ⟨hlen, fun k lane hlane => ?_⟩
  obtain ⟨result, hresult, ⟨page, hpage, hcut⟩, hkept⟩ := hresults k lane hlane
  have hmem := mem_of_getElem? hlane
  have hpos := Nat.pos_of_ne_zero (haccepts.limits lane hmem)
  refine ⟨result, hresult, ?_, fun overrides hoptions hlive => ?_⟩
  · rw [hcut]
    exact truncatePage_ne_nil _ hpos (acceptCandidates_ne_nil hpage)
  · have hroom : lane.sequence.cursor + (P.draft lane.sequence).length < P.maxTokens := by
      have hcursor := haccepts.room lane hmem
      have hdraft := (DecodePrograms.draft_length_le P lane.sequence).2
      omega
    rw [hkept, hcut]
    refine accepted_emits hoptions hlive hroom (fun k _ => ?_) hpage hpos fun budget hb =>
      pageLimit_le _ hb
    rw [Nat.zero_add]
    rfl

/-- The steps of a round that returns. -/
theorem runRound_ok :
    runRound execute phase interrupted sequences request = .ok (sequences', pages) ↔
      ∃ lanes results, selectLanes sequences request = .ok lanes ∧
        (∀ lane ∈ lanes, lane.sequence.terminal = none) ∧ interrupted = false ∧
        execute lanes = .ok results ∧
        publishPages (commitTargets sequences ((request.map (·.1)).zip (results.map (·.2))))
          ((request.map (·.1)).zip (results.map (·.1))) = some (sequences', pages) := by
  unfold runRound
  simp only [bind_ok, mapError_ok, rejectIf_ok, expect_ok, any_eq_true, not_exists, not_and,
    Bool.not_eq_true, Option.isSome_eq_false_iff, Option.isNone_iff_eq_none]
  constructor
  · rintro ⟨lanes, hlanes, _, hlive, _, hinterrupted, results, hresults, hpublish⟩
    exact ⟨lanes, results, hlanes, hlive, hinterrupted, hresults, hpublish⟩
  · rintro ⟨lanes, results, hlanes, hlive, hinterrupted, hresults, hpublish⟩
    exact ⟨lanes, hlanes, (), hlive, (), hinterrupted, results, hresults, hpublish⟩

/-- What a round that returns does: each sequence of the request decodes its page, no other
sequence changes. -/
theorem runRound_emits (hexecute : Emitting P execute) (hkeyed : Keyed sequences)
    (h : runRound execute phase interrupted sequences request = .ok (sequences', pages)) :
    Keyed sequences' ∧ (∀ id, id ∉ request.map (·.1) →
        sequences'.lookup id = sequences.lookup id ∧ tokensOf id pages = []) ∧
      ∀ entry ∈ request, ∃ s s', sequences.lookup entry.1 = some s ∧
        sequences'.lookup entry.1 = some s' ∧ tokensOf entry.1 pages ≠ [] ∧
        Emits P entry.2 s (tokensOf entry.1 pages) s' := by
  obtain ⟨lanes, results, hlanes, hlive, _, hresults, hpublish⟩ := runRound_ok.mp h
  obtain ⟨_, hnodup, hlen, hselected⟩ := selectLanes_ok.mp hlanes
  obtain ⟨hlen', hpages⟩ := hexecute lanes results hresults
  have hkeys : ∀ f : List Token × List Token → List Token,
      ((request.map (·.1)).zip (results.map f)).map (·.1) = request.map (·.1) := fun f =>
    zip_keys request (by rw [length_map, hlen, hlen'])
  have hnodup' : ∀ f : List Token × List Token → List Token,
      (((request.map (·.1)).zip (results.map f)).map (·.1)).Nodup := fun f => by
    rw [hkeys]
    exact hnodup
  obtain ⟨hother, hcommitted⟩ := commitTargets_spec sequences (hnodup' (·.2))
  obtain ⟨hother', hpublished, hforall⟩ := publishPages_spec (hnodup' (·.1)) hpublish
  rw [hkeys] at hother hother'
  have hlane : ∀ (k : Nat) entry, request[k]? = some entry → ∃ s s' page,
      sequences.lookup entry.1 = some s ∧ sequences'.lookup entry.1 = some s' ∧ s'.id = entry.1 ∧
      ((request.map (·.1)).zip (results.map (·.1)))[k]? = some (entry.1, page) ∧ page ≠ [] ∧
      Emits P entry.2 s page s' := by
    intro k entry hk
    obtain ⟨lane, hlane, hlookup, hoptions⟩ := hselected k entry hk
    obtain ⟨result, hresult, hne, hemits⟩ := hpages k lane hlane
    obtain ⟨s', hs', hpage⟩ := hemits entry.2 hoptions (hlive lane (mem_of_getElem? hlane))
    have hzip : ∀ f : List Token × List Token → List Token,
        ((request.map (·.1)).zip (results.map f))[k]? = some (entry.1, f result) := fun f =>
      List.getElem?_zip_eq_some.mpr
        ⟨by rw [List.getElem?_map, hk]; rfl, by rw [List.getElem?_map, hresult]; rfl⟩
    obtain ⟨q, q', hq, hq', hlookup'⟩ := hpublished _ (mem_of_getElem? (hzip (·.1)))
    rw [hcommitted _ (mem_of_getElem? (hzip (·.2))), hlookup] at hq
    obtain rfl := Option.some.inj hq
    obtain rfl := Option.some.inj (hs'.symm.trans hq')
    exact ⟨lane.sequence, s', result.1, hlookup, hlookup',
      hpage.id_eq.trans (hkeyed _ _ hlookup), hzip (·.1), hne, hpage⟩
  have hkeyed' : Keyed sequences' := by
    intro id s' hs'
    by_cases hid : id ∈ request.map (·.1)
    · obtain ⟨entry, hentry, rfl⟩ := mem_map.mp hid
      obtain ⟨k, hk⟩ := mem_iff_getElem?.mp hentry
      obtain ⟨_, q, _, _, hq, hqid, _⟩ := hlane k entry hk
      obtain rfl := Option.some.inj (hs'.symm.trans hq)
      exact hqid
    · rw [hother' id hid, hother id hid] at hs'
      exact hkeyed id s' hs'
  have hforall' : List.Forall₂ (fun entry page => page.sequenceId = entry.1 ∧ page.tokens = entry.2)
      ((request.map (·.1)).zip (results.map (·.1))) pages :=
    hforall.imp fun entry page ⟨s', hs', hpage⟩ => by
      rw [hpage]
      exact ⟨hkeyed' _ _ hs', rfl⟩
  obtain ⟨hnone, hsome⟩ := tokensOf_pages (hnodup' (·.1)) hforall'
  rw [hkeys] at hnone
  refine ⟨hkeyed', fun id hid => ⟨(hother' id hid).trans (hother id hid), hnone id hid⟩,
    fun entry hentry => ?_⟩
  obtain ⟨k, hk⟩ := mem_iff_getElem?.mp hentry
  obtain ⟨s, s', page, hs, hs', _, hzip, hne, hemits⟩ := hlane k entry hk
  rw [hsome _ (mem_of_getElem? hzip)]
  exact ⟨s, s', hs, hs', hne, hemits⟩

variable {overrides : Nat → NativeInferenceSamplingOverrides} {rounds : List DecodeRound}

/-- What a sequence emits over a run of rounds is what ordinary decoding of it emits, and
the run leaves it as ordinary decoding does. -/
theorem runRounds_emits (hexecute : Emitting P execute) (hkeyed : Keyed sequences) :
    Keyed (runRounds execute phase overrides rounds sequences).1 ∧
      ∀ id, (sequences.lookup id = none →
          (runRounds execute phase overrides rounds sequences).1.lookup id = none ∧
            tokensOf id (runRounds execute phase overrides rounds sequences).2 = []) ∧
        ∀ s, sequences.lookup id = some s → ∃ s',
          (runRounds execute phase overrides rounds sequences).1.lookup id = some s' ∧
            Emits P (overrides id) s
              (tokensOf id (runRounds execute phase overrides rounds sequences).2) s' := by
  induction rounds generalizing sequences with
  | nil => exact ⟨hkeyed, fun id => ⟨fun h => ⟨h, rfl⟩, fun s hs => ⟨s, hs, .refl s⟩⟩⟩
  | cons round rounds ih =>
    rw [runRounds]
    cases hround : runRound execute phase round.interrupted sequences
        (round.ids.map fun id => (id, overrides id)) with
    | error e => exact ih hkeyed
    | ok result =>
      obtain ⟨sequences', pages⟩ := result
      obtain ⟨hkeyed', hother, hpages⟩ := runRound_emits hexecute hkeyed hround
      obtain ⟨hlast, hids⟩ := ih hkeyed'
      refine ⟨hlast, fun id => ?_⟩
      dsimp only
      rw [tokensOf_append]
      obtain ⟨hnone, hsome⟩ := hids id
      have hround_ids : (round.ids.map fun id => (id, overrides id)).map (·.1) = round.ids := by
        rw [map_map]
        exact map_id _
      by_cases hid : id ∈ round.ids
      · obtain ⟨s, s', hs, hs', _, hemits⟩ :=
          hpages (id, overrides id) (mem_map.mpr ⟨id, hid, rfl⟩)
        refine ⟨fun h => absurd (hs.symm.trans h) nofun, fun q hq => ?_⟩
        obtain rfl := Option.some.inj (hs.symm.trans hq)
        obtain ⟨s'', hs'', hemits'⟩ := hsome s' hs'
        exact ⟨s'', hs'', hemits.trans hemits'⟩
      · obtain ⟨hsame, hempty⟩ := hother id (by rw [hround_ids]; exact hid)
        rw [hempty, nil_append, ← hsame]
        exact ⟨hnone, hsome⟩

theorem runRounds_append (first second : List DecodeRound) :
    runRounds execute phase overrides (first ++ second) sequences =
      ((runRounds execute phase overrides second
          (runRounds execute phase overrides first sequences).1).1,
        (runRounds execute phase overrides first sequences).2 ++
          (runRounds execute phase overrides second
            (runRounds execute phase overrides first sequences).1).2) := by
  induction first generalizing sequences with
  | nil => rfl
  | cons round first ih =>
    rw [cons_append, runRounds, runRounds]
    split
    · exact ih
    · dsimp only
      rw [ih, append_assoc]

end Session

/-! ## Ordinary decoding reaches what lookup rounds reach -/

section Ordinary

variable {P : DecodePrograms Λ} {overrides : Nat → NativeInferenceSamplingOverrides}
  {sequences : LiveSequences (List Token)} {id : Nat} {s s' : DecodeState}

/-- The ordinary round of one sequence. -/
theorem runRound_single {token : Token} (hs : sequences.lookup id = some s)
    (hstep : OrdinaryStep P (overrides id) s token s') :
    runRound P.executeDecode "sample" false sequences [(id, overrides id)] =
      .ok ((sequences.insert id (s.keep (s.target ++ [s.pending]))).insert id s',
        [⟨s'.id, [token], s'.terminal⟩]) := by
  obtain ⟨options, hoptions, hsample⟩ := hstep.sampled
  have hpublished := hstep.published
  refine runRound_ok.mpr ⟨[⟨s, options⟩], [([token], s.target ++ [s.pending])],
    selectLanes_ok.mpr ⟨cons_ne_nil _ _, nodup_singleton _, rfl, fun k entry hk => ?_⟩,
    fun lane hlane => ?_, rfl, DecodePrograms.executeDecode_ok.mpr
      ⟨fun lane hlane => ?_, rfl, fun k lane hlane => ?_⟩, ?_⟩
  · cases k with
    | zero =>
      obtain rfl := Option.some.inj hk
      exact ⟨_, rfl, hs, hoptions⟩
    | succ k => cases hk
  · rw [mem_singleton.mp hlane]
    exact hstep.live
  · rw [mem_singleton.mp hlane]
    exact hstep.room
  · cases k with
    | zero =>
      obtain rfl := Option.some.inj hlane
      exact ⟨_, rfl, token, hsample, rfl⟩
    | succ k => cases hlane
  · simp only [map_cons, map_nil, zip_cons_cons, zip_nil_right, commitTargets,
      hs, publishPages, AList.lookup_insert, hpublished, Option.map_some]

/-- One round after the other, ordinary decoding emits the tokens of one sequence. -/
theorem runRounds_single {tokens : List Token} (hid : s.id = id)
    (hs : sequences.lookup id = some s) (h : Emits P (overrides id) s tokens s') :
    let run := runRounds P.executeDecode "sample" overrides
      (List.replicate tokens.length ⟨[id], false⟩) sequences
    run.1.lookup id = some s' ∧ tokensOf id run.2 = tokens ∧
      ∀ other, other ≠ id → run.1.lookup other = sequences.lookup other ∧
        tokensOf other run.2 = [] := by
  induction h generalizing sequences with
  | refl s => exact ⟨hs, rfl, fun other _ => ⟨rfl, rfl⟩⟩
  | @step s s₁ s' token tokens hstep _ ih =>
    have hround := runRound_single hs hstep
    rw [length_cons, replicate_succ, runRounds, map_singleton, hround]
    dsimp only
    have hid₁ : s₁.id = id := hstep.id_eq.trans hid
    obtain ⟨hlookup, htokens, hother⟩ := ih hid₁ (AList.lookup_insert _)
    refine ⟨hlookup, ?_, fun other hne => ?_⟩
    · rw [tokensOf_append, htokens, tokensOf, hid₁]
      simp
    · obtain ⟨hsame, hnone⟩ := hother other hne
      rw [hsame, AList.lookup_insert_ne hne, AList.lookup_insert_ne hne, tokensOf_append, hnone,
        tokensOf, hid₁]
      exact ⟨rfl, by simp [Ne.symm hne]⟩

/-- Ordinary decoding of some sequences, one sequence after the other. -/
theorem runRounds_each (hkeyed : Keyed sequences) {ids : List Nat} (hnodup : ids.Nodup)
    (tokens : Nat → List Token) (final : Nat → Option DecodeState)
    (h : ∀ id ∈ ids, ∃ s s', sequences.lookup id = some s ∧ final id = some s' ∧
      Emits P (overrides id) s (tokens id) s') :
    let run := runRounds P.executeDecode "sample" overrides
      (ids.flatMap fun id => List.replicate (tokens id).length ⟨[id], false⟩) sequences
    (∀ id ∈ ids, run.1.lookup id = final id ∧ tokensOf id run.2 = tokens id) ∧
      ∀ id, id ∉ ids → run.1.lookup id = sequences.lookup id ∧ tokensOf id run.2 = [] := by
  induction ids generalizing sequences with
  | nil => exact ⟨fun _ h => absurd h not_mem_nil, fun _ _ => ⟨rfl, rfl⟩⟩
  | cons id ids ih =>
    obtain ⟨hid, hrest⟩ := nodup_cons.mp hnodup
    obtain ⟨⟨s, s', hs, hs', hemits⟩, hids⟩ := forall_mem_cons.mp h
    obtain ⟨hlookup, htokens, hother⟩ := runRounds_single (hkeyed _ _ hs) hs hemits
    have hkeyed' : Keyed (runRounds P.executeDecode "sample" overrides
        (List.replicate (tokens id).length ⟨[id], false⟩) sequences).1 :=
      (runRounds_emits (executeDecode_emitting P) hkeyed).1
    obtain ⟨hin, hout⟩ := ih hkeyed' hrest fun id' hid' => by
      rw [(hother id' fun heq => hid (heq ▸ hid')).1]
      exact hids id' hid'
    dsimp only
    rw [flatMap_cons, runRounds_append]
    refine ⟨fun id' hid' => ?_, fun id' hid' => ?_⟩
    · rw [tokensOf_append]
      rcases mem_cons.mp hid' with rfl | hid'
      · obtain ⟨hsame, hnone⟩ := hout id' hid
        exact ⟨hsame.trans (hlookup.trans hs'.symm), by rw [hnone, htokens, append_nil]⟩
      · obtain ⟨hfinal, hall⟩ := hin id' hid'
        exact ⟨hfinal, by rw [hall, (hother id' fun heq => hid (heq ▸ hid')).2, nil_append]⟩
    · obtain ⟨hne, hnot⟩ := not_or.mp (fun h => hid' (mem_cons.mpr h))
      obtain ⟨hsame, hnone⟩ := hout id' hnot
      obtain ⟨hsame', hnone'⟩ := hother id' hne
      rw [tokensOf_append]
      exact ⟨hsame.trans hsame', by rw [hnone, hnone', append_nil]⟩

end Ordinary

/-! ## Lookup rounds go on where ordinary decoding does -/

section Progress

variable {P : DecodePrograms Λ} {sequences : LiveSequences (List Token)}

/-- What `add` leaves of its sequences and every round keeps: the pages hold the rows of
the history but for its last token, which is pending. -/
structure Admitted (P : DecodePrograms Λ) (sequences : LiveSequences (List Token)) : Prop where
  keyed : Keyed sequences
  slots_lt : ∀ id s, sequences.lookup id = some s → s.slot < P.batchSize
  slots_ne : ∀ id id' s s', sequences.lookup id = some s → sequences.lookup id' = some s' →
    s.slot = s'.slot → id = id'
  history : ∀ id s, sequences.lookup id = some s → s.history = s.target ++ [s.pending]
  pending : ∀ id s, sequences.lookup id = some s → s.pending.toNat < P.vocabulary

theorem Emits.kept {overrides : NativeInferenceSamplingOverrides} {s s' : DecodeState}
    {tokens : List Token} (h : Emits P overrides s tokens s')
    (hhistory : s.history = s.target ++ [s.pending]) (hpending : s.pending.toNat < P.vocabulary) :
    s'.slot = s.slot ∧ s'.eos = s.eos ∧ s'.history = s'.target ++ [s'.pending] ∧
      s'.pending.toNat < P.vocabulary := by
  induction h with
  | refl => exact ⟨rfl, rfl, hhistory, hpending⟩
  | @step s s₁ s' token tokens hstep _ ih =>
    obtain ⟨_, hslot, _, _, heos, _⟩ := publish_frame hstep.published
    obtain ⟨_, hhistory₁, _, _⟩ := publish_fields hstep.published
    obtain ⟨htarget, hpending₁, _⟩ := hstep.fields
    obtain ⟨options, _, hsample⟩ := hstep.sampled
    obtain ⟨hslot', heos', hkept⟩ := ih
      (by rw [hhistory₁, htarget, hpending₁]; exact congrArg (· ++ [token]) hhistory)
      (by rw [hpending₁]; exact P.sample_lt _ _ _ hsample)
    exact ⟨hslot'.trans hslot, heos'.trans heos, hkept⟩

variable {execute : List DecodeLane → Except String (List (List Token × List Token))}

theorem Admitted.runRounds {phase : String} {overrides : Nat → NativeInferenceSamplingOverrides}
    {rounds : List DecodeRound} (hexecute : Emitting P execute) (h : Admitted P sequences) :
    Admitted P (runRounds execute phase overrides rounds sequences).1 := by
  obtain ⟨hkeyed, hids⟩ : Keyed (EffectTorch.runRounds execute phase overrides rounds sequences).1 ∧
    _ := runRounds_emits hexecute h.keyed
  have hback : ∀ id s', (EffectTorch.runRounds execute phase overrides rounds sequences).1.lookup id =
      some s' → ∃ s, sequences.lookup id = some s ∧ s'.slot = s.slot ∧
        s'.history = s'.target ++ [s'.pending] ∧ s'.pending.toNat < P.vocabulary := by
    intro id s' hs'
    obtain ⟨hnone, hsome⟩ := hids id
    cases hs : sequences.lookup id with
    | none =>
      rw [(hnone hs).1] at hs'
      cases hs'
    | some s =>
      obtain ⟨q, hq, hemits⟩ := hsome s hs
      obtain rfl := Option.some.inj (hs'.symm.trans hq)
      obtain ⟨hslot, _, hkept⟩ := hemits.kept (h.history id s hs) (h.pending id s hs)
      exact ⟨s, rfl, hslot, hkept⟩
  refine ⟨hkeyed, fun id s' hs' => ?_, fun id id' s s' hs hs' heq => ?_, fun id s' hs' => ?_,
    fun id s' hs' => ?_⟩
  · obtain ⟨s, hs, hslot, _⟩ := hback id s' hs'
    rw [hslot]
    exact h.slots_lt id s hs
  · obtain ⟨q, hq, hslot, _⟩ := hback id s hs
    obtain ⟨q', hq', hslot', _⟩ := hback id' s' hs'
    exact h.slots_ne id id' q q' hq hq' (hslot.symm.trans (heq.trans hslot'))
  · obtain ⟨_, _, _, hhistory, _⟩ := hback id s' hs'
    exact hhistory
  · obtain ⟨_, _, _, _, hpending⟩ := hback id s' hs'
    exact hpending

/-- A round whose execution returns publishes its pages. -/
theorem publishPages_returns (hexecute : Emitting P execute) {request : RoundRequest}
    {lanes : List DecodeLane} {results : List (List Token × List Token)}
    (hlanes : selectLanes sequences request = .ok lanes) (hresults : execute lanes = .ok results) :
    ∃ published,
      publishPages (commitTargets sequences ((request.map (·.1)).zip (results.map (·.2))))
        ((request.map (·.1)).zip (results.map (·.1))) = some published := by
  obtain ⟨_, hnodup, hlen, hselected⟩ := selectLanes_ok.mp hlanes
  obtain ⟨hlen', hpages⟩ := hexecute lanes results hresults
  have hkeys : ∀ f : List Token × List Token → List Token,
      ((request.map (·.1)).zip (results.map f)).map (·.1) = request.map (·.1) := fun f =>
    zip_keys request (by rw [length_map, hlen, hlen'])
  obtain ⟨_, hcommitted⟩ := commitTargets_spec sequences (by
    rw [hkeys (·.2)]
    exact hnodup)
  refine publishPages_total _ (by rw [hkeys]; exact hnodup) fun ⟨id, page⟩ hentry => ?_
  obtain ⟨k, hk⟩ := mem_iff_getElem?.mp hentry
  obtain ⟨hid, hpage⟩ := List.getElem?_zip_eq_some.mp hk
  rw [List.getElem?_map] at hid hpage
  obtain ⟨asked, hasked, rfl⟩ := Option.map_eq_some_iff.mp hid
  obtain ⟨lane, hlane, hlookup, _⟩ := hselected k asked hasked
  obtain ⟨result, hresult, hne, _⟩ := hpages k lane hlane
  rw [hresult] at hpage
  obtain rfl := Option.some.inj hpage
  have hentry' : (asked.1, result.2) ∈ (request.map (·.1)).zip (results.map (·.2)) :=
    mem_of_getElem? (List.getElem?_zip_eq_some.mpr
      ⟨by rw [List.getElem?_map, hasked]; rfl, by rw [List.getElem?_map, hresult]; rfl⟩)
  refine ⟨⟨lane.sequence.keep result.2, ?_⟩, hne⟩
  rw [hcommitted _ hentry', hlookup]
  rfl

/-- No round panics. -/
theorem runRound_no_panic (hexecute : Emitting P execute) (phase : String) (interrupted : Bool)
    (request : RoundRequest) (message : String) :
    runRound execute phase interrupted sequences request ≠ .error (.panic message) := by
  intro h
  unfold runRound at h
  rcases bind_error.mp h with h | ⟨lanes, hlanes, h⟩
  · obtain ⟨_, _, h⟩ := mapError_error.mp h
    cases h
  rcases bind_error.mp h with h | ⟨_, _, h⟩
  · cases rejectIf_error h
  rcases bind_error.mp h with h | ⟨_, _, h⟩
  · cases rejectIf_error h
  rcases bind_error.mp h with h | ⟨results, hresults, h⟩
  · obtain ⟨_, _, h⟩ := mapError_error.mp h
    cases h
  obtain ⟨published, hpublished⟩ := publishPages_returns hexecute
    (mapError_ok.mp hlanes) (mapError_ok.mp hresults)
  dsimp only at h
  rw [hpublished] at h
  cases h

/-- Where the ordinary round of some sequences returns, their lookup round returns with a
page for each, if the stop tokens lie in the vocabulary and every logits row can be
sampled. -/
theorem lookup_progress (h : Admitted P sequences) (hdrafts : P.maxDraftTokens ≠ 0)
    (hsample : ∀ row options, ∃ token, P.sample row options = .ok token) {request : RoundRequest}
    (heos : ∀ entry ∈ request, ∀ s, sequences.lookup entry.1 = some s →
      ∀ token ∈ s.eos, token.toNat < P.vocabulary)
    {ordinary : LiveSequences (List Token) × List ReceiptPage}
    (hordinary : runRound P.executeDecode "sample" false sequences request = .ok ordinary) :
    ∃ lookup, runRound P.executeHistoryLookup "verify" false sequences request = .ok lookup ∧
      ∀ entry ∈ request, tokensOf entry.1 lookup.2 ≠ [] := by
  obtain ⟨lanes, _, hlanes, hlive, _, hdecode, _⟩ := runRound_ok.mp hordinary
  obtain ⟨hroom, _⟩ := DecodePrograms.executeDecode_ok.mp hdecode
  obtain ⟨hne, hnodup, hlen, hselected⟩ := selectLanes_ok.mp hlanes
  have hlookup : ∀ (k : Nat) lane, lanes[k]? = some lane → ∃ entry, request[k]? = some entry ∧
      sequences.lookup entry.1 = some lane.sequence := by
    intro k lane hk
    have hlt := (List.getElem?_eq_some_iff.mp hk).1
    rw [← hlen] at hlt
    obtain ⟨lane', hlane', hlookup, _⟩ := hselected k _ (List.getElem?_eq_getElem hlt)
    obtain rfl := Option.some.inj (hk.symm.trans hlane')
    exact ⟨_, List.getElem?_eq_getElem hlt, hlookup⟩
  have hids : lanes.map (·.sequence.id) = request.map (·.1) := by
    refine ext_getElem? fun k => ?_
    rw [List.getElem?_map, List.getElem?_map]
    cases hk : lanes[k]? with
    | none =>
      rw [List.getElem?_eq_none_iff, ← hlen] at hk
      rw [List.getElem?_eq_none hk]
      rfl
    | some lane =>
      obtain ⟨entry, hentry, hs⟩ := hlookup k lane hk
      rw [hentry]
      exact congrArg some (h.keyed _ _ hs)
  have hnodup_ids : (lanes.map (·.sequence.id)).Nodup := hids ▸ hnodup
  have hlive_lane : ∀ lane ∈ lanes, ∃ entry ∈ request,
      sequences.lookup entry.1 = some lane.sequence := by
    intro lane hlane
    obtain ⟨k, hk⟩ := mem_iff_getElem?.mp hlane
    obtain ⟨entry, hentry, hs⟩ := hlookup k lane hk
    exact ⟨entry, mem_of_getElem? hentry, hs⟩
  have hslots : (lanes.map (·.sequence.slot)).Nodup := by
    refine (nodup_map_iff_inj_on hnodup_ids.of_map).mpr fun lane hlane lane' hlane' heq => ?_
    obtain ⟨entry, _, hs⟩ := hlive_lane lane hlane
    obtain ⟨entry', _, hs'⟩ := hlive_lane lane' hlane'
    have hid := h.slots_ne _ _ _ _ hs hs' heq
    refine inj_on_of_nodup_map hnodup_ids hlane hlane' ?_
    rw [h.keyed _ _ hs, h.keyed _ _ hs', hid]
  have hslots_lt : ∀ lane ∈ lanes, lane.sequence.slot < P.batchSize := by
    intro lane hlane
    obtain ⟨entry, _, hs⟩ := hlive_lane lane hlane
    exact h.slots_lt _ _ hs
  have hcount : lanes.length ≤ P.batchSize := by
    have hsub : lanes.map (·.sequence.slot) ⊆ List.range P.batchSize := by
      intro slot hslot
      obtain ⟨lane, hlane, rfl⟩ := mem_map.mp hslot
      exact mem_range.mpr (hslots_lt lane hlane)
    have hle := (hslots.subperm hsub).length_le
    rwa [length_map, length_range] at hle
  have hlanes_ne : lanes ≠ [] := fun hnil => hne (length_eq_zero_iff.mp (by rw [hlen, hnil]; rfl))
  have haccepts : DecodePrograms.LookupAccepts P lanes := {
    nonempty := hlanes_ne
    drafts := hdrafts
    count := hcount
    tokens := fun lane hlane token htoken => by
      obtain ⟨entry, hentry, hs⟩ := hlive_lane lane hlane
      rcases mem_cons.mp htoken with rfl | htoken
      · exact h.pending _ _ hs
      · exact heos entry hentry _ hs token htoken
    slots_lt := hslots_lt
    slots := hslots
    limits := fun lane _ => by
      refine Nat.ne_of_gt (pageLimit_pos _ ?_)
      have hpos : 1 ≤ P.batchSize := (length_pos_iff.mpr hlanes_ne).trans_le hcount
      exact (Nat.le_mul_of_pos_left _ hpos).trans_lt P.rows_lt
    ids := hnodup_ids
    room := hroom
    history := fun lane hlane => by
      obtain ⟨entry, _, hs⟩ := hlive_lane lane hlane
      rw [h.history _ _ hs, length_append]
      rfl
    pending := fun lane hlane => by
      obtain ⟨entry, _, hs⟩ := hlive_lane lane hlane
      rw [h.history _ _ hs, List.getLast?_concat] }
  obtain ⟨results, hresults⟩ := DecodePrograms.executeHistoryLookup_total hsample haccepts
  obtain ⟨published, hpublished⟩ := publishPages_returns (executeHistoryLookup_emitting P) hlanes hresults
  have hround : runRound P.executeHistoryLookup "verify" false sequences request = .ok published :=
    runRound_ok.mpr ⟨lanes, results, hlanes, hlive, rfl, hresults, hpublished⟩
  refine ⟨published, hround, fun entry hentry => ?_⟩
  obtain ⟨_, _, _, _, htokens, _⟩ :=
    (runRound_emits (executeHistoryLookup_emitting P) h.keyed hround).2.2 entry hentry
  exact htokens

end Progress

/-! ## Losslessness -/

section Lossless

variable {P : DecodePrograms Λ} {overrides : Nat → NativeInferenceSamplingOverrides}
  {sequences : LiveSequences (List Token)}

/-- Two decodings of one sequence, to `s` and to `s'`: one emits what the other does, and
neither emits more than a stopped one. -/
structure Agree (tokens tokens' : List Token) (s s' : DecodeState) : Prop where
  extends_either : tokens <+: tokens' ∨ tokens' <+: tokens
  same : tokens.length = tokens'.length → tokens = tokens' ∧ s = s'
  stop : s.terminal.isSome → tokens' <+: tokens
  stop' : s'.terminal.isSome → tokens <+: tokens'

theorem Emits.agree {overrides : NativeInferenceSamplingOverrides} {s s₁ s₂ : DecodeState}
    {tokens₁ tokens₂ : List Token} (h₁ : Emits P overrides s tokens₁ s₁)
    (h₂ : Emits P overrides s tokens₂ s₂) : Agree tokens₁ tokens₂ s₁ s₂ := by
  have hnil : ∀ {tokens more : List Token}, tokens.length = (tokens ++ more).length → more = [] :=
    fun h => length_eq_zero_iff.mp (by rw [length_append] at h; omega)
  rcases h₁.compare h₂ with ⟨more, rfl, hmore⟩ | ⟨more, rfl, hmore⟩
  · refine ⟨.inl (prefix_append _ _), fun h => ?_, fun h => ?_, fun _ => prefix_append _ _⟩
    · obtain rfl := hnil h
      cases hmore
      exact ⟨(append_nil _).symm, rfl⟩
    · obtain ⟨rfl, _⟩ := hmore.terminal h
      rw [append_nil]
  · refine ⟨.inr (prefix_append _ _), fun h => ?_, fun _ => prefix_append _ _, fun h => ?_⟩
    · obtain rfl := hnil h.symm
      cases hmore
      exact ⟨append_nil _, rfl⟩
    · obtain ⟨rfl, _⟩ := hmore.terminal h
      rw [append_nil]

/-- What lookup rounds reach, ordinary rounds reach too, with the same tokens. -/
theorem lookup_simulated (h : Keyed sequences) (rounds : List DecodeRound) :
    ∃ ordinary, ∀ id,
      (runRounds P.executeDecode "sample" overrides ordinary sequences).1.lookup id =
          (runRounds P.executeHistoryLookup "verify" overrides rounds sequences).1.lookup id ∧
        tokensOf id (runRounds P.executeDecode "sample" overrides ordinary sequences).2 =
          tokensOf id (runRounds P.executeHistoryLookup "verify" overrides rounds sequences).2 := by
  have hemits : Keyed (runRounds P.executeHistoryLookup "verify" overrides rounds sequences).1 ∧ _ :=
    runRounds_emits (executeHistoryLookup_emitting P) h
  generalize runRounds P.executeHistoryLookup "verify" overrides rounds sequences = run at hemits ⊢
  obtain ⟨hin, hout⟩ := runRounds_each h (AList.keys_nodup sequences) (tokensOf · run.2)
    (run.1.lookup ·) fun id hid => by
      obtain ⟨s, hs⟩ := Option.isSome_iff_exists.mp (AList.lookup_isSome.mpr hid)
      obtain ⟨s', hs', hrun⟩ := (hemits.2 id).2 s hs
      exact ⟨s, s', hs, hs', hrun⟩
  refine ⟨sequences.keys.flatMap fun id =>
    List.replicate (tokensOf id run.2).length ⟨[id], false⟩, fun id => ?_⟩
  by_cases hid : id ∈ sequences.keys
  · exact hin id hid
  · have hnone := AList.lookup_eq_none.mpr hid
    obtain ⟨hlookup, htokens⟩ := hout id hid
    obtain ⟨hlookup', htokens'⟩ := (hemits.2 id).1 hnone
    exact ⟨hlookup.trans (hnone.trans hlookup'.symm), htokens.trans htokens'.symm⟩

/-- A target that counts modulo five. -/
def counting : DecodePrograms (List Token) where
  logits := id
  sample row _ := .ok ((row.getLast?.getD 0 + 1) % 5)
  vocabulary := 5
  batchSize := 2
  maxTokens := 64
  maxDraftTokens := 3
  config := ⟨1, 4⟩
  sample_lt row options token h := by
    obtain rfl := Except.ok.inj h
    rw [UInt32.toNat_mod]
    exact Nat.mod_lt _ (by decide)
  rows_lt := by decide
  maxTokens_le := by decide

/-- A sequence after its admission, which may emit six tokens. -/
def countingSequence : DecodeState where
  id := 7
  slot := 1
  target := [0, 1, 2, 3, 4, 0, 1]
  pending := 2
  history := [0, 1, 2, 3, 4, 0, 1, 2]
  generated := 1
  budget := some 6
  eos := [4]
  terminal := none
  sampling := ⟨⟨0⟩, none, ⟨0x3ff0000000000000⟩, 9, 0⟩

theorem countingSequence_admitted :
    Admitted counting ((∅ : LiveSequences (List Token)).insert 7 countingSequence) := by
  have honly : ∀ id s, ((∅ : LiveSequences (List Token)).insert 7 countingSequence).lookup id =
      some s → id = 7 ∧ s = countingSequence := by
    intro id s hs
    by_cases hid : id = 7
    · subst hid
      rw [AList.lookup_insert] at hs
      exact ⟨rfl, (Option.some.inj hs).symm⟩
    · rw [AList.lookup_insert_ne hid] at hs
      cases hs
  refine ⟨fun id s hs => ?_, fun id s hs => ?_, fun id id' s s' hs hs' _ => ?_, fun id s hs => ?_,
    fun id s hs => ?_⟩
  · obtain ⟨rfl, rfl⟩ := honly id s hs
    rfl
  · obtain ⟨rfl, rfl⟩ := honly id s hs
    decide
  · exact (honly id s hs).1.trans (honly id' s' hs').1.symm
  · obtain ⟨rfl, rfl⟩ := honly id s hs
    rfl
  · obtain ⟨rfl, rfl⟩ := honly id s hs
    decide

end Lossless

end EffectTorch
