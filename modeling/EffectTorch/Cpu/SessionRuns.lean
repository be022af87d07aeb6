import EffectTorch.Cpu.SessionInvariant

/-!
# Runs of a session

Results:
1. `perform_ok`: every step of every call keeps the invariant and does what its reply says.
2. `publishRound_total`: an execution that has moved native states is published.
3. `inferenceSession_exactly_once`: what holds of a session in every run.
-/

namespace EffectTorch
open List Lib

section Rounds

open InferenceSession

variable {P : InferencePrograms} {w : InferenceSession}

/-! ## Executions -/

variable {lanes : List (RoundLane Nat)} {pages : List (List Token)} {request : RoundRequest}
  {roundId : Nat}

/-- The pages of an execution are nonempty and within the budgets of their sequences. -/
theorem roundPages_ok {accepted : List (List Token)}
    (hrows : P.path ≠ .ordinary → P.maxDraftTokens + 1 < 2 ^ 32)
    (h : roundPages P lanes accepted = some pages) :
    pages.length = lanes.length ∧ ∀ (k : Nat) lane page, lanes[k]? = some lane →
      pages[k]? = some page → page ≠ [] ∧ ∀ budget, lane.sequence.budget = some budget →
        page.length ≤ max (budget - lane.sequence.generated) 1 := by
  have hcut : P.path ≠ .ordinary → accepted.length = lanes.length → [] ∉ accepted →
      pages = List.zipWith (fun lane page => truncatePage lane.sequence.eos
        (lane.sequence.pageLimit P.maxDraftTokens) page) lanes accepted →
      pages.length = lanes.length ∧ ∀ (k : Nat) lane page, lanes[k]? = some lane →
        pages[k]? = some page → page ≠ [] ∧ ∀ budget, lane.sequence.budget = some budget →
          page.length ≤ max (budget - lane.sequence.generated) 1 := by
    rintro hpath hlen hnonempty rfl
    refine ⟨by rw [length_zipWith, hlen, Nat.min_self], fun k lane page hlane hpage => ?_⟩
    obtain ⟨lane', tokens, hlane', htokens, rfl⟩ := List.getElem?_zipWith_eq_some.mp hpage
    obtain rfl := Option.some.inj (hlane.symm.trans hlane')
    refine ⟨truncatePage_ne_nil _ (pageLimit_pos _ (hrows hpath)) fun hnil =>
      hnonempty (hnil ▸ mem_of_getElem? htokens), fun budget hbudget => ?_⟩
    exact Nat.le_trans (truncatePage_length_le _ _ _)
      (Nat.le_trans (Nat.min_le_left _ _) (pageLimit_le _ hbudget))
  unfold roundPages at h
  split at h
  · cases h
  · next hok =>
    obtain ⟨hlen, hnonempty⟩ := not_or.mp hok
    rw [not_not] at hlen
    split at h
    · next hpath =>
      split at h
      · next hone =>
        obtain rfl := Option.some.inj h
        refine ⟨hlen, fun k lane page _ hpage => ?_⟩
        have hmem := mem_of_getElem? hpage
        refine ⟨fun hnil => hnonempty (hnil ▸ hmem), fun budget _ => ?_⟩
        rw [hone page hmem]
        exact Nat.le_max_right _ _
      · cases h
    · next hpath => exact hcut hpath hlen hnonempty (Option.some.inj h).symm

/-- A live sequence has a slot, so a speculative program has few rows. -/
theorem rows_lt_of_live {s : SessionSequence} (hslot : s.slot < P.batchSize)
    (hpath : P.path ≠ .ordinary) : P.maxDraftTokens + 1 < 2 ^ 32 :=
  Nat.lt_of_le_of_lt (Nat.le_mul_of_pos_left _ (Nat.lt_of_le_of_lt (Nat.zero_le _) hslot))
    (P.rows_lt hpath)

theorem executeRound_ok {outcome : Outcome} {result : InferenceSession × Option SessionReply}
    (h : SessionInvariant P w) (hop : w.operation = some (.roundReserved request lanes roundId))
    (hresult : executeRound P w request lanes roundId outcome = some result) : StepOk P w result := by
  have hdone : unpublished w.operation = [] := by rw [hop]; rfl
  have hlive : LiveOk P w.receipts [] w.state.sequences := hdone ▸ h.live
  obtain ⟨⟨hquiet, hselect, hgoing⟩, hfresh⟩ :
    RoundReady w.state request lanes ∧ RoundFresh w.roundIds w.receipts roundId :=
      h.operation _ hop
  cases outcome with
  | next => cases hresult
  | tokens tokens => cases hresult
  | failed phase reason =>
    obtain rfl := Option.some.inj hresult
    exact abort_ok h hdone _
  | pages accepted =>
    obtain ⟨pages, hpages, rfl⟩ := Option.map_eq_some_iff.mp hresult
    obtain ⟨hne, hnodup, hlen, hlanes⟩ := selectLanes_ok.mp hselect
    have hlaneOf : ∀ entry ∈ request, ∃ lane ∈ lanes,
        w.state.sequences.lookup entry.1 = some lane.sequence := by
      intro entry hmem
      obtain ⟨k, hk⟩ := mem_iff_getElem?.mp hmem
      obtain ⟨lane, hlane, hlookup, _⟩ := hlanes k entry hk
      exact ⟨lane, mem_of_getElem? hlane, hlookup⟩
    obtain ⟨hlenPages, hpageOk⟩ := roundPages_ok (fun hpath => by
      obtain ⟨entry, hentry⟩ := exists_mem_of_ne_nil _ hne
      obtain ⟨lane, _, hlookup⟩ := hlaneOf entry hentry
      exact rows_lt_of_live (hlive.slot_lt _ _ hlookup) hpath) hpages
    obtain ⟨hother, hcommitted⟩ := commitTargets_round hselect hlenPages
    -- only native cursors change
    have hsame : SameButRows w.state.sequences (commitTargets w.state.sequences
        ((request.map (·.1)).zip (roundCursors lanes pages))) := by
      intro id
      by_cases hid : id ∈ request.map (·.1)
      · obtain ⟨tokens, hmem⟩ := exists_page
          (by rw [length_map, hlen, hlenPages]) hid
        obtain ⟨s, hs, hkept⟩ := hcommitted _ hmem
        rw [hs, hkept]
        rfl
      · rw [hother id hid]
    refine ⟨⟨hlive.commit hselect hlenPages, h.ids, ?_, ?_, ?_⟩,
      .executed rfl rfl rfl hsame rfl⟩
    · exact ⟨fun receipt hreceipt => absurd (hquiet.receipt.symm.trans hreceipt) nofun,
        fun receipt hreceipt => absurd (hquiet.receipt.symm.trans hreceipt) nofun⟩
    · intro hclosed
      exact absurd (hquiet.opened.symm.trans hclosed) Bool.false_ne_true
    · rintro _ heq
      obtain rfl := Option.some.inj heq
      refine ⟨⟨⟨hquiet.receipt, hquiet.opened⟩, ?_, hlen.trans hlenPages.symm,
        fun entry hentry => ?_⟩, hfresh⟩
      · refine selectLanes_congr hselect fun id hid s hs => ?_
        obtain ⟨tokens, hmem⟩ := exists_page (by rw [length_map, hlen, hlenPages]) hid
        obtain ⟨q, hq, hkept⟩ := hcommitted _ hmem
        obtain rfl := Option.some.inj (hs.symm.trans hq)
        exact ⟨_, hkept, rfl⟩
      · obtain ⟨q, hq, hkept⟩ := hcommitted entry hentry
        obtain ⟨k, hk⟩ := mem_iff_getElem?.mp hentry
        obtain ⟨hid, htokens⟩ := List.getElem?_zip_eq_some.mp hk
        rw [List.getElem?_map] at hid
        obtain ⟨requested, hrequested, hid⟩ := Option.map_eq_some_iff.mp hid
        obtain ⟨lane, hlane, hlookup, _⟩ := hlanes k requested hrequested
        rw [hid] at hlookup
        obtain rfl := Option.some.inj (hq.symm.trans hlookup)
        obtain ⟨hnonempty, hbudget⟩ := hpageOk k lane entry.2 hlane htokens
        exact ⟨⟨_, hkept, hgoing lane (mem_of_getElem? hlane), hbudget⟩, hnonempty⟩

/-! ## Publications -/

/-- Once an execution has moved native states, its pages are published. -/
theorem publishRound_total (h : SessionInvariant P w)
    (hop : w.operation = some (.roundExecuted request lanes roundId pages)) :
    ∃ (receipt : Receipt) (w' : InferenceSession), w.publishRound request roundId pages =
      some (w', some (.ok (some (receipt.result false)))) := by
  obtain ⟨⟨_, ⟨lanes', hselect⟩, hlen, hpages⟩, _⟩ :
    RoundDone w.state request pages ∧ RoundFresh w.roundIds w.receipts roundId :=
      h.operation _ hop
  obtain ⟨_, hnodup, _⟩ := selectLanes_ok.mp hselect
  have hkeys := zip_keys request hlen
  obtain ⟨published, hpublished⟩ := publishPages_total w.state.sequences
    (hkeys.symm ▸ hnodup) fun entry hentry =>
      ⟨(hpages entry hentry).live.imp fun _ hs => hs.1, (hpages entry hentry).nonempty⟩
  refine ⟨⟨roundId, request.identity, published.2⟩,
    (w.publishReceipt published.1 ⟨roundId, request.identity, published.2⟩).1, ?_⟩
  rw [publishRound, hpublished]
  rfl

theorem publishRound_ok {result : InferenceSession × Option SessionReply} (h : SessionInvariant P w)
    (hop : w.operation = some (.roundExecuted request lanes roundId pages))
    (hresult : w.publishRound request roundId pages = some result) : StepOk P w result := by
  obtain ⟨⟨hquiet, ⟨lanes', hselect⟩, hlen, hpages⟩, hfresh⟩ :
    RoundDone w.state request pages ∧ RoundFresh w.roundIds w.receipts roundId :=
      h.operation _ hop
  have hlive : LiveOk P w.receipts ((request.map (·.1)).zip pages) w.state.sequences := by
    have hlive := h.live
    rw [hop] at hlive
    exact hlive
  obtain ⟨hne, hnodup, _, _⟩ := selectLanes_ok.mp hselect
  have hkeys := zip_keys request hlen
  have hnodup' : (((request.map (·.1)).zip pages).map (·.1)).Nodup := hkeys.symm ▸ hnodup
  obtain ⟨⟨sequences, receiptPages⟩, hpublish, rfl⟩ := Option.map_eq_some_iff.mp hresult
  obtain ⟨hother, hentries, hreceipts⟩ := publishPages_spec hnodup' hpublish
  have hforall := publishPages_pages hlive.keyed hnodup' hpublish
  have hids : receiptPages.map (·.sequenceId) = request.map (·.1) := by
    rw [← hkeys, ← forall₂_eq_eq_eq, forall₂_map_left_iff, forall₂_map_right_iff]
    exact hforall.flip.imp fun _ _ hpage => hpage.1.1
  -- each page of the receipt with the sequence it advances
  have hpage : ∀ page ∈ receiptPages, page.tokens ≠ [] ∧ ∃ s s',
      w.state.sequences.lookup page.sequenceId = some s ∧
        sequences.lookup page.sequenceId = some s' ∧ s.terminal = none ∧
        s.publish page.tokens = some s' ∧ page.stopReason = s'.terminal := by
    intro page hmem
    obtain ⟨entry, hentry, ⟨hid, htokens⟩, s', hs', hstop⟩ := mem_of_forall₂_right hforall hmem
    obtain ⟨s, q', hs, hpublished, hq'⟩ := hentries entry hentry
    obtain rfl := Option.some.inj (hs'.symm.trans hq')
    obtain ⟨q, hq, hgoing, _⟩ := (hpages entry hentry).live
    obtain rfl := Option.some.inj (hs.symm.trans hq)
    rw [hid, htokens]
    exact ⟨(hpages entry hentry).nonempty, s, s', hs, hs', hgoing, hpublished, hstop⟩
  have hadmitted : (⟨roundId, request.identity, receiptPages⟩ : Receipt).admitted = [] := rfl
  refine ⟨⟨hlive.publish hnodup' hpages hpublish rfl, ?_, ⟨?_, ?_⟩, ?_, nofun⟩,
    .published hquiet.receipt rfl rfl ⟨hpage, fun id hid => ?_, hids.symm ▸ hnodup⟩⟩
  · refine h.ids.publish hfresh ?_ ?_ ?_ fun page hmem => .inl ?_
    · rw [hadmitted]
      exact .nil
    · exact fun id hid => absurd hid not_mem_nil
    · exact fun _ _ id' hid' => absurd hid' not_mem_nil
    · obtain ⟨_, s, _, hs, _⟩ := hpage page hmem
      have hlisted := (hlive.published _ s hs).mem_admittedIds
      rw [hlive.keyed _ s hs] at hlisted
      exact hlisted
  · intro receipt hreceipt
    obtain rfl := Option.some.inj hreceipt
    exact List.getLast?_concat
  · intro receipt hreceipt request' hrequest
    obtain rfl := Option.some.inj hreceipt
    obtain rfl := RoundRequest.identity_inj hrequest
    refine selectLanes_congr hselect fun id hid s hs => ?_
    rw [← hids] at hid
    obtain ⟨page, hmem, rfl⟩ := mem_map.mp hid
    obtain ⟨_, q, s', hq, hs', _, hpublished, _⟩ := hpage page hmem
    obtain rfl := Option.some.inj (hs.symm.trans hq)
    exact ⟨s', hs', (publish_frame hpublished).2.2.2.2.2⟩
  · intro hclosed
    exact absurd (hquiet.opened.symm.trans hclosed) Bool.false_ne_true
  · refine hother id ?_
    rw [hkeys, ← hids]
    exact hid

theorem publishAdd_ok {entries : List AddEntry} {slots ids : List Nat} {tokens : List Token}
    (h : SessionInvariant P w) (hop : w.operation = some (.addSampled entries slots roundId ids tokens)) :
    StepOk P w (publishAdd P w entries slots roundId ids tokens) := by
  have hlive : LiveOk P w.receipts [] w.state.sequences := by
    have hlive := h.live
    rw [hop] at hlive
    exact hlive
  obtain ⟨⟨⟨hquiet, hfree, hslots⟩, hround, hsequences, hids⟩, htokens⟩ :
    (AddReady P w.state entries slots ∧ RoundFresh w.roundIds w.receipts roundId ∧
      SequencesFresh w.sequenceIds w.receipts ids ∧ ids.length = entries.length) ∧
    tokens.length = entries.length := h.operation _ hop
  have hnodup : ids.Nodup := hsequences.ordered.imp Nat.ne_of_lt
  have hnew : ∀ id ∈ ids, id ∉ admittedIds w.receipts := fun id hid hold =>
    Nat.lt_irrefl _ (hsequences.fresh id hold id hid)
  have hkeys := admittedSequences_ids (P := P) hslots hids htokens
  obtain ⟨hother, hadmitted⟩ := insertAll_spec (admittedSequences P entries slots ids tokens)
    w.state.sequences (hkeys.symm ▸ hnodup)
  rw [hkeys] at hother
  have hpageIds : ((admittedSequences P entries slots ids tokens).map admissionPage).map
      (·.sequenceId) = ids := by
    rw [map_map]
    exact hkeys
  refine ⟨⟨hlive.admitted_all h.ids.pages hfree hslots hids htokens hnodup hnew rfl rfl, ?_, ⟨?_, ?_⟩,
    ?_, nofun⟩, .published hquiet.receipt rfl rfl ⟨?_, fun id hid => ?_, ?_⟩⟩
  · have hreceipt : (⟨roundId, addIdentity entries,
        (admittedSequences P entries slots ids tokens).map admissionPage⟩ : Receipt).admitted =
        ids := hpageIds
    refine h.ids.publish hround ?_ ?_ ?_ fun page hmem => .inr ?_
    · exact hreceipt.symm ▸ hsequences.ordered
    · exact hreceipt.symm ▸ hsequences.reserved
    · exact hreceipt.symm ▸ hsequences.fresh
    · exact mem_map_of_mem hmem
  · intro receipt hreceipt
    obtain rfl := Option.some.inj hreceipt
    exact List.getLast?_concat
  · intro receipt hreceipt request hrequest
    obtain rfl := Option.some.inj hreceipt
    cases hrequest
  · intro hclosed
    exact absurd (hquiet.opened.symm.trans hclosed) Bool.false_ne_true
  · intro page hmem
    obtain ⟨s, hs, rfl⟩ := mem_map.mp hmem
    have hid : s.id ∈ ids := hkeys ▸ mem_map_of_mem hs
    obtain ⟨k, hk⟩ := mem_iff_getElem?.mp hs
    refine ⟨?_, s, hadmitted s hs, rfl, ?_, rfl⟩
    · refine Option.eq_none_iff_forall_ne_some.mpr fun q hq => hnew _ hid ?_
      have hlisted := (hlive.published _ q hq).mem_admittedIds
      rw [hlive.keyed _ q hq] at hlisted
      exact hlisted
    · obtain ⟨_, _, _, _, _, _, _, _, rfl⟩ := admittedSequences_get.mp hk
      rfl
  · exact hother id (hpageIds ▸ hid)
  · exact hpageIds.symm ▸ hnodup

end Rounds

section Calls

open InferenceSession

variable {P : InferencePrograms} {w : InferenceSession}

/-! ## The calls that take no operation lock -/

/-- An acknowledgement touches no sequence; the call that holds the lock has not seen the
receipt yet, or there is no such call. -/
theorem acknowledge_ok (h : SessionInvariant P w) (roundId : Nat) :
    StepOk P w (w.acknowledge roundId) := by
  unfold acknowledge
  split
  · exact ⟨h, .failed rfl rfl⟩
  · next hpending =>
    obtain ⟨receipt, hreceipt, _⟩ := Option.map_eq_some_iff.mp (not_not.mp hpending)
    have hloud : ¬ Quiet w.state := fun hquiet =>
      absurd (hquiet.receipt.symm.trans hreceipt) nofun
    refine ⟨⟨h.live, h.ids, ⟨nofun, nofun⟩, ?_, ?_⟩, .acknowledged hreceipt rfl rfl⟩
    · exact fun hclosed => ⟨(h.closed hclosed).1, rfl⟩
    · intro operation hop
      have hok := h.operation operation hop
      cases operation with
      | roundSelected request lanes => exact hok
      | addRequested entries => trivial
      | roundAdmitted request lanes => exact absurd hok.quiet hloud
      | roundReserved request lanes roundId => exact absurd hok.1.quiet hloud
      | roundExecuted request lanes roundId pages => exact absurd hok.1.quiet hloud
      | addAdmitted entries => exact absurd hok hloud
      | addSlotted entries slots => exact absurd hok.quiet hloud
      | addReserved entries slots roundId ids => exact absurd hok.1.quiet hloud
      | addSampled entries slots roundId ids tokens => exact absurd hok.1.1.quiet hloud

theorem lookup_erase_all (handles : List NativeInferenceSequence)
    (sequences : LiveSequences Nat) (id : Nat) :
    (handles.foldl (fun sequences handle => sequences.erase handle.sequenceId)
      sequences).lookup id =
      if id ∈ handles.map (·.sequenceId) then none else sequences.lookup id := by
  induction handles generalizing sequences with
  | nil => rfl
  | cons handle handles ih =>
    rw [foldl_cons, ih, map_cons]
    by_cases heq : id = handle.sequenceId
    · rw [heq, AList.lookup_erase, if_pos mem_cons_self, ite_self]
    · rw [AList.lookup_erase_ne heq]
      simp only [mem_cons, heq, false_or]

theorem validateFinishLifecycle_ok {state : InferenceSessionState}
    (h : validateFinishLifecycle state = .ok ()) : state.closed = false ∧ state.receipt = none := by
  unfold validateFinishLifecycle at h
  split at h
  · cases h
  · next hopen =>
    split at h
    · cases h
    · next hnone =>
      exact ⟨Bool.eq_false_iff.mpr hopen, Option.not_isSome_iff_eq_none.mp hnone⟩

theorem finish_ok (h : SessionInvariant P w) (handles : List NativeInferenceSequence) :
    StepOk P w (w.finish handles) := by
  unfold finish
  split
  · exact ⟨h, .failed rfl rfl⟩
  · next hidle =>
    have hidle : w.operation = none := Option.not_isSome_iff_eq_none.mp hidle
    split
    · exact ⟨h, .failed rfl rfl⟩
    · next hlifecycle =>
      obtain ⟨hopen, hnone⟩ := validateFinishLifecycle_ok hlifecycle
      split
      · exact ⟨h, .failed rfl rfl⟩
      · have hlookup := lookup_erase_all handles w.state.sequences
        refine ⟨⟨h.live.mono fun id s hs => ?_, h.ids, ⟨?_, ?_⟩, ?_, ?_⟩,
          .finished _ hnone hnone hlookup rfl⟩
        · rw [hlookup] at hs
          split at hs
          · cases hs
          · exact hs
        · exact fun receipt hreceipt => absurd (hnone.symm.trans hreceipt) nofun
        · exact fun receipt hreceipt => absurd (hnone.symm.trans hreceipt) nofun
        · exact fun hclosed => absurd (hopen.symm.trans hclosed) Bool.false_ne_true
        · exact fun operation hop => absurd (hidle.symm.trans hop) nofun

theorem close_ok (h : SessionInvariant P w) : StepOk P w w.close := by
  unfold close
  split
  · next hclosed =>
    obtain ⟨hempty, hnone⟩ := h.closed hclosed
    refine ⟨h, .closed ?_ rfl⟩
    show w.state = ⟨true, ∅, none⟩
    rw [← hclosed, ← hempty, ← hnone]
  · split
    · exact ⟨h, .failed rfl rfl⟩
    · next hidle =>
      have hidle : w.operation = none := Option.not_isSome_iff_eq_none.mp hidle
      refine ⟨⟨h.live.mono fun id s hs => ?_, h.ids, ⟨nofun, nofun⟩, fun _ => ⟨rfl, rfl⟩, ?_⟩,
        .closed rfl rfl⟩
      · rw [AList.lookup_empty] at hs
        cases hs
      · exact fun operation hop => absurd (hidle.symm.trans hop) nofun

/-! ## Runs -/

/-- A step of the call that holds the operation lock. -/
theorem proceed_ok (h : SessionInvariant P w) {operation : Operation} {outcome : Outcome}
    {result : InferenceSession × Option SessionReply} (hop : w.operation = some operation)
    (hresult : proceed P w outcome operation = some result) : StepOk P w result := by
  cases operation with
  | roundSelected request lanes => exact Option.some.inj hresult ▸ recoverRound_ok h hop
  | roundAdmitted request lanes => exact Option.some.inj hresult ▸ reserveRound_ok h hop
  | roundReserved request lanes roundId => exact executeRound_ok h hop hresult
  | roundExecuted request lanes roundId pages => exact publishRound_ok h hop hresult
  | addRequested entries => exact Option.some.inj hresult ▸ recoverAdd_ok h hop
  | addAdmitted entries => exact Option.some.inj hresult ▸ slotAdd_ok h hop
  | addSlotted entries slots => exact Option.some.inj hresult ▸ reserveAdd_ok h hop
  | addReserved entries slots roundId ids => exact sampleAdd_ok h hop hresult
  | addSampled entries slots roundId ids tokens =>
    exact Option.some.inj hresult ▸ publishAdd_ok h hop

/-- Every step of every call keeps the invariant and does what its reply says. -/
theorem perform_ok (h : SessionInvariant P w) {event : SessionEvent}
    {result : InferenceSession × Option SessionReply} (hresult : w.perform P event = some result) :
    StepOk P w result := by
  cases event with
  | addCall call =>
    rw [perform] at hresult
    split at hresult
    · cases hresult
    · next hidle =>
      exact Option.some.inj hresult ▸
        startAdd_ok h (Option.not_isSome_iff_eq_none.mp hidle) call
  | roundCall handles overrides =>
    rw [perform] at hresult
    split at hresult
    · cases hresult
    · next hidle =>
      exact Option.some.inj hresult ▸
        startRound_ok h (Option.not_isSome_iff_eq_none.mp hidle) handles overrides
  | proceed outcome =>
    obtain ⟨operation, hop, hproceed⟩ := Option.bind_eq_some_iff.mp hresult
    exact proceed_ok h hop hproceed
  | acknowledge roundId => exact Option.some.inj hresult ▸ acknowledge_ok h roundId
  | finish handles => exact Option.some.inj hresult ▸ finish_ok h handles
  | close => exact Option.some.inj hresult ▸ close_ok h
  | reserve sequenceCount =>
    rw [perform] at hresult
    split at hresult
    · exact Option.some.inj hresult ▸ ⟨h, .silent rfl rfl⟩
    · next roundId reserved ids hreserve =>
      obtain ⟨_, _, rfl⟩ := reserveInferenceIds_ok hreserve
      exact Option.some.inj hresult ▸ ⟨⟨h.live, h.ids.mono (Nat.le_succ _)
        (Nat.le_add_right _ _), h.pending, h.closed, h.operation⟩, .silent rfl rfl⟩

theorem new_invariant (id : Nat) (ids : InferenceIds) :
    SessionInvariant P (.new id ids) := by
  have hnone : ∀ (id : Nat) (s : SessionSequence),
      (∅ : LiveSequences Nat).lookup id = some s → False := by
    intro id s hs
    rw [AList.lookup_empty] at hs
    cases hs
  exact {
    live := ⟨fun id s hs => (hnone id s hs).elim, fun id s hs => (hnone id s hs).elim,
      fun id s hs => (hnone id s hs).elim, fun id s hs => (hnone id s hs).elim,
      fun id s _ _ hs => (hnone id s hs).elim⟩
    ids := ⟨.nil, fun _ h => absurd h not_mem_nil, .nil,
      fun _ h => absurd h not_mem_nil, .nil, fun _ h => absurd h not_mem_nil, .nil,
      fun _ h => absurd h not_mem_nil, fun _ h => absurd h not_mem_nil⟩
    pending := ⟨nofun, nofun⟩
    closed := nofun
    operation := nofun }

theorem inferenceSession_invariant {w : InferenceSession}
    (h : (inferenceSession P).Reachable w) : SessionInvariant P w := by
  refine System.invariant (S := inferenceSession P) ?_ ?_ h
  · rintro _ ⟨id, ids, rfl⟩
    exact new_invariant id ids
  · rintro w w' hinv ⟨event, reply, hperform⟩
    exact (perform_ok hinv hperform).invariant

/-! ## Retries -/

/-- A pending receipt is returned to the request it belongs to and blocks every other. -/
structure Retried (P : InferencePrograms) (w : InferenceSession) (receipt : Receipt) : Prop where
  /-- No call is past the point where it looks for a receipt. -/
  waiting : ∀ operation, w.operation = some operation →
    (∃ request lanes, operation = .roundSelected request lanes) ∨
      ∃ entries, operation = .addRequested entries
  roundCall : ∀ handles overrides, w.operation = none → handles.length = overrides.length →
    (∀ handle ∈ handles, handle.sessionId = w.id) →
    RoundRequest.identity ((handles.map (·.sequenceId)).zip overrides) = receipt.request →
    ∃ lanes, w.perform P (.roundCall handles overrides) =
      some (w.await (.roundSelected ((handles.map (·.sequenceId)).zip overrides) lanes))
  round : ∀ request lanes outcome, w.operation = some (.roundSelected request lanes) →
    w.perform P (.proceed outcome) = some ({ w with operation := none }, some
      (if request.identity = receipt.request then .ok (some (receipt.result true))
      else .error (inferenceError "publish"
        "pending receipt belongs to a different operation or request")))
  addCall : ∀ call entries, w.operation = none → addEntries P.tokenDtype call = .ok entries →
    w.perform P (.addCall call) = some (w.await (.addRequested entries))
  add : ∀ entries outcome, w.operation = some (.addRequested entries) →
    w.perform P (.proceed outcome) = some ({ w with operation := none }, some
      (if addIdentity entries = receipt.request then .ok (some (receipt.result true))
      else .error (inferenceError "publish"
        "pending receipt belongs to a different operation or request")))
  finish : ∀ handles, ∃ reason, w.perform P (.finish handles) = some (w, some (.error reason))

theorem recovered_pending {receipt : Receipt} {request : ReceiptRequest}
    (hopen : w.state.closed = false) (hreceipt : w.state.receipt = some receipt) :
    w.recovered request = if request = receipt.request then .ok (some (receipt.result true))
      else .error (inferenceError "publish"
        "pending receipt belongs to a different operation or request") := by
  rw [recovered, if_neg (Bool.eq_false_iff.mp hopen), hreceipt]
  dsimp only
  by_cases heq : request = receipt.request
  · rw [if_neg (not_not.mpr heq.symm), if_pos heq]
  · rw [if_pos (Ne.symm heq), if_neg heq]

theorem SessionInvariant.retried (h : SessionInvariant P w) {receipt : Receipt}
    (hreceipt : w.state.receipt = some receipt) : Retried P w receipt := by
  have hopen : w.state.closed = false := Bool.eq_false_iff.mpr fun hclosed =>
    absurd ((h.closed hclosed).2.symm.trans hreceipt) nofun
  have hloud : ¬ Quiet w.state := fun hquiet =>
    absurd (hquiet.receipt.symm.trans hreceipt) nofun
  refine ⟨fun operation hop => ?_, fun handles overrides hidle hlen hsession hrequest => ?_,
    fun request lanes outcome hop => ?_, fun call entries hidle hentries => ?_,
    fun entries outcome hop => ?_, fun handles => ?_⟩
  · have hok := h.operation operation hop
    cases operation with
    | roundSelected request lanes => exact .inl ⟨request, lanes, rfl⟩
    | addRequested entries => exact .inr ⟨entries, rfl⟩
    | roundAdmitted request lanes => exact absurd hok.quiet hloud
    | roundReserved request lanes roundId => exact absurd hok.1.quiet hloud
    | roundExecuted request lanes roundId pages => exact absurd hok.1.quiet hloud
    | addAdmitted entries => exact absurd hok hloud
    | addSlotted entries slots => exact absurd hok.quiet hloud
    | addReserved entries slots roundId ids => exact absurd hok.1.quiet hloud
    | addSampled entries slots roundId ids tokens => exact absurd hok.1.1.quiet hloud
  · obtain ⟨lanes, hlanes⟩ := h.pending.selectable receipt hreceipt _ hrequest
    obtain ⟨hne, _⟩ := selectLanes_ok.mp hlanes
    have hhandles : ¬ (handles = [] ∨ handles.length ≠ overrides.length) := by
      rintro (rfl | hne')
      · exact hne rfl
      · exact hne' hlen
    have hforeign : ¬ (handles.any fun handle => handle.sessionId != w.id) = true := by
      rw [any_eq_true]
      rintro ⟨handle, hmem, hne'⟩
      exact (bne_iff_ne.mp hne') (hsession handle hmem)
    refine ⟨lanes, ?_⟩
    rw [perform, if_neg (Option.not_isSome_iff_eq_none.mpr hidle), startRound,
      if_neg hhandles, if_neg hforeign]
    dsimp only
    rw [hlanes]
  · rw [perform, hop]
    change some (w.recoverRound request lanes) = _
    rw [recoverRound, recovered_pending hopen hreceipt]
    by_cases heq : request.identity = receipt.request
    · rw [if_pos heq]
    · rw [if_neg heq]
      rfl
  · rw [perform, if_neg (Option.not_isSome_iff_eq_none.mpr hidle), startAdd, hentries]
  · rw [perform, hop]
    change some (w.recoverAdd entries) = _
    rw [recoverAdd, recovered_pending hopen hreceipt]
    by_cases heq : addIdentity entries = receipt.request
    · rw [if_pos heq]
    · rw [if_neg heq]
      rfl
  · rw [perform, finish]
    split
    · exact ⟨_, rfl⟩
    · rw [validateFinishLifecycle, if_neg (Bool.eq_false_iff.mp hopen), hreceipt]
      exact ⟨_, rfl⟩

/-! ## Sessions -/

/-- What holds of a session and of its next step. -/
structure ExactlyOnce (P : InferencePrograms) (w : InferenceSession) : Prop where
  /-- A live sequence is its prompt and the pages of all receipts, each once. -/
  published : ∀ id s, w.state.sequences.lookup id = some s → s.id = id ∧ Published w.receipts s
  terminal : ∀ id s, w.state.sequences.lookup id = some s →
    (s.terminal.isSome ↔ s.pending ∈ s.eos ∨ s.budget = some s.generated)
  /-- The native state fits the history, but for the pages of an execution on its way to
  publication. -/
  rows : (∀ request lanes roundId pages,
      w.operation ≠ some (.roundExecuted request lanes roundId pages)) →
    ∀ id s, w.state.sequences.lookup id = some s → s.target + 1 = s.history.length
  slots : ∀ id s, w.state.sequences.lookup id = some s → s.slot < P.batchSize
  slots_distinct : ∀ id s id' s', w.state.sequences.lookup id = some s →
    w.state.sequences.lookup id' = some s' → id ≠ id' → s.slot ≠ s'.slot
  roundIds : w.roundIds.Nodup ∧ (w.receipts.map (·.roundId)).Nodup ∧
    ∀ receipt ∈ w.receipts, receipt.roundId ∈ w.roundIds
  sequenceIds : w.sequenceIds.Nodup ∧ (admittedIds w.receipts).Nodup ∧
    ∀ id ∈ admittedIds w.receipts, id ∈ w.sequenceIds
  pending : ∀ receipt, w.state.receipt = some receipt →
    w.receipts.getLast? = some receipt ∧ Retried P w receipt
  step : ∀ event w' reply, w.perform P event = some (w', reply) → StepEffect w w' reply
  /-- An execution that has moved native states is published by the next step of its call. -/
  published_after : ∀ request lanes roundId pages outcome,
    w.operation = some (.roundExecuted request lanes roundId pages) →
    ∃ (receipt : Receipt) (w' : InferenceSession), w.perform P (.proceed outcome) =
      some (w', some (.ok (some (receipt.result false))))

/-- In every run of a session, with calls in any order and executions that fail or not, each
round is published exactly once. -/
theorem inferenceSession_exactly_once {w : InferenceSession}
    (h : (inferenceSession P).Reachable w) : ExactlyOnce P w := by
  have hinv := inferenceSession_invariant h
  refine ⟨fun id s hs => ⟨hinv.live.keyed id s hs, hinv.live.published id s hs⟩,
    fun id s hs => (hinv.live.published id s hs).terminal_iff, fun hexecuted id s hs => ?_,
    hinv.live.slot_lt, fun id s id' s' hs hs' hne heq => ?_,
    ⟨hinv.ids.rounds.imp Nat.ne_of_lt, hinv.ids.receiptIds.imp Nat.ne_of_lt,
      hinv.ids.receiptIds_reserved⟩,
    ⟨hinv.ids.sequences.imp Nat.ne_of_lt, hinv.ids.admitted.imp Nat.ne_of_lt,
      hinv.ids.admitted_reserved⟩,
    fun receipt hreceipt => ⟨hinv.pending.last receipt hreceipt, hinv.retried hreceipt⟩,
    fun event w' reply hperform => (perform_ok hinv hperform).effect,
    fun request lanes roundId pages outcome hop => ?_⟩
  · refine (hinv.live.rows id s hs).other ?_
    cases hop : w.operation with
    | none => exact not_mem_nil
    | some operation =>
      cases operation with
      | roundExecuted request lanes roundId pages =>
        exact absurd hop (hexecuted request lanes roundId pages)
      | _ => exact not_mem_nil
  · exact hne (hinv.live.slot_inj id s id' s' hs hs' heq)
  · obtain ⟨receipt, w', hpublish⟩ := publishRound_total hinv hop
    refine ⟨receipt, w', ?_⟩
    rw [perform, hop]
    exact hpublish

/-- The events of a run, one after the other. -/
def InferenceSession.run (P : InferencePrograms) :
    InferenceSession → List SessionEvent → Option InferenceSession
  | w, [] => some w
  | w, event :: events => (w.perform P event).bind fun result => run P result.1 events

theorem run_reachable {events : List SessionEvent} {w w' : InferenceSession}
    (h : (inferenceSession P).Reachable w) (hrun : w.run P events = some w') :
    (inferenceSession P).Reachable w' := by
  induction events generalizing w with
  | nil => exact Option.some.inj hrun ▸ h
  | cons event events ih =>
    obtain ⟨⟨next, reply⟩, hperform, hrest⟩ := Option.bind_eq_some_iff.mp hrun
    exact ih (.step h ⟨event, reply, hperform⟩) hrest

/-- One lane that looks up its history, with a temperature of zero. -/
def lookupPrograms : InferencePrograms where
  batchSize := 1
  maxDraftTokens := 2
  tokenDtype := .u32
  defaultSampling := ⟨⟨0⟩, none, ⟨0x3ff0000000000000⟩, 0, 0⟩
  path := .historyLookup
  rows_lt := fun _ => by decide

/-- An admission, a retry of it, its acknowledgement, a failed round and a round of two
tokens. -/
def lookupEvents : List SessionEvent :=
  let call : AddCall := {
    prompts := [⟨.u32, [1, 2], [5, 6]⟩]
    sampling := [⟨⟨0⟩, 0, ⟨0x3ff0000000000000⟩, 0⟩]
    maxTokens := [3]
    eosTokens := [[2]] }
  let round : SessionEvent := .roundCall [⟨7, 1⟩] [⟨none, none, none, none⟩]
  [.addCall call, .proceed .next, .proceed .next, .proceed .next, .proceed (.tokens [5]),
    .proceed .next, .addCall call, .proceed .next, .acknowledge 1,
    round, .proceed .next, .proceed .next, .proceed (.failed "verify" "cancelled"),
    round, .proceed .next, .proceed .next, .proceed (.pages [[6, 5, 6]]), .proceed .next]

theorem inferenceSession_exactly_once_lookup : ∃ w,
    (InferenceSession.new 7 ⟨1, 1⟩).run lookupPrograms lookupEvents = some w ∧
      w.state.receipt = some ⟨3, .round [⟨1, ⟨none, none, none, none⟩⟩],
        [⟨1, [6, 5], some .maxTokens⟩]⟩ ∧ ExactlyOnce lookupPrograms w := by
  have hsome : ((InferenceSession.new 7 ⟨1, 1⟩).run lookupPrograms lookupEvents).isSome := by
    decide +kernel
  obtain ⟨w, hw⟩ := Option.isSome_iff_exists.mp hsome
  refine ⟨w, hw, ?_, inferenceSession_exactly_once (run_reachable (.init ⟨7, _, rfl⟩) hw)⟩
  have hreceipt : ((InferenceSession.new 7 ⟨1, 1⟩).run lookupPrograms lookupEvents).bind
      (·.state.receipt) = some ⟨3, .round [⟨1, ⟨none, none, none, none⟩⟩],
        [⟨1, [6, 5], some .maxTokens⟩]⟩ := by
    decide +kernel
  rw [hw] at hreceipt
  exact hreceipt

end Calls

end EffectTorch
