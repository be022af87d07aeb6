import EffectTorch.Core.Generation
import EffectTorch.Cpu.SessionRuns

/-!
# Native steps under the driver

What a driver sees of the steps of its native session.

Results:
1. `proceed_proceeds`: an operation keeps its request up to the receipt it replies with.
2. `perform_passes`: without its pending receipt the session looks the same after every step
   but an acknowledgement, `finish` and `close`, and a pending receipt stays.
-/

namespace EffectTorch
open List Lib

/-! ## Operations -/

/-- The request that the operation looks for and publishes under. -/
def Operation.identity : Operation → ReceiptRequest
  | roundSelected request _ => request.identity
  | roundAdmitted request _ => request.identity
  | roundReserved request _ _ => request.identity
  | roundExecuted request _ _ _ => request.identity
  | addRequested entries => addIdentity entries
  | addAdmitted entries => addIdentity entries
  | addSlotted entries _ => addIdentity entries
  | addReserved entries _ _ _ => addIdentity entries
  | addSampled entries _ _ _ _ => addIdentity entries

/-- The pages are as many as the request has entries, and those of a round are in its order. -/
def Receipt.Fits (receipt : Receipt) : Prop :=
  match receipt.request with
  | .add entries => receipt.pages.length = entries.length
  | .round entries => receipt.pages.map (·.sequenceId) = entries.map (·.sequenceId)

/-- What one step of an operation tells the call that waits for it. -/
structure Proceeds (w w' : InferenceSession) (operation : Operation) (reply : Option SessionReply) :
    Prop where
  id : w'.id = w.id
  closed : w'.state.closed = w.state.closed
  goesOn : reply = none → ∃ next, w'.operation = some next ∧ next.identity = operation.identity
  replies : ∀ result, reply = some (.ok result) → ∃ receipt, w'.state.receipt = some receipt ∧
    receipt.request = operation.identity ∧
    (result = some (receipt.result true) ∧ w'.state = w.state ∨
      result = some (receipt.result false) ∧ receipt.Fits)

section Native

open InferenceSession

variable {P : InferencePrograms} {w w' : InferenceSession} {operation : Operation}
  {reply : Option SessionReply}

theorem abort_proceeds (reason : String) :
    Proceeds w (w.abort reason).1 operation (w.abort reason).2 :=
  ⟨rfl, rfl, nofun, fun _ h => nomatch Option.some.inj h⟩

theorem await_proceeds {next : Operation} (h : next.identity = operation.identity) :
    Proceeds w (w.await next).1 operation (w.await next).2 :=
  ⟨rfl, rfl, fun _ => ⟨next, rfl, h⟩, nofun⟩

theorem recover_proceeds {result : NativeInferenceRoundResult}
    (h : w.recovered operation.identity = .ok (some result)) :
    Proceeds w { w with operation := none } operation (some (.ok (some result))) := by
  obtain ⟨-, ⟨-, hnone⟩ | ⟨receipt, hreceipt, hrequest, hresult⟩⟩ := recovered_ok h
  · cases hnone
  · refine ⟨rfl, rfl, nofun, fun result' hreply => ⟨receipt, hreceipt, hrequest, .inl ⟨?_, rfl⟩⟩⟩
    rw [← hresult]
    exact (Except.ok.inj (Option.some.inj hreply)).symm

variable {receipt : Receipt} {state : InferenceSessionState} {id : Nat}

theorem publish_proceeds {sequences : LiveSequences Nat} (hrequest : receipt.request = operation.identity)
    (hfits : receipt.Fits) :
    Proceeds w (w.publishReceipt sequences receipt).1 operation
      (w.publishReceipt sequences receipt).2 :=
  ⟨rfl, rfl, nofun, fun _ hreply => ⟨receipt, rfl, hrequest,
    .inr ⟨(Except.ok.inj (Option.some.inj hreply)).symm, hfits⟩⟩⟩

theorem publishRound_proceeds {request : RoundRequest} {lanes : List (RoundLane Nat)} {roundId : Nat}
    {pages : List (List Token)} {result : InferenceSession × Option SessionReply}
    (h : SessionInvariant P w)
    (hop : w.operation = some (.roundExecuted request lanes roundId pages))
    (hresult : w.publishRound request roundId pages = some result) :
    Proceeds w result.1 (.roundExecuted request lanes roundId pages) result.2 := by
  obtain ⟨⟨_, ⟨lanes', hselect⟩, hlen, _⟩, _⟩ :
    RoundDone w.state request pages ∧ RoundFresh w.roundIds w.receipts roundId :=
      h.operation _ hop
  have hlive := h.live
  rw [hop] at hlive
  have hkeys := zip_keys request hlen
  have hnodup : (((request.map (·.1)).zip pages).map (·.1)).Nodup :=
    hkeys.symm ▸ (selectLanes_ok.mp hselect).2.1
  obtain ⟨⟨sequences, receiptPages⟩, hpublish, rfl⟩ := Option.map_eq_some_iff.mp hresult
  have hids : receiptPages.map (·.sequenceId) = request.map (·.1) := by
    rw [← hkeys, ← forall₂_eq_eq_eq, forall₂_map_left_iff, forall₂_map_right_iff]
    exact (publishPages_pages hlive.keyed hnodup hpublish).flip.imp fun _ _ hpage => hpage.1.1
  refine publish_proceeds rfl ?_
  change receiptPages.map (·.sequenceId) = (request.map _).map _
  rw [hids, map_map]
  rfl

theorem publishAdd_proceeds {entries : List AddEntry} {slots ids : List Nat} {roundId : Nat}
    {tokens : List Token} (h : SessionInvariant P w)
    (hop : w.operation = some (.addSampled entries slots roundId ids tokens)) :
    Proceeds w (publishAdd P w entries slots roundId ids tokens).1
      (.addSampled entries slots roundId ids tokens)
      (publishAdd P w entries slots roundId ids tokens).2 := by
  obtain ⟨⟨⟨_, _, hslots⟩, _, _, hids⟩, htokens⟩ :
    (AddReady P w.state entries slots ∧ RoundFresh w.roundIds w.receipts roundId ∧
      SequencesFresh w.sequenceIds w.receipts ids ∧ ids.length = entries.length) ∧
    tokens.length = entries.length := h.operation _ hop
  refine publish_proceeds rfl ?_
  change ((admittedSequences P entries slots ids tokens).map _).length = (entries.map _).length
  rw [length_map, length_map, admittedSequences, length_map, length_zip,
    length_zip, length_zip, hslots, hids, htokens, Nat.min_self, Nat.min_self, Nat.min_self]

theorem proceed_proceeds (h : SessionInvariant P w) {outcome : Outcome}
    {result : InferenceSession × Option SessionReply} (hop : w.operation = some operation)
    (hresult : proceed P w outcome operation = some result) :
    Proceeds w result.1 operation result.2 := by
  cases operation with
  | roundSelected request lanes =>
    obtain rfl := Option.some.inj hresult
    unfold recoverRound
    split
    next => exact abort_proceeds _
    next result hrecovered => exact recover_proceeds hrecovered
    next =>
      split
      · exact abort_proceeds _
      · exact await_proceeds rfl
  | roundAdmitted request lanes =>
    obtain rfl := Option.some.inj hresult
    unfold reserveRound
    split
    next => exact abort_proceeds _
    next => exact ⟨rfl, rfl, fun _ => ⟨_, rfl, rfl⟩, nofun⟩
  | roundReserved request lanes roundId =>
    cases outcome with
    | failed phase reason =>
      obtain rfl := Option.some.inj hresult
      exact abort_proceeds _
    | pages accepted =>
      obtain ⟨pages, _, rfl⟩ := Option.map_eq_some_iff.mp hresult
      exact ⟨rfl, rfl, fun _ => ⟨_, rfl, rfl⟩, nofun⟩
    | next => cases hresult
    | tokens tokens => cases hresult
  | roundExecuted request lanes roundId pages => exact publishRound_proceeds h hop hresult
  | addRequested entries =>
    obtain rfl := Option.some.inj hresult
    unfold recoverAdd
    split
    next => exact abort_proceeds _
    next result hrecovered => exact recover_proceeds hrecovered
    next => exact await_proceeds rfl
  | addAdmitted entries =>
    obtain rfl := Option.some.inj hresult
    unfold slotAdd
    dsimp only
    split
    · exact abort_proceeds _
    · exact await_proceeds rfl
  | addSlotted entries slots =>
    obtain rfl := Option.some.inj hresult
    unfold reserveAdd
    split
    next => exact abort_proceeds _
    next => exact ⟨rfl, rfl, fun _ => ⟨_, rfl, rfl⟩, nofun⟩
  | addReserved entries slots roundId ids =>
    cases outcome with
    | failed phase reason =>
      obtain rfl := Option.some.inj hresult
      exact abort_proceeds _
    | tokens tokens =>
      have hsample : (if tokens.length ≠ entries.length then none else
        some (w.await (.addSampled entries slots roundId ids tokens))) = some result := hresult
      split at hsample
      · cases hsample
      · obtain rfl := Option.some.inj hsample
        exact await_proceeds rfl
    | next => cases hresult
    | pages accepted => cases hresult
  | addSampled entries slots roundId ids tokens =>
    obtain rfl := Option.some.inj hresult
    exact publishAdd_proceeds h hop

/-! ## Steps without an acknowledgement -/

/-- The events that neither acknowledge nor end sequences. -/
def SessionEvent.Passive : SessionEvent → Prop
  | addCall _ => True
  | roundCall _ _ => True
  | proceed _ => True
  | reserve _ => True
  | _ => False

/-- What such a step leaves as it was, and what it may reply. -/
structure Answers (w w' : InferenceSession) (reply : Option SessionReply) : Prop where
  id : w'.id = w.id
  closed : w'.state.closed = w.state.closed
  replies : ∀ result, reply = some (.ok result) → ∃ receipt recovered,
    w'.state.receipt = some receipt ∧ result = some (receipt.result recovered) ∧
      (recovered = false → receipt.Fits)

theorem Answers.error (hid : w'.id = w.id) (hclosed : w'.state.closed = w.state.closed)
    (hreply : ∀ result, reply ≠ some (.ok result)) : Answers w w' reply :=
  ⟨hid, hclosed, fun result h => absurd h (hreply result)⟩

theorem Proceeds.answers (h : Proceeds w w' operation reply) : Answers w w' reply := by
  refine ⟨h.id, h.closed, fun result hreply => ?_⟩
  obtain ⟨receipt, hreceipt, _, ⟨hresult, _⟩ | ⟨hresult, hfits⟩⟩ := h.replies result hreply
  · exact ⟨receipt, true, hreceipt, hresult, nofun⟩
  · exact ⟨receipt, false, hreceipt, hresult, fun _ => hfits⟩

/-- A call that the session takes goes on or fails. -/
theorem startAdd_answers (call : AddCall) :
    Answers w (InferenceSession.startAdd P w call).1 (InferenceSession.startAdd P w call).2 := by
  unfold InferenceSession.startAdd
  split
  · exact .error rfl rfl fun _ h => nomatch Option.some.inj h
  · exact .error rfl rfl nofun

theorem startRound_answers (handles : List NativeInferenceSequence)
    (overrides : List NativeInferenceSamplingOverrides) :
    Answers w (w.startRound handles overrides).1 (w.startRound handles overrides).2 := by
  unfold startRound
  dsimp only
  split
  · exact .error rfl rfl fun _ h => nomatch Option.some.inj h
  · split
    · exact .error rfl rfl fun _ h => nomatch Option.some.inj h
    · split
      · exact .error rfl rfl fun _ h => nomatch Option.some.inj h
      · exact .error rfl rfl nofun

theorem perform_answers (h : SessionInvariant P w) {event : SessionEvent} (hpassive : event.Passive)
    (hperform : w.perform P event = some (w', reply)) : Answers w w' reply := by
  cases event with
  | addCall call =>
    rw [perform] at hperform
    split at hperform
    · cases hperform
    · obtain ⟨rfl, rfl⟩ := Prod.mk.inj (Option.some.inj hperform)
      exact startAdd_answers call
  | roundCall handles overrides =>
    rw [perform] at hperform
    split at hperform
    · cases hperform
    · obtain ⟨rfl, rfl⟩ := Prod.mk.inj (Option.some.inj hperform)
      exact startRound_answers handles overrides
  | proceed outcome =>
    obtain ⟨operation, hop, hproceed⟩ := Option.bind_eq_some_iff.mp hperform
    exact (proceed_proceeds h hop hproceed).answers
  | reserve sequenceCount =>
    rw [perform] at hperform
    split at hperform
    · obtain ⟨rfl, rfl⟩ := Prod.mk.inj (Option.some.inj hperform)
      exact .error rfl rfl (by rintro _ ⟨⟩)
    · obtain ⟨rfl, rfl⟩ := Prod.mk.inj (Option.some.inj hperform)
      exact .error rfl rfl (by rintro _ ⟨⟩)
  | acknowledge roundId => exact hpassive.elim
  | finish handles => exact hpassive.elim
  | close => exact hpassive.elim

/-! ## The session without its pending receipt -/

/-- The stop reason of a sequence without the pending receipt: a pending admission has not
made its sequences yet, and the sequences of a pending round go on. -/
def settled (state : InferenceSessionState) (id : Nat) : Option (Option StopReason) :=
  match state.receipt with
  | none => (state.sequences.lookup id).map (·.terminal)
  | some receipt =>
    if id ∈ receipt.pages.map (·.sequenceId) then
      match receipt.request with
      | .add _ => none
      | .round _ => some none
    else (state.sequences.lookup id).map (·.terminal)

/-- The pages of all receipts but the pending one. -/
def settledPages (w : InferenceSession) : List ReceiptPage :=
  publishedPages (if w.state.receipt.isSome then w.receipts.dropLast else w.receipts)

/-- The pages of a pending receipt and the sequences they have advanced. -/
structure PendingPages (state : InferenceSessionState) (receipt : Receipt) : Prop where
  fits : receipt.Fits
  nonempty : ∀ page ∈ receipt.pages, page.tokens ≠ []
  once : (receipt.pages.map (·.sequenceId)).Nodup
  stops : ∀ page ∈ receipt.pages,
    (state.sequences.lookup page.sequenceId).map (·.terminal) = some page.stopReason

theorem PendingPages.live (h : PendingPages state receipt) (hid : id ∈ receipt.pages.map (·.sequenceId)) :
    ∃ s, state.sequences.lookup id = some s := by
  obtain ⟨page, hmem, rfl⟩ := mem_map.mp hid
  obtain ⟨s, hs, -⟩ := Option.map_eq_some_iff.mp (h.stops page hmem)
  exact ⟨s, hs⟩

theorem settled_none (hnone : state.receipt = none) (id : Nat) :
    settled state id = (state.sequences.lookup id).map (·.terminal) := by
  rw [settled, hnone]

theorem settled_other (hreceipt : state.receipt = some receipt)
    (hid : id ∉ receipt.pages.map (·.sequenceId)) :
    settled state id = (state.sequences.lookup id).map (·.terminal) := by
  rw [settled, hreceipt]
  exact if_neg hid

theorem settled_page (hreceipt : state.receipt = some receipt) (hid : id ∈ receipt.pages.map (·.sequenceId)) :
    settled state id = match receipt.request with
      | .add _ => none
      | .round _ => some none := by
  rw [settled, hreceipt]
  exact if_pos hid

/-- Two states with one receipt whose sequences differ in their native cursors. -/
theorem settled_congr {state' : InferenceSessionState} (hreceipt : state'.receipt = state.receipt)
    (hsame : SameButRows state.sequences state'.sequences) (id : Nat) :
    settled state' id = settled state id := by
  have hterminal : (state'.sequences.lookup id).map (·.terminal) =
      (state.sequences.lookup id).map (·.terminal) := by
    have hmap := congrArg (Option.map (·.terminal)) (hsame id)
    rw [Option.map_map, Option.map_map] at hmap
    exact hmap
  unfold settled
  rw [hreceipt, hterminal]

theorem settled_published {state' : InferenceSessionState} (hnone : state.receipt = none)
    (hreceipt : state'.receipt = some receipt)
    (hothers : ∀ id, id ∉ receipt.pages.map (·.sequenceId) → state'.sequences.lookup id = state.sequences.lookup id)
    (hpages : ∀ page ∈ receipt.pages, (state.sequences.lookup page.sequenceId).map (·.terminal) = match receipt.request with | .add _ => none | .round _ => some none)
    (id : Nat) : settled state' id = settled state id := by
  rw [settled_none hnone]
  by_cases hid : id ∈ receipt.pages.map (·.sequenceId)
  · obtain ⟨page, hpage, rfl⟩ := mem_map.mp hid
    rw [settled_page hreceipt hid, hpages page hpage]
  · rw [settled_other hreceipt hid, hothers id hid]

/-- What a step that neither acknowledges nor ends sequences is to a driver. -/
structure Passes (P : InferencePrograms) (w w' : InferenceSession) : Prop where
  invariant : SessionInvariant P w'
  id : w'.id = w.id
  closed : w'.state.closed = w.state.closed
  settled : ∀ id, settled w'.state id = settled w.state id
  kept : ∀ receipt, w.state.receipt = some receipt → w'.state.receipt = some receipt
  pending : ∀ receipt, w'.state.receipt = some receipt → PendingPages w'.state receipt
  pages : settledPages w' = settledPages w
  receipts : w.state.closed = true → w'.receipts = w.receipts

theorem Passes.same (h : SessionInvariant P w') (hid : w'.id = w.id)
    (hpending : ∀ receipt, w.state.receipt = some receipt → PendingPages w.state receipt)
    (hstate : w'.state = w.state) (hreceipts : w'.receipts = w.receipts) : Passes P w w' where
  invariant := h
  id := hid
  closed := by rw [hstate]
  settled id := by rw [hstate]
  kept receipt hreceipt := by rw [hstate, hreceipt]
  pending receipt hreceipt := by
    rw [hstate] at hreceipt ⊢
    exact hpending receipt hreceipt
  pages := by rw [settledPages, settledPages, hstate, hreceipts]
  receipts _ := hreceipts

theorem perform_passes (h : SessionInvariant P w)
    (hpending : ∀ receipt, w.state.receipt = some receipt → PendingPages w.state receipt)
    {event : SessionEvent} (hpassive : event.Passive)
    (hperform : w.perform P event = some (w', reply)) : Passes P w w' := by
  obtain ⟨hinv, heffect⟩ := perform_ok h hperform
  dsimp only at hinv heffect
  obtain ⟨hid, hclosed, hreplies⟩ := perform_answers h hpassive hperform
  -- no reply is that of an acknowledgement
  have hnone : reply ≠ some (.ok none) := fun hreply => by
    obtain ⟨_, _, _, hresult, _⟩ := hreplies none hreply
    cases hresult
  cases heffect with
  | silent hstate hreceipts => exact .same hinv hid hpending hstate hreceipts
  | failed hstate hreceipts => exact .same hinv hid hpending hstate hreceipts
  | recovered hreceipt hstate hreceipts => exact .same hinv hid hpending hstate hreceipts
  | executed hop hreceipt _ hsame hreceipts =>
    have hquiet : Quiet w'.state := (hinv.operation _ hop).1.quiet
    refine ⟨hinv, hid, hclosed, settled_congr hreceipt hsame, fun receipt hsome => ?_,
      fun receipt hsome => absurd (hquiet.receipt.symm.trans hsome) nofun, ?_, fun _ => hreceipts⟩
    · rw [hreceipt, hsome]
    · rw [settledPages, settledPages, hreceipt, hreceipts]
  | @published receipt hold hreceipt hreceipts hpublished =>
    obtain ⟨receipt', recovered, hreceipt', hresult, hfits⟩ := hreplies _ rfl
    obtain rfl := Option.some.inj (hreceipt.symm.trans hreceipt')
    have hrecovered : recovered = false :=
      (congrArg NativeInferenceRoundResult.recovered (Option.some.inj hresult)).symm
    have hopen : w'.state.closed ≠ true := fun hclosed' =>
      absurd ((hinv.closed hclosed').2.symm.trans hreceipt) nofun
    refine ⟨hinv, hid, hclosed, ?_, fun _ hsome => absurd (hold.symm.trans hsome) nofun, ?_, ?_,
      fun hclosed' => absurd (hclosed.trans hclosed') hopen⟩
    · cases hrequest : receipt.request with
      | add entries =>
        rw [hrequest] at hpublished
        refine settled_published hold hreceipt hpublished.others fun page hpage => ?_
        rw [hrequest, (hpublished.pages page hpage).1]
        rfl
      | round entries =>
        rw [hrequest] at hpublished
        refine settled_published hold hreceipt hpublished.others fun page hpage => ?_
        obtain ⟨_, s, _, hs, _, hgoing, _⟩ := hpublished.pages page hpage
        rw [hrequest, hs, Option.map_some, hgoing]
    · intro receipt' hsome
      obtain rfl := Option.some.inj (hreceipt.symm.trans hsome)
      cases hrequest : receipt.request with
      | add entries =>
        rw [hrequest] at hpublished
        refine ⟨hfits hrecovered, fun page hpage => ?_, hpublished.once, fun page hpage => ?_⟩
        · obtain ⟨_, s, _, htokens, _⟩ := hpublished.pages page hpage
          rw [htokens]
          exact cons_ne_nil _ _
        · obtain ⟨_, s, hs, _, _, hstop⟩ := hpublished.pages page hpage
          rw [hs, hstop]
          rfl
      | round entries =>
        rw [hrequest] at hpublished
        refine ⟨hfits hrecovered, fun page hpage => (hpublished.pages page hpage).1,
          hpublished.once, fun page hpage => ?_⟩
        obtain ⟨_, _, s', _, hs', _, _, hstop⟩ := hpublished.pages page hpage
        rw [hs', hstop]
        rfl
    · rw [settledPages, settledPages, hold, hreceipt, hreceipts]
      exact congrArg publishedPages dropLast_concat
  | acknowledged => exact absurd rfl hnone
  | finished => exact absurd rfl hnone
  | closed => exact absurd rfl hnone

end Native

end EffectTorch
