import EffectTorch.Cpu.SessionSequences

/-!
# What holds of a session between two steps

Results:
1. `SessionInvariant`: the live sequences fit the receipts, ids grow, a pending receipt is
   the last one, and the call that holds the operation lock may rely on what it has read.
2. `StepOk`: what a step does, read off its reply; here for the steps that do not execute.
3. `IdsOk.reserve`, `IdsOk.publish`: reserved ids are new, and receipts use them in order.
-/

namespace EffectTorch
open List Option Lib

/-- Round and sequence ids grow, and receipts and sequences have reserved ones. -/
structure IdsOk (ids : InferenceIds) (roundIds sequenceIds : List Nat) (receipts : List Receipt) :
    Prop where
  rounds : roundIds.Pairwise (· < ·)
  rounds_lt : ∀ id ∈ roundIds, id < ids.nextRoundId
  sequences : sequenceIds.Pairwise (· < ·)
  sequences_lt : ∀ id ∈ sequenceIds, id < ids.nextSequenceId
  receiptIds : (receipts.map (·.roundId)).Pairwise (· < ·)
  receiptIds_reserved : ∀ receipt ∈ receipts, receipt.roundId ∈ roundIds
  admitted : (admittedIds receipts).Pairwise (· < ·)
  admitted_reserved : ∀ id ∈ admittedIds receipts, id ∈ sequenceIds
  pages : ∀ page ∈ publishedPages receipts, page.sequenceId ∈ admittedIds receipts

/-- The pending receipt is the last one, and its request can still be made. -/
structure PendingOk (state : InferenceSessionState) (receipts : List Receipt) : Prop where
  last : ∀ receipt, state.receipt = some receipt → receipts.getLast? = some receipt
  selectable : ∀ receipt, state.receipt = some receipt → ∀ request : RoundRequest,
    request.identity = receipt.request →
      ∃ lanes, selectLanes state.sequences request = .ok lanes

/-- No receipt is pending and the session is open. -/
structure Quiet (state : InferenceSessionState) : Prop where
  receipt : state.receipt = none
  opened : state.closed = false

/-- A reserved round id that no receipt has. -/
structure RoundFresh (roundIds : List Nat) (receipts : List Receipt) (roundId : Nat) : Prop where
  reserved : roundId ∈ roundIds
  fresh : ∀ receipt ∈ receipts, receipt.roundId < roundId

/-- Reserved sequence ids that no receipt has. -/
structure SequencesFresh (sequenceIds : List Nat) (receipts : List Receipt) (ids : List Nat) :
    Prop where
  ordered : ids.Pairwise (· < ·)
  reserved : ∀ id ∈ ids, id ∈ sequenceIds
  fresh : ∀ id ∈ admittedIds receipts, ∀ id' ∈ ids, id < id'

/-- The lanes of an admitted round: the live sequences it selected, none of them terminal. -/
structure RoundReady (state : InferenceSessionState) (request : RoundRequest)
    (lanes : List (RoundLane Nat)) : Prop where
  quiet : Quiet state
  selected : selectLanes state.sequences request = .ok lanes
  going : ∀ lane ∈ lanes, lane.sequence.terminal = none

/-- What an execution leaves to the publication of its pages. -/
structure RoundDone (state : InferenceSessionState) (request : RoundRequest)
    (pages : List (List Token)) : Prop where
  quiet : Quiet state
  selected : ∃ lanes, selectLanes state.sequences request = .ok lanes
  length : request.length = pages.length
  pages : ∀ entry ∈ (request.map (·.1)).zip pages, PageOk state.sequences entry

/-- The slots an `add` call has found. -/
structure AddReady (P : InferencePrograms) (state : InferenceSessionState)
    (entries : List AddEntry) (slots : List Nat) : Prop where
  quiet : Quiet state
  free : SlotsOk P state.sequences slots
  length : slots.length = entries.length

/-- What an operation may rely on where it stands. -/
def OperationOk (P : InferencePrograms) (w : InferenceSession) : Operation → Prop
  | .roundSelected request lanes => selectLanes w.state.sequences request = .ok lanes
  | .roundAdmitted request lanes => RoundReady w.state request lanes
  | .roundReserved request lanes roundId =>
    RoundReady w.state request lanes ∧ RoundFresh w.roundIds w.receipts roundId
  | .roundExecuted request _ roundId pages =>
    RoundDone w.state request pages ∧ RoundFresh w.roundIds w.receipts roundId
  | .addRequested _ => True
  | .addAdmitted _ => Quiet w.state
  | .addSlotted entries slots => AddReady P w.state entries slots
  | .addReserved entries slots roundId ids =>
    AddReady P w.state entries slots ∧ RoundFresh w.roundIds w.receipts roundId ∧
      SequencesFresh w.sequenceIds w.receipts ids ∧ ids.length = entries.length
  | .addSampled entries slots roundId ids tokens =>
    (AddReady P w.state entries slots ∧ RoundFresh w.roundIds w.receipts roundId ∧
      SequencesFresh w.sequenceIds w.receipts ids ∧ ids.length = entries.length) ∧
    tokens.length = entries.length

/-- What holds of a session between any two steps. -/
structure SessionInvariant (P : InferencePrograms) (w : InferenceSession) : Prop where
  live : LiveOk P w.receipts (unpublished w.operation) w.state.sequences
  ids : IdsOk w.ids w.roundIds w.sequenceIds w.receipts
  pending : PendingOk w.state w.receipts
  closed : w.state.closed = true → w.state.sequences = ∅ ∧ w.state.receipt = none
  operation : ∀ operation, w.operation = some operation → OperationOk P w operation

/-! ## What a step does -/

/-- A round that publishes `receipt`: each of its pages advances its sequence by its tokens,
and no other sequence changes. -/
structure Advances (w w' : InferenceSession) (receipt : Receipt) : Prop where
  pages : ∀ page ∈ receipt.pages, page.tokens ≠ [] ∧ ∃ s s',
    w.state.sequences.lookup page.sequenceId = some s ∧
      w'.state.sequences.lookup page.sequenceId = some s' ∧ s.terminal = none ∧
      s.publish page.tokens = some s' ∧ page.stopReason = s'.terminal
  others : ∀ id, id ∉ receipt.pages.map (·.sequenceId) →
    w'.state.sequences.lookup id = w.state.sequences.lookup id
  once : (receipt.pages.map (·.sequenceId)).Nodup

/-- An admission that publishes `receipt`: each of its pages is the first token of a new
sequence, and no other sequence changes. -/
structure Admits (w w' : InferenceSession) (receipt : Receipt) : Prop where
  pages : ∀ page ∈ receipt.pages, w.state.sequences.lookup page.sequenceId = none ∧
    ∃ s, w'.state.sequences.lookup page.sequenceId = some s ∧ page.tokens = [s.pending] ∧
      s.generated = 1 ∧ page.stopReason = s.terminal
  others : ∀ id, id ∉ receipt.pages.map (·.sequenceId) →
    w'.state.sequences.lookup id = w.state.sequences.lookup id
  once : (receipt.pages.map (·.sequenceId)).Nodup

/-- The sequences of two states but for their native cursors. -/
def SameButRows (sequences sequences' : LiveSequences Nat) : Prop :=
  ∀ id, (sequences'.lookup id).map (·.keep 0) = (sequences.lookup id).map (·.keep 0)

/-- What a step does to a session, read off its reply. -/
inductive StepEffect (w w' : InferenceSession) : Option SessionReply → Prop
  /-- The call goes on, or another session has reserved ids. -/
  | silent : w'.state = w.state → w'.receipts = w.receipts → StepEffect w w' none
  /-- An execution has moved the native states of the sequences of its round. -/
  | executed {request lanes roundId pages} :
      w'.operation = some (.roundExecuted request lanes roundId pages) →
      w'.state.receipt = w.state.receipt → w'.state.closed = w.state.closed →
      SameButRows w.state.sequences w'.state.sequences → w'.receipts = w.receipts →
      StepEffect w w' none
  | failed {reason} : w'.state = w.state → w'.receipts = w.receipts →
      StepEffect w w' (some (.error reason))
  | recovered {receipt} : w.state.receipt = some receipt → w'.state = w.state →
      w'.receipts = w.receipts → StepEffect w w' (some (.ok (some (receipt.result true))))
  | published {receipt} : w.state.receipt = none → w'.state.receipt = some receipt →
      w'.receipts = w.receipts ++ [receipt] →
      (match receipt.request with
        | .round _ => Advances w w' receipt
        | .add _ => Admits w w' receipt) →
      StepEffect w w' (some (.ok (some (receipt.result false))))
  | acknowledged {receipt} : w.state.receipt = some receipt →
      w'.state = { w.state with receipt := none } → w'.receipts = w.receipts →
      StepEffect w w' (some (.ok none))
  | finished (ids : List Nat) : w.state.receipt = none → w'.state.receipt = none →
      (∀ id, w'.state.sequences.lookup id =
        if id ∈ ids then none else w.state.sequences.lookup id) →
      w'.receipts = w.receipts → StepEffect w w' (some (.ok none))
  | closed : w'.state = ⟨true, ∅, none⟩ → w'.receipts = w.receipts →
      StepEffect w w' (some (.ok none))

/-- A step that keeps the invariant and does what its reply says. -/
structure StepOk (P : InferencePrograms) (w : InferenceSession)
    (result : InferenceSession × Option SessionReply) : Prop where
  invariant : SessionInvariant P result.1
  effect : StepEffect w result.1 result.2

section Steps

open InferenceSession

variable {P : InferencePrograms} {w : InferenceSession}

/-! ## The steps before an execution -/

/-- Only the operation changes, and it has no unpublished pages before or after. -/
theorem SessionInvariant.move (h : SessionInvariant P w) (hdone : unpublished w.operation = [])
    {operation : Option Operation} (hnone : unpublished operation = [])
    (hok : ∀ next, operation = some next → OperationOk P w next) :
    SessionInvariant P { w with operation } where
  live := by
    change LiveOk P w.receipts (unpublished operation) w.state.sequences
    rw [hnone, ← hdone]
    exact h.live
  ids := h.ids
  pending := h.pending
  closed := h.closed
  operation := hok

theorem abort_ok (h : SessionInvariant P w) (hdone : unpublished w.operation = [])
    (reason : String) : StepOk P w (w.abort reason) where
  invariant := h.move hdone rfl nofun
  effect := .failed rfl rfl

theorem await_ok (h : SessionInvariant P w) (hdone : unpublished w.operation = [])
    {operation : Operation} (hnone : operation.unpublished = [])
    (hok : OperationOk P w operation) : StepOk P w (w.await operation) where
  invariant := h.move hdone hnone fun _ heq => some.inj heq ▸ hok
  effect := .silent rfl rfl

/-- A receipt is found for the request it was published for, and only while it is pending. -/
theorem recovered_ok {request : ReceiptRequest} {result : Option NativeInferenceRoundResult}
    (h : w.recovered request = .ok result) : w.state.closed = false ∧
      ((w.state.receipt = none ∧ result = none) ∨
        ∃ receipt, w.state.receipt = some receipt ∧ receipt.request = request ∧
          result = some (receipt.result true)) := by
  unfold recovered at h
  split at h
  · cases h
  · next hopen =>
    refine ⟨Bool.eq_false_iff.mpr hopen, ?_⟩
    split at h
    · next hnone => exact .inl ⟨hnone, (Except.ok.inj h).symm⟩
    · next receipt hreceipt =>
      split at h
      · cases h
      · next heq => exact .inr ⟨receipt, hreceipt, not_not.mp heq, (Except.ok.inj h).symm⟩

theorem startRound_ok (h : SessionInvariant P w) (hidle : w.operation = none)
    (handles : List NativeInferenceSequence) (overrides : List NativeInferenceSamplingOverrides) :
    StepOk P w (w.startRound handles overrides) := by
  have hdone : unpublished w.operation = [] := by rw [hidle]; rfl
  unfold startRound
  split
  · exact abort_ok h hdone _
  · split
    · exact abort_ok h hdone _
    · dsimp only
      split
      · exact abort_ok h hdone _
      · next lanes hlanes => exact await_ok h hdone rfl hlanes

variable {request : RoundRequest} {lanes : List (RoundLane Nat)} {entries : List AddEntry}
  {roundId : Nat} {ids ids' : InferenceIds} {sequenceIds roundIds : List Nat}
  {receipts : List Receipt}

theorem recoverRound_ok (h : SessionInvariant P w) (hop : w.operation = some (.roundSelected request lanes)) :
    StepOk P w (w.recoverRound request lanes) := by
  have hdone : unpublished w.operation = [] := by rw [hop]; rfl
  have hselected : selectLanes w.state.sequences request = .ok lanes := h.operation _ hop
  unfold recoverRound
  split
  · exact abort_ok h hdone _
  · next result hresult =>
    obtain ⟨_, ⟨_, hnone⟩ | ⟨receipt, hreceipt, _, hsome⟩⟩ := recovered_ok hresult
    · cases hnone
    · obtain rfl := some.inj hsome
      exact ⟨h.move hdone rfl nofun, .recovered hreceipt rfl rfl⟩
  · next hresult =>
    obtain ⟨hopen, ⟨hnone, _⟩ | ⟨_, _, _, hsome⟩⟩ := recovered_ok hresult
    · split
      · exact abort_ok h hdone _
      · next hgoing =>
        refine await_ok h hdone rfl ⟨⟨hnone, hopen⟩, hselected, fun lane hlane => ?_⟩
        by_contra hterminal
        exact hgoing (any_eq_true.mpr
          ⟨lane, hlane, isSome_iff_ne_none.mpr hterminal⟩)
    · cases hsome

theorem startAdd_ok (h : SessionInvariant P w) (hidle : w.operation = none) (call : AddCall) :
    StepOk P w (startAdd P w call) := by
  have hdone : unpublished w.operation = [] := by rw [hidle]; rfl
  unfold startAdd
  split
  · exact abort_ok h hdone _
  · exact await_ok h hdone rfl trivial

theorem recoverAdd_ok (h : SessionInvariant P w) (hop : w.operation = some (.addRequested entries)) :
    StepOk P w (w.recoverAdd entries) := by
  have hdone : unpublished w.operation = [] := by rw [hop]; rfl
  unfold recoverAdd
  split
  · exact abort_ok h hdone _
  · next result hresult =>
    obtain ⟨_, ⟨_, hnone⟩ | ⟨receipt, hreceipt, _, hsome⟩⟩ := recovered_ok hresult
    · cases hnone
    · obtain rfl := some.inj hsome
      exact ⟨h.move hdone rfl nofun, .recovered hreceipt rfl rfl⟩
  · next hresult =>
    obtain ⟨hopen, ⟨hnone, _⟩ | ⟨_, _, _, hsome⟩⟩ := recovered_ok hresult
    · exact await_ok h hdone rfl ⟨hnone, hopen⟩
    · cases hsome

theorem slotAdd_ok (h : SessionInvariant P w) (hop : w.operation = some (.addAdmitted entries)) :
    StepOk P w (slotAdd P w entries) := by
  have hdone : unpublished w.operation = [] := by rw [hop]; rfl
  have hquiet : Quiet w.state := h.operation _ hop
  unfold slotAdd
  dsimp only
  split
  · exact abort_ok h hdone _
  · next hlen =>
    exact await_ok h hdone rfl ⟨hquiet, freeSlots_ok P _ _, not_not.mp hlen⟩

theorem sampleAdd_ok {slots ids : List Nat} {outcome : Outcome}
    {result : InferenceSession × Option SessionReply} (h : SessionInvariant P w)
    (hop : w.operation = some (.addReserved entries slots roundId ids))
    (hresult : w.sampleAdd entries slots roundId ids outcome = some result) : StepOk P w result := by
  have hdone : unpublished w.operation = [] := by rw [hop]; rfl
  have hok : OperationOk P w (.addReserved entries slots roundId ids) := h.operation _ hop
  cases outcome with
  | failed phase reason =>
    obtain rfl := some.inj hresult
    exact abort_ok h hdone _
  | tokens tokens =>
    rw [sampleAdd] at hresult
    split at hresult
    · cases hresult
    · next hlen =>
      obtain rfl := some.inj hresult
      exact await_ok h hdone rfl ⟨hok, not_not.mp hlen⟩
  | next => cases hresult
  | pages pages => cases hresult

/-! ## Ids -/

theorem reserveInferenceIds_ok {count : Nat}
    (h : reserveInferenceIds ids count = .ok (roundId, sequenceIds, ids')) :
    roundId = ids.nextRoundId ∧ sequenceIds = List.range' ids.nextSequenceId count ∧
      ids' = ⟨ids.nextSequenceId + count, ids.nextRoundId + 1⟩ := by
  unfold reserveInferenceIds at h
  split at h
  · cases h
  · split at h
    · cases h
    · obtain ⟨hround, hrest⟩ := Prod.mk.inj (Except.ok.inj h)
      obtain ⟨hsequences, hids⟩ := Prod.mk.inj hrest
      exact ⟨hround.symm, hsequences.symm, hids.symm⟩

/-- Other reservations only raise the counters. -/
theorem IdsOk.mono (h : IdsOk ids roundIds sequenceIds receipts)
    (hround : ids.nextRoundId ≤ ids'.nextRoundId) (hsequence : ids.nextSequenceId ≤ ids'.nextSequenceId) :
    IdsOk ids' roundIds sequenceIds receipts :=
  { h with
    rounds_lt := fun id hid => Nat.lt_of_lt_of_le (h.rounds_lt id hid) hround
    sequences_lt := fun id hid => Nat.lt_of_lt_of_le (h.sequences_lt id hid) hsequence }

theorem pairwise_lt_append {l l' : List Nat} {bound : Nat} (hl : l.Pairwise (· < ·))
    (hl' : l'.Pairwise (· < ·)) (hlt : ∀ id ∈ l, id < bound) (hle : ∀ id ∈ l', bound ≤ id) :
    (l ++ l').Pairwise (· < ·) :=
  pairwise_append.mpr
    ⟨hl, hl', fun id hid id' hid' => Nat.lt_of_lt_of_le (hlt id hid) (hle id' hid')⟩

/-- A reservation: new ids over all ids of before. -/
theorem IdsOk.reserve {reserved : List Nat} {count : Nat} (h : IdsOk ids roundIds sequenceIds receipts)
    (hreserve : reserveInferenceIds ids count = .ok (roundId, reserved, ids')) :
    IdsOk ids' (roundIds ++ [roundId]) (sequenceIds ++ reserved) receipts ∧
      RoundFresh (roundIds ++ [roundId]) receipts roundId ∧
      SequencesFresh (sequenceIds ++ reserved) receipts reserved ∧ reserved.length = count := by
  obtain ⟨rfl, rfl, rfl⟩ := reserveInferenceIds_ok hreserve
  have hrange : ∀ id ∈ List.range' ids.nextSequenceId count,
      ids.nextSequenceId ≤ id ∧ id < ids.nextSequenceId + count :=
    fun id hid => mem_range'_1.mp hid
  refine ⟨{ h with
    rounds := pairwise_lt_append h.rounds (pairwise_singleton _ _) h.rounds_lt
      fun id hid => Nat.le_of_eq (mem_singleton.mp hid).symm
    rounds_lt := fun id hid => ?_
    sequences := pairwise_lt_append h.sequences (pairwise_lt_range' ..) h.sequences_lt
      fun id hid => (hrange id hid).1
    sequences_lt := fun id hid => ?_
    receiptIds_reserved := fun receipt hmem => mem_append_left _ (h.receiptIds_reserved _ hmem)
    admitted_reserved := fun id hid => mem_append_left _ (h.admitted_reserved id hid) },
    ⟨mem_append_right _ (mem_singleton_self _), fun receipt hmem =>
      h.rounds_lt _ (h.receiptIds_reserved _ hmem)⟩,
    ⟨pairwise_lt_range' .., fun id hid => mem_append_right _ hid,
      fun id hid id' hid' => Nat.lt_of_lt_of_le (h.sequences_lt _ (h.admitted_reserved id hid))
        (hrange id' hid').1⟩, length_range'⟩
  · rcases mem_append.mp hid with hid | hid
    · exact Nat.lt_succ_of_lt (h.rounds_lt id hid)
    · rw [mem_singleton.mp hid]
      exact Nat.lt_succ_self _
  · rcases mem_append.mp hid with hid | hid
    · exact Nat.lt_of_lt_of_le (h.sequences_lt id hid) (Nat.le_add_right _ _)
    · exact (hrange id hid).2

theorem IdsOk.publish {receipt : Receipt} (h : IdsOk ids roundIds sequenceIds receipts)
    (hround : RoundFresh roundIds receipts receipt.roundId) (hordered : receipt.admitted.Pairwise (· < ·))
    (hreserved : ∀ id ∈ receipt.admitted, id ∈ sequenceIds)
    (hfresh : ∀ id ∈ admittedIds receipts, ∀ id' ∈ receipt.admitted, id < id')
    (hpages : ∀ page ∈ receipt.pages, page.sequenceId ∈ admittedIds receipts ∨ page.sequenceId ∈ receipt.admitted) :
    IdsOk ids roundIds sequenceIds (receipts ++ [receipt]) where
  rounds := h.rounds
  rounds_lt := h.rounds_lt
  sequences := h.sequences
  sequences_lt := h.sequences_lt
  receiptIds := by
    rw [map_append]
    refine pairwise_append.mpr ⟨h.receiptIds, pairwise_singleton _ _, ?_⟩
    intro id hid id' hid'
    obtain ⟨other, hmem, rfl⟩ := mem_map.mp hid
    rw [mem_singleton.mp hid']
    exact hround.fresh other hmem
  receiptIds_reserved := fun other hmem => by
    rcases mem_append.mp hmem with hmem | hmem
    · exact h.receiptIds_reserved other hmem
    · rw [mem_singleton.mp hmem]
      exact hround.reserved
  admitted := by
    rw [admittedIds_append]
    exact pairwise_append.mpr ⟨h.admitted, hordered, hfresh⟩
  admitted_reserved := fun id hid => by
    rw [admittedIds_append] at hid
    rcases mem_append.mp hid with hid | hid
    · exact h.admitted_reserved id hid
    · exact hreserved id hid
  pages := fun page hpage => by
    rw [admittedIds_append]
    rw [publishedPages_append] at hpage
    rcases mem_append.mp hpage with hpage | hpage
    · exact mem_append_left _ (h.pages page hpage)
    · exact mem_append.mpr (hpages page hpage)

theorem reserveRound_ok (h : SessionInvariant P w) (hop : w.operation = some (.roundAdmitted request lanes)) :
    StepOk P w (w.reserveRound request lanes) := by
  have hdone : unpublished w.operation = [] := by rw [hop]; rfl
  have hready : RoundReady w.state request lanes := h.operation _ hop
  unfold reserveRound
  split
  · exact abort_ok h hdone _
  · next roundId reserved ids hreserve =>
    obtain ⟨hids, hfresh, _, hlen⟩ := h.ids.reserve hreserve
    obtain rfl := eq_nil_of_length_eq_zero hlen
    rw [append_nil] at hids
    refine ⟨⟨?_, hids, h.pending, h.closed, ?_⟩, .silent rfl rfl⟩
    · have hlive := h.live
      rw [hdone] at hlive
      exact hlive
    · rintro _ heq
      obtain rfl := some.inj heq
      exact ⟨hready, hfresh⟩

theorem reserveAdd_ok {slots : List Nat} (h : SessionInvariant P w)
    (hop : w.operation = some (.addSlotted entries slots)) : StepOk P w (w.reserveAdd entries slots) := by
  have hdone : unpublished w.operation = [] := by rw [hop]; rfl
  have hready : AddReady P w.state entries slots := h.operation _ hop
  unfold reserveAdd
  split
  · exact abort_ok h hdone _
  · next roundId reserved ids hreserve =>
    obtain ⟨hids, hround, hsequences, hlen⟩ := h.ids.reserve hreserve
    refine ⟨⟨?_, hids, h.pending, h.closed, ?_⟩, .silent rfl rfl⟩
    · have hlive := h.live
      rw [hdone] at hlive
      exact hlive
    · rintro _ heq
      obtain rfl := some.inj heq
      exact ⟨hready, hround, hsequences, hlen⟩

/-! ## Requests -/

theorem SamplingOverride.identity_inj {a b : NativeInferenceSamplingOverrides}
    (h : a.identity = b.identity) : a = b := by
  have hbits : Function.Injective F64.bits := fun x y hxy => by
    cases x
    cases y
    exact congrArg F64.mk hxy
  obtain ⟨htemperature, htopK, htopP, hseed⟩ := SamplingOverrideIdentity.mk.inj h
  cases a
  cases b
  rw [NativeInferenceSamplingOverrides.mk.injEq]
  exact ⟨map_injective hbits htemperature, htopK, map_injective hbits htopP, hseed⟩

/-- Two rounds with one identity are the same round. -/
theorem RoundRequest.identity_inj {a b : RoundRequest} (h : a.identity = b.identity) : a = b := by
  have hentry : Function.Injective fun entry : Nat × NativeInferenceSamplingOverrides =>
      (⟨entry.1, entry.2.identity⟩ : RoundRequestIdentity) := by
    rintro ⟨id, overrides⟩ ⟨id', overrides'⟩ heq
    obtain ⟨hid, hoverrides⟩ := RoundRequestIdentity.mk.inj heq
    rw [Prod.mk.injEq]
    exact ⟨hid, SamplingOverride.identity_inj hoverrides⟩
  exact map_injective_iff.mpr hentry (ReceiptRequest.round.inj h)

/-- Selecting a round reads the sampling of its sequences and nothing else of them. -/
theorem selectLanes_congr {sequences sequences' : LiveSequences Nat}
    (h : selectLanes sequences request = .ok lanes)
    (hsame : ∀ id ∈ request.map (·.1), ∀ s, sequences.lookup id = some s → ∃ s', sequences'.lookup id = some s' ∧ s'.sampling = s.sampling) :
    ∃ lanes', selectLanes sequences' request = .ok lanes' := by
  obtain ⟨hne, hnodup, _, hlanes⟩ := selectLanes_ok.mp h
  have hentry : ∀ (k : Nat) entry, request[k]? = some entry → ∃ s' options,
      sequences'.lookup entry.1 = some s' ∧
        inferenceSamplingOverride entry.2 s'.sampling "sample" = .ok options := by
    intro k entry hk
    obtain ⟨lane, _, hlookup, hoptions⟩ := hlanes k entry hk
    obtain ⟨s', hs', hsampling⟩ := hsame entry.1
      (mem_map_of_mem (mem_of_getElem? hk)) _ hlookup
    exact ⟨s', lane.sampling, hs', hsampling ▸ hoptions⟩
  unfold selectLanes
  rw [if_neg hne, if_neg (not_not.mpr hnodup)]
  obtain ⟨selected, hselected⟩ : ∃ selected,
      request.mapM (fun entry => selectSequence sequences' entry.1) = .ok selected := by
    refine mapM_total fun entry hmem => ?_
    obtain ⟨k, hk⟩ := mem_iff_getElem?.mp hmem
    obtain ⟨s', _, hs', _⟩ := hentry k entry hk
    exact ⟨s', selectSequence_ok.mpr hs'⟩
  rw [hselected, ok_bind]
  refine mapM_total fun ⟨s, entry⟩ hmem => ?_
  obtain ⟨k, hk⟩ := mem_iff_getElem?.mp hmem
  obtain ⟨hs, hk⟩ := List.getElem?_zip_eq_some.mp hk
  obtain ⟨q, hq, hselect⟩ := (mapM_ok.mp hselected).2 k entry hk
  obtain rfl := some.inj (hs.symm.trans hq)
  obtain ⟨s', options, hs', hoptions⟩ := hentry k entry hk
  obtain rfl := some.inj ((selectSequence_ok.mp hselect).symm.trans hs')
  exact ⟨⟨s, options⟩, map_ok.mpr ⟨options, hoptions, rfl⟩⟩

end Steps

end EffectTorch
