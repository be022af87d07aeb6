import EffectTorch.Core.GenerationLive

/-!
# Runs of the generation driver

Results:
1. `Call.receive_pending`: a call takes the pages of the receipt it has asked for.
2. `WorldOk`, `perform_worldOk`: the list agrees with the session between any two steps, as far
   as the call that holds the lock has come.
3. `generation_settled`: what holds of the driver in every run without an interruption between
   the success of `finish` or `close` and the update of the list.
4. `generation_interrupted`: a run with such an interruption whose list keeps a dead sequence.
-/

namespace EffectTorch
open List Lib

namespace Generation

/-! ## Requests -/

/-- The call asks the session for `request`. -/
def Call.Asks (P : InferencePrograms) : Call → ReceiptRequest → Prop
  | adding requests _, request => ∃ entries,
    addEntries P.tokenDtype (nativeAdd requests) = .ok entries ∧ addIdentity entries = request
  | stepping selected requests _, request => selected.length = requests.length ∧
    RoundRequest.identity ((selected.map (·.id)).zip (requests.map (·.sampling))) = request
  | _, _ => False

section Requests

variable {P : InferencePrograms} {pages : List ReceiptPage} {request : ReceiptRequest} {call : Call}

theorem addEntries_length {dtype : TokenDType} {call : AddCall} {entries : List AddEntry}
    (h : addEntries dtype call = .ok entries) :
    call.prompts ≠ [] ∧ entries.length = call.prompts.length := by
  unfold addEntries at h
  split at h
  · cases h
  · next hlen =>
    simp only [not_or, not_not] at hlen
    obtain ⟨hne, hsampling, hmax, heos⟩ := hlen
    obtain ⟨prompts, hprompts, h⟩ := bind_ok.mp h
    obtain ⟨sampling, hoptions, h⟩ := bind_ok.mp h
    obtain rfl := Except.ok.inj h
    refine ⟨hne, ?_⟩
    rw [length_map, length_zip, length_zip, length_zip,
      ← (mapM_ok.mp hprompts).1, ← (mapM_ok.mp hoptions).1, hsampling, hmax, heos, Nat.min_self,
      Nat.min_self, Nat.min_self]

/-- The entries of an admission whose sequences are distinct. -/
theorem addedEntries_eq {added : List NativeGenerationEntry}
    (hnodup : (added.map (·.id) ++ pages.map (·.sequenceId)).Nodup) :
    addedEntries added pages = .ok (added ++ pages.map fun page => ⟨page.sequenceId, none⟩) := by
  induction pages generalizing added with
  | nil => rw [addedEntries, map_nil, append_nil]
  | cons page pages ih =>
    have hnew : page.sequenceId ∉ added.map (·.id) := fun hold =>
      (nodup_append'.mp hnodup).2.2 hold mem_cons_self
    rw [addedEntries, if_neg, ih]
    · rw [append_assoc]
      rfl
    · rw [map_append, append_assoc]
      exact hnodup
    · rw [any_eq_true]
      rintro ⟨entry, hentry, hid⟩
      exact hnew (of_decide_eq_true hid ▸ mem_map_of_mem hentry)

/-- Pages with the ids of the expected entries, in their order, are what the caller gets. -/
theorem pagesFor_eq {op : String} {result : NativeInferenceRoundResult}
    {expected : List NativeGenerationEntry}
    (hids : result.pages.map (·.sequenceId) = expected.map (·.id))
    (hne : ∀ page ∈ result.pages, page.tokens ≠ []) : pagesFor op result expected = .ok result.pages := by
  have hlen : result.pages.length = expected.length := by
    simpa using congrArg List.length hids
  rw [pagesFor, if_neg (not_not.mpr hlen)]
  generalize result.pages = pages at hids hne
  clear hlen
  induction expected generalizing pages with
  | nil =>
    rw [map_nil, map_eq_nil_iff] at hids
    rw [hids]
    rfl
  | cons entry expected ih =>
    obtain ⟨page, rest, rfl, hpage, hrest⟩ := map_eq_cons_iff.mp hids
    have hpage : page.sequenceId = entry.id := hpage
    have hok : ¬ (page.sequenceId ≠ entry.id ∨ page.tokens.length = 0) := by
      rw [length_eq_zero_iff]
      exact not_or.mpr ⟨not_not.mpr hpage, hne page mem_cons_self⟩
    rw [zip_cons_cons, mapM_cons]
    dsimp only
    rw [if_neg hok, ok_bind, ih rest hrest fun page hmem => hne page (mem_cons_of_mem _ hmem), ← hpage]
    rfl

/-- A call that has asked for the request of a receipt takes its pages. -/
theorem Call.receive_pending {state : InferenceSessionState} {receipt : Receipt}
    (hstarted : call.started = true) (hasks : call.Asks P receipt.request)
    (hpending : PendingPages state receipt) (recovered : Bool) :
    ∃ update, call.receive (receipt.result recovered) =
      .ok (.acknowledging update (receipt.result recovered) receipt.pages) ∧
        update.Fits receipt := by
  have hfits := hpending.fits
  cases call with
  | adding requests started =>
    obtain ⟨entries, hentries, hrequest⟩ := hasks
    have hrequest : receipt.request = .add (entries.map (·.identity)) := hrequest.symm
    unfold Receipt.Fits at hfits
    rw [hrequest] at hfits
    have hlen : receipt.pages.length = requests.length := by
      rw [hfits, length_map, (addEntries_length hentries).2, nativeAdd, length_map]
    have hadded : addedEntries [] receipt.pages =
        .ok (receipt.pages.map fun page => ⟨page.sequenceId, none⟩) := addedEntries_eq hpending.once
    have hids : receipt.pages.map (·.sequenceId) =
        (receipt.pages.map fun page => (⟨page.sequenceId, none⟩ : NativeGenerationEntry)).map
          (·.id) := by
      rw [map_map]
      rfl
    refine ⟨.push _, ?_, .push hrequest hids⟩
    rw [Call.receive, Receipt.result, if_neg (not_not.mpr hlen), hadded]
    exact bind_ok.mpr ⟨_, rfl, bind_ok.mpr ⟨_, pagesFor_eq hids hpending.nonempty, rfl⟩⟩
  | stepping selected requests started =>
    obtain ⟨hselected, hrequest⟩ := hasks
    have hrequest := hrequest.symm
    unfold RoundRequest.identity at hrequest
    unfold Receipt.Fits at hfits
    rw [hrequest] at hfits
    have hids : receipt.pages.map (·.sequenceId) = selected.map (·.id) := by
      rw [hfits, map_map]
      refine map_fst_zip ?_
      rw [length_map, length_map, hselected]
    exact ⟨.mark _, bind_ok.mpr ⟨_, pagesFor_eq hids hpending.nonempty, rfl⟩, .mark hrequest hids⟩
  | acknowledging => cases hstarted
  | acknowledged => cases hstarted
  | finishing => cases hstarted
  | finished => cases hstarted
  | closing => cases hstarted
  | closed => cases hstarted

end Requests

/-! ## The driver between two steps -/

/-- The list once the call has done what the session has already done. -/
def Call.settle (live : List NativeGenerationEntry) : Call → List NativeGenerationEntry
  | acknowledged update result _ => update.apply live result.pages
  | finished id => live.eraseP (·.id = id)
  | closed => []
  | _ => live

def World.view (w : World) : List NativeGenerationEntry := w.call.elim w.live (·.settle w.live)

/-- What a call may rely on where it stands. -/
structure Waits (P : InferencePrograms) (native : InferenceSession) (call : Call) : Prop where
  started : call.started = true → ∃ operation, native.operation = some operation ∧
    call.Asks P operation.identity
  selected : ∀ selected requests started, call = .stepping selected requests started →
    selected.length = requests.length
  acknowledging : ∀ update result pages, call = .acknowledging update result pages →
    ∃ receipt, native.state.receipt = some receipt ∧ result.roundId = receipt.roundId ∧
      result.pages = receipt.pages ∧ pages = receipt.pages ∧ update.Fits receipt

/-- What a reply tells the call that waits for it. -/
structure Heard (P : InferencePrograms) (native : InferenceSession) (call : Call)
    (reply : Option SessionReply) : Prop where
  goesOn : reply = none → ∃ operation, native.operation = some operation ∧
    call.Asks P operation.identity
  replies : ∀ result, reply = some (.ok result) → ∃ receipt recovered,
    native.state.receipt = some receipt ∧ result = some (receipt.result recovered) ∧
      call.Asks P receipt.request

/-- What holds of the driver between any two steps. -/
structure WorldOk (P : InferencePrograms) (w : World) : Prop where
  agrees : Agrees P w.native w.view w.acknowledged
  waits : ∀ call, w.call = some call → Waits P w.native call
  abandoned : ∀ event ∈ w.abandoned, event.Passive

section Steps

variable {P : InferencePrograms} {w w' : World} {native native' : InferenceSession} {call : Call}
  {reply : Option SessionReply}

theorem Call.settle_started (h : call.started = true) (live : List NativeGenerationEntry) :
    call.settle live = live := by
  cases call with
  | adding => rfl
  | stepping => rfl
  | acknowledging => rfl
  | acknowledged => cases h
  | finishing => rfl
  | finished => cases h
  | closing => rfl
  | closed => cases h

theorem Call.start_asks {request : ReceiptRequest} (h : call.Asks P request) :
    call.start.Asks P request := by
  cases call with
  | adding => exact h
  | stepping => exact h
  | acknowledging => exact h
  | acknowledged => exact h
  | finishing => exact h
  | finished => exact h
  | closing => exact h
  | closed => exact h

/-- A call with nothing to rely on. -/
theorem Waits.free (hstarted : call.started = false)
    (hselected : ∀ selected requests started, call ≠ .stepping selected requests started)
    (hacknowledging : ∀ update result pages, call ≠ .acknowledging update result pages) :
    Waits P native call where
  started h := absurd (hstarted.symm.trans h) Bool.false_ne_true
  selected _ _ _ h := absurd h (hselected _ _ _)
  acknowledging _ _ _ h := absurd h (hacknowledging _ _ _)

theorem Waits.passes (h : Waits P native call) (hstarted : call.started = false)
    (hpasses : Passes P native native') : Waits P native' call where
  started hstarted' := absurd (hstarted.symm.trans hstarted') Bool.false_ne_true
  selected := h.selected
  acknowledging update result pages hcall := by
    obtain ⟨receipt, hreceipt, hrest⟩ := h.acknowledging update result pages hcall
    exact ⟨receipt, hpasses.kept receipt hreceipt, hrest⟩

/-- The call has ended and the list follows the session. -/
theorem WorldOk.ended (hagrees : Agrees P w.native w.live w.acknowledged)
    (habandoned : ∀ event ∈ w.abandoned, event.Passive) : WorldOk P { w with call := none } :=
  ⟨hagrees, nofun, habandoned⟩

/-- The call stands where the list follows the session, or is to follow it in one step. -/
theorem WorldOk.called (hagrees : Agrees P w.native (call.settle w.live) w.acknowledged)
    (hwaits : Waits P w.native call) (habandoned : ∀ event ∈ w.abandoned, event.Passive) :
    WorldOk P { w with call := some call } :=
  ⟨hagrees, fun _ h => Option.some.inj h ▸ hwaits, habandoned⟩

theorem deliver_worldOk (hagrees : Agrees P w.native w.live w.acknowledged)
    (hcall : w.call = some call) (hstarted : call.started = true)
    (hselected : ∀ selected requests started, call = .stepping selected requests started →
      selected.length = requests.length)
    (hheard : Heard P w.native call reply) (habandoned : ∀ event ∈ w.abandoned, event.Passive) :
    WorldOk P (deliver w call reply) := by
  match reply, hheard with
  | none, hheard =>
    refine ⟨?_, fun call' hcall' => ?_, habandoned⟩
    · rw [deliver, World.view, hcall, Option.elim_some, call.settle_started hstarted]
      exact hagrees
    · obtain rfl := Option.some.inj (hcall.symm.trans hcall')
      refine ⟨fun _ => hheard.goesOn rfl, hselected, ?_⟩
      rintro _ _ _ rfl
      cases hstarted
  | some (.error reason), _ => exact .ended hagrees habandoned
  | some (.ok none), hheard =>
    obtain ⟨_, _, _, hresult, _⟩ := hheard.replies none rfl
    cases hresult
  | some (.ok (some result)), hheard =>
    obtain ⟨receipt, recovered, hreceipt, hresult, hasks⟩ := hheard.replies _ rfl
    obtain rfl := Option.some.inj hresult
    obtain ⟨update, hreceive, hfits⟩ :=
      call.receive_pending hstarted hasks (hagrees.pending receipt hreceipt) recovered
    rw [deliver, hreceive]
    refine .called hagrees ⟨nofun, nofun, ?_⟩ habandoned
    rintro _ _ _ heq
    obtain ⟨rfl, rfl, rfl⟩ := Call.acknowledging.inj heq
    exact ⟨receipt, hreceipt, rfl, rfl, rfl, hfits⟩

theorem Call.event_passive {id : Nat} {event : SessionEvent} (h : call.event id = some event) :
    event.Passive := by
  cases call with
  | adding => exact Option.some.inj h ▸ trivial
  | stepping => exact Option.some.inj h ▸ trivial
  | acknowledging => cases h
  | acknowledged => cases h
  | finishing => cases h
  | finished => cases h
  | closing => cases h
  | closed => cases h

/-- The session takes a call or refuses it. -/
theorem Call.heard (hwaits : Waits P native call) {event : SessionEvent}
    (hevent : call.event native.id = some event)
    (hperform : native.perform P event = some (native', reply)) :
    Heard P native' call.start reply := by
  have hrefused : ∀ reason, Heard P native' call.start (some (.error reason)) := fun _ =>
    ⟨by rintro ⟨⟩, by rintro _ ⟨⟩⟩
  cases call with
  | adding requests started =>
    obtain rfl := Option.some.inj hevent
    rw [InferenceSession.perform] at hperform
    split at hperform
    · cases hperform
    · have heq := Option.some.inj hperform
      unfold InferenceSession.startAdd at heq
      split at heq
      · obtain ⟨-, rfl⟩ := Prod.mk.inj heq
        exact hrefused _
      · next entries hentries =>
        obtain ⟨rfl, rfl⟩ := Prod.mk.inj heq
        exact ⟨fun _ => ⟨_, rfl, entries, hentries, rfl⟩, by rintro _ ⟨⟩⟩
  | stepping selected requests started =>
    obtain rfl := Option.some.inj hevent
    rw [InferenceSession.perform] at hperform
    split at hperform
    · cases hperform
    · have heq := Option.some.inj hperform
      have hids : (selected.map fun entry => (⟨native.id, entry.id⟩ : NativeInferenceSequence)).map
          (·.sequenceId) = selected.map (·.id) := by
        rw [map_map]
        rfl
      unfold InferenceSession.startRound at heq
      rw [hids] at heq
      dsimp only at heq
      split at heq
      · obtain ⟨-, rfl⟩ := Prod.mk.inj heq
        exact hrefused _
      · split at heq
        · obtain ⟨-, rfl⟩ := Prod.mk.inj heq
          exact hrefused _
        · split at heq
          · obtain ⟨-, rfl⟩ := Prod.mk.inj heq
            exact hrefused _
          · obtain ⟨rfl, rfl⟩ := Prod.mk.inj heq
            exact ⟨fun _ => ⟨_, rfl, hwaits.selected _ _ _ rfl, rfl⟩, by rintro _ ⟨⟩⟩
  | acknowledging => cases hevent
  | acknowledged => cases hevent
  | finishing => cases hevent
  | finished => cases hevent
  | closing => cases hevent
  | closed => cases hevent

/-- The operation that holds the lock is that of the call that waits for it. -/
theorem Waits.heard (h : Waits P native call) (hinv : SessionInvariant P native)
    (hstarted : call.started = true) {outcome : Outcome}
    (hperform : native.perform P (.proceed outcome) = some (native', reply)) :
    Heard P native' call reply := by
  obtain ⟨operation, hop, hasks⟩ := h.started hstarted
  obtain ⟨operation', hop', hproceed⟩ := Option.bind_eq_some_iff.mp hperform
  obtain rfl := Option.some.inj (hop.symm.trans hop')
  have hproceeds := proceed_proceeds hinv hop hproceed
  refine ⟨fun hreply => ?_, fun result hreply => ?_⟩
  · obtain ⟨next, hnext, hidentity⟩ := hproceeds.goesOn hreply
    exact ⟨next, hnext, hidentity.symm ▸ hasks⟩
  · obtain ⟨receipt, hreceipt, hrequest, ⟨hresult, _⟩ | ⟨hresult, _⟩⟩ :=
      hproceeds.replies result hreply
    · exact ⟨receipt, true, hreceipt, hresult, hrequest.symm ▸ hasks⟩
    · exact ⟨receipt, false, hreceipt, hresult, hrequest.symm ▸ hasks⟩

/-- The native session goes on under the driver. -/
theorem goOn_worldOk (h : WorldOk P w) {event : SessionEvent} (hpassive : event.Passive)
    (hheard : ∀ call native reply, w.call = some call → call.started = true →
      w.native.perform P event = some (native, reply) → Heard P native call reply)
    (hgoOn : w.goOn P event = some w') : WorldOk P w' := by
  obtain ⟨⟨native, reply⟩, hperform, rfl⟩ := Option.map_eq_some_iff.mp hgoOn
  have hpasses := h.agrees.perform hpassive hperform
  have hagrees := h.agrees.passes hpasses
  cases hcall : w.call with
  | none =>
    rw [World.view, hcall] at hagrees
    exact ⟨hagrees, nofun, h.abandoned⟩
  | some call =>
    rw [World.view, hcall] at hagrees
    dsimp only
    split
    · next hstarted =>
      rw [Option.elim_some, call.settle_started hstarted] at hagrees
      exact deliver_worldOk (w := { w with native, call := some call }) hagrees rfl hstarted
        (h.waits call hcall).selected (hheard call native reply hcall hstarted hperform) h.abandoned
    · next hstarted =>
      have hstarted := Bool.eq_false_iff.mpr hstarted
      refine ⟨hagrees, fun call' hcall' => ?_, h.abandoned⟩
      obtain rfl := Option.some.inj hcall'
      exact (h.waits call hcall).passes hstarted hpasses

/-- The session takes the call, or the call waits for the operation lock. -/
theorem start_worldOk (h : WorldOk P w) (hcall : w.call = some call)
    (hsettle : ∀ live, call.settle live = live) (hstart : call.start.started = true)
    (hselected : ∀ selected requests started, call.start = .stepping selected requests started →
      selected.length = requests.length) {event : SessionEvent}
    (hevent : call.event w.native.id = some event)
    (hadvance : (w.native.perform P event).map (fun (native, reply) =>
      deliver { w with native, call := some call.start } call.start reply) = some w') :
    WorldOk P w' := by
  obtain ⟨⟨native, reply⟩, hperform, rfl⟩ := Option.map_eq_some_iff.mp hadvance
  have hagrees := h.agrees.passes (h.agrees.perform (Call.event_passive hevent) hperform)
  rw [World.view, hcall, Option.elim_some, hsettle] at hagrees
  exact deliver_worldOk (w := { w with native, call := some call.start }) hagrees rfl hstart
    hselected (Call.heard (h.waits call hcall) hevent hperform) h.abandoned

theorem advance_worldOk (h : WorldOk P w) (hcall : w.call = some call)
    (hadvance : advance P w call = some w') : WorldOk P w' := by
  have hagrees := h.agrees
  rw [World.view, hcall, Option.elim_some] at hagrees
  cases call with
  | adding requests started =>
    cases started with
    | true => cases hadvance
    | false => exact start_worldOk h hcall (fun _ => rfl) rfl nofun rfl hadvance
  | stepping selected requests started =>
    cases started with
    | true => cases hadvance
    | false =>
      refine start_worldOk h hcall (fun _ => rfl) rfl (fun _ _ _ heq => ?_) rfl hadvance
      obtain ⟨rfl, rfl, -⟩ := Call.stepping.inj heq
      exact (h.waits _ hcall).selected _ _ _ rfl
  | acknowledging update result pages =>
    obtain ⟨receipt, hreceipt, hround, hpages, rfl, hfits⟩ :=
      (h.waits _ hcall).acknowledging _ _ _ rfl
    have hperform : w.native.perform P (.acknowledge result.roundId) =
        some ({ w.native with state := { w.native.state with receipt := none } },
          some (.ok none)) := by
      rw [hround]
      exact congrArg some (acknowledge_pending hreceipt)
    rw [advance, hperform] at hadvance
    obtain rfl := Option.some.inj hadvance
    have hnext : Agrees P { w.native with state := { w.native.state with receipt := none } }
        (update.apply w.live result.pages) (w.acknowledged ++ receipt.pages) :=
      hpages.symm ▸ hagrees.acknowledge hreceipt hfits
    exact ⟨hnext, fun _ heq => Option.some.inj heq ▸ .free rfl nofun nofun, h.abandoned⟩
  | acknowledged update result pages =>
    obtain rfl := Option.some.inj hadvance
    exact ⟨hagrees, nofun, h.abandoned⟩
  | finishing id =>
    rw [advance] at hadvance
    obtain ⟨⟨native, reply⟩, hperform, rfl⟩ := Option.map_eq_some_iff.mp hadvance
    have hfinish : w.native.finish [⟨w.native.id, id⟩] = (native, reply) :=
      Option.some.inj hperform
    rcases hagrees.finish id with ⟨reason, herror⟩ | ⟨native', hok, -, hagrees'⟩
    · obtain ⟨rfl, rfl⟩ := Prod.mk.inj (hfinish.symm.trans herror)
      exact .ended hagrees h.abandoned
    · obtain ⟨rfl, rfl⟩ := Prod.mk.inj (hfinish.symm.trans hok)
      exact .called (w := { w with native }) hagrees' (.free rfl nofun nofun) h.abandoned
  | finished id =>
    obtain rfl := Option.some.inj hadvance
    exact ⟨hagrees, nofun, h.abandoned⟩
  | closing =>
    rw [advance] at hadvance
    obtain ⟨⟨native, reply⟩, hperform, rfl⟩ := Option.map_eq_some_iff.mp hadvance
    have hclose : w.native.close = (native, reply) := Option.some.inj hperform
    rcases hagrees.close with ⟨reason, herror⟩ | ⟨native', hok, -, hagrees'⟩
    · obtain ⟨rfl, rfl⟩ := Prod.mk.inj (hclose.symm.trans herror)
      exact .ended hagrees h.abandoned
    · obtain ⟨rfl, rfl⟩ := Prod.mk.inj (hclose.symm.trans hok)
      exact .called (w := { w with native }) hagrees' (.free rfl nofun nofun) h.abandoned
  | closed =>
    obtain rfl := Option.some.inj hadvance
    exact ⟨hagrees, nofun, h.abandoned⟩

theorem interrupt_worldOk (h : WorldOk P w) (hcall : w.call = some call) (hsettled : ¬ w.Unsettled)
    (hinterrupt : interrupt w call = some w') : WorldOk P w' := by
  have hagrees := h.agrees
  rw [World.view, hcall, Option.elim_some] at hagrees
  rw [World.Unsettled, hcall] at hsettled
  have habandoned : ∀ event ∈ w.abandoned ++ (call.event w.native.id).toList, event.Passive := by
    intro event hevent
    rcases mem_append.mp hevent with hold | hnew
    · exact h.abandoned event hold
    · exact Call.event_passive (Option.mem_toList.mp hnew)
  have hended : Agrees P w.native w.live w.acknowledged →
      WorldOk P { w with
        call := none
        abandoned := if call.started then w.abandoned
          else w.abandoned ++ (call.event w.native.id).toList } := by
    intro hagrees
    refine ⟨hagrees, nofun, ?_⟩
    dsimp only
    split
    · exact h.abandoned
    · exact habandoned
  cases call with
  | acknowledged => cases hinterrupt
  | finished => exact absurd trivial hsettled
  | closed => exact absurd trivial hsettled
  | adding => exact Option.some.inj hinterrupt ▸ hended hagrees
  | stepping => exact Option.some.inj hinterrupt ▸ hended hagrees
  | acknowledging => exact Option.some.inj hinterrupt ▸ hended hagrees
  | finishing => exact Option.some.inj hinterrupt ▸ hended hagrees
  | closing => exact Option.some.inj hinterrupt ▸ hended hagrees

/-- A method that has found the lock free and has made its checks. -/
theorem take_worldOk (h : WorldOk P w) {call : Except String Call}
    (hcall : ∀ next, call = .ok next → Waits P w.native next ∧ next.settle w.live = w.live)
    (htake : w.take call = some w') : WorldOk P w' := by
  unfold World.take at htake
  split at htake
  · cases htake
  · next hfree =>
    have hfree : w.call = none := Option.not_isSome_iff_eq_none.mp hfree
    split at htake
    · exact Option.some.inj htake ▸ h
    · next next =>
      obtain ⟨hwaits, hsettle⟩ := hcall next rfl
      obtain rfl := Option.some.inj htake
      have hagrees := h.agrees
      rw [World.view, hfree, Option.elim_none] at hagrees
      exact .called (hsettle.symm ▸ hagrees) hwaits h.abandoned

theorem startAdd_waits {batchSize : Nat} {requests : List GenerationAdd}
    (h : startAdd batchSize w requests = .ok call) : call = .adding requests false := by
  unfold startAdd at h
  split at h
  · cases h
  · split at h
    · cases h
    · exact (Except.ok.inj h).symm

theorem select_length {live : List NativeGenerationEntry} {requests : List GenerationStep} :
    ∀ {index : Nat} {selected all : List NativeGenerationEntry},
      select live index selected requests = .ok all →
        all.length = selected.length + requests.length := by
  induction requests with
  | nil =>
    intro index selected all h
    rw [← Except.ok.inj h]
    rfl
  | cons request requests ih =>
    intro index selected all h
    rw [select] at h
    split at h
    · cases h
    · split at h
      · cases h
      · split at h
        · cases h
        · cases h
        · rw [ih h, length_append, length_singleton, length_cons, Nat.add_assoc,
            Nat.add_comm 1]

theorem startStep_waits {batchSize : Nat} {requests : List GenerationStep}
    (h : startStep batchSize w requests = .ok call) :
    ∃ selected, call = .stepping selected requests false ∧ selected.length = requests.length := by
  unfold startStep at h
  split at h
  · cases h
  · split at h
    · cases h
    · obtain ⟨selected, hselect, rfl⟩ := map_ok.mp h
      refine ⟨selected, rfl, ?_⟩
      rw [select_length hselect, length_nil, Nat.zero_add]

/-- Every step keeps the list in agreement with the session, but for an interruption between
the success of `finish` or `close` and the update of the list. -/
theorem perform_worldOk (h : WorldOk P w) {event : Event}
    (hsettled : ¬ (event = .interrupt ∧ w.Unsettled)) (hperform : w.perform P event = some w') :
    WorldOk P w' := by
  cases event with
  | add requests =>
    refine take_worldOk h (fun next hnext => ?_) hperform
    rw [startAdd_waits hnext]
    exact ⟨.free rfl nofun nofun, rfl⟩
  | step requests =>
    refine take_worldOk h (fun next hnext => ?_) hperform
    obtain ⟨selected, rfl, hlen⟩ := startStep_waits hnext
    refine ⟨⟨nofun, fun _ _ _ heq => ?_, nofun⟩, rfl⟩
    obtain ⟨rfl, rfl, -⟩ := Call.stepping.inj heq
    exact hlen
  | finish seq =>
    rw [World.perform] at hperform
    split at hperform
    · cases hperform
    · next hfree =>
      have hfree : w.call = none := Option.not_isSome_iff_eq_none.mp hfree
      split at hperform
      · obtain rfl := Option.some.inj hperform
        have hagrees := h.agrees
        rw [World.view, hfree, Option.elim_none] at hagrees
        exact .called hagrees (.free rfl nofun nofun) h.abandoned
      · exact Option.some.inj hperform ▸ h
  | close =>
    have htake : w.take (.ok .closing) = some w' := hperform
    refine take_worldOk h (fun next hnext => ?_) htake
    obtain rfl := Except.ok.inj hnext
    exact ⟨.free rfl nofun nofun, rfl⟩
  | advance =>
    obtain ⟨call, hcall, hadvance⟩ := Option.bind_eq_some_iff.mp hperform
    exact advance_worldOk h hcall hadvance
  | proceed outcome =>
    have hgoOn : w.goOn P (.proceed outcome) = some w' := hperform
    have hpassive : (SessionEvent.proceed outcome).Passive := trivial
    exact goOn_worldOk h hpassive (fun call native reply hcall hstarted hnative =>
      (h.waits call hcall).heard h.agrees.invariant hstarted hnative) hgoOn
  | late index =>
    obtain ⟨event, hevent, hlate⟩ := Option.bind_eq_some_iff.mp hperform
    split at hlate
    · cases hlate
    · next hidle =>
      have hidle : w.native.operation = none := Option.not_isSome_iff_eq_none.mp hidle
      have herased : WorldOk P { w with abandoned := w.abandoned.eraseIdx index } :=
        ⟨h.agrees, h.waits, fun event hmem => h.abandoned event (mem_of_mem_eraseIdx hmem)⟩
      refine goOn_worldOk herased (h.abandoned event (mem_of_getElem? hevent))
        (fun call native reply hcall hstarted _ => ?_) hlate
      obtain ⟨operation, hop, _⟩ := (h.waits call hcall).started hstarted
      exact absurd (hidle.symm.trans hop) nofun
  | reserve sequenceCount =>
    have hgoOn : w.goOn P (.reserve sequenceCount) = some w' := hperform
    have hpassive : (SessionEvent.reserve sequenceCount).Passive := trivial
    refine goOn_worldOk h hpassive (fun call native reply hcall hstarted hnative => ?_) hgoOn
    have hstays := (h.waits call hcall).started hstarted
    rw [InferenceSession.perform] at hnative
    split at hnative
    · obtain ⟨rfl, rfl⟩ := Prod.mk.inj (Option.some.inj hnative)
      exact ⟨fun _ => hstays, by rintro _ ⟨⟩⟩
    · obtain ⟨rfl, rfl⟩ := Prod.mk.inj (Option.some.inj hnative)
      exact ⟨fun _ => hstays, by rintro _ ⟨⟩⟩
  | interrupt =>
    obtain ⟨call, hcall, hinterrupt⟩ := Option.bind_eq_some_iff.mp hperform
    exact interrupt_worldOk h hcall (fun hunsettled => hsettled ⟨rfl, hunsettled⟩) hinterrupt

theorem new_worldOk (id : Nat) (ids : InferenceIds) : WorldOk P (.new id ids) where
  agrees := by
    refine ⟨new_invariant id ids, nofun, .nil, fun id' => ?_, nofun, fun _ => rfl, nofun⟩
    rw [settled_none rfl]
    change none = ((∅ : LiveSequences Nat).lookup id').map _
    rw [AList.lookup_empty]
    rfl
  waits := nofun
  abandoned := fun _ h => absurd h not_mem_nil

theorem settledGeneration_worldOk (h : (settledGeneration P).Reachable w) : WorldOk P w := by
  refine System.invariant (S := settledGeneration P) ?_ ?_ h
  · rintro _ ⟨id, ids, rfl⟩
    exact new_worldOk id ids
  · rintro w w' hok ⟨event, hperform, hsettled⟩
    exact perform_worldOk hok hsettled hperform

/-! ## What the list is told -/

/-- Only the step behind a successful native call changes the list. -/
theorem perform_live {event : Event} (hperform : w.perform P event = some w') :
    w'.live = w.live ∨ event = .advance ∧
      ((∃ update result pages, w.call = some (.acknowledged update result pages)) ∨
        w.Unsettled) := by
  have hdeliver : ∀ (w : World) call reply, (deliver w call reply).live = w.live := by
    intro w call reply
    unfold deliver
    split
    · rfl
    · split <;> rfl
    · rfl
  have hgoOn : ∀ (w : World) event, w.goOn P event = some w' → w'.live = w.live := by
    intro w event hgoOn
    obtain ⟨⟨native, reply⟩, -, rfl⟩ := Option.map_eq_some_iff.mp hgoOn
    dsimp only
    split
    · split
      · exact hdeliver _ _ _
      · rfl
    · rfl
  have htake : ∀ call, w.take call = some w' → w'.live = w.live := by
    intro call htake
    unfold World.take at htake
    split at htake
    · cases htake
    · split at htake <;> exact Option.some.inj htake ▸ rfl
  cases event with
  | add requests => exact .inl (htake _ hperform)
  | step requests => exact .inl (htake _ hperform)
  | close => exact .inl (htake (.ok .closing) hperform)
  | finish seq =>
    rw [World.perform] at hperform
    split at hperform
    · cases hperform
    · split at hperform <;> exact .inl (Option.some.inj hperform ▸ rfl)
  | proceed outcome => exact .inl (hgoOn w (.proceed outcome) hperform)
  | reserve sequenceCount => exact .inl (hgoOn w (.reserve sequenceCount) hperform)
  | late index =>
    obtain ⟨event, -, hlate⟩ := Option.bind_eq_some_iff.mp hperform
    split at hlate
    · cases hlate
    · exact .inl (hgoOn { w with abandoned := w.abandoned.eraseIdx index } event hlate)
  | interrupt =>
    obtain ⟨call, -, hinterrupt⟩ := Option.bind_eq_some_iff.mp hperform
    unfold interrupt at hinterrupt
    split at hinterrupt
    · cases hinterrupt
    · exact .inl (Option.some.inj hinterrupt ▸ rfl)
  | advance =>
    obtain ⟨call, hcall, hadvance⟩ := Option.bind_eq_some_iff.mp hperform
    have hstart : ∀ event, (w.native.perform P event).map (fun (native, reply) =>
        deliver { w with native, call := some call.start } call.start reply) = some w' →
        w'.live = w.live := by
      intro event hstart
      obtain ⟨⟨native, reply⟩, -, rfl⟩ := Option.map_eq_some_iff.mp hstart
      exact hdeliver _ _ _
    cases call with
    | adding requests started =>
      cases started with
      | true => cases hadvance
      | false => exact .inl (hstart _ hadvance)
    | stepping selected requests started =>
      cases started with
      | true => cases hadvance
      | false => exact .inl (hstart _ hadvance)
    | acknowledging update result pages =>
      rw [advance] at hadvance
      obtain ⟨⟨native, reply⟩, -, rfl⟩ := Option.map_eq_some_iff.mp hadvance
      dsimp only
      split <;> exact .inl rfl
    | acknowledged update result pages => exact .inr ⟨rfl, .inl ⟨_, _, _, hcall⟩⟩
    | finishing id =>
      rw [advance] at hadvance
      obtain ⟨⟨native, reply⟩, -, rfl⟩ := Option.map_eq_some_iff.mp hadvance
      dsimp only
      split <;> exact .inl rfl
    | finished id =>
      refine .inr ⟨rfl, .inr ?_⟩
      rw [World.Unsettled, hcall]
      trivial
    | closing =>
      rw [advance] at hadvance
      obtain ⟨⟨native, reply⟩, -, rfl⟩ := Option.map_eq_some_iff.mp hadvance
      dsimp only
      split <;> exact .inl rfl
    | closed =>
      refine .inr ⟨rfl, .inr ?_⟩
      rw [World.Unsettled, hcall]
      trivial

end Steps

/-! ## Retries -/

/-- The events of a run, one after the other. -/
def World.run (P : InferencePrograms) : World → List Event → Option World
  | w, [] => some w
  | w, event :: events => (w.perform P event).bind fun w' => run P w' events

/-- The same call issued again obtains the pages of the pending receipt. -/
structure Retry (P : InferencePrograms) (w : World) (receipt : Receipt) : Prop where
  add : ∀ requests entries, w.call = none →
    addEntries P.tokenDtype (nativeAdd requests) = .ok entries →
    addIdentity entries = receipt.request →
    w.perform P (.add requests) = some { w with call := some (.adding requests false) }
  step : ∀ requests : List GenerationStep, w.call = none →
    RoundRequest.identity (requests.map fun request => (request.seq, request.sampling)) =
      receipt.request →
    ∃ selected, selected.map (·.id) = requests.map (·.seq) ∧
      w.perform P (.step requests) = some { w with call := some (.stepping selected requests false) }
  /-- Once the operation lock is free, a call that waits for it is answered. -/
  answered : ∀ call outcome, w.call = some call → call.started = false →
    w.native.operation = none → call.Asks P receipt.request → ∃ update,
      w.run P [.advance, .proceed outcome] = some { w with
        call := some (.acknowledging update (receipt.result true) receipt.pages) }

section Retries

variable {P : InferencePrograms} {w : World} {native : InferenceSession} {receipt : Receipt}
  {entries : List NativeGenerationEntry} {acknowledged : List TokenPage}

/-- The sequences of a session have distinct slots. -/
theorem live_length_le {receipts : List Receipt} {unpublished : List (Nat × List Token)}
    {sequences : LiveSequences Nat} (h : LiveOk P receipts unpublished sequences) {ids : List Nat}
    (hnodup : ids.Nodup) (hlive : ∀ id ∈ ids, ∃ s, sequences.lookup id = some s) :
    ids.length ≤ P.batchSize := by
  let slot id := (sequences.lookup id).elim 0 (·.slot)
  have hslot : ∀ {id s}, sequences.lookup id = some s → slot id = s.slot := fun hs => by
    simp only [slot, hs, Option.elim_some]
  have hslots : (ids.map slot).Nodup := by
    refine hnodup.map_on fun id hid id' hid' heq => ?_
    obtain ⟨s, hs⟩ := hlive id hid
    obtain ⟨s', hs'⟩ := hlive id' hid'
    exact h.slot_inj id s id' s' hs hs' ((hslot hs).symm.trans (heq.trans (hslot hs')))
  have hlt : ids.map slot ⊆ List.range P.batchSize := by
    intro _ hmem
    obtain ⟨id, hid, rfl⟩ := mem_map.mp hmem
    obtain ⟨s, hs⟩ := hlive id hid
    exact mem_range.mpr (hslot hs ▸ h.slot_lt id s hs)
  have hle := (subperm_of_subset hslots hlt).length_le
  rwa [length_map, length_range] at hle

theorem Agrees.live (h : Agrees P native entries acknowledged) {id : Nat}
    (hid : id ∈ entries.map (·.id)) : ∃ s, native.state.sequences.lookup id = some s := by
  refine Option.ne_none_iff_exists'.mp fun hnone => ?_
  have hlisted : settled native.state id ≠ none := fun hsettled =>
    lookup_eq_none.mp ((h.listed id).trans hsettled) hid
  cases hreceipt : native.state.receipt with
  | none =>
    rw [settled_none hreceipt, hnone] at hlisted
    exact hlisted rfl
  | some receipt =>
    by_cases hpage : id ∈ receipt.pages.map (·.sequenceId)
    · obtain ⟨page, hmem, rfl⟩ := mem_map.mp hpage
      have hstop := (h.pending receipt hreceipt).stops page hmem
      rw [hnone] at hstop
      cases hstop
    · rw [settled_other hreceipt hpage, hnone] at hlisted
      exact hlisted rfl

/-- A step selects listed sequences that go on. -/
theorem select_total {live : List NativeGenerationEntry} {requests : List GenerationStep} :
    ∀ {index : Nat} {selected : List NativeGenerationEntry},
      (selected.map (·.id) ++ requests.map (·.seq)).Nodup →
      (∀ request ∈ requests, lookup live request.seq = some none) →
      ∃ all, select live index selected requests = .ok all ∧
        all.map (·.id) = selected.map (·.id) ++ requests.map (·.seq) := by
  induction requests with
  | nil =>
    intro index selected _ _
    exact ⟨selected, rfl, (append_nil _).symm⟩
  | cons request requests ih =>
    intro index selected hnodup hlive
    obtain ⟨entry, hfind, hterminal⟩ := Option.map_eq_some_iff.mp
      (hlive request mem_cons_self)
    have hid : entry.id = request.seq := find_id hfind
    have hnew : selected.contains entry ≠ true := fun hold =>
      (nodup_append'.mp hnodup).2.2 (mem_map_of_mem (contains_iff_mem.mp hold))
        (hid ▸ mem_cons_self)
    have hids : (selected ++ [entry]).map (·.id) ++ requests.map (·.seq) =
        selected.map (·.id) ++ (request :: requests).map (·.seq) := by
      rw [map_append, append_assoc, map_singleton, hid]
      rfl
    obtain ⟨all, hall, hmap⟩ := @ih (index + 1) (selected ++ [entry]) (hids ▸ hnodup)
      fun request' hmem => hlive request' (mem_cons_of_mem _ hmem)
    refine ⟨all, ?_, hmap.trans hids⟩
    rw [select, hfind]
    dsimp only
    rw [if_neg hnew, hterminal]
    exact hall

/-- The session takes the call and answers it with the pending receipt. -/
theorem answered_run {call next : Call} {awaiting : InferenceSession} {outcome : Outcome}
    {result : NativeInferenceRoundResult}
    (hadvance : w.perform P .advance = some { w with native := awaiting, call := some call.start })
    (hstarted : call.start.started = true)
    (hanswer : awaiting.perform P (.proceed outcome) = some (w.native, some (.ok (some result))))
    (hreceive : call.start.receive result = .ok next) :
    w.run P [.advance, .proceed outcome] = some { w with call := some next } := by
  rw [World.run, hadvance, Option.bind_some, World.run, World.perform, World.goOn, hanswer,
    Option.map_some]
  dsimp only
  rw [if_pos hstarted, deliver, hreceive]
  rfl

theorem WorldOk.retry (h : WorldOk P w) (hreceipt : w.native.state.receipt = some receipt) :
    Retry P w receipt := by
  have hpending := h.agrees.pending receipt hreceipt
  have hfits := hpending.fits
  have hretried := h.agrees.invariant.retried hreceipt
  refine ⟨fun requests entries hfree hentries hrequest => ?_, fun requests hfree hrequest => ?_,
    fun call outcome hcall hstarted hidle hasks => ?_⟩
  · have hagrees := h.agrees
    rw [World.view, hfree, Option.elim_none] at hagrees
    obtain ⟨hne, hlen⟩ := addEntries_length hentries
    have hrequests : requests.length = entries.length := by
      rw [hlen, nativeAdd, length_map]
    have hpages : receipt.pages.length = requests.length := by
      unfold Receipt.Fits at hfits
      rw [← hrequest] at hfits
      rw [hrequests, hfits, length_map]
    have hdisjoint : ∀ id ∈ w.live.map (·.id), id ∉ receipt.pages.map (·.sequenceId) := by
      intro id hid hpage
      have hlisted := hagrees.listed id
      rw [settled_page hreceipt hpage, ← hrequest] at hlisted
      exact lookup_eq_none.mp hlisted hid
    -- the lanes of the pending admission are taken in the session
    have hnodup : (w.live.map (·.id) ++ receipt.pages.map (·.sequenceId)).Nodup :=
      nodup_append'.mpr ⟨hagrees.nodup, hpending.once, hdisjoint⟩
    have hroom := live_length_le h.agrees.invariant.live hnodup
      fun id hid => (mem_append.mp hid).elim hagrees.live hpending.live
    rw [length_append, length_map, length_map, hpages] at hroom
    have hnonempty : requests.length ≠ 0 := fun hzero => hne (by
      rw [nativeAdd, eq_nil_of_length_eq_zero hzero]
      rfl)
    have hstart : startAdd P.batchSize w requests = .ok (.adding requests false) := by
      rw [startAdd, if_neg hnonempty, if_neg (Nat.not_lt_of_le hroom)]
    rw [World.perform, hstart, World.take, hfree]
    rfl
  · have hagrees := h.agrees
    rw [World.view, hfree, Option.elim_none] at hagrees
    have hids : requests.map (·.seq) = receipt.pages.map (·.sequenceId) := by
      unfold Receipt.Fits at hfits
      rw [← hrequest] at hfits
      refine Eq.trans ?_ hfits.symm
      rw [map_map, map_map]
      rfl
    have hgoing : ∀ request ∈ requests, lookup w.live request.seq = some none := by
      intro request hmem
      have hpage : request.seq ∈ receipt.pages.map (·.sequenceId) := hids ▸ mem_map_of_mem hmem
      rw [hagrees.listed, settled_page hreceipt hpage, ← hrequest]
      rfl
    have honce : (requests.map (·.seq)).Nodup := hids ▸ hpending.once
    obtain ⟨selected, hselect, hselected⟩ := @select_total w.live requests 0 [] honce hgoing
    have hroom := live_length_le h.agrees.invariant.live honce fun id hid => hpending.live (hids ▸ hid)
    rw [length_map] at hroom
    have hnonempty : requests.length ≠ 0 := by
      intro hzero
      obtain ⟨lanes, hlanes⟩ := h.agrees.invariant.pending.selectable receipt hreceipt _ hrequest
      refine (selectLanes_ok.mp hlanes).1 ?_
      rw [eq_nil_of_length_eq_zero hzero]
      rfl
    refine ⟨selected, hselected, ?_⟩
    have hstart : startStep P.batchSize w requests = .ok (.stepping selected requests false) := by
      rw [startStep, if_neg hnonempty, if_neg (Nat.not_lt_of_le hroom), hselect]
      rfl
    rw [World.perform, hstart, World.take, hfree]
    rfl
  · have hreleased : { w.native with operation := none } = w.native := by
      rw [← hidle]
    have hback : ∀ reply : Option SessionReply,
        some (({ w.native with operation := none } : InferenceSession), reply) =
          some (w.native, reply) := fun _ => by rw [hreleased]
    have hasks' := Call.start_asks hasks
    cases call with
    | adding requests started =>
      obtain ⟨update, hreceive, -⟩ := Call.receive_pending rfl hasks' hpending true
      obtain ⟨entries, hentries, hrequest⟩ := hasks
      have htaken := hretried.addCall (nativeAdd requests) entries hidle hentries
      have hanswer := ((perform_ok h.agrees.invariant htaken).invariant.retried hreceipt).add
        entries outcome rfl
      rw [if_pos hrequest] at hanswer
      refine ⟨update, answered_run ?_ rfl (hanswer.trans (hback _)) hreceive⟩
      rw [World.perform, hcall, Option.bind_some]
      cases hstarted
      change (w.native.perform P (.addCall (nativeAdd requests))).map _ = _
      rw [htaken]
      rfl
    | stepping selected requests started =>
      obtain ⟨update, hreceive, -⟩ := Call.receive_pending rfl hasks' hpending true
      obtain ⟨hlen, hrequest⟩ := hasks
      have hrequested : RoundRequest.identity (((selected.map fun entry =>
          (⟨w.native.id, entry.id⟩ : NativeInferenceSequence)).map (·.sequenceId)).zip
            (requests.map (·.sampling))) = receipt.request := by
        rw [← hrequest, map_map]
        rfl
      obtain ⟨lanes, htaken⟩ := hretried.roundCall
        (selected.map fun entry => ⟨w.native.id, entry.id⟩) (requests.map (·.sampling)) hidle
        (by rw [length_map, length_map, hlen])
        (fun handle hhandle => by
          obtain ⟨entry, -, rfl⟩ := mem_map.mp hhandle
          rfl)
        hrequested
      have hanswer := ((perform_ok h.agrees.invariant htaken).invariant.retried hreceipt).round
        _ _ outcome rfl
      rw [if_pos hrequested] at hanswer
      refine ⟨update, answered_run ?_ rfl (hanswer.trans (hback _)) hreceive⟩
      rw [World.perform, hcall, Option.bind_some]
      cases hstarted
      change (w.native.perform P (.roundCall _ _)).map _ = _
      rw [htaken]
      rfl
    | acknowledging => exact hasks.elim
    | acknowledged => exact hasks.elim
    | finishing => exact hasks.elim
    | finished => exact hasks.elim
    | closing => exact hasks.elim
    | closed => exact hasks.elim

end Retries

/-! ## Runs -/

/-- What holds of the driver and of its next step. -/
structure GenerationOk (P : InferencePrograms) (w : World) : Prop where
  /-- With no call and no receipt the list holds the live sequences with their stop reasons. -/
  agrees : w.call = none → w.native.state.receipt = none → (w.live.map (·.id)).Nodup ∧
    ∀ id, lookup w.live id = (w.native.state.sequences.lookup id).map (·.terminal)
  stopped : w.call = none → ∀ id terminal, lookup w.live id = some terminal →
    (lastPage w.acknowledged id).map (·.stopReason) = some terminal
  /-- Until its acknowledgement has succeeded a call changes nothing of the list. -/
  unchanged : ∀ event w', w.perform P event = some w' → w'.live = w.live ∨ event = .advance ∧
    ((∃ update result pages, w.call = some (.acknowledged update result pages)) ∨ w.Unsettled)
  retry : ∀ receipt, w.native.state.receipt = some receipt → Retry P w receipt
  /-- A call with its pages acknowledges them and ends. -/
  acknowledges : ∀ update result pages, w.call = some (.acknowledging update result pages) →
    ∃ receipt, w.native.state.receipt = some receipt ∧ pages = receipt.pages ∧
      w.run P [.advance, .advance] = some { w with
        live := update.apply w.live pages
        native := { w.native with state := { w.native.state with receipt := none } }
        call := none
        acknowledged := w.acknowledged ++ pages }
  /-- The acknowledged pages are those of all receipts but a pending one. -/
  pages : w.native.state.closed = false → publishedPages w.native.receipts =
    w.acknowledged ++ w.native.state.receipt.elim [] (·.pages)
  /-- A session that closes drops its pending receipt. -/
  dropped : w.native.state.closed = true → w.native.state.sequences = ∅ ∧
    (w.acknowledged = publishedPages w.native.receipts ∨
      w.acknowledged = publishedPages w.native.receipts.dropLast)
  history : w.native.state.receipt = none → ∀ id s,
    w.native.state.sequences.lookup id = some s → ∃ receipt ∈ w.native.receipts, ∃ entry,
      AdmittedBy receipt entry id ∧ s.history = entry.prompt ++ tokensOf id w.acknowledged

section Runs

variable {P : InferencePrograms} {w : World}

theorem Agrees.acknowledged_pages {native : InferenceSession} {entries : List NativeGenerationEntry}
    {acknowledged : List TokenPage} (h : Agrees P native entries acknowledged)
    (hopen : native.state.closed = false) :
    publishedPages native.receipts =
      acknowledged ++ (native.state.receipt.elim [] (·.pages)) := by
  rw [h.opened hopen, settledPages]
  cases hreceipt : native.state.receipt with
  | none => exact (append_nil _).symm
  | some receipt =>
    have hlast := h.invariant.pending.last receipt hreceipt
    conv_lhs => rw [← dropLast_append_getLast? receipt hlast, publishedPages_append]
    rfl

/-- In every run, with native calls that fail and calls that are interrupted anywhere but between
the success of `finish` or `close` and the update of the list, the list and the session agree. -/
theorem generation_settled (h : (settledGeneration P).Reachable w) : GenerationOk P w := by
  have hok := settledGeneration_worldOk h
  have hagrees := hok.agrees
  have hview : w.call = none → w.view = w.live := fun hfree => by
    rw [World.view, hfree, Option.elim_none]
  refine ⟨fun hfree hnone => ?_, fun hfree id terminal hid => ?_, fun event w' => perform_live,
    fun receipt => hok.retry, fun update result pages hcall => ?_, hagrees.acknowledged_pages,
    fun hclosed => ⟨(hagrees.invariant.closed hclosed).1, hagrees.closed hclosed⟩,
    fun hnone id s hs => ?_⟩
  · rw [hview hfree] at hagrees
    exact ⟨hagrees.nodup, fun id => (hagrees.listed id).trans (settled_none hnone id)⟩
  · rw [hview hfree] at hagrees
    exact hagrees.stopped id terminal hid
  · obtain ⟨receipt, hreceipt, hround, hpages, rfl, -⟩ :=
      (hok.waits _ hcall).acknowledging _ _ _ rfl
    have hperform : w.native.perform P (.acknowledge result.roundId) =
        some ({ w.native with state := { w.native.state with receipt := none } },
          some (.ok none)) := by
      rw [hround]
      exact congrArg some (acknowledge_pending hreceipt)
    refine ⟨receipt, hreceipt, rfl, ?_⟩
    rw [World.run, World.perform, hcall, Option.bind_some, advance, hperform, ← hpages]
    rfl
  · have hopen : w.native.state.closed = false := Bool.eq_false_iff.mpr fun hclosed => by
      rw [(hagrees.invariant.closed hclosed).1, AList.lookup_empty] at hs
      cases hs
    have hledger := hagrees.acknowledged_pages hopen
    rw [hnone, Option.elim_none, append_nil] at hledger
    obtain ⟨receipt, hmem, entry, hadmitted, hhistory, -⟩ :=
      (hagrees.invariant.live.published id s hs).admitted
    rw [hagrees.invariant.live.keyed id s hs, hledger] at hhistory
    rw [hagrees.invariant.live.keyed id s hs] at hadmitted
    exact ⟨receipt, hmem, entry, hadmitted, hhistory⟩

theorem run_settled {events : List Event} {w' : World} (h : (settledGeneration P).Reachable w)
    (hevents : ∀ event ∈ events, event ≠ .interrupt) (hrun : w.run P events = some w') :
    (settledGeneration P).Reachable w' := by
  induction events generalizing w with
  | nil => exact Option.some.inj hrun ▸ h
  | cons event events ih =>
    obtain ⟨next, hperform, hrest⟩ := Option.bind_eq_some_iff.mp hrun
    exact ih (.step h ⟨event, hperform, fun hinterrupt =>
      hevents event mem_cons_self hinterrupt.1⟩)
        (fun event hmem => hevents event (mem_cons_of_mem _ hmem)) hrest

theorem run_reachable {events : List Event} {w' : World} (h : (generation P).Reachable w)
    (hrun : w.run P events = some w') : (generation P).Reachable w' := by
  induction events generalizing w with
  | nil => exact Option.some.inj hrun ▸ h
  | cons event events ih =>
    obtain ⟨next, hperform, hrest⟩ := Option.bind_eq_some_iff.mp hrun
    exact ih (.step h ⟨event, hperform⟩) hrest

/-- One sequence is added and acknowledged. -/
def admissionEvents : List Event :=
  [.add [{
      prompt := ⟨.u32, [1, 2], [5, 6]⟩
      sampling := ⟨⟨0⟩, 0, ⟨0x3ff0000000000000⟩, 0⟩
      maxTokens := some 3
      eosTokens := [2] }],
    .advance, .proceed .next, .proceed .next, .proceed .next, .proceed (.tokens [5]),
    .proceed .next, .advance, .advance]

/-- A round that fails, and the round that follows it. -/
def roundEvents : List Event :=
  [.step [⟨1, ⟨none, none, none, none⟩⟩], .advance, .proceed .next, .proceed .next,
    .proceed (.failed "verify" "cancelled"),
    .step [⟨1, ⟨none, none, none, none⟩⟩], .advance, .proceed .next, .proceed .next,
    .proceed (.pages [[6, 5, 6]]), .proceed .next, .advance, .advance]

theorem generation_settled_round : ∃ w,
    (World.new 7 ⟨1, 1⟩).run lookupPrograms (admissionEvents ++ roundEvents) = some w ∧
      w.live = [⟨1, some .maxTokens⟩] ∧
      w.acknowledged = [⟨1, [5], none⟩, ⟨1, [6, 5], some .maxTokens⟩] ∧
      GenerationOk lookupPrograms w := by
  have hrun : ((World.new 7 ⟨1, 1⟩).run lookupPrograms (admissionEvents ++ roundEvents)).map
      (fun w => (w.live, w.acknowledged)) = some ([⟨1, some .maxTokens⟩],
        [⟨1, [5], none⟩, ⟨1, [6, 5], some .maxTokens⟩]) := by
    decide +kernel
  obtain ⟨w, hw, hvalues⟩ := Option.map_eq_some_iff.mp hrun
  obtain ⟨hlive, hacknowledged⟩ := Prod.mk.inj hvalues
  refine ⟨w, hw, hlive, hacknowledged,
    generation_settled (run_settled (.init ⟨7, _, rfl⟩) (fun event hmem => ?_) hw)⟩
  rintro rfl
  revert hmem
  simp [admissionEvents, roundEvents]

/-- A caller of `finish` is interrupted once the session has finished the sequence: the list
keeps a sequence that the session does not have. -/
theorem generation_interrupted : ∃ w, (generation lookupPrograms).Reachable w ∧ w.call = none ∧
    w.native.state.receipt = none ∧ lookup w.live 1 = some none ∧
      w.native.state.sequences.lookup 1 = none := by
  have hrun : ((World.new 7 ⟨1, 1⟩).run lookupPrograms
      (admissionEvents ++ [.finish 1, .advance, .interrupt])).map (fun w =>
        (w.call.isNone, w.native.state.receipt, lookup w.live 1,
          (w.native.state.sequences.lookup 1).isNone)) = some (true, none, some none, true) := by
    decide +kernel
  obtain ⟨w, hw, hvalues⟩ := Option.map_eq_some_iff.mp hrun
  obtain ⟨hfree, hrest⟩ := Prod.mk.inj hvalues
  obtain ⟨hreceipt, hrest⟩ := Prod.mk.inj hrest
  obtain ⟨hlive, hnative⟩ := Prod.mk.inj hrest
  exact ⟨w, run_reachable (.init ⟨7, _, rfl⟩) hw, Option.isNone_iff_eq_none.mp hfree, hreceipt,
    hlive, Option.isNone_iff_eq_none.mp hnative⟩

end Runs

end Generation

end EffectTorch
