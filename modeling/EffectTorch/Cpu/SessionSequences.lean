import EffectTorch.Cpu.Session

/-!
# The live sequences of a session

What the receipts of a session say of its live sequences: a sequence is the prompt of
its admission followed by the tokens of its pages.

Results:
1. `Published.terminal_iff`: when a sequence is terminal.
2. `LiveOk.commit`, `LiveOk.publish`, `LiveOk.admitted_all`: an execution, the pages of a round
   and the pages of an admission keep the sequences what the receipts say.
-/

namespace EffectTorch
open List Lib

/-! ## What receipts say -/

/-- The pages of a run, in the order of their publication. -/
def publishedPages (receipts : List Receipt) : List ReceiptPage := receipts.flatMap (·.pages)

/-- The sequences a receipt admits. -/
def Receipt.admitted (receipt : Receipt) : List Nat :=
  match receipt.request with
  | .add _ => receipt.pages.map (·.sequenceId)
  | .round _ => []

def admittedIds (receipts : List Receipt) : List Nat := receipts.flatMap (·.admitted)

/-- The entry of an admission that made a sequence. -/
def AdmittedBy (receipt : Receipt) (entry : AddRequestIdentity) (id : Nat) : Prop :=
  ∃ entries, ∃ (k : Nat) (page : ReceiptPage), receipt.request = .add entries ∧
    entries[k]? = some entry ∧ receipt.pages[k]? = some page ∧ page.sequenceId = id

def tokenBudget (maxTokens : UInt32) : Option Nat :=
  if maxTokens = 0 then none else some maxTokens.toNat

/-- A sequence is what the receipts made of it. -/
structure Published (receipts : List Receipt) (s : SessionSequence) : Prop where
  admitted : ∃ receipt ∈ receipts, ∃ entry, AdmittedBy receipt entry s.id ∧
    s.history = entry.prompt ++ tokensOf s.id (publishedPages receipts) ∧
    s.budget = tokenBudget entry.maxTokens ∧ s.eos = entry.eosTokens
  generated : s.generated = (tokensOf s.id (publishedPages receipts)).length
  pending : (tokensOf s.id (publishedPages receipts)).getLast? = some s.pending
  terminal : s.terminal = s.stopReason s.pending s.generated
  budget : ∀ budget, s.budget = some budget → s.generated ≤ budget

/-- The pages an execution has made and the session has not published. -/
def Operation.unpublished : Operation → List (Nat × List Token)
  | .roundExecuted request _ _ pages => (request.map (·.1)).zip pages
  | _ => []

def unpublished (operation : Option Operation) : List (Nat × List Token) :=
  operation.elim [] (·.unpublished)

/-- The native state holds a row for each token but the last, and for those of a page that
is not published. -/
structure NativeRows (entries : List (Nat × List Token)) (s : SessionSequence) : Prop where
  kept : ∀ entry ∈ entries, entry.1 = s.id → s.target + 1 = s.history.length + entry.2.length
  other : s.id ∉ entries.map (·.1) → s.target + 1 = s.history.length

/-- The live sequences fit the receipts and the unpublished pages. -/
structure LiveOk (P : InferencePrograms) (receipts : List Receipt)
    (entries : List (Nat × List Token)) (sequences : LiveSequences Nat) : Prop where
  keyed : Keyed sequences
  published : ∀ id s, sequences.lookup id = some s → Published receipts s
  rows : ∀ id s, sequences.lookup id = some s → NativeRows entries s
  slot_lt : ∀ id s, sequences.lookup id = some s → s.slot < P.batchSize
  slot_inj : ∀ id s id' s', sequences.lookup id = some s → sequences.lookup id' = some s' →
    s.slot = s'.slot → id = id'

/-- What a page may be: it advances a live sequence that goes on, within its budget. -/
structure PageOk (sequences : LiveSequences Nat) (entry : Nat × List Token) : Prop where
  live : ∃ s, sequences.lookup entry.1 = some s ∧ s.terminal = none ∧
    ∀ budget, s.budget = some budget → entry.2.length ≤ max (budget - s.generated) 1
  nonempty : entry.2 ≠ []

section Receipts

variable {P : InferencePrograms} {receipts : List Receipt} {receipt : Receipt}
  {s s' : SessionSequence}

theorem publishedPages_append (receipts : List Receipt) (receipt : Receipt) :
    publishedPages (receipts ++ [receipt]) = publishedPages receipts ++ receipt.pages := by
  simp [publishedPages]

theorem admittedIds_append (receipts : List Receipt) (receipt : Receipt) :
    admittedIds (receipts ++ [receipt]) = admittedIds receipts ++ receipt.admitted := by
  simp [admittedIds]

theorem mem_admittedIds {entry : AddRequestIdentity} {id : Nat} (hmem : receipt ∈ receipts)
    (h : AdmittedBy receipt entry id) : id ∈ admittedIds receipts := by
  obtain ⟨entries, k, page, hrequest, _, hpage, rfl⟩ := h
  refine mem_flatMap.mpr ⟨receipt, hmem, ?_⟩
  rw [Receipt.admitted, hrequest]
  exact mem_map_of_mem (mem_of_getElem? hpage)

theorem Published.mem_admittedIds (h : Published receipts s) : s.id ∈ admittedIds receipts := by
  obtain ⟨receipt, hmem, entry, hadmitted, _⟩ := h.admitted
  exact EffectTorch.mem_admittedIds hmem hadmitted

/-- A receipt without a page of a sequence says nothing new about it. -/
theorem Published.frame (h : Published receipts s) (hnone : tokensOf s.id receipt.pages = []) :
    Published (receipts ++ [receipt]) s := by
  obtain ⟨admission, hmem, entry, hentry⟩ := h.admitted
  have htokens : tokensOf s.id (publishedPages (receipts ++ [receipt])) =
      tokensOf s.id (publishedPages receipts) := by
    rw [publishedPages_append, tokensOf_append, hnone, append_nil]
  exact {
    admitted := ⟨admission, mem_append_left _ hmem, entry, by rw [htokens]; exact hentry⟩
    generated := by rw [htokens]; exact h.generated
    pending := by rw [htokens]; exact h.pending
    terminal := h.terminal
    budget := h.budget }

/-- Publishing a page keeps a sequence what its receipts made of it. -/
theorem Published.publish (h : Published receipts s) {tokens : List Token}
    (htokens : tokensOf s.id receipt.pages = tokens) (hpublish : s.publish tokens = some s')
    (hbudget : ∀ budget, s.budget = some budget → s.generated + tokens.length ≤ budget) :
    Published (receipts ++ [receipt]) s' := by
  obtain ⟨hid, _, _, hbudget', heos, _⟩ := publish_frame hpublish
  obtain ⟨hpending, hhistory, hgenerated, hterminal⟩ := publish_fields hpublish
  obtain ⟨admission, hmem, entry, hentry, hprompt, hmax, hstop⟩ := h.admitted
  have hall : tokensOf s'.id (publishedPages (receipts ++ [receipt])) =
      tokensOf s.id (publishedPages receipts) ++ tokens := by
    rw [hid, publishedPages_append, tokensOf_append, htokens]
  exact {
    admitted := ⟨admission, mem_append_left _ hmem, entry, hid ▸ hentry,
      by rw [hall, hhistory, hprompt, append_assoc], hbudget' ▸ hmax, heos ▸ hstop⟩
    generated := by rw [hall, length_append, hgenerated, h.generated]
    pending := by rw [hall, List.getLast?_append, hpending]; rfl
    terminal := hterminal
    budget := fun budget hb => by
      rw [hgenerated]
      exact hbudget budget (hbudget' ▸ hb) }

/-- A sequence that goes on has budget left. -/
theorem Published.lt_budget (h : Published receipts s) (hgoing : s.terminal = none) {budget : Nat}
    (hbudget : s.budget = some budget) : s.generated < budget := by
  rw [h.terminal] at hgoing
  unfold InferenceSequenceState.stopReason at hgoing
  split at hgoing
  · cases hgoing
  · rw [hbudget, Option.any_some] at hgoing
    split at hgoing
    · cases hgoing
    · next hnot => exact Nat.lt_of_not_le fun hle => hnot (decide_eq_true hle)

/-- When a sequence stops. -/
theorem Published.terminal_iff (h : Published receipts s) :
    s.terminal.isSome ↔ s.pending ∈ s.eos ∨ s.budget = some s.generated := by
  rw [h.terminal]
  unfold InferenceSequenceState.stopReason
  split
  · next hstop => exact ⟨fun _ => .inl hstop, fun _ => rfl⟩
  · next hstop =>
    cases hb : s.budget with
    | none => simp [hstop]
    | some budget =>
      have hle := h.budget budget hb
      rw [Option.any_some]
      by_cases hreached : budget ≤ s.generated
      · have heq : budget = s.generated := Nat.le_antisymm hreached hle
        simp [heq]
      · have hne : budget ≠ s.generated := fun heq => hreached (Nat.le_of_eq heq)
        simp [hreached, hstop, hne]

/-- A page that may be published does not pass the budget. -/
theorem PageOk.within {sequences : LiveSequences Nat} {entry : Nat × List Token}
    (h : PageOk sequences entry) (hs : sequences.lookup entry.1 = some s)
    (hp : Published receipts s) {budget : Nat} (hbudget : s.budget = some budget) :
    s.generated + entry.2.length ≤ budget := by
  obtain ⟨q, hq, hgoing, hlength⟩ := h.live
  obtain rfl := Option.some.inj (hq.symm.trans hs)
  have hlt := hp.lt_budget hgoing hbudget
  have hle := hlength budget hbudget
  rw [Nat.max_eq_left (Nat.sub_pos_of_lt hlt)] at hle
  exact Nat.add_comm _ _ ▸ Nat.add_le_of_le_sub (Nat.le_of_lt hlt) hle

end Receipts

section Live

variable {P : InferencePrograms} {receipts : List Receipt} {receipt : Receipt}
  {entries : List (Nat × List Token)} {sequences sequences' : LiveSequences Nat}

/-! ## The live sequences -/

/-- Sequences may leave. -/
theorem LiveOk.mono (h : LiveOk P receipts entries sequences)
    (hsub : ∀ id s, sequences'.lookup id = some s → sequences.lookup id = some s) :
    LiveOk P receipts entries sequences' where
  keyed id s hs := h.keyed id s (hsub id s hs)
  published id s hs := h.published id s (hsub id s hs)
  rows id s hs := h.rows id s (hsub id s hs)
  slot_lt id s hs := h.slot_lt id s (hsub id s hs)
  slot_inj id s id' s' hs hs' := h.slot_inj id s id' s' (hsub id s hs) (hsub id' s' hs')

theorem NativeRows.nil {s : SessionSequence} (h : s.target + 1 = s.history.length) :
    NativeRows [] s where
  kept _ hmem := absurd hmem not_mem_nil
  other _ := h

/-- Every sequence of a round has a page. -/
theorem exists_page {ids : List Nat} {pages : List (List Token)}
    (hlen : ids.length = pages.length) {id : Nat} (hid : id ∈ ids) :
    ∃ tokens, (id, tokens) ∈ ids.zip pages := by
  rw [← map_fst_zip (Nat.le_of_eq hlen)] at hid
  obtain ⟨⟨_, tokens⟩, hmem, rfl⟩ := mem_map.mp hid
  exact ⟨tokens, hmem⟩

/-- What an execution makes of the live sequences: each sequence of the round keeps a row
for each token of its page. -/
theorem commitTargets_round {request : RoundRequest} {lanes : List (RoundLane Nat)}
    {pages : List (List Token)} (hselect : selectLanes sequences request = .ok lanes)
    (hlen : pages.length = lanes.length) :
    (∀ id, id ∉ request.map (·.1) → (commitTargets sequences ((request.map (·.1)).zip
      (InferenceSession.roundCursors lanes pages))).lookup id = sequences.lookup id) ∧
      ∀ entry ∈ (request.map (·.1)).zip pages, ∃ s, sequences.lookup entry.1 = some s ∧
        (commitTargets sequences ((request.map (·.1)).zip
          (InferenceSession.roundCursors lanes pages))).lookup entry.1 =
            some (s.keep (s.target + entry.2.length)) := by
  obtain ⟨_, hnodup, hlen', hlanes⟩ := selectLanes_ok.mp hselect
  have hcursors : request.length = (InferenceSession.roundCursors lanes pages).length := by
    rw [InferenceSession.roundCursors, length_zipWith, hlen, Nat.min_self, hlen']
  have hkeys := zip_keys request hcursors
  obtain ⟨hother, hcommitted⟩ := commitTargets_spec sequences (hkeys.symm ▸ hnodup)
  rw [hkeys] at hother
  refine ⟨hother, fun ⟨id, tokens⟩ hmem => ?_⟩
  obtain ⟨k, hk⟩ := mem_iff_getElem?.mp hmem
  obtain ⟨hid, htokens⟩ := List.getElem?_zip_eq_some.mp hk
  rw [List.getElem?_map] at hid
  obtain ⟨entry, hentry, rfl⟩ := Option.map_eq_some_iff.mp hid
  obtain ⟨lane, hlane, hlookup, _⟩ := hlanes k entry hentry
  have hcursor : (InferenceSession.roundCursors lanes pages)[k]? =
      some (lane.sequence.target + tokens.length) :=
    List.getElem?_zipWith_eq_some.mpr ⟨lane, tokens, hlane, htokens, rfl⟩
  refine ⟨lane.sequence, hlookup, ?_⟩
  rw [hcommitted (entry.1, lane.sequence.target + tokens.length)
    (mem_of_getElem? (List.getElem?_zip_eq_some.mpr
      ⟨by rw [List.getElem?_map, hentry]; rfl, hcursor⟩)), hlookup]
  rfl

theorem Published.keep {s : SessionSequence} (h : Published receipts s) (target : Nat) :
    Published receipts (s.keep target) :=
  ⟨h.admitted, h.generated, h.pending, h.terminal, h.budget⟩

/-- An execution leaves the sequences of a session what its receipts made of them. -/
theorem LiveOk.commit {request : RoundRequest} {lanes : List (RoundLane Nat)}
    {pages : List (List Token)} (h : LiveOk P receipts [] sequences)
    (hselect : selectLanes sequences request = .ok lanes) (hlen : pages.length = lanes.length) :
    LiveOk P receipts ((request.map (·.1)).zip pages) (commitTargets sequences
      ((request.map (·.1)).zip (InferenceSession.roundCursors lanes pages))) := by
  obtain ⟨_, hnodup, hlen', _⟩ := selectLanes_ok.mp hselect
  obtain ⟨hother, hcommitted⟩ := commitTargets_round hselect hlen
  have hkeys := zip_keys request (hlen'.trans hlen.symm)
  have hrow : ∀ s : SessionSequence, NativeRows [] s → s.target + 1 = s.history.length :=
    fun s hs => hs.other not_mem_nil
  -- every sequence is one of before with another cursor
  have hold : ∀ id s', (commitTargets sequences ((request.map (·.1)).zip
      (InferenceSession.roundCursors lanes pages))).lookup id = some s' →
      ∃ s, sequences.lookup id = some s ∧ s' = s.keep s'.target ∧
        NativeRows ((request.map (·.1)).zip pages) s' := by
    intro id s' hs'
    by_cases hid : id ∈ request.map (·.1)
    · obtain ⟨tokens, hmem⟩ := exists_page (by rw [length_map, hlen', hlen]) hid
      obtain ⟨s, hs, hkept⟩ := hcommitted _ hmem
      obtain rfl := Option.some.inj (hkept.symm.trans hs')
      refine ⟨s, hs, rfl, ⟨fun entry hentry heq => ?_, fun hnot => ?_⟩⟩
      · have hsid : s.id = id := h.keyed id s hs
        have hsame : entry = (id, tokens) := by
          refine inj_on_of_nodup_map (by rw [hkeys]; exact hnodup) hentry hmem ?_
          exact heq.trans hsid
        rw [hsame]
        change s.target + tokens.length + 1 = s.history.length + tokens.length
        rw [Nat.add_right_comm, hrow s (h.rows id s hs)]
      · rw [hkeys] at hnot
        exact absurd ((h.keyed id s hs).symm ▸ hid) hnot
    · rw [hother id hid] at hs'
      refine ⟨s', hs', rfl, ⟨fun entry hentry heq => ?_, fun _ => hrow s' (h.rows id s' hs')⟩⟩
      refine absurd ?_ hid
      rw [← h.keyed id s' hs', ← heq, ← hkeys]
      exact mem_map_of_mem hentry
  exact {
    keyed := fun id s' hs' => by
      obtain ⟨s, hs, heq, _⟩ := hold id s' hs'
      rw [heq]
      exact h.keyed id s hs
    published := fun id s' hs' => by
      obtain ⟨s, hs, heq, _⟩ := hold id s' hs'
      rw [heq]
      exact (h.published id s hs).keep _
    rows := fun id s' hs' => (hold id s' hs').choose_spec.2.2
    slot_lt := fun id s' hs' => by
      obtain ⟨s, hs, heq, _⟩ := hold id s' hs'
      rw [heq]
      exact h.slot_lt id s hs
    slot_inj := fun id s' id' q' hs' hq' heq => by
      obtain ⟨s, hs, hs'', _⟩ := hold id s' hs'
      obtain ⟨q, hq, hq'', _⟩ := hold id' q' hq'
      rw [hs'', hq''] at heq
      exact h.slot_inj id s id' q hs hq heq }

/-- What the pages of a round say of its sequences. -/
theorem publishPages_pages {pages : List ReceiptPage} (hkeyed : Keyed sequences)
    (hnodup : (entries.map (·.1)).Nodup)
    (h : publishPages sequences entries = some (sequences', pages)) :
    List.Forall₂ (fun entry page => (page.sequenceId = entry.1 ∧ page.tokens = entry.2) ∧
      ∃ s', sequences'.lookup entry.1 = some s' ∧ page.stopReason = s'.terminal)
      entries pages := by
  obtain ⟨-, hentries, hpages⟩ := publishPages_spec hnodup h
  have himp : ∀ (entry : Nat × List Token) (page : ReceiptPage), entry ∈ entries →
      (∃ s', sequences'.lookup entry.1 = some s' ∧ page = ⟨s'.id, entry.2, s'.terminal⟩) →
      (page.sequenceId = entry.1 ∧ page.tokens = entry.2) ∧
        ∃ s', sequences'.lookup entry.1 = some s' ∧ page.stopReason = s'.terminal := by
    rintro entry page hmem ⟨s', hs', rfl⟩
    obtain ⟨s, q, hs, hpublish, hq⟩ := hentries entry hmem
    obtain rfl := Option.some.inj (hs'.symm.trans hq)
    exact ⟨⟨(publish_frame hpublish).1.trans (hkeyed _ s hs), rfl⟩, s', hs', rfl⟩
  clear h hnodup hentries
  induction hpages with
  | nil => exact .nil
  | cons hpage _ ih =>
    refine .cons (himp _ _ mem_cons_self hpage) (ih ?_)
    exact fun entry page hmem => himp entry page (mem_cons_of_mem _ hmem)

/-- Publishing the pages of a round keeps the sequences what the receipts made of them, now
with its receipt. -/
theorem LiveOk.publish {pages : List ReceiptPage} (h : LiveOk P receipts entries sequences)
    (hnodup : (entries.map (·.1)).Nodup) (hok : ∀ entry ∈ entries, PageOk sequences entry)
    (hpublish : publishPages sequences entries = some (sequences', pages))
    (hreceipt : receipt.pages = pages) :
    LiveOk P (receipts ++ [receipt]) [] sequences' := by
  obtain ⟨hother, hentries, _⟩ := publishPages_spec hnodup hpublish
  obtain ⟨hnone, htokens⟩ := tokensOf_pages hnodup
    ((publishPages_pages h.keyed hnodup hpublish).imp fun _ _ hpage => hpage.1)
  -- every sequence has the slot and the id of one of before
  have hold : ∀ id s', sequences'.lookup id = some s' →
      ∃ s, sequences.lookup id = some s ∧ s'.id = s.id ∧ s'.slot = s.slot ∧
        Published (receipts ++ [receipt]) s' ∧ NativeRows [] s' := by
    intro id s' hs'
    by_cases hid : id ∈ entries.map (·.1)
    · obtain ⟨entry, hentry, rfl⟩ := mem_map.mp hid
      obtain ⟨s, q, hs, hq, hq'⟩ := hentries entry hentry
      obtain rfl := Option.some.inj (hs'.symm.trans hq')
      obtain ⟨hsid, hslot, htarget, _⟩ := publish_frame hq
      have hkey : s.id = entry.1 := h.keyed _ s hs
      refine ⟨s, hs, hsid, hslot, (h.published _ s hs).publish ?_ hq
        fun budget hb => (hok entry hentry).within hs (h.published _ s hs) hb, .nil ?_⟩
      · rw [hreceipt, hkey]
        exact htokens entry hentry
      · rw [htarget, (h.rows _ s hs).kept entry hentry hkey.symm, (publish_fields hq).2.1,
          length_append]
    · rw [hother id hid] at hs'
      have hkey : s'.id = id := h.keyed _ s' hs'
      refine ⟨s', hs', rfl, rfl, (h.published _ s' hs').frame ?_,
        .nil ((h.rows _ s' hs').other (hkey.symm ▸ hid))⟩
      rw [hreceipt, hkey]
      exact hnone id hid
  exact {
    keyed := fun id s' hs' => by
      obtain ⟨s, hs, heq, _⟩ := hold id s' hs'
      rw [heq]
      exact h.keyed id s hs
    published := fun id s' hs' => (hold id s' hs').choose_spec.2.2.2.1
    rows := fun id s' hs' => (hold id s' hs').choose_spec.2.2.2.2
    slot_lt := fun id s' hs' => by
      obtain ⟨s, hs, _, heq, _⟩ := hold id s' hs'
      rw [heq]
      exact h.slot_lt id s hs
    slot_inj := fun id s' id' q' hs' hq' heq => by
      obtain ⟨s, hs, _, hs'', _⟩ := hold id s' hs'
      obtain ⟨q, hq, _, hq'', _⟩ := hold id' q' hq'
      rw [hs'', hq''] at heq
      exact h.slot_inj id s id' q hs hq heq }

end Live

/-! ## Admissions -/

/-- Slots an admission may use. -/
structure SlotsOk (P : InferencePrograms) (sequences : LiveSequences Nat) (slots : List Nat) :
    Prop where
  nodup : slots.Nodup
  lt : ∀ slot ∈ slots, slot < P.batchSize
  free : ∀ slot ∈ slots, ∀ id s, sequences.lookup id = some s → s.slot ≠ slot

theorem freeSlots_ok (P : InferencePrograms) (sequences : LiveSequences Nat) (count : Nat) :
    SlotsOk P sequences (InferenceSession.freeSlots P.batchSize sequences count) where
  nodup := ((take_sublist _ _).trans filter_sublist).nodup nodup_range
  lt slot h := mem_range.mp (mem_filter.mp (mem_of_mem_take h)).1
  free slot h id s hs heq := by
    have hall := all_eq_true.mp (mem_filter.mp (mem_of_mem_take h)).2
    have hne := hall ⟨id, s⟩ (AList.mem_lookup_iff.mp hs)
    rw [heq] at hne
    simp at hne

section Admit

open InferenceSession

variable {P : InferencePrograms} {entries : List AddEntry} {slots ids : List Nat}
  {tokens : List Token}

theorem admittedSequences_get {k : Nat} {s : SessionSequence} :
    (admittedSequences P entries slots ids tokens)[k]? = some s ↔
      ∃ entry slot id token, entries[k]? = some entry ∧ slots[k]? = some slot ∧
        ids[k]? = some id ∧ tokens[k]? = some token ∧
        admittedSequence P entry slot id token = s := by
  rw [admittedSequences, List.getElem?_map, Option.map_eq_some_iff]
  constructor
  · rintro ⟨⟨entry, slot, id, token⟩, hk, rfl⟩
    obtain ⟨hentry, hk⟩ := List.getElem?_zip_eq_some.mp hk
    obtain ⟨hslot, hk⟩ := List.getElem?_zip_eq_some.mp hk
    obtain ⟨hid, htoken⟩ := List.getElem?_zip_eq_some.mp hk
    exact ⟨entry, slot, id, token, hentry, hslot, hid, htoken, rfl⟩
  · rintro ⟨entry, slot, id, token, hentry, hslot, hid, htoken, rfl⟩
    exact ⟨(entry, slot, id, token), List.getElem?_zip_eq_some.mpr ⟨hentry,
      List.getElem?_zip_eq_some.mpr ⟨hslot, List.getElem?_zip_eq_some.mpr ⟨hid, htoken⟩⟩⟩, rfl⟩

theorem admittedSequences_ids (hslots : slots.length = entries.length)
    (hids : ids.length = entries.length) (htokens : tokens.length = entries.length) :
    (admittedSequences P entries slots ids tokens).map (·.id) = ids := by
  have hzip : (ids.zip tokens).map (·.1) = ids :=
    map_fst_zip (Nat.le_of_eq (hids.trans htokens.symm))
  have hlen : (ids.zip tokens).length = entries.length := by
    rw [length_zip, hids, htokens, Nat.min_self]
  have hzip' : (slots.zip (ids.zip tokens)).map (·.2) = ids.zip tokens :=
    map_snd_zip (Nat.le_of_eq (hlen.trans hslots.symm))
  have hlen' : (slots.zip (ids.zip tokens)).length = entries.length := by
    rw [length_zip, hlen, hslots, Nat.min_self]
  have hzip'' : (entries.zip (slots.zip (ids.zip tokens))).map (·.2) =
      slots.zip (ids.zip tokens) := map_snd_zip (Nat.le_of_eq hlen')
  calc (admittedSequences P entries slots ids tokens).map (·.id)
      = (((entries.zip (slots.zip (ids.zip tokens))).map (·.2)).map (·.2)).map (·.1) := by
        simp only [admittedSequences, map_map]
        rfl
    _ = ids := by rw [hzip'', hzip', hzip]

/-- What inserting the sequences of an admission makes of the live ones. -/
theorem insertAll_spec (admitted : List SessionSequence) (sequences : LiveSequences Nat)
    (hnodup : (admitted.map (·.id)).Nodup) :
    (∀ id, id ∉ admitted.map (·.id) → (admitted.foldl
      (fun sequences s => sequences.insert s.id s) sequences).lookup id = sequences.lookup id) ∧
      ∀ s ∈ admitted, (admitted.foldl
        (fun sequences s => sequences.insert s.id s) sequences).lookup s.id = some s := by
  induction admitted generalizing sequences with
  | nil => exact ⟨fun _ _ => rfl, fun _ h => absurd h not_mem_nil⟩
  | cons q admitted ih =>
    obtain ⟨hfresh, hrest⟩ := nodup_cons.mp hnodup
    obtain ⟨hother, hadmitted⟩ := ih (sequences.insert q.id q) hrest
    refine ⟨fun id hid => ?_, fun s hs => ?_⟩
    · obtain ⟨hne, hnot⟩ := not_or.mp (fun h => hid (mem_cons.mpr h))
      rw [foldl_cons, hother id hnot, AList.lookup_insert_ne hne]
    · rw [foldl_cons]
      rcases mem_cons.mp hs with rfl | hs
      · rw [hother _ hfresh, AList.lookup_insert]
      · exact hadmitted s hs

theorem tokensOf_nil {id : Nat} {pages : List ReceiptPage}
    (h : ∀ page ∈ pages, page.sequenceId ≠ id) : tokensOf id pages = [] := by
  rw [tokensOf, filter_eq_nil_iff.mpr]
  · rfl
  · intro page hmem heq
    exact h page hmem (eq_of_beq heq)

/-- The page of an admitted sequence. -/
def admissionPage (s : SessionSequence) : ReceiptPage := ⟨s.id, [s.pending], s.terminal⟩

theorem tokensOf_admission {admitted : List SessionSequence}
    (hnodup : (admitted.map (·.id)).Nodup) :
    (∀ id, id ∉ admitted.map (·.id) → tokensOf id (admitted.map admissionPage) = []) ∧
      ∀ s ∈ admitted, tokensOf s.id (admitted.map admissionPage) = [s.pending] := by
  have hkeys : (admitted.map fun s => (s.id, [s.pending])).map (·.1) = admitted.map (·.id) := by
    rw [map_map]
    rfl
  have hpages : List.Forall₂ (fun (entry : Nat × List Token) (page : ReceiptPage) =>
      page.sequenceId = entry.1 ∧ page.tokens = entry.2)
      (admitted.map fun s => (s.id, [s.pending])) (admitted.map admissionPage) := by
    rw [forall₂_map_left_iff, forall₂_map_right_iff]
    exact forall₂_same.mpr fun _ _ => ⟨rfl, rfl⟩
  obtain ⟨hnone, htokens⟩ := tokensOf_pages (hkeys ▸ hnodup) hpages
  rw [hkeys] at hnone
  exact ⟨hnone, fun s hs => htokens (s.id, [s.pending]) (mem_map_of_mem hs)⟩

/-- A new sequence stops as a published one does: its first token is a page. -/
theorem admittedSequence_terminal (P : InferencePrograms) (entry : AddEntry) (slot id : Nat)
    (token : Token) : (admittedSequence P entry slot id token).terminal =
      (admittedSequence P entry slot id token).stopReason token 1 := by
  have hmax : entry.maxTokens ≠ 0 → 1 ≤ entry.maxTokens.toNat := fun hne =>
    Nat.pos_of_ne_zero fun hzero => hne (UInt32.toNat_inj.mp hzero)
  unfold admittedSequence InferenceSequenceState.stopReason
  dsimp only
  by_cases hzero : entry.maxTokens = 0
  · simp [hzero]
  · have hpos := hmax hzero
    have hle : entry.maxTokens.toNat ≤ 1 ↔ entry.maxTokens.toNat = 1 :=
      ⟨fun h => Nat.le_antisymm h hpos, Nat.le_of_eq⟩
    simp [hzero, hle]

theorem admittedSequence_budget {entry : AddEntry} {slot id : Nat} {token : Token} {budget : Nat}
    (h : (admittedSequence P entry slot id token).budget = some budget) : 1 ≤ budget := by
  change (if entry.maxTokens = 0 then none else some entry.maxTokens.toNat) = some budget at h
  split at h
  · cases h
  · next hne =>
    obtain rfl := Option.some.inj h
    exact Nat.pos_of_ne_zero fun hzero => hne (UInt32.toNat_inj.mp hzero)

/-- Admitting sequences keeps the live ones what the receipts made of them. -/
theorem LiveOk.admitted_all {receipts : List Receipt} {receipt : Receipt}
    {sequences : LiveSequences Nat} (h : LiveOk P receipts [] sequences)
    (hpages : ∀ page ∈ publishedPages receipts, page.sequenceId ∈ admittedIds receipts)
    (hslots : SlotsOk P sequences slots) (hslotsLen : slots.length = entries.length)
    (hidsLen : ids.length = entries.length) (htokensLen : tokens.length = entries.length)
    (hnodup : ids.Nodup) (hfresh : ∀ id ∈ ids, id ∉ admittedIds receipts)
    (hrequest : receipt.request = addIdentity entries)
    (hreceipt : receipt.pages = (admittedSequences P entries slots ids tokens).map admissionPage) :
    LiveOk P (receipts ++ [receipt]) [] ((admittedSequences P entries slots ids tokens).foldl
      (fun sequences s => sequences.insert s.id s) sequences) := by
  have hids := admittedSequences_ids (P := P) hslotsLen hidsLen htokensLen
  obtain ⟨hother, hadmitted⟩ := insertAll_spec (admittedSequences P entries slots ids tokens)
    sequences (hids.symm ▸ hnodup)
  obtain ⟨hnone, htokens⟩ := tokensOf_admission
    (show ((admittedSequences P entries slots ids tokens).map (·.id)).Nodup from
      hids.symm ▸ hnodup)
  rw [hids] at hother hnone
  -- a live sequence is one of before or one of the admitted
  have hcases : ∀ id s, ((admittedSequences P entries slots ids tokens).foldl
      (fun sequences s => sequences.insert s.id s) sequences).lookup id = some s →
      (id ∉ ids ∧ sequences.lookup id = some s) ∨
        (s ∈ admittedSequences P entries slots ids tokens ∧ s.id = id) := by
    intro id s hs
    by_cases hid : id ∈ ids
    · rw [← hids] at hid
      obtain ⟨q, hq, rfl⟩ := mem_map.mp hid
      obtain rfl := Option.some.inj ((hadmitted q hq).symm.trans hs)
      exact .inr ⟨hq, rfl⟩
    · exact .inl ⟨hid, hother id hid ▸ hs⟩
  have hslot : ∀ s ∈ admittedSequences P entries slots ids tokens, s.slot ∈ slots := by
    intro s hs
    obtain ⟨k, hk⟩ := mem_iff_getElem?.mp hs
    obtain ⟨entry, slot, id, token, _, hslot, _, _, rfl⟩ := admittedSequences_get.mp hk
    exact mem_of_getElem? hslot
  refine ⟨fun id s hs => ?_, fun id s hs => ?_, fun id s hs => ?_, fun id s hs => ?_,
    fun id s id' s' hs hs' heq => ?_⟩
  · rcases hcases id s hs with ⟨_, hs⟩ | ⟨_, hid⟩
    · exact h.keyed id s hs
    · exact hid
  · rcases hcases id s hs with ⟨hid, hs⟩ | ⟨hmem, rfl⟩
    · refine (h.published id s hs).frame ?_
      rw [hreceipt, h.keyed id s hs]
      exact hnone id hid
    · have htoken := htokens s hmem
      obtain ⟨k, hk⟩ := mem_iff_getElem?.mp hmem
      obtain ⟨entry, slot, id, token, hentry, _, hid, _, rfl⟩ := admittedSequences_get.mp hk
      have hold : tokensOf id (publishedPages receipts) = [] := tokensOf_nil fun page hpage heq =>
        hfresh id (mem_of_getElem? hid) (heq ▸ hpages page hpage)
      have hall : tokensOf id (publishedPages (receipts ++ [receipt])) = [token] := by
        rw [publishedPages_append, tokensOf_append, hold, hreceipt]
        exact htoken
      refine ⟨⟨receipt, mem_append_right _ (mem_singleton_self _), entry.identity,
        ⟨entries.map AddEntry.identity, k, _, hrequest, by rw [List.getElem?_map, hentry]; rfl,
          by rw [hreceipt, List.getElem?_map, hk]; rfl, rfl⟩, ?_, rfl, rfl⟩, ?_, ?_, ?_, ?_⟩
      · exact congrArg (entry.prompt ++ ·) hall.symm
      · exact (congrArg List.length hall).symm
      · exact congrArg List.getLast? hall
      · exact admittedSequence_terminal P entry slot id token
      · exact fun budget hb => admittedSequence_budget hb
  · rcases hcases id s hs with ⟨_, hs⟩ | ⟨hs, _⟩
    · exact h.rows id s hs
    · obtain ⟨k, hk⟩ := mem_iff_getElem?.mp hs
      obtain ⟨entry, slot, id, token, _, _, _, _, rfl⟩ := admittedSequences_get.mp hk
      refine .nil ?_
      change entry.prompt.length + 1 = (entry.prompt ++ [token]).length
      rw [length_append, length_singleton]
  · rcases hcases id s hs with ⟨_, hs⟩ | ⟨hs, _⟩
    · exact h.slot_lt id s hs
    · exact hslots.lt _ (hslot s hs)
  · rcases hcases id s hs with ⟨_, hs⟩ | ⟨hs, hid⟩
    · rcases hcases id' s' hs' with ⟨_, hs'⟩ | ⟨hs', _⟩
      · exact h.slot_inj id s id' s' hs hs' heq
      · exact absurd heq (hslots.free _ (hslot s' hs') id s hs)
    · rcases hcases id' s' hs' with ⟨_, hs'⟩ | ⟨hs', hid'⟩
      · exact absurd heq.symm (hslots.free _ (hslot s hs) id' s' hs')
      · -- two admitted sequences in one slot are at one index
        obtain ⟨k, hk⟩ := mem_iff_getElem?.mp hs
        obtain ⟨k', hk'⟩ := mem_iff_getElem?.mp hs'
        obtain ⟨_, slot, _, _, _, hslotk, _, _, rfl⟩ := admittedSequences_get.mp hk
        obtain ⟨_, slot', _, _, _, hslotk', _, _, rfl⟩ := admittedSequences_get.mp hk'
        have hslots' : slots[k]? = slots[k']? := by
          rw [hslotk, hslotk']
          exact congrArg some heq
        have hlt : k < slots.length := (List.getElem?_eq_some_iff.mp hslotk).1
        obtain rfl := List.getElem?_inj hlt hslots.nodup |>.mp hslots'
        rw [← hid, ← hid', Option.some.inj (hk.symm.trans hk')]

end Admit

end EffectTorch
