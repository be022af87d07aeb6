import EffectTorch.Core.GenerationReplies

/-!
# The list of the driver against the session

Results:
1. `lookup`: the stop reason the list has of a sequence, and what the updates do to it.
2. `Agrees`: the list holds the sequences of the session without its pending receipt.
3. `Agrees.passes`, `Agrees.acknowledge`, `Agrees.finish`, `Agrees.close`: the list agrees
   again once it has followed each step of the session.
-/

namespace EffectTorch
open List Lib

namespace Generation

/-! ## The list -/

/-- The stop reason of a listed sequence. -/
def lookup (entries : List NativeGenerationEntry) (id : Nat) : Option (Option StopReason) :=
  (entries.find? (·.id = id)).map (·.terminal)

/-- The last page of a sequence. -/
def lastPage (pages : List TokenPage) (id : Nat) : Option TokenPage :=
  (pages.filter (·.sequenceId == id)).getLast?

/-- The entry a page leaves. -/
def pageEntry (page : ReceiptPage) : NativeGenerationEntry := ⟨page.sequenceId, page.stopReason⟩

section List

variable {entries entries' : List NativeGenerationEntry} {pages : List ReceiptPage} {id : Nat}

theorem find_eq_none : entries.find? (·.id = id) = none ↔ id ∉ entries.map (·.id) := by
  rw [List.find?_eq_none, mem_map]
  constructor
  · rintro h ⟨entry, hentry, rfl⟩
    exact h entry hentry (decide_eq_true rfl)
  · rintro h entry hentry heq
    exact h ⟨entry, hentry, of_decide_eq_true heq⟩

theorem find_id {entry : NativeGenerationEntry} (h : entries.find? (·.id = id) = some entry) :
    entry.id = id := by
  simpa using List.find?_some h

theorem lookup_eq_none : lookup entries id = none ↔ id ∉ entries.map (·.id) := by
  rw [lookup, Option.map_eq_none_iff, find_eq_none]

theorem find_of_mem (hnodup : (entries.map (·.id)).Nodup) {entry : NativeGenerationEntry}
    (hentry : entry ∈ entries) : entries.find? (·.id = entry.id) = some entry := by
  induction entries with
  | nil => cases hentry
  | cons head tail ih =>
    obtain ⟨hhead, htail⟩ := nodup_cons.mp hnodup
    rcases mem_cons.mp hentry with rfl | hmem
    · exact List.find?_cons_of_pos (decide_eq_true rfl)
    · have hlisted : entry.id ∈ tail.map (·.id) := mem_map_of_mem hmem
      have hne : head.id ≠ entry.id := by
        rintro heq
        rw [← heq] at hlisted
        exact hhead hlisted
      rw [List.find?_cons_of_neg (by simpa using hne)]
      exact ih htail hmem

theorem lookup_of_mem (hnodup : (entries.map (·.id)).Nodup) {entry : NativeGenerationEntry}
    (hentry : entry ∈ entries) : lookup entries entry.id = some entry.terminal := by
  rw [lookup, find_of_mem hnodup hentry]
  rfl

theorem lookup_append : lookup (entries ++ entries') id =
    (lookup entries id).or (lookup entries' id) := by
  rw [lookup, List.find?_append, Option.map_or]
  rfl

theorem lookup_eraseP (hnodup : (entries.map (·.id)).Nodup) (gone : Nat) :
    lookup (entries.eraseP (·.id = gone)) id = if id = gone then none else lookup entries id := by
  induction entries with
  | nil => exact (ite_self none).symm
  | cons head tail ih =>
    obtain ⟨hhead, htail⟩ := nodup_cons.mp hnodup
    by_cases hgone : head.id = gone
    · rw [eraseP_cons_of_pos (by simpa using hgone)]
      by_cases hid : id = gone
      · rw [if_pos hid, lookup_eq_none, hid, ← hgone]
        exact hhead
      · rw [if_neg hid, lookup, lookup, List.find?_cons_of_neg (by simpa [hgone] using Ne.symm hid)]
    · rw [eraseP_cons_of_neg (by simpa using hgone)]
      by_cases hid : head.id = id
      · rw [if_neg (fun h => hgone (hid.trans h)), lookup, lookup,
          List.find?_cons_of_pos (by simpa using hid), List.find?_cons_of_pos (by simpa using hid)]
      · have hskip : ∀ l : List NativeGenerationEntry, lookup (head :: l) id = lookup l id :=
          fun l => by rw [lookup, lookup, List.find?_cons_of_neg (by simpa using hid)]
        rw [hskip, hskip, ih htail]

theorem lastPage_append {pages' : List ReceiptPage} : lastPage (pages ++ pages') id =
    (lastPage pages' id).or (lastPage pages id) := by
  rw [lastPage, filter_append, List.getLast?_append]
  rfl

theorem lastPage_of_mem (hnodup : (pages.map (·.sequenceId)).Nodup) {page : ReceiptPage}
    (hpage : page ∈ pages) : lastPage pages page.sequenceId = some page := by
  have hkept : page ∈ pages.filter (·.sequenceId == page.sequenceId) :=
    mem_filter.mpr ⟨hpage, beq_self_eq_true _⟩
  rw [lastPage, List.getLast?_eq_some_getLast (ne_nil_of_mem hkept)]
  obtain ⟨hmem, hid⟩ := mem_filter.mp (getLast_mem (ne_nil_of_mem hkept))
  exact congrArg some (inj_on_of_nodup_map hnodup hmem hpage (eq_of_beq hid))

theorem lastPage_of_not_mem (h : id ∉ pages.map (·.sequenceId)) : lastPage pages id = none := by
  rw [lastPage, List.getLast?_eq_none_iff, filter_eq_nil_iff]
  exact fun page hpage hid => h (eq_of_beq hid ▸ mem_map_of_mem hpage)

/-! ## Updates -/

theorem pageEntry_ids (pages : List ReceiptPage) :
    (pages.map pageEntry).map (·.id) = pages.map (·.sequenceId) := by
  rw [map_map]
  rfl

theorem lookup_pageEntry (hnodup : (pages.map (·.sequenceId)).Nodup) {page : ReceiptPage}
    (hpage : page ∈ pages) : lookup (pages.map pageEntry) page.sequenceId = some page.stopReason :=
  @lookup_of_mem _ (pageEntry_ids pages ▸ hnodup) (pageEntry page) (mem_map_of_mem hpage)

/-- With the pages of their sequences the entries become those of the pages. -/
theorem setTerminals_eq (h : pages.map (·.sequenceId) = entries.map (·.id)) :
    setTerminals entries pages = pages.map pageEntry := by
  induction entries generalizing pages with
  | nil =>
    rw [map_nil, map_eq_nil_iff] at h
    rw [h]
    rfl
  | cons entry entries ih =>
    obtain ⟨page, rest, rfl, hpage, hrest⟩ := map_eq_cons_iff.mp h
    rw [setTerminals, zip_cons_cons, map_cons, map_cons, pageEntry, hpage]
    exact congrArg (_ :: ·) (ih hrest)

/-- The update puts the pages of the receipt into the list. -/
inductive Update.Fits (receipt : Receipt) : Update → Prop
  | push {added requests} : receipt.request = .add requests →
      receipt.pages.map (·.sequenceId) = added.map (·.id) → Fits receipt (.push added)
  | mark {selected requests} : receipt.request = .round requests →
      receipt.pages.map (·.sequenceId) = selected.map (·.id) → Fits receipt (.mark selected)

/-- What a marked entry becomes. -/
def markEntry (pages : List ReceiptPage) (entry : NativeGenerationEntry) : NativeGenerationEntry :=
  ((pages.map pageEntry).find? (·.id = entry.id)).getD entry

theorem markEntry_id (pages : List ReceiptPage) (entry : NativeGenerationEntry) :
    (markEntry pages entry).id = entry.id := by
  unfold markEntry
  cases hfind : (pages.map pageEntry).find? (·.id = entry.id) with
  | none => rfl
  | some marked => exact find_id hfind

theorem find_markEntry (pages : List ReceiptPage) :
    (entries.map (markEntry pages)).find? (·.id = id) =
      (entries.find? (·.id = id)).map (markEntry pages) := by
  rw [List.find?_map]
  congr 1
  refine congrArg (List.find? · entries) (funext fun entry => ?_)
  simp only [Function.comp_apply, markEntry_id]

/-- A mark changes the stop reasons of the marked sequences that are listed. -/
theorem lookup_markEntry (hnodup : (pages.map (·.sequenceId)).Nodup) :
    lookup (entries.map (markEntry pages)) id =
      if id ∈ pages.map (·.sequenceId) then
        (lookup entries id).bind fun _ => lookup (pages.map pageEntry) id
      else lookup entries id := by
  rw [lookup, find_markEntry, lookup]
  cases hfind : entries.find? (·.id = id) with
  | none => exact (ite_self none).symm
  | some entry =>
    have hentry : entry.id = id := find_id hfind
    dsimp only [Option.map_some, Option.bind_some]
    by_cases hid : id ∈ pages.map (·.sequenceId)
    · obtain ⟨page, hpage, rfl⟩ := mem_map.mp hid
      have hpageEntry : (pages.map pageEntry).find? (·.id = entry.id) = some (pageEntry page) := by
        rw [hentry]
        exact @find_of_mem _ (pageEntry_ids pages ▸ hnodup) (pageEntry page)
          (mem_map_of_mem hpage)
      rw [if_pos hid, lookup_pageEntry hnodup hpage, markEntry, hpageEntry]
      rfl
    · rw [if_neg hid, markEntry, find_eq_none.mpr (by rwa [pageEntry_ids, hentry])]
      rfl

/-- The update lists the sequences of an admission and marks those of a round. -/
theorem Update.Fits.lookup {receipt : Receipt} {update : Update} (h : update.Fits receipt)
    (honce : (receipt.pages.map (·.sequenceId)).Nodup)
    (hlisted : ∀ id ∈ receipt.pages.map (·.sequenceId), lookup entries id =
      match receipt.request with
      | .add _ => none
      | .round _ => some none) :
    lookup (update.apply entries receipt.pages) id =
      if id ∈ receipt.pages.map (·.sequenceId) then lookup (receipt.pages.map pageEntry) id
      else lookup entries id := by
  cases h with
  | push hrequest hids =>
    rw [Update.apply, setTerminals_eq hids, lookup_append]
    split
    · next hid =>
      have hnone := hlisted id hid
      rw [hrequest] at hnone
      rw [hnone, Option.none_or]
    · next hid =>
      have hnew : Generation.lookup (receipt.pages.map pageEntry) id = none :=
        lookup_eq_none.mpr ((pageEntry_ids receipt.pages).symm ▸ hid)
      rw [hnew, Option.or_none]
  | mark hrequest hids =>
    rw [Update.apply, setTerminals_eq hids]
    refine (lookup_markEntry honce).trans ?_
    split
    · next hid =>
      have hsome := hlisted id hid
      rw [hrequest] at hsome
      rw [hsome, Option.bind_some]
    · rfl

theorem Update.Fits.nodup {receipt : Receipt} {update : Update} (h : update.Fits receipt)
    (honce : (receipt.pages.map (·.sequenceId)).Nodup)
    (hlisted : ∀ id ∈ receipt.pages.map (·.sequenceId), Generation.lookup entries id =
      match receipt.request with
      | .add _ => none
      | .round _ => some none)
    (hnodup : (entries.map (·.id)).Nodup) :
    ((update.apply entries receipt.pages).map (·.id)).Nodup := by
  cases h with
  | push hrequest hids =>
    rw [Update.apply, setTerminals_eq hids, map_append, pageEntry_ids]
    refine nodup_append'.mpr ⟨hnodup, honce, fun id hold hnew => ?_⟩
    have hnone := hlisted id hnew
    rw [hrequest] at hnone
    exact lookup_eq_none.mp hnone hold
  | mark hrequest hids =>
    rw [Update.apply, setTerminals_eq hids, map_map]
    refine Eq.subst (motive := List.Nodup) (map_congr_left fun entry _ => ?_) hnodup
    exact (markEntry_id receipt.pages entry).symm

end List

/-! ## Agreement -/

/-- The list holds the sequences of the session without its pending receipt, and what is
acknowledged are the pages of the other receipts. A session that closes drops its receipt. -/
structure Agrees (P : InferencePrograms) (native : InferenceSession)
    (entries : List NativeGenerationEntry) (acknowledged : List TokenPage) : Prop where
  invariant : SessionInvariant P native
  pending : ∀ receipt, native.state.receipt = some receipt → PendingPages native.state receipt
  nodup : (entries.map (·.id)).Nodup
  listed : ∀ id, lookup entries id = settled native.state id
  stopped : ∀ id terminal, lookup entries id = some terminal →
    (lastPage acknowledged id).map (·.stopReason) = some terminal
  opened : native.state.closed = false → acknowledged = settledPages native
  closed : native.state.closed = true → acknowledged = publishedPages native.receipts ∨
    acknowledged = publishedPages native.receipts.dropLast

section Agreement

open InferenceSession

variable {P : InferencePrograms} {native native' : InferenceSession}
  {entries : List NativeGenerationEntry} {acknowledged : List TokenPage}
  {reply : Option SessionReply}

theorem Agrees.perform (h : Agrees P native entries acknowledged) {event : SessionEvent}
    (hpassive : event.Passive) (hperform : native.perform P event = some (native', reply)) :
    Passes P native native' :=
  perform_passes h.invariant h.pending hpassive hperform

/-- The list need not follow a step that neither acknowledges nor ends sequences. -/
theorem Agrees.passes (h : Agrees P native entries acknowledged) (hpasses : Passes P native native') :
    Agrees P native' entries acknowledged where
  invariant := hpasses.invariant
  pending := hpasses.pending
  nodup := h.nodup
  listed id := (h.listed id).trans (hpasses.settled id).symm
  stopped := h.stopped
  opened hopen := by
    rw [hpasses.pages]
    exact h.opened (hpasses.closed.symm.trans hopen)
  closed hclosed := by
    have hwas := hpasses.closed.symm.trans hclosed
    rw [hpasses.receipts hwas]
    exact h.closed hwas

theorem acknowledge_pending {receipt : Receipt} (hreceipt : native.state.receipt = some receipt) :
    native.acknowledge receipt.roundId =
      ({ native with state := { native.state with receipt := none } }, some (.ok none)) := by
  rw [acknowledge, hreceipt]
  exact if_neg (not_not.mpr rfl)

theorem Agrees.acknowledge (h : Agrees P native entries acknowledged) {receipt : Receipt}
    {update : Update} (hreceipt : native.state.receipt = some receipt) (hfits : update.Fits receipt) :
    Agrees P { native with state := { native.state with receipt := none } }
      (update.apply entries receipt.pages) (acknowledged ++ receipt.pages) := by
  have hpending := h.pending receipt hreceipt
  have hlisted : ∀ id ∈ receipt.pages.map (·.sequenceId), lookup entries id =
      match receipt.request with
      | .add _ => none
      | .round _ => some none :=
    fun id hid => (h.listed id).trans (settled_page hreceipt hid)
  have hopen : native.state.closed = false := Bool.eq_false_iff.mpr fun hclosed =>
    absurd ((h.invariant.closed hclosed).2.symm.trans hreceipt) nofun
  have hinv := (acknowledge_ok h.invariant receipt.roundId).invariant
  rw [acknowledge_pending hreceipt] at hinv
  refine ⟨hinv, nofun, hfits.nodup hpending.once hlisted h.nodup, fun id => ?_,
    fun id terminal hid => ?_, fun _ => ?_,
    fun hclosed => absurd (hopen.symm.trans hclosed) Bool.false_ne_true⟩
  · rw [hfits.lookup hpending.once hlisted, settled_none rfl]
    split
    · next hid =>
      obtain ⟨page, hpage, rfl⟩ := mem_map.mp hid
      rw [lookup_pageEntry hpending.once hpage]
      exact (hpending.stops page hpage).symm
    · next hid => rw [h.listed id, settled_other hreceipt hid]
  · rw [hfits.lookup hpending.once hlisted] at hid
    rw [lastPage_append]
    split at hid
    · next hmem =>
      obtain ⟨page, hpage, rfl⟩ := mem_map.mp hmem
      rw [lookup_pageEntry hpending.once hpage] at hid
      rw [lastPage_of_mem hpending.once hpage]
      exact hid
    · next hmem =>
      rw [lastPage_of_not_mem hmem, Option.none_or]
      exact h.stopped id terminal hid
  · have hlast := h.invariant.pending.last receipt hreceipt
    have hsplit : native.receipts = native.receipts.dropLast ++ [receipt] :=
      (dropLast_append_getLast? receipt hlast).symm
    rw [h.opened hopen, settledPages, settledPages, hreceipt]
    change _ = publishedPages native.receipts
    conv_rhs => rw [hsplit, publishedPages_append]
    rfl

theorem Agrees.finish (h : Agrees P native entries acknowledged) (id : Nat) :
    (∃ reason, native.finish [⟨native.id, id⟩] = (native, some (.error reason))) ∨
      ∃ native', native.finish [⟨native.id, id⟩] = (native', some (.ok none)) ∧
        native'.id = native.id ∧ Agrees P native' (entries.eraseP (·.id = id)) acknowledged := by
  have hinv := (finish_ok h.invariant [⟨native.id, id⟩]).invariant
  unfold InferenceSession.finish at hinv ⊢
  split
  · exact .inl ⟨_, rfl⟩
  · next hidle =>
    rw [if_neg hidle] at hinv
    split
    · exact .inl ⟨_, rfl⟩
    · next hlifecycle =>
      obtain ⟨hopen, hnone⟩ := validateFinishLifecycle_ok hlifecycle
      split
      · exact .inl ⟨_, rfl⟩
      · next hlive =>
        rw [hlifecycle] at hinv
        dsimp only at hinv
        rw [if_neg hlive] at hinv
        refine .inr ⟨_, rfl, rfl, hinv, fun receipt hreceipt =>
          absurd (hnone.symm.trans hreceipt) nofun, ?_, fun other => ?_,
          fun other terminal hother => ?_, fun _ => ?_, fun hclosed => absurd (hopen.symm.trans hclosed) Bool.false_ne_true⟩
        · exact (eraseP_sublist.map _).nodup h.nodup
        · have hsettled : ∀ sequences, settled { native.state with sequences } other =
              (sequences.lookup other).map (·.terminal) := fun sequences =>
            @settled_none { native.state with sequences } hnone other
          refine (lookup_eraseP h.nodup id).trans (Eq.trans ?_ (hsettled _).symm)
          rw [lookup_erase_all, map_singleton, h.listed, settled_none hnone]
          by_cases hother : other = id
          · rw [if_pos hother, if_pos (mem_singleton.mpr hother)]
            rfl
          · rw [if_neg hother, if_neg (fun hmem => hother (mem_singleton.mp hmem))]
        · rw [lookup_eraseP h.nodup] at hother
          split at hother
          · cases hother
          · exact h.stopped other terminal hother
        · rw [h.opened hopen]
          rfl

theorem Agrees.close (h : Agrees P native entries acknowledged) :
    (∃ reason, native.close = (native, some (.error reason))) ∨
      ∃ native', native.close = (native', some (.ok none)) ∧ native'.id = native.id ∧
        Agrees P native' [] acknowledged := by
  have hinv := (close_ok h.invariant).invariant
  have hgone : ∀ state : InferenceSessionState, state.sequences = ∅ → state.receipt = none →
      ∀ id, lookup [] id = settled state id := by
    intro state hempty hnone id
    rw [settled_none hnone, hempty, AList.lookup_empty]
    rfl
  unfold InferenceSession.close at hinv ⊢
  split
  · next hclosed =>
    obtain ⟨hempty, hnone⟩ := h.invariant.closed hclosed
    exact .inr ⟨native, rfl, rfl, h.invariant, h.pending, .nil,
      hgone _ hempty hnone, nofun, h.opened, h.closed⟩
  · next hopen =>
    have hopen : native.state.closed = false := Bool.eq_false_iff.mpr hopen
    split
    · exact .inl ⟨_, rfl⟩
    · next hidle =>
      rw [if_neg (by rw [hopen]; exact Bool.false_ne_true), if_neg hidle] at hinv
      refine .inr ⟨_, rfl, rfl, hinv, nofun, .nil, hgone _ rfl rfl, nofun, nofun, fun _ => ?_⟩
      rw [h.opened hopen, settledPages]
      split
      · exact .inr rfl
      · exact .inl rfl

end Agreement

end Generation

end EffectTorch
