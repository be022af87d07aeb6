import EffectTorch.Serve.DecisionPoolInvariant

/-!
# The pool over whole runs

Results:
1. `Invariant.perform`: every event keeps `Consistent` and `Tidy`.
2. `decisionPool_sound`: what holds of the pool in every reachable state.
3. `leased_prefix_closed`: a prefill that fails closes its resources under a lease.
-/

namespace EffectTorch

namespace DecisionEngine
open List Option Function Lib

/-- What holds between any two events. -/
structure Invariant (options : Options) (s : Pool) : Prop where
  consistent : Consistent options s
  tidy : Tidy s

section Events

variable {options : Options} {s s' : Pool} {e i t : Nat} {question : Question}

/-! ## Idle entries -/

/-- Idle entries stay idle, ready and disposed of as they are. -/
theorem Tidy.frame (h : Tidy s) (hstage : s'.stage = .running → s.stage = .running)
    (hkeep : ∀ e ∈ s'.entries, (s'.heap e).leases = 0 → e ∈ s.entries ∧ (s.heap e).leases = 0 ∧
      ((s.heap e).state = .ready → (s'.heap e).state = .ready) ∧
      (s.disposing e ≠ none → s'.disposing e ≠ none)) : Tidy s' := by
  intro hrunning e hmem hidle
  obtain ⟨hmem, hidle, hready, hdisposing⟩ := hkeep e hmem hidle
  exact (h (hstage hrunning) e hmem hidle).imp hready hdisposing

theorem Tidy.closed (h : s.stage ≠ .running) : Tidy s := fun hrunning => absurd hrunning h

theorem Tidy.cancelTimer (h : Tidy s) (e : Nat) : Tidy (s.cancelTimer e) := by
  rw [cancelTimer_eq]
  exact h.frame id fun e' hmem hidle =>
    ⟨hmem, (setTimer_field _ (·.leases) (fun _ => rfl) e').symm.trans hidle,
      (setTimer_field _ (·.state) (fun _ => rfl) e').trans, id⟩

/-- An entry that is disposed of need not be ready. -/
theorem Tidy.dispose {after : After}
    (h : s.stage = .running → ∀ e' ∈ s.entries, e' ≠ e → (s.heap e').leases = 0 →
      (s.heap e').state = .ready) : Tidy (s.dispose e after) := by
  rw [Pool.dispose, cancelTimer_eq]
  intro hrunning e' hmem hidle
  by_cases heq : e' = e
  · refine .inr ?_
    rw [heq, disposing_self (d := ⟨e, .worker, after⟩) rfl]
    rintro ⟨⟩
  · refine .inl ((setTimer_field _ (·.state) (fun _ => rfl) e').trans (h hrunning e' hmem heq ?_))
    exact (setTimer_field _ (·.leases) (fun _ => rfl) e').symm.trans hidle

theorem Tidy.ready (h : Tidy s) (hmutex : s.mutex = none) (hrunning : s.stage = .running)
    (hmem : e ∈ s.entries) (hidle : (s.heap e).leases = 0) : (s.heap e).state = .ready :=
  (h hrunning e hmem hidle).resolve_right fun hne => hne (disposing_none hmutex e)

/-! ## `acquire` -/

theorem get_some {key : Key} (h : s.get key = some e) : e ∈ s.entries ∧ (s.heap e).key = key :=
  ⟨mem_of_find?_eq_some h, by simpa using List.find?_some h⟩

theorem get_none {key : Key} (h : s.get key = none) : ∀ e ∈ s.entries, (s.heap e).key ≠ key := by
  simpa [Pool.get] using h

/-- A cancelled timer does not fire. -/
theorem Consistent.cancelTimer_quiet (h : Consistent options s) (e : Nat) (t : Nat)
    (halive : ((s.cancelTimer e).timers t).alive) : ((s.cancelTimer e).timers t).entry ≠ e := by
  intro heq
  have htimer := ((h.cancelTimer e).timer t halive).timer
  rw [heq, cancelTimer_eq] at htimer
  exact absurd ((congrArg Entry.timer (modify_self (.setTimer none))).symm.trans htimer) nofun

theorem Invariant.cancelTimer (h : Invariant options s) (e : Nat) :
    Invariant options (s.cancelTimer e) :=
  ⟨h.consistent.cancelTimer e, h.tidy.cancelTimer e⟩

/-- A question takes a lease on an entry of the map. -/
theorem Invariant.hit (h : Invariant options s) (hmutex : s.mutex = none)
    (hi : s.questions[i]? = some .slot) (hmem : e ∈ s.entries)
    (hquiet : ∀ t, (s.timers t).alive → (s.timers t).entry ≠ e) :
    Invariant options (((s.modify e (.lease 1)).touch e).setQuestion i (.leased e)) := by
  have hleased : Consistent options ((s.modify e (.lease 1)).setQuestion i (.leased e)) :=
    h.consistent.lease hmutex hmem hi (by simp) (fun e' hne => ⟨nofun, fun heq => hne (Question.leased.inj heq).symm⟩) rfl rfl hquiet nofun
  refine ⟨hleased.touch hmutex hmem, h.tidy.frame id fun e' hin hidle => ?_⟩
  have hne : e' ≠ e := by
    rintro rfl
    refine (hleased.entry e').leased ?_ hidle
    exact List.mem_set (List.getElem?_eq_some_iff.mp hi).1 _
  have hother : (s.modify e (.lease 1)).heap e' = s.heap e' := modify_of_ne hne _
  exact ⟨(hleased.touch_perm hmem).mem_iff.mp hin, (congrArg Entry.leases hother).symm.trans hidle,
    (congrArg Entry.state hother).trans, id⟩

theorem Invariant.insert (h : Invariant options s) {key : Key} (hmutex : s.mutex = none)
    (hi : s.questions[i]? = some question) (hslot : question.inSlot)
    (hleased : ∀ e, question ≠ .leased e) (hkey : ∀ e ∈ s.entries, (s.heap e).key ≠ key)
    (hroom : s.entries.length < options.maxCachedPrefixes) : Invariant options (s.insert i key) := by
  have hconsistent := h.consistent.insert hmutex hi hslot hleased hkey hroom
  refine ⟨hconsistent, h.tidy.frame id fun e hin hidle => ?_⟩
  have hne : e ≠ s.fresh := by
    rintro rfl
    refine (hconsistent.entry s.fresh).leased ?_ hidle
    exact List.mem_set (List.getElem?_eq_some_iff.mp hi).1 _
  have hother : (s.insert i key).heap e = s.heap e := update_of_ne hne ..
  have hin' : e ∈ s.entries ++ [s.fresh] := hin
  rw [hother] at hidle ⊢
  refine ⟨(mem_append.mp hin').resolve_right fun hnew => hne (mem_singleton.mp hnew), hidle,
    id, ?_⟩
  rw [disposing_none hmutex]
  exact fun hd => absurd rfl hd

/-- A question that moves on without a lease. -/
theorem Invariant.setQuestion (h : Invariant options s) (hi : s.questions[i]? = some question)
    {question' : Question} {slots : Nat} (hleased : ∀ e, question ≠ .leased e)
    (hleased' : ∀ e, question' ≠ .leased e)
    (hslots : slots + (if question'.inSlot then 1 else 0) = s.slots + (if question.inSlot then 1 else 0))
    (hmutex : s.mutex = none ∨ question ≠ .acquiring ∧ question ≠ .releasing)
    (hrejected : question' ≠ .settled (some "No idle prefix cache slot")) (hdone : question ≠ .done) :
    Invariant options { s.setQuestion i question' with slots } :=
  ⟨h.consistent.setQuestion hi hleased hleased' hslots hmutex hrejected hdone,
    h.tidy.frame id fun _ hin hidle => ⟨hin, hidle, id, id⟩⟩

theorem Invariant.acquire (h : Invariant options s)
    (hle : options.maxActiveQuestions ≤ options.maxCachedPrefixes) (hmutex : s.mutex = none)
    (hi : s.questions[i]? = some .slot) (key : Key) : Invariant options (s.acquire options i key) := by
  have hset : ∀ question' : Question, question'.inSlot → (∀ e, question' ≠ .leased e) →
      question' ≠ .settled (some "No idle prefix cache slot") →
      Invariant options (s.setQuestion i question') := fun _ hslot hleased hrejected =>
    h.setQuestion hi nofun hleased (by rw [if_pos hslot]; rfl) (.inl hmutex)
      hrejected nofun
  unfold Pool.acquire
  split
  · exact hset _ rfl nofun (by simp)
  · split
    · next e he =>
      have hmem := (get_some he).1
      exact (h.cancelTimer e).hit (by simpa using hmutex) (by simpa using hi) (by simpa using hmem)
        (h.consistent.cancelTimer_quiet e)
    · next hmiss =>
      split
      · next hfull =>
        split
        · next hnone =>
          obtain ⟨e, hmem, hidle⟩ := h.consistent.exists_idle hle hi hfull
          exact absurd hidle (by simpa using List.find?_eq_none.mp hnone e hmem)
        · next idle hidle =>
          have hmem := mem_of_find?_eq_some hidle
          have hzero : (s.heap idle).leases = 0 := by simpa using List.find?_some hidle
          have hacquiring := hset .acquiring rfl nofun nofun
          refine ⟨hacquiring.consistent.dispose hmutex hmem hzero ⟨?_, get_none hmiss⟩,
            Tidy.dispose fun hrunning e hin _ hidle => h.tidy.ready hmutex hrunning hin hidle⟩
          exact List.getElem?_set_self (List.getElem?_eq_some_iff.mp hi).1
      · next hroom =>
        exact h.insert hmutex hi rfl nofun (get_none hmiss)
          (Nat.lt_of_le_of_ne h.consistent.bound hroom)

/-! ## `release` -/

theorem Invariant.touch (h : Invariant options s) (hmutex : s.mutex = none) (hmem : e ∈ s.entries) :
    Invariant options (s.touch e) :=
  ⟨h.consistent.touch hmutex hmem, h.tidy.frame id fun _ hin hidle =>
    ⟨(h.consistent.touch_perm hmem).mem_iff.mp hin, hidle, id, id⟩⟩

/-- An idle entry without a live timer gets one. -/
theorem Invariant.arm (h : Invariant options s) (hmutex : s.mutex = none) (hmem : e ∈ s.entries)
    (hidle : (s.heap e).leases = 0) (hquiet : ∀ t, (s.timers t).alive → (s.timers t).entry ≠ e) :
    Invariant options (s.arm e) := by
  refine ⟨h.consistent.setTimer (fun hd => absurd (disposing_none hmutex e) hd) fun t ht => ?_,
    h.tidy.frame id fun e' hin hzero => ⟨hin, ?_, ?_, id⟩⟩
  · by_cases heq : t = s.nextTimer
    · subst heq
      rw [update_self]
      exact .inr ⟨rfl, rfl, hmem, hidle⟩
    · rw [update_of_ne heq] at ht ⊢
      exact .inl ⟨ht, rfl, hquiet t ht⟩
  · exact (setTimer_field _ (·.leases) (fun _ => rfl) e').symm.trans hzero
  · exact (setTimer_field _ (·.state) (fun _ => rfl) e').trans

theorem Invariant.release (h : Invariant options s) (hmutex : s.mutex = none)
    (hi : s.questions[i]? = some (.leased e)) : Invariant options (s.release i e) := by
  have hheld := (h.consistent.entry e).leased (mem_of_getElem? hi)
  have hmem := (h.consistent.entry e).held hheld
  have hquiet : ∀ t, (s.timers t).alive → (s.timers t).entry ≠ e := fun t halive heq =>
    hheld (heq ▸ (h.consistent.timer t halive).idle)
  have hlower : ∀ question' : Question, question'.inSlot → (∀ e, question' ≠ .leased e) →
      question' ≠ .settled (some "No idle prefix cache slot") →
      Consistent options ((s.modify e (.lease (-1))).setQuestion i question') :=
    fun _ hslot hleased hrejected => h.consistent.lease hmutex hmem hi
      (by rw [if_neg (hleased e), if_pos rfl]; rfl)
      (fun e' hne => ⟨fun heq => hne (Question.leased.inj heq).symm, hleased e'⟩) rfl hslot hquiet
      hrejected
  have hsettle := hlower (.settled none) rfl nofun nofun
  have hother : ∀ e', e' ≠ e → (s.modify e (.lease (-1))).heap e' = s.heap e' := fun e' hne =>
    modify_of_ne hne _
  unfold Pool.release
  dsimp only
  split
  · next hleft =>
    refine ⟨hsettle, h.tidy.frame id fun e' hin hidle => ?_⟩
    have hne : e' ≠ e := fun heq => hleft (heq ▸ hidle)
    exact ⟨hin, (congrArg Entry.leases (hother e' hne)).symm.trans hidle,
      (congrArg Entry.state (hother e' hne)).trans, id⟩
  · next hzero =>
    have hzero := not_not.mp hzero
    split
    · next hclosed =>
      refine ⟨hsettle, Tidy.closed ?_⟩
      change s.stage ≠ .running
      simpa [Pool.closed] using hclosed
    · have hready : ∀ e', s.stage = .running → e' ∈ s.entries → e' ≠ e →
          ((s.modify e (.lease (-1))).heap e').leases = 0 →
          ((s.modify e (.lease (-1))).heap e').state = .ready := by
        intro e' hrunning hin hne hidle
        rw [hother e' hne] at hidle ⊢
        exact h.tidy.ready hmutex hrunning hin hidle
      split
      · have hreleasing := hlower .releasing rfl nofun nofun
        refine ⟨hreleasing.dispose hmutex hmem hzero ?_,
          Tidy.dispose fun hrunning e' hin hne => hready e' hrunning hin hne⟩
        exact List.getElem?_set_self (List.getElem?_eq_some_iff.mp hi).1
      · next hstate =>
        have hstate := not_not.mp hstate
        have hsettled : Invariant options
            ((s.modify e (.lease (-1))).setQuestion i (.settled none)) := by
          refine ⟨hsettle, fun hrunning e' hin hidle => .inl ?_⟩
          by_cases heq : e' = e
          · exact heq ▸ hstate
          · exact hready e' hrunning hin heq hidle
        exact (hsettled.touch hmutex hmem).arm hmutex
          ((hsettle.touch_perm hmem).mem_iff.mpr hmem) hzero hquiet

/-! ## Workers -/

theorem Invariant.work (h : Invariant options s) {f : Entry → Entry} {prefills : Nat}
    {livePrefixes : Int} (halive : (s.heap e).worker ≠ .ended)
    (hkey : (f (s.heap e)).key = (s.heap e).key) (hleases : (f (s.heap e)).leases = (s.heap e).leases)
    (htimer : (f (s.heap e)).timer = (s.heap e).timer)
    (hworked : (f (s.heap e)).state ≠ .loading → (f (s.heap e)).worker = .ended)
    (hcloses : (f (s.heap e)).closes =
      if (f (s.heap e)).state = .failed ∨ (f (s.heap e)).worker = .closing then 1 else 0)
    (hlive : livePrefixes = s.livePrefixes + (if (f (s.heap e)).state = .ready then 1 else 0)) :
    Invariant options { s.modify e f with prefills, livePrefixes } := by
  refine ⟨h.consistent.work halive hkey hleases htimer hworked hcloses hlive,
    h.tidy.frame id fun e' hin hidle =>
      ⟨hin, (modify_field (·.leases) hleases e').symm.trans hidle, fun hready => ?_, id⟩⟩
  have hne : e' ≠ e := fun heq => halive ((h.consistent.entry e).worked (by rw [← heq, hready]; nofun))
  exact (congrArg Entry.state (modify_of_ne hne f)).trans hready

/-- A step of a worker that has not ended. The entry is loading, and its resources are given up
only from `closing` on. -/
theorem Invariant.worker (h : Invariant options s) {worker : Worker} {f : Entry → Entry}
    {prefills : Nat} {livePrefixes ready : Int} (halive : worker ≠ .ended)
    (hworker : (s.heap e).worker = worker)
    (hkeeps : ∀ entry : Entry, entry.state = .loading →
      entry.closes = (if worker = .closing then 1 else 0) →
      (f entry).key = entry.key ∧ (f entry).leases = entry.leases ∧ (f entry).timer = entry.timer ∧
      ((f entry).state ≠ .loading → (f entry).worker = .ended) ∧
      (f entry).closes = (if (f entry).state = .failed ∨ (f entry).worker = .closing then 1 else 0) ∧
      ready = if (f entry).state = .ready then 1 else 0)
    (hlive : livePrefixes = s.livePrefixes + ready) :
    Invariant options { s.modify e f with prefills, livePrefixes } := by
  have hok := h.consistent.entry e
  have hmem : e ∈ s.entries := by_contra fun hout => halive (hworker.symm.trans (hok.left hout))
  have hloading : (s.heap e).state = .loading :=
    by_contra fun hne => halive (hworker.symm.trans (hok.worked hne))
  have hremoval : s.disposing e ≠ some .removal := fun hd =>
    halive (hworker.symm.trans ((hok.disposed _ hd).2.2.2 nofun))
  have hcloses := hok.closes hmem
  rw [hworker, hloading] at hcloses
  obtain ⟨hkey, hleases, htimer, hworked, hclosed, hready⟩ := hkeeps (s.heap e) hloading
    (hcloses.trans (if_congr (by simp [hremoval]) rfl rfl))
  exact h.work (hworker ▸ halive) hkey hleases htimer hworked hclosed (hready ▸ hlive)

/-- Such a step leaves the counters alone unless the prefill succeeds. -/
theorem Invariant.fails (h : Invariant options s) {worker : Worker} {f : Entry → Entry}
    (hs : s.work e worker f = some s') (halive : worker ≠ .ended)
    (hkeeps : ∀ entry : Entry, entry.state = .loading →
      entry.closes = (if worker = .closing then 1 else 0) →
      (f entry).key = entry.key ∧ (f entry).leases = entry.leases ∧ (f entry).timer = entry.timer ∧
      ((f entry).state ≠ .loading → (f entry).worker = .ended) ∧
      (f entry).closes = (if (f entry).state = .failed ∨ (f entry).worker = .closing then 1 else 0) ∧
      (0 : Int) = if (f entry).state = .ready then 1 else 0) : Invariant options s' := by
  unfold Pool.work at hs
  split at hs
  · next hworker =>
    obtain rfl := some.inj hs
    exact h.worker halive hworker hkeeps (Int.add_zero _).symm
  · exact absurd hs nofun

/-! ## `dispose` and the finalizer -/

theorem Invariant.setTimers (h : Invariant options s) {timers : Nat → Timer}
    (halive : ∀ t, (timers t).alive →
      (s.timers t).alive ∧ (timers t).entry = (s.timers t).entry) :
    Invariant options { s with timers } :=
  ⟨h.consistent.setTimers halive, h.tidy.frame id fun _ hin hidle => ⟨hin, hidle, id, id⟩⟩

theorem Invariant.wake (h : Invariant options s) {state : TimerState}
    (hstate : state = .sleeping ∨ state = .waiting → (s.timers t).alive) :
    Invariant options (s.wake t state) := by
  refine h.setTimers fun t' halive => ?_
  by_cases heq : t' = t
  · subst heq
    rw [update_self] at halive ⊢
    exact ⟨hstate halive, rfl⟩
  · rw [update_of_ne heq] at halive ⊢
    exact ⟨halive, rfl⟩

theorem Invariant.expire (h : Invariant options s) (hmutex : s.mutex = none)
    (hwaiting : (s.timers t).state = .waiting) :
    Invariant options (((s.wake t .disposing).modify (s.timers t).entry (.setTimer none)).dispose
      (s.timers t).entry (.expired t)) := by
  have hwoken : Invariant options (s.wake t .disposing) := h.wake nofun
  obtain ⟨htimer, hmem, hidle⟩ := h.consistent.timer t (.inr hwaiting)
  have hcleared : Consistent options
      ((s.wake t .disposing).modify (s.timers t).entry (.setTimer none)) := by
    refine hwoken.consistent.setTimer (fun _ => rfl) fun t' halive => .inl ?_
    refine ⟨halive, rfl, fun hentry => ?_⟩
    have htimer' := (hwoken.consistent.timer t' halive).timer
    have hsame : t = t' := by
      rw [hentry] at htimer'
      exact some.inj (htimer.symm.trans htimer')
    have hdisposing : ((s.wake t .disposing).timers t').state = .disposing := by
      rw [← hsame]
      exact congrArg Timer.state
        (update_self (v := { s.timers t with state := .disposing }) (f := s.timers) ..)
    rw [Timer.alive, hdisposing] at halive
    exact halive.elim nofun nofun
  refine ⟨hcleared.dispose hmutex hmem ((setTimer_field _ (·.leases) (fun _ => rfl) _).trans hidle)
    trivial, Tidy.dispose fun hrunning e hin _ hzero => ?_⟩
  refine (setTimer_field _ (·.state) (fun _ => rfl) e).trans (h.tidy.ready hmutex hrunning hin ?_)
  exact (setTimer_field _ (·.leases) (fun _ => rfl) e).symm.trans hzero

theorem Consistent.idle_of_drained (h : Consistent options s) (hdrained : s.stage.drained) (e : Nat) :
    (s.heap e).leases = 0 := by
  have hnone : s.questions.count (.leased e) = 0 := count_eq_zero.mpr fun hmem =>
    absurd (h.drained hdrained _ hmem) nofun
  rw [(h.entry e).leases, hnone]
  rfl

/-- The loop of the finalizer. -/
theorem Invariant.drain (h : Invariant options s) (hmutex : s.mutex = none) (hstage : s.stage = .pool) :
    Invariant options (s.drain s.entries) := by
  have hdrained : s.stage.drained := hstage ▸ rfl
  cases hentries : s.entries with
  | nil =>
    exact ⟨h.consistent.setStage (fun _ => hmutex) (fun _ => h.consistent.drained hdrained)
      fun _ => hentries, Tidy.closed nofun⟩
  | cons e rest =>
    refine ⟨h.consistent.dispose hmutex (hentries ▸ mem_cons_self)
      (h.consistent.idle_of_drained hdrained e) ⟨hstage, hentries⟩, Tidy.dispose fun hrunning => ?_⟩
    exact absurd (hrunning.symm.trans hstage) nofun

/-- The mutex stays with the operation that disposes of an entry. -/
theorem disposing_ne {d : Disposal} (d' : Disposal) (hd : s.mutex = some d) (hd' : s'.mutex = some d')
    (hentry : d'.entry = d.entry) (h : s.disposing e ≠ none) : s'.disposing e ≠ none := by
  by_cases heq : d.entry = e
  · rw [← heq, ← hentry, disposing_self hd']
    exact nofun
  · exact absurd (disposing_of_ne hd heq) h

theorem Invariant.remove (h : Invariant options s) {d : Disposal} (hd : s.mutex = some d)
    (hphase : d.phase = .removal) : Invariant options (s.remove d.entry) := by
  have hmem := ((h.consistent.entry d.entry).disposed _ (h.consistent.after d hd).1).1
  refine ⟨h.consistent.remove hd hphase, fun hrunning e hin hidle => .inl ?_⟩
  have hin' : e ∈ s.entries.erase d.entry := h.consistent.delete_eq hmem ▸ hin
  obtain ⟨hne, hin⟩ := h.consistent.nodup.mem_erase_iff.mp hin'
  exact (h.tidy hrunning e hin hidle).resolve_right fun hdisposing =>
    hdisposing (disposing_of_ne hd (Ne.symm hne))

theorem Invariant.resume (h : Invariant options s) {d : Disposal} (hd : s.mutex = some d)
    (hphase : d.phase = .removal) : Invariant options ((s.remove d.entry).resume d.after) := by
  obtain ⟨hdisposing, hok⟩ := h.consistent.after d hd
  have hmem := ((h.consistent.entry d.entry).disposed _ hdisposing).1
  have hremoved := h.remove hd hphase
  have hentries : (s.remove d.entry).entries = s.entries.erase d.entry :=
    h.consistent.delete_eq hmem
  unfold Disposal.Ok at hok
  cases hafter : d.after with
  | insert i key =>
    rw [hafter] at hok
    refine hremoved.insert rfl hok.1 rfl nofun (fun e hin => hok.2 e ?_) ?_
    · exact mem_of_mem_erase (hentries ▸ hin)
    · have hpos := length_pos_of_mem hmem
      have hbound := h.consistent.bound
      rw [hentries, length_erase_of_mem hmem]
      omega
  | released i =>
    rw [hafter] at hok
    exact hremoved.setQuestion hok nofun nofun rfl (.inl rfl) nofun nofun
  | expired t => exact hremoved.wake nofun
  | drain rest =>
    rw [hafter] at hok
    obtain ⟨hstage, hall⟩ := hok
    have hrest : (s.remove d.entry).entries = rest := by
      rw [hentries, hall, erase_cons_head]
    exact hrest ▸ hremoved.drain rfl hstage

theorem Invariant.advance (h : Invariant options s) {d : Disposal} (hd : s.mutex = some d)
    (hs : s.advance d = some s') : Invariant options s' := by
  obtain ⟨hdisposing, hok⟩ := h.consistent.after d hd
  obtain ⟨hmem, hidle, htimer, hworker⟩ := (h.consistent.entry d.entry).disposed _ hdisposing
  unfold Pool.advance at hs
  cases hphase : d.phase with
  | worker =>
    simp only [hphase] at hs
    split at hs
    · next hended =>
      obtain rfl := some.inj hs
      refine ⟨h.consistent.hold (d := { d with phase := .resources }) (fun d' hd' => ?_) hmem hidle htimer
        (fun _ => hended) nofun hok, h.tidy.frame id fun e hin hzero => ⟨hin, hzero, id, ?_⟩⟩
      · obtain rfl := some.inj (hd.symm.trans hd')
        exact ⟨rfl, hphase ▸ nofun⟩
      · exact disposing_ne { d with phase := .resources } hd rfl rfl
    · exact absurd hs nofun
  | resources =>
    simp only [hphase] at hs
    obtain rfl := some.inj hs
    refine ⟨h.consistent.close hd hphase, h.tidy.frame id fun e hin hzero => ⟨hin, ?_, ?_, ?_⟩⟩
    · refine (modify_field (·.leases) ?_ e).symm.trans hzero
      exact Entry.close_field (·.leases) (fun _ _ => rfl) _
    · refine (modify_field (·.state) ?_ e).trans
      exact Entry.close_field (·.state) (fun _ _ => rfl) _
    · exact disposing_ne { d with phase := .removal } hd rfl rfl
  | removal =>
    simp only [hphase] at hs
    obtain rfl := some.inj hs
    exact h.resume hd hphase

theorem Invariant.shutdown (h : Invariant options s) (hs : s.shutdown = some s') :
    Invariant options s' := by
  have hclosed : ∀ {stage : Stage}, s.stage ≠ .pool → stage ≠ .running → stage ≠ .gone →
      (stage.drained → ∀ question ∈ s.questions, question = .done) →
      Invariant options { s with stage } := fun hpool hstage hgone hdrained =>
    ⟨h.consistent.setStage (fun heq => absurd heq hpool) hdrained (fun heq => absurd heq hgone),
      Tidy.closed hstage⟩
  unfold Pool.shutdown at hs
  cases hstage : s.stage with
  | running | closed =>
    simp only [hstage] at hs
    obtain rfl := some.inj hs
    exact hclosed (hstage ▸ nofun) nofun nofun nofun
  | calls =>
    simp only [hstage] at hs
    split at hs
    · next hall =>
      obtain rfl := some.inj hs
      exact hclosed (hstage ▸ nofun) nofun nofun fun _ question hmem => by
        simpa using all_eq_true.mp hall question hmem
    · exact absurd hs nofun
  | background =>
    simp only [hstage] at hs
    split at hs
    · obtain rfl := some.inj hs
      exact hclosed (hstage ▸ nofun) nofun nofun fun _ =>
        h.consistent.drained (hstage ▸ rfl)
    · exact absurd hs nofun
  | pool =>
    simp only [hstage] at hs
    split at hs
    · next hmutex =>
      obtain rfl := some.inj hs
      exact h.drain hmutex hstage
    · exact absurd hs nofun
  | gone =>
    simp only [hstage] at hs
    exact absurd hs nofun

/-! ## Runs -/

theorem Invariant.perform (h : Invariant options s)
    (hle : options.maxActiveQuestions ≤ options.maxCachedPrefixes) {event : Event}
    (hs : s.perform options event = some s') : Invariant options s' := by
  cases event with
  | ask =>
    simp only [Pool.perform] at hs
    split at hs
    · next hstage =>
      obtain rfl := some.inj hs
      refine ⟨h.consistent.ask ?_, h.tidy.frame id fun _ hin hidle => ⟨hin, hidle, id, id⟩⟩
      obtain hstage | hstage := hstage <;> rw [hstage] <;> rfl
    · exact absurd hs nofun
  | enter i =>
    simp only [Pool.perform] at hs
    split at hs
    · next hi =>
      obtain rfl := some.inj hs
      exact h.setQuestion hi.1 nofun nofun (Nat.sub_add_cancel hi.2) (.inr ⟨nofun, nofun⟩) nofun nofun
    · exact absurd hs nofun
  | acquire i key =>
    simp only [Pool.perform] at hs
    split at hs
    · next hi =>
      obtain rfl := some.inj hs
      exact h.acquire hle hi.2 hi.1 key
    · exact absurd hs nofun
  | release i =>
    simp only [Pool.perform] at hs
    split at hs
    · next e hi =>
      split at hs
      · next hmutex =>
        obtain rfl := some.inj hs
        exact h.release hmutex hi
      · exact absurd hs nofun
    · exact absurd hs nofun
  | leave i =>
    simp only [Pool.perform] at hs
    split at hs
    · next hi =>
      obtain rfl := some.inj hs
      exact h.setQuestion hi nofun nofun rfl (.inr ⟨nofun, nofun⟩) nofun nofun
    · next hi =>
      obtain rfl := some.inj hs
      exact h.setQuestion hi nofun nofun rfl (.inr ⟨nofun, nofun⟩) nofun nofun
    · next hi =>
      obtain rfl := some.inj hs
      exact h.setQuestion hi nofun nofun rfl (.inr ⟨nofun, nofun⟩) nofun nofun
    · exact absurd hs nofun
  | start e =>
    simp only [Pool.perform] at hs
    exact h.fails hs (by rintro ⟨⟩) fun entry hloading hcloses =>
      ⟨rfl, rfl, rfl, fun hne => absurd hloading hne, by simp [hcloses, hloading], by simp [hloading]⟩
  | succeed e =>
    simp only [Pool.perform] at hs
    obtain ⟨s'', hwork, rfl⟩ := map_eq_some_iff.mp hs
    unfold Pool.work at hwork
    split at hwork
    · next hworker =>
      obtain rfl := some.inj hwork
      have halive : Worker.running ≠ .ended := by rintro ⟨⟩
      refine h.worker halive hworker (fun entry _ hcloses => ?_) rfl
      exact ⟨rfl, rfl, rfl, fun _ => rfl, by simp [hcloses], by simp⟩
    · exact absurd hwork nofun
  | fail e =>
    simp only [Pool.perform] at hs
    refine h.fails hs (by rintro ⟨⟩) fun entry hloading hcloses => ?_
    have hopen : entry.closes = 0 := hcloses
    simp [Entry.close, hopen, hloading]
  | failed e =>
    simp only [Pool.perform] at hs
    exact h.fails hs (by rintro ⟨⟩) fun entry _ hcloses =>
      ⟨rfl, rfl, rfl, fun _ => rfl, by simp [hcloses], by simp⟩
  | abandon e =>
    simp only [Pool.perform] at hs
    split at hs
    · exact h.fails hs (by rintro ⟨⟩) fun entry hloading hcloses =>
        ⟨rfl, rfl, rfl, fun _ => rfl, by simp [hcloses, hloading], by simp [hloading]⟩
    · exact absurd hs nofun
  | wake t =>
    simp only [Pool.perform] at hs
    split at hs
    · next hsleeping =>
      obtain rfl := some.inj hs
      exact h.wake fun _ => .inl hsleeping
    · exact absurd hs nofun
  | expire t =>
    simp only [Pool.perform] at hs
    split at hs
    · next hwaiting =>
      obtain rfl := some.inj hs
      exact h.expire hwaiting.2 hwaiting.1
    · exact absurd hs nofun
  | interrupt t =>
    simp only [Pool.perform] at hs
    split at hs
    · obtain rfl := some.inj hs
      exact h.wake (by rintro (h | h) <;> cases h)
    · exact absurd hs nofun
  | advance =>
    obtain ⟨d, hd, hs⟩ := bind_eq_some_iff.mp hs
    exact h.advance hd hs
  | shutdown => exact h.shutdown hs

theorem Invariant.empty (options : Options) : Invariant options (.empty options) where
  consistent :=
    { entry _ := ⟨rfl, fun hne => absurd rfl hne, nofun, fun hne => absurd rfl hne, fun _ => rfl, nofun,
        fun _ => rfl, nofun⟩
      timer _ ht := ht.elim nofun nofun
      after _ := nofun
      keys := nodup_nil
      bound := Nat.zero_le _
      slots := rfl
      rejected := nofun
      live := rfl
      drained _ _ := nofun
      gone _ := rfl }
  tidy _ _ := nofun

theorem Invariant.reachable (hle : options.maxActiveQuestions ≤ options.maxCachedPrefixes)
    (h : (system options).Reachable s) : Invariant options s :=
  System.invariant (fun _ hinit => hinit ▸ .empty options) (fun _ _ hinv ⟨_, hs⟩ => hinv.perform hle hs) h

/-- An entry that left the pool was closed once. A leased entry is in the pool, and its
resources are open unless its own prefill has failed. -/
theorem decisionPool_sound (hle : options.maxActiveQuestions ≤ options.maxCachedPrefixes)
    (h : (system options).Reachable s) :
    s.entries.length ≤ options.maxCachedPrefixes ∧
    (s.entries.map fun e => (s.heap e).key).Nodup ∧
    .settled (some "No idle prefix cache slot") ∉ s.questions ∧
    (∀ e, (s.heap e).leases = s.questions.count (.leased e)) ∧
    (∀ e, (s.heap e).closes ≤ 1) ∧
    (∀ e < s.fresh, e ∉ s.entries → (s.heap e).closes = 1) ∧
    (∀ e, (s.heap e).leases ≠ 0 → e ∈ s.entries ∧
      ((s.heap e).closes ≠ 0 → (s.heap e).state = .failed ∨ (s.heap e).worker = .closing)) ∧
    (s.livePrefixes = s.entries.countP fun e => (s.heap e).state = .ready) ∧
    (s.stage = .running → s.mutex = none → ∀ e ∈ s.entries, (s.heap e).leases = 0 →
      (s.heap e).state = .ready) ∧
    (s.stage = .gone → s.entries = []) := by
  obtain ⟨hconsistent, htidy⟩ := Invariant.reachable hle h
  have hentry := hconsistent.entry
  refine ⟨hconsistent.bound, hconsistent.keys, hconsistent.rejected, fun e => (hentry e).leases,
    fun e => ?_, fun e he hout => ((hentry e).spent hout).trans (if_pos he),
    fun e hleases => ⟨(hentry e).held hleases, fun hcloses => ?_⟩, hconsistent.live,
    fun hrunning hmutex e hin hidle => htidy.ready hmutex hrunning hin hidle, hconsistent.gone⟩
  · by_cases hin : e ∈ s.entries
    · rw [(hentry e).closes hin]
      split <;> decide
    · rw [(hentry e).spent hin]
      split <;> decide
  · rw [(hentry e).closes ((hentry e).held hleases)] at hcloses
    obtain hfailed | hclosing | hremoval := of_not_not fun hnone => hcloses (if_neg hnone)
    · exact .inl hfailed
    · exact .inr hclosing
    · exact absurd ((hentry e).disposed _ hremoval).2.1 hleases

/-- The state behind some events. -/
def Pool.run (options : Options) : Pool → List Event → Option Pool
  | s, [] => some s
  | s, event :: events => (s.perform options event).bind fun s' => run options s' events

theorem run_reachable {events : List Event} (h : (system options).Reachable s)
    (hrun : s.run options events = some s') : (system options).Reachable s' := by
  induction events generalizing s with
  | nil => exact some.inj hrun ▸ h
  | cons event events ih =>
    obtain ⟨next, hperform, hrest⟩ := bind_eq_some_iff.mp hrun
    exact ih (.step h ⟨event, hperform⟩) hrest

/-- A second question evicts the entry of the first. -/
def evictionEvents : List Event :=
  [.ask, .enter 0, .acquire 0 [7], .start 0, .succeed 0, .release 0, .leave 0,
    .ask, .enter 1, .acquire 1 [8], .advance, .advance, .advance]

theorem decisionPool_eviction : ∃ s, (Pool.empty ⟨1, 1⟩).run ⟨1, 1⟩ evictionEvents = some s ∧
    s.entries = [1] ∧ s.livePrefixes = 0 ∧ (s.heap 0).closes = 1 ∧ (s.heap 1).leases = 1 ∧
    (0 < s.fresh → 0 ∉ s.entries → (s.heap 0).closes = 1) := by
  have hrun : ((Pool.empty ⟨1, 1⟩).run ⟨1, 1⟩ evictionEvents).map (fun s =>
      (s.entries, s.livePrefixes, (s.heap 0).closes, (s.heap 1).leases)) = some ([1], 0, 1, 1) := by
    decide
  obtain ⟨s, hs, hvalues⟩ := map_eq_some_iff.mp hrun
  obtain ⟨hentries, hrest⟩ := Prod.mk.inj hvalues
  obtain ⟨hlive, hrest⟩ := Prod.mk.inj hrest
  obtain ⟨hcloses, hleases⟩ := Prod.mk.inj hrest
  exact ⟨s, hs, hentries, hlive, hcloses, hleases,
    (decisionPool_sound (Nat.le_refl 1) (run_reachable (.init rfl) hs)).2.2.2.2.2.1 0⟩

/-- The prefill of a question fails, and closes the resources while the question still has its
lease. -/
theorem leased_prefix_closed : ∃ s, (system ⟨1, 1⟩).Reachable s ∧
    ∃ e ∈ s.entries, (s.heap e).leases = 1 ∧ (s.heap e).closes = 1 := by
  have hrun : ((Pool.empty ⟨1, 1⟩).run ⟨1, 1⟩
      [.ask, .enter 0, .acquire 0 [7], .start 0, .fail 0]).map (fun s =>
        (s.entries, (s.heap 0).leases, (s.heap 0).closes)) = some ([0], 1, 1) := by
    decide
  obtain ⟨s, hs, hvalues⟩ := map_eq_some_iff.mp hrun
  obtain ⟨hentries, hrest⟩ := Prod.mk.inj hvalues
  obtain ⟨hleases, hcloses⟩ := Prod.mk.inj hrest
  exact ⟨s, run_reachable (.init rfl) hs, 0, by rw [hentries]; exact mem_cons_self, hleases, hcloses⟩

end Events

end DecisionEngine

end EffectTorch
