import EffectTorch.Lib.Handles
import EffectTorch.Serve.DecisionPool
import Mathlib.Data.List.Nodup

/-!
# What holds of the pool

`EntryOk` is about one entry, `TimerOk` about one live timer; `Consistent` adds what holds of
the pool as a whole. It holds also inside an operation that holds the mutex. `Tidy` says which
entries may be idle, and holds between the operations.

Results:
1. `Consistent.exists_idle`: a question that is about to acquire finds an idle entry in a full
   pool.
2. `Consistent.setQuestion` to `Consistent.shutdown`: what the parts of the operations keep.
-/

namespace EffectTorch

namespace DecisionEngine
open List Option Function Lib

/-! ## One entry -/

namespace Pool

/-- Where `dispose` stands if it disposes of `e`. -/
def disposing (s : Pool) (e : Nat) : Option Phase :=
  (s.mutex.filter (·.entry = e)).map (·.phase)

end Pool

/-- `leases` counts the questions that hold the entry. Its resources are closed when the
prefill has failed or `dispose` is through with them. -/
structure EntryOk (s : Pool) (e : Nat) : Prop where
  leases : (s.heap e).leases = s.questions.count (.leased e)
  held : (s.heap e).leases ≠ 0 → e ∈ s.entries
  known : e ∈ s.entries → e < s.fresh
  worked : (s.heap e).state ≠ .loading → (s.heap e).worker = .ended
  left : e ∉ s.entries → (s.heap e).worker = .ended
  closes : e ∈ s.entries → (s.heap e).closes =
    if (s.heap e).state = .failed ∨ (s.heap e).worker = .closing ∨ s.disposing e = some .removal
    then 1 else 0
  spent : e ∉ s.entries → (s.heap e).closes = if e < s.fresh then 1 else 0
  disposed : ∀ phase, s.disposing e = some phase → e ∈ s.entries ∧ (s.heap e).leases = 0 ∧
    (s.heap e).timer = none ∧ (phase ≠ .worker → (s.heap e).worker = .ended)

def Timer.alive (timer : Timer) : Prop := timer.state = .sleeping ∨ timer.state = .waiting

/-- A timer that can still fire is the one its entry knows, and the entry is idle. -/
structure TimerOk (s : Pool) (t e : Nat) : Prop where
  timer : (s.heap e).timer = some t
  mem : e ∈ s.entries
  idle : (s.heap e).leases = 0

/-- What the operation that disposes of an entry relies on afterwards. -/
def Disposal.Ok (s : Pool) (d : Disposal) : Prop :=
  match d.after with
  | .insert i key => s.questions[i]? = some .acquiring ∧ ∀ e ∈ s.entries, (s.heap e).key ≠ key
  | .released i => s.questions[i]? = some .releasing
  | .expired _ => True
  | .drain rest => s.stage = .pool ∧ s.entries = d.entry :: rest

structure Consistent (options : Options) (s : Pool) : Prop where
  entry : ∀ e, EntryOk s e
  timer : ∀ t, (s.timers t).alive → TimerOk s t (s.timers t).entry
  after : ∀ d, s.mutex = some d → s.disposing d.entry = some d.phase ∧ d.Ok s
  keys : (s.entries.map fun e => (s.heap e).key).Nodup
  bound : s.entries.length ≤ options.maxCachedPrefixes
  slots : s.slots + s.questions.countP Question.inSlot = options.maxActiveQuestions
  rejected : .settled (some "No idle prefix cache slot") ∉ s.questions
  live : s.livePrefixes = s.entries.countP fun e => (s.heap e).state = .ready
  drained : s.stage.drained → ∀ question ∈ s.questions, question = .done
  gone : s.stage = .gone → s.entries = []

/-- Until the engine closes, an entry without a lease is ready, unless `dispose` has it. -/
def Tidy (s : Pool) : Prop :=
  s.stage = .running → ∀ e ∈ s.entries, (s.heap e).leases = 0 →
    (s.heap e).state = .ready ∨ s.disposing e ≠ none

section Basics

variable {options : Options} {s s' : Pool} {e e' i t : Nat} {question : Question} {entry : Entry}

theorem EntryOk.frame (h : EntryOk s e) (hheap : s'.heap e = s.heap e)
    (hmem : e ∈ s'.entries ↔ e ∈ s.entries) (hfresh : e < s'.fresh ↔ e < s.fresh)
    (hcount : s'.questions.count (.leased e) = s.questions.count (.leased e))
    (hdisposing : s'.disposing e = s.disposing e) : EntryOk s' e := by
  constructor <;> simp only [hheap, hmem, hfresh, hcount, hdisposing]
  · exact h.leases
  · exact h.held
  · exact h.known
  · exact h.worked
  · exact h.left
  · exact h.closes
  · exact h.spent
  · exact h.disposed

/-- The entry changes in place, its leases stay. -/
theorem EntryOk.modify (h : EntryOk s e) (hheap : s'.heap e = entry) (hentries : s'.entries = s.entries)
    (hfresh : s'.fresh = s.fresh) (hquestions : s'.questions = s.questions)
    (hleases : entry.leases = (s.heap e).leases)
    (hworked : entry.state ≠ .loading → entry.worker = .ended)
    (hleft : e ∉ s.entries → entry.worker = .ended ∧ entry.closes = (s.heap e).closes)
    (hcloses : e ∈ s.entries → entry.closes =
      if entry.state = .failed ∨ entry.worker = .closing ∨ s'.disposing e = some .removal then 1 else 0)
    (hdisposed : ∀ phase, s'.disposing e = some phase → e ∈ s.entries ∧ entry.leases = 0 ∧
      entry.timer = none ∧ (phase ≠ .worker → entry.worker = .ended)) : EntryOk s' e := by
  constructor <;> simp only [hheap, hentries, hfresh, hquestions]
  · exact hleases.trans h.leases
  · exact fun hne => h.held (hleases ▸ hne)
  · exact h.known
  · exact hworked
  · exact fun hout => (hleft hout).1
  · exact hcloses
  · exact fun hout => (hleft hout).2.trans (h.spent hout)
  · exact hdisposed

theorem EntryOk.leased (h : EntryOk s e) (hleased : .leased e ∈ s.questions) :
    (s.heap e).leases ≠ 0 := by
  rw [h.leases]
  exact fun hzero => Nat.ne_of_gt (count_pos_iff.mpr hleased) (Int.ofNat.inj hzero)

theorem TimerOk.frame (h : TimerOk s t e) (htimer : (s'.heap e).timer = (s.heap e).timer)
    (hmem : e ∈ s.entries → e ∈ s'.entries) (hleases : (s'.heap e).leases = (s.heap e).leases) :
    TimerOk s' t e :=
  ⟨htimer.trans h.timer, hmem h.mem, hleases.trans h.idle⟩

theorem modify_self (f : Entry → Entry) : (s.modify e f).heap e = f (s.heap e) := update_self ..

theorem modify_of_ne (hne : e' ≠ e) (f : Entry → Entry) : (s.modify e f).heap e' = s.heap e' :=
  update_of_ne hne ..

/-- A field that `f` leaves alone. -/
theorem modify_field {β : Type} (g : Entry → β) {f : Entry → Entry}
    (hf : g (f (s.heap e)) = g (s.heap e)) (e' : Nat) :
    g ((s.modify e f).heap e') = g (s.heap e') := by
  by_cases heq : e' = e
  · rw [heq, modify_self, hf]
  · rw [modify_of_ne heq]

theorem setTimer_field {β : Type} (timer : Option Nat) (g : Entry → β)
    (hg : ∀ entry : Entry, g (entry.setTimer timer) = g entry) (e' : Nat) :
    g ((s.modify e (.setTimer timer)).heap e') = g (s.heap e') :=
  modify_field g (hg _) e'

theorem Entry.close_field {β : Type} (g : Entry → β) (hg : ∀ entry closes, g { entry with closes } = g entry)
    (entry : Entry) : g entry.close = g entry := by
  rw [close]
  split
  · exact hg _ _
  · rfl

theorem Entry.close_closes (entry : Entry) :
    entry.close.closes = if entry.closes = 0 then 1 else entry.closes := by
  rw [close]
  split <;> rfl

theorem disposing_none (hmutex : s.mutex = none) (e : Nat) : s.disposing e = none := by
  rw [Pool.disposing, hmutex]
  rfl

theorem disposing_of_ne {d : Disposal} (hmutex : s.mutex = some d) (hne : d.entry ≠ e) :
    s.disposing e = none := by
  rw [Pool.disposing, hmutex, filter_some_neg (by simpa using hne)]
  rfl

theorem disposing_self {d : Disposal} (hmutex : s.mutex = some d) :
    s.disposing d.entry = some d.phase := by
  rw [Pool.disposing, hmutex, filter_some_pos (by simp)]
  rfl

theorem Consistent.nodup (h : Consistent options s) : s.entries.Nodup := List.Nodup.of_map _ h.keys

/-- `entries.delete(key)` takes one entry out. -/
theorem Consistent.delete_eq (h : Consistent options s) (he : e ∈ s.entries) :
    s.delete (s.heap e).key = s.entries.erase e := by
  rw [h.nodup.erase_eq_filter]
  refine filter_congr fun e' he' => ?_
  have hinj : (s.heap e').key = (s.heap e).key ↔ e' = e :=
    ⟨fun hkey => inj_on_of_nodup_map h.keys he' he hkey, fun heq => by rw [heq]⟩
  simp only [ne_eq, hinj, decide_not]
  rfl

end Basics

/-! ## Idle entries -/

section Parts

variable {options : Options} {s s' : Pool} {e i : Nat} {question question' : Question}

/-- Every lease belongs to a question in a slot, and the question that acquires has a slot and
no lease. -/
theorem Consistent.exists_idle (h : Consistent options s)
    (hle : options.maxActiveQuestions ≤ options.maxCachedPrefixes)
    (hi : s.questions[i]? = some .slot) (hfull : s.entries.length = options.maxCachedPrefixes) :
    ∃ e ∈ s.entries, (s.heap e).leases = 0 := by
  by_contra hnone
  have hleased : ∀ e ∈ s.entries, Question.leased e ∈ s.questions := by
    intro e he
    have hne : (s.heap e).leases ≠ 0 := fun hzero => hnone ⟨e, he, hzero⟩
    rw [(h.entry e).leases] at hne
    exact count_pos_iff.mp (Nat.pos_of_ne_zero fun hzero => hne (by rw [hzero]; rfl))
  have hnodup : (Question.slot :: s.entries.map Question.leased).Nodup :=
    nodup_cons.mpr ⟨by simp, h.nodup.map fun _ _ heq => Question.leased.inj heq⟩
  have hsub : Question.slot :: s.entries.map Question.leased ⊆ s.questions.filter Question.inSlot := by
    intro question hquestion
    obtain rfl | hmem := mem_cons.mp hquestion
    · exact mem_filter.mpr ⟨mem_of_getElem? hi, rfl⟩
    · obtain ⟨e, he, rfl⟩ := mem_map.mp hmem
      exact mem_filter.mpr ⟨hleased e he, rfl⟩
  have hlength := (hnodup.subperm hsub).length_le
  rw [length_cons, length_map, ← countP_eq_length_filter, hfull] at hlength
  have hslots := h.slots
  omega

/-! ## Questions -/

theorem Disposal.Ok.frame {d : Disposal} (h : d.Ok s)
    (hquestions : ∀ (i : Nat) (question : Question), question = .acquiring ∨ question = .releasing →
      s.questions[i]? = some question → s'.questions[i]? = some question)
    (hentries : s'.entries = s.entries) (hkeys : ∀ e, (s'.heap e).key = (s.heap e).key)
    (hstage : s'.stage = s.stage) : d.Ok s' := by
  unfold Ok at h ⊢
  cases hafter : d.after with
  | insert i key =>
    rw [hafter] at h
    refine ⟨hquestions i .acquiring (.inl rfl) h.1, fun e he => ?_⟩
    rw [hkeys e]
    exact h.2 e (hentries ▸ he)
  | released i =>
    rw [hafter] at h
    exact hquestions i .releasing (.inr rfl) h
  | expired t => trivial
  | drain rest =>
    rw [hafter] at h
    exact ⟨hstage.trans h.1, hentries.trans h.2⟩

theorem Consistent.setQuestions (h : Consistent options s) {questions : List Question} {slots : Nat}
    (hcount : ∀ e, questions.count (.leased e) = s.questions.count (.leased e))
    (hslots : slots + questions.countP Question.inSlot = options.maxActiveQuestions)
    (hafter : ∀ d, s.mutex = some d → ∀ (i : Nat) (question : Question), question = .acquiring ∨ question = .releasing →
      s.questions[i]? = some question → questions[i]? = some question)
    (hrejected : .settled (some "No idle prefix cache slot") ∉ questions)
    (hdrained : s.stage.drained → ∀ question ∈ questions, question = .done) :
    Consistent options { s with questions, slots } where
  entry e := (h.entry e).frame rfl Iff.rfl Iff.rfl (hcount e) rfl
  timer t ht := (h.timer t ht).frame rfl id rfl
  after d hd := ⟨(h.after d hd).1, (h.after d hd).2.frame (hafter d hd) rfl (fun _ => rfl) rfl⟩
  keys := h.keys
  bound := h.bound
  slots := hslots
  rejected := hrejected
  live := h.live
  drained := hdrained
  gone := h.gone

/-- A question moves on without a lease. The slots follow. -/
theorem Consistent.setQuestion (h : Consistent options s) (hi : s.questions[i]? = some question)
    {slots : Nat} (hleased : ∀ e, question ≠ .leased e) (hleased' : ∀ e, question' ≠ .leased e)
    (hslots : slots + (if question'.inSlot then 1 else 0) = s.slots + (if question.inSlot then 1 else 0))
    (hmutex : s.mutex = none ∨ question ≠ .acquiring ∧ question ≠ .releasing)
    (hrejected : question' ≠ .settled (some "No idle prefix cache slot")) (hdone : question ≠ .done) :
    Consistent options { s.setQuestion i question' with slots } := by
  refine h.setQuestions (fun e => ?_) ?_ (fun d hd j other hother hj => ?_) (fun hmem => ?_)
    fun hdrained => ?_
  · have hcount := countP_set_add (· == Question.leased e) question' hi
    rw [if_neg (by simpa using hleased e), if_neg (by simpa using hleased' e)] at hcount
    exact hcount
  · have hcount := countP_set_add Question.inSlot question' hi
    have hsum := h.slots
    change slots + (s.questions.set i question').countP Question.inSlot = _
    omega
  · have hne : question ≠ .acquiring ∧ question ≠ .releasing :=
      hmutex.resolve_left (hd ▸ nofun)
    refine getElem?_set_other question' hi hj fun heq => ?_
    obtain rfl | rfl := hother
    · exact hne.1 heq
    · exact hne.2 heq
  · obtain hmem | heq := mem_or_eq_of_mem_set hmem
    · exact h.rejected hmem
    · exact hrejected heq.symm
  · exact absurd (h.drained hdrained question (mem_of_getElem? hi)) hdone

theorem Consistent.ask (h : Consistent options s) (hstage : s.stage.drained = false) :
    Consistent options { s with questions := s.questions ++ [.queued] } := by
  refine h.setQuestions (fun e => ?_) ?_ (fun d hd j other hother hj => ?_) (fun hmem => ?_)
    fun hdrained => ?_
  · simp
  · simpa [countP_append, Question.inSlot] using h.slots
  · exact List.getElem?_append_left (List.getElem?_eq_some_iff.mp hj).1 ▸ hj
  · simp only [mem_append, mem_singleton, reduceCtorEq, or_false] at hmem
    exact h.rejected hmem
  · exact absurd (hstage.symm.trans hdrained) Bool.false_ne_true

/-! ## Workers -/

theorem Consistent.countP_modify (h : Consistent options s) (he : e ∈ s.entries) (f : Entry → Entry)
    (p : Entry → Bool) :
    (s.entries.countP fun e' => p ((s.modify e f).heap e')) + (if p (s.heap e) then 1 else 0) =
      (s.entries.countP fun e' => p (s.heap e')) + (if p (f (s.heap e)) then 1 else 0) := by
  have hperm := perm_cons_erase he
  have hrest : ((s.entries.erase e).countP fun e' => p ((s.modify e f).heap e')) =
      (s.entries.erase e).countP fun e' => p (s.heap e') :=
    countP_congr fun e' he' => by
      rw [modify_of_ne (h.nodup.mem_erase_iff.mp he').1]
  rw [hperm.countP_eq, hperm.countP_eq (fun e' => p (s.heap e')), countP_cons, countP_cons,
    hrest, modify_self]
  exact Nat.add_right_comm _ _ _

/-- The worker of an entry takes a step: key, leases and timer stay. -/
theorem Consistent.work (h : Consistent options s) {f : Entry → Entry} {prefills : Nat}
    {livePrefixes : Int} (halive : (s.heap e).worker ≠ .ended)
    (hkey : (f (s.heap e)).key = (s.heap e).key) (hleases : (f (s.heap e)).leases = (s.heap e).leases)
    (htimer : (f (s.heap e)).timer = (s.heap e).timer)
    (hworked : (f (s.heap e)).state ≠ .loading → (f (s.heap e)).worker = .ended)
    (hcloses : (f (s.heap e)).closes =
      if (f (s.heap e)).state = .failed ∨ (f (s.heap e)).worker = .closing then 1 else 0)
    (hlive : livePrefixes = s.livePrefixes + (if (f (s.heap e)).state = .ready then 1 else 0)) :
    Consistent options { s.modify e f with prefills, livePrefixes } := by
  have hok := h.entry e
  have hmem : e ∈ s.entries := by_contra fun hout => halive (hok.left hout)
  have hloading : (s.heap e).state = .loading := by_contra fun hne => halive (hok.worked hne)
  have hkeys := modify_field (·.key) hkey
  have hphase : ∀ phase, s.disposing e = some phase → phase = .worker := fun phase hphase =>
    by_contra fun hne => halive ((hok.disposed phase hphase).2.2.2 hne)
  have hremoval : s.disposing e ≠ some .removal := fun hremoval => absurd (hphase _ hremoval) nofun
  refine ⟨fun e' => ?_, fun t ht => ?_, fun d hd => ?_, ?_, h.bound, h.slots, h.rejected, ?_,
    h.drained, h.gone⟩
  · by_cases heq : e' = e
    · subst heq
      refine hok.modify (modify_self f) rfl rfl rfl hleases hworked (fun hout => absurd hmem hout) (fun _ => ?_)
        fun phase hd => ?_
      · rw [hcloses]
        exact if_congr (by simp [Pool.disposing] at hremoval ⊢; tauto) rfl rfl
      · obtain ⟨-, hzero, hnone, -⟩ := hok.disposed phase hd
        exact ⟨hmem, hleases.trans hzero, htimer.trans hnone, fun hne => absurd (hphase phase hd) hne⟩
    · exact (h.entry e').frame (modify_of_ne heq f) Iff.rfl Iff.rfl rfl rfl
  · exact (h.timer t ht).frame (modify_field (·.timer) htimer _) id (modify_field (·.leases) hleases _)
  · exact ⟨(h.after d hd).1, (h.after d hd).2.frame (fun _ _ _ hi => hi) rfl hkeys rfl⟩
  · have hmap : (s.entries.map fun e' => ((s.modify e f).heap e').key) =
        s.entries.map fun e' => (s.heap e').key := map_congr_left fun e' _ => hkeys e'
    exact hmap ▸ h.keys
  · have hcount := h.countP_modify hmem f fun entry => entry.state = .ready
    simp only [hloading, reduceCtorEq, decide_false, Bool.false_eq_true, if_false, Nat.add_zero,
      decide_eq_true_eq] at hcount
    dsimp only
    rw [hlive, h.live]
    by_cases hready : (f (s.heap e)).state = .ready
    · rw [if_pos hready] at hcount ⊢
      exact (congrArg Int.ofNat hcount).symm
    · rw [if_neg hready] at hcount ⊢
      exact (Int.add_zero _).trans (congrArg Int.ofNat hcount).symm

/-! ## Timers -/

theorem Consistent.setTimers (h : Consistent options s) {timers : Nat → Timer}
    (halive : ∀ t, (timers t).alive →
      (s.timers t).alive ∧ (timers t).entry = (s.timers t).entry) :
    Consistent options { s with timers } := by
  refine ⟨fun e => (h.entry e).frame rfl Iff.rfl Iff.rfl rfl rfl, fun t ht => ?_, h.after, h.keys,
    h.bound, h.slots, h.rejected, h.live, h.drained, h.gone⟩
  obtain ⟨hwas, hentry⟩ := halive t ht
  change TimerOk _ t (timers t).entry
  rw [hentry]
  exact (h.timer t hwas).frame rfl id rfl

/-- The timer that an entry knows changes, together with the timers. -/
theorem Consistent.setTimer (h : Consistent options s) {timer : Option Nat} {timers : Nat → Timer}
    {nextTimer : Nat} (htimer : s.disposing e ≠ none → timer = none)
    (halive : ∀ t, (timers t).alive →
      ((s.timers t).alive ∧ (timers t).entry = (s.timers t).entry ∧ (timers t).entry ≠ e) ∨
        ((timers t).entry = e ∧ timer = some t ∧ e ∈ s.entries ∧ (s.heap e).leases = 0)) :
    Consistent options
      { s.modify e (.setTimer timer) with timers, nextTimer } := by
  refine ⟨fun e' => ?_, fun t ht => ?_, fun d hd => ?_, ?_, h.bound, h.slots, h.rejected, ?_,
    h.drained, h.gone⟩
  · by_cases heq : e' = e
    · subst heq
      have hok := h.entry e'
      refine hok.modify (modify_self (.setTimer timer)) rfl rfl rfl rfl hok.worked (fun hout => ⟨hok.left hout, rfl⟩)
        hok.closes fun phase hphase => ?_
      obtain ⟨hmem, hleases, -, hworker⟩ := hok.disposed phase hphase
      have hsome : s.disposing e' = some phase := hphase
      exact ⟨hmem, hleases, htimer (hsome ▸ nofun), hworker⟩
    · exact (h.entry e').frame (modify_of_ne heq (.setTimer timer)) Iff.rfl Iff.rfl rfl rfl
  · obtain ⟨hwas, hentry, hne⟩ | ⟨hentry, hsome, hmem, hidle⟩ := halive t ht
    · change TimerOk _ t (timers t).entry
      rw [hentry] at hne ⊢
      exact (h.timer t hwas).frame (congrArg Entry.timer (modify_of_ne hne (.setTimer timer))) id
        (setTimer_field _ (·.leases) (fun _ => rfl) _)
    · change TimerOk _ t (timers t).entry
      rw [hentry]
      exact ⟨(congrArg Entry.timer (modify_self (.setTimer timer))).trans hsome, hmem,
        (setTimer_field _ (·.leases) (fun _ => rfl) e).trans hidle⟩
  · exact ⟨(h.after d hd).1, (h.after d hd).2.frame (fun _ _ _ hi => hi) rfl
      (setTimer_field _ (·.key) fun _ => rfl) rfl⟩
  · have hmap := map_congr_left fun e' (_ : e' ∈ s.entries) =>
      (setTimer_field (s := s) (e := e) timer (·.key) (fun _ => rfl) e').symm
    exact hmap ▸ h.keys
  · refine h.live.trans (congrArg Nat.cast (countP_congr fun e' _ => ?_))
    rw [← setTimer_field (s := s) (e := e) timer (·.state) (fun _ => rfl) e']

theorem Consistent.cancelTimer (h : Consistent options s) (e : Nat) :
    Consistent options (s.cancelTimer e) := by
  unfold Pool.cancelTimer
  split
  · exact h
  · next t ht =>
    refine h.setTimer (fun _ => rfl) fun t' ht' => .inl ?_
    have hne : t' ≠ t := fun heq => by
      rw [heq, update_self] at ht'
      exact ht'.elim nofun nofun
    rw [update_of_ne hne] at ht' ⊢
    refine ⟨ht', rfl, fun hentry => hne ?_⟩
    have hknown := (h.timer t' ht').timer
    rw [hentry, ht] at hknown
    exact (some.inj hknown).symm

/-- `cancelTimer` changes the timer of its entry, and timers. -/
theorem cancelTimer_eq (s : Pool) (e : Nat) :
    s.cancelTimer e = { s.modify e (.setTimer none) with
      timers := (s.cancelTimer e).timers } := by
  cases ht : (s.heap e).timer with
  | none =>
    have hsame : (s.heap e).setTimer none = s.heap e := by rw [Entry.setTimer, ← ht]
    simp only [Pool.cancelTimer, ht, Pool.modify, hsame, update_eq_self]
  | some t => simp only [Pool.cancelTimer, ht]

@[simp]
theorem cancelTimer_entries (s : Pool) (e : Nat) : (s.cancelTimer e).entries = s.entries := by
  rw [cancelTimer_eq]
  rfl

@[simp]
theorem cancelTimer_questions (s : Pool) (e : Nat) : (s.cancelTimer e).questions = s.questions := by
  rw [cancelTimer_eq]
  rfl

@[simp]
theorem cancelTimer_mutex (s : Pool) (e : Nat) : (s.cancelTimer e).mutex = s.mutex := by
  rw [cancelTimer_eq]
  rfl

/-! ## The mutex -/

theorem Consistent.hold (h : Consistent options s) {d : Disposal}
    (hmutex : ∀ d', s.mutex = some d' → d'.entry = d.entry ∧ d'.phase ≠ .removal)
    (hmem : d.entry ∈ s.entries) (hidle : (s.heap d.entry).leases = 0)
    (htimer : (s.heap d.entry).timer = none)
    (hworker : d.phase ≠ .worker → (s.heap d.entry).worker = .ended) (hphase : d.phase ≠ .removal)
    (hok : d.Ok s) : Consistent options { s with mutex := some d } := by
  have hwas : s.disposing d.entry ≠ some .removal := by
    intro hremoval
    cases hd : s.mutex with
    | none => exact absurd ((disposing_none hd _).symm.trans hremoval) nofun
    | some d' =>
      obtain ⟨hentry, hne⟩ := hmutex d' hd
      exact hne (some.inj ((disposing_self hd).symm.trans (hentry ▸ hremoval)))
  have hself : ({ s with mutex := some d } : Pool).disposing d.entry = some d.phase := disposing_self rfl
  refine ⟨fun e => ?_, fun t ht => (h.timer t ht).frame rfl id rfl, fun d' hd => ?_, h.keys, h.bound,
    h.slots, h.rejected, h.live, h.drained, h.gone⟩
  · by_cases heq : e = d.entry
    · subst heq
      have hentry := h.entry d.entry
      refine hentry.modify rfl rfl rfl rfl rfl hentry.worked (fun hout => absurd hmem hout)
        (fun _ => ?_) fun phase hd => ?_
      · rw [hentry.closes hmem, hself]
        exact if_congr (by simp [hwas, hphase]) rfl rfl
      · have hphase' : d.phase = phase := some.inj (hself.symm.trans hd)
        exact ⟨hmem, hidle, htimer, fun hne => hworker (hphase' ▸ hne)⟩
    · refine (h.entry e).frame rfl Iff.rfl Iff.rfl rfl ?_
      rw [disposing_of_ne rfl (Ne.symm heq)]
      cases hd : s.mutex with
      | none => exact (disposing_none hd _).symm
      | some d' => exact (disposing_of_ne hd (by rw [(hmutex d' hd).1]; exact Ne.symm heq)).symm
  · obtain rfl := some.inj hd
    exact ⟨hself, hok.frame (fun _ _ _ hi => hi) rfl (fun _ => rfl) rfl⟩

/-- An operation begins to dispose of an idle entry. -/
theorem Consistent.dispose (h : Consistent options s) {after : After} (hmutex : s.mutex = none)
    (hmem : e ∈ s.entries) (hidle : (s.heap e).leases = 0)
    (hok : (⟨e, .worker, after⟩ : Disposal).Ok s) : Consistent options (s.dispose e after) := by
  have hcancelled := h.cancelTimer e
  rw [cancelTimer_eq] at hcancelled
  rw [Pool.dispose, cancelTimer_eq]
  refine hcancelled.hold (fun d hd => absurd (hmutex.symm.trans hd) nofun) hmem ?_ ?_
    (fun hne => absurd rfl hne) nofun ?_
  · exact (setTimer_field _ (·.leases) (fun _ => rfl) e).trans hidle
  · exact congrArg Entry.timer (modify_self (.setTimer none))
  · exact hok.frame (fun _ _ _ hi => hi) rfl (setTimer_field _ (·.key) fun _ => rfl) rfl

/-! ## Leases -/

/-- A question takes a lease or gives one back. -/
theorem Consistent.lease (h : Consistent options s) {delta : Int} (hmutex : s.mutex = none)
    (hmem : e ∈ s.entries) (hi : s.questions[i]? = some question)
    (hdelta : (if question' = .leased e then (1 : Int) else 0) =
      (if question = .leased e then 1 else 0) + delta)
    (hother : ∀ e', e' ≠ e → question ≠ .leased e' ∧ question' ≠ .leased e')
    (hslot : question.inSlot) (hslot' : question'.inSlot)
    (hquiet : ∀ t, (s.timers t).alive → (s.timers t).entry ≠ e)
    (hrejected : question' ≠ .settled (some "No idle prefix cache slot")) :
    Consistent options ((s.modify e (.lease delta)).setQuestion i question') := by
  have hundrained : s.stage.drained ≠ true := fun hdrained => by
    rw [h.drained hdrained question (mem_of_getElem? hi)] at hslot
    exact absurd hslot Bool.false_ne_true
  have hnone : ∀ e', ((s.modify e (.lease delta)).setQuestion i question').disposing e' = none :=
    disposing_none hmutex
  refine ⟨fun e' => ?_, fun t ht => ?_, fun d hd => absurd (hmutex.symm.trans hd) nofun, ?_, h.bound,
    ?_, fun hmem => ?_, ?_, fun hdrained => absurd hdrained hundrained, h.gone⟩
  · have hcount := countP_set_add (· == Question.leased e') question' hi
    by_cases heq : e' = e
    · subst heq
      have hok := h.entry e'
      have hself : ((s.modify e' (.lease delta)).setQuestion i question').heap e' =
        (s.heap e').lease delta := modify_self (.lease delta)
      have hcloses := hok.closes hmem
      rw [disposing_none hmutex e'] at hcloses
      refine ⟨?_, fun _ => hmem, fun _ => hok.known hmem, ?_, fun hout => absurd hmem hout, fun _ => ?_,
        fun hout => absurd hmem hout, fun phase hphase => absurd ((hnone e').symm.trans hphase) nofun⟩
      · rw [hself]
        change (s.heap e').leases + delta = ((s.questions.set i question').count (.leased e') : Int)
        simp only [beq_iff_eq, ← count_eq_countP] at hcount
        rw [hok.leases]
        split_ifs at hcount hdelta <;> omega
      · rw [hself]
        exact hok.worked
      · rw [hself, hnone]
        exact hcloses
    · obtain ⟨hne, hne'⟩ := hother e' heq
      rw [if_neg (by simpa using hne), if_neg (by simpa using hne')] at hcount
      exact (h.entry e').frame (modify_of_ne heq (.lease delta)) Iff.rfl Iff.rfl hcount
        ((hnone e').trans (disposing_none hmutex e').symm)
  · exact (h.timer t ht).frame (modify_field (·.timer) rfl _) id
      (congrArg Entry.leases (modify_of_ne (hquiet t ht) (.lease delta)))
  · have hmap := map_congr_left fun e' (_ : e' ∈ s.entries) =>
      (modify_field (s := s) (e := e) (f := .lease delta) (·.key) rfl e').symm
    exact hmap ▸ h.keys
  · have hcount := countP_set_add Question.inSlot question' hi
    rw [if_pos hslot, if_pos hslot'] at hcount
    exact Nat.add_right_cancel hcount ▸ h.slots
  · obtain hmem | heq := mem_or_eq_of_mem_set hmem
    · exact h.rejected hmem
    · exact hrejected heq.symm
  · refine h.live.trans (congrArg Nat.cast (countP_congr fun e' _ => ?_))
    rw [← modify_field (s := s) (e := e) (f := .lease delta) (·.state) rfl e']
    rfl

/-! ## The map -/

theorem Consistent.perm (h : Consistent options s) {entries : List Nat} (hmutex : s.mutex = none)
    (hperm : entries.Perm s.entries) : Consistent options { s with entries } where
  entry e := (h.entry e).frame rfl hperm.mem_iff Iff.rfl rfl rfl
  timer t ht := (h.timer t ht).frame rfl hperm.mem_iff.mpr rfl
  after _ hd := absurd (hmutex.symm.trans hd) nofun
  keys := (hperm.map _).nodup_iff.mpr h.keys
  bound := hperm.length_eq ▸ h.bound
  slots := h.slots
  rejected := h.rejected
  live := h.live.trans (congrArg Nat.cast (hperm.countP_eq _).symm)
  drained := h.drained
  gone hgone := perm_nil.mp (h.gone hgone ▸ hperm)

theorem Consistent.touch_perm (h : Consistent options s) (hmem : e ∈ s.entries) :
    (s.touch e).entries.Perm s.entries := by
  rw [Pool.touch, h.delete_eq hmem]
  exact (perm_append_singleton e _).trans (perm_cons_erase hmem).symm

theorem Consistent.touch (h : Consistent options s) (hmutex : s.mutex = none) (hmem : e ∈ s.entries) :
    Consistent options (s.touch e) :=
  h.perm hmutex (h.touch_perm hmem)

theorem Consistent.insert (h : Consistent options s) {key : Key} (hmutex : s.mutex = none)
    (hi : s.questions[i]? = some question) (hslot : question.inSlot)
    (hleased : ∀ e, question ≠ .leased e) (hkey : ∀ e ∈ s.entries, (s.heap e).key ≠ key)
    (hroom : s.entries.length < options.maxCachedPrefixes) : Consistent options (s.insert i key) := by
  have hundrained : s.stage.drained ≠ true := fun hdrained => by
    rw [h.drained hdrained question (mem_of_getElem? hi)] at hslot
    exact absurd hslot Bool.false_ne_true
  have hnot : s.fresh ∉ s.entries := fun hmem => Nat.lt_irrefl _ ((h.entry _).known hmem)
  have hne : ∀ {e}, e ∈ s.entries → e ≠ s.fresh := fun hmem heq => hnot (heq ▸ hmem)
  have hother : ∀ e, e ≠ s.fresh → (s.insert i key).heap e = s.heap e := fun e hne => update_of_ne hne ..
  have hself : (s.insert i key).heap s.fresh = ⟨key, 1, .loading, .forked, none, 0⟩ := update_self ..
  have hnone : ∀ e, (s.insert i key).disposing e = none := disposing_none hmutex
  have hunheld : s.questions.count (.leased s.fresh) = 0 := by
    have hleases := (h.entry s.fresh).leases
    have hzero : (s.heap s.fresh).leases = 0 := by_contra fun hne => hnot ((h.entry s.fresh).held hne)
    exact Int.ofNat.inj (hleases.symm.trans hzero)
  have hmem : ∀ e, e ∈ (s.insert i key).entries ↔ e ∈ s.entries ∨ e = s.fresh := fun e => by
    simp [Pool.insert]
  refine ⟨fun e => ?_, fun t ht => ?_, fun d hd => absurd (hmutex.symm.trans hd) nofun, ?_, ?_, ?_,
    fun hmem => ?_, ?_, fun hdrained => absurd hdrained hundrained, fun hgone => ?_⟩
  · have hcount := countP_set_add (· == Question.leased e) (.leased s.fresh) hi
    rw [if_neg (by simpa using hleased e)] at hcount
    by_cases heq : e = s.fresh
    · subst heq
      rw [if_pos (beq_self_eq_true _), ← count_eq_countP, ← count_eq_countP, hunheld] at hcount
      have hin : s.fresh ∈ (s.insert i key).entries := (hmem _).mpr (.inr rfl)
      refine ⟨?_, fun _ => hin, fun _ => Nat.lt_succ_self _, ?_, fun hout => absurd hin hout,
        fun _ => ?_, fun hout => absurd hin hout,
        fun phase hphase => absurd ((hnone _).symm.trans hphase) nofun⟩
      · rw [hself]
        exact (congrArg Int.ofNat hcount).symm
      · rw [hself]
        exact fun hne => absurd rfl hne
      · rw [hself, hnone]
        exact (if_neg (by simp)).symm
    · rw [if_neg (by simpa using Ne.symm heq)] at hcount
      refine (h.entry e).frame (hother e heq) ?_ ?_ hcount
        ((hnone e).trans (disposing_none hmutex e).symm)
      · rw [hmem]
        exact or_iff_left heq
      · change e < s.fresh + 1 ↔ _
        omega
  · have htimer := h.timer t ht
    have heap := hother _ (hne htimer.mem)
    exact htimer.frame (congrArg Entry.timer heap) (fun hin => (hmem _).mpr (.inl hin))
      (congrArg Entry.leases heap)
  · have hmap : s.entries.map (fun e => ((s.insert i key).heap e).key) =
        s.entries.map fun e => (s.heap e).key :=
      map_congr_left fun e hin => congrArg Entry.key (hother e (hne hin))
    change ((s.entries ++ [s.fresh]).map fun e => ((s.insert i key).heap e).key).Nodup
    rw [map_append, hmap, map_singleton, hself]
    refine nodup_append.mpr ⟨h.keys, nodup_singleton _, fun k hk k' hk' heq => ?_⟩
    obtain ⟨e, hin, rfl⟩ := mem_map.mp hk
    exact hkey e hin (heq.trans (mem_singleton.mp hk'))
  · change (s.entries ++ [s.fresh]).length ≤ _
    rw [length_append]
    exact hroom
  · have hcount := countP_set_add Question.inSlot (.leased s.fresh) hi
    rw [if_pos hslot, if_pos (by rfl)] at hcount
    exact Nat.add_right_cancel hcount ▸ h.slots
  · obtain hmem | heq := mem_or_eq_of_mem_set hmem
    · exact h.rejected hmem
    · exact absurd heq nofun
  · have hcongr : (s.entries.countP fun e => ((s.insert i key).heap e).state = .ready) =
        s.entries.countP fun e => (s.heap e).state = .ready :=
      countP_congr fun e hin => by rw [hother e (hne hin)]
    refine h.live.trans (congrArg Nat.cast ?_)
    change _ = (s.entries ++ [s.fresh]).countP fun e => ((s.insert i key).heap e).state = .ready
    rw [countP_append, hcongr, countP_singleton, hself]
    rfl
  · rw [show s.stage = .gone from hgone] at hundrained
    exact absurd rfl hundrained

/-- The end of `dispose` takes the entry out. -/
theorem Consistent.remove (h : Consistent options s) {d : Disposal} (hd : s.mutex = some d)
    (hphase : d.phase = .removal) : Consistent options (s.remove d.entry) := by
  have hdisposing := (h.after d hd).1
  obtain ⟨hmem, hidle, htimer, hworker⟩ := (h.entry d.entry).disposed _ hdisposing
  have hentries : (s.remove d.entry).entries = s.entries.erase d.entry := h.delete_eq hmem
  have hmem' : ∀ e, e ∈ (s.remove d.entry).entries ↔ e ≠ d.entry ∧ e ∈ s.entries := fun e => by
    rw [hentries, h.nodup.mem_erase_iff]
  have hperm := perm_cons_erase hmem
  have hnone : ∀ e, (s.remove d.entry).disposing e = none := disposing_none rfl
  refine ⟨fun e => ?_, fun t ht => ?_, nofun, ?_, ?_, h.slots, h.rejected, ?_, h.drained,
    fun hgone => ?_⟩
  · by_cases heq : e = d.entry
    · subst heq
      have hok := h.entry d.entry
      have hout : d.entry ∉ (s.remove d.entry).entries := fun hin => ((hmem' _).mp hin).1 rfl
      refine ⟨hok.leases, fun hne => absurd hidle hne, fun hin => absurd hin hout, hok.worked,
        fun _ => hworker (hphase ▸ nofun), fun hin => absurd hin hout, fun _ => ?_,
        fun phase hphase => absurd ((hnone _).symm.trans hphase) nofun⟩
      have hcloses := hok.closes hmem
      rw [hdisposing, hphase, if_pos (.inr (.inr rfl))] at hcloses
      exact hcloses.trans (if_pos (hok.known hmem)).symm
    · refine (h.entry e).frame rfl ?_ Iff.rfl rfl ?_
      · rw [hmem']
        exact and_iff_right heq
      · exact (hnone e).trans (disposing_of_ne hd (Ne.symm heq)).symm
  · have htimer' := h.timer t ht
    refine htimer'.frame rfl (fun hin => (hmem' _).mpr ⟨fun heq => ?_, hin⟩) rfl
    rw [← heq] at htimer
    exact absurd (htimer.symm.trans htimer'.timer) nofun
  · have hkeys := h.keys
    rw [(hperm.map _).nodup_iff, map_cons] at hkeys
    rw [hentries]
    exact hkeys.of_cons
  · rw [hentries]
    exact (length_erase_le ..).trans h.bound
  · have hlive := h.live
    rw [hperm.countP_eq, countP_cons] at hlive
    rw [hentries]
    change (if (s.heap d.entry).state = .ready then s.livePrefixes - 1 else s.livePrefixes) = _
    by_cases hready : (s.heap d.entry).state = .ready
    · rw [if_pos (by simpa using hready)] at hlive
      rw [if_pos hready, hlive, Int.natCast_add]
      exact Int.add_sub_cancel _ 1
    · rw [if_neg (by simpa using hready)] at hlive
      rw [if_neg hready, hlive]
      rfl
  · rw [h.gone hgone] at hmem
    exact absurd hmem not_mem_nil

/-! ## `dispose` and the finalizer -/

/-- `dispose` closes the resources. -/
theorem Consistent.close (h : Consistent options s) {d : Disposal} (hd : s.mutex = some d)
    (hphase : d.phase = .resources) :
    Consistent options
      { s.modify d.entry Entry.close with mutex := some { d with phase := .removal } } := by
  obtain ⟨hdisposing, hok⟩ := h.after d hd
  obtain ⟨hmem, hidle, htimer, hworker⟩ := (h.entry d.entry).disposed _ hdisposing
  have hended := hworker (hphase ▸ nofun)
  have hfields {β : Type} (g : Entry → β) (hg : ∀ entry closes, g { entry with closes } = g entry)
      (e : Nat) : g ((s.modify d.entry Entry.close).heap e) = g (s.heap e) :=
    modify_field g (Entry.close_field g hg _) e
  let closed : Disposal := { d with phase := .removal }
  refine ⟨fun e => ?_, fun t ht => ?_, fun d' hd' => ?_, ?_, h.bound, h.slots, h.rejected, ?_,
    h.drained, h.gone⟩
  · by_cases heq : e = d.entry
    · subst heq
      have hentry := h.entry d.entry
      have hself : ({ s.modify d.entry Entry.close with mutex := some closed } : Pool).disposing d.entry =
        some .removal := disposing_self (d := closed) rfl
      refine hentry.modify (modify_self Entry.close) rfl rfl rfl ?_ ?_ (fun hout => absurd hmem hout)
        (fun _ => ?_) fun phase _ => ?_
      · exact Entry.close_field (·.leases) (fun _ _ => rfl) _
      · rw [Entry.close_field (·.state) (fun _ _ => rfl), Entry.close_field (·.worker) fun _ _ => rfl]
        exact hentry.worked
      · rw [hself, if_pos (.inr (.inr rfl)), Entry.close_closes]
        have hcloses := hentry.closes hmem
        split_ifs at hcloses <;> rw [hcloses] <;> rfl
      · rw [Entry.close_field (·.leases) (fun _ _ => rfl), Entry.close_field (·.timer) (fun _ _ => rfl),
          Entry.close_field (·.worker) fun _ _ => rfl]
        exact ⟨hmem, hidle, htimer, fun _ => hended⟩
    · exact (h.entry e).frame (modify_of_ne heq Entry.close) Iff.rfl Iff.rfl rfl
        ((disposing_of_ne (d := closed) rfl (Ne.symm heq)).trans
          (disposing_of_ne hd (Ne.symm heq)).symm)
  · exact (h.timer t ht).frame (hfields (·.timer) (fun _ _ => rfl) _) id
      (hfields (·.leases) (fun _ _ => rfl) _)
  · obtain rfl := some.inj hd'
    exact ⟨disposing_self (d := closed) rfl, hok.frame (d := d) (fun _ _ _ hi => hi) rfl
      (hfields (·.key) fun _ _ => rfl) rfl⟩
  · have hmap := map_congr_left fun e (_ : e ∈ s.entries) => (hfields (·.key) (fun _ _ => rfl) e).symm
    exact hmap ▸ h.keys
  · refine h.live.trans (congrArg Nat.cast (countP_congr fun e _ => ?_))
    rw [← hfields (·.state) (fun _ _ => rfl) e]

/-- The finalizer goes from one stage to the next. -/
theorem Consistent.setStage (h : Consistent options s) {stage : Stage}
    (hpool : s.stage = .pool → s.mutex = none)
    (hdrained : stage.drained → ∀ question ∈ s.questions, question = .done)
    (hgone : stage = .gone → s.entries = []) : Consistent options { s with stage } where
  entry e := (h.entry e).frame rfl Iff.rfl Iff.rfl rfl rfl
  timer t ht := (h.timer t ht).frame rfl id rfl
  after d hd := by
    obtain ⟨hdisposing, hok⟩ := h.after d hd
    refine ⟨hdisposing, ?_⟩
    unfold Disposal.Ok at hok ⊢
    cases hafter : d.after with
    | drain rest =>
      rw [hafter] at hok
      exact absurd ((hpool hok.1).symm.trans hd) nofun
    | insert | released | expired =>
      rw [hafter] at hok
      exact hok
  keys := h.keys
  bound := h.bound
  slots := h.slots
  rejected := h.rejected
  live := h.live
  drained := hdrained
  gone := hgone

end Parts

end DecisionEngine

end EffectTorch
