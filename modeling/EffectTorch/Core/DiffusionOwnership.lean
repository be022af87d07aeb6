import EffectTorch.Core.Diffusion

/-!
# Ownership in the diffusion driver

Every owned value is released once, no call is given a part of a released value, and the
blocks and pages add up.

Results:
1. `wp_acquire`, `wp_closeScope`, `wp_useScope`: what the scope operations do to the owned
   values.
2. `refineLoop_wp`, `blockLoop_wp`: the loops keep the owners and the ledger.
3. `runGeneration_sound`: the run as a whole.
-/

namespace EffectTorch.Diffusion
open List Lib

/-! ## Reading a trace -/

/-- The values that are acquired and not released. -/
def live : Trace → List Nat
  | [] => []
  | .acquired id _ :: trace => id :: live trace
  | .released id :: trace => (live trace).erase id
  | _ :: trace => live trace

def releasedIds : Trace → List Nat
  | [] => []
  | .released id :: trace => id :: releasedIds trace
  | _ :: trace => releasedIds trace

/-- The tokens committed into a prefix. -/
def committed : Trace → Nat → Nat
  | [], _ => 0
  | .acquired id origin :: trace, source =>
    if id = source then
      match origin with
      | .committed before tokens => committed trace before + tokens
      | _ => 0
    else committed trace source
  | _ :: trace, source => committed trace source

/-- The tokens of the published pages. -/
def published : Trace → Nat
  | [] => 0
  | .page tokens _ :: trace => tokens.length + published trace
  | _ :: trace => published trace

/-- What an event owes to the events before it: a value is released while it is live, a
call is given parts of live values, and a block stands behind what is committed into its
prefix. -/
def EventOk (promptLength : Nat) (trace : Trace) : Event → Prop
  | .block source block => source ∈ live trace ∧
    block.position = promptLength + committed trace source
  | .evaluate source feedback block _ => source ∈ live trace ∧ feedback ∈ live trace ∧
    block.position = promptLength + committed trace source
  | .refine evaluation _ _ => evaluation ∈ live trace
  | .finish evaluation _ => evaluation ∈ live trace
  | .commit source _ block => source ∈ live trace ∧
    block.position = promptLength + committed trace source
  | .acquired id _ => id ∉ acquiredIds trace
  | .released id => id ∈ live trace
  | _ => True

def TraceOk (promptLength : Nat) : Trace → Prop
  | [] => True
  | event :: trace => EventOk promptLength trace event ∧ TraceOk promptLength trace

/-- The event is neither an acquisition nor a release. -/
def Event.IsCall : Event → Prop
  | .acquired _ _ => False
  | .released _ => False
  | _ => True

variable {promptLength : Nat} {trace : Trace} {event : Event}

theorem live_call (h : event.IsCall) : live (event :: trace) = live trace := by
  cases event <;> first | rfl | cases h

theorem acquiredIds_call (h : event.IsCall) : acquiredIds (event :: trace) = acquiredIds trace := by
  cases event <;> first | rfl | cases h

theorem committed_call (h : event.IsCall) (source : Nat) :
    committed (event :: trace) source = committed trace source := by
  cases event <;> first | rfl | cases h

variable {id : Nat} {trace' : Trace} {tokens : List UInt32}

theorem committed_acquired {source : Nat} (hne : id ≠ source) (origin : Origin) :
    committed (.acquired id origin :: trace) source = committed trace source := by
  cases origin <;> simp [committed, hne]

/-- What was acquired is what was released and what is live. -/
theorem acquiredIds_perm (h : TraceOk promptLength trace) :
    (acquiredIds trace).Perm (releasedIds trace ++ live trace) := by
  induction trace with
  | nil => exact List.Perm.refl _
  | cons event trace ih =>
    obtain ⟨hevent, htrace⟩ := h
    cases event with
    | acquired id origin => exact ((ih htrace).cons id).trans List.perm_middle.symm
    | released id =>
      refine (ih htrace).trans ?_
      exact ((perm_cons_erase hevent).append_left _).trans List.perm_middle
    | _ => exact ih htrace

theorem acquiredIds_nodup (h : TraceOk promptLength trace) : (acquiredIds trace).Nodup := by
  induction trace with
  | nil => exact nodup_nil
  | cons event trace ih =>
    obtain ⟨hevent, htrace⟩ := h
    cases event with
    | acquired id origin => exact nodup_cons.mpr ⟨hevent, ih htrace⟩
    | _ => exact ih htrace

/-- The values are numbered as they come. -/
def Numbered : Trace → Prop
  | [] => True
  | .acquired id _ :: trace => id = (acquiredIds trace).length ∧ Numbered trace
  | _ :: trace => Numbered trace

theorem Numbered.lt (h : Numbered trace) : ∀ id ∈ acquiredIds trace, id < (acquiredIds trace).length := by
  induction trace with
  | nil => exact nofun
  | cons event trace ih =>
    cases event with
    | acquired id origin =>
      obtain ⟨hid, htrace⟩ := h
      refine forall_mem_cons.mpr ⟨?_, fun id' hid' => ?_⟩
      · rw [hid]
        exact Nat.lt_succ_self _
      · exact Nat.lt_succ_of_lt (ih htrace id' hid')
    | _ => exact ih h

theorem numbered_call (h : event.IsCall) : Numbered (event :: trace) ↔ Numbered trace := by
  cases event <;> first | rfl | cases h

/-! ## Owners -/

variable {scopes : Scopes Nat} {ε Prefix F P S α β : Type}

/-- The owners hold live values, each in an open scope of its own, and closing the request
scope releases what is live. -/
structure Owns (promptLength : Nat) (w : World scopes) (owners : List (Owner scopes)) : Prop where
  trace : TraceOk promptLength w.trace
  numbered : Numbered w.trace
  all : (scopes.closeAll w.state).Perm (live w.trace)
  held : ∀ owner ∈ owners, scopes.IsOpen w.state owner.scope ∧
    scopes.held w.state owner.scope = [owner.id]
  apart : (owners.map Owner.scope).Nodup

variable {w : World scopes} {owner : Owner scopes} {owners : List (Owner scopes)}

theorem Owns.live (h : Owns promptLength w owners) (howner : owner ∈ owners) :
    owner.id ∈ live w.trace := by
  obtain ⟨hopen, hheld⟩ := h.held owner howner
  exact h.all.subset (scopes.held_all hopen (hheld ▸ mem_singleton_self _))

theorem Owns.subperm {owners' : List (Owner scopes)} (h : Owns promptLength w owners)
    (hsub : owners'.Subperm owners) : Owns promptLength w owners' := by
  refine ⟨h.trace, h.numbered, h.all, fun owner howner => h.held owner (hsub.subset howner), ?_⟩
  obtain ⟨_, hperm, hsublist⟩ := hsub
  exact ((hperm.map Owner.scope).nodup_iff).mp ((hsublist.map Owner.scope).nodup h.apart)

theorem Owns.none (h : Owns promptLength w owners) : Owns promptLength w [] :=
  h.subperm nil_subperm

/-- A call leaves the owners alone. -/
theorem Owns.call (h : Owns promptLength w owners) (hcall : event.IsCall)
    (hevent : EventOk promptLength w.trace event) :
    Owns promptLength ⟨event :: w.trace, w.state⟩ owners :=
  ⟨⟨hevent, h.trace⟩, (numbered_call hcall).mpr h.numbered, by rw [live_call hcall]; exact h.all,
    h.held, h.apart⟩

/-! ## What a step leaves alone -/

/-- The later trace commits nothing into the prefixes of the earlier one, and publishes
nothing. -/
structure Quiet (trace trace' : Trace) : Prop where
  acquired : ∀ source ∈ acquiredIds trace, source ∈ acquiredIds trace'
  committed : ∀ source ∈ acquiredIds trace, committed trace' source = committed trace source
  published : published trace' = published trace

theorem Quiet.refl (trace : Trace) : Quiet trace trace := ⟨fun _ h => h, fun _ _ => rfl, rfl⟩

theorem Quiet.trans {trace'' : Trace} (h : Quiet trace trace') (h' : Quiet trace' trace'') :
    Quiet trace trace'' :=
  ⟨fun source hsource => h'.acquired source (h.acquired source hsource),
    fun source hsource =>
      (h'.committed source (h.acquired source hsource)).trans (h.committed source hsource),
    h'.published.trans h.published⟩

def Event.IsPage : Event → Prop
  | .page _ _ => True
  | _ => False

theorem quiet_call (h : event.IsCall) (hpage : ¬ event.IsPage) : Quiet trace (event :: trace) := by
  refine ⟨fun source hsource => by rwa [acquiredIds_call h], fun source _ => committed_call h source, ?_⟩
  cases event with
  | page => exact absurd trivial hpage
  | _ => rfl

theorem quiet_acquired {origin : Origin} (hid : id ∉ acquiredIds trace) :
    Quiet trace (.acquired id origin :: trace) :=
  ⟨fun _ hsource => mem_cons_of_mem _ hsource,
    fun _ hsource => committed_acquired (ne_of_mem_of_not_mem hsource hid).symm origin, rfl⟩

theorem quiet_released (id : Nat) : Quiet trace (.released id :: trace) :=
  ⟨fun _ h => h, fun _ _ => rfl, rfl⟩

theorem live_acquired (h : TraceOk promptLength trace) : live trace ⊆ acquiredIds trace :=
  fun _ hid => (acquiredIds_perm h).symm.subset (mem_append_right _ hid)

/-! ## Rules of the operations -/

/-- The driver fails with a cause of its own or of the caller, and keeps the owners. -/
def Failed (promptLength : Nat) (owners : List (Owner scopes)) (cause : Cause ε) (w : World scopes) :
    Prop :=
  cause ≠ .endless ∧ Owns promptLength w owners

variable {options : GenerationOptions ε Prefix F P S} {post : α → World scopes → Prop}
  {kept : List (Owner scopes)}

theorem wp_invoke {call : Trace → Except ε α} (h : Owns promptLength w owners)
    (hkept : kept.Subperm owners) (hcall : event.IsCall)
    (hevent : EventOk promptLength w.trace event)
    (hpost : ∀ a, Owns promptLength ⟨event :: w.trace, w.state⟩ owners →
      post a ⟨event :: w.trace, w.state⟩) :
    Effect.wp (invoke scopes event call) post (Failed promptLength kept) w := by
  have howns := h.call hcall hevent
  refine Effect.wp_step.mpr ⟨fun a w' hexec => ?_, fun cause w' hexec => ?_⟩
  · obtain ⟨-, rfl⟩ := Prod.mk.injEq .. ▸ hexec
    exact hpost a howns
  · obtain ⟨hcause, rfl⟩ := Prod.mk.injEq .. ▸ hexec
    refine ⟨?_, howns.subperm hkept⟩
    rintro rfl
    cases hresult : call w.trace with
    | error cause => rw [hresult] at hcause; cases hcause
    | ok a => rw [hresult] at hcause; cases hcause

theorem wp_checkWidth {canvasLength : Nat} {post : Unit → World scopes → Prop}
    (h : Owns promptLength w owners) (hkept : kept.Subperm owners)
    (hpost : tokens.length = canvasLength → post () w) :
    Effect.wp (checkWidth (ε := ε) scopes canvasLength tokens) post (Failed promptLength kept) w := by
  unfold checkWidth
  split
  next hlength => exact hpost hlength
  next => exact ⟨nofun, h.subperm hkept⟩

theorem wp_reportProgress {block : Block} {step : Step} {draft : List UInt32} {done : Bool}
    {post : Unit → World scopes → Prop} (h : Owns promptLength w owners)
    (hkept : kept.Subperm owners)
    (hpost : ∀ w', Owns promptLength w' owners → Quiet w.trace w'.trace → post () w') :
    Effect.wp (reportProgress scopes options block step draft done) post
      (Failed promptLength kept) w := by
  unfold reportProgress
  split
  · exact hpost w h (Quiet.refl _)
  · exact wp_invoke h hkept trivial trivial fun _ howns => hpost _ howns (quiet_call trivial nofun)

/-- The scope is open, empty and no owner's. -/
structure Fresh (state : scopes.State) (scope : scopes.Id) (owners : List (Owner scopes)) : Prop where
  isOpen : scopes.IsOpen state scope
  held : scopes.held state scope = []
  other : ∀ owner ∈ owners, owner.scope ≠ scope

theorem Owns.fork (h : Owns promptLength w owners) :
    Owns promptLength ⟨w.trace, (scopes.fork w.state).2⟩ owners ∧
      Fresh (scopes.fork w.state).2 (scopes.fork w.state).1 owners := by
  refine ⟨⟨h.trace, h.numbered, (scopes.fork_all _).trans h.all, fun owner howner => ?_, h.apart⟩,
    scopes.fork_open _, scopes.fork_held _, ?_⟩
  · obtain ⟨hopen, hheld⟩ := h.held owner howner
    obtain ⟨hopen', hsame⟩ := scopes.fork_keeps hopen
    exact ⟨hopen', hsame.trans hheld⟩
  · intro owner howner hscope
    exact scopes.fork_new _ (hscope ▸ (h.held owner howner).1)

/-- A value in a fresh scope. -/
theorem Owns.own {scope : scopes.Id} (h : Owns promptLength w owners)
    (hfresh : Fresh w.state scope owners) (origin : Origin) :
    Owns promptLength ⟨.acquired (acquiredIds w.trace).length origin :: w.trace,
        scopes.addFinalizer w.state scope (acquiredIds w.trace).length⟩
      (⟨(acquiredIds w.trace).length, scope⟩ :: owners) := by
  refine ⟨⟨fun hmem => ?_, h.trace⟩, ⟨rfl, h.numbered⟩, ?_, ?_, ?_⟩
  · exact absurd (h.numbered.lt _ hmem) (Nat.lt_irrefl _)
  · exact (scopes.add_all hfresh.isOpen).trans (h.all.cons _)
  · refine forall_mem_cons.mpr ⟨⟨scopes.add_open hfresh.isOpen hfresh.isOpen, ?_⟩,
      fun owner howner => ?_⟩
    · have hperm := scopes.add_held hfresh.isOpen (f := (acquiredIds w.trace).length)
      rw [hfresh.held] at hperm
      exact perm_singleton.mp hperm
    · obtain ⟨hopen, hheld⟩ := h.held owner howner
      exact ⟨scopes.add_open hfresh.isOpen hopen,
        (scopes.add_keeps hfresh.isOpen (hfresh.other owner howner)).trans hheld⟩
  · refine nodup_cons.mpr ⟨?_, h.apart⟩
    simp only [mem_map, not_exists, not_and]
    exact hfresh.other

theorem wp_acquire {call : Trace → Except ε α} {origin : Origin}
    {post : Acquired scopes α → World scopes → Prop} (h : Owns promptLength w owners)
    (hkept : kept.Subperm owners) (hcall : event.IsCall) (hpage : ¬ event.IsPage)
    (hevent : EventOk promptLength w.trace event)
    (hpost : ∀ a w', Owns promptLength w' (a.toOwner :: owners) →
      w'.trace = .acquired a.id origin :: event :: w.trace → Quiet w.trace w'.trace → post a w') :
    Effect.wp (acquire scopes options event call origin) post (Failed promptLength kept) w := by
  unfold acquire
  refine Effect.wp_bind (Effect.wp_step.mpr ⟨?_, nofun⟩)
  rintro scope w₁ hfork
  obtain ⟨hscope, rfl⟩ := Prod.mk.injEq .. ▸ hfork
  obtain rfl := Except.ok.inj hscope
  obtain ⟨hforked, hfresh⟩ := h.fork
  refine Effect.wp_bind (wp_invoke hforked hkept hcall hevent fun value hcalled => ?_)
  refine Effect.wp_bind (Effect.wp_step.mpr ⟨?_, nofun⟩)
  rintro id w₂ hown
  obtain ⟨hid, rfl⟩ := Prod.mk.injEq .. ▸ hown
  obtain rfl := Except.ok.inj hid
  have howned := hcalled.own hfresh origin
  have hquiet : Quiet w.trace (.acquired _ origin :: event :: w.trace) :=
    (quiet_call hcall hpage).trans (quiet_acquired howned.trace.1)
  -- the finalizer is there when the fiber sees an interruption
  refine Effect.wp_bind (Effect.wp_step.mpr ⟨?_, ?_⟩)
  · rintro _ w₃ hexec
    obtain ⟨-, rfl⟩ := Prod.mk.injEq .. ▸ hexec
    exact hpost _ _ howned rfl hquiet
  · rintro cause w₃ hexec
    obtain ⟨hcause, rfl⟩ := Prod.mk.injEq .. ▸ hexec
    refine ⟨?_, howned.subperm (hkept.trans (sublist_cons_self _ _).subperm)⟩
    rintro rfl
    unfold Except.mapError at hcause
    split at hcause <;> cases hcause

/-! ## Releasing -/

def releaseAll : List Nat → Trace → Trace
  | [], trace => trace
  | id :: ids, trace => releaseAll ids (.released id :: trace)

/-- Every finalizer runs, and a finalizer that dies ends the program with its cause. -/
theorem wp_runFinalizers {ids : List Nat} {post : Unit → World scopes → Prop}
    {fails : Cause ε → World scopes → Prop} (hpost : post () ⟨releaseAll ids w.trace, w.state⟩)
    (hfails : ∀ cause, fails (.caller cause) ⟨releaseAll ids w.trace, w.state⟩) :
    Effect.wp (runFinalizers scopes options ids) post fails w := by
  induction ids generalizing w post fails with
  | nil => exact hpost
  | cons id ids ih =>
    refine Effect.wp_onExit (Effect.wp_step.mpr ⟨fun a w' hexec => ?_, fun cause w' hexec => ?_⟩)
    · obtain ⟨-, rfl⟩ := Prod.mk.injEq .. ▸ hexec
      exact ih hpost hfails
    · obtain ⟨hcause, rfl⟩ := Prod.mk.injEq .. ▸ hexec
      have hcaller : ∃ cause', cause = .caller cause' := by
        unfold Except.mapError at hcause
        split at hcause <;> cases hcause
        exact ⟨_, rfl⟩
      obtain ⟨cause', rfl⟩ := hcaller
      exact ih (hfails cause') fun _ => hfails cause'

theorem releaseAll_ok {ids rest : List Nat} (h : TraceOk promptLength trace)
    (hlive : (live trace).Perm (ids ++ rest)) :
    TraceOk promptLength (releaseAll ids trace) ∧ (live (releaseAll ids trace)).Perm rest ∧
      Quiet trace (releaseAll ids trace) := by
  induction ids generalizing trace with
  | nil => exact ⟨h, hlive, Quiet.refl _⟩
  | cons id ids ih =>
    have hmem : id ∈ live trace := hlive.symm.subset mem_cons_self
    have hrest : ((live trace).erase id).Perm (ids ++ rest) := by
      have := hlive.erase id
      rwa [cons_append, erase_cons_head] at this
    have hstep : TraceOk promptLength (.released id :: trace) := ⟨hmem, h⟩
    obtain ⟨hok, hperm, hquiet⟩ := ih hstep hrest
    exact ⟨hok, hperm, (quiet_released id).trans hquiet⟩

theorem Owns.close (h : Owns promptLength w (owner :: owners)) :
    (scopes.close w.state owner.scope).1 = [owner.id] ∧
      Owns promptLength ⟨.released owner.id :: w.trace, (scopes.close w.state owner.scope).2⟩ owners := by
  obtain ⟨hopen, hheld⟩ := h.held owner mem_cons_self
  have hids : (scopes.close w.state owner.scope).1 = [owner.id] := by
    have hperm := scopes.close_runs hopen
    rw [hheld] at hperm
    exact perm_singleton.mp hperm
  obtain ⟨hnotin, hapart⟩ := nodup_cons.mp h.apart
  refine ⟨hids, ⟨h.live mem_cons_self, h.trace⟩, h.numbered, ?_, fun owner' howner' => ?_, hapart⟩
  · have hall := (h.all.symm.trans (scopes.close_all hopen)).erase owner.id
    rw [hheld, singleton_append, erase_cons_head] at hall
    exact hall.symm
  · obtain ⟨hopen', hheld'⟩ := h.held owner' (mem_cons_of_mem _ howner')
    have hne : owner'.scope ≠ owner.scope := fun heq =>
      hnotin (heq ▸ mem_map_of_mem howner')
    exact ⟨scopes.close_open hopen hopen' hne, (scopes.close_keeps hopen hne).trans hheld'⟩

theorem wp_closeScope {post : Unit → World scopes → Prop} {fails : Cause ε → World scopes → Prop}
    (h : Owns promptLength w (owner :: owners))
    (hpost : ∀ w', Owns promptLength w' owners → w'.trace = .released owner.id :: w.trace → post () w')
    (hfails : ∀ cause w', Owns promptLength w' owners → fails (.caller cause) w') :
    Effect.wp (closeScope scopes options owner.scope) post fails w := by
  obtain ⟨hids, howns⟩ := h.close
  have hexec : (closeScope scopes options owner.scope).exec w =
      (runFinalizers scopes options [owner.id]).exec
        ⟨w.trace, (scopes.close w.state owner.scope).2⟩ := by
    rw [← hids]
    rfl
  unfold Effect.wp
  rw [hexec]
  exact wp_runFinalizers (hpost _ howns rfl) fun cause => hfails cause _ howns

/-- The program runs, then its scope is closed whatever its exit was. -/
theorem wp_useScope {program : Driver scopes ε α}
    (h : Effect.wp program (fun a w' => ∃ owners, Owns promptLength w' (owner :: owners) ∧
        ∀ w'', Owns promptLength w'' owners → w''.trace = .released owner.id :: w'.trace → post a w'')
      (Failed promptLength [owner]) w) :
    Effect.wp (useScope scopes options program owner.scope) post (Failed promptLength []) w := by
  refine Effect.wp_onExit (Effect.wp_mono h ?_ ?_)
  · rintro a w' ⟨owners, howns, hpost⟩
    exact wp_closeScope howns hpost fun cause w'' howns' => ⟨nofun, howns'.none⟩
  · rintro cause w' ⟨hcause, howns⟩
    exact wp_closeScope howns (fun w'' howns' _ => ⟨hcause, howns'⟩)
      fun _ w'' howns' => ⟨hcause, howns'⟩

/-! ## The loops -/

variable {canvasLength maxSteps maxNewTokens : Nat} {source : Acquired scopes Prefix} {block : Block}

/-- Each step evaluates while the feedback before it is live, and closes that feedback's
scope when the refinement is done. -/
theorem refineLoop_wp {remaining : Nat} {s : RefineState scopes F S}
    (h : Owns promptLength w [s.owner, source.toOwner])
    (hblock : block.position = promptLength + committed w.trace source.id) :
    Effect.wp (refineLoop scopes options canvasLength maxSteps source block remaining s)
      (fun s' w' => Owns promptLength w' [s'.owner, source.toOwner] ∧ Quiet w.trace w'.trace)
      (Failed promptLength []) w := by
  induction remaining generalizing w s with
  | zero => exact ⟨h, Quiet.refl _⟩
  | succ remaining ih =>
    have hsource : source.id ∈ live w.trace := h.live (by simp)
    have hknown := live_acquired h.trace hsource
    unfold refineLoop
    refine Effect.wp_bind (wp_acquire h nil_subperm trivial nofun
      ⟨hsource, h.live mem_cons_self, hblock⟩ fun evaluated w₁ howns htrace hquiet => ?_)
    have hall : [s.owner, evaluated.toOwner, source.toOwner].Perm
        [evaluated.toOwner, s.owner, source.toOwner] := List.Perm.swap ..
    have hkept : [s.owner].Subperm [evaluated.toOwner, s.owner, source.toOwner] :=
      singleton_subperm_iff.mpr (by simp)
    refine Effect.wp_bind (wp_useScope ?_)
    refine Effect.wp_bind (wp_invoke howns hkept trivial (howns.live mem_cons_self)
      fun next hrefined => ?_)
    refine Effect.wp_bind (wp_checkWidth hrefined hkept fun _ => ?_)
    refine Effect.wp_bind (wp_checkWidth hrefined hkept fun _ => ?_)
    refine ⟨_, hrefined.subperm hall.subperm, fun w₂ hclosed hreleased => ?_⟩
    have hquiet₂ : Quiet w.trace w₂.trace := by
      rw [hreleased]
      refine (hquiet.trans ?_).trans (quiet_released _)
      exact quiet_call trivial nofun
    refine Effect.wp_bind (wp_reportProgress hclosed nil_subperm fun w₃ howns₃ hquiet₃ => ?_)
    have hquiet' := hquiet₂.trans hquiet₃
    split
    · exact ⟨howns₃, hquiet'⟩
    · refine Effect.wp_mono (ih howns₃ ?_) (fun s' w' hpost => ⟨hpost.1, hquiet'.trans hpost.2⟩)
        fun _ _ hfails => hfails
      rw [hblock, hquiet'.committed _ hknown]

theorem OutputLimit.count_le (limit : OutputLimit) (length remaining : Nat) :
    limit.count length remaining ≤ length := by
  cases limit with
  | exact => exact Nat.min_le_left ..
  | wholeBlock => exact le_rfl

theorem OutputLimit.count_pos {length remaining : Nat} (limit : OutputLimit) (hlength : 0 < length)
    (hremaining : 0 < remaining) : 0 < limit.count length remaining := by
  cases limit with
  | exact => exact Nat.lt_min.mpr ⟨hlength, hremaining⟩
  | wholeBlock => exact hlength

/-- What is published when the blocks before this point stopped short of the limit. -/
structure PagesOk (limit : OutputLimit) (maxNewTokens canvasLength generatedTokens : Nat)
    (trace : Trace) : Prop where
  published : published trace = generatedTokens
  wholeBlock : generatedTokens < maxNewTokens + canvasLength
  exact : limit = .exact → generatedTokens ≤ maxNewTokens

theorem PagesOk.quiet {limit : OutputLimit} {generatedTokens : Nat}
    (h : PagesOk limit maxNewTokens canvasLength generatedTokens trace) (hquiet : Quiet trace trace') :
    PagesOk limit maxNewTokens canvasLength generatedTokens trace' :=
  ⟨hquiet.published.trans h.published, h.wholeBlock, h.exact⟩

theorem PagesOk.next {limit : OutputLimit} {generatedTokens : Nat}
    (h : PagesOk limit maxNewTokens canvasLength generatedTokens trace)
    (hmore : generatedTokens < maxNewTokens) (htokens : tokens.length = canvasLength)
    (hquiet : Quiet trace trace') (block : Block) :
    let count := limit.count tokens.length (maxNewTokens - generatedTokens)
    PagesOk limit maxNewTokens canvasLength (generatedTokens + count)
      (.page (tokens.take count) block :: trace') := by
  intro count
  have hcount : count ≤ tokens.length := limit.count_le _ _
  refine ⟨?_, by omega, fun hexact => ?_⟩
  · calc Diffusion.published (.page (tokens.take count) block :: trace')
      _ = (tokens.take count).length + Diffusion.published trace' := rfl
      _ = generatedTokens + count := by
        rw [length_take_of_le hcount, hquiet.published, h.published, Nat.add_comm]
  · have hremaining : count ≤ maxNewTokens - generatedTokens := by
      unfold count
      rw [hexact]
      exact Nat.min_le_right ..
    omega

/-- A commit adds the block to what its prefix holds. -/
theorem committed_commit {source count released : Nat} :
    committed (.released released :: .acquired id (.committed source count) ::
      .commit source tokens block :: trace) id = committed trace source + count :=
  if_pos rfl

theorem wp_openBlock {post : Unit → World scopes → Prop} {fails : Cause ε → World scopes → Prop}
    {source : Nat} (h : Owns promptLength w owners)
    (hevent : EventOk promptLength w.trace (.block source block))
    (hpost : ∀ w', Owns promptLength w' owners → Quiet w.trace w'.trace → post () w') :
    Effect.wp (openBlock (ε := ε) scopes source block) post fails w := by
  refine Effect.wp_step.mpr ⟨fun _ w' hexec => ?_, nofun⟩
  obtain ⟨-, rfl⟩ := Prod.mk.injEq .. ▸ hexec
  refine hpost _ (h.call trivial hevent) ?_
  exact quiet_call trivial nofun

/-- The loop over the blocks at the top of a turn. -/
structure BlocksOk (options : GenerationOptions ε Prefix F P S) (maxNewTokens canvasLength : Nat)
    (w : World scopes) (s : BlockState scopes Prefix) : Prop where
  owns : Owns options.prompt.length w [s.source.toOwner]
  committed : committed w.trace s.source.id = s.blocks * canvasLength
  pages : PagesOk options.outputLimit maxNewTokens canvasLength s.generatedTokens w.trace

/-- A block publishes at least one token, so the turns suffice. -/
theorem blockLoop_wp {turns : Nat} {s : BlockState scopes Prefix} (hwidth : 0 < canvasLength)
    (h : BlocksOk options maxNewTokens canvasLength w s)
    (hturns : maxNewTokens ≤ s.generatedTokens + turns) :
    Effect.wp (blockLoop scopes options maxNewTokens canvasLength maxSteps turns s)
      (fun result w' => Owns options.prompt.length w' [] ∧
        PagesOk options.outputLimit maxNewTokens canvasLength result.generatedTokens w'.trace)
      (Failed options.prompt.length []) w := by
  induction turns generalizing w s with
  | zero =>
    unfold blockLoop
    rw [if_pos (show maxNewTokens ≤ s.generatedTokens from hturns)]
    exact ⟨h.owns.none, h.pages⟩
  | succ turns ih =>
    unfold blockLoop
    split
    next => exact ⟨h.owns.none, h.pages⟩
    next hmore =>
    have hmore : s.generatedTokens < maxNewTokens := Nat.lt_of_not_le hmore
    have hsource : s.source.id ∈ live w.trace := h.owns.live mem_cons_self
    have hknown := live_acquired h.owns.trace hsource
    have hposition : options.prompt.length + s.blocks * canvasLength =
        options.prompt.length + committed w.trace s.source.id := by rw [h.committed]
    refine Effect.wp_bind (wp_openBlock h.owns ⟨hsource, hposition⟩ fun w₀ howns₀ hquiet₀ => ?_)
    -- the canvas, then the steps
    refine Effect.wp_bind (wp_acquire howns₀ nil_subperm trivial nofun trivial
      fun initial w₁ howns₁ _ hquiet₁ => ?_)
    refine Effect.wp_bind (wp_checkWidth howns₁ nil_subperm fun _ => ?_)
    refine Effect.wp_bind (wp_invoke howns₁ nil_subperm trivial trivial fun state hstarted => ?_)
    have hquiet₂ : ∀ block, Quiet w.trace (.start block :: w₁.trace) := by
      refine fun block => (hquiet₀.trans hquiet₁).trans ?_
      exact quiet_call trivial nofun
    refine Effect.wp_bind (Effect.wp_mono (refineLoop_wp hstarted ?_) ?_ fun _ _ hfails => hfails)
    · exact hposition.trans (congrArg _ ((hquiet₂ _).committed _ hknown).symm)
    rintro refined w₃ ⟨howns₃, hquiet₃⟩
    have hsource₃ : [refined.owner].Subperm [refined.owner, s.source.toOwner] :=
      singleton_subperm_iff.mpr mem_cons_self
    -- the block is complete: its feedback is released, its tokens are published
    refine Effect.wp_bind (wp_useScope ?_)
    refine Effect.wp_bind (wp_invoke howns₃ hsource₃ trivial (howns₃.live mem_cons_self)
      fun completed hfinished => ?_)
    refine Effect.wp_bind (wp_checkWidth hfinished hsource₃ fun htokens => ?_)
    refine ⟨_, hfinished, fun w₄ howns₄ hreleased => ?_⟩
    have hquiet₄ : Quiet w.trace w₄.trace := by
      rw [hreleased]
      refine (((hquiet₂ _).trans hquiet₃).trans ?_).trans (quiet_released _)
      exact quiet_call trivial nofun
    refine Effect.wp_bind (wp_invoke howns₄ nil_subperm trivial trivial fun _ hpublished => ?_)
    have hpages := h.pages.next hmore htokens hquiet₄
    dsimp only
    split
    next => exact ⟨hpublished.none, hpages _⟩
    next hgoes =>
    have hsofar : ∀ tokens block, committed (.page tokens block :: w₄.trace) s.source.id =
        s.blocks * canvasLength := fun _ _ => (hquiet₄.committed _ hknown).trans h.committed
    have hlive₅ := hpublished.live mem_cons_self
    refine Effect.wp_bind (wp_useScope (wp_acquire hpublished (List.Subperm.refl _) trivial nofun
      ⟨hlive₅, ?_⟩ fun next w₅ howns₅ htrace₅ hquiet₅ => ?_))
    · exact congrArg _ (hsofar _ _).symm
    refine ⟨_, howns₅.subperm (List.Perm.swap ..).subperm, fun w₆ howns₆ hreleased₆ => ?_⟩
    refine ih ⟨howns₆, ?_, ?_⟩ ?_
    · rw [hreleased₆, htrace₅, committed_commit, hsofar, htokens, Nat.succ_mul]
    · have hclosed := hquiet₅.trans (quiet_released s.source.id)
      rw [← hreleased₆] at hclosed
      exact (hpages _).quiet hclosed
    · have hcount := options.outputLimit.count_pos (htokens ▸ hwidth) (Nat.sub_pos_of_lt hmore)
      dsimp only
      omega

/-! ## The run -/

/-- The pages of a run under the limits it was given. -/
def ResultOk (options : GenerationOptions ε Prefix F P S) (result : GenerationResult)
    (trace : Trace) : Prop :=
  ∃ maxNewTokens canvasLength : Nat,
    options.maxNewTokens = some ↑maxNewTokens ∧ options.policy.canvasLength = some ↑canvasLength ∧
    PagesOk options.outputLimit maxNewTokens canvasLength result.generatedTokens trace

/-- What a run of the driver owes to its caller. -/
structure RunOk (options : GenerationOptions ε Prefix F P S)
    (exit : Except (Cause ε) GenerationResult) (trace : Trace) : Prop where
  ordered : TraceOk options.prompt.length trace
  once : (acquiredIds trace).Nodup
  released : (releasedIds trace).Perm (acquiredIds trace)
  ends : exit ≠ .error .endless
  result : ∀ result, exit = .ok result → ResultOk options result trace

theorem generate_wp (scopes : Scopes Nat) (options : GenerationOptions ε Prefix F P S) :
    Effect.wp (generate scopes options)
      (fun result w => Owns options.prompt.length w [] ∧ ResultOk options result w.trace)
      (Failed options.prompt.length []) ⟨[], scopes.opened⟩ := by
  have hopened : Owns options.prompt.length (⟨[], scopes.opened⟩ : World scopes) [] :=
    ⟨trivial, trivial, List.Perm.of_eq scopes.opened_all, nofun, nodup_nil⟩
  unfold generate
  split
  next m c k hmax hcanvas hsteps =>
    split
    next => exact ⟨nofun, hopened⟩
    next hlimits =>
    simp only [not_or, Int.not_lt] at hlimits
    obtain ⟨hm, hc, hk⟩ := hlimits
    obtain ⟨maxNewTokens, rfl⟩ := Int.eq_ofNat_of_zero_le hm
    obtain ⟨canvasLength, rfl⟩ := Int.eq_ofNat_of_zero_le (Int.le_trans Int.one_nonneg hc)
    have hwidth : 0 < canvasLength := Int.ofNat_lt.mp hc
    have hempty : ∀ trace, published trace = 0 →
        PagesOk options.outputLimit maxNewTokens canvasLength 0 trace := fun trace htrace =>
      ⟨htrace, Nat.add_pos_right _ hwidth, fun _ => Nat.zero_le _⟩
    split
    next => exact ⟨hopened, _, _, hmax, hcanvas, hempty _ rfl⟩
    next =>
      refine Effect.wp_bind (wp_acquire hopened nil_subperm trivial nofun trivial
        fun source w howns htrace hquiet => ?_)
      refine Effect.wp_mono (blockLoop_wp hwidth ⟨howns, ?_, hempty _ hquiet.published⟩ ?_)
        (fun result w' hpost => ⟨hpost.1, _, _, hmax, hcanvas, hpost.2⟩) fun _ _ hfails => hfails
      · rw [htrace, Nat.zero_mul]
        exact if_pos rfl
      · exact (Nat.zero_add _).ge
  next => exact ⟨nofun, hopened⟩

/-- Everything is released. -/
structure Closed (promptLength : Nat) (w : World scopes) : Prop where
  trace : TraceOk promptLength w.trace
  none : live w.trace = []

theorem Closed.released (h : Closed promptLength w) :
    (releasedIds w.trace).Perm (acquiredIds w.trace) := by
  have hperm := acquiredIds_perm h.trace
  rw [h.none, append_nil] at hperm
  exact hperm.symm

theorem Owns.request (h : Owns promptLength w owners) :
    Closed promptLength (⟨releaseAll (scopes.closeAll w.state) w.trace, w.state⟩ : World scopes) ∧
      Quiet w.trace (releaseAll (scopes.closeAll w.state) w.trace) := by
  have hlive : (Diffusion.live w.trace).Perm (scopes.closeAll w.state ++ []) := by
    rw [append_nil]
    exact h.all.symm
  obtain ⟨hok, hperm, hquiet⟩ := releaseAll_ok h.trace hlive
  exact ⟨⟨hok, perm_nil.mp hperm⟩, hquiet⟩

/-- Every run of the driver releases each value it acquired once, gives its callbacks parts
of live values only, sets each block behind what is committed, and publishes what it
counts. -/
theorem runGeneration_sound (scopes : Scopes Nat) (options : GenerationOptions ε Prefix F P S) :
    RunOk options (runGeneration scopes options).1 (runGeneration scopes options).2.trace := by
  have hrun : Effect.wp ((generate scopes options).onExit (closeRequest scopes options))
      (fun result w => Closed options.prompt.length w ∧ ResultOk options result w.trace)
      (fun cause w => cause ≠ .endless ∧ Closed options.prompt.length w) ⟨[], scopes.opened⟩ := by
    refine Effect.wp_onExit (Effect.wp_mono (generate_wp scopes options) ?_ ?_)
    · rintro result w ⟨howns, m, c, hmax, hcanvas, hpages⟩
      obtain ⟨hclosed, hquiet⟩ := howns.request
      exact wp_runFinalizers ⟨hclosed, m, c, hmax, hcanvas, hpages.quiet hquiet⟩
        fun cause => ⟨nofun, hclosed⟩
    · rintro cause w ⟨hcause, howns⟩
      obtain ⟨hclosed, -⟩ := howns.request
      exact wp_runFinalizers ⟨hcause, hclosed⟩ fun _ => ⟨hcause, hclosed⟩
  unfold runGeneration
  unfold Effect.wp at hrun
  generalize Effect.exec _ _ = run at hrun ⊢
  rcases run with ⟨_ | _, w⟩
  · obtain ⟨hcause, hclosed⟩ := hrun
    exact ⟨hclosed.trace, acquiredIds_nodup hclosed.trace, hclosed.released,
      fun heq => hcause (Except.error.inj heq), nofun⟩
  · obtain ⟨hclosed, hresult⟩ := hrun
    exact ⟨hclosed.trace, acquiredIds_nodup hclosed.trace, hclosed.released, nofun,
      fun _ heq => Except.ok.inj heq ▸ hresult⟩

end EffectTorch.Diffusion
