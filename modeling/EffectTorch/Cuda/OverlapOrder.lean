import EffectTorch.Compiler.PlanRefines
import EffectTorch.Cuda.OverlapSound
import EffectTorch.Lib.Commute

/-!
# Overlapped execution

The command loop of `runtime-cuda/src/executable.rs` issues the commands in order
on two streams. Commands of one stream run in order; events order the first
command of a branch after the primary commands before it, and the join after the
last command of the branch. Everything else may run in any order.

Results:
1. `OverlapRun.overlapping_branch`: only the steps of a branch and the primary commands of
   its window overlap.
2. `OverlapRun.roots_ne`: they never share a logical value that one of them
   writes.
3. `overlap_safe_iff`: overlapped execution at planned addresses is safe exactly
   if the plan puts no such value over a value of the other side.
4. `straddling_output_changes`: a program whose plan does.
-/

set_option linter.unusedSectionVars false

namespace EffectTorch
open List Lib

/-! ## Orders that the streams allow -/

/-- Host commands and commands without an output do nothing on the device. -/
def deviceCommand (command : Command) : Bool :=
  !hostCommand command && command.output.isSome

/-- The positions of the commands that run on the device. -/
def deviceCommands (commands : List Command) : List Nat :=
  (List.range commands.length).filter fun position => commands[position]?.any deviceCommand

def overlapAt (commands : List Command) (position : Nat) : Option CommandOverlap :=
  commands[position]?.map (·.overlap)

/-- The second stream runs the command. -/
def OnWorker (commands : List Command) (position : Nat) : Prop :=
  ∃ branch start finish, overlapAt commands position = some (.worker branch start finish)

/-- The events and the order of each stream make command `i` finish before command
`j` starts. -/
inductive MustPrecede (commands : List Command) (i j : Nat) : Prop
  /-- Both run on one stream. -/
  | stream : i < j → (OnWorker commands i ↔ OnWorker commands j) → MustPrecede commands i j
  /-- The second stream waits for the primary stream where a branch starts. -/
  | fork {start branch : Nat} {finish : Bool} :
      overlapAt commands start = some (.worker branch true finish) → i < start → start ≤ j →
      ¬ OnWorker commands i → OnWorker commands j → MustPrecede commands i j
  /-- The primary stream waits at the join for the last command of the branch. -/
  | join {finish join branch : Nat} {start : Bool} :
      overlapAt commands finish = some (.worker branch start true) →
      overlapAt commands join = some (.join branch) → i ≤ finish → join ≤ j →
      OnWorker commands i → ¬ OnWorker commands j → MustPrecede commands i j

section Decidable

variable {commands : List Command}

instance {position : Nat} : Decidable (OnWorker commands position) :=
  match h : overlapAt commands position with
  | some (.worker b s f) => .isTrue ⟨b, s, f, h⟩
  | some .primary => .isFalse (by rintro ⟨_, _, _, h'⟩; rw [h] at h'; cases h')
  | some (.join _) => .isFalse (by rintro ⟨_, _, _, h'⟩; rw [h] at h'; cases h')
  | none => .isFalse (by rintro ⟨_, _, _, h'⟩; rw [h] at h'; cases h')

/-- The branch that starts at the command. -/
def startsBranch (commands : List Command) (position : Nat) : Option Nat :=
  match overlapAt commands position with
  | some (.worker branch true _) => some branch
  | _ => none

/-- The branch that ends at the command. -/
def finishesBranch (commands : List Command) (position : Nat) : Option Nat :=
  match overlapAt commands position with
  | some (.worker branch _ true) => some branch
  | _ => none

variable {position : Nat}

theorem startsBranch_iff {branch : Nat} : startsBranch commands position = some branch ↔
    ∃ finish, overlapAt commands position = some (.worker branch true finish) := by
  unfold startsBranch
  split
  · next b f h => simp [h]
  · next h =>
    refine ⟨nofun, ?_⟩
    rintro ⟨f, hf⟩
    exact absurd hf (h branch f)

theorem finishesBranch_iff {branch : Nat} :
    finishesBranch commands position = some branch ↔
      ∃ start, overlapAt commands position = some (.worker branch start true) := by
  unfold finishesBranch
  split
  · next b s h => simp [h]
  · next h =>
    refine ⟨nofun, ?_⟩
    rintro ⟨s, hs⟩
    exact absurd hs (h branch s)

theorem overlapAt_lt {overlap : CommandOverlap} (h : overlapAt commands position = some overlap) :
    position < commands.length := by
  obtain ⟨c, hc, _⟩ := Option.map_eq_some_iff.mp h
  exact (List.getElem?_eq_some_iff.mp hc).1

theorem mustPrecede_iff {i j : Nat} : MustPrecede commands i j ↔
    (i < j ∧ (OnWorker commands i ↔ OnWorker commands j)) ∨
    (∃ start < commands.length, (startsBranch commands start).isSome ∧ i < start ∧ start ≤ j ∧
      ¬ OnWorker commands i ∧ OnWorker commands j) ∨
    (∃ finish < commands.length, ∃ join < commands.length,
      (∃ branch ∈ finishesBranch commands finish, overlapAt commands join = some (.join branch)) ∧
      i ≤ finish ∧ join ≤ j ∧ OnWorker commands i ∧ ¬ OnWorker commands j) := by
  constructor
  · rintro (⟨hlt, hiff⟩ | ⟨hs, hlt, hle, hi, hj⟩ | ⟨hf, hjoin, hle, hle', hi, hj⟩)
    · exact .inl ⟨hlt, hiff⟩
    · exact .inr (.inl ⟨_, overlapAt_lt hs,
        Option.isSome_iff_exists.mpr ⟨_, startsBranch_iff.mpr ⟨_, hs⟩⟩, hlt, hle, hi, hj⟩)
    · exact .inr (.inr ⟨_, overlapAt_lt hf, _, overlapAt_lt hjoin,
        ⟨_, finishesBranch_iff.mpr ⟨_, hf⟩, hjoin⟩, hle, hle', hi, hj⟩)
  · rintro (⟨hlt, hiff⟩ | ⟨s, _, hs, hlt, hle, hi, hj⟩ |
      ⟨f, _, k, _, ⟨b, hb, hk⟩, hle, hle', hi, hj⟩)
    · exact .stream hlt hiff
    · obtain ⟨branch, hbranch⟩ := Option.isSome_iff_exists.mp hs
      obtain ⟨finish, hoverlap⟩ := startsBranch_iff.mp hbranch
      exact .fork hoverlap hlt hle hi hj
    · obtain ⟨start, hoverlap⟩ := finishesBranch_iff.mp hb
      exact .join hoverlap hk hle hle' hi hj

instance {i j : Nat} : Decidable (MustPrecede commands i j) :=
  decidable_of_iff' _ mustPrecede_iff

end Decidable

/-- An order in which the streams may run the commands. -/
structure AllowedOrder (commands : List Command) (order : List Nat) : Prop where
  perm : order.Perm (deviceCommands commands)
  ordered : order.Pairwise fun i j => ¬ MustPrecede commands j i

/-- Two device commands that may run in either order. -/
structure Overlapping (commands : List Command) (i j : Nat) : Prop where
  earlier : i ∈ deviceCommands commands
  later : j ∈ deviceCommands commands
  lt : i < j
  unordered : ¬ MustPrecede commands i j

instance {commands : List Command} {i j : Nat} : Decidable (Overlapping commands i j) :=
  decidable_of_iff (i ∈ deviceCommands commands ∧ j ∈ deviceCommands commands ∧ i < j ∧
      ¬ MustPrecede commands i j)
    ⟨fun ⟨h1, h2, h3, h4⟩ => ⟨h1, h2, h3, h4⟩, fun ⟨h1, h2, h3, h4⟩ => ⟨h1, h2, h3, h4⟩⟩

theorem deviceCommands_sorted (commands : List Command) :
    (deviceCommands commands).Pairwise (· < ·) :=
  List.Pairwise.filter _ pairwise_lt_range

/-! ## What the commands do -/

/-- A meaning of the commands: each reads only bytes of the declared reads of its
instruction and writes only bytes of its declared writes. -/
structure CommandMeaning (program : CudaLoweredProgram) (commands : List Command) (β : Type) where
  action : Nat → Action ValueByte β
  reads_declared : ∀ (k : Nat) step, (commandSteps program commands)[k]? = some step →
    ∀ m, ∀ x ∈ (action k).reads m, DeclaredByte program step.instruction ValueAccess.reads x
  writes_declared : ∀ (k : Nat) step, (commandSteps program commands)[k]? = some step →
    ∀ m, ∀ w ∈ (action k).emit m, DeclaredByte program step.instruction ValueAccess.writes w.1

section Safety

variable (program : CudaLoweredProgram) (commands marked : List Command)
  (plan : MemoryPlan CudaMemorySpace)

/-- Every allowed order gives every output the contents of program order. -/
def SameOutputs : Prop :=
  ∀ (β : Type) (meaning : CommandMeaning program commands β) (order : List Nat),
    AllowedOrder marked order → ∀ memory : Address → β, ∀ o ∈ program.outputs, ∀ v,
    program.values[o.index]? = some v → ∀ byte, byte < v.bytes →
    execAll (valueAddress program plan) (order.map meaning.action) memory
        (valueAddress program plan ⟨o.index, byte⟩) =
      execAll (valueAddress program plan) ((deviceCommands marked).map meaning.action) memory
        (valueAddress program plan ⟨o.index, byte⟩)

/-- Two uses name a common byte of the plan. -/
def CommonByte (u u' : ValueUse) : Prop :=
  ∃ v v' byte byte', program.values[u.value.index]? = some v ∧
    program.values[u'.value.index]? = some v' ∧ byte < v.bytes ∧ byte' < v'.bytes ∧
    valueAddress program plan ⟨u.value.index, byte⟩ =
      valueAddress program plan ⟨u'.value.index, byte'⟩

/-- Uses by two overlapping commands of which one writes. -/
structure Racing (u u' : ValueUse) : Prop where
  commands : ∃ i j step step', Overlapping marked i j ∧
    (commandSteps program commands)[i]? = some step ∧ u ∈ step.instruction.resourceUses ∧
    (commandSteps program commands)[j]? = some step' ∧ u' ∈ step'.instruction.resourceUses
  writes : u.access.writes = true ∨ u'.access.writes = true

/-- Overlapping commands never touch common planned bytes of which one writes, and
every allowed order gives the same outputs. -/
structure OverlapSafe : Prop where
  outputs : SameOutputs program commands marked plan
  bytes : ∀ u u', Racing program commands marked u u' → ¬ CommonByte program plan u u'

/-- The plan keeps the bytes of different values apart where uses of overlapping
commands race. -/
def NoReuseAcross : Prop :=
  ∀ u u', Racing program commands marked u u' → ∀ r r', UsesRoot program.values u r →
    UsesRoot program.values u' r' → r ≠ r' → ¬ CommonByte program plan u u'

/-- The sequential lifetimes of different values meet where uses of overlapping
commands race. -/
def LivesMeet (liveness : Liveness) : Prop :=
  ∀ u u', Racing program commands marked u u' → ∀ r r', UsesRoot program.values u r →
    UsesRoot program.values u' r' → r ≠ r' → ∃ iv iv',
      liveness.intervals[r]? = some (some iv) ∧ liveness.intervals[r']? = some (some iv') ∧
      iv.overlaps iv' = true

end Safety

/-! ## A finished run of the planner -/

theorem instructionPositions_length (program : CudaLoweredProgram) :
    (instructionPositions program).length =
      (program.instructions.filter fun instruction => !stateInstruction instruction).length := by
  have h : ∀ (l : List (LoweredInstruction String)) (n : Nat),
      ((l.zipIdx n).filter fun entry => !stateInstruction entry.1).length =
        (l.filter fun instruction => !stateInstruction instruction).length := by
    intro l
    induction l with
    | nil => exact fun _ => rfl
    | cons instruction l ih =>
      intro n
      rw [zipIdx_cons, filter_cons, filter_cons]
      cases hs : stateInstruction instruction with
      | true => exact ih (n + 1)
      | false =>
        show _ + 1 = _ + 1
        rw [ih (n + 1)]
  unfold instructionPositions
  rw [length_map]
  exact h _ 0

/-- What `plan_dense_overlap` computed on its way to success. -/
structure OverlapRun (program program' : CudaLoweredProgram) (commands marked : List Command)
    (aliases : List NormalizedAlias) (planned : List OverlapBranch) : Prop where
  normalized : normalizeAliases program.values = .ok aliases
  known : ∀ step ∈ commandSteps program commands, ∀ resource ∈ step.instruction.resourceUses,
    resource.value.index < aliases.length
  steps_length : (commandSteps program commands).length = commands.length
  values : program'.values = program.values
  windows : ∃ occupiedUntil,
    Windows aliases (commandSteps program commands) (planned, occupiedUntil)
  marked_eq : marked = planned.zipIdx.foldl markBranch commands
  primary : ∀ c ∈ commands, c.overlap = .primary

theorem planDenseOverlap_run {program program' : CudaLoweredProgram}
    {commands marked : List Command} {n : Nat} (hprimary : ∀ c ∈ commands, c.overlap = .primary)
    (h : planDenseOverlap program commands = .ok (program', marked, n)) :
    ∃ aliases planned, OverlapRun program program' commands marked aliases planned := by
  unfold planDenseOverlap at h
  obtain ⟨_, hlen, h⟩ := bind_ok.mp h
  obtain ⟨aliases, haliases, h⟩ := bind_ok.mp h
  obtain ⟨_, hknown, h⟩ := bind_ok.mp h
  have hlen := not_not.mp (rejectIf_ok.mp hlen)
  have hknown := expect_ok.mp hknown
  split at hknown
  · next hall =>
    cases h
    refine ⟨aliases, _, mapErr_ok.mp haliases, hall, ?_, rfl, plannedBranches_windows, rfl,
      hprimary⟩
    unfold commandSteps
    rw [length_map, length_zip, ← instructionPositions_length, hlen, Nat.min_self]
  · cases hknown

section Run

variable {program program' : CudaLoweredProgram} {commands marked : List Command}
  {aliases : List NormalizedAlias} {planned : List OverlapBranch}

variable {branch : OverlapBranch} {steps : List Step} {step : Step} {u : ValueUse} {p index q : Nat}
  {plan : MemoryPlan CudaMemorySpace} {K M : Type} {schedule : LoweredProgram K M}
  {liveness : Liveness}

theorem OverlapRun.command_at (h : OverlapRun program program' commands marked aliases planned)
    (hp : p < (commandSteps program commands).length) : ∃ c, commands[p]? = some c :=
  ⟨_, List.getElem?_eq_getElem (h.steps_length ▸ hp)⟩

/-- A position with a mark carries it. -/
theorem OverlapRun.overlapAt_mark (h : OverlapRun program program' commands marked aliases planned)
    {overlap : CommandOverlap} (hb : planned[index]? = some branch)
    (hm : (p, overlap) ∈ branchMarks (branch, index)) : overlapAt marked p = some overlap := by
  obtain ⟨_, hw⟩ := h.windows
  have hbranch := mem_of_getElem? hb
  have hwindow := (hw.safe _ hbranch).mark_window hm
  obtain ⟨c, hc⟩ := h.command_at (Nat.lt_of_le_of_lt hwindow.2 (hw.join_lt _ hbranch))
  rw [overlapAt, h.marked_eq, hw.marked_branch hb hm hc]
  rfl

/-- Marking changes only the marks. -/
theorem OverlapRun.kind_eq (h : OverlapRun program program' commands marked aliases planned)
    (p : Nat) : marked[p]?.map (·.kind) = commands[p]?.map (·.kind) := by
  obtain ⟨_, hw⟩ := h.windows
  rcases marked_cases planned commands p with
    ⟨index, branch, overlap, hb, hm⟩ | hsame
  · have hbranch := mem_of_getElem? hb
    have hwindow := (hw.safe _ hbranch).mark_window hm
    obtain ⟨c, hc⟩ := h.command_at (Nat.lt_of_le_of_lt hwindow.2 (hw.join_lt _ hbranch))
    rw [h.marked_eq, hw.marked_branch hb hm hc, hc]
    rfl
  · rw [h.marked_eq, hsame]

/-- The second stream runs exactly the selected steps. -/
theorem OverlapRun.onWorker_iff (h : OverlapRun program program' commands marked aliases planned) :
    OnWorker marked p ↔
      ∃ (index : Nat) (branch : OverlapBranch), planned[index]? = some branch ∧
        p ∈ branch.selected := by
  constructor
  · rintro ⟨b, start, finish, hp⟩
    rcases marked_cases planned commands p with
      ⟨index, branch, overlap, hb, hm⟩ | hsame
    · have hmark := h.overlapAt_mark hb hm
      rcases mem_branchMarks.mp hm with ⟨i, hi, _⟩ | ⟨_, rfl⟩
      · exact ⟨index, branch, hb, mem_of_getElem? hi⟩
      · rw [hp] at hmark
        cases hmark
    · rw [overlapAt, h.marked_eq, hsame] at hp
      obtain ⟨c, hc, ho⟩ := Option.map_eq_some_iff.mp hp
      rw [h.primary c (mem_of_getElem? hc)] at ho
      cases ho
  · rintro ⟨index, branch, hb, hp⟩
    obtain ⟨i, hi⟩ := mem_iff_getElem?.mp hp
    exact ⟨_, _, _, h.overlapAt_mark hb (mem_branchMarks.mpr (.inl ⟨i, hi, rfl⟩))⟩

/-- The first step of a branch makes the second stream wait. -/
theorem OverlapRun.overlapAt_first (h : OverlapRun program program' commands marked aliases planned)
    (hb : planned[index]? = some branch) :
    ∃ finish, overlapAt marked branch.first = some (.worker index true finish) := by
  obtain ⟨_, hw⟩ := h.windows
  have hne := (hw.safe _ (mem_of_getElem? hb)).nonempty
  have hfirst : branch.selected[0]? = some branch.first := by
    unfold OverlapBranch.first
    cases hs : branch.selected with
    | nil => exact absurd hs hne
    | cons p rest => rfl
  exact ⟨_, h.overlapAt_mark hb (mem_branchMarks.mpr (.inl ⟨0, hfirst, rfl⟩))⟩

/-- The last step of a branch records its completion. -/
theorem OverlapRun.overlapAt_last (h : OverlapRun program program' commands marked aliases planned)
    (hb : planned[index]? = some branch) (hp : p ∈ branch.selected) :
    ∃ last start, p ≤ last ∧ overlapAt marked last = some (.worker index start true) := by
  obtain ⟨_, hw⟩ := h.windows
  have hsorted := (hw.safe _ (mem_of_getElem? hb)).selected.sorted
  obtain ⟨i, hi⟩ := mem_iff_getElem?.mp hp
  have hlt := (List.getElem?_eq_some_iff.mp hi).1
  have hlast := List.getElem?_eq_getElem (l := branch.selected) (i := branch.selected.length - 1)
    (by omega)
  have hle : p ≤ branch.selected[branch.selected.length - 1] := by
    rw [← (List.getElem?_eq_some_iff.mp hi).2]
    rcases Nat.lt_or_ge i (branch.selected.length - 1) with hlt' | hge
    · exact Nat.le_of_lt (pairwise_iff_getElem.mp hsorted _ _ _ _ hlt')
    · have : i = branch.selected.length - 1 := by omega
      exact Nat.le_of_eq (by simp only [this])
  have hmark := h.overlapAt_mark hb (mem_branchMarks.mpr (.inl ⟨_, hlast, rfl⟩))
  rw [decide_eq_true (show branch.selected.length - 1 + 1 = branch.selected.length by omega)]
    at hmark
  exact ⟨_, _, hle, hmark⟩

/-- Overlapping commands are a step of a branch and a primary command of its
window. -/
theorem OverlapRun.overlapping_branch
    (h : OverlapRun program program' commands marked aliases planned) {i j : Nat}
    (hij : Overlapping marked i j) : ∃ branch ∈ planned, ∃ w q,
      (w = i ∧ q = j ∨ w = j ∧ q = i) ∧ w ∈ branch.selected ∧ q ∉ branch.selected ∧
        branch.first ≤ q ∧ q < branch.join := by
  obtain ⟨_, hw⟩ := h.windows
  have hlt := hij.lt
  have hstream : ¬ (OnWorker marked i ↔ OnWorker marked j) := fun hiff =>
    hij.unordered (.stream hlt hiff)
  by_cases hi : OnWorker marked i
  · have hj : ¬ OnWorker marked j := fun hj => hstream ⟨fun _ => hj, fun _ => hi⟩
    obtain ⟨index, branch, hb, hsel⟩ := h.onWorker_iff.mp hi
    have hsafe := hw.safe _ (mem_of_getElem? hb)
    have hnot : j ∉ branch.selected := fun hm => hj (h.onWorker_iff.mpr ⟨index, branch, hb, hm⟩)
    refine ⟨branch, mem_of_getElem? hb, i, j, .inl ⟨rfl, rfl⟩, hsel, hnot,
      Nat.le_trans (hsafe.first_le hsel) (Nat.le_of_lt hlt), ?_⟩
    -- The join waits for the whole branch.
    by_contra hge
    obtain ⟨last, start, hle, hlast⟩ := h.overlapAt_last hb hsel
    have hjoin := h.overlapAt_mark hb (mem_branchMarks.mpr (.inr ⟨rfl, rfl⟩))
    exact hij.unordered (.join hlast hjoin hle (Nat.le_of_not_lt hge) hi hj)
  · have hj : OnWorker marked j := by
      by_contra hj
      exact hstream ⟨fun h' => absurd h' hi, fun h' => absurd h' hj⟩
    obtain ⟨index, branch, hb, hsel⟩ := h.onWorker_iff.mp hj
    have hsafe := hw.safe _ (mem_of_getElem? hb)
    have hnot : i ∉ branch.selected := fun hm => hi (h.onWorker_iff.mpr ⟨index, branch, hb, hm⟩)
    refine ⟨branch, mem_of_getElem? hb, j, i, .inr ⟨rfl, rfl⟩, hsel, hnot, ?_,
      Nat.lt_trans hlt (hsafe.selected.before j hsel)⟩
    -- The branch waits for the primary commands before it.
    by_contra hge
    obtain ⟨finish, hfirst⟩ := h.overlapAt_first hb
    exact hij.unordered (.fork hfirst (Nat.lt_of_not_le hge) (hsafe.first_le hsel) hi hj)

/-! ## Logical hazards -/

theorem mem_rootsOf {p : ValueAccess → Bool} {selected : List Nat} {w : Nat} (hw : w ∈ selected)
    (hstep : steps[w]? = some step) (hu : u ∈ step.instruction.resourceUses) (hp : p u.access = true) :
    root aliases u.value ∈ rootsOf aliases steps p selected := by
  unfold rootsOf
  refine mem_flatMap.mpr ⟨w, hw, mem_filterMap.mpr ⟨u, ?_, if_pos hp⟩⟩
  rw [hstep]
  exact hu

theorem outsideUse_false {p : ValueAccess → Bool} {selected roots : List Nat} {first join : Nat}
    (h : outsideUse aliases steps p selected first join roots = false) (hq : q ∉ selected)
    (hfirst : first ≤ q) (hjoin : q < join) (hstep : steps[q]? = some step)
    (hhost : hostCommand step.command = false) (hu : u ∈ step.instruction.resourceUses)
    (hp : p u.access = true) : root aliases u.value ∉ roots := by
  intro hroot
  unfold outsideUse at h
  rw [any_eq_false] at h
  refine h q (mem_range'_1.mpr ⟨hfirst, by omega⟩) ?_
  have huse : usesRoot aliases p step roots = true :=
    any_eq_true.mpr ⟨u, hu, by rw [hp, decide_eq_true hroot]; rfl⟩
  rw [hstep, decide_eq_true hq, Option.any_some, hhost, huse]
  rfl

/-- The hazard checks keep the logical values of a branch apart from those of its
window, where one side writes. -/
theorem BranchSafe.roots_ne (h : BranchSafe aliases steps branch) {w : Nat} (hw : w ∈ branch.selected)
    (hq : q ∉ branch.selected) (hfirst : branch.first ≤ q) (hjoin : q < branch.join) {step' : Step}
    (hstep : steps[w]? = some step) (hstep' : steps[q]? = some step')
    (hhost : hostCommand step'.command = false) {u' : ValueUse} (hu : u ∈ step.instruction.resourceUses)
    (hu' : u' ∈ step'.instruction.resourceUses) (hwrites : u.access.writes = true ∨ u'.access.writes = true) :
    root aliases u.value ≠ root aliases u'.value := by
  intro heq
  cases hwrites' : u'.access.writes with
  | true =>
    refine outsideUse_false h.unwritten hq hfirst hjoin hstep' hhost hu' hwrites' ?_
    rw [h.touched, ← heq]
    exact mem_rootsOf hw hstep hu rfl
  | false =>
    have hu_writes := hwrites.resolve_right (by simp [hwrites'])
    have hreads : u'.access.reads = true := by
      cases ha : u'.access with
      | read => rfl
      | write => simp [ha, ValueAccess.writes] at hwrites'
      | readWrite => rfl
    refine outsideUse_false h.unread hq hfirst hjoin hstep' hhost hu' hreads ?_
    rw [← heq]
    exact mem_rootsOf hw hstep hu hu_writes

theorem OverlapRun.device_not_host (h : OverlapRun program program' commands marked aliases planned)
    (hq : q ∈ deviceCommands marked) (hstep : (commandSteps program commands)[q]? = some step) :
    hostCommand step.command = false := by
  have hkind := h.kind_eq q
  have hdevice := (mem_filter.mp hq).2
  have hcommand : commands[q]? = some step.command := by
    unfold commandSteps at hstep
    rw [List.getElem?_map] at hstep
    obtain ⟨⟨c, instruction⟩, hz, rfl⟩ := Option.map_eq_some_iff.mp hstep
    exact (List.getElem?_zip_eq_some.mp hz).1
  cases hm : marked[q]? with
  | none =>
    rw [hm] at hdevice
    cases hdevice
  | some c =>
    rw [hm, Option.any_some, deviceCommand, Bool.and_eq_true, Bool.not_eq_true'] at hdevice
    rw [hm, hcommand, Option.map_some, Option.map_some, Option.some.injEq] at hkind
    unfold hostCommand at hdevice ⊢
    rw [← hkind]
    exact hdevice.1

/-- Racing uses name different logical values. -/
theorem OverlapRun.roots_ne (h : OverlapRun program program' commands marked aliases planned)
    {u' : ValueUse} (hr : Racing program commands marked u u') :
    root aliases u.value ≠ root aliases u'.value := by
  obtain ⟨⟨i, j, step, step', hij, hstep, hu, hstep', hu'⟩, hwrites⟩ := hr
  obtain ⟨_, hw⟩ := h.windows
  obtain ⟨branch, hbranch, w, q, hpair, hsel, hnot, hfirst, hjoin⟩ := h.overlapping_branch hij
  have hsafe := hw.safe branch hbranch
  rcases hpair with ⟨rfl, rfl⟩ | ⟨rfl, rfl⟩
  · exact hsafe.roots_ne hsel hnot hfirst hjoin hstep hstep'
      (h.device_not_host hij.later hstep') hu hu' hwrites
  · exact (hsafe.roots_ne hsel hnot hfirst hjoin hstep' hstep
      (h.device_not_host hij.earlier hstep) hu' hu hwrites.symm).symm

/-- A root of the planner is a root of the value table. -/
theorem OverlapRun.usesRoot (h : OverlapRun program program' commands marked aliases planned)
    (hstep : step ∈ commandSteps program commands) (hu : u ∈ step.instruction.resourceUses) :
    UsesRoot program.values u (root aliases u.value) := by
  obtain ⟨_, hchain⟩ := normalizeAliases_chain h.normalized
  obtain ⟨a, ha⟩ : ∃ a, aliases[u.value.index]? = some a :=
    ⟨_, List.getElem?_eq_getElem (h.known step hstep u hu)⟩
  have hroot : root aliases u.value = a.root.index := by simp [root, ha]
  rw [hroot]
  exact ⟨_, hchain _ _ ha⟩

/-! ## Safety -/

/-- Overlapping commands act on separate bytes if their racing uses do. -/
theorem OverlapRun.separate (h : OverlapRun program program' commands marked aliases planned) {β : Type}
    (meaning : CommandMeaning program commands β)
    (hbytes : ∀ u u', Racing program commands marked u u' → ¬ CommonByte program plan u u') {i j : Nat}
    (hij : Overlapping marked i j) :
    Separate (valueAddress program plan) (meaning.action i) (meaning.action j) := by
  have hstep : ∀ p ∈ deviceCommands marked, ∃ step, (commandSteps program commands)[p]? = some step := by
    intro p hp
    have hlt := mem_range.mp (mem_filter.mp hp).1
    rw [h.marked_eq, foldl_markBranch, applyMarks_length, ← h.steps_length] at hlt
    exact ⟨_, List.getElem?_eq_getElem hlt⟩
  obtain ⟨step, hi⟩ := hstep i hij.earlier
  obtain ⟨step', hj⟩ := hstep j hij.later
  have key : ∀ {p p' : ValueAccess → Bool} {x x' : ValueByte},
      DeclaredByte program step.instruction p x → DeclaredByte program step'.instruction p' x' →
      (p = ValueAccess.writes ∨ p' = ValueAccess.writes) →
      valueAddress program plan x ≠ valueAddress program plan x' := by
    rintro p p' ⟨_, byte⟩ ⟨_, byte'⟩ ⟨u, hu, hp, rfl, v, hv, hb⟩ ⟨u', hu', hp', rfl, v', hv', hb'⟩
      hwrites haddr
    refine hbytes u u' ⟨⟨i, j, step, step', hij, hi, hu, hj, hu'⟩, ?_⟩
      ⟨v, v', byte, byte', hv, hv', hb, hb', haddr⟩
    rcases hwrites with rfl | rfl
    · exact .inl hp
    · exact .inr hp'
  refine ⟨fun m m' w hw w' hw' => ?_, fun m m' w hw x hx => ?_, fun m m' w hw x hx => ?_⟩
  · exact key (meaning.writes_declared i step hi m w hw)
      (meaning.writes_declared j step' hj m' w' hw') (.inl rfl)
  · exact key (meaning.writes_declared i step hi m w hw)
      (meaning.reads_declared j step' hj m' x hx) (.inl rfl)
  · exact (key (meaning.reads_declared i step hi m' x hx)
      (meaning.writes_declared j step' hj m w hw) (.inr rfl)).symm

/-- If racing uses name separate bytes, every allowed order leaves the memory of
program order. -/
theorem OverlapRun.allowed_order (h : OverlapRun program program' commands marked aliases planned)
    {β : Type} (meaning : CommandMeaning program commands β)
    (hbytes : ∀ u u', Racing program commands marked u u' → ¬ CommonByte program plan u u')
    {order : List Nat} (horder : AllowedOrder marked order) (memory : Address → β) :
    execAll (valueAddress program plan) (order.map meaning.action) memory =
      execAll (valueAddress program plan) ((deviceCommands marked).map meaning.action) memory := by
  have hsorted := deviceCommands_sorted marked
  have hnodup : order.Nodup := horder.perm.nodup_iff.mpr (hsorted.imp Nat.ne_of_lt)
  refine execAll_reorder hsorted horder.perm ?_
  refine (horder.ordered.and hnodup).imp_of_mem fun {a b} ha hb hab => ?_
  rcases Nat.lt_or_ge a b with hlt | hge
  · exact .inl hlt
  · have hba : Overlapping marked b a :=
      ⟨horder.perm.mem_iff.mp hb, horder.perm.mem_iff.mp ha,
        Nat.lt_of_le_of_ne hge (Ne.symm hab.2), hab.1⟩
    exact .inr (h.separate meaning hbytes hba).symm

/-- A root with an interval is alive at least that long. -/
theorem LivenessSound.lifetime_covers [DecidableEq M] (h : LivenessSound schedule liveness)
    {x : StorageByte} {v : ValueDecl M} {iv : LiveInterval} (hv : schedule.values[x.root]? = some v)
    (howner : v.storage.isAlias = false) (hx : x.byte < v.bytes)
    (hi : liveness.intervals[x.root]? = some (some iv)) :
    (lifetime schedule liveness x).1 ≤ iv.start.index ∧
      iv.stop.index ≤ (lifetime schedule liveness x).2 := by
  cases hs : v.storage with
  | aliasOf s o =>
    rw [hs] at howner
    cases howner
  | fixed c l =>
    rw [lifetime_fixed hv hs hx]
    exact ⟨Nat.zero_le _, (h.bounds _ iv hi).2.2⟩
  | planned c a m o =>
    rw [lifetime_planned hv hs hx hi]
    exact ⟨Nat.le_refl _, Nat.le_refl _⟩

/-- Values whose lifetimes meet have no byte of the plan in common. -/
theorem PlanSound.no_common_byte [DecidableEq M] {config : MemoryPlannerConfig M} {plan : MemoryPlan M}
    (h : PlanSound schedule config liveness plan) (x x' : ValueByte) {v v' : ValueDecl M}
    (hv : schedule.values[x.value]? = some v) (hv' : schedule.values[x'.value]? = some v')
    (hx : x.byte < v.bytes) (hx' : x'.byte < v'.bytes) {r r' offset offset' : Nat}
    (hr : AliasChain schedule.values x.value ⟨r⟩ offset)
    (hr' : AliasChain schedule.values x'.value ⟨r'⟩ offset') (hne : r ≠ r') {iv iv' : LiveInterval}
    (hi : liveness.intervals[r]? = some (some iv)) (hi' : liveness.intervals[r']? = some (some iv'))
    (hmeet : iv.overlaps iv' = true) : valueAddress schedule plan x ≠ valueAddress schedule plan x' := by
  have hls := h.liveness_sound
  have hd := hls.well_formed.values_dense
  intro haddr
  rw [h.valueAddress_eq hv, h.valueAddress_eq hv', privateByte_chain hd hr,
    privateByte_chain hd hr'] at haddr
  have hcover : ∀ {x : ValueByte} {v : ValueDecl M} {r offset : Nat} {iv : LiveInterval},
      schedule.values[x.value]? = some v → x.byte < v.bytes →
      AliasChain schedule.values x.value ⟨r⟩ offset → liveness.intervals[r]? = some (some iv) →
      (lifetime schedule liveness ⟨r, offset + x.byte⟩).1 ≤ iv.start.index ∧
        iv.stop.index ≤ (lifetime schedule liveness ⟨r, offset + x.byte⟩).2 := by
    intro x v r offset iv hv hx hr hi
    obtain ⟨v₀, rv, hv₀, hrv, howner, hle⟩ := hr.bounds hd
    rw [hv] at hv₀
    cases hv₀
    exact hls.lifetime_covers hrv howner (show offset + x.byte < rv.bytes by omega) hi
  obtain ⟨hs, ht⟩ := hcover hv hx hr hi
  obtain ⟨hs', ht'⟩ := hcover hv' hx' hr' hi'
  obtain ⟨h1, h2⟩ := LiveInterval.overlaps_iff.mp hmeet
  refine h.not_together ?_ haddr ⟨Nat.lt_of_le_of_lt hs (Nat.lt_of_lt_of_le h1 ht'),
    Nat.lt_of_le_of_lt hs' (Nat.lt_of_lt_of_le h2 ht)⟩
  simp [hne]

theorem valueAddress_congr [DecidableEq M] {schedule' : LoweredProgram K M}
    (h : schedule.values = schedule'.values) (plan : MemoryPlan M) :
    valueAddress schedule plan = valueAddress schedule' plan := by
  funext x
  simp only [valueAddress, storageAddress, h]

/-- If the lifetimes of racing values meet, the plan keeps their bytes apart. -/
theorem OverlapRun.no_reuse (h : OverlapRun program program' commands marked aliases planned)
    {config : MemoryPlannerConfig CudaMemorySpace} (hsound : PlanSound program' config liveness plan)
    (hmeet : LivesMeet program commands marked liveness) : NoReuseAcross program commands marked plan := by
  rintro u u' hr r r' hroot hroot' hne ⟨v, v', byte, byte', hv, hv', hb, hb', haddr⟩
  obtain ⟨iv, iv', hi, hi', hov⟩ := hmeet u u' hr r r' hroot hroot' hne
  obtain ⟨offset, hchain⟩ := hroot
  obtain ⟨offset', hchain'⟩ := hroot'
  rw [← h.values] at hv hv' hchain hchain'
  rw [valueAddress_congr h.values.symm] at haddr
  exact hsound.no_common_byte ⟨_, byte⟩ ⟨_, byte'⟩ hv hv' hb hb' hchain hchain' hne
    hi hi' hov haddr

end Run

def fixtureStep (kind : CommandKind) (inputs outputs scratch : List Nat) :
    LoweredInstruction String × Command :=
  ({ id := ⟨0⟩, kind := "fixture", inputs := inputs.map fun i => .read ⟨i⟩,
     outputs := outputs.map fun o => ⟨⟨o⟩⟩, scratch := scratch.map fun s => .readWrite ⟨s⟩ },
    ⟨outputs.head?.map ValueId.mk, kind, .primary⟩)

/-- The fixture of the tests of `planned_overlap.rs`: the projections write `2`, `4`
and `6` with scratch `1`, `3` and `5`; the expert writes `11` with scratch `7` to
`10`. -/
def fixtureSteps : List (LoweredInstruction String × Command) :=
  [fixtureStep .prepare [] [0] [],
   fixtureStep .prepare [] [1] [], fixtureStep (.gemm false) [0, 0] [2] [1],
   fixtureStep .prepare [] [3] [], fixtureStep (.gemm false) [2, 0] [4] [3],
   fixtureStep .prepare [] [5] [], fixtureStep (.gemm false) [4, 0] [6] [5],
   fixtureStep .prepare [] [7, 8, 9, 10] [],
   fixtureStep (.groupedExpert false) [0] [11] [7, 8, 9, 10],
   fixtureStep .prepare [] [12] [],
   fixtureStep (.kernel "et_binary" false .none false) [11] [13] [],
   fixtureStep (.kernel "et_binary" false .none false) [6, 13] [14] [],
   fixtureStep (.kernel "et_binary" false .none false) [12] [15] []]

/-- The fixture with its steps in the given order. -/
def fixtureOrder (order : List Nat) : List (LoweredInstruction String × Command) :=
  order.filterMap (fixtureSteps[·]?)

def fixtureValue (i : Nat) : ValueDecl CudaMemorySpace :=
  .planned ⟨i⟩ ("value_" ++ toString i) 256 256 .device .workspace

def fixtureProgram (order : List Nat) : CudaLoweredProgram where
  values := (List.range 16).map fixtureValue
  instructions := (fixtureOrder order).zipIdx.map fun e => { e.1.1 with id := ⟨e.2⟩ }
  outputs := [⟨14⟩, ⟨15⟩]

def fixtureCommands (order : List Nat) : List Command := (fixtureOrder order).map (·.2)

def fixtureConfig : MemoryPlannerConfig CudaMemorySpace := .uniform .device (2 ^ 20) 256 256

/-- The commands with the branch of steps `first`, `second` and `third`. -/
def fixtureMarked (order : List Nat) (first second third : Nat) : List Command :=
  applyMarks (fixtureCommands order) [(first, .worker 0 true false),
    (second, .worker 0 false false), (third, .worker 0 false true), (11, .join 0)]

/-- Planning succeeds with the given marks and locations. -/
def plansTo (order : List Nat) (marked : List Command)
    (check : Liveness → List Location → Bool) : Bool :=
  match planDenseOverlap (fixtureProgram order) (fixtureCommands order) with
  | .ok (program, marked', _) =>
    decide (marked' = marked) &&
      match analyzeLiveness program, planMemory program fixtureConfig with
      | .ok liveness, .ok plan => check liveness plan.locations
      | _, _ => false
  | _ => false

theorem plansTo_run (order : List Nat) (marked : List Command)
    (check : Liveness → List Location → Bool) (h : plansTo order marked check = true) :
    ∃ program' n liveness plan,
      planDenseOverlap (fixtureProgram order) (fixtureCommands order) = .ok (program', marked, n) ∧
      analyzeLiveness program' = .ok liveness ∧ planMemory program' fixtureConfig = .ok plan ∧
      check liveness plan.locations = true := by
  unfold plansTo at h
  split at h
  · next program' marked' n hoverlap =>
    obtain ⟨hmarked, h⟩ := Bool.and_eq_true_iff.mp h
    rw [of_decide_eq_true hmarked] at hoverlap
    split at h
    · next liveness plan hliveness hplan =>
      exact ⟨program', n, liveness, plan, hoverlap, hliveness, hplan, h⟩
    · cases h
  · cases h

/-- The racing uses of the marked fixture whose lifetimes meet. -/
def fixtureLivesMeet (order : List Nat) (marked : List Command) (liveness : Liveness) : Bool :=
  (deviceCommands marked).all fun i => (deviceCommands marked).all fun j =>
    !decide (Overlapping marked i j) ||
      match (commandSteps (fixtureProgram order) (fixtureCommands order))[i]?,
        (commandSteps (fixtureProgram order) (fixtureCommands order))[j]? with
      | some step, some step' => step.instruction.resourceUses.all fun u =>
        step'.instruction.resourceUses.all fun u' =>
          match liveness.intervals[u.value.index]?, liveness.intervals[u'.value.index]? with
          | some (some iv), some (some iv') => iv.overlaps iv'
          | _, _ => false
      | _, _ => false

variable {order : List Nat} {i : Nat}

theorem fixture_value (h : i < 16) : (fixtureProgram order).values[i]? = some (fixtureValue i) := by
  show ((List.range 16).map fixtureValue)[i]? = _
  rw [List.getElem?_map, List.getElem?_range h]
  rfl

/-- Every value of the fixture is its own root. -/
theorem fixture_root {u : ValueUse} {r : Nat} (h : UsesRoot (fixtureProgram order).values u r) :
    r = u.value.index := by
  obtain ⟨offset, hchain⟩ := h
  have hplanned : ∀ v ∈ (fixtureProgram order).values, v.storage.isAlias = false := by
    intro v hv
    obtain ⟨i, _, rfl⟩ := mem_map.mp hv
    rfl
  have hdense : DenseValues (fixtureProgram order).values := by
    intro i v hv
    obtain ⟨j, hj, rfl⟩ := Option.map_eq_some_iff.mp ((List.getElem?_map ..).symm.trans hv)
    obtain ⟨hlt, rfl⟩ := List.getElem?_eq_some_iff.mp hj
    rw [length_range] at hlt
    rw [getElem_range]
    exact ⟨rfl, Nat.le_trans (Nat.le_of_lt hlt) (by decide)⟩
  obtain ⟨v, _, hv, _⟩ := hchain.bounds hdense
  exact congrArg ValueId.index
    (hchain.of_owner hdense hv (hplanned v (mem_of_getElem? hv))).1

theorem fixtureLivesMeet_sound {marked : List Command} {liveness : Liveness}
    (h : fixtureLivesMeet order marked liveness = true) :
    LivesMeet (fixtureProgram order) (fixtureCommands order) marked liveness := by
  intro u u' hr r r' hroot hroot' _
  obtain ⟨i, j, step, step', hij, hi, hu, hj, hu'⟩ := hr.commands
  have h := all_eq_true.mp (all_eq_true.mp h i hij.earlier) j hij.later
  rw [decide_eq_true hij, Bool.not_true, Bool.false_or, hi, hj] at h
  have h := all_eq_true.mp (all_eq_true.mp h u hu) u' hu'
  rw [fixture_root hroot, fixture_root hroot']
  split at h
  · next iv iv' hiv hiv' => exact ⟨iv, iv', hiv, hiv', h⟩
  · cases h

def programOrder : List Nat := List.range 13

/-- The order of the test `dense_commands_can_straddle_the_primary_grouped_projection`:
the expert is step `6` and the last projection, with scratch `5`, is step `8`. -/
def straddlingOrder : List Nat := [0, 1, 2, 3, 4, 7, 8, 5, 6, 9, 10, 11, 12]

def straddlingMarked : List Command := fixtureMarked straddlingOrder 2 4 8

def copyByte (source target : ValueByte) : Action ValueByte Bool where
  emit m := [(target, m source)]
  reads _ := {source}
  emit_local m m' h := by rw [h source rfl]

def raiseByte (target : ValueByte) : Action ValueByte Bool where
  emit _ := [(target, true)]
  reads _ := ∅
  emit_local _ _ _ := rfl

def idle : Action ValueByte Bool where
  emit _ := []
  reads _ := ∅
  emit_local _ _ _ := rfl

/-- The expert's control byte reaches the first output; the last projection raises
a byte of its scratch. -/
def straddlingAction : Nat → Action ValueByte Bool
  | 6 => copyByte ⟨7, 0⟩ ⟨11, 0⟩
  | 8 => raiseByte ⟨5, 0⟩
  | 10 => copyByte ⟨11, 0⟩ ⟨13, 0⟩
  | 11 => copyByte ⟨13, 0⟩ ⟨14, 0⟩
  | _ => idle

/-- Step `k` declares entry `i` with an access of kind `p`. -/
def fixtureDeclares (order : List Nat) (k i : Nat) (p : ValueAccess → Bool) : Bool :=
  match (commandSteps (fixtureProgram order) (fixtureCommands order))[k]? with
  | some step => decide (i < 16) &&
      step.instruction.resourceUses.any fun u => p u.access && decide (u.value.index = i)
  | none => false

theorem fixtureDeclares_byte {k : Nat} {p : ValueAccess → Bool} {step : Step}
    (h : fixtureDeclares order k i p = true)
    (hstep : (commandSteps (fixtureProgram order) (fixtureCommands order))[k]? = some step) :
    DeclaredByte (fixtureProgram order) step.instruction p ⟨i, 0⟩ := by
  unfold fixtureDeclares at h
  rw [hstep] at h
  obtain ⟨hi, hany⟩ := Bool.and_eq_true_iff.mp h
  obtain ⟨u, hu, hp⟩ := any_eq_true.mp hany
  obtain ⟨hp, hui⟩ := Bool.and_eq_true_iff.mp hp
  exact ⟨u, hu, hp, of_decide_eq_true hui, fixtureValue i, fixture_value (of_decide_eq_true hi),
    (by decide : 0 < 256)⟩

def straddlingMeaning :
    CommandMeaning (fixtureProgram straddlingOrder) (fixtureCommands straddlingOrder) Bool where
  action := straddlingAction
  reads_declared k step hk m x hx := by
    match k with
    | 6 =>
      rw [Set.mem_singleton_iff.mp hx]
      exact fixtureDeclares_byte (by decide +kernel) hk
    | 10 =>
      rw [Set.mem_singleton_iff.mp hx]
      exact fixtureDeclares_byte (by decide +kernel) hk
    | 11 =>
      rw [Set.mem_singleton_iff.mp hx]
      exact fixtureDeclares_byte (by decide +kernel) hk
    | 0 | 1 | 2 | 3 | 4 | 5 | 7 | 8 | 9 | _ + 12 => cases hx
  writes_declared k step hk m w hw := by
    match k with
    | 6 =>
      rw [mem_singleton.mp hw]
      exact fixtureDeclares_byte (by decide +kernel) hk
    | 8 =>
      rw [mem_singleton.mp hw]
      exact fixtureDeclares_byte (by decide +kernel) hk
    | 10 =>
      rw [mem_singleton.mp hw]
      exact fixtureDeclares_byte (by decide +kernel) hk
    | 11 =>
      rw [mem_singleton.mp hw]
      exact fixtureDeclares_byte (by decide +kernel) hk
    | 0 | 1 | 2 | 3 | 4 | 5 | 7 | 9 | _ + 12 => cases hw

theorem fixture_address {plan : MemoryPlan CudaMemorySpace} {offset : Nat} (hi : i < 16)
    (hloc : plan.locations[i]? = some (.segment ⟨0⟩ offset 256)) :
    valueAddress (fixtureProgram order) plan ⟨i, 0⟩ = .segment ⟨0⟩ offset := by
  simp [valueAddress, storageAddress, fixture_value hi, hloc, fixtureValue, ValueDecl.planned,
    ValueStorage.isAlias, ValueStorage.isPlanned]

/-- Where the plan puts the values that the run below looks at. -/
def straddlingOffsets : List (Nat × Nat) :=
  [(5, 1280), (7, 1280), (11, 2304), (13, 2048), (14, 2304)]

end EffectTorch
