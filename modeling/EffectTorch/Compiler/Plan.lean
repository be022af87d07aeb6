import EffectTorch.Compiler.Placement
import Mathlib.Data.List.Destutter

/-!
# Memory planning

`plan_memory` of `compiler/src/planner.rs`: after the packing loop come the
segment sizes, the scan of every pair of placed values for conflicts and reuse
edges, the location and output tables, the report, and the runtime's own
validation of the plan.

Results:
1. `planMemory_sound`: what a returned plan says about the placed values.
2. `plan_placement_invariants`: live values of one segment do not share bytes,
   every slice is aligned and in bounds, and every segment matches its members
   and its configuration.
-/

set_option linter.unusedSectionVars false

namespace EffectTorch
open List Lib

section Plan

variable {K M : Type} [DecidableEq M]

/-! ## Segments and reuse -/

/-- The declaration of a finished segment. The last test is the source's
`debug_assert`. -/
def segmentDecl (segment : WorkingSegment M) : Fallible PlannerError (SegmentDecl M) := do
  let bytes ← roundUp segment.usedEnd segment.granularity none
  if bytes ≤ segment.maxBytes then
    .ok ⟨bytes, segment.alignment, segment.memorySpace, segment.ownership⟩
  else .error (.panic "assertion failed: bytes <= segment.max_bytes")

/-- One pair of the conflict scan. -/
def scanPair (next : Assignment) (edges : List ReuseEdge) (previous : Assignment) :
    Fallible PlannerError (List ReuseEdge) :=
  if previous.segment ≠ next.segment then .ok edges
  else do
    let previousEnd ← okOr (checkedAdd previous.offset previous.bytes)
      (.byteSizeOverflow (some previous.value))
    let nextEnd ← okOr (checkedAdd next.offset next.bytes) (.byteSizeOverflow (some next.value))
    if ¬ (previous.offset < nextEnd ∧ next.offset < previousEnd) then .ok edges
    else do
      rejectIf (previous.interval.overlaps next.interval = true)
        (.packingConflict previous.value next.value)
      if previous.interval.stop.index ≤ next.interval.start.index then
        .ok (edges ++ [⟨previous.value, next.value, ⟨previous.interval.stop.index - 1⟩,
          next.interval.start⟩])
      else .ok edges

/-- All pairs that end in one assignment. -/
def scanNext (assignments : List Assignment) (edges : List ReuseEdge)
    (entry : Assignment × Nat) : Fallible PlannerError (List ReuseEdge) :=
  (assignments.take entry.2).foldlM (scanPair entry.1) edges

/-- The sort key `(before, after, next_value, previous_value)`. -/
def ReuseEdge.le (a b : ReuseEdge) : Prop :=
  a.before.index < b.before.index ∨ a.before.index = b.before.index ∧
    (a.after.index < b.after.index ∨ a.after.index = b.after.index ∧
      (a.nextValue.index < b.nextValue.index ∨ a.nextValue.index = b.nextValue.index ∧
        a.previousValue.index ≤ b.previousValue.index))

instance : DecidableRel ReuseEdge.le := fun a b => by
  unfold ReuseEdge.le
  infer_instance

/-- The conflict scan. `dedup` drops consecutive equal edges. -/
def reuseEdges (assignments : List Assignment) : Fallible PlannerError (List ReuseEdge) := do
  let edges ← assignments.zipIdx.foldlM (scanNext assignments) []
  .ok ((edges.insertionSort ReuseEdge.le).destutter (· ≠ ·))

/-! ## Locations and outputs -/

/-- The location of one entry of the value table. -/
def locationOf (liveness : Liveness) (assignedByValue : List (Option Assignment))
    (entry : ValueDecl M × Nat) : Fallible PlannerError Location := do
  let (value, index) := entry
  let _ ← okOr (LocationId.fromIndex index) .tooManyLocations
  match value.storage with
  | .fixed _ location => .ok location
  | .planned .. =>
    let assignment ← expect assignedByValue[index]?.join "planned value assignment"
    let segment ← okOr (SegmentId.fromIndex assignment.segment) .tooManySegments
    .ok (.segment segment assignment.offset assignment.bytes)
  | .aliasOf .. =>
    let normalized ← expect liveness.aliases[index]? "index out of bounds"
    .ok (.aliasOf normalized.root normalized.byteOffset)

/-- The slot of one program output. -/
def outputSlot (values : List (ValueDecl M)) (value : ValueId) :
    Fallible PlannerError OutputSlot := do
  rejectIf (values[value.index]? = none) (.unknownValue none value)
  let location ← okOr (LocationId.fromIndex value.index) .tooManyLocations
  .ok ⟨value, location⟩

/-! ## Report -/

/-- `checked_add` on a report counter. -/
def addBytes (target amount : Nat) : Fallible PlannerError Nat :=
  okOr (checkedAdd target amount) (.byteSizeOverflow none)

/-- `add_fixed_bytes`. -/
def addFixedBytes (report : MemoryReport) (storageClass : StorageClass) (bytes : Nat) :
    Fallible PlannerError MemoryReport :=
  match storageClass with
  | .externalInput => do
    .ok { report with externalBytes := ← addBytes report.externalBytes bytes }
  | .persistentConstant => do
    .ok { report with persistentBytes := ← addBytes report.persistentBytes bytes }
  | .persistentState => do
    .ok { report with stateBytes := ← addBytes report.stateBytes bytes }
  | .escapingOutput => do
    .ok { report with outputBytes := ← addBytes report.outputBytes bytes }
  | .workspace | .deviceStatus => do
    .ok { report with workspaceBytes := ← addBytes report.workspaceBytes bytes }

/-- The report's share of one value. -/
def reportValue (report : MemoryReport) (value : ValueDecl M) :
    Fallible PlannerError MemoryReport :=
  match value.storage with
  | .fixed storageClass _ => addFixedBytes report storageClass value.bytes
  | _ => .ok report

/-- The report's share of one segment. -/
def reportSegment (report : MemoryReport) (segment : SegmentDecl M) :
    Fallible PlannerError MemoryReport :=
  match segment.ownership with
  | .workspace | .invocationStaging => do
    .ok { report with workspaceBytes := ← addBytes report.workspaceBytes segment.bytes }
  | .provisionalOutput => do
    .ok { report with outputBytes := ← addBytes report.outputBytes segment.bytes }
  | .stateTransaction => do
    .ok { report with transactionBytes := ← addBytes report.transactionBytes segment.bytes }

/-- An allocation with its sort key `(Reverse(bytes), name, id)`. -/
structure RankedAllocation where
  id : Nat
  allocation : AllocationReport
deriving DecidableEq, Repr

def RankedAllocation.le (a b : RankedAllocation) : Prop :=
  b.allocation.bytes < a.allocation.bytes ∨ a.allocation.bytes = b.allocation.bytes ∧
    (a.allocation.name < b.allocation.name ∨ a.allocation.name = b.allocation.name ∧ a.id ≤ b.id)

instance : DecidableRel RankedAllocation.le := fun a b => by
  unfold RankedAllocation.le
  infer_instance

/-- The report line of a value that owns storage. -/
def rankedAllocation (value : ValueDecl M) : Option RankedAllocation :=
  match value.storage with
  | .fixed storageClass _ | .planned storageClass .. =>
    some ⟨value.id.index, ⟨value.name, storageClass, value.bytes⟩⟩
  | .aliasOf .. => none

/-- `table[index] = table[index].checked_add(amount)?`. -/
def addAt (table : List Nat) (index amount : Nat) : Fallible PlannerError (List Nat) := do
  let current ← expect table[index]? "index out of bounds"
  let sum ← addBytes current amount
  .ok (table.set index sum)

/-- Records where one planned value's interval starts and ends. -/
def tallyValue (tables : List Nat × List Nat) (entry : ValueDecl M × Option LiveInterval) :
    Fallible PlannerError (List Nat × List Nat) :=
  if entry.1.storage.isPlanned then do
    let interval ← expect entry.2 "planned values have checked intervals"
    let starts ← addAt tables.1 interval.start.index entry.1.bytes
    let ends ← addAt tables.2 interval.stop.index entry.1.bytes
    .ok (starts, ends)
  else .ok tables

/-- One instruction of the sweep: the live bytes and their peak. -/
def sweepInstruction (starts ends : List Nat) (counters : Nat × Nat) (instruction : Nat) :
    Fallible PlannerError (Nat × Nat) := do
  let (live, peak) := counters
  let stopped ← expect ends[instruction]? "index out of bounds"
  let live ← okOr (checkedSub live stopped) (.byteSizeOverflow none)
  let started ← expect starts[instruction]? "index out of bounds"
  let live ← addBytes live started
  .ok (live, max peak live)

/-- `build_report`. -/
def buildReport (schedule : LoweredProgram K M) (liveness : Liveness)
    (segments : List (SegmentDecl M)) (largestAllocations : Nat) :
    Fallible PlannerError MemoryReport := do
  let report ← schedule.values.foldlM reportValue {}
  let report ← segments.foldlM reportSegment report
  let empty := List.replicate (schedule.instructions.length + 1) 0
  let (starts, ends) ← (schedule.values.zip liveness.intervals).foldlM tallyValue (empty, empty)
  let (_, peak) ← (List.range schedule.instructions.length).foldlM
    (sweepInstruction starts ends) (0, report.peakLiveBytes)
  let segmentBytes ← okOr (MemoryPlan.checkedSegmentBytes segments) (.byteSizeOverflow none)
  let overhead ← okOr (checkedSub segmentBytes peak) (.byteSizeOverflow none)
  let largest := (schedule.values.filterMap rankedAllocation).insertionSort RankedAllocation.le
  .ok { report with
    peakLiveBytes := peak
    packingOverheadBytes := overhead
    largestAllocations := (largest.take largestAllocations).map RankedAllocation.allocation }

/-! ## Planning -/

/-- `Result::map_err` of the last step. -/
def validated (plan : MemoryPlan M) : Fallible PlannerError (MemoryPlan M) :=
  match plan.validate with
  | .ok () => .ok plan
  | .error (.error e) => fail (.invalidMemoryPlan e.display)
  | .error (.panic message) => .error (.panic message)

/-- `plan_memory_with_liveness`. -/
def planMemoryWithLiveness (schedule : LoweredProgram K M) (config : MemoryPlannerConfig M)
    (liveness : Liveness) : Fallible PlannerError (MemoryPlan M) := do
  validateConfig config
  let order ← allocationOrder schedule.values liveness
  let packed ← packValues schedule.values config liveness order
  let segments ← packed.working.mapM segmentDecl
  let edges ← reuseEdges packed.assignments
  let locations ← schedule.values.zipIdx.mapM (locationOf liveness packed.assignedByValue)
  let outputs ← schedule.outputs.mapM (outputSlot schedule.values)
  let report ← buildReport schedule liveness segments config.largestAllocations
  validated ⟨segments, locations, outputs, edges, report⟩

/-- `plan_memory`. -/
def planMemory (schedule : LoweredProgram K M) (config : MemoryPlannerConfig M) :
    Fallible PlannerError (MemoryPlan M) := do
  let liveness ← analyzeLiveness schedule
  planMemoryWithLiveness schedule config liveness

/-! ## The conflict scan -/

theorem scanPair_ok {next previous : Assignment} {edges edges' : List ReuseEdge}
    (h : scanPair next edges previous = .ok edges') : ¬ Conflict previous next := by
  rintro ⟨hseg, haddr, hover⟩
  unfold scanPair at h
  rw [if_neg (not_not.mpr hseg)] at h
  simp only [bind_ok, okOr_ok, checkedAdd_some] at h
  obtain ⟨previousEnd, ⟨_, rfl⟩, nextEnd, ⟨_, rfl⟩, h⟩ := h
  unfold addressOverlap at haddr
  rw [if_neg (not_not.mpr (of_decide_eq_true haddr))] at h
  obtain ⟨_, hreject, _⟩ := bind_ok.mp h
  exact rejectIf_ok.mp hreject hover

theorem scanPair_total {next previous : Assignment} (edges : List ReuseEdge)
    (hprev : previous.offset + previous.bytes ≤ usizeMax)
    (hnext : next.offset + next.bytes ≤ usizeMax) (h : ¬ Conflict previous next) :
    ∃ edges', scanPair next edges previous = .ok edges' := by
  unfold scanPair
  split
  · exact ⟨_, rfl⟩
  · next hseg =>
    simp only [checkedAdd_of_le hprev, checkedAdd_of_le hnext, okOr_some, ok_bind]
    split
    · exact ⟨_, rfl⟩
    · next haddr =>
      have hover : rejectIf (previous.interval.overlaps next.interval = true)
          (PlannerError.packingConflict previous.value next.value) = .ok () :=
        rejectIf_ok.mpr fun hover => h ⟨not_not.mp hseg,
          decide_eq_true (not_not.mp haddr), hover⟩
      rw [hover, ok_bind]
      split <;> exact ⟨_, rfl⟩

/-- A scan that returns met no conflict. -/
theorem reuseEdges_ok {assignments : List Assignment} {edges : List ReuseEdge}
    (h : reuseEdges assignments = .ok edges) :
    assignments.Pairwise fun a b => ¬ Conflict a b := by
  unfold reuseEdges at h
  obtain ⟨all, hall, _⟩ := bind_ok.mp h
  have hpairs := foldlM_forall (f := scanNext assignments)
    (C := fun entry : Assignment × Nat => ∀ a ∈ assignments.take entry.2, ¬ Conflict a entry.1)
    (fun edges entry edges' hs => foldlM_forall (f := scanPair entry.1)
      (C := fun a => ¬ Conflict a entry.1) (fun _ _ _ => scanPair_ok) hs) hall
  rw [pairwise_iff_getElem]
  intro i j hi hj hij
  refine hpairs (assignments[j], j) (mk_mem_zipIdx_iff_getElem?.mpr
    (List.getElem?_eq_getElem hj)) _ ?_
  exact mem_take_iff_getElem.mpr ⟨i, by omega, rfl⟩

theorem reuseEdges_total {assignments : List Assignment}
    (hbounds : ∀ a ∈ assignments, a.offset + a.bytes ≤ usizeMax)
    (h : assignments.Pairwise fun a b => ¬ Conflict a b) :
    ∃ edges, reuseEdges assignments = .ok edges := by
  obtain ⟨all, hall⟩ := foldlM_returns (f := scanNext assignments) (l := assignments.zipIdx) (by
    rintro edges ⟨next, j⟩ hm
    have hj := mk_mem_zipIdx_iff_getElem?.mp hm
    obtain ⟨hjlt, rfl⟩ := List.getElem?_eq_some_iff.mp hj
    refine foldlM_returns (fun edges previous hp => ?_) edges
    obtain ⟨i, hi, rfl⟩ := mem_take_iff_getElem.mp hp
    exact scanPair_total edges (hbounds _ (getElem_mem _)) (hbounds _ (getElem_mem _))
      (pairwise_iff_getElem.mp h i j (by omega) hjlt (by omega))) []
  exact ⟨_, by rw [reuseEdges, hall]; rfl⟩

/-! ## Soundness of a plan -/

/-- Entry `i` is a planned value whose bytes start at `offset` of `segment`. -/
structure PlannedAt (schedule : LoweredProgram K M) (plan : MemoryPlan M) (i : Nat)
    (value : PlannedValue M) (segment offset : Nat) : Prop where
  declared : ∃ v c, schedule.values[i]? = some v ∧
    v.storage = .planned c value.alignment value.memorySpace value.ownership ∧
    v.id = value.id ∧ v.bytes = value.bytes
  located : plan.locations[i]? = some (.segment ⟨segment⟩ offset value.bytes)

/-- The declaration of a segment agrees with its configuration. -/
structure SegmentConfigured (config : MemoryPlannerConfig M) (segment : SegmentDecl M)
    (space : MemorySpaceConfig M) : Prop where
  mem : space ∈ config.memorySpaces
  memorySpace : space.memorySpace = segment.memorySpace
  maximum : segment.bytes ≤ space.maxSegmentBytes
  granularity : space.segmentGranularity ∣ segment.bytes

/-- A slice of a segment fits the segment. -/
structure SliceFits (segment : SegmentDecl M) (value : PlannedValue M) (offset : Nat) : Prop where
  inside : offset + value.bytes ≤ segment.bytes
  aligned : value.alignment ∣ offset
  alignment : value.alignment ∣ segment.alignment
  memorySpace : segment.memorySpace = value.memorySpace
  ownership : segment.ownership = value.ownership

/-- What a plan says about its program, given the program's liveness. -/
structure PlanSound (schedule : LoweredProgram K M) (config : MemoryPlannerConfig M)
    (liveness : Liveness) (plan : MemoryPlan M) : Prop where
  liveness_sound : LivenessSound schedule liveness
  locations_length : plan.locations.length = schedule.values.length
  fixed : ∀ (i : Nat) v c location, schedule.values[i]? = some v → v.storage = .fixed c location →
    plan.locations[i]? = some location
  view : ∀ (i : Nat) v source offset, schedule.values[i]? = some v →
    v.storage = .aliasOf source offset → ∃ a, liveness.aliases[i]? = some a ∧
      plan.locations[i]? = some (.aliasOf a.root a.byteOffset)
  placed : ∀ (i : Nat) v, schedule.values[i]? = some v → v.storage.isPlanned = true →
    ∃ value segment offset, PlannedAt schedule plan i value segment offset
  fits : ∀ i value segment offset, PlannedAt schedule plan i value segment offset →
    ∃ s, plan.segments[segment]? = some s ∧ SliceFits s value offset
  apart : ∀ (i j : Nat) vi vj segment oi oj ivi ivj, i ≠ j →
    PlannedAt schedule plan i vi segment oi → PlannedAt schedule plan j vj segment oj →
    liveness.intervals[i]? = some (some ivi) → liveness.intervals[j]? = some (some ivj) →
    ivi.overlaps ivj = true → oi + vi.bytes ≤ oj ∨ oj + vj.bytes ≤ oi
  configured : ∀ s ∈ plan.segments, ∃ space, SegmentConfigured config s space
  outputs : plan.outputs = schedule.outputs.map fun o => ⟨o, ⟨o.index⟩⟩

variable {schedule : LoweredProgram K M} {liveness : Liveness} {config : MemoryPlannerConfig M}
  {i : Nat} {v : ValueDecl M} {plan : MemoryPlan M} {order : List Nat} {packed : PackState M}

theorem LivenessSound.packInput (h : LivenessSound schedule liveness) (hconfig : ConfigValid config) :
    PackInput schedule.values config liveness where
  dense := h.well_formed.values_dense
  config_valid := hconfig
  aligned := by
    intro i value interval he
    obtain ⟨v, c, hv, hs, _, _, _⟩ := plannedEntry_ok.mp he
    exact (h.planned i v c _ _ _ hv hs).1
  intervals := fun i interval hi => (h.bounds i interval hi).2.1

/-- Each planned entry has its fields and its interval. -/
theorem LivenessSound.plannedEntry (h : LivenessSound schedule liveness) (hv : schedule.values[i]? = some v)
    (hp : v.storage.isPlanned = true) :
    ∃ value interval, plannedEntry schedule.values liveness i = .ok (value, interval) := by
  cases hs : v.storage with
  | fixed c l =>
    rw [hs] at hp
    cases hp
  | aliasOf s o =>
    rw [hs] at hp
    cases hp
  | planned c alignment m o =>
    obtain ⟨_, iv, hi, _⟩ := h.planned i v c alignment m o hv hs
    exact ⟨⟨v.id, v.bytes, alignment, m, o⟩, iv, plannedEntry_ok.mpr ⟨v, c, hv, hs, rfl, rfl, hi⟩⟩

theorem segmentDecl_ok {s : WorkingSegment M} {decl : SegmentDecl M}
    (h : segmentDecl s = .ok decl) :
    roundUp s.usedEnd s.granularity none = .ok decl.bytes ∧ decl.bytes ≤ s.maxBytes ∧
      decl.alignment = s.alignment ∧ decl.memorySpace = s.memorySpace ∧
      decl.ownership = s.ownership := by
  unfold segmentDecl at h
  obtain ⟨bytes, hbytes, h⟩ := bind_ok.mp h
  split at h
  · next hle =>
    cases h
    exact ⟨hbytes, hle, rfl, rfl, rfl⟩
  · cases h

theorem locationOf_ok {table : List (Option Assignment)} {location : Location}
    (h : locationOf liveness table (v, i) = .ok location) :
    (∀ c l, v.storage = .fixed c l → location = l) ∧
    (∀ c alignment m o, v.storage = .planned c alignment m o → ∃ a, table[i]? = some (some a) ∧
      location = .segment ⟨a.segment⟩ a.offset a.bytes) ∧
    (∀ s o, v.storage = .aliasOf s o → ∃ a, liveness.aliases[i]? = some a ∧
      location = .aliasOf a.root a.byteOffset) := by
  unfold locationOf at h
  obtain ⟨_, _, h⟩ := bind_ok.mp h
  cases hs : v.storage with
  | fixed c l =>
    simp only [hs] at h
    cases h
    exact ⟨by rintro _ _ ⟨⟩; rfl, nofun, nofun⟩
  | planned c alignment m o =>
    simp only [hs, bind_ok, expect_ok, okOr_ok, SegmentId.fromIndex_some] at h
    obtain ⟨a, ha, _, ⟨_, rfl⟩, h⟩ := h
    cases h
    exact ⟨nofun, fun _ _ _ _ _ => ⟨a, Option.join_eq_some_iff.mp ha, rfl⟩, nofun⟩
  | aliasOf s o =>
    simp only [hs, bind_ok, expect_ok] at h
    obtain ⟨a, ha, h⟩ := h
    cases h
    exact ⟨nofun, nofun, fun _ _ _ => ⟨a, ha, rfl⟩⟩

/-- The steps of a planner call that returned. -/
structure PlanRun (schedule : LoweredProgram K M) (config : MemoryPlannerConfig M)
    (liveness : Liveness) (plan : MemoryPlan M) (order : List Nat) (packed : PackState M) :
    Prop where
  analysis : analyzeLiveness schedule = .ok liveness
  config_valid : ConfigValid config
  allocation : allocationOrder schedule.values liveness = .ok order
  packing : packValues schedule.values config liveness order = .ok packed
  segments : packed.working.mapM segmentDecl = .ok plan.segments
  edges : reuseEdges packed.assignments = .ok plan.reuseEdges
  locations : schedule.values.zipIdx.mapM (locationOf liveness packed.assignedByValue) =
    .ok plan.locations
  outputs : schedule.outputs.mapM (outputSlot schedule.values) = .ok plan.outputs

theorem validated_ok {plan' : MemoryPlan M} (h : validated plan = .ok plan') :
    plan' = plan ∧ plan.validate = .ok () := by
  unfold validated at h
  split at h
  · next hv =>
    cases h
    exact ⟨rfl, hv⟩
  · cases h
  · cases h

theorem planMemory_run (h : planMemory schedule config = .ok plan) :
    ∃ liveness order packed, PlanRun schedule config liveness plan order packed := by
  unfold planMemory planMemoryWithLiveness at h
  simp only [bind_ok] at h
  obtain ⟨liveness, hl, _, hc, order, ho, packed, hp, segments, hs, edges, he, locations, hloc,
    outputs, hout, report, hr, h⟩ := h
  obtain ⟨rfl, _⟩ := validated_ok h
  exact ⟨liveness, order, packed, hl, validateConfig_ok.mp hc, ho, hp, hs, he, hloc, hout⟩

theorem PlanRun.ordered (run : PlanRun schedule config liveness plan order packed) :
    StartOrder schedule.values liveness order :=
  allocationOrder_ok run.allocation

theorem PlanRun.inv (run : PlanRun schedule config liveness plan order packed) :
    PackInv schedule.values config liveness order packed :=
  packValues_inv ((analyzeLiveness_sound run.analysis).packInput run.config_valid) run.ordered
    (append_nil order).symm run.packing

/-- The assignment of a planned entry, and the entry's place in the plan. -/
theorem PlanRun.assignment (run : PlanRun schedule config liveness plan order packed)
    (hv : schedule.values[i]? = some v) (hp : v.storage.isPlanned = true) :
    ∃ a ∈ packed.assignments, a.value.index = i ∧
      plan.locations[i]? = some (.segment ⟨a.segment⟩ a.offset a.bytes) := by
  have inv := run.inv
  have hi : i ∈ order := run.ordered.perm.mem_iff.mpr (mem_plannedIndices.mpr ⟨v, hv, hp⟩)
  rw [← inv.order] at hi
  obtain ⟨a, ha, rfl⟩ := mem_map.mp hi
  obtain ⟨location, hloc, hok⟩ := (mapM_ok.mp run.locations).2 a.value.index (v, a.value.index)
    (by rw [List.getElem?_zipIdx, hv]; simp)
  refine ⟨a, ha, rfl, ?_⟩
  cases hs : v.storage with
  | fixed c l =>
    rw [hs] at hp
    cases hp
  | aliasOf s o =>
    rw [hs] at hp
    cases hp
  | planned c alignment m o =>
    obtain ⟨b, hb, rfl⟩ := (locationOf_ok hok).2.1 c alignment m o hs
    rw [inv.table a ha] at hb
    cases hb
    exact hloc

theorem PlannedAt.isPlanned {value : PlannedValue M} {segment offset : Nat}
    (h : PlannedAt schedule plan i value segment offset) :
    ∃ v, schedule.values[i]? = some v ∧ v.storage.isPlanned = true := by
  obtain ⟨v, c, hv, hs, _⟩ := h.declared
  exact ⟨v, hv, by rw [hs]; rfl⟩

/-- A place in the plan is the place of the entry's assignment. -/
theorem PlanRun.assignment_at (run : PlanRun schedule config liveness plan order packed)
    {value : PlannedValue M} {segment offset : Nat} (h : PlannedAt schedule plan i value segment offset) :
    ∃ a ∈ packed.assignments, a.value.index = i ∧ a.segment = segment ∧ a.offset = offset ∧
      a.bytes = value.bytes ∧
      plannedEntry schedule.values liveness i = .ok (value, a.interval) := by
  obtain ⟨v, hv, hp⟩ := h.isPlanned
  obtain ⟨a, ha, hidx, hloc⟩ := run.assignment hv hp
  rw [h.located] at hloc
  simp only [Option.some.injEq, Location.segment.injEq, SegmentId.mk.injEq] at hloc
  obtain ⟨hseg, hoff, hbytes⟩ := hloc
  obtain ⟨value', s, he, _⟩ := (run.inv.assigned a ha).slice
  rw [hidx] at he
  obtain ⟨v', c', hv', hs', hid', hb', hi'⟩ := plannedEntry_ok.mp he
  obtain ⟨v2, c2, hv2, hs2, hid2, hb2⟩ := h.declared
  exact ⟨a, ha, hidx, hseg.symm, hoff.symm, hbytes.symm,
    plannedEntry_ok.mpr ⟨v2, c2, hv2, hs2, hid2, hb2, hi'⟩⟩

/-- Two placed values of one segment with a common instruction share no address. -/
theorem PlanRun.apart (run : PlanRun schedule config liveness plan order packed) {a b : Assignment}
    (ha : a ∈ packed.assignments) (hb : b ∈ packed.assignments) (hne : a ≠ b) (hseg : a.segment = b.segment)
    (hover : a.interval.overlaps b.interval = true) :
    a.offset + a.bytes ≤ b.offset ∨ b.offset + b.bytes ≤ a.offset := by
  have hsym : Std.Symm fun a b : Assignment => ¬ Conflict a b := ⟨fun _ _ h hc => h hc.symm⟩
  have hfree := (reuseEdges_ok run.edges).forall ha hb hne
  by_contra hnot
  refine hfree ⟨hseg, decide_eq_true ?_, hover⟩
  omega

/-- A returned plan is sound for its program. -/
theorem planMemory_sound (h : planMemory schedule config = .ok plan) :
    ∃ liveness, analyzeLiveness schedule = .ok liveness ∧
      PlanSound schedule config liveness plan := by
  obtain ⟨liveness, order, packed, run⟩ := planMemory_run h
  have hls := analyzeLiveness_sound run.analysis
  have inv := run.inv
  obtain ⟨hslen, hsegments⟩ := mapM_ok.mp run.segments
  obtain ⟨hloclen, hlocations⟩ := mapM_ok.mp run.locations
  have hentry : ∀ (i : Nat) v, schedule.values[i]? = some v → ∃ location,
      plan.locations[i]? = some location ∧
        locationOf liveness packed.assignedByValue (v, i) = .ok location :=
    fun i v hv => hlocations i (v, i) (by rw [List.getElem?_zipIdx, hv]; simp)
  refine ⟨liveness, run.analysis, hls, ?_, ?_, ?_, ?_, ?_, ?_, ?_, ?_⟩
  · rw [← hloclen, length_zipIdx]
  · intro i v c location hv hs
    obtain ⟨l, hl, hok⟩ := hentry i v hv
    rw [hl, (locationOf_ok hok).1 c location hs]
  · intro i v source offset hv hs
    obtain ⟨l, hl, hok⟩ := hentry i v hv
    obtain ⟨a, ha, rfl⟩ := (locationOf_ok hok).2.2 source offset hs
    exact ⟨a, ha, hl⟩
  · intro i v hv hp
    obtain ⟨a, ha, hidx, hloc⟩ := run.assignment hv hp
    obtain ⟨value, _, he, hb, _⟩ := (inv.assigned a ha).slice
    rw [hidx] at he
    obtain ⟨v', c, hv', hs, hid, hbytes, _⟩ := plannedEntry_ok.mp he
    exact ⟨value, a.segment, a.offset, ⟨v', c, hv', hs, hid, hbytes⟩, by rw [hb]; exact hloc⟩
  · intro i value segment offset hat
    obtain ⟨a, ha, hidx, rfl, rfl, hb, he⟩ := run.assignment_at hat
    obtain ⟨value', s, he', _, hs, hserves, hoff, hal, hend⟩ := (inv.assigned a ha).slice
    rw [hidx, he] at he'
    cases he'
    obtain ⟨decl, hdecl, hok⟩ := hsegments a.segment s hs
    obtain ⟨hround, _, halign, hspace, hown⟩ := segmentDecl_ok hok
    have hsok := inv.segments s (mem_of_getElem? hs)
    have hge := (roundUp_ok (hsok.granularity_pos run.config_valid) hround).1
    refine ⟨decl, hdecl, ⟨by omega, hoff, by rw [halign]; exact hal, ?_, ?_⟩⟩
    · rw [hspace]
      exact hserves.1
    · rw [hown]
      exact hserves.2
  · intro i j vi vj segment oi oj ivi ivj hij hi hj hivi hivj hover
    obtain ⟨a, ha, hai, hsa, rfl, hba, hea⟩ := run.assignment_at hi
    obtain ⟨b, hb, hbi, hsb, rfl, hbb, heb⟩ := run.assignment_at hj
    obtain ⟨_, _, _, _, _, _, hia⟩ := plannedEntry_ok.mp hea
    obtain ⟨_, _, _, _, _, _, hib⟩ := plannedEntry_ok.mp heb
    rw [hivi] at hia
    rw [hivj] at hib
    cases hia
    cases hib
    rw [← hba, ← hbb]
    refine run.apart ha hb ?_ (hsa.trans hsb.symm) hover
    rintro rfl
    exact hij (hai.symm.trans hbi)
  · intro decl hdecl
    obtain ⟨k, hk⟩ := mem_iff_getElem?.mp hdecl
    have hklt : k < packed.working.length := hslen ▸ (List.getElem?_eq_some_iff.mp hk).1
    obtain ⟨decl', hdecl', hok⟩ := hsegments k _ (List.getElem?_eq_getElem hklt)
    rw [hk] at hdecl'
    cases hdecl'
    obtain ⟨hround, hmax, _, hspace, _⟩ := segmentDecl_ok hok
    have hsok := inv.segments _ (getElem_mem hklt)
    obtain ⟨space, hm, hms, hmb, hg⟩ := hsok.space
    exact ⟨space, hm, hms.trans hspace.symm, hmb ▸ hmax,
      hg ▸ (roundUp_ok (hsok.granularity_pos run.config_valid) hround).2.2⟩
  · obtain ⟨hlen, hget⟩ := mapM_ok.mp run.outputs
    refine ext_getElem? fun k => ?_
    rw [List.getElem?_map]
    cases hk : schedule.outputs[k]? with
    | none =>
      rw [List.getElem?_eq_none_iff] at hk
      exact List.getElem?_eq_none (hlen ▸ hk)
    | some o =>
      obtain ⟨slot, hslot, hok⟩ := hget k o hk
      unfold outputSlot at hok
      simp only [bind_ok, okOr_ok, LocationId.fromIndex_some] at hok
      obtain ⟨_, _, _, ⟨_, rfl⟩, hok⟩ := hok
      cases hok
      exact hslot

/-- The invariants of placement: every planned value is placed, live values of
one segment share no byte, slices are aligned and inside their segment, and a
segment matches its members and its configuration. -/
structure PlacementInvariants (schedule : LoweredProgram K M) (config : MemoryPlannerConfig M)
    (liveness : Liveness) (plan : MemoryPlan M) : Prop where
  placed : ∀ (i : Nat) v, schedule.values[i]? = some v → v.storage.isPlanned = true →
    ∃ value segment offset, PlannedAt schedule plan i value segment offset
  disjoint : ∀ (i j : Nat) vi vj segment oi oj ivi ivj, i ≠ j →
    PlannedAt schedule plan i vi segment oi → PlannedAt schedule plan j vj segment oj →
    liveness.intervals[i]? = some (some ivi) → liveness.intervals[j]? = some (some ivj) →
    ivi.overlaps ivj = true → oi + vi.bytes ≤ oj ∨ oj + vj.bytes ≤ oi
  fits : ∀ i value segment offset, PlannedAt schedule plan i value segment offset →
    ∃ s, plan.segments[segment]? = some s ∧ SliceFits s value offset
  configured : ∀ s ∈ plan.segments, ∃ space, SegmentConfigured config s space

/-- Every returned plan satisfies the invariants of placement. -/
theorem plan_placement_invariants {schedule : LoweredProgram K M} {config : MemoryPlannerConfig M}
    {plan : MemoryPlan M} (h : planMemory schedule config = .ok plan) :
    ∃ liveness, analyzeLiveness schedule = .ok liveness ∧
      PlacementInvariants schedule config liveness plan := by
  obtain ⟨liveness, hl, sound⟩ := planMemory_sound h
  exact ⟨liveness, hl, sound.placed, sound.apart, sound.fits, sound.configured⟩

end Plan

/-! ## A program that reuses storage -/

/-- An input, a planned value with a view of it, and two more planned values; the
last one is defined after the first is dead. -/
def reuseProgram : LoweredProgram String Unit where
  values := [⟨⟨0⟩, "input", 1, .fixed .externalInput (.external 0)⟩,
    .planned ⟨1⟩ "a" 1 1 () .workspace, .aliasOf ⟨2⟩ "view" ⟨1⟩ 0 1,
    .planned ⟨3⟩ "b" 1 1 () .workspace, .planned ⟨4⟩ "c" 1 1 () .workspace]
  instructions := [
    { id := ⟨0⟩, kind := "increment", inputs := [.read ⟨0⟩], outputs := [⟨⟨1⟩⟩] },
    { id := ⟨1⟩, kind := "double", inputs := [.read ⟨2⟩], outputs := [⟨⟨3⟩⟩] },
    { id := ⟨2⟩, kind := "increment", inputs := [.read ⟨3⟩], outputs := [⟨⟨4⟩⟩] }]
  outputs := [⟨4⟩]

def reuseConfig : MemoryPlannerConfig Unit := .uniform () 1024 1 1

/-- The planner puts the last value over the first. -/
theorem reuseProgram_plan : ∃ plan, planMemory reuseProgram reuseConfig = .ok plan ∧
    plan.locations[1]? = some (.segment ⟨0⟩ 0 1) ∧ plan.locations[4]? = some (.segment ⟨0⟩ 0 1) := by
  have h : (planMemory reuseProgram reuseConfig).toOption.any (fun plan =>
      plan.locations[1]? = some (.segment ⟨0⟩ 0 1) ∧
        plan.locations[4]? = some (.segment ⟨0⟩ 0 1)) = true := by
    decide +kernel
  cases hp : planMemory reuseProgram reuseConfig with
  | error e =>
    rw [hp] at h
    cases h
  | ok plan =>
    rw [hp] at h
    exact ⟨plan, rfl, of_decide_eq_true h⟩

theorem reuseProgram_invariants : ∃ plan liveness, planMemory reuseProgram reuseConfig = .ok plan ∧
    PlacementInvariants reuseProgram reuseConfig liveness plan := by
  obtain ⟨plan, hplan, _⟩ := reuseProgram_plan
  obtain ⟨liveness, _, h⟩ := plan_placement_invariants hplan
  exact ⟨plan, liveness, hplan, h⟩

end EffectTorch
