import EffectTorch.Compiler.Segment
import Mathlib

/-!
# Placement

The packing loop of `plan_memory_with_liveness` in `compiler/src/planner.rs`:
planned values in `(interval start, id)` order, each into the free range with
the least waste, else onto the tail with the least growth, else into a new
segment.

Results:
1. `place_ok`: the three ways in which a value gets its slice.
2. `PackInv` and `packValue_inv`: what one turn of the loop keeps.
3. `packValue_conflict`: a turn creates a packing conflict exactly when its
   slice covers a live empty allocation from both sides.
-/

set_option linter.unusedSectionVars false

namespace EffectTorch
open List Lib

/-! ## Configuration -/

/-- Maximum segment size, segment alignment and size granularity of one memory
space. -/
structure MemorySpaceConfig (M : Type) where
  memorySpace : M
  maxSegmentBytes : Nat
  segmentAlignment : Nat
  segmentGranularity : Nat
deriving DecidableEq, Repr

/-- One entry per memory space, and the number of largest allocations that the
report keeps. -/
structure MemoryPlannerConfig (M : Type) where
  memorySpaces : List (MemorySpaceConfig M)
  largestAllocations : Nat := 10
deriving DecidableEq, Repr

/-- A single-space configuration. -/
def MemoryPlannerConfig.uniform {M : Type} (memorySpace : M)
    (maxSegmentBytes segmentAlignment segmentGranularity : Nat) : MemoryPlannerConfig M :=
  { memorySpaces := [⟨memorySpace, maxSegmentBytes, segmentAlignment, segmentGranularity⟩] }

section Placement

variable {M : Type} [DecidableEq M]

/-- The checks of one memory space, with those before it. -/
def validateSpace (spaces : List (MemorySpaceConfig M)) (entry : MemorySpaceConfig M × Nat) :
    Fallible PlannerError Unit := do
  let (space, index) := entry
  rejectIf (space.maxSegmentBytes = 0 ∨ space.segmentAlignment = 0 ∨
      ¬ isPowerOfTwo space.segmentAlignment ∨ space.segmentGranularity = 0)
    (.invalidMemorySpaceConfig index)
  (spaces.take index).zipIdx.foldlM (fun _ previous =>
    rejectIf (previous.1.memorySpace = space.memorySpace)
      (.duplicateMemorySpaceConfig previous.2 index)) ()

def validateConfig (config : MemoryPlannerConfig M) : Fallible PlannerError Unit :=
  config.memorySpaces.zipIdx.foldlM (fun _ entry => validateSpace config.memorySpaces entry) ()

/-! ## Allocation order -/

/-- The sort key `(interval.start, id)` of a value, with the value's index. -/
structure OrderKey where
  start : Nat
  id : Nat
  index : Nat
deriving DecidableEq, Repr

def OrderKey.le (a b : OrderKey) : Prop :=
  a.start < b.start ∨ a.start = b.start ∧ a.id ≤ b.id

instance : DecidableRel OrderKey.le := fun a b => by
  unfold OrderKey.le
  infer_instance

/-- The key of one planned value. -/
def orderKey (liveness : Liveness) (entry : ValueDecl M × Nat) :
    Fallible PlannerError OrderKey := do
  let interval ← expect liveness.intervals[entry.2]?.join "planned value interval"
  .ok ⟨interval.start.index, entry.1.id.index, entry.2⟩

/-- `allocation_order`. -/
def allocationOrder (values : List (ValueDecl M)) (liveness : Liveness) :
    Fallible PlannerError (List Nat) := do
  let keys ← (values.zipIdx.filter fun entry => entry.1.storage.isPlanned).mapM
    (orderKey liveness)
  .ok ((keys.insertionSort OrderKey.le).map OrderKey.index)

/-! ## Choosing a slice -/

/-- Where a value was placed. -/
structure Assignment where
  value : ValueId
  segment : Nat
  offset : Nat
  bytes : Nat
  interval : LiveInterval
deriving DecidableEq, Repr

/-- What the loop reads of a planned value: the fields of its declaration and of
`ValueStorage::Planned`. -/
structure PlannedValue (M : Type) where
  id : ValueId
  bytes : Nat
  alignment : Nat
  memorySpace : M
  ownership : SegmentOwnership
deriving DecidableEq, Repr

/-- A segment serves one memory space and one ownership. -/
def WorkingSegment.serves (s : WorkingSegment M) (value : PlannedValue M) : Prop :=
  s.memorySpace = value.memorySpace ∧ s.ownership = value.ownership

instance (s : WorkingSegment M) (value : PlannedValue M) : Decidable (s.serves value) := by
  unfold WorkingSegment.serves
  infer_instance

/-- `(waste, segment_index, offset, range_index)`. -/
structure FreeCandidate where
  waste : Nat
  segment : Nat
  offset : Nat
  range : Nat
deriving DecidableEq, Repr

/-- Tuple order. -/
def FreeCandidate.lt (a b : FreeCandidate) : Prop :=
  a.waste < b.waste ∨ a.waste = b.waste ∧ (a.segment < b.segment ∨ a.segment = b.segment ∧
    (a.offset < b.offset ∨ a.offset = b.offset ∧ a.range < b.range))

instance (a b : FreeCandidate) : Decidable (a.lt b) := by
  unfold FreeCandidate.lt
  infer_instance

/-- `(growth, segment_index, offset)`. -/
structure TailCandidate where
  growth : Nat
  segment : Nat
  offset : Nat
deriving DecidableEq, Repr

/-- Tuple order. -/
def TailCandidate.lt (a b : TailCandidate) : Prop :=
  a.growth < b.growth ∨ a.growth = b.growth ∧ (a.segment < b.segment ∨
    a.segment = b.segment ∧ a.offset < b.offset)

instance (a b : TailCandidate) : Decidable (a.lt b) := by
  unfold TailCandidate.lt
  infer_instance

/-- `offset.checked_add(value.bytes)`. -/
def sliceStop (value : PlannedValue M) (offset : Nat) : Fallible PlannerError Nat :=
  okOr (checkedAdd offset value.bytes) (.byteSizeOverflow (some value.id))

/-- One free range of one segment. -/
def scanFreeRange (value : PlannedValue M) (segment : Nat) (best : Option FreeCandidate)
    (entry : Range × Nat) : Fallible PlannerError (Option FreeCandidate) := do
  let (range, rangeIndex) := entry
  let offset ← alignUp range.start value.alignment value.id
  let stop ← sliceStop value offset
  if stop ≤ range.stop then
    let candidate := ⟨(range.stop - range.start) - value.bytes, segment, offset, rangeIndex⟩
    if best.all fun current => candidate.lt current then .ok (some candidate) else .ok best
  else .ok best

/-- The free ranges of one segment. -/
def scanFreeSegment (value : PlannedValue M) (best : Option FreeCandidate)
    (entry : WorkingSegment M × Nat) : Fallible PlannerError (Option FreeCandidate) :=
  if entry.1.serves value then entry.1.free.zipIdx.foldlM (scanFreeRange value entry.2) best
  else .ok best

/-- `free_candidate`. -/
def findFree (working : List (WorkingSegment M)) (value : PlannedValue M) :
    Fallible PlannerError (Option FreeCandidate) :=
  working.zipIdx.foldlM (scanFreeSegment value) none

/-- The tail of one segment. -/
def scanTail (value : PlannedValue M) (best : Option TailCandidate)
    (entry : WorkingSegment M × Nat) : Fallible PlannerError (Option TailCandidate) :=
  let (segment, segmentIndex) := entry
  if segment.serves value then do
    let offset ← alignUp segment.usedEnd value.alignment value.id
    let stop ← sliceStop value offset
    let capacity ← roundUp stop segment.granularity (some value.id)
    if capacity ≤ segment.maxBytes then
      let used ← roundUp segment.usedEnd segment.granularity (some value.id)
      let candidate := ⟨capacity - used, segmentIndex, offset⟩
      if best.all fun current => candidate.lt current then .ok (some candidate) else .ok best
    else .ok best
  else .ok best

/-- `tail_candidate`. -/
def findTail (working : List (WorkingSegment M)) (value : PlannedValue M) :
    Fallible PlannerError (Option TailCandidate) :=
  working.zipIdx.foldlM (scanTail value) none

/-- The segment that a value opens. -/
def openSegment (value : PlannedValue M) (space : MemorySpaceConfig M) : WorkingSegment M where
  memorySpace := value.memorySpace
  ownership := value.ownership
  maxBytes := space.maxSegmentBytes
  granularity := space.segmentGranularity
  alignment := max space.segmentAlignment value.alignment
  usedEnd := value.bytes
  free := []
  active := []

/-- Takes a slice for a value: the segments afterwards, and the segment and
offset of the slice. -/
def place (working : List (WorkingSegment M)) (value : PlannedValue M)
    (space : MemorySpaceConfig M) :
    Fallible PlannerError (List (WorkingSegment M) × Nat × Nat) := do
  match ← findFree working value with
  | some c =>
    .ok (working.modify c.segment (·.consumeFreeRange c.range c.offset value.bytes),
      c.segment, c.offset)
  | none =>
    match ← findTail working value with
    | some c =>
      let stop ← sliceStop value c.offset
      .ok (working.modify c.segment (·.growTail c.offset stop), c.segment, c.offset)
    | none =>
      let _ ← okOr (SegmentId.fromIndex working.length) .tooManySegments
      .ok (working ++ [openSegment value space], working.length, 0)

/-! ## The loop -/

/-- `working`, `assignments` and `assigned_by_value`. -/
structure PackState (M : Type) where
  working : List (WorkingSegment M)
  assignments : List Assignment
  assignedByValue : List (Option Assignment)
deriving DecidableEq, Repr

/-- The fields of a planned value, and the interval of its entry. -/
def plannedEntry (values : List (ValueDecl M)) (liveness : Liveness) (valueIndex : Nat) :
    Fallible PlannerError (PlannedValue M × LiveInterval) := do
  let value ← expect values[valueIndex]? "index out of bounds"
  match value.storage with
  | .planned _ alignment memorySpace ownership =>
    let interval ← expect liveness.intervals[valueIndex]?.join "planned value interval"
    .ok (⟨value.id, value.bytes, alignment, memorySpace, ownership⟩, interval)
  | _ => .error (.panic "internal error: entered unreachable code")

/-- The memory space of a value, which must be able to hold it. -/
def spaceFor (config : MemoryPlannerConfig M) (value : PlannedValue M) :
    Fallible PlannerError (MemorySpaceConfig M) := do
  let space ← okOr (config.memorySpaces.find? fun space => space.memorySpace = value.memorySpace)
    (.missingMemorySpaceConfig value.id)
  let rounded ← roundUp value.bytes space.segmentGranularity (some value.id)
  rejectIf (space.maxSegmentBytes < value.bytes ∨ space.maxSegmentBytes < rounded)
    (.valueTooLarge value.id value.bytes rounded space.maxSegmentBytes)
  .ok space

/-- One turn of the packing loop. -/
def packValue (values : List (ValueDecl M)) (config : MemoryPlannerConfig M)
    (liveness : Liveness) (state : PackState M) (valueIndex : Nat) :
    Fallible PlannerError (PackState M) := do
  let (value, interval) ← plannedEntry values liveness valueIndex
  let space ← spaceFor config value
  let retired := state.working.map (·.retire interval.start.index)
  let (working, segment, offset) ← place retired value space
  let assignment := ⟨value.id, segment, offset, value.bytes, interval⟩
  .ok {
    working := working.modify segment
      (·.addActive value.alignment ⟨interval.stop.index, offset, value.bytes⟩)
    assignments := state.assignments ++ [assignment]
    assignedByValue := state.assignedByValue.set valueIndex (some assignment) }

/-- The packing loop. -/
def packValues (values : List (ValueDecl M)) (config : MemoryPlannerConfig M)
    (liveness : Liveness) (order : List Nat) : Fallible PlannerError (PackState M) :=
  order.foldlM (packValue values config liveness) ⟨[], [], List.replicate values.length none⟩

/-! ## What the checks accept -/

/-- Every space has usable limits, and no space is configured twice. -/
structure ConfigValid (config : MemoryPlannerConfig M) : Prop where
  limits : ∀ space ∈ config.memorySpaces, 0 < space.maxSegmentBytes ∧
    isPowerOfTwo space.segmentAlignment = true ∧ 0 < space.segmentGranularity
  distinct : config.memorySpaces.Pairwise fun a b => a.memorySpace ≠ b.memorySpace

theorem isPowerOfTwo_pos {n : Nat} (h : isPowerOfTwo n = true) : 0 < n := by
  obtain ⟨k, rfl⟩ := isPowerOfTwo_iff.mp h
  exact Nat.two_pow_pos k

variable {space : MemorySpaceConfig M} {config : MemoryPlannerConfig M}
  {values : List (ValueDecl M)} {liveness : Liveness} {value : PlannedValue M}
  {i offset segment : Nat} {working working' : List (WorkingSegment M)} {s s' : WorkingSegment M}
  {interval : LiveInterval} {st : PackState M} {order done : List Nat} {a : Assignment}

theorem validateSpace_ok {spaces : List (MemorySpaceConfig M)} {index : Nat} :
    validateSpace spaces (space, index) = .ok () ↔
      (0 < space.maxSegmentBytes ∧ isPowerOfTwo space.segmentAlignment = true ∧
        0 < space.segmentGranularity) ∧
      ∀ (i : Nat) previous, i < index → spaces[i]? = some previous →
        previous.memorySpace ≠ space.memorySpace := by
  unfold validateSpace
  simp only [bind_ok, rejectIf_ok, foldlM_check, not_or, not_not]
  constructor
  · rintro ⟨_, ⟨h1, _, h3, h4⟩, hprev⟩
    refine ⟨⟨Nat.pos_of_ne_zero h1, h3, Nat.pos_of_ne_zero h4⟩, fun i previous hi hp => ?_⟩
    exact hprev (previous, i) (mk_mem_zipIdx_iff_getElem?.mpr
      (by rw [List.getElem?_take_of_lt hi, hp]))
  · rintro ⟨⟨h1, h2, h3⟩, hprev⟩
    refine ⟨(), ⟨Nat.ne_of_gt h1, Nat.ne_of_gt (isPowerOfTwo_pos h2), h2, Nat.ne_of_gt h3⟩, ?_⟩
    rintro ⟨previous, i⟩ hm
    have hp := mk_mem_zipIdx_iff_getElem?.mp hm
    rw [List.getElem?_take] at hp
    split at hp
    · next hi => exact hprev i previous hi hp
    · cases hp

/-- The configuration loop accepts exactly the valid configurations. -/
theorem validateConfig_ok {u : Unit} : validateConfig config = .ok u ↔ ConfigValid config := by
  unfold validateConfig
  rw [foldlM_check]
  constructor
  · intro h
    have hentry : ∀ (i : Nat) space, config.memorySpaces[i]? = some space → _ := fun i space hi =>
      validateSpace_ok.mp (h (space, i) (mk_mem_zipIdx_iff_getElem?.mpr hi))
    constructor
    · intro space hm
      obtain ⟨i, hi⟩ := mem_iff_getElem?.mp hm
      exact (hentry i space hi).1
    · rw [pairwise_iff_getElem]
      intro i j hi hj hij
      exact (hentry j _ (List.getElem?_eq_getElem hj)).2 i _ hij (List.getElem?_eq_getElem hi)
  · rintro h ⟨space, j⟩ hm
    have hj := mk_mem_zipIdx_iff_getElem?.mp hm
    refine validateSpace_ok.mpr ⟨h.limits space (mem_of_getElem? hj), fun i previous hij hi => ?_⟩
    obtain ⟨hilt, rfl⟩ := List.getElem?_eq_some_iff.mp hi
    obtain ⟨hjlt, rfl⟩ := List.getElem?_eq_some_iff.mp hj
    exact pairwise_iff_getElem.mp h.distinct i j hilt hjlt hij

/-! ## The order of allocation -/

/-- The entries that the planner places. -/
def plannedIndices (values : List (ValueDecl M)) : List Nat :=
  (values.zipIdx.filter fun entry => entry.1.storage.isPlanned).map Prod.snd

/-- The interval start of an entry. -/
def startAt (liveness : Liveness) (i : Nat) : Nat :=
  (liveness.intervals[i]?.join.map fun interval => interval.start.index).getD 0

theorem mem_plannedIndices :
    i ∈ plannedIndices values ↔ ∃ v, values[i]? = some v ∧ v.storage.isPlanned = true := by
  unfold plannedIndices
  simp only [mem_map, mem_filter, Prod.exists, exists_eq_right]
  constructor
  · rintro ⟨v, hm, hp⟩
    exact ⟨v, mk_mem_zipIdx_iff_getElem?.mp hm, hp⟩
  · rintro ⟨v, hv, hp⟩
    exact ⟨v, mk_mem_zipIdx_iff_getElem?.mpr hv, hp⟩

theorem plannedIndices_nodup (values : List (ValueDecl M)) : (plannedIndices values).Nodup := by
  refine List.Nodup.sublist (filter_sublist.map Prod.snd) ?_
  rw [zipIdx_map_snd]
  exact nodup_range'

theorem OrderKey.le_total (a b : OrderKey) : a.le b ∨ b.le a := by
  unfold OrderKey.le
  omega

theorem OrderKey.le_trans {a b c : OrderKey} (h1 : a.le b) (h2 : b.le c) : a.le c := by
  unfold OrderKey.le at *
  omega

theorem OrderKey.le_start {a b : OrderKey} (h : a.le b) : a.start ≤ b.start := by
  unfold OrderKey.le at h
  omega

/-- A permutation of the planned entries in the order of their starts. -/
structure StartOrder (values : List (ValueDecl M)) (liveness : Liveness) (order : List Nat) :
    Prop where
  perm : order.Perm (plannedIndices values)
  sorted : order.Pairwise fun i j => startAt liveness i ≤ startAt liveness j

theorem allocationOrder_ok (h : allocationOrder values liveness = .ok order) : StartOrder values liveness order := by
  unfold allocationOrder at h
  obtain ⟨keys, hkeys, h⟩ := bind_ok.mp h
  cases h
  obtain ⟨hlen, hget⟩ := mapM_ok.mp hkeys
  have hindex : keys.map OrderKey.index = plannedIndices values := by
    refine ext_getElem? fun k => ?_
    unfold plannedIndices
    rw [List.getElem?_map, List.getElem?_map]
    cases hk : (values.zipIdx.filter fun entry => entry.1.storage.isPlanned)[k]? with
    | none =>
      rw [List.getElem?_eq_none_iff] at hk
      rw [List.getElem?_eq_none_iff.mpr (hlen ▸ hk)]
      rfl
    | some entry =>
      obtain ⟨key, hkey, hok⟩ := hget k entry hk
      unfold orderKey at hok
      obtain ⟨interval, _, hok⟩ := bind_ok.mp hok
      cases hok
      rw [hkey]
      rfl
  have hstart : ∀ key ∈ keys, key.start = startAt liveness key.index := by
    intro key hm
    obtain ⟨k, hk⟩ := mem_iff_getElem?.mp hm
    have hklt := (List.getElem?_eq_some_iff.mp hk).1
    obtain ⟨key', hkey', hok⟩ := hget k _ (List.getElem?_eq_getElem (hlen ▸ hklt))
    rw [hk] at hkey'
    cases hkey'
    unfold orderKey at hok
    obtain ⟨interval, hi, hok⟩ := bind_ok.mp hok
    cases hok
    rw [startAt, expect_ok.mp hi]
    rfl
  constructor
  · rw [← hindex]
    exact (perm_insertionSort OrderKey.le keys).map _
  · have : Std.Total OrderKey.le := ⟨OrderKey.le_total⟩
    have : IsTrans OrderKey OrderKey.le := ⟨fun _ _ _ => OrderKey.le_trans⟩
    rw [pairwise_map]
    refine (pairwise_insertionSort OrderKey.le keys).imp_of_mem fun ha hb hab => ?_
    rw [← hstart _ ((mem_insertionSort _).mp ha), ← hstart _ ((mem_insertionSort _).mp hb)]
    exact OrderKey.le_start hab

theorem allocationOrder_total
    (h : ∀ (i : Nat) v, values[i]? = some v → v.storage.isPlanned = true → ∃ interval, liveness.intervals[i]? = some (some interval)) :
    ∃ order, allocationOrder values liveness = .ok order := by
  obtain ⟨keys, hkeys⟩ := mapM_total (f := orderKey liveness)
    (l := values.zipIdx.filter fun entry => entry.1.storage.isPlanned) (by
      rintro ⟨v, i⟩ hm
      obtain ⟨hm, hp⟩ := mem_filter.mp hm
      obtain ⟨interval, hi⟩ := h i v (mk_mem_zipIdx_iff_getElem?.mp hm) hp
      exact ⟨⟨interval.start.index, v.id.index, i⟩, by simp [orderKey, hi]⟩)
  exact ⟨_, by rw [allocationOrder, hkeys]; rfl⟩

/-! ## The slice that is chosen -/

/-- A free candidate fits into its free range. -/
def FreeFits (working : List (WorkingSegment M)) (value : PlannedValue M) (c : FreeCandidate) :
    Prop :=
  ∃ s range, working[c.segment]? = some s ∧ s.serves value ∧ s.free[c.range]? = some range ∧
    alignUp range.start value.alignment value.id = .ok c.offset ∧
    c.offset + value.bytes ≤ range.stop

/-- A tail candidate fits into its segment's maximum. -/
def TailFits (working : List (WorkingSegment M)) (value : PlannedValue M) (c : TailCandidate) :
    Prop :=
  ∃ s capacity, working[c.segment]? = some s ∧ s.serves value ∧
    alignUp s.usedEnd value.alignment value.id = .ok c.offset ∧
    roundUp (c.offset + value.bytes) s.granularity (some value.id) = .ok capacity ∧
    capacity ≤ s.maxBytes

theorem sliceStop_ok {stop : Nat} :
    sliceStop value offset = .ok stop ↔
      offset + value.bytes ≤ usizeMax ∧ stop = offset + value.bytes := by
  rw [sliceStop, okOr_ok, checkedAdd_some]

theorem scanFreeRange_ok {rangeIndex : Nat} {range : Range} {best best' : Option FreeCandidate}
    (h : scanFreeRange value segment best (range, rangeIndex) = .ok best') :
    best' = best ∨ ∃ offset waste, best' = some ⟨waste, segment, offset, rangeIndex⟩ ∧
      alignUp range.start value.alignment value.id = .ok offset ∧
      offset + value.bytes ≤ range.stop := by
  unfold scanFreeRange at h
  obtain ⟨offset, hoff, h⟩ := bind_ok.mp h
  obtain ⟨stop, hstop, h⟩ := bind_ok.mp h
  obtain ⟨_, rfl⟩ := sliceStop_ok.mp hstop
  split at h
  · next hle =>
    dsimp only at h
    split at h
    · cases h
      exact .inr ⟨offset, _, rfl, hoff, hle⟩
    · cases h
      exact .inl rfl
  · cases h
    exact .inl rfl

theorem findFree_ok {c : FreeCandidate} (h : findFree working value = .ok (some c)) : FreeFits working value c := by
  refine foldlM_invariant (fun _ (best : Option FreeCandidate) =>
    ∀ c, best = some c → FreeFits working value c) _ ?_ (by simp) h c rfl
  rintro done ⟨s, j⟩ rest best best' hl hbest h
  have hs : working[j]? = some s := by
    refine mk_mem_zipIdx_iff_getElem?.mp ?_
    rw [hl]
    simp
  unfold scanFreeSegment at h
  split at h
  · next hserves =>
    refine foldlM_invariant (fun _ (best : Option FreeCandidate) =>
      ∀ c, best = some c → FreeFits working value c) _ ?_ hbest h
    rintro done ⟨range, k⟩ rest best best' hl hbest h c rfl
    have hr : s.free[k]? = some range := by
      refine mk_mem_zipIdx_iff_getElem?.mp ?_
      rw [hl]
      simp
    rcases scanFreeRange_ok h with rfl | ⟨offset, waste, hc, hoff, hle⟩
    · exact hbest c rfl
    · cases hc
      exact ⟨s, range, hs, hserves, hr, hoff, hle⟩
  · cases h
    exact hbest

theorem findTail_ok {c : TailCandidate} (h : findTail working value = .ok (some c)) : TailFits working value c := by
  refine foldlM_invariant (fun _ (best : Option TailCandidate) =>
    ∀ c, best = some c → TailFits working value c) _ ?_ (by simp) h c rfl
  rintro done ⟨s, j⟩ rest best best' hl hbest h c rfl
  have hs : working[j]? = some s := by
    refine mk_mem_zipIdx_iff_getElem?.mp ?_
    rw [hl]
    simp
  unfold scanTail at h
  dsimp only at h
  split at h
  · next hserves =>
    obtain ⟨offset, hoff, h⟩ := bind_ok.mp h
    obtain ⟨stop, hstop, h⟩ := bind_ok.mp h
    obtain ⟨_, rfl⟩ := sliceStop_ok.mp hstop
    obtain ⟨capacity, hcap, h⟩ := bind_ok.mp h
    split at h
    · next hle =>
      obtain ⟨used, _, h⟩ := bind_ok.mp h
      split at h
      · cases h
        exact ⟨s, capacity, hs, hserves, hoff, hcap, hle⟩
      · cases h
        exact hbest c rfl
    · cases h
      exact hbest c rfl
  · cases h
    exact hbest c rfl

/-- The three ways in which a value gets its slice. -/
inductive Placed (working : List (WorkingSegment M)) (value : PlannedValue M)
    (space : MemorySpaceConfig M) : List (WorkingSegment M) → Nat → Nat → Prop
  | free (c : FreeCandidate) : FreeFits working value c →
      Placed working value space
        (working.modify c.segment (·.consumeFreeRange c.range c.offset value.bytes))
        c.segment c.offset
  | tail (c : TailCandidate) : TailFits working value c →
      Placed working value space
        (working.modify c.segment (·.growTail c.offset (c.offset + value.bytes)))
        c.segment c.offset
  | opened : working.length ≤ u32Max →
      Placed working value space (working ++ [openSegment value space]) working.length 0

theorem place_ok (h : place working value space = .ok (working', segment, offset)) :
    Placed working value space working' segment offset := by
  unfold place at h
  obtain ⟨free, hfree, h⟩ := bind_ok.mp h
  cases free with
  | some c =>
    cases h
    exact .free c (findFree_ok hfree)
  | none =>
    obtain ⟨tail, htail, h⟩ := bind_ok.mp h
    cases tail with
    | some c =>
      obtain ⟨stop, hstop, h⟩ := bind_ok.mp h
      obtain ⟨_, rfl⟩ := sliceStop_ok.mp hstop
      cases h
      exact .tail c (findTail_ok htail)
    | none =>
      obtain ⟨id, hid, h⟩ := bind_ok.mp h
      cases h
      exact .opened (SegmentId.fromIndex_some.mp (okOr_ok.mp hid)).1

/-! ## Segments of the loop -/

/-- A power of two divides any larger one. -/
theorem isPowerOfTwo_max {a b : Nat} (ha : isPowerOfTwo a = true) (hb : isPowerOfTwo b = true) :
    isPowerOfTwo (max a b) = true ∧ a ∣ max a b ∧ b ∣ max a b := by
  obtain ⟨k, rfl⟩ := isPowerOfTwo_iff.mp ha
  obtain ⟨l, rfl⟩ := isPowerOfTwo_iff.mp hb
  rcases Nat.le_total k l with h | h
  · rw [Nat.max_eq_right (Nat.pow_le_pow_right (by decide) h)]
    exact ⟨hb, Nat.pow_dvd_pow 2 h, dvd_refl _⟩
  · rw [Nat.max_eq_left (Nat.pow_le_pow_right (by decide) h)]
    exact ⟨ha, dvd_refl _, Nat.pow_dvd_pow 2 h⟩

/-- What holds of each segment between two turns of the loop. -/
structure SegOk (config : MemoryPlannerConfig M) (s : WorkingSegment M) : Prop where
  inv : s.Inv
  space : ∃ space ∈ config.memorySpaces, space.memorySpace = s.memorySpace ∧
    s.maxBytes = space.maxSegmentBytes ∧ s.granularity = space.segmentGranularity
  aligned : isPowerOfTwo s.alignment = true
  capacity : ∃ bytes, roundUp s.usedEnd s.granularity none = .ok bytes ∧ bytes ≤ s.maxBytes

/-- How a segment may change: it keeps its kind, and its tail and its alignment
only grow. -/
structure Extends (s s' : WorkingSegment M) : Prop where
  memorySpace : s'.memorySpace = s.memorySpace
  ownership : s'.ownership = s.ownership
  usedEnd : s.usedEnd ≤ s'.usedEnd
  alignment : s.alignment ∣ s'.alignment

theorem Extends.trans {s'' : WorkingSegment M} (h : Extends s s') (h' : Extends s' s'') : Extends s s'' :=
  ⟨h'.memorySpace.trans h.memorySpace, h'.ownership.trans h.ownership,
    Nat.le_trans h.usedEnd h'.usedEnd, dvd_trans h.alignment h'.alignment⟩

theorem Extends.serves (h : Extends s s') (hs : s.serves value) : s'.serves value :=
  ⟨h.memorySpace.trans hs.1, h.ownership.trans hs.2⟩

theorem SegOk.retire (h : SegOk config s) (before : Nat) : SegOk config (s.retire before) :=
  ⟨WorkingSegment.retire_inv h.inv before, h.space, h.aligned, h.capacity⟩

theorem retire_extends (s : WorkingSegment M) (before : Nat) : Extends s (s.retire before) :=
  ⟨rfl, rfl, Nat.le_refl _, dvd_refl _⟩

theorem addActive_extends {alignment : Nat} {a : ActiveAllocation} (hs : isPowerOfTwo s.alignment = true)
    (ha : isPowerOfTwo alignment = true) : Extends s (s.addActive alignment a) :=
  ⟨rfl, rfl, Nat.le_refl _, (isPowerOfTwo_max hs ha).2.1⟩

/-- A valid configuration's space that can hold a value. -/
structure SpaceFits (config : MemoryPlannerConfig M) (value : PlannedValue M)
    (space : MemorySpaceConfig M) : Prop where
  mem : space ∈ config.memorySpaces
  serves : space.memorySpace = value.memorySpace
  fits : ∃ rounded, roundUp value.bytes space.segmentGranularity none = .ok rounded ∧
    rounded ≤ space.maxSegmentBytes

theorem spaceFor_ok (h : spaceFor config value = .ok space) : SpaceFits config value space := by
  unfold spaceFor at h
  obtain ⟨found, hfind, h⟩ := bind_ok.mp h
  obtain ⟨rounded, hround, h⟩ := bind_ok.mp h
  obtain ⟨_, hreject, h⟩ := bind_ok.mp h
  cases h
  have hfind := okOr_ok.mp hfind
  have hfit := rejectIf_ok.mp hreject
  exact ⟨mem_of_find?_eq_some hfind, by simpa using List.find?_some hfind, rounded,
    roundUp_id none hround, by omega⟩

/-- What a turn does to the segment that it picks. -/
structure Taken (config : MemoryPlannerConfig M) (working working' : List (WorkingSegment M))
    (value : PlannedValue M) (segment offset : Nat) (s' : WorkingSegment M) : Prop where
  picked : working'[segment]? = some s'
  others : ∀ j : Nat, j ≠ segment → working'[j]? = working[j]?
  before : ∀ s, working[segment]? = some s → Extends s s' ∧ s'.active = s.active
  fresh : working[segment]? = none → s'.active = []
  ok : SegOk config s'
  serves : s'.serves value
  unclaimed : s'.Unclaimed offset value.bytes
  aligned : value.alignment ∣ offset

theorem Placed.taken (hconfig : ConfigValid config) (hspace : SpaceFits config value space)
    (halign : isPowerOfTwo value.alignment = true) (hok : ∀ s ∈ working, SegOk config s)
    (h : Placed working value space working' segment offset) :
    ∃ s', Taken config working working' value segment offset s' := by
  have hpos := isPowerOfTwo_pos halign
  cases h with
  | free c hfits =>
    obtain ⟨s, range, hs, hserves, hr, hoff, hle⟩ := hfits
    have hsok := hok s (mem_of_getElem? hs)
    obtain ⟨hstart, _, hdvd⟩ := roundUp_ok hpos hoff
    obtain ⟨hinv, hun⟩ := WorkingSegment.consumeFreeRange_spec hsok.inv hr hstart hle
    have hsame : s.consumeFreeRange c.range c.offset value.bytes =
        { s with free := (s.consumeFreeRange c.range c.offset value.bytes).free } := by
      unfold WorkingSegment.consumeFreeRange
      rw [hr]
    refine ⟨s.consumeFreeRange c.range c.offset value.bytes, ?_, ?_, ?_, ?_, ?_, ?_, hun, hdvd⟩
    · rw [List.getElem?_modify_eq, hs]
      rfl
    · intro j hj
      exact List.getElem?_modify_ne _ _ (Ne.symm hj)
    · intro s0 hs0
      rw [hs] at hs0
      cases hs0
      rw [hsame]
      exact ⟨⟨rfl, rfl, Nat.le_refl _, dvd_refl _⟩, rfl⟩
    · intro hnone
      rw [hs] at hnone
      cases hnone
    · refine ⟨hinv, ?_, ?_, ?_⟩
      all_goals rw [hsame]
      · exact hsok.space
      · exact hsok.aligned
      · exact hsok.capacity
    · rw [hsame]
      exact hserves
  | tail c hfits =>
    obtain ⟨s, capacity, hs, hserves, hoff, hcap, hle⟩ := hfits
    have hsok := hok s (mem_of_getElem? hs)
    obtain ⟨hstart, _, hdvd⟩ := roundUp_ok hpos hoff
    obtain ⟨hinv, hun⟩ := WorkingSegment.growTail_spec hsok.inv value.bytes hstart
    refine ⟨s.growTail c.offset (c.offset + value.bytes), ?_, ?_, ?_, ?_, ?_, hserves, hun, hdvd⟩
    · rw [List.getElem?_modify_eq, hs]
      rfl
    · intro j hj
      exact List.getElem?_modify_ne _ _ (Ne.symm hj)
    · intro s0 hs0
      rw [hs] at hs0
      cases hs0
      exact ⟨⟨rfl, rfl, Nat.le_trans hstart (Nat.le_add_right _ _), dvd_refl _⟩, rfl⟩
    · intro hnone
      rw [hs] at hnone
      cases hnone
    · exact ⟨hinv, hsok.space, hsok.aligned, capacity, roundUp_id none hcap, hle⟩
  | opened =>
    obtain ⟨hinv, hun⟩ := WorkingSegment.fresh_spec (s := openSegment value space) rfl rfl rfl
    have hlimits := hconfig.limits space hspace.mem
    refine ⟨openSegment value space, ?_, ?_, ?_, fun _ => rfl, ?_, ⟨rfl, rfl⟩, hun, ⟨0, rfl⟩⟩
    · exact List.getElem?_concat_length
    · intro j hj
      rw [List.getElem?_append]
      split
      · rfl
      · rw [List.getElem?_eq_none (by simp; omega), List.getElem?_eq_none (by omega)]
    · intro s0 hs0
      simp at hs0
    · exact ⟨hinv, ⟨space, hspace.mem, hspace.serves, rfl, rfl⟩,
        (isPowerOfTwo_max hlimits.2.1 halign).1, hspace.fits⟩

/-! ## The loop invariant -/

/-- The entry of a placed value in its segment's list of live allocations. -/
def Assignment.active (a : Assignment) : ActiveAllocation :=
  ⟨a.interval.stop.index, a.offset, a.bytes⟩

/-- An assignment agrees with the tables, and its slice lies in a segment of its
kind at a multiple of its alignment. -/
structure AssignOk (values : List (ValueDecl M)) (liveness : Liveness)
    (working : List (WorkingSegment M)) (a : Assignment) : Prop where
  slice : ∃ value s, plannedEntry values liveness a.value.index = .ok (value, a.interval) ∧
    value.bytes = a.bytes ∧ working[a.segment]? = some s ∧ s.serves value ∧
    value.alignment ∣ a.offset ∧ value.alignment ∣ s.alignment ∧ a.offset + a.bytes ≤ s.usedEnd

/-- What holds after the values `done` are placed. -/
structure PackInv (values : List (ValueDecl M)) (config : MemoryPlannerConfig M)
    (liveness : Liveness) (done : List Nat) (st : PackState M) : Prop where
  segments : ∀ s ∈ st.working, SegOk config s
  order : st.assignments.map (fun a => a.value.index) = done
  assigned : ∀ a ∈ st.assignments, AssignOk values liveness st.working a
  table_length : st.assignedByValue.length = values.length
  table : ∀ a ∈ st.assignments, st.assignedByValue[a.value.index]? = some (some a)
  live : ∀ a ∈ st.assignments,
    (∀ b ∈ st.assignments, b.interval.start.index < a.interval.stop.index) →
    ∃ s, st.working[a.segment]? = some s ∧ a.active ∈ s.active
  live_assigned : ∀ (j : Nat) s, st.working[j]? = some s → ∀ e ∈ s.active,
    ∃ a ∈ st.assignments, a.segment = j ∧ e = a.active

/-- What the tables say of the values to be placed. -/
structure PackInput (values : List (ValueDecl M)) (config : MemoryPlannerConfig M)
    (liveness : Liveness) : Prop where
  dense : DenseValues values
  config_valid : ConfigValid config
  aligned : ∀ (i : Nat) value interval, plannedEntry values liveness i = .ok (value, interval) →
    isPowerOfTwo value.alignment = true
  intervals : ∀ (i : Nat) interval, liveness.intervals[i]? = some (some interval) →
    interval.start.index < interval.stop.index

theorem plannedEntry_ok :
    plannedEntry values liveness i = .ok (value, interval) ↔ ∃ v c,
      values[i]? = some v ∧
      v.storage = .planned c value.alignment value.memorySpace value.ownership ∧
      v.id = value.id ∧ v.bytes = value.bytes ∧
      liveness.intervals[i]? = some (some interval) := by
  unfold plannedEntry
  rw [bind_ok]
  constructor
  · rintro ⟨v, hv, h⟩
    cases hs : v.storage with
    | fixed c l => simp [hs] at h
    | aliasOf s o => simp [hs] at h
    | planned c alignment m o =>
      simp only [hs, bind_ok, expect_ok] at h
      obtain ⟨interval', hi, h⟩ := h
      cases h
      exact ⟨v, c, expect_ok.mp hv, hs, rfl, rfl, Option.join_eq_some_iff.mp hi⟩
  · rintro ⟨v, c, hv, hs, hid, hbytes, hi⟩
    refine ⟨v, expect_ok.mpr hv, ?_⟩
    simp only [hs, bind_ok, expect_ok]
    refine ⟨interval, Option.join_eq_some_iff.mpr hi, ?_⟩
    rw [hid, hbytes]

theorem plannedEntry_start (h : plannedEntry values liveness i = .ok (value, interval)) :
    startAt liveness i = interval.start.index := by
  obtain ⟨_, _, _, _, _, _, hi⟩ := plannedEntry_ok.mp h
  simp [startAt, hi]

/-- The parts of one turn. -/
structure Turn (values : List (ValueDecl M)) (config : MemoryPlannerConfig M)
    (liveness : Liveness) (st : PackState M) (i : Nat) (value : PlannedValue M)
    (interval : LiveInterval) (working' : List (WorkingSegment M)) (segment offset : Nat) :
    Prop where
  entry : plannedEntry values liveness i = .ok (value, interval)
  placed : ∃ space, spaceFor config value = .ok space ∧
    place (st.working.map (·.retire interval.start.index)) value space =
      .ok (working', segment, offset)

/-- The state after a turn. -/
def PackState.assign (st : PackState M) (i : Nat) (value : PlannedValue M)
    (interval : LiveInterval) (working' : List (WorkingSegment M)) (segment offset : Nat) :
    PackState M where
  working := working'.modify segment
    (·.addActive value.alignment ⟨interval.stop.index, offset, value.bytes⟩)
  assignments := st.assignments ++ [⟨value.id, segment, offset, value.bytes, interval⟩]
  assignedByValue := st.assignedByValue.set i
    (some ⟨value.id, segment, offset, value.bytes, interval⟩)

theorem packValue_ok {st' : PackState M} :
    packValue values config liveness st i = .ok st' ↔
      ∃ value interval working' segment offset,
        Turn values config liveness st i value interval working' segment offset ∧
        st' = st.assign i value interval working' segment offset := by
  unfold packValue
  simp only [bind_ok, Prod.exists, Except.ok.injEq]
  constructor
  · rintro ⟨value, interval, he, space, hspace, working', segment, offset, hp, rfl⟩
    exact ⟨value, interval, working', segment, offset, ⟨he, space, hspace, hp⟩, rfl⟩
  · rintro ⟨value, interval, working', segment, offset, ⟨he, space, hspace, hp⟩, rfl⟩
    exact ⟨value, interval, he, space, hspace, working', segment, offset, hp, rfl⟩

/-- What one turn does to the segments. -/
theorem Turn.taken (hin : PackInput values config liveness) (inv : PackInv values config liveness done st)
    (turn : Turn values config liveness st i value interval working' segment offset) :
    ∃ s', Taken config (st.working.map (·.retire interval.start.index)) working' value segment
      offset s' := by
  obtain ⟨space, hspace, hplace⟩ := turn.placed
  refine (place_ok hplace).taken hin.config_valid (spaceFor_ok hspace)
    (hin.aligned i value interval turn.entry) fun s hs => ?_
  obtain ⟨s0, hs0, rfl⟩ := mem_map.mp hs
  exact (inv.segments s0 hs0).retire _

/-- Every segment of before is still there, extended. -/
theorem Taken.extends {t : Nat} {a : ActiveAllocation} (halign : isPowerOfTwo value.alignment = true)
    (h : Taken config (working.map (·.retire t)) working' value segment offset s') {j : Nat}
    (hs : working[j]? = some s) :
    ∃ s'', (working'.modify segment (·.addActive value.alignment a))[j]? = some s'' ∧
      Extends s s'' := by
  have hretired : (working.map (·.retire t))[j]? = some (s.retire t) := by
    rw [List.getElem?_map, hs]
    rfl
  by_cases hj : j = segment
  · subst hj
    refine ⟨s'.addActive value.alignment a, by rw [List.getElem?_modify_eq, h.picked]; rfl, ?_⟩
    exact ((retire_extends s t).trans (h.before _ hretired).1).trans
      (addActive_extends h.ok.aligned halign)
  · refine ⟨s.retire t, ?_, retire_extends s t⟩
    rw [List.getElem?_modify_ne _ _ (Ne.symm hj), h.others j hj, hretired]

theorem AssignOk.mono
    (hext : ∀ (j : Nat) s, working[j]? = some s → ∃ s', working'[j]? = some s' ∧ Extends s s')
    (h : AssignOk values liveness working a) : AssignOk values liveness working' a := by
  obtain ⟨value, s, he, hb, hs, hserves, hoff, hal, hend⟩ := h.slice
  obtain ⟨s', hs', e⟩ := hext _ s hs
  exact ⟨value, s', he, hb, hs', e.serves hserves, hoff, dvd_trans hal e.alignment,
    Nat.le_trans hend e.usedEnd⟩

/-- An allocation that is live at `t` survives retiring at `t`. -/
theorem mem_retire_active {t : Nat} {e : ActiveAllocation} :
    e ∈ (s.retire t).active ↔ e ∈ s.active ∧ t < e.stop := by
  simp [WorkingSegment.retire, mem_filter]

theorem AssignOk.start (h : AssignOk values liveness working a) :
    startAt liveness a.value.index = a.interval.start.index := by
  obtain ⟨_, _, he, _⟩ := h.slice
  exact plannedEntry_start he

/-- One turn keeps the invariant. -/
theorem packValue_inv {st' : PackState M} (hin : PackInput values config liveness) (hnew : i ∉ done)
    (hsorted : ∀ j ∈ done, startAt liveness j ≤ startAt liveness i)
    (inv : PackInv values config liveness done st) (h : packValue values config liveness st i = .ok st') :
    PackInv values config liveness (done ++ [i]) st' := by
  obtain ⟨value, interval, working', segment, offset, turn, rfl⟩ := packValue_ok.mp h
  obtain ⟨s', tk⟩ := turn.taken hin inv
  have halign := hin.aligned i value interval turn.entry
  have hext := fun (j : Nat) s hs =>
    tk.extends (a := ⟨interval.stop.index, offset, value.bytes⟩) halign (j := j) (s := s) hs
  obtain ⟨v, c, hv, _, hid, _, hi⟩ := plannedEntry_ok.mp turn.entry
  have hindex : value.id.index = i := by rw [← hid, (hin.dense i v hv).1]
  have hlt : i < values.length := (List.getElem?_eq_some_iff.mp hv).1
  have hnewSeg : (st.assign i value interval working' segment offset).working[segment]? =
      some (s'.addActive value.alignment ⟨interval.stop.index, offset, value.bytes⟩) := by
    show (working'.modify segment _)[segment]? = _
    rw [List.getElem?_modify_eq, tk.picked]
    rfl
  -- Allocations of the other segments are those that retiring left.
  have hother : ∀ (j : Nat) s, j ≠ segment →
      (st.assign i value interval working' segment offset).working[j]? = some s →
      ∃ s0, st.working[j]? = some s0 ∧ s = s0.retire interval.start.index := by
    intro j s hj hs
    have hs : (working'.modify segment _)[j]? = some s := hs
    rw [List.getElem?_modify_ne _ _ (Ne.symm hj), tk.others j hj, List.getElem?_map] at hs
    obtain ⟨s0, hs0, rfl⟩ := Option.map_eq_some_iff.mp hs
    exact ⟨s0, hs0, rfl⟩
  refine ⟨?_, ?_, ?_, ?_, ?_, ?_, ?_⟩
  · intro s hs
    obtain ⟨j, hs⟩ := mem_iff_getElem?.mp hs
    by_cases hj : j = segment
    · subst hj
      rw [hnewSeg] at hs
      cases hs
      exact ⟨WorkingSegment.addActive_inv tk.ok.inv tk.unclaimed, tk.ok.space,
        (isPowerOfTwo_max tk.ok.aligned halign).1, tk.ok.capacity⟩
    · obtain ⟨s0, hs0, rfl⟩ := hother j s hj hs
      exact (inv.segments s0 (mem_of_getElem? hs0)).retire _
  · simp [PackState.assign, inv.order, hindex]
  · intro a ha
    rcases mem_append.mp ha with ha | ha
    · exact (inv.assigned a ha).mono hext
    · rw [mem_singleton.mp ha]
      exact ⟨value, _, by rw [← turn.entry]; simp [hindex], rfl, hnewSeg, tk.serves, tk.aligned,
        (isPowerOfTwo_max tk.ok.aligned halign).2.2, tk.unclaimed.below⟩
  · simp [PackState.assign, inv.table_length]
  · intro a ha
    rcases mem_append.mp ha with hold | ha
    · have hne : i ≠ a.value.index := by
        rintro rfl
        refine hnew ?_
        rw [← inv.order]
        exact mem_map.mpr ⟨a, hold, rfl⟩
      exact (List.getElem?_set_ne hne).trans (inv.table a hold)
    · rw [mem_singleton.mp ha]
      show (st.assignedByValue.set i _)[value.id.index]? = _
      rw [hindex]
      exact List.getElem?_set_self (inv.table_length ▸ hlt)
  · intro a ha hlive
    rcases mem_append.mp ha with ha | ha
    · obtain ⟨s, hs, hactive⟩ := inv.live a ha fun b hb => hlive b (mem_append_left _ hb)
      have hstop : interval.start.index < a.interval.stop.index :=
        hlive ⟨value.id, segment, offset, value.bytes, interval⟩ (by simp [PackState.assign])
      have hkeep := mem_retire_active.mpr ⟨hactive, hstop⟩
      have hretired : (st.working.map (·.retire interval.start.index))[a.segment]? =
          some (s.retire interval.start.index) := by
        rw [List.getElem?_map, hs]
        rfl
      by_cases hj : a.segment = segment
      · rw [hj]
        refine ⟨_, hnewSeg, mem_append_left _ ?_⟩
        rw [(tk.before _ (hj ▸ hretired)).2]
        exact hkeep
      · refine ⟨_, ?_, hkeep⟩
        show (working'.modify segment _)[a.segment]? = _
        rw [List.getElem?_modify_ne _ _ (Ne.symm hj), tk.others _ hj, hretired]
    · rw [mem_singleton.mp ha]
      exact ⟨_, hnewSeg, mem_append_right _ (mem_singleton.mpr rfl)⟩
  · intro j s hs e he
    by_cases hj : j = segment
    · subst hj
      rw [hnewSeg] at hs
      cases hs
      rcases mem_append.mp he with he | he
      · cases hbefore : (st.working.map (·.retire interval.start.index))[j]? with
        | none =>
          rw [tk.fresh hbefore] at he
          cases he
        | some s1 =>
          rw [(tk.before _ hbefore).2] at he
          rw [List.getElem?_map] at hbefore
          obtain ⟨s0, hs0, rfl⟩ := Option.map_eq_some_iff.mp hbefore
          obtain ⟨a, ha, hseg, rfl⟩ := inv.live_assigned j s0 hs0 e (mem_retire_active.mp he).1
          exact ⟨a, mem_append_left _ ha, hseg, rfl⟩
      · exact ⟨_, mem_append_right _ (mem_singleton.mpr rfl), rfl,
          mem_singleton.mp he⟩
    · obtain ⟨s0, hs0, rfl⟩ := hother j s hj hs
      obtain ⟨a, ha, hseg, rfl⟩ := inv.live_assigned j s0 hs0 e (mem_retire_active.mp he).1
      exact ⟨a, mem_append_left _ ha, hseg, rfl⟩

/-! ## Conflicts -/

/-- Two assignments that the final scan rejects: one segment, a common address
and a common instruction. -/
def Conflict (a b : Assignment) : Prop :=
  a.segment = b.segment ∧ addressOverlap a.offset a.bytes b.offset b.bytes = true ∧
    a.interval.overlaps b.interval = true

theorem Conflict.symm {b : Assignment} (h : Conflict a b) : Conflict b a := by
  obtain ⟨hseg, haddr, hover⟩ := h
  refine ⟨hseg.symm, ?_, LiveInterval.overlaps_iff.mpr (LiveInterval.overlaps_iff.mp hover).symm⟩
  unfold addressOverlap at *
  rw [decide_eq_true_iff] at *
  exact haddr.symm

/-- The slice that the next turn takes for value `i` reaches past a live empty
allocation on both sides. -/
def CoversLiveEmpty (values : List (ValueDecl M)) (config : MemoryPlannerConfig M)
    (liveness : Liveness) (st : PackState M) (i : Nat) : Prop :=
  ∃ value interval working' segment offset s e,
    Turn values config liveness st i value interval working' segment offset ∧
    (st.working.map (·.retire interval.start.index))[segment]? = some s ∧ e ∈ s.active ∧
    e.bytes = 0 ∧ offset < e.offset ∧ e.offset < offset + value.bytes

theorem Turn.unique {value' : PlannedValue M} {interval' : LiveInterval} {segment' offset' : Nat}
    (h : Turn values config liveness st i value interval working segment offset)
    (h' : Turn values config liveness st i value' interval' working' segment' offset') :
    value = value' ∧ interval = interval' ∧ working = working' ∧ segment = segment' ∧
      offset = offset' := by
  have he := h.entry.symm.trans h'.entry
  cases he
  obtain ⟨space, hs, hp⟩ := h.placed
  obtain ⟨space', hs', hp'⟩ := h'.placed
  have hspace := hs.symm.trans hs'
  cases hspace
  have hplace := hp.symm.trans hp'
  cases hplace
  exact ⟨rfl, rfl, rfl, rfl, rfl⟩

/-- A turn creates a conflict exactly when its slice covers a live empty
allocation. -/
theorem packValue_conflict (hin : PackInput values config liveness)
    (hsorted : ∀ j ∈ done, startAt liveness j ≤ startAt liveness i)
    (inv : PackInv values config liveness done st)
    (turn : Turn values config liveness st i value interval working' segment offset) :
    (∃ a ∈ st.assignments, Conflict a ⟨value.id, segment, offset, value.bytes, interval⟩) ↔
      CoversLiveEmpty values config liveness st i := by
  obtain ⟨s', tk⟩ := turn.taken hin inv
  have hstart := plannedEntry_start turn.entry
  have hearlier : ∀ a ∈ st.assignments, a.interval.start.index ≤ interval.start.index := by
    intro a ha
    rw [← hstart, ← (inv.assigned a ha).start]
    refine hsorted _ ?_
    rw [← inv.order]
    exact mem_map.mpr ⟨a, ha, rfl⟩
  have hlt : interval.start.index < interval.stop.index := by
    obtain ⟨_, _, _, _, _, _, hi⟩ := plannedEntry_ok.mp turn.entry
    exact hin.intervals _ _ hi
  constructor
  · rintro ⟨a, ha, hseg, haddr, hover⟩
    have hstop : interval.start.index < a.interval.stop.index :=
      (LiveInterval.overlaps_iff.mp hover).2
    -- The earlier value is still live, so its allocation survived retiring.
    obtain ⟨s, hs, hactive⟩ := inv.live a ha fun b hb => Nat.lt_of_le_of_lt (hearlier b hb) hstop
    have hkeep := mem_retire_active.mpr ⟨hactive, hstop⟩
    have hretired : (st.working.map (·.retire interval.start.index))[segment]? =
        some (s.retire interval.start.index) := by
      rw [List.getElem?_map, ← show a.segment = segment from hseg, hs]
      rfl
    have hmem : a.active ∈ s'.active := by
      rw [(tk.before _ hretired).2]
      exact hkeep
    obtain ⟨hb, h1, h2⟩ := (WorkingSegment.address_overlap_iff tk.unclaimed hmem).mp haddr
    exact ⟨value, interval, working', segment, offset, _, a.active, turn, hretired, hkeep, hb, h1, h2⟩
  · rintro ⟨value', interval', working'', segment', offset', s, e, turn', hs, he, hb, h1, h2⟩
    obtain ⟨rfl, rfl, rfl, rfl, rfl⟩ := turn.unique turn'
    have hmem : e ∈ s'.active := by
      rw [(tk.before _ hs).2]
      exact he
    have hs2 := hs
    rw [List.getElem?_map] at hs
    obtain ⟨s0, hs0, rfl⟩ := Option.map_eq_some_iff.mp hs
    obtain ⟨h0, hstop⟩ := mem_retire_active.mp he
    obtain ⟨a, ha, hseg, rfl⟩ := inv.live_assigned segment s0 hs0 e h0
    refine ⟨a, ha, hseg,
      (WorkingSegment.address_overlap_iff tk.unclaimed hmem).mpr ⟨hb, h1, h2⟩, ?_⟩
    exact LiveInterval.overlaps_iff.mpr ⟨Nat.lt_of_le_of_lt (hearlier a ha) hlt, hstop⟩

/-! ## Whole runs -/

/-- No turn of the packing loop covers a live empty allocation. -/
def NoLiveEmptyCovered (values : List (ValueDecl M)) (config : MemoryPlannerConfig M)
    (liveness : Liveness) (order : List Nat) : Prop :=
  ∀ before i rest st, order = before ++ i :: rest →
    packValues values config liveness before = .ok st →
    ¬ CoversLiveEmpty values config liveness st i

theorem StartOrder.split {before rest : List Nat} (ho : StartOrder values liveness order)
    (hl : order = before ++ i :: rest) :
    i ∉ before ∧ ∀ j ∈ before, startAt liveness j ≤ startAt liveness i := by
  have hn : order.Nodup := ho.perm.nodup_iff.mpr (plannedIndices_nodup values)
  have hs := ho.sorted
  rw [hl] at hn hs
  refine ⟨fun hi => ?_, fun j hj => ?_⟩
  · exact (disjoint_of_nodup_append hn) hi mem_cons_self
  · exact (pairwise_append.mp hs).2.2 j hj i mem_cons_self

theorem packState_init (values : List (ValueDecl M)) (config : MemoryPlannerConfig M)
    (liveness : Liveness) :
    PackInv values config liveness [] ⟨[], [], List.replicate values.length none⟩ where
  segments := by simp
  order := rfl
  assigned := by simp
  table_length := by simp
  table := by simp
  live := by simp
  live_assigned := by simp

/-- The invariant holds after every prefix of the loop. -/
theorem packValues_inv (hin : PackInput values config liveness) (ho : StartOrder values liveness order)
    {before rest : List Nat} (hl : order = before ++ rest)
    (h : packValues values config liveness before = .ok st) : PackInv values config liveness before st := by
  refine foldlM_invariant (fun done st => PackInv values config liveness done st) before ?_
    (packState_init values config liveness) h
  intro done i rest' st st' hb inv hstep
  have hsplit : order = done ++ i :: (rest' ++ rest) := by
    rw [hl, hb]
    simp
  obtain ⟨hnew, hsorted⟩ := ho.split hsplit
  exact packValue_inv hin hnew hsorted inv hstep

theorem packValues_snoc :
    packValues values config liveness (done ++ [i]) = .ok st ↔
      ∃ st0, packValues values config liveness done = .ok st0 ∧
        packValue values config liveness st0 i = .ok st := by
  unfold packValues
  rw [foldlM_append, bind_ok]
  simp only [foldlM_cons, foldlM_nil, bind_ok, pure, Except.pure, Except.ok.injEq]
  simp

/-- The loop ends without conflicts exactly when no turn covers a live empty
allocation. -/
theorem packValues_conflict_free (hin : PackInput values config liveness)
    (ho : StartOrder values liveness order) :
    ∀ (n : Nat) (st : PackState M), n ≤ order.length →
      packValues values config liveness (order.take n) = .ok st →
      (st.assignments.Pairwise (fun a b => ¬ Conflict a b) ↔
        NoLiveEmptyCovered values config liveness (order.take n)) := by
  intro n
  induction n with
  | zero =>
    intro st _ h
    cases h
    simp [NoLiveEmptyCovered]
  | succ n ih =>
    intro st hn h
    have hlt : n < order.length := hn
    have htake : order.take (n + 1) = order.take n ++ [order[n]] := by
      rw [take_succ_eq_append_getElem hlt]
    have hsplit : order = order.take n ++ order[n] :: order.drop (n + 1) := by
      rw [← drop_eq_getElem_cons hlt, take_append_drop]
    rw [htake] at h ⊢
    obtain ⟨st0, h0, hstep⟩ := packValues_snoc.mp h
    have inv := packValues_inv hin ho hsplit h0
    obtain ⟨value, interval, working', segment, offset, turn, rfl⟩ := packValue_ok.mp hstep
    have hconf := packValue_conflict hin (ho.split hsplit).2 inv turn
    have hinitial := ih st0 (Nat.le_of_lt hlt) h0
    have hpair : (st0.assign order[n] value interval working' segment offset).assignments.Pairwise
        (fun a b => ¬ Conflict a b) ↔ st0.assignments.Pairwise (fun a b => ¬ Conflict a b) ∧
          ¬ CoversLiveEmpty values config liveness st0 order[n] := by
      rw [← hconf]
      simp [PackState.assign, pairwise_append]
    rw [hpair, hinitial]
    unfold NoLiveEmptyCovered
    constructor
    · rintro ⟨hbefore, hlast⟩ before i rest st hl hst
      rcases eq_nil_or_concat rest with rfl | ⟨rest', x, rfl⟩
      · obtain ⟨hb, hi⟩ := append_inj' hl rfl
        cases hi
        rw [← hb] at hst
        rw [h0] at hst
        cases hst
        exact hlast
      · have hl' : order.take n ++ [order[n]] = (before ++ i :: rest') ++ [x] := by
          rw [hl]
          simp
        obtain ⟨hb, _⟩ := append_inj' hl' rfl
        exact hbefore before i rest' st hb hst
    · intro hall
      refine ⟨fun before i rest st hl hst => ?_, hall (order.take n) order[n] [] st0 rfl h0⟩
      exact hall before i (rest ++ [order[n]]) st (by rw [hl]; simp) hst

/-! ## Totality -/

/-- The bytes that a segment takes up at most, once its size is rounded. -/
def WorkingSegment.extent (s : WorkingSegment M) : Nat := s.usedEnd + s.granularity

/-- Total extent of the segments. -/
def extents (working : List (WorkingSegment M)) : Nat :=
  (working.map WorkingSegment.extent).sum

theorem extent_le (h : s ∈ working) : s.extent ≤ extents working :=
  le_sum_of_mem (mem_map_of_mem h)

theorem extents_modify_le {f : WorkingSegment M → WorkingSegment M} {d : Nat} :
    ∀ {working : List (WorkingSegment M)} {i : Nat},
      (∀ s, working[i]? = some s → (f s).extent ≤ s.extent + d) →
      extents (working.modify i f) ≤ extents working + d := by
  intro working
  induction working with
  | nil =>
    intro i _
    simp [extents]
  | cons s working ih =>
    intro i h
    cases i with
    | zero =>
      have := h s rfl
      simp only [extents, modify_zero_cons, map_cons, sum_cons]
      omega
    | succ i =>
      have := ih (i := i) fun s hs => h s hs
      simp only [extents, modify_succ_cons, map_cons, sum_cons] at *
      omega

theorem extents_retire (working : List (WorkingSegment M)) (t : Nat) :
    extents (working.map (·.retire t)) = extents working := by
  unfold extents
  rw [map_map]
  rfl

theorem extents_addActive (working : List (WorkingSegment M)) (i alignment : Nat)
    (a : ActiveAllocation) : extents (working.modify i (·.addActive alignment a)) ≤ extents working :=
  extents_modify_le (d := 0) fun _ _ => Nat.le_refl _

/-- The extents leave room for one more value with its alignment and rounding. -/
def RoomFor (working : List (WorkingSegment M)) (value : PlannedValue M) (granularity : Nat) :
    Prop :=
  extents working + (value.bytes + value.alignment + granularity) ≤ usizeMax

theorem alignUp_total (start : Nat) (hpos : 0 < value.alignment)
    (h : start + value.alignment + value.bytes ≤ usizeMax) :
    ∃ offset, alignUp start value.alignment value.id = .ok offset ∧ start ≤ offset ∧
      offset < start + value.alignment ∧
      sliceStop value offset = .ok (offset + value.bytes) := by
  obtain ⟨offset, hoff⟩ := roundUp_total start (some value.id) hpos
    (by omega)
  obtain ⟨h1, h2, _⟩ := roundUp_ok hpos hoff
  exact ⟨offset, hoff, h1, h2, sliceStop_ok.mpr ⟨by omega, rfl⟩⟩

theorem findFree_total {granularity : Nat} (hpos : 0 < value.alignment) (hinv : ∀ s ∈ working, s.Inv)
    (hroom : RoomFor working value granularity) : ∃ c, findFree working value = .ok c := by
  obtain ⟨c, hc, _⟩ := foldlM_total (fun _ _ => True) working.zipIdx (f := scanFreeSegment value)
    (by
      rintro done ⟨s, j⟩ rest best hl _
      have hs : s ∈ working := by
        refine mem_of_getElem? (mk_mem_zipIdx_iff_getElem? (x := s) (i := j).mp ?_)
        rw [hl]
        simp
      unfold scanFreeSegment
      split
      · refine foldlM_total (fun _ _ => True) s.free.zipIdx ?_ best trivial
        rintro done ⟨range, k⟩ rest best hl _
        have hr : range ∈ s.free := by
          refine mem_of_getElem? (mk_mem_zipIdx_iff_getElem? (x := range) (i := k).mp ?_)
          rw [hl]
          simp
        have hstart := (hinv s hs).free_below range.start
          ⟨range, hr, Nat.le_refl _, (hinv s hs).separated.nonempty range hr⟩
        have hext := extent_le hs
        unfold RoomFor WorkingSegment.extent at *
        obtain ⟨offset, hoff, _, _, hstop⟩ := alignUp_total range.start hpos (by omega)
        unfold scanFreeRange
        simp only [hoff, hstop, ok_bind]
        split
        · split <;> exact ⟨_, rfl, trivial⟩
        · exact ⟨_, rfl, trivial⟩
      · exact ⟨_, rfl, trivial⟩) none trivial
  exact ⟨c, hc⟩

theorem findTail_total {granularity : Nat} (hpos : 0 < value.alignment)
    (hgran : ∀ s ∈ working, 0 < s.granularity) (hroom : RoomFor working value granularity) :
    ∃ c, findTail working value = .ok c := by
  obtain ⟨c, hc, _⟩ := foldlM_total (fun _ _ => True) working.zipIdx (f := scanTail value)
    (by
      rintro done ⟨s, j⟩ rest best hl _
      have hs : s ∈ working := by
        refine mem_of_getElem? (mk_mem_zipIdx_iff_getElem? (x := s) (i := j).mp ?_)
        rw [hl]
        simp
      have hg := hgran s hs
      have hext := extent_le hs
      unfold RoomFor WorkingSegment.extent at *
      unfold scanTail
      dsimp only
      split
      · obtain ⟨offset, hoff, _, _, hstop⟩ := alignUp_total s.usedEnd hpos (by omega)
        obtain ⟨capacity, hcap⟩ := roundUp_total (offset + value.bytes) (some value.id) hg
          (by omega)
        obtain ⟨used, hused⟩ := roundUp_total s.usedEnd (some value.id) hg (by omega)
        simp only [hoff, hstop, hcap, hused, ok_bind]
        split
        · split <;> exact ⟨_, rfl, trivial⟩
        · exact ⟨_, rfl, trivial⟩
      · exact ⟨_, rfl, trivial⟩) none trivial
  exact ⟨c, hc⟩

/-- With room left, a value gets a slice, and the extents grow by no more than
its padded size. -/
theorem place_total (working : List (WorkingSegment M)) (value : PlannedValue M)
    (space : MemorySpaceConfig M) (hpos : 0 < value.alignment) (hinv : ∀ s ∈ working, s.Inv)
    (hgran : ∀ s ∈ working, 0 < s.granularity) (hcount : working.length ≤ u32Max)
    (hroom : RoomFor working value space.segmentGranularity) :
    ∃ working' segment offset, place working value space = .ok (working', segment, offset) ∧
      working'.length ≤ working.length + 1 ∧
      extents working' ≤
        extents working + (value.bytes + value.alignment + space.segmentGranularity) := by
  obtain ⟨free, hfree⟩ := findFree_total hpos hinv hroom
  cases free with
  | some c =>
    refine ⟨_, c.segment, c.offset, by simp [place, hfree]; rfl, by simp, ?_⟩
    refine Nat.le_trans (extents_modify_le (d := 0) fun s _ => ?_) (by omega)
    unfold WorkingSegment.extent WorkingSegment.consumeFreeRange
    split <;> simp
  | none =>
    obtain ⟨tail, htail⟩ := findTail_total hpos hgran hroom
    cases tail with
    | some c =>
      obtain ⟨s, capacity, hs, _, hoff, _, _⟩ := findTail_ok htail
      obtain ⟨h1, h2, _⟩ := roundUp_ok hpos hoff
      have hext := extent_le (mem_of_getElem? hs)
      have hstop : sliceStop value c.offset = .ok (c.offset + value.bytes) := by
        unfold RoomFor WorkingSegment.extent at *
        exact sliceStop_ok.mpr ⟨by omega, rfl⟩
      refine ⟨_, c.segment, c.offset, by simp [place, hfree, htail, hstop]; rfl, by simp, ?_⟩
      refine Nat.le_trans (extents_modify_le (d := value.bytes + value.alignment) fun s' hs' => ?_)
        (by omega)
      rw [hs] at hs'
      cases hs'
      show c.offset + value.bytes + s.granularity ≤ _
      unfold WorkingSegment.extent
      omega
    | none =>
      have hid : SegmentId.fromIndex working.length = some ⟨working.length⟩ :=
        SegmentId.fromIndex_some.mpr ⟨hcount, rfl⟩
      refine ⟨working ++ [openSegment value space], working.length, 0,
        by simp [place, hfree, htail, hid], by simp, ?_⟩
      simp only [extents, map_append, sum_append, map_cons, map_nil,
        sum_cons, sum_nil, WorkingSegment.extent, openSegment]
      omega

theorem SegOk.granularity_pos (hconfig : ConfigValid config) (h : SegOk config s) : 0 < s.granularity := by
  obtain ⟨space, hm, _, _, hg⟩ := h.space
  rw [hg]
  exact (hconfig.limits space hm).2.2

/-- The bytes of an entry with its alignment and the rounding of its space. -/
def paddedBytes (config : MemoryPlannerConfig M) (value : ValueDecl M) : Nat :=
  match value.storage with
  | .planned _ alignment memorySpace _ =>
    value.bytes + alignment +
      ((config.memorySpaces.find? fun space => space.memorySpace = memorySpace).map
        MemorySpaceConfig.segmentGranularity).getD 0
  | .fixed .. => value.bytes
  | .aliasOf .. => 0

/-- The padded bytes of table entry `i`. -/
def paddedAt (values : List (ValueDecl M)) (config : MemoryPlannerConfig M) (i : Nat) : Nat :=
  (values[i]?.map (paddedBytes config)).getD 0

/-- Each planned value's space is configured and can hold the value. -/
def SpacesFit (values : List (ValueDecl M)) (config : MemoryPlannerConfig M) : Prop :=
  ∀ v ∈ values, ∀ c alignment memorySpace ownership,
    v.storage = .planned c alignment memorySpace ownership →
    ∃ space ∈ config.memorySpaces, space.memorySpace = memorySpace ∧
      ∃ rounded, roundUp v.bytes space.segmentGranularity none = .ok rounded ∧
        rounded ≤ space.maxSegmentBytes

theorem find?_space (hconfig : ConfigValid config) (hm : space ∈ config.memorySpaces) :
    config.memorySpaces.find? (fun s => s.memorySpace = space.memorySpace) = some space := by
  cases hf : config.memorySpaces.find? (fun s => s.memorySpace = space.memorySpace) with
  | none =>
    rw [List.find?_eq_none] at hf
    simp at hf
    exact absurd rfl (hf space hm)
  | some space' =>
    have hm' := mem_of_find?_eq_some hf
    have heq : space'.memorySpace = space.memorySpace := by simpa using List.find?_some hf
    by_contra hne
    have : Std.Symm fun a b : MemorySpaceConfig M => a.memorySpace ≠ b.memorySpace :=
      ⟨fun _ _ h => Ne.symm h⟩
    exact hconfig.distinct.forall hm' hm (fun h => hne (by rw [h])) heq

theorem spaceFor_total (hconfig : ConfigValid config) (hfit : SpacesFit values config)
    (h : plannedEntry values liveness i = .ok (value, interval)) :
    ∃ space, spaceFor config value = .ok space ∧
      paddedAt values config i = value.bytes + value.alignment + space.segmentGranularity := by
  obtain ⟨v, c, hv, hs, _, hbytes, _⟩ := plannedEntry_ok.mp h
  obtain ⟨space, hm, hspace, rounded, hround, hle⟩ :=
    hfit v (mem_of_getElem? hv) c _ _ _ hs
  have hfind := find?_space hconfig hm
  rw [hspace] at hfind
  rw [hbytes] at hround
  have hpos := (hconfig.limits space hm).2.2
  have hge := (roundUp_ok hpos hround).1
  refine ⟨space, ?_, ?_⟩
  · unfold spaceFor
    simp only [hfind, okOr_some, ok_bind, roundUp_id (some value.id) hround]
    have hfits : rejectIf (space.maxSegmentBytes < value.bytes ∨ space.maxSegmentBytes < rounded)
        (PlannerError.valueTooLarge value.id value.bytes rounded space.maxSegmentBytes) = .ok () :=
      rejectIf_ok.mpr (by omega)
    rw [hfits]
    rfl
  · simp [paddedAt, hv, paddedBytes, hs, hfind, hbytes]

/-- The packing loop finishes when the padded sizes fit. -/
theorem packValues_total (hin : PackInput values config liveness) (ho : StartOrder values liveness order)
    (hfit : SpacesFit values config)
    (hentries : ∀ i ∈ order, ∃ value interval, plannedEntry values liveness i = .ok (value, interval))
    (hcount : order.length ≤ u32Max + 1) (hsum : (order.map (paddedAt values config)).sum ≤ usizeMax) :
    ∃ st, packValues values config liveness order = .ok st ∧
      extents st.working ≤ (order.map (paddedAt values config)).sum ∧
      st.working.length ≤ order.length := by
  refine (foldlM_total (fun done (st : PackState M) => PackInv values config liveness done st ∧
    extents st.working ≤ (done.map (paddedAt values config)).sum ∧
    st.working.length ≤ done.length) order ?_ _ ⟨packState_init values config liveness,
      by simp [extents], by simp⟩).imp fun st h => ⟨h.1, h.2.2⟩
  rintro done i rest st hl ⟨inv, hext, hlen⟩
  obtain ⟨hnew, hsorted⟩ := ho.split hl
  obtain ⟨value, interval, he⟩ := hentries i (by rw [hl]; simp)
  obtain ⟨space, hspace, hpad⟩ := spaceFor_total hin.config_valid hfit he
  have hpos := isPowerOfTwo_pos (hin.aligned i value interval he)
  rw [hl] at hsum hcount
  simp only [map_append, map_cons, sum_append, sum_cons, length_append,
    length_cons] at hsum hcount
  have hretired : ∀ s ∈ st.working.map (·.retire interval.start.index), SegOk config s := by
    intro s hs
    obtain ⟨s0, hs0, rfl⟩ := mem_map.mp hs
    exact (inv.segments s0 hs0).retire _
  have hext' := extents_retire st.working interval.start.index
  obtain ⟨working', segment, offset, hplace, hlen', hgrow⟩ := place_total
    (st.working.map (·.retire interval.start.index)) value space hpos (fun s hs => (hretired s hs).inv)
    (fun s hs => (hretired s hs).granularity_pos hin.config_valid)
    (by rw [length_map]; omega) (by unfold RoomFor; omega)
  have hok : packValue values config liveness st i =
      .ok (st.assign i value interval working' segment offset) :=
    packValue_ok.mpr ⟨value, interval, working', segment, offset, ⟨he, space, hspace, hplace⟩, rfl⟩
  refine ⟨_, hok, packValue_inv hin hnew hsorted inv hok, ?_, ?_⟩
  · have := extents_addActive working' segment value.alignment
      ⟨interval.stop.index, offset, value.bytes⟩
    simp only [map_append, map_cons, map_nil, sum_append, sum_cons,
      sum_nil]
    show extents (working'.modify segment _) ≤ _
    omega
  · rw [length_map] at hlen'
    simp only [PackState.assign, length_modify, length_append, length_cons,
      length_nil]
    omega

end Placement

end EffectTorch
