import EffectTorch.Lib.Fault
import Mathlib

/-!
# Dense ids and memory plans

`runtime/src/dense.rs` and `runtime/src/memory.rs`: the ids of the compiler's
flat tables, the plan that the compiler hands to a backend, and the checks of
`MemoryPlan::validate`. `usize` is 64 bits wide; a `usize` is a `Nat` and each
checked operation tests the bound.
-/

namespace EffectTorch
open Option Lib

/-! ## Machine integers -/

/-- `usize::MAX`. -/
def usizeMax : Nat := 2 ^ 64 - 1

/-- `u32::MAX`. -/
def u32Max : Nat := 2 ^ 32 - 1

/-- `usize::checked_add`. -/
def checkedAdd (a b : Nat) : Option Nat :=
  if a + b ≤ usizeMax then some (a + b) else none

/-- `usize::checked_sub`. -/
def checkedSub (a b : Nat) : Option Nat :=
  if b ≤ a then some (a - b) else none

theorem checkedAdd_some {a b c : Nat} : checkedAdd a b = some c ↔ a + b ≤ usizeMax ∧ c = a + b := by
  unfold checkedAdd
  split
  · next h => simp [h, eq_comm]
  · next h => simp [h]

theorem checkedAdd_of_le {a b : Nat} (h : a + b ≤ usizeMax) : checkedAdd a b = some (a + b) :=
  if_pos h

theorem checkedSub_of_le {a b : Nat} (h : b ≤ a) : checkedSub a b = some (a - b) :=
  if_pos h

/-- `usize::is_power_of_two`. -/
def isPowerOfTwo (n : Nat) : Bool :=
  n != 0 && 2 ^ n.log2 == n

theorem isPowerOfTwo_iff {n : Nat} : isPowerOfTwo n = true ↔ ∃ k, n = 2 ^ k := by
  unfold isPowerOfTwo
  rw [Bool.and_eq_true, bne_iff_ne, beq_iff_eq]
  constructor
  · rintro ⟨_, h⟩
    exact ⟨n.log2, h.symm⟩
  · rintro ⟨k, rfl⟩
    exact ⟨Nat.ne_of_gt (Nat.two_pow_pos k), by rw [Nat.log2_two_pow]⟩

/-! ## Dense ids -/

/-- Names entry `index` of the value table. -/
structure ValueId where
  index : Nat
deriving DecidableEq, Repr

/-- Names entry `index` of the instruction table. -/
structure InstructionId where
  index : Nat
deriving DecidableEq, Repr

/-- Names entry `index` of a plan's segment table. -/
structure SegmentId where
  index : Nat
deriving DecidableEq, Repr

/-- Names entry `index` of a plan's location table. -/
structure LocationId where
  index : Nat
deriving DecidableEq, Repr

/-- Names entry `index` of a program's output table. -/
structure OutputId where
  index : Nat
deriving DecidableEq, Repr

/-- `u32::try_from(index).ok()`. -/
def denseIndex (index : Nat) : Option Nat :=
  if index ≤ u32Max then some index else none

def ValueId.fromIndex (index : Nat) : Option ValueId := (denseIndex index).map .mk
def InstructionId.fromIndex (index : Nat) : Option InstructionId := (denseIndex index).map .mk
def SegmentId.fromIndex (index : Nat) : Option SegmentId := (denseIndex index).map .mk
def LocationId.fromIndex (index : Nat) : Option LocationId := (denseIndex index).map .mk

theorem denseIndex_some {i j : Nat} : denseIndex i = some j ↔ i ≤ u32Max ∧ j = i := by
  unfold denseIndex
  split
  · next h => simp [h, eq_comm]
  · next h => simp [h]

theorem ValueId.fromIndex_some {i : Nat} {v : ValueId} :
    ValueId.fromIndex i = some v ↔ i ≤ u32Max ∧ v = ⟨i⟩ := by
  simp [ValueId.fromIndex, map_eq_some_iff, denseIndex_some, eq_comm]

theorem InstructionId.fromIndex_some {i : Nat} {v : InstructionId} :
    InstructionId.fromIndex i = some v ↔ i ≤ u32Max ∧ v = ⟨i⟩ := by
  simp [InstructionId.fromIndex, map_eq_some_iff, denseIndex_some, eq_comm]

theorem SegmentId.fromIndex_some {i : Nat} {v : SegmentId} :
    SegmentId.fromIndex i = some v ↔ i ≤ u32Max ∧ v = ⟨i⟩ := by
  simp [SegmentId.fromIndex, map_eq_some_iff, denseIndex_some, eq_comm]

theorem LocationId.fromIndex_some {i : Nat} {v : LocationId} :
    LocationId.fromIndex i = some v ↔ i ≤ u32Max ∧ v = ⟨i⟩ := by
  simp [LocationId.fromIndex, map_eq_some_iff, denseIndex_some, eq_comm]

/-! ## Memory plans -/

/-- Allocation lifecycle category used by the memory report. -/
inductive StorageClass where
  | externalInput
  | persistentConstant
  | persistentState
  | escapingOutput
  | workspace
  | deviceStatus
deriving DecidableEq, Repr

/-- Who controls the lifetime of a segment. -/
inductive SegmentOwnership where
  | workspace
  | provisionalOutput
  | invocationStaging
  | stateTransaction
deriving DecidableEq, Repr

/-- One flat segment that a backend must allocate. -/
structure SegmentDecl (M : Type) where
  bytes : Nat
  alignment : Nat
  memorySpace : M
  ownership : SegmentOwnership
deriving DecidableEq, Repr

/-- Where a value's bytes live. -/
inductive Location where
  | external (slot : Nat)
  | persistent (slot : Nat)
  | inlineScalar (slot : Nat)
  | segment (segment : SegmentId) (offset bytes : Nat)
  | output (slot : OutputId) (byteOffset bytes : Nat)
  | state (slot byteOffset bytes : Nat)
  | aliasOf (root : ValueId) (byteOffset : Nat)
deriving DecidableEq, Repr

/-- Binds an output value to its destination location. -/
structure OutputSlot where
  value : ValueId
  location : LocationId
deriving DecidableEq, Repr

/-- After instruction `after`, `nextValue` may reuse the storage of
`previousValue`; it is written before instruction `before`. -/
structure ReuseEdge where
  previousValue : ValueId
  nextValue : ValueId
  after : InstructionId
  before : InstructionId
deriving DecidableEq, Repr

/-- One named allocation in a memory report. -/
structure AllocationReport where
  name : String
  storageClass : StorageClass
  bytes : Nat
deriving DecidableEq, Repr

/-- Per-executable memory totals grouped by storage role. -/
structure MemoryReport where
  externalBytes : Nat := 0
  persistentBytes : Nat := 0
  stateBytes : Nat := 0
  outputBytes : Nat := 0
  workspaceBytes : Nat := 0
  transactionBytes : Nat := 0
  peakLiveBytes : Nat := 0
  packingOverheadBytes : Nat := 0
  largestAllocations : List AllocationReport := []
deriving DecidableEq, Repr

/-- The static memory plan of a compiled executable. -/
structure MemoryPlan (M : Type) where
  segments : List (SegmentDecl M)
  locations : List Location
  outputs : List OutputSlot
  reuseEdges : List ReuseEdge
  report : MemoryReport
deriving DecidableEq, Repr

/-- Why a plan failed validation. -/
inductive MemoryPlanError where
  | tooManySegments
  | tooManyLocations
  | byteSizeOverflow
  | invalidAlignment (segment : SegmentId) (alignment : Nat)
  | unknownSegment (location : LocationId) (segment : SegmentId)
  | locationOutOfBounds (location : LocationId) (segment : SegmentId) (stop capacity : Nat)
  | unknownOutputLocation (output : ValueId) (location : LocationId)
deriving DecidableEq, Repr

/-- `Display` of a plan error. -/
def MemoryPlanError.display : MemoryPlanError → String
  | .tooManySegments => "memory plan has too many segments"
  | .tooManyLocations => "memory plan has too many locations"
  | .byteSizeOverflow => "memory plan byte size overflow"
  | .invalidAlignment segment alignment =>
    "segment " ++ toString segment.index ++ " has invalid alignment " ++ toString alignment
  | .unknownSegment location segment =>
    "location " ++ toString location.index ++ " references unknown segment " ++
      toString segment.index
  | .locationOutOfBounds location segment stop capacity =>
    "location " ++ toString location.index ++ " ends at " ++ toString stop ++ " in segment " ++
      toString segment.index ++ " with capacity " ++ toString capacity
  | .unknownOutputLocation output location =>
    "output value " ++ toString output.index ++ " references unknown location " ++
      toString location.index

namespace MemoryPlan

variable {M : Type}

/-- Total capacity of all segments, or `none` on overflow. -/
def checkedSegmentBytes (segments : List (SegmentDecl M)) : Option Nat :=
  segments.foldlM (fun total segment => checkedAdd total segment.bytes) 0

/-- The alignment check of one segment. -/
def validateSegment (entry : SegmentDecl M × Nat) : Fallible MemoryPlanError Unit := do
  let (segment, index) := entry
  if segment.alignment = 0 ∨ ¬ isPowerOfTwo segment.alignment then
    let id ← okOr (SegmentId.fromIndex index) .tooManySegments
    fail (.invalidAlignment id segment.alignment)

/-- The bounds check of one location. -/
def validateLocation (segments : List (SegmentDecl M)) (entry : Location × Nat) :
    Fallible MemoryPlanError Unit := do
  match entry.1 with
  | .segment segment offset bytes =>
    match segments[segment.index]? with
    | none =>
      let id ← okOr (LocationId.fromIndex entry.2) .tooManyLocations
      fail (.unknownSegment id segment)
    | some decl =>
      let stop ← okOr (checkedAdd offset bytes) .byteSizeOverflow
      if decl.bytes < stop then
        let id ← okOr (LocationId.fromIndex entry.2) .tooManyLocations
        fail (.locationOutOfBounds id segment stop decl.bytes)
  | _ => pure ()

/-- The reference check of one output slot. -/
def validateOutput (locations : List Location) (output : OutputSlot) :
    Fallible MemoryPlanError Unit :=
  rejectIf (locations[output.location.index]? = none)
    (.unknownOutputLocation output.value output.location)

/-- Checks segment alignments, the total of the segment bytes, the bounds of
segment-backed locations and the references of the output slots. -/
def validate (plan : MemoryPlan M) : Fallible MemoryPlanError Unit := do
  plan.segments.zipIdx.foldlM (fun _ entry => validateSegment entry) ()
  let _ ← okOr (checkedSegmentBytes plan.segments) .byteSizeOverflow
  plan.locations.zipIdx.foldlM (fun _ entry => validateLocation plan.segments entry) ()
  plan.outputs.foldlM (fun _ output => validateOutput plan.locations output) ()

end MemoryPlan

end EffectTorch
