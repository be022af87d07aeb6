import EffectTorch.Runtime.Memory

/-!
# Lowered programs

`compiler/src/lowered.rs`: the value and instruction tables between graph
optimization and memory planning, and the structural validation that opens
`compiler/src/planner.rs`. The planner reads a backend's value record only
through `value_decl`, so the value table holds the declarations themselves.
-/

namespace EffectTorch
open List Lib

/-! ## Values and instructions -/

/-- How an instruction accesses one value. -/
inductive ValueAccess where
  | read
  | write
  | readWrite
deriving DecidableEq, Repr

def ValueAccess.reads : ValueAccess → Bool
  | .read | .readWrite => true
  | .write => false

def ValueAccess.writes : ValueAccess → Bool
  | .write | .readWrite => true
  | .read => false

/-- One declared use of a value by an instruction. -/
structure ValueUse where
  value : ValueId
  access : ValueAccess
deriving DecidableEq, Repr

namespace ValueUse

def read (value : ValueId) : ValueUse := ⟨value, .read⟩
def write (value : ValueId) : ValueUse := ⟨value, .write⟩
def readWrite (value : ValueId) : ValueUse := ⟨value, .readWrite⟩

end ValueUse

/-- Names a value defined by an instruction. -/
structure OutputDecl where
  value : ValueId
deriving DecidableEq, Repr

/-- Effects with no declared value use. -/
structure InstructionEffects where
  mayFail : Bool := false
  hasSideEffects : Bool := false
deriving DecidableEq, Repr

/-- Storage of a value: placed by the backend, packed by the planner, or a view
into another value. -/
inductive ValueStorage (M : Type) where
  | fixed (storageClass : StorageClass) (location : Location)
  | planned (storageClass : StorageClass) (alignment : Nat) (memorySpace : M)
      (ownership : SegmentOwnership)
  | aliasOf (source : ValueId) (byteOffset : Nat)
deriving DecidableEq, Repr

namespace ValueStorage

variable {M : Type}

def isPlanned : ValueStorage M → Bool
  | .planned .. => true
  | _ => false

def isAlias : ValueStorage M → Bool
  | .aliasOf .. => true
  | _ => false

end ValueStorage

/-- A lowered value's dense id, diagnostic name, byte size and storage. -/
structure ValueDecl (M : Type) where
  id : ValueId
  name : String
  bytes : Nat
  storage : ValueStorage M
deriving DecidableEq, Repr

namespace ValueDecl

variable {M : Type}

/-- A workspace value that the planner packs into a segment of `memorySpace`. -/
def planned (id : ValueId) (name : String) (bytes alignment : Nat) (memorySpace : M)
    (ownership : SegmentOwnership) : ValueDecl M :=
  ⟨id, name, bytes, .planned .workspace alignment memorySpace ownership⟩

/-- A view of `bytes` bytes into `source` at `byteOffset`. -/
def aliasOf (id : ValueId) (name : String) (source : ValueId) (byteOffset bytes : Nat) :
    ValueDecl M :=
  ⟨id, name, bytes, .aliasOf source byteOffset⟩

end ValueDecl

/-- A backend-lowered instruction with its resource categories. -/
structure LoweredInstruction (K : Type) where
  id : InstructionId
  kind : K
  inputs : List ValueUse := []
  outputs : List OutputDecl := []
  scratch : List ValueUse := []
  staging : List ValueUse := []
  status : List ValueUse := []
  state : List ValueUse := []
  effects : InstructionEffects := {}
deriving DecidableEq, Repr

/-- All values touched by an instruction. Outputs are defining writes. -/
def LoweredInstruction.resourceUses {K : Type} (i : LoweredInstruction K) : List ValueUse :=
  i.inputs ++ i.outputs.map (fun output => ValueUse.write output.value) ++ i.scratch ++
    i.staging ++ i.status ++ i.state

/-- The compiler IR that planning and execution read. -/
structure LoweredProgram (K M : Type) where
  values : List (ValueDecl M)
  instructions : List (LoweredInstruction K)
  outputs : List ValueId

/-! ## Planner errors -/

/-- Structural failures from validation, liveness and packing. -/
inductive PlannerError where
  | tooManyValues
  | tooManyInstructions
  | tooManyLocations
  | tooManySegments
  | valueIdMismatch (index : Nat) (actual : ValueId)
  | instructionIdMismatch (index : Nat) (actual : InstructionId)
  | unknownValue (instruction : Option InstructionId) (value : ValueId)
  | aliasCycle (value : ValueId)
  | aliasOutOfBounds (value source : ValueId) (stop capacity : Nat)
  | byteSizeOverflow (value : Option ValueId)
  | invalidValueAlignment (value : ValueId) (alignment : Nat)
  | invalidMemorySpaceConfig (index : Nat)
  | duplicateMemorySpaceConfig (first second : Nat)
  | missingMemorySpaceConfig (value : ValueId)
  | valueTooLarge (value : ValueId) (bytes requiredSegmentBytes maxSegmentBytes : Nat)
  | readBeforeDefinition (value : ValueId) (read definition : InstructionId)
  | undefinedPlannedValue (value : ValueId)
  | packingConflict (first second : ValueId)
  | invalidMemoryPlan (message : String)
deriving DecidableEq, Repr

/-- `Display` of a planner error. -/
def PlannerError.display : PlannerError → String
  | .tooManyValues => "lowered schedule has too many values"
  | .tooManyInstructions => "lowered schedule has too many instructions"
  | .tooManyLocations => "lowered schedule has too many locations"
  | .tooManySegments => "memory plan has too many segments"
  | .valueIdMismatch index actual =>
    "value table entry " ++ toString index ++ " has dense id " ++ toString actual.index
  | .instructionIdMismatch index actual =>
    "instruction table entry " ++ toString index ++ " has dense id " ++ toString actual.index
  | .unknownValue (some instruction) value =>
    "instruction " ++ toString instruction.index ++ " references unknown value " ++
      toString value.index
  | .unknownValue none value =>
    "lowered schedule references unknown value " ++ toString value.index
  | .aliasCycle value => "alias cycle contains value " ++ toString value.index
  | .aliasOutOfBounds value source stop capacity =>
    "alias value " ++ toString value.index ++ " ends at byte " ++ toString stop ++ " in value " ++
      toString source.index ++ " with capacity " ++ toString capacity
  | .byteSizeOverflow (some value) =>
    "byte size overflow while planning value " ++ toString value.index
  | .byteSizeOverflow none => "byte size overflow while constructing memory report"
  | .invalidValueAlignment value alignment =>
    "value " ++ toString value.index ++ " has invalid alignment " ++ toString alignment
  | .invalidMemorySpaceConfig index =>
    "memory-space configuration " ++ toString index ++ " is invalid"
  | .duplicateMemorySpaceConfig first second =>
    "memory-space configurations " ++ toString first ++ " and " ++ toString second ++
      " name the same space"
  | .missingMemorySpaceConfig value =>
    "value " ++ toString value.index ++ " has no memory-space configuration"
  | .valueTooLarge value bytes required maximum =>
    "value " ++ toString value.index ++ " requires " ++ toString bytes ++ " bytes (" ++
      toString required ++ " after segment rounding), exceeding segment maximum " ++
      toString maximum
  | .readBeforeDefinition value read definition =>
    "value " ++ toString value.index ++ " is read by instruction " ++ toString read.index ++
      " before definition at instruction " ++ toString definition.index
  | .undefinedPlannedValue value =>
    "planned value " ++ toString value.index ++ " has no defining write"
  | .packingConflict first second =>
    "live values " ++ toString first.index ++ " and " ++ toString second.index ++
      " overlap in one segment slice"
  | .invalidMemoryPlan message => "invalid memory plan: " ++ message

/-! ## Structural validation -/

section Validation

variable {K M : Type}

/-- One entry of the value table carries its own index. -/
def validateDenseValue (entry : ValueDecl M × Nat) : Fallible PlannerError Unit := do
  let expected ← okOr (ValueId.fromIndex entry.2) .tooManyValues
  rejectIf (entry.1.id ≠ expected) (.valueIdMismatch entry.2 entry.1.id)

def validateDenseValues (values : List (ValueDecl M)) : Fallible PlannerError Unit :=
  values.zipIdx.foldlM (fun _ entry => validateDenseValue entry) ()

/-- An alias names a value of the table. -/
def validateAliasSource (values : List (ValueDecl M)) (value : ValueDecl M) :
    Fallible PlannerError Unit :=
  match value.storage with
  | .aliasOf source _ => rejectIf (values[source.index]? = none) (.unknownValue none source)
  | _ => pure ()

/-- One entry of the instruction table carries its own index and names values of
the table. -/
def validateInstruction (values : List (ValueDecl M)) (entry : LoweredInstruction K × Nat) :
    Fallible PlannerError Unit := do
  let expected ← okOr (InstructionId.fromIndex entry.2) .tooManyInstructions
  rejectIf (entry.1.id ≠ expected) (.instructionIdMismatch entry.2 entry.1.id)
  entry.1.resourceUses.foldlM (fun _ valueUse =>
    rejectIf (values[valueUse.value.index]? = none)
      (.unknownValue (some entry.1.id) valueUse.value)) ()

/-- `validate_lowered_program`. -/
def validateLoweredProgram (schedule : LoweredProgram K M) : Fallible PlannerError Unit := do
  validateDenseValues schedule.values
  schedule.values.foldlM (fun _ value => validateAliasSource schedule.values value) ()
  schedule.instructions.zipIdx.foldlM
    (fun _ entry => validateInstruction schedule.values entry) ()
  schedule.outputs.foldlM (fun _ output =>
    rejectIf (schedule.values[output.index]? = none) (.unknownValue none output)) ()

/-! ### What validation accepts -/

/-- The value table is dense: entry `i` has id `i`, and `i` fits the id type. -/
def DenseValues (values : List (ValueDecl M)) : Prop :=
  ∀ i v, values[i]? = some v → v.id = ⟨i⟩ ∧ i ≤ u32Max

/-- Every reference of the program stays inside its tables, and the tables are
dense. -/
structure WellFormed (schedule : LoweredProgram K M) : Prop where
  values_dense : DenseValues schedule.values
  alias_known : ∀ v ∈ schedule.values, ∀ source offset, v.storage = .aliasOf source offset →
    source.index < schedule.values.length
  instructions_dense : ∀ i ins, schedule.instructions[i]? = some ins →
    ins.id = ⟨i⟩ ∧ i ≤ u32Max
  uses_known : ∀ ins ∈ schedule.instructions, ∀ u ∈ ins.resourceUses,
    u.value.index < schedule.values.length
  outputs_known : ∀ o ∈ schedule.outputs, o.index < schedule.values.length

theorem validateDenseValue_ok {v : ValueDecl M} {i : Nat} {u : Unit} :
    validateDenseValue (v, i) = .ok u ↔ v.id = ⟨i⟩ ∧ i ≤ u32Max := by
  unfold validateDenseValue
  rw [bind_ok]
  constructor
  · rintro ⟨expected, h1, h2⟩
    obtain ⟨hle, rfl⟩ := ValueId.fromIndex_some.mp (okOr_ok.mp h1)
    exact ⟨by simpa using rejectIf_ok.mp h2, hle⟩
  · rintro ⟨hid, hle⟩
    exact ⟨⟨i⟩, okOr_ok.mpr (ValueId.fromIndex_some.mpr ⟨hle, rfl⟩),
      rejectIf_ok.mpr (by simpa using hid)⟩

theorem validateDenseValues_ok {values : List (ValueDecl M)} {u : Unit} :
    validateDenseValues values = .ok u ↔ DenseValues values := by
  unfold validateDenseValues DenseValues
  rw [foldlM_check]
  constructor
  · intro h i v hv
    exact validateDenseValue_ok.mp (h (v, i) (mk_mem_zipIdx_iff_getElem?.mpr hv))
  · rintro h ⟨v, i⟩ hm
    exact validateDenseValue_ok.mpr (h i v (mk_mem_zipIdx_iff_getElem?.mp hm))

theorem getElem?_known {α : Type} {l : List α} {i : Nat} : ¬ l[i]? = none ↔ i < l.length := by
  simp

theorem validateAliasSource_ok {values : List (ValueDecl M)} {v : ValueDecl M} :
    validateAliasSource values v = .ok () ↔
      ∀ source offset, v.storage = .aliasOf source offset → source.index < values.length := by
  unfold validateAliasSource
  cases hs : v.storage with
  | fixed c l => simp [pure, Except.pure]
  | planned c a m o => simp [pure, Except.pure]
  | aliasOf source offset =>
    dsimp only
    rw [rejectIf_ok, getElem?_known]
    simp

theorem validateInstruction_ok {values : List (ValueDecl M)} {ins : LoweredInstruction K}
    {i : Nat} :
    validateInstruction values (ins, i) = .ok () ↔
      (ins.id = ⟨i⟩ ∧ i ≤ u32Max) ∧ ∀ u ∈ ins.resourceUses, u.value.index < values.length := by
  unfold validateInstruction
  simp only [bind_ok, foldlM_check, rejectIf_ok, getElem?_known, okOr_ok,
    InstructionId.fromIndex_some]
  constructor
  · rintro ⟨_, ⟨hle, rfl⟩, _, hid, hu⟩
    exact ⟨⟨by simpa using hid, hle⟩, hu⟩
  · rintro ⟨⟨hid, hle⟩, hu⟩
    exact ⟨⟨i⟩, ⟨hle, rfl⟩, (), by simpa using hid, hu⟩

/-- Validation accepts exactly the well-formed programs. -/
theorem validateLoweredProgram_ok {schedule : LoweredProgram K M} {u : Unit} :
    validateLoweredProgram schedule = .ok u ↔ WellFormed schedule := by
  unfold validateLoweredProgram
  simp only [bind_ok, foldlM_check, rejectIf_ok, getElem?_known, validateDenseValues_ok,
    validateAliasSource_ok]
  constructor
  · rintro ⟨_, hv, _, ha, _, hi, ho⟩
    have hins : ∀ i ins, schedule.instructions[i]? = some ins →
        (ins.id = ⟨i⟩ ∧ i ≤ u32Max) ∧
          ∀ u ∈ ins.resourceUses, u.value.index < schedule.values.length :=
      fun i ins h => validateInstruction_ok.mp (hi (ins, i) (mk_mem_zipIdx_iff_getElem?.mpr h))
    refine ⟨hv, ha, fun i ins h => (hins i ins h).1, fun ins hm => ?_, ho⟩
    obtain ⟨i, hlt, h⟩ := mem_iff_getElem.mp hm
    exact (hins i ins (by rw [List.getElem?_eq_getElem hlt, h])).2
  · intro h
    refine ⟨(), h.values_dense, (), h.alias_known, (), ?_, h.outputs_known⟩
    rintro ⟨ins, i⟩ hm
    have hi := mk_mem_zipIdx_iff_getElem?.mp hm
    exact validateInstruction_ok.mpr
      ⟨h.instructions_dense i ins hi, h.uses_known ins (mem_of_getElem? hi)⟩

end Validation

end EffectTorch
