import EffectTorch.Runtime.Layout

/-!
# Program signatures

`runtime/src/program.rs`, with `ValueSpec::validate` and `ValueSpec::validate_buffer` of
`runtime/src/storage.rs` and the handles of `runtime/src/backend.rs`: what a compiled
program declares of its arguments and how a call is checked against it.
-/

namespace EffectTorch
open Lib

/-! ## Values and their buffers -/

section Checks

variable {ε α : Type}

/-- `if b { return Err(e) }`. -/
def reject (b : Prop) [Decidable b] (e : ε) : Except ε Unit :=
  if b then .error e else .ok ()

/-- `Option::ok_or(e)?`. -/
def orError (x : Option α) (e : ε) : Except ε α :=
  match x with
  | some a => .ok a
  | none => .error e

theorem reject_ok {b : Prop} [Decidable b] {e : ε} {u : Unit} : reject b e = .ok u ↔ ¬ b := by
  unfold reject
  split
  · next h => simp [h]
  · next h => simp [h]

theorem orError_ok {x : Option α} {e : ε} {a : α} : orError x e = .ok a ↔ x = some a := by
  cases x with
  | none => simp [orError]
  | some b => simp [orError]

end Checks

namespace ValueSpec

/-- Checks the representation, the logical dtype, the geometry and the declared layout. -/
def validate (value : ValueSpec) : Except String Unit := do
  let _ ← value.canonicalGeometry
  match value.storage.representation, value.storage.layout with
  | _, .backendPrivate abi => nomatch abi
  | .packed _, .canonical => .ok ()
  | .packed _, _ => .error "storage: packed values require canonical layout"
  | .dense, .denseStrided layout => do
    reject (layout.shape ≠ value.logicalShape)
      "storage: dense layout shape differs from logical shape"
    let _ ← orError (layout.checkedByteSize value.semanticDtype)
      "storage: dense layout byte extent overflows"
    .ok ()
  | .dense, _ => .ok ()

/-- The check of a physical layout against the layout that a value declares. -/
def validateLayout (constraint : StorageLayout) (layout : Layout) : Except String Unit :=
  match constraint with
  | .canonical => reject (layout.isContiguous = false ∨ layout.offset ≠ 0)
      "storage: canonical storage must be contiguous at offset zero"
  | .denseStrided expected => reject (layout ≠ expected)
      "storage: dense strides or offset differ from declared layout"
  | _ => .ok ()

/-- Checks the physical dtype, the layout and the allocation extent of a value. -/
def validateBuffer (value : ValueSpec) (physicalDtype : DType) (layout : Layout)
    (byteLen : Nat) : Except String Unit := do
  value.validate
  let geometry ← value.canonicalGeometry
  reject (physicalDtype ≠ geometry.physicalDtype ∨ layout.shape ≠ geometry.physicalShape)
    "storage: physical dtype or shape does not match representation"
  validateLayout value.storage.layout layout
  let required ← orError (layout.checkedByteSize physicalDtype)
    "storage: physical byte extent overflows"
  reject (byteLen < required ∨
      value.storage.representation ≠ .dense ∧ byteLen ≠ geometry.byteLen)
    ("storage: expected " ++ toString required ++ " bytes, received " ++ toString byteLen)

end ValueSpec

structure RuntimeId where
  id : Nat
deriving DecidableEq, Repr

/-- A device and an optional memory space of it. -/
structure Placement where
  device : String
  memorySpace : Option String
deriving DecidableEq, Repr

/-- A buffer handle. Whoever published it has checked its allocation of `byteLen` bytes,
whose scalars are of type `physicalDtype`, against the value it describes. -/
structure ErasedBuffer where
  runtimeId : RuntimeId
  placement : Placement
  valueSpec : ValueSpec
  layout : Layout
  physicalDtype : DType
  byteLen : Nat
  published : valueSpec.validateBuffer physicalDtype layout byteLen = .ok ()

/-! ## Declarations -/

inductive LayoutConstraint where
  | exact (layout : Layout)
  | contiguous
  | zeroOffsetContiguous
  | anyStrided
deriving DecidableEq, Repr

/-- What happens to the layout of an argument at the call. -/
inductive BindingLayoutPolicy where
  | require (constraint : LayoutConstraint)
  | canonicalize (target : Layout)
deriving DecidableEq, Repr

/-- Declaration of one tensor argument. -/
structure BindingDecl where
  storage : StorageMetadata
  shape : List Nat
  dtype : DType
  placement : Placement
  layout : BindingLayoutPolicy
deriving DecidableEq, Repr

/-- The value contract that callers see. A canonicalization target is not a requirement
on the input. -/
def BindingDecl.valueSpec (decl : BindingDecl) : ValueSpec :=
  let layout : StorageLayout :=
    if decl.storage.representation = .dense then
      match decl.layout with
      | .require (.exact layout) => .denseStrided layout
      | .require .zeroOffsetContiguous => .canonical
      | .require .contiguous | .require .anyStrided | .canonicalize _ => .unconstrained
    else decl.storage.layout
  ⟨decl.dtype, decl.shape, ⟨decl.storage.representation, layout⟩⟩

inductive ScalarType where
  | bool
  | u32
  | i64
  | f32
  | f64
deriving DecidableEq, Repr

/-- A scalar argument; a float is given by its bits. -/
inductive ScalarValue where
  | bool (value : Bool)
  | u32 (value : UInt32)
  | i64 (value : Int64)
  | f32 (bits : UInt32)
  | f64 (value : F64)
deriving DecidableEq

def ScalarValue.scalarType : ScalarValue → ScalarType
  | bool _ => .bool
  | u32 _ => .u32
  | i64 _ => .i64
  | f32 _ => .f32
  | f64 _ => .f64

inductive RuntimeValueKind where
  | u64 (min max : UInt64)
  | u32Array (maxLen : Nat) (elementMin elementMax : UInt32)
deriving DecidableEq

structure RuntimeValueDecl where
  name : String
  kind : RuntimeValueKind
deriving DecidableEq

inductive RuntimeValue where
  | u64 (value : UInt64)
  | u32Array (values : List UInt32)
deriving DecidableEq

/-- Why a runtime value fails its declaration. -/
inductive RuntimeValueError where
  | invalidDeclaration (name : String)
  | kindMismatch (name : String)
  | outOfBounds (name : String) (value min max : UInt64)
  | tooLong (name : String) (len maxLen : Nat)
  | arrayElementOutOfBounds (name : String) (index : Nat) (value min max : UInt32)
deriving DecidableEq

/-- Checks a runtime value against the declared kind and bounds. -/
def RuntimeValueDecl.validate (decl : RuntimeValueDecl) (value : RuntimeValue) :
    Except RuntimeValueError Unit :=
  match decl.kind, value with
  | .u64 min max, .u64 value => do
    reject (max < min) (.invalidDeclaration decl.name)
    reject (value < min ∨ max < value) (.outOfBounds decl.name value min max)
  | .u32Array maxLen elementMin elementMax, .u32Array values => do
    reject (maxLen < values.length) (.tooLong decl.name values.length maxLen)
    reject (elementMax < elementMin) (.invalidDeclaration decl.name)
    values.zipIdx.foldlM (fun _ (value, index) =>
      reject (value < elementMin ∨ elementMax < value)
        (.arrayElementOutOfBounds decl.name index value elementMin elementMax)) ()
  | _, _ => .error (.kindMismatch decl.name)

/-- Scalar, runtime-value and RNG declarations. -/
structure InvocationSignature where
  scalars : List ScalarType
  runtimeValues : List RuntimeValueDecl
  rng : Option Nat
deriving DecidableEq

/-- The calling convention of a compiled program. -/
structure ProgramSignature where
  bindings : List BindingDecl
  invocation : InvocationSignature
deriving DecidableEq

/-- The arguments of one call, with the RNG counters where it has any. -/
structure Invocation where
  bindings : List ErasedBuffer
  scalars : List ScalarValue
  runtimeValues : List RuntimeValue
  rng : Option (List UInt64)

/-! ## Validation -/

/-- Why a call fails its signature. -/
inductive InvocationError where
  | count (kind : String) (expected actual : Nat)
  | invalidOwner (binding : Nat) (expected actual : RuntimeId)
  | dtypeMismatch (binding : Nat) (expected actual : DType)
  | representationMismatch (binding : Nat) (expected actual : StorageRepresentation)
  | invalidStorage (binding : Nat) (reason : String)
  | placementMismatch (binding : Nat)
  | shapeMismatch (binding : Nat)
  | layoutMismatch (binding : Nat)
  | scalarTypeMismatch (scalar : Nat)
  | runtimeValue (runtimeValue : Nat) (source : RuntimeValueError)
  | rngPresence (expected actual : Bool)
  | rngCounterCount (expected actual : Nat)
deriving DecidableEq

def validateCount (kind : String) (expected actual : Nat) : Except InvocationError Unit :=
  reject (expected ≠ actual) (.count kind expected actual)

/-- Whether a layout satisfies the policy of a binding. -/
def BindingLayoutPolicy.matches (policy : BindingLayoutPolicy) (layout : Layout) : Bool :=
  match policy with
  | .require (.exact expected) => decide (layout = expected)
  | .require .contiguous => layout.isContiguous
  | .require .zeroOffsetContiguous => layout.isContiguous && decide (layout.offset = 0)
  | .require .anyStrided | .canonicalize _ => true

/-- The target of a canonicalization, as a value of its own. -/
def BindingDecl.targetSpec (decl : BindingDecl) (target : Layout) : ValueSpec :=
  if decl.storage.representation = .dense then
    { decl.valueSpec with storage := ⟨decl.storage.representation, .denseStrided target⟩ }
  else decl.valueSpec

/-- The check of the target that the backend converts a binding to. -/
def BindingDecl.validateTarget (decl : BindingDecl) (binding : Nat)
    (physicalDtype : DType) : Except InvocationError Unit :=
  match decl.layout with
  | .canonicalize target => do
    let extent ← orError (target.checkedByteSize physicalDtype)
      (.invalidStorage binding "canonicalization target byte extent overflows")
    ((decl.targetSpec target).validateBuffer physicalDtype target extent).mapError
      (.invalidStorage binding)
  | .require _ => .ok ()

/-- The checks of a binding against its declaration. -/
def BindingDecl.validateMetadata (decl : BindingDecl) (binding : Nat) (value : ValueSpec)
    (placement : Placement) (layout : Layout) : Except InvocationError Unit := do
  reject (value.semanticDtype ≠ decl.dtype)
    (.dtypeMismatch binding decl.dtype value.semanticDtype)
  reject (placement ≠ decl.placement) (.placementMismatch binding)
  reject (value.logicalShape ≠ decl.shape) (.shapeMismatch binding)
  reject (value.storage.representation ≠ decl.storage.representation)
    (.representationMismatch binding decl.storage.representation value.storage.representation)
  reject (decl.layout.matches layout = false) (.layoutMismatch binding)
  value.validate.mapError (.invalidStorage binding)
  let geometry ← value.canonicalGeometry.mapError (.invalidStorage binding)
  let extent ← orError (layout.checkedByteSize geometry.physicalDtype)
    (.invalidStorage binding "physical layout byte extent overflows")
  (value.validateBuffer geometry.physicalDtype layout extent).mapError (.invalidStorage binding)
  (decl.valueSpec.validateBuffer geometry.physicalDtype layout extent).mapError
    (.invalidStorage binding)
  decl.validateTarget binding geometry.physicalDtype

namespace ProgramSignature

/-- Checks the counts of the arguments and the presence of RNG state. -/
def validateInvocationCounts (signature : ProgramSignature) (bindings scalars runtimeValues : Nat)
    (rngCounters : Option Nat) : Except InvocationError Unit := do
  validateCount "bindings" signature.bindings.length bindings
  validateCount "scalars" signature.invocation.scalars.length scalars
  validateCount "runtime values" signature.invocation.runtimeValues.length runtimeValues
  match signature.invocation.rng, rngCounters with
  | none, none => .ok ()
  | some expected, some actual =>
    reject (actual ≠ expected) (.rngCounterCount expected actual)
  | expected, actual => .error (.rngPresence expected.isSome actual.isSome)

/-- Checks what a binding says of itself, without its buffer. -/
def validateBindingMetadata (signature : ProgramSignature) (binding : Nat) (value : ValueSpec)
    (placement : Placement) (layout : Layout) : Except InvocationError Unit :=
  match signature.bindings[binding]? with
  | none => .error (.count "bindings" signature.bindings.length (min (binding + 1) usizeMax))
  | some decl => decl.validateMetadata binding value placement layout

def validateScalarMetadata (signature : ProgramSignature) (scalar : Nat)
    (scalarType : ScalarType) : Except InvocationError Unit :=
  match signature.invocation.scalars[scalar]? with
  | none => .error (.count "scalars" signature.invocation.scalars.length
      (min (scalar + 1) usizeMax))
  | some declared => reject (declared ≠ scalarType) (.scalarTypeMismatch scalar)

def validateRuntimeValueMetadata (signature : ProgramSignature) (runtimeValue : Nat)
    (value : RuntimeValue) : Except InvocationError Unit :=
  match signature.invocation.runtimeValues[runtimeValue]? with
  | none => .error (.count "runtime values" signature.invocation.runtimeValues.length
      (min (runtimeValue + 1) usizeMax))
  | some decl => (decl.validate value).mapError (.runtimeValue runtimeValue)

/-- The owner and the metadata of one buffer. -/
def validateBinding (signature : ProgramSignature) (runtime : RuntimeId)
    (entry : ErasedBuffer × Nat) : Except InvocationError Unit := do
  reject (entry.1.runtimeId ≠ runtime) (.invalidOwner entry.2 runtime entry.1.runtimeId)
  signature.validateBindingMetadata entry.2 entry.1.valueSpec entry.1.placement entry.1.layout

/-- Checks counts, buffer owners, binding metadata, scalar types and runtime values. -/
def validateInvocation (signature : ProgramSignature) (runtime : RuntimeId)
    (invocation : Invocation) : Except InvocationError Unit := do
  signature.validateInvocationCounts invocation.bindings.length invocation.scalars.length
    invocation.runtimeValues.length (invocation.rng.map List.length)
  invocation.bindings.zipIdx.foldlM (fun _ entry => signature.validateBinding runtime entry) ()
  invocation.scalars.zipIdx.foldlM (fun _ entry =>
    signature.validateScalarMetadata entry.2 entry.1.scalarType) ()
  invocation.runtimeValues.zipIdx.foldlM (fun _ entry =>
    signature.validateRuntimeValueMetadata entry.2 entry.1) ()

end ProgramSignature

end EffectTorch
