import EffectTorch.Cpu.Destination

/-!
# Indexing

`runtime-cpu/src/indexing.rs`: `gather`, `index_select`, `scatter_add` and `cat` with their
requirement checks, and `source_index` and `copy_strided` of `runtime-cpu/src/tensor.rs`. The data
tensors of an operation have one element type, so that their dtypes need no check. Products of
extents that only bound a loop are counted without a bound, and so are addresses, which lie in a
buffer. Integer sums wrap.
-/

namespace EffectTorch
open Lib

/-! ## Tensors -/

namespace CpuBuffer

def dtype : CpuBuffer → DType
  | f32 _ => .f32
  | f64 _ => .f64
  | f16 _ => .f16
  | bf16 _ => .bf16
  | u8 _ => .u8
  | u32 _ => .u32
  | i64 _ => .i64

end CpuBuffer

/-- A tensor whose buffer holds elements of one type. -/
structure TypedTensor (T : Type) where
  values : List T
  layout : Layout
  fits : layout.Fits values.length

namespace TypedTensor

variable {T : Type}

def shape (t : TypedTensor T) : List Nat := t.layout.shape

/-- The element at a coordinate. -/
def at? (t : TypedTensor T) (c : List Nat) : Option T := t.values[t.layout.address c]?

end TypedTensor

/-- `numel`. -/
def Layout.numel {ε : Type} (l : Layout) : Fallible ε Nat :=
  expect l.checkedNumel "layout element count overflow"

/-- `source_index`. -/
def Layout.sourceIndex (l : Layout) (outputIndex : Nat) : Nat :=
  if l.isContiguous then l.offset + outputIndex
  else (odometer (fun dimension => max (l.shape.getD dimension 0) 1) (l.strides.getD · 0) (List.range l.rank) l.offset
    outputIndex).1

/-- `copy_strided` into a slice of `len` elements. -/
def copyStrided {ε T : Type} (src : List T) (l : Layout) (len : Nat) : Fallible ε (List T) :=
  if l.isContiguous then do
    let numel ← l.numel
    if src.length < l.offset + numel then .error (.panic ("range end index " ++ toString (l.offset + numel) ++
      " out of range for slice of length " ++ toString src.length))
    else if numel ≠ len then .error (.panic "copy_from_slice: source slice length does not match destination slice length")
    else .ok ((src.drop l.offset).take numel)
  else (List.range len).mapM fun outputIndex => readAt src (l.sourceIndex outputIndex)

/-- Runs `write` on a destination of the shape `shape`. -/
def CpuDestination.write {T : Type} [CpuElem T] (d : CpuDestination T) (operation : String) (shape : List Nat)
    (write : List T → Fallible String (List T)) : Fallible String (List T) := do
  rejectIf (d.shape ≠ shape) (operation ++ " destination shape mismatch: expected " ++ toString shape ++ ", got " ++
    toString d.shape)
  d.writeCurrent operation write

/-! ## Requirements -/

/-- Exact shape, dtype, byte size, and alignment required for one tensor. -/
structure CpuTensorRequirement where
  shape : List Nat
  dtype : DType
  bytes : Nat
  alignment : Nat
deriving DecidableEq, Repr

def cpuStorageAlignment : Nat := 64

/-- Execution strategy: the number of output sweeps. -/
inductive IndexingTopology where
  | direct (passes : Nat)
deriving DecidableEq, Repr

structure IndexingRequirements where
  output : CpuTensorRequirement
  ids : Option CpuTensorRequirement
  scratch : List CpuTensorRequirement
  topology : IndexingTopology
  inputLayouts : List Layout
  dim : Nat

/-- `CpuTensorRequirement::new` after the checks of `checked_requirement`, which are the same. -/
def checkedRequirement (shape : List Nat) (dtype : DType) (operation : String) : Fallible String CpuTensorRequirement := do
  let bytes ← okOr ((shape.foldlM checkedMul 1).bind (checkedMul · dtype.sizeInBytes))
    (operation ++ ": output byte size overflow")
  .ok ⟨shape, dtype, bytes, cpuStorageAlignment⟩

def validateIndices (ids : Tensor) (operation : String) : Fallible String Unit :=
  match ids.buffer with
  | .u8 _ | .u32 _ | .i64 _ => .ok ()
  | buffer => fail (operation ++ ": indices must be u8/u32/i64, got " ++ buffer.dtype.name)

def validateDimension (shape : List Nat) (dim : Nat) (operation : String) : Fallible String Unit :=
  rejectIf (shape.length ≤ dim) (operation ++ ": dimension " ++ toString dim ++ " is out of bounds for rank " ++
    toString shape.length)

/-- The extents off the dimension are at most those of the input. -/
def validateExtents (extents shape : List Nat) (dim : Nat) (message : String) : Fallible String Unit :=
  (List.range shape.length).foldlM (fun _ dimension =>
    rejectIf (dimension ≠ dim ∧ shape.getD dimension 0 < extents.getD dimension 0) (message ++ toString dimension)) ()

/-! ## Indexes -/

def indexAt (ids : Tensor) (linear : Nat) (operation : String) : Fallible String Nat :=
  let index := ids.layout.sourceIndex linear
  match ids.buffer with
  | .u8 values => do
    let value ← readAt values index
    .ok value.toNat
  | .u32 values => do
    let value ← readAt values index
    .ok value.toNat
  | .i64 values => do
    let value ← readAt values index
    if value.toInt < 0 then fail (operation ++ ": negative index " ++ toString value.toInt) else .ok value.toInt.toNat
  | buffer => fail (operation ++ ": indices must be u8/u32/i64, got " ++ buffer.dtype.name)

/-- An index and its check against the extent that it addresses. -/
def checkedIndex (ids : Tensor) (linear : Nat) (operation : String) (extent : Nat) : Fallible String Nat := do
  let id ← indexAt ids linear operation
  rejectIf (extent ≤ id) (operation ++ ": index " ++ toString id ++ " is out of bounds for extent " ++ toString extent)
  .ok id

section Kernels

variable {T : Type} [CpuElem T]

/-! ## `gather` -/

/-- The checks that `gather_requirements` and `gather_into` both make. -/
def validateGather (shape : List Nat) (dim : Nat) (ids : Tensor) : Fallible String Unit := do
  validateDimension shape dim "gather"
  validateIndices ids "gather"
  rejectIf (ids.layout.shape.length ≠ shape.length) ("gather: index rank " ++ toString ids.layout.shape.length ++
    " does not match input rank " ++ toString shape.length)
  validateExtents ids.layout.shape shape dim "gather: index extent exceeds input extent at dimension "

def gatherRequirements (tensor : TypedTensor T) (dim : Nat) (ids : Tensor) : Fallible String IndexingRequirements := do
  validateGather tensor.shape dim ids
  let output ← checkedRequirement ids.layout.shape (CpuElem.dtype T) "gather"
  .ok ⟨output, none, [], .direct 1, [tensor.layout, ids.layout], dim⟩

/-- The loop that finds the element of an output index: its components, with the index along `dim`. -/
def gatherIndex (layout : Layout) (idsShape : List Nat) (dim id linear : Nat) : Nat :=
  ((List.range layout.rank).foldr (fun dimension (inputIndex, remainder) =>
    let width := max (idsShape.getD dimension 0) 1
    let coordinate := if dimension = dim then id else remainder % width
    (inputIndex + coordinate * layout.strides.getD dimension 0, remainder / width)) (layout.offset, linear)).1

def gatherInto (tensor : TypedTensor T) (dim : Nat) (ids : Tensor) (destination : CpuDestination T) :
    Fallible String (List T) := do
  validateGather tensor.shape dim ids
  destination.write "gather" ids.layout.shape fun output =>
    (List.range output.length).mapM fun linear => do
      let id ← checkedIndex ids linear "gather" (tensor.shape.getD dim 0)
      readAt tensor.values (gatherIndex tensor.layout ids.layout.shape dim id linear)

/-! ## `index_select` -/

def indexSelectRequirements (tensor : TypedTensor T) (dim : Nat) (ids : Tensor) : Fallible String IndexingRequirements := do
  validateDimension tensor.shape dim "index_select"
  validateIndices ids "index_select"
  let numel ← ids.layout.numel
  let output ← checkedRequirement (tensor.shape.set dim numel) (CpuElem.dtype T) "index_select"
  .ok ⟨output, none, [], .direct 1, [tensor.layout, ids.layout], dim⟩

/-- One dimension of the loop that finds the element of an output index. -/
def indexSelectStep (tensor : TypedTensor T) (dim : Nat) (ids : Tensor) (outputShape : List Nat) (dimension : Nat)
    (state : Nat × Nat) : Fallible String (Nat × Nat) :=
  let width := max (outputShape.getD dimension 0) 1
  let coordinate := state.2 % width
  let remainder := state.2 / width
  let stride := tensor.layout.strides.getD dimension 0
  if dimension = dim then do
    let id ← checkedIndex ids coordinate "index_select" (tensor.shape.getD dim 0)
    .ok (state.1 + id * stride, remainder)
  else .ok (state.1 + coordinate * stride, remainder)

def indexSelectInto (tensor : TypedTensor T) (dim : Nat) (ids : Tensor) (destination : CpuDestination T) :
    Fallible String (List T) := do
  validateDimension tensor.shape dim "index_select"
  validateIndices ids "index_select"
  rejectIf (destination.shape.length ≠ tensor.shape.length) ("index_select destination rank mismatch: expected " ++
    toString tensor.shape.length ++ ", got " ++ toString destination.shape.length)
  (List.range tensor.shape.length).foldlM (fun _ dimension => do
    let expected ← (if dimension = dim then ids.layout.numel else .ok (tensor.shape.getD dimension 0))
    rejectIf (destination.shape.getD dimension 0 ≠ expected) ("index_select destination shape mismatch at dimension " ++
      toString dimension ++ ": expected " ++ toString expected ++ ", got " ++
      toString (destination.shape.getD dimension 0))) ()
  destination.writeCurrent "index_select" fun output =>
    (List.range output.length).mapM fun linear => do
      let (inputIndex, _) ← (List.range tensor.layout.rank).foldrM (indexSelectStep tensor dim ids destination.shape)
        (tensor.layout.offset, linear)
      readAt tensor.values inputIndex

/-! ## `scatter_add` -/

/-- The checks that `scatter_add_requirements` and `scatter_add_into` both make. -/
def validateScatterAdd (shape : List Nat) (dim : Nat) (ids : Tensor) (srcShape : List Nat) : Fallible String Unit := do
  validateDimension shape dim "scatter_add"
  validateIndices ids "scatter_add"
  rejectIf (ids.layout.shape ≠ srcShape) ("scatter_add: indexes shape " ++ toString ids.layout.shape ++
    " does not match source shape " ++ toString srcShape)
  rejectIf (srcShape.length ≠ shape.length) ("scatter_add: source rank " ++ toString srcShape.length ++
    " does not match input rank " ++ toString shape.length)
  validateExtents srcShape shape dim "scatter_add: source extent exceeds input at dimension "

def scatterAddRequirements (tensor : TypedTensor T) (dim : Nat) (ids : Tensor) (src : TypedTensor T) :
    Fallible String IndexingRequirements := do
  validateScatterAdd tensor.shape dim ids src.shape
  let output ← checkedRequirement tensor.shape (CpuElem.dtype T) "scatter_add"
  .ok ⟨output, none, [], .direct 2, [tensor.layout, ids.layout, src.layout], dim⟩

/-- The loop that finds the output element of a source index: the offset, the stride and what is left. -/
def scatterIndex (shape srcShape : List Nat) (dim id linear : Nat) : Nat :=
  ((List.range shape.length).foldr (fun dimension (outputIndex, outputStride, remainder) =>
    let width := max (srcShape.getD dimension 0) 1
    let coordinate := if dimension = dim then id else remainder % width
    (outputIndex + coordinate * outputStride, outputStride * shape.getD dimension 0, remainder / width))
    (0, 1, linear)).1

/-- One turn of the accumulating loop. -/
def scatterAddStep [Add T] (tensor : TypedTensor T) (dim : Nat) (ids : Tensor) (src : TypedTensor T) (output : List T)
    (linear : Nat) : Fallible String (List T) := do
  let id ← checkedIndex ids linear "scatter_add" (tensor.shape.getD dim 0)
  let outputIndex := scatterIndex tensor.shape src.shape dim id linear
  let value ← readAt output outputIndex
  let added ← readAt src.values (src.layout.sourceIndex linear)
  writeAt output outputIndex (value + added)

def scatterAddInto [Add T] (tensor : TypedTensor T) (dim : Nat) (ids : Tensor) (src : TypedTensor T)
    (destination : CpuDestination T) : Fallible String (List T) := do
  validateScatterAdd tensor.shape dim ids src.shape
  destination.write "scatter_add" tensor.shape fun output => do
    let output ← copyStrided tensor.values tensor.layout output.length
    let numel ← src.layout.numel
    (List.range numel).foldlM (scatterAddStep tensor dim ids src) output

/-! ## `cat` -/

/-- The concatenated extent; the tensors have the shape of the first off the dimension. -/
def catExtent (first : List Nat) (dim : Nat) (tensors : List (TypedTensor T)) (rankMessage : Nat → String) :
    Fallible String Nat :=
  tensors.foldlM (fun concatenated tensor => do
    rejectIf (tensor.shape.length ≠ first.length) (rankMessage tensor.shape.length)
    (List.range first.length).foldlM (fun _ dimension =>
      rejectIf (dimension ≠ dim ∧ tensor.shape.getD dimension 0 ≠ first.getD dimension 0)
        ("cat: shape mismatch at dimension " ++ toString dimension)) ()
    okOr (checkedAdd concatenated (tensor.shape.getD dim 0)) "cat: concatenated dimension overflow") 0

def catRequirements (tensors : List (TypedTensor T)) (dim : Nat) : Fallible String IndexingRequirements := do
  let first ← okOr tensors.head? "cat: tensors must not be empty"
  validateDimension first.shape dim "cat"
  let concatenated ← catExtent first.shape dim tensors fun _ => "cat: all inputs must have the same dtype and rank"
  let output ← checkedRequirement (first.shape.set dim concatenated) (CpuElem.dtype T) "cat"
  .ok ⟨output, none, [], .direct tensors.length, tensors.map (·.layout), dim⟩

/-- The blocked pass over one tensor. -/
def catTensor (outputShape : List Nat) (dim dimensionOffset : Nat) (tensor : TypedTensor T) (output : List T) :
    Fallible String (List T) :=
  let inner := (outputShape.drop (dim + 1)).prod
  let outer := (outputShape.take dim).prod
  let tensorDimension := tensor.shape.getD dim 0
  (List.range outer).foldlM (fun output outerIndex =>
    (List.range tensorDimension).foldlM (fun output dimensionIndex =>
      (List.range inner).foldlM (fun output innerIndex => do
        let inputLinear := (outerIndex * tensorDimension + dimensionIndex) * inner + innerIndex
        let outputLinear := (outerIndex * outputShape.getD dim 0 + dimensionOffset + dimensionIndex) * inner + innerIndex
        let value ← readAt tensor.values (tensor.layout.sourceIndex inputLinear)
        writeAt output outputLinear value) output) output) output

/-- The loop over the tensors, each past those before it. -/
def catTensors (outputShape : List Nat) (dim : Nat) : Nat → List (TypedTensor T) → List T → Fallible String (List T)
  | _, [], output => .ok output
  | dimensionOffset, tensor :: tensors, output => do
    let output ← catTensor outputShape dim dimensionOffset tensor output
    catTensors outputShape dim (dimensionOffset + tensor.shape.getD dim 0) tensors output

def catInto (tensors : List (TypedTensor T)) (dim : Nat) (destination : CpuDestination T) : Fallible String (List T) := do
  let first ← okOr tensors.head? "cat: tensors must not be empty"
  validateDimension first.shape dim "cat"
  rejectIf (destination.shape.length ≠ first.shape.length) ("cat destination rank mismatch: expected " ++
    toString first.shape.length ++ ", got " ++ toString destination.shape.length)
  let concatenated ← catExtent first.shape dim tensors fun rank => "cat: input rank " ++ toString rank ++
    " does not match " ++ toString first.shape.length
  (List.range first.shape.length).foldlM (fun _ dimension =>
    let expected := if dimension = dim then concatenated else first.shape.getD dimension 0
    rejectIf (destination.shape.getD dimension 0 ≠ expected) ("cat destination shape mismatch at dimension " ++
      toString dimension ++ ": expected " ++ toString expected ++ ", got " ++
      toString (destination.shape.getD dimension 0))) ()
  destination.writeCurrent "cat" (catTensors destination.shape dim 0 tensors)

end Kernels

end EffectTorch
