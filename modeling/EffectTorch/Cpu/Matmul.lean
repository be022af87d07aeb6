import EffectTorch.Cpu.Indexing

/-!
# Matrix multiplication

`runtime-cpu/src/matmul.rs`: the requirements of a product, their validation and the two kernels, and
`Tensor::view`, `Elem::slice_of` and `CpuDestination::from_planned` of `runtime-cpu/src/tensor.rs`. Both
operands have one element type, so that their dtypes need no check against each other. The arithmetic of
the element types is a parameter.
-/

namespace EffectTorch
open Lib Gguf

/-! ## Views and planned storage -/

namespace TypedTensor

variable {T : Type}

/-- `Tensor::view`: the layout must not exceed the buffer. -/
def view {ε : Type} (t : TypedTensor T) (layout : Layout) : Fallible ε (TypedTensor T) :=
  match hindex : layout.checkedMaxIndex with
  | none => .error (.panic "layout maximum index overflow")
  | some index =>
    if h : index ≤ t.values.length then .ok ⟨t.values, layout, index, hindex, h⟩
    else .error (.panic "assertion failed: layout.max_index() <= self.buffer.len()")

/-- `CpuDestination::from_planned`. -/
def planned [CpuElem T] (t : TypedTensor T) : CpuDestination T := ⟨CpuElem.dtype T, t.layout, t.values⟩

/-- The tensor after its storage has been written from `start` on. -/
def overwrite (t : TypedTensor T) (start : Nat) (output : List T) : TypedTensor T where
  values := t.values.mapIdx fun index value => if index < start then value else output.getD (index - start) value
  layout := t.layout
  fits := by rw [List.length_mapIdx]; exact t.fits

/-- `Elem::slice_of`, with the message of its caller for a tensor that is not contiguous. -/
def sliceOf (t : TypedTensor T) (message : String) : Fallible String (List T) :=
  if t.layout.isContiguous then do
    let numel ← t.layout.numel
    if t.layout.offset + numel ≤ t.values.length then .ok ((t.values.drop t.layout.offset).take numel)
    else .error (.panic ("range end index " ++ toString (t.layout.offset + numel) ++ " out of range for slice of length " ++
      toString t.values.length))
  else fail message

end TypedTensor

/-! ## Requirements -/

namespace Matmul

/-- Kernel selected for a matmul invocation. -/
inductive MatmulAlgorithm where
  | naive
  | halfF32
deriving DecidableEq, Repr

/-- Exact resources and algorithm selected for one matmul invocation. -/
structure MatmulRequirements where
  output : CpuTensorRequirement
  scratch : List CpuTensorRequirement
  algorithm : MatmulAlgorithm
  leftLayout : Layout
  rightLayout : Layout
  batch : Nat
  m : Nat
  n : Nat
  k : Nat

/-- The arithmetic that `matmul` uses: `multiplyAdd` is that of the naive kernel, and `widen`, `narrow`
and `mulAdd` are that of the half kernel. -/
class MatmulElem (T : Type) extends CpuElem T where
  default : T
  multiplyAdd : T → T → T → T
  widen : T → F32
  narrow : F32 → T
  mulAdd : F32 → F32 → F32 → F32

def checkedProduct (values : List Nat) : Fallible String Nat :=
  okOr (values.foldlM checkedMul 1) "matmul element count overflow"

/-- `checked_requirement` of the module. -/
def matmulRequirement (shape : List Nat) (dtype : DType) : Fallible String CpuTensorRequirement := do
  let elements ← checkedProduct shape
  let bytes ← okOr (checkedMul elements dtype.sizeInBytes) "matmul byte size overflow"
  .ok ⟨shape, dtype, bytes, cpuStorageAlignment⟩

/-- One batch dimension of an operand. -/
def batchDimension (shape : List Nat) (batchRank dimension : Nat) : Nat :=
  let sourceBatchRank := shape.length - 2
  if dimension < batchRank - sourceBatchRank then 1 else shape.getD (dimension - (batchRank - sourceBatchRank)) 0

def matmulOutputShape (a b : List Nat) : Fallible String (List Nat) := do
  rejectIf (a.length < 2 ∨ b.length < 2) "matmul needs rank >= 2"
  let batchRank := max (a.length - 2) (b.length - 2)
  let output ← (List.range batchRank).mapM fun dimension => do
    let left := batchDimension a batchRank dimension
    let right := batchDimension b batchRank dimension
    rejectIf (left ≠ right ∧ left ≠ 1 ∧ right ≠ 1) "matmul batch dimensions are not broadcast-compatible"
    .ok (max left right)
  rejectIf (a.getD (a.length - 1) 0 ≠ b.getD (b.length - 2) 0) "matmul inner dim mismatch"
  .ok (output ++ [a.getD (a.length - 2) 0, b.getD (b.length - 1) 0])

/-- The kernel for a dtype. -/
def MatmulAlgorithm.ofDType : DType → MatmulAlgorithm
  | .f32 | .f64 | .u8 | .u32 | .i64 => naive
  | .f16 | .bf16 => halfF32

section Operands

variable {T : Type} [MatmulElem T]

def matmulRequirements (a b : TypedTensor T) : Fallible String MatmulRequirements := do
  let shape ← matmulOutputShape a.shape b.shape
  let rank := shape.length
  let batch ← checkedProduct (shape.take (rank - 2))
  let output ← matmulRequirement shape (CpuElem.dtype T)
  .ok ⟨output, [], .ofDType (CpuElem.dtype T), a.layout, b.layout, batch, shape.getD (rank - 2) 0, shape.getD (rank - 1) 0,
    a.shape.getD (a.shape.length - 1) 0⟩

def validateMatmul (a b : TypedTensor T) (destination : CpuDestination T) (scratch : List (CpuDestination T))
    (requirements : MatmulRequirements) : Fallible String Unit := do
  rejectIf (requirements.output.dtype ≠ CpuElem.dtype T) "matmul: inputs and exact requirements must have one dtype"
  rejectIf (a.layout ≠ requirements.leftLayout ∨ b.layout ≠ requirements.rightLayout)
    "matmul: input layouts do not match exact requirements"
  rejectIf (a.shape.length < 2 ∨ b.shape.length < 2) "matmul needs rank >= 2"
  let batchRank := max (a.shape.length - 2) (b.shape.length - 2)
  rejectIf (requirements.output.shape.length ≠ batchRank + 2) "matmul: exact output rank is invalid"
  (List.range batchRank).foldlM (fun _ dimension => do
    let left := batchDimension a.shape batchRank dimension
    let right := batchDimension b.shape batchRank dimension
    rejectIf (left ≠ right ∧ left ≠ 1 ∧ right ≠ 1) "matmul: input batch dimensions are incompatible"
    rejectIf (requirements.output.shape.getD dimension 0 ≠ max left right) "matmul: exact output batch shape is invalid") ()
  let m := a.shape.getD (a.shape.length - 2) 0
  let k := a.shape.getD (a.shape.length - 1) 0
  let n := b.shape.getD (b.shape.length - 1) 0
  rejectIf (k ≠ b.shape.getD (b.shape.length - 2) 0 ∨ (requirements.m, requirements.n, requirements.k) ≠ (m, n, k))
    "matmul: matrix dimensions do not match exact requirements"
  let batch ← checkedProduct (requirements.output.shape.take batchRank)
  rejectIf (requirements.batch ≠ batch ∨ requirements.output.shape.getD batchRank 0 ≠ m ∨
    requirements.output.shape.getD (batchRank + 1) 0 ≠ n) "matmul: output dimensions do not match exact requirements"
  rejectIf (destination.shape ≠ requirements.output.shape ∨ destination.dtype ≠ requirements.output.dtype)
    "matmul: destination does not match exact requirements"
  rejectIf (scratch.length ≠ requirements.scratch.length) "matmul: scratch does not match exact requirements"
  (scratch.zip requirements.scratch).foldlM (fun _ (actual, expected) =>
    rejectIf (actual.shape ≠ expected.shape ∨ actual.dtype ≠ expected.dtype)
      "matmul: scratch does not match exact requirements") ()
  rejectIf (requirements.algorithm ≠ .ofDType (CpuElem.dtype T)) "matmul: algorithm and dtype do not match exact requirements"

/-! ## Kernels -/

/-- Where the matrix of a batch starts in an operand. -/
def batchOffset (layout : Layout) (outputBatchShape : List Nat) (batchIndex : Nat) : Nat :=
  let leading := outputBatchShape.length - (layout.rank - 2)
  ((List.range outputBatchShape.length).foldr (fun dimension (offset, batchIndex) =>
    let width := max (outputBatchShape.getD dimension 0) 1
    let coordinate := batchIndex % width
    let sourceDimension := dimension - leading
    let step := if leading ≤ dimension ∧ layout.shape.getD sourceDimension 0 ≠ 1 then
      coordinate * layout.strides.getD sourceDimension 0 else 0
    (offset + step, batchIndex / width)) (layout.offset, batchIndex)).1

/-- `output[start..start + len].fill(value)`. -/
def fillRange (output : List T) (start len : Nat) (value : T) : Fallible String (List T) :=
  if start + len ≤ output.length then .ok (output.take start ++ List.replicate len value ++ output.drop (start + len))
  else .error (.panic ("range end index " ++ toString (start + len) ++ " out of range for slice of length " ++
    toString output.length))

/-- One output row of the naive kernel: it is cleared, and accumulates for each inner index. -/
def naiveRow (a b : List T) (aStart aCol bOffset bRow bCol n k outputRow : Nat) (output : List T) :
    Fallible String (List T) := do
  let output ← fillRange output outputRow n MatmulElem.default
  (List.range k).foldlM (fun output inner => do
    let left ← readAt a (aStart + inner * aCol)
    (List.range n).foldlM (fun output column => do
      let value ← readAt output (outputRow + column)
      let right ← readAt b (bOffset + inner * bRow + column * bCol)
      writeAt output (outputRow + column) (MatmulElem.multiplyAdd left right value)) output) output

def naiveInto (a : List T) (aLayout : Layout) (b : List T) (bLayout : Layout) (destination : CpuDestination T)
    (requirements : MatmulRequirements) : Fallible String (List T) :=
  let aRow := aLayout.strides.getD (aLayout.rank - 2) 0
  let aCol := aLayout.strides.getD (aLayout.rank - 1) 0
  let bRow := bLayout.strides.getD (bLayout.rank - 2) 0
  let bCol := bLayout.strides.getD (bLayout.rank - 1) 0
  let batchShape := requirements.output.shape.take (requirements.output.shape.length - 2)
  destination.writeCurrent "matmul" fun output =>
    (List.range requirements.batch).foldlM (fun output batch =>
      let aOffset := batchOffset aLayout batchShape batch
      let bOffset := batchOffset bLayout batchShape batch
      let outputOffset := batch * requirements.m * requirements.n
      (List.range requirements.m).foldlM (fun output row =>
        naiveRow a b (aOffset + row * aRow) aCol bOffset bRow bCol requirements.n requirements.k
          (outputOffset + row * requirements.n) output) output) output

/-- The accumulator of one output element of the half kernel. -/
def halfAccumulate (a b : List T) (aStart aCol bStart bRow k : Nat) : Fallible String F32 :=
  (List.range k).foldlM (fun accumulator inner => do
    let left ← readAt a (aStart + inner * aCol)
    let right ← readAt b (bStart + inner * bRow)
    .ok (MatmulElem.mulAdd T (MatmulElem.widen left) (MatmulElem.widen right) accumulator)) ⟨0⟩

def halfInto (a : List T) (aLayout : Layout) (b : List T) (bLayout : Layout) (destination : CpuDestination T)
    (requirements : MatmulRequirements) : Fallible String (List T) :=
  let aRow := aLayout.strides.getD (aLayout.rank - 2) 0
  let aCol := aLayout.strides.getD (aLayout.rank - 1) 0
  let bRow := bLayout.strides.getD (bLayout.rank - 2) 0
  let bCol := bLayout.strides.getD (bLayout.rank - 1) 0
  let batchShape := requirements.output.shape.take (requirements.output.shape.length - 2)
  destination.writeCurrent "matmul" fun output =>
    (List.range requirements.batch).foldlM (fun output batch =>
      let aOffset := batchOffset aLayout batchShape batch
      let bOffset := batchOffset bLayout batchShape batch
      (List.range requirements.m).foldlM (fun output row =>
        (List.range requirements.n).foldlM (fun output column => do
          let accumulator ← halfAccumulate a b (aOffset + row * aRow) aCol (bOffset + column * bCol) bRow requirements.k
          writeAt output ((batch * requirements.m + row) * requirements.n + column) (MatmulElem.narrow accumulator))
          output) output) output

def matmulInto (a b : TypedTensor T) (destination : CpuDestination T) (scratch : List (CpuDestination T))
    (requirements : MatmulRequirements) : Fallible String (List T) := do
  validateMatmul a b destination scratch requirements
  match requirements.algorithm with
  | .halfF32 => halfInto a.values a.layout b.values b.layout destination requirements
  | .naive => naiveInto a.values a.layout b.values b.layout destination requirements

end Operands

end Matmul

end EffectTorch
