import EffectTorch.Cpu.Matmul
import EffectTorch.Lib.Groups

/-!
# Grouped expert linear rows

`runtime-cpu/src/grouped_expert_linear.rs`: the plan and its execution. The rows are grouped by their expert
in a sorted map, packed group after group, multiplied by the weights of the expert of each group, and copied
to where they came from. The destination keeps what has been copied to it when the execution fails. A plain
sum or product wraps, as in a build without overflow checks; the addresses that the loops read lie in their
buffers.
-/

namespace EffectTorch
open Lib Matmul

namespace GroupedExpertLinear

/-- `CpuTensorRequirement::new`. -/
def requirementNew (shape : List Nat) (dtype : DType) : Fallible String CpuTensorRequirement := do
  let elements ← expect (shape.foldlM checkedMul 1) "CPU tensor requirement element count overflow"
  let bytes ← expect (checkedMul elements dtype.sizeInBytes) "CPU tensor requirement byte size overflow"
  .ok ⟨shape, dtype, bytes, cpuStorageAlignment⟩

structure Plan where
  layouts : Layout × Layout × Layout
  dtype : DType
  scratch : CpuTensorRequirement × CpuTensorRequirement

/-- What a destination holds, and the rows that have been copied to it, in their order. -/
structure Copied (T : Type) where
  cells : List T
  rows : List Nat

section Execution

variable {T : Type} [MatmulElem T]

/-- `Plan::new`. -/
def Plan.new (x weight : TypedTensor T) (indexes : Tensor) : Fallible String Plan := do
  rejectIf (x.shape.length ≠ 2 ∨ weight.shape.length ≠ 3 ∨ indexes.layout.shape ≠ [x.shape.getD 0 0] ∨
    weight.shape.getD 2 0 ≠ x.shape.getD 1 0 ∨ weight.shape.getD 0 0 = 0 ∨ u32Max < weight.shape.getD 0 0 ∨
    indexes.buffer.dtype ≠ .u32 ∨ ¬ (CpuElem.dtype T = .f32 ∨ CpuElem.dtype T = .bf16))
    "groupedExpertLinearRows: invalid input shapes or dtypes"
  let activations ← requirementNew x.shape (CpuElem.dtype T)
  let results ← requirementNew [x.shape.getD 0 0, weight.shape.getD 1 0] (CpuElem.dtype T)
  .ok ⟨(x.layout, weight.layout, indexes.layout), CpuElem.dtype T, (activations, results)⟩

/-- The input has the shape, strides and dtype that were compiled. -/
def sameMetadata (layout : Layout) (dtype : DType) (compiled : Layout) (compiledDType : DType) : Fallible String Unit :=
  rejectIf (layout.shape ≠ compiled.shape ∨ layout.strides ≠ compiled.strides ∨ dtype ≠ compiledDType)
    "groupedExpertLinearRows: input differs from compiled metadata"

def sameScratch (tensor : TypedTensor T) (requirement : CpuTensorRequirement) : Fallible String Unit :=
  rejectIf (tensor.shape ≠ requirement.shape ∨ CpuElem.dtype T ≠ requirement.dtype)
    "groupedExpertLinearRows: scratch differs from compiled metadata"

/-- The loop that validates the indexes and groups the rows by their expert. -/
def routes (ids : List UInt32) (layout : Layout) (rows experts : Nat) : Fallible String (List (Nat × List Nat)) :=
  (List.range rows).foldlM (fun groups row => do
    let id ← readAt ids (layout.offset + row * layout.strides.getD 0 0)
    rejectIf (experts ≤ id.toNat) "groupedExpertLinearRows: expert index is out of range"
    .ok (push id.toNat row groups)) []

/-- The rows of `x`, packed in the order of the groups. -/
def packRows (x : TypedTensor T) (inner : Nat) (order : List Nat) (output : List T) : Fallible String (List T) :=
  order.zipIdx.foldlM (fun output (row, packed) =>
    (List.range inner).foldlM (fun output i => do
      let value ← readAt x.values (x.layout.offset + row * x.layout.strides.getD 0 0 + i * x.layout.strides.getD 1 0)
      writeAt output (packed * inner + i) value) output) output

/-- The matrix of an expert, which is the transposed of its weights. -/
def expertWeights (weight : TypedTensor T) (inner columns expert : Nat) : Fallible String (TypedTensor T) := do
  let start ← mapErr Empty.elim (Build.wrapping.mul expert (weight.layout.strides.getD 0 0) >>=
    Build.wrapping.add weight.layout.offset)
  weight.view ⟨[inner, columns], [weight.layout.strides.getD 2 0, weight.layout.strides.getD 1 0], start, rfl⟩

/-- `tensor.view(tensor.layout.narrow(0, start, len))`. -/
def rowsOf (tensor : TypedTensor T) (start len : Nat) : Fallible String (TypedTensor T) := do
  let layout ← mapErr Empty.elim (tensor.layout.narrow .wrapping 0 start len)
  tensor.view layout

/-- The product of the rows of one group. -/
def multiplyGroup (packedX weight : TypedTensor T) (inner columns start expert len : Nat) (packedY : TypedTensor T) :
    Fallible String (TypedTensor T) := do
  let a ← rowsOf packedX start len
  let b ← expertWeights weight inner columns expert
  let y ← rowsOf packedY start len
  let requirements ← matmulRequirements a b
  let output ← matmulInto a b y.planned [] requirements
  .ok (packedY.overwrite y.layout.offset output)

/-- The groups one after another, each past the rows of those before it. -/
def multiplyGroups (packedX weight : TypedTensor T) (inner columns : Nat) :
    Nat → List (Nat × List Nat) → TypedTensor T → Fallible String (TypedTensor T)
  | _, [], packedY => .ok packedY
  | start, (expert, group) :: groups, packedY => do
    let packedY ← multiplyGroup packedX weight inner columns start expert group.length packedY
    multiplyGroups packedX weight inner columns (start + group.length) groups packedY

/-- The results of the packed rows: what `grouped_into` computes before it writes the destination. -/
def packedResults (x weight packedX packedY : TypedTensor T) (groups : List (Nat × List Nat)) : Fallible String (List T) := do
  let rows := x.shape.getD 0 0
  let inner := x.shape.getD 1 0
  let columns := weight.shape.getD 1 0
  let activations ← packedX.planned.write "groupedExpertLinearRows activations" [rows, inner]
    (packRows x inner (members groups))
  let packedY ← multiplyGroups (packedX.overwrite packedX.layout.offset activations) weight inner columns 0 groups packedY
  packedY.sliceOf "groupedExpertLinearRows: invalid result scratch"

/-- `copy_from_slice` of one row of results. -/
def copyRow (columns : Nat) (values : List T) (row packed : Nat) (out : Copied T) : Fallible String (Copied T) :=
  if out.cells.length < (row + 1) * columns then .error (.panic ("range end index " ++ toString ((row + 1) * columns) ++
    " out of range for slice of length " ++ toString out.cells.length))
  else if values.length < (packed + 1) * columns then .error (.panic ("range end index " ++
    toString ((packed + 1) * columns) ++ " out of range for slice of length " ++ toString values.length))
  else .ok ⟨out.cells.take (row * columns) ++ (values.drop (packed * columns)).take columns ++
    out.cells.drop ((row + 1) * columns), out.rows ++ [row]⟩

/-- The loop that copies the results to the destination. -/
def copyRows (columns : Nat) (values : List T) : List (Nat × Nat) → Copied T → Fallible String Unit × Copied T
  | [], out => (.ok (), out)
  | (row, packed) :: order, out =>
    match copyRow columns values row packed out with
    | .error fault => (.error fault, out)
    | .ok out => copyRows columns values order out

/-- The checks of `execute_into` and its groups. -/
def Plan.validate (plan : Plan) (x weight : TypedTensor T) (indexes : Tensor) (packedX packedY : TypedTensor T) :
    Fallible String (List (Nat × List Nat)) := do
  sameMetadata x.layout (CpuElem.dtype T) plan.layouts.1 plan.dtype
  sameMetadata weight.layout (CpuElem.dtype T) plan.layouts.2.1 plan.dtype
  sameMetadata indexes.layout indexes.buffer.dtype plan.layouts.2.2 .u32
  sameScratch packedX plan.scratch.1
  sameScratch packedY plan.scratch.2
  match indexes.buffer with
  | .u32 ids => routes ids indexes.layout (x.shape.getD 0 0) (weight.shape.getD 0 0)
  | _ => .error (.panic "internal error: entered unreachable code")

/-- `execute_into`, and what the destination holds afterwards. -/
def Plan.executeInto (plan : Plan) (x weight : TypedTensor T) (indexes : Tensor) (packedX packedY : TypedTensor T)
    (destination : CpuDestination T) : Fallible String Unit × Copied T :=
  let untouched : Copied T := ⟨destination.slice, []⟩
  match plan.validate x weight indexes packedX packedY with
  | .error fault => (.error fault, untouched)
  | .ok groups =>
    match packedResults x weight packedX packedY groups with
    | .error fault => (.error fault, untouched)
    | .ok values =>
      match destination.write "groupedExpertLinearRows" [x.shape.getD 0 0, weight.shape.getD 1 0] .ok with
      | .error fault => (.error fault, untouched)
      | .ok cells => copyRows (weight.shape.getD 1 0) values (members groups).zipIdx ⟨cells, []⟩

end Execution

end GroupedExpertLinear

end EffectTorch
