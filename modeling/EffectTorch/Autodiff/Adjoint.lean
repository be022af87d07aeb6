import EffectTorch.Graph.Metadata
import EffectTorch.Runtime.Layout

/-!
# Adjoint rules

The rules of `backward` in `autodiff/src/lib.rs` for slices, index operations and convolutions:
from the cotangent of a node they build what its operands receive.
-/

namespace EffectTorch
open Lib

namespace Adjoint

variable {ν : Type} [Described ν]

/-- `reshape`. -/
def reshape (a : ν) (shape : List Nat) : NodeProgram ν ν :=
  if shapeOf a = shape then return a else newNode (.reshape a shape)

/-- `broadcast_to`. -/
def broadcastTo (a : ν) (shape : List Nat) : NodeProgram ν ν :=
  if shapeOf a = shape then return a else newNode (.broadcastTo a shape)

/-- `zeros_like`. -/
def zerosLike (target : ν) : NodeProgram ν ν :=
  newNode (.zeros (shapeOf target) (dtypeOf target) (deviceOf target))

/-- Zeros like `cur`, but for the size of one axis. -/
def zerosAlong (cur : ν) (dim size : Nat) : NodeProgram ν ν :=
  newNode (.zeros ((shapeOf cur).set dim size) (dtypeOf cur) (deviceOf cur))

/-! ## Slices -/

/-- `stride - 1` zeros between neighbours along an axis. -/
def dilate (cur : ν) (dim stride : Nat) : NodeProgram ν ν := do
  let len := (shapeOf cur).getD dim 0
  let column ← reshape cur ((shapeOf cur).insertIdx (dim + 1) 1)
  let z ← newNode (.zeros ((shapeOf cur).insertIdx (dim + 1) (stride - 1)) (dtypeOf column) (deviceOf column))
  let cat ← newNode (.concat column z (dim + 1))
  let wide ← reshape cat ((shapeOf cur).set dim (len * stride))
  let keep := (len - 1) * stride + 1
  if keep < len * stride then
    newNode (.slice wide (((shapeOf wide).map fun size => (0, size, 1)).set dim (0, keep, 1)))
  else return wide

/-- The cotangent aligned with the positions that the forward pass read. -/
def align (cur : ν) (dim stride : Nat) : NodeProgram ν ν :=
  if stride ≠ 1 ∧ 0 < (shapeOf cur).getD dim 0 then dilate cur dim stride else return cur

def prepend (cur : ν) (dim start : Nat) : NodeProgram ν ν :=
  if 0 < start then do
    let z ← zerosAlong cur dim start
    newNode (.concat z cur dim)
  else return cur

def append (cur : ν) (dim stop n : Nat) : NodeProgram ν ν :=
  if stop < n then do
    let z ← zerosAlong cur dim (n - stop)
    newNode (.concat cur z dim)
  else return cur

/-- One turn of the loop over the ranges; `n` is the size of the input axis. -/
def sliceAxis (n : Nat) (cur : ν) (dim start stop stride : Nat) : NodeProgram ν ν := do
  let cur ← align cur dim stride
  let cur ← prepend cur dim start
  append cur dim stop n

def slice (shape : List Nat) : Nat → List (Nat × Nat × Nat) → ν → NodeProgram ν ν
  | _, [], cur => return cur
  | dim, (start, stop, stride) :: ranges, cur => do
    let cur ← sliceAxis (shape.getD dim 0) cur dim start stop stride
    slice shape (dim + 1) ranges cur

/-! ## Index operations -/

def indexSelect (a : ν) (dim : Nat) (indexes g : ν) : NodeProgram ν ν := do
  let shape := (List.replicate (shapeOf a).length 1).set dim ((shapeOf indexes).getD 0 0)
  let idx ← reshape indexes shape
  let idx ← broadcastTo idx (shapeOf g)
  let z ← zerosLike a
  newNode (.scatterAdd z dim idx g)

/-- One turn of the loop that pads the cotangent and the indices of a gather. -/
def padAxis (a : ν) (dim : Nat) (padded : ν × ν) (i : Nat) : NodeProgram ν (ν × ν) :=
  let (g, idx) := padded
  let missing := (shapeOf a).getD i 0 - (shapeOf g).getD i 0
  if i = dim ∨ missing = 0 then return padded
  else do
    let z ← zerosAlong g i missing
    let g ← newNode (.concat g z i)
    let z ← newNode (.zeros ((shapeOf idx).set i missing) .i64 (deviceOf idx))
    let idx ← newNode (.concat idx z i)
    return (g, idx)

def gather (a : ν) (dim : Nat) (indexes g : ν) : NodeProgram ν ν := do
  let (g, idx) ← (List.range (shapeOf a).length).foldlM (padAxis a dim) (g, indexes)
  let z ← zerosLike a
  newNode (.scatterAdd z dim idx g)

/-! ## Convolutions -/

/-- `a - b`. -/
def usizeSub (build : Build) (a b : Nat) : Fallible String Nat :=
  if b ≤ a then .ok (a - b)
  else
    match build with
    | .checked => .error (.panic "attempt to subtract with overflow")
    | .wrapping => .ok ((a + 2 ^ 64 - b) % 2 ^ 64)

/-- What the strides of a convolution leave over at the end of an axis. -/
def outputPadding (build : Build) (size gSize kernel stride padding dilation : Nat) :
    Fallible String Nat := do
  let steps := (← usizeSub build gSize 1) * stride
  let reach := dilation * (← usizeSub build kernel 1)
  let covered ← usizeSub build (steps + reach + 1) (2 * padding)
  usizeSub build size covered

def conv1d (build : Build) (x w : ν) (stride padding dilation groups : Nat) (g : ν) : NodeProgram ν ν := do
  let outPad ← .lift (outputPadding build ((shapeOf x).getD 2 0) ((shapeOf g).getD 2 0)
    ((shapeOf w).getD 2 0) stride padding dilation)
  newNode (.convTranspose1d g w stride padding outPad dilation groups)

/-- A strip of zeros at the end of an axis, of the dtype and device of the cotangent. -/
def appendStrip (g dx : ν) (dim size : Nat) : NodeProgram ν ν :=
  if size = 0 then return dx
  else do
    let z ← newNode (.zeros ((shapeOf dx).set dim size) (dtypeOf g) (deviceOf g))
    newNode (.concat dx z dim)

def conv2d (build : Build) (x w : ν) (stride padding dilation groups : Nat) (g : ν) : NodeProgram ν ν := do
  let outPadH ← .lift (outputPadding build ((shapeOf x).getD 2 0) ((shapeOf g).getD 2 0)
    ((shapeOf w).getD 2 0) stride padding dilation)
  let outPadW ← .lift (outputPadding build ((shapeOf x).getD 3 0) ((shapeOf g).getD 3 0)
    ((shapeOf w).getD 3 0) stride padding dilation)
  let minPad := min outPadH outPadW
  let dx ← newNode (.convTranspose2d g w stride padding minPad dilation groups)
  let dx ← appendStrip g dx 2 (outPadH - minPad)
  appendStrip g dx 3 (outPadW - minPad)

end Adjoint

/-- The rule for a node: the operands and what they receive of the cotangent `g`. -/
def adjoint {ν : Type} [Described ν] (build : Build) (kind : NodeKind ν) (g : ν) :
    NodeProgram ν (List (ν × ν)) :=
  match kind with
  | .slice a ranges => do
    let cur ← Adjoint.slice (shapeOf a) 0 ranges g
    return [(a, cur)]
  | .indexSelect a dim indexes => do
    let contribution ← Adjoint.indexSelect a dim indexes g
    return [(a, contribution)]
  | .scatterAdd a dim indexes src => do
    let contribution ← newNode (.gather g dim indexes)
    return [(a, g), (src, contribution)]
  | .gather a dim indexes => do
    let contribution ← Adjoint.gather a dim indexes g
    return [(a, contribution)]
  | .conv1d x w stride padding dilation groups => do
    let dx ← Adjoint.conv1d build x w stride padding dilation groups g
    let dw ← newNode (.conv1dBackwardW x g ((shapeOf w).getD 2 0) ((shapeOf w).getD 0 0) stride padding
      dilation groups)
    return [(x, dx), (w, dw)]
  | .conv2d x w stride padding dilation groups => do
    let dx ← Adjoint.conv2d build x w stride padding dilation groups g
    let dw ← newNode (.conv2dBackwardW x g ((shapeOf w).getD 2 0, (shapeOf w).getD 3 0)
      ((shapeOf w).getD 0 0) stride padding dilation groups)
    return [(x, dx), (w, dw)]
  | _ => .error (.error "an operation that is not among those of this module")

end EffectTorch
