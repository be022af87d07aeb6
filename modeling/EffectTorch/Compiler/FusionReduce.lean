import EffectTorch.Compiler.FusionEval
import EffectTorch.Compiler.FusionStrides
import EffectTorch.Cpu.Destination
import EffectTorch.Lib.Accumulate

/-!
# Fused loops

`interpret_core_into`, `reduce_output_offset` and `interpret_reduce_core_into` of
`compiler/src/ir.rs`, and `reduced_shape` of `compiler/src/optimization.rs`. A slice that is indexed
outside its bounds panics, and so does a `usize` that would go below zero. What an evaluation leaves
in the scratch is not kept, since the next one starts over it.

Result: `reduceOutputOffset_rowIndex`: an element of the input is folded into the output element at
its coordinate off the reduced axes.
-/

namespace EffectTorch
open List Lib

variable {T : Type}

/-! ## Reductions -/

inductive ReduceOp where
  | sum | mean | max | min | prod
deriving DecidableEq, Repr

namespace ReduceOp

def init : ReduceOp → F64
  | sum | mean => ⟨0⟩
  | prod => ⟨0x3ff0000000000000⟩
  | max => ⟨0xfff0000000000000⟩
  | min => ⟨0x7ff0000000000000⟩

def fold [Scalar T] (op : ReduceOp) (acc v : T) : T :=
  match op with
  | sum | mean => Scalar.add acc v
  | prod => Scalar.mul acc v
  | max => Scalar.max acc v
  | min => Scalar.min acc v

/-- What is done to the output elements after the fold. -/
def finish [Scalar T] (op : ReduceOp) (extent : Nat) (value : T) : T :=
  if op = mean then Scalar.div value (Scalar.fromF64 (F64.ofNat extent)) else value

end ReduceOp

/-- `reduced_shape`. -/
def reducedShape (shape dims : List Nat) (keepdims : Bool) : List Nat :=
  if keepdims then shape.zipIdx.map fun (dim, axis) => if axis ∈ dims then 1 else dim
  else shape.zipIdx.filterMap fun (dim, axis) => if axis ∈ dims then none else some dim

/-- What `reduce_output_offset` keeps between two dimensions. -/
structure OutputWalk where
  remainder : Nat
  outDimension : Nat
  outStride : Nat
  outOffset : Nat
deriving DecidableEq, Repr

/-- One step along the output. -/
def OutputWalk.advance (w : OutputWalk) (outShape : List Nat) (added remainder : Nat) : Fallible Empty OutputWalk := do
  let outDimension ← expect (checkedSub w.outDimension 1) "attempt to subtract with overflow"
  let extent ← readAt outShape outDimension
  .ok ⟨remainder, outDimension, w.outStride * extent, w.outOffset + added * w.outStride⟩

/-- One turn of `reduce_output_offset`. -/
def OutputWalk.step (inShape dims : List Nat) (keepdims : Bool) (outShape : List Nat) (dimension : Nat)
    (w : OutputWalk) : Fallible Empty OutputWalk :=
  let width := max (inShape.getD dimension 0) 1
  let coordinate := w.remainder % width
  let remainder := w.remainder / width
  if dimension ∉ dims then w.advance outShape coordinate remainder
  else if keepdims then w.advance outShape 0 remainder
  else .ok { w with remainder }

/-- `reduce_output_offset`. -/
def reduceOutputOffset (index : Nat) (inShape dims : List Nat) (keepdims : Bool) (outShape : List Nat) :
    Fallible Empty Nat := do
  let w ← (List.range inShape.length).foldrM (OutputWalk.step inShape dims keepdims outShape)
    ⟨index, outShape.length, 1, 0⟩
  assert (w.outDimension = 0) "assertion `left == right` failed"
  .ok w.outOffset

/-! ## Loops -/

namespace CpuFusionProgram

def outputCount (program : CpuFusionProgram) : Nat := program.planEnds.length

def scratchElements (program : CpuFusionProgram) : Fallible Empty Nat :=
  expect (checkedAdd program.inputCount program.valueScratchLen) "CPU fusion scratch element count overflow"

/-- The values of the input lanes at the offsets of an element. -/
def laneValues (program : CpuFusionProgram) (slices : List (List T)) (offset : Nat → Fallible Empty Nat) :
    Fallible Empty (List T) :=
  (List.range program.inputCount).mapM fun lane => do
    let offset ← offset lane
    let slice ← expect slices[lane]? "index out of bounds"
    readAt slice offset

/-- The second part of `scratch.split_at_mut(input_count)`. -/
def valueScratch (program : CpuFusionProgram) (scratch : List T) : Slice T (scratch.length - program.inputCount) :=
  ⟨scratch.drop program.inputCount, length_drop⟩

/-- `evaluate` with lanes that were read before. Preparation counted every lane of the plans. -/
def evaluateLanes [Scalar T] (program : CpuFusionProgram) (output : Nat) (lanes scalarValues scratch : List T) :
    Fallible Empty T :=
  program.evaluate output (lanes.getD · (Scalar.fromF64 ⟨0⟩)) (scalarValues.getD · (Scalar.fromF64 ⟨0⟩))
    (program.valueScratch scratch)

end CpuFusionProgram

section Loops

variable [Scalar T]

/-- The offset of a lane at an element; none of the strides are given when the lanes are contiguous. -/
def laneOffset (strides : Option (List (List Nat))) (shape : List Nat) (index lane : Nat) : Fallible Empty Nat :=
  match strides with
  | none => .ok index
  | some strides => do
    let laneStrides ← expect strides[lane]? "index out of bounds"
    .ok (stridedOffset index shape laneStrides)

/-- One turn of `interpret_core_into`. -/
def interpretElement (program : CpuFusionProgram) (slices : List (List T)) (strides : Option (List (List Nat)))
    (scalarValues : List T) (shape : List Nat) (scratch : List T) (outputs : List (List T)) (index : Nat) :
    Fallible Empty (List (List T)) := do
  let lanes ← program.laneValues slices (laneOffset strides shape index)
  outputs.zipIdx.mapM fun (output, outputIndex) => do
    let value ← program.evaluateLanes outputIndex lanes scalarValues scratch
    writeAt output index value

/-- `interpret_core_into`. -/
def interpretCoreInto (program : CpuFusionProgram) (slices : List (List T)) (strides : Option (List (List Nat)))
    (scalarValues : List T) (n : Nat) (shape : List Nat) (outputs : List (List T)) (scratch : List T) :
    Fallible Empty (List (List T)) := do
  assert (outputs.length = program.outputCount) "assertion `left == right` failed"
  assert (program.inputCount ≤ slices.length) "assertion failed: slices.len() >= program.input_count()"
  assert (program.scalarCount ≤ scalarValues.length) "assertion failed: scalar_values.len() >= program.scalar_count()"
  assert (∀ output ∈ outputs, n ≤ output.length) "assertion failed: outputs.iter().all(|output| output.len() >= n)"
  let scratchElements ← program.scratchElements
  assert (scratchElements ≤ scratch.length) "assertion failed: scratch.len() >= program.scratch_elements()"
  assert (∀ lanes, strides = some lanes → lanes.length = slices.length) "assertion `left == right` failed"
  assert (∀ lanes, strides = some lanes → ∀ lane ∈ lanes, lane.length = shape.length)
    "assertion failed: strides.iter().all(|lane| lane.len() == shape.len())"
  (List.range n).foldlM (interpretElement program slices strides scalarValues shape scratch) outputs

/-- One turn of `interpret_reduce_core_into`. The program has no scalar lanes. -/
def reduceElement (op : ReduceOp) (program : CpuFusionProgram) (slices : List (List T)) (strides : List (List Nat))
    (inShape dims : List Nat) (keepdims : Bool) (outShape : List Nat) (scratch : List T) (output : List T)
    (index : Nat) : Fallible Empty (List T) := do
  let lanes ← program.laneValues slices (laneOffset (some strides) inShape index)
  let value ← program.evaluateLanes 0 lanes [] scratch
  let outputIndex ← reduceOutputOffset index inShape dims keepdims outShape
  let acc ← readAt output outputIndex
  writeAt output outputIndex (op.fold acc value)

/-- The extents of the reduced axes, which `Mean` divides by. -/
def reducedExtent (op : ReduceOp) (inShape dims : List Nat) : Fallible Empty Nat :=
  if op = .mean then do
    let extents ← dims.mapM (readAt inShape)
    .ok extents.prod
  else .ok 1

/-- `interpret_reduce_core_into`. -/
def interpretReduceCoreInto (op : ReduceOp) (program : CpuFusionProgram) (slices : List (List T))
    (strides : List (List Nat)) (inShape dims : List Nat) (keepdims : Bool) (outShape : List Nat) (output : List T)
    (scratch : List T) : Fallible Empty (List T) := do
  assert (program.outputCount = 1) "assertion `left == right` failed"
  assert (program.scalarCount = 0) "assertion `left == right` failed"
  assert (program.inputCount ≤ slices.length) "assertion failed: slices.len() >= program.input_count()"
  assert (strides.length = slices.length) "assertion `left == right` failed"
  assert (∀ lane ∈ strides, lane.length = inShape.length)
    "assertion failed: strides.iter().all(|lane| lane.len() == in_shape.len())"
  assert (output.length = outShape.prod) "assertion `left == right` failed"
  let scratchElements ← program.scratchElements
  assert (scratchElements ≤ scratch.length) "assertion failed: scratch.len() >= program.scratch_elements()"
  let output ← (List.range inShape.prod).foldlM
    (reduceElement op program slices strides inShape dims keepdims outShape scratch)
    (List.replicate output.length (Scalar.fromF64 op.init))
  let extent ← reducedExtent op inShape dims
  .ok (output.map (op.finish extent))

end Loops

/-! ## Output elements -/

/-- The components of a coordinate off the reduced axes, from the axis `axis` on. The reduced axes are dropped,
or kept with the component `unit`. -/
def outputAxes (dims : List Nat) (keepdims : Bool) (unit : Nat) : Nat → List Nat → List Nat
  | _, [] => []
  | axis, x :: xs =>
    if axis ∈ dims then
      if keepdims then unit :: outputAxes dims keepdims unit (axis + 1) xs else outputAxes dims keepdims unit (axis + 1) xs
    else x :: outputAxes dims keepdims unit (axis + 1) xs

/-- The output element that a coordinate of the input is folded into. -/
def outputCoordinate (dims : List Nat) (keepdims : Bool) (c : List Nat) : List Nat :=
  outputAxes dims keepdims 0 0 c

section Output

variable {shape inShape dims : List Nat} {keepdims : Bool}

theorem reducedShape_eq (shape dims : List Nat) (keepdims : Bool) :
    reducedShape shape dims keepdims = outputAxes dims keepdims 1 0 shape := by
  have hmap : ∀ (xs : List Nat) axis, ((xs.zipIdx axis).map fun (dim, axis) => if axis ∈ dims then 1 else dim) =
      outputAxes dims true 1 axis xs := by
    intro xs
    induction xs with
    | nil => exact fun _ => rfl
    | cons d xs ih =>
      intro axis
      rw [zipIdx_cons, map_cons, ih, outputAxes, if_pos rfl]
      exact apply_ite (· :: outputAxes dims true 1 (axis + 1) xs) (axis ∈ dims) 1 d
  have hfilter : ∀ (xs : List Nat) axis,
      ((xs.zipIdx axis).filterMap fun (dim, axis) => if axis ∈ dims then none else some dim) =
        outputAxes dims false 1 axis xs := by
    intro xs
    induction xs with
    | nil => exact fun _ => rfl
    | cons d xs ih =>
      intro axis
      rw [zipIdx_cons, outputAxes, if_neg Bool.false_ne_true, ← ih]
      by_cases h : axis ∈ dims
      · simp only [filterMap_cons, if_pos h]
      · simp only [filterMap_cons, if_neg h]
  cases keepdims with
  | true => exact (if_pos rfl).trans (hmap shape 0)
  | false => exact (if_neg Bool.false_ne_true).trans (hfilter shape 0)

theorem advance_ok {w : OutputWalk} {front rest : List Nat} {extent : Nat} (added remainder : Nat)
    (hdimension : w.outDimension = front.length + 1) :
    w.advance (front ++ extent :: rest) added remainder =
      .ok ⟨remainder, front.length, w.outStride * extent, w.outOffset + added * w.outStride⟩ := by
  have hsub : checkedSub w.outDimension 1 = some front.length := by
    rw [hdimension, checkedSub_of_le (Nat.le_add_left 1 _), Nat.add_sub_cancel]
  have hread : (readAt (front ++ extent :: rest) front.length : Fallible Empty Nat) = .ok extent :=
    readAt_ok.mpr (by simp)
  rw [OutputWalk.advance, hsub, expect_some, ok_bind, hread, ok_bind]

/-- What the loop has after the axes of `suffix`, the last ones of the input. -/
theorem outputWalk_turns {before suffix front : List Nat} {index : Nat} (hpos : 0 ∉ suffix) :
    (List.range' before.length suffix.length).foldrM
        (OutputWalk.step (before ++ suffix) dims keepdims (front ++ outputAxes dims keepdims 1 before.length suffix))
        ⟨index, (front ++ outputAxes dims keepdims 1 before.length suffix).length, 1, 0⟩ =
      .ok ⟨index / suffix.prod, front.length, (outputAxes dims keepdims 1 before.length suffix).prod,
        rowIndex (outputAxes dims keepdims 1 before.length suffix)
          (outputAxes dims keepdims 0 before.length (digits suffix index))⟩ := by
  induction suffix generalizing before front with
  | nil => simp [outputAxes, digits, rowIndex, pure, Except.pure]
  | cons width suffix ih =>
    obtain ⟨hwidth, hrest⟩ := not_or.mp fun hmem => hpos (mem_cons.mpr hmem)
    have hwidth : max ((before ++ width :: suffix).getD before.length 0) 1 = width := by
      have hone : 1 ≤ width := Nat.pos_of_ne_zero (Ne.symm hwidth)
      simpa using hone
    have hlen : (before ++ [width]).length = before.length + 1 := length_append
    rw [length_cons, List.range'_succ, foldrM_cons, digits, outputAxes, outputAxes]
    by_cases hdims : before.length ∈ dims
    · cases keepdims with
      | true =>
        have h := @ih (before ++ [width]) (front ++ [1]) hrest
        rw [hlen, append_assoc, append_assoc] at h
        simp only [if_pos hdims, if_true]
        refine (congrArg (· >>= _) h).trans ?_
        rw [ok_bind, OutputWalk.step, hwidth, if_neg (not_not_intro hdims), if_pos rfl, advance_ok _ _ (by simp)]
        simp [Nat.div_div_eq_div_mul, Nat.mul_comm]
      | false =>
        have h := @ih (before ++ [width]) front hrest
        rw [hlen, append_assoc] at h
        simp only [if_pos hdims, Bool.false_eq_true, if_false]
        refine (congrArg (· >>= _) h).trans ?_
        rw [ok_bind, OutputWalk.step, hwidth, if_neg (not_not_intro hdims), if_neg Bool.false_ne_true]
        simp [Nat.div_div_eq_div_mul, Nat.mul_comm]
    · have h := @ih (before ++ [width]) (front ++ [width]) hrest
      rw [hlen, append_assoc, append_assoc] at h
      simp only [if_neg hdims]
      refine (congrArg (· >>= _) h).trans ?_
      rw [ok_bind, OutputWalk.step, hwidth, if_pos hdims, advance_ok _ _ (by simp)]
      simp [Nat.div_div_eq_div_mul, Nat.mul_comm, Nat.add_comm]

/-- An element of the input is folded into the output element at its coordinate off the reduced axes. -/
theorem reduceOutputOffset_rowIndex {c : List Nat} (hc : Coordinate inShape c) :
    reduceOutputOffset (rowIndex inShape c) inShape dims keepdims (reducedShape inShape dims keepdims) =
      .ok (rowIndex (reducedShape inShape dims keepdims) (outputCoordinate dims keepdims c)) := by
  have hturns := @outputWalk_turns dims keepdims [] inShape [] (rowIndex inShape c) hc.positive
  rw [digits_rowIndex hc] at hturns
  rw [reducedShape_eq, reduceOutputOffset, range_eq_range']
  exact congrArg (· >>= _) hturns

end Output

end EffectTorch
