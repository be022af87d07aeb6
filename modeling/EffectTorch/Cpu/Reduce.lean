import EffectTorch.Cpu.Destination

/-!
# Reductions

`runtime-cpu/src/reduce.rs`: reductions over a list of dimensions, `argmax` and `argmin` along one
and the running sums along one. The kernels index the storage directly, by the offset and the
strides of the input. The arithmetic on addresses does not overflow, since the addresses of a tensor
lie in its buffer.

Results:
1. `outputBase_rowIndex`: where the kernels start to read for an output element.
2. `validateReduceDestination_ready`: the destination that the kernels accept.
-/

namespace EffectTorch
open List Lib

namespace Reduce

/-! ## Validation -/

def validateDims (shape dims : List Nat) (operation : String) : Fallible String Unit :=
  match dims.find? (shape.length ≤ ·) with
  | some dimension => .error (.panic (operation ++ ": reduction dimension " ++ toString dimension ++
      " is out of bounds for rank " ++ toString shape.length))
  | none => .ok ()

def keptShape (shape dims : List Nat) : List Nat :=
  dims.foldl (fun output dimension => output.set dimension 1) shape

def validateReduceDestination {U : Type} [CpuElem U] (operation : String) (layout : Layout) (dims : List Nat)
    (destination : CpuDestination U) : Fallible String Unit := do
  validateDims layout.shape dims operation
  destination.validateCurrent operation
  rejectIf (destination.shape.length ≠ layout.shape.length)
    (operation ++ " destination rank mismatch: expected " ++ toString layout.shape.length ++ ", got " ++
      toString destination.shape.length)
  (layout.shape.zip destination.shape).zipIdx.foldlM (fun _ ((input, output), dimension) =>
    let expected := if dimension ∈ dims then 1 else input
    rejectIf (output ≠ expected) (operation ++ " destination shape mismatch at dimension " ++
      toString dimension ++ ": expected " ++ toString expected ++ ", got " ++ toString output)) ()

/-! ## Kernels -/

/-- The width of a dimension in the loop that takes an output index apart. -/
def outputWidth (shape dims : List Nat) (dimension : Nat) : Nat :=
  if dimension ∈ dims then 1 else max (shape.getD dimension 0) 1

/-- Where the elements of an output index start. -/
def outputBase (layout : Layout) (dims : List Nat) (outputIndex : Nat) : Nat :=
  (odometer (outputWidth layout.shape dims) (layout.strides.getD · 0) (List.range layout.rank)
    layout.offset outputIndex).1

/-- The element that the counter `reducedIndex` of the reduced elements names. -/
def sourceIndex (layout : Layout) (dims : List Nat) (base reducedIndex : Nat) : Nat :=
  (odometer (fun dimension => max (layout.shape.getD dimension 0) 1) (layout.strides.getD · 0) dims base
    reducedIndex).1

/-- The number of reduced elements, as the kernel counts it. -/
def reducedElements (shape dims : List Nat) : Option Nat :=
  dims.foldlM (fun total dimension => checkedMul total (shape.getD dimension 0)) 1

def reduceWithAccumulator {T A : Type} [CpuElem T] (operation : String) (source : List T) (layout : Layout)
    (dims : List Nat) (init : A) (reduce : A → T → A) (finish : A → T) (destination : CpuDestination T) :
    Fallible String (List T) := do
  validateReduceDestination operation layout dims destination
  let reducedElements ← okOr (reducedElements layout.shape dims)
    (operation ++ " reduction element count overflow")
  destination.writeCurrent operation fun output =>
    (List.range output.length).mapM fun outputIndex => do
      let base := outputBase layout dims outputIndex
      let accumulator ← (List.range reducedElements).foldlM (fun accumulator reducedIndex => do
        let value ← readAt source (sourceIndex layout dims base reducedIndex)
        .ok (reduce accumulator value)) init
      .ok (finish accumulator)

/-- The loop along the reduced dimension: the first index of the best value, and the value. -/
def bestAlong {T : Type} [Comparable T] (source : List T) (layout : Layout) (dimension : Nat) (pickMax : Bool)
    (base : Nat) : Fallible String (Nat × T) := do
  let reducedLen := layout.shape.getD dimension 0
  let reducedStride := layout.strides.getD dimension 0
  let first ← readAt source base
  (List.range' 1 (reducedLen - 1)).foldlM (fun (bestIndex, bestValue) index => do
    let value ← readAt source (base + index * reducedStride)
    let better := if pickMax then below bestValue value else below value bestValue
    .ok (if better then (index, value) else (bestIndex, bestValue))) (0, first)

def argreduceIntoImpl {T : Type} [Comparable T] (operation : String) (source : List T) (layout : Layout)
    (dimension : Nat) (pickMax : Bool) (destination : CpuDestination UInt32) : Fallible String (List UInt32) := do
  validateReduceDestination operation layout [dimension] destination
  destination.writeCurrent operation fun output =>
    (List.range output.length).mapM fun outputIndex => do
      let (bestIndex, _) ← bestAlong source layout dimension pickMax (outputBase layout [dimension] outputIndex)
      .ok (UInt32.ofNat bestIndex)

def argmaxInto {T : Type} [Comparable T] (source : List T) (layout : Layout) (dimension : Nat)
    (destination : CpuDestination UInt32) : Fallible String (List UInt32) :=
  argreduceIntoImpl "argmax" source layout dimension true destination

def argminInto {T : Type} [Comparable T] (source : List T) (layout : Layout) (dimension : Nat)
    (destination : CpuDestination UInt32) : Fallible String (List UInt32) :=
  argreduceIntoImpl "argmin" source layout dimension false destination

def contiguousStride (shape : List Nat) (dimension : Nat) : Nat :=
  (shape.drop (dimension + 1)).prod

/-- The dimensions that the running sums leave alone. -/
def groupDims (layout : Layout) (dimension : Nat) : List Nat :=
  (List.range layout.rank).filter (· ≠ dimension)

/-- The running sums of one group. -/
def cumsumGroup {T A : Type} [Inhabited A] (source : List T) (layout : Layout) (dimension : Nat)
    (add : A → T → A) (narrow : A → T) (output : List T) (group : Nat) : Fallible String (List T) := do
  let sourceBase := sourceIndex layout (groupDims layout dimension) layout.offset group
  let outputBase := (odometer (fun current => max (layout.shape.getD current 0) 1)
    (contiguousStride layout.shape) (groupDims layout dimension) 0 group).1
  let outputStride := contiguousStride layout.shape dimension
  let written ← (List.range (layout.shape.getD dimension 0)).foldlM (fun (accumulator, output) index => do
    let value ← readAt source (sourceBase + index * layout.strides.getD dimension 0)
    let accumulator := add accumulator value
    let output ← writeAt output (outputBase + index * outputStride) (narrow accumulator)
    .ok (accumulator, output)) ((default : A), output)
  .ok written.2

def cumsumWithAccumulator {T A : Type} [CpuElem T] [Inhabited A] (source : List T) (layout : Layout)
    (dimension : Nat) (destination : CpuDestination T) (add : A → T → A) (narrow : A → T) :
    Fallible String (List T) := do
  rejectIf (layout.shape.length ≤ dimension) ("cumsum dimension " ++ toString dimension ++
    " is out of bounds for rank " ++ toString layout.shape.length)
  rejectIf (destination.shape ≠ layout.shape) ("cumsum destination shape mismatch: expected " ++
    toString layout.shape ++ ", got " ++ toString destination.shape)
  destination.validateCurrent "cumsum"
  let groups ← okOr (reducedElements layout.shape (groupDims layout dimension)) "cumsum group count overflow"
  destination.writeCurrent "cumsum" fun output =>
    (List.range groups).foldlM (cumsumGroup source layout dimension add narrow) output

/-! ## Shapes -/

section Shapes

variable {shape dims c : List Nat}

theorem length_keptShape (shape dims : List Nat) : (keptShape shape dims).length = shape.length := by
  induction dims generalizing shape with
  | nil => rfl
  | cons d dims ih => exact (ih (shape.set d 1)).trans length_set

theorem getD_keptShape {i : Nat} (hi : i < shape.length) :
    (keptShape shape dims).getD i 0 = if i ∈ dims then 1 else shape.getD i 0 := by
  induction dims generalizing shape with
  | nil => rfl
  | cons d dims ih =>
    have hset := @ih (shape.set d 1) (by rwa [length_set])
    refine hset.trans ?_
    by_cases hmem : i ∈ dims
    · rw [if_pos hmem, if_pos (mem_cons_of_mem d hmem)]
    · rw [if_neg hmem]
      by_cases heq : d = i
      · subst heq
        rw [if_pos mem_cons_self, getD_set_self hi]
      · rw [if_neg fun h => hmem ((mem_cons.mp h).resolve_left (Ne.symm heq)), getD_set_ne heq]

theorem keptShape_eq (shape dims : List Nat) :
    keptShape shape dims = (List.range shape.length).map fun i => if i ∈ dims then 1 else shape.getD i 0 := by
  refine ext_getElem (by rw [length_keptShape, length_map, length_range]) fun i hi _ => ?_
  rw [← getD_eq_getElem _ 0 hi, getD_keptShape (length_keptShape shape dims ▸ hi)]
  simp

/-- A coordinate of the kept shape is zero along the reduced dimensions. -/
theorem kept_zero (hc : Coordinate (keptShape shape dims) c) {d : Nat} (hd : d ∈ dims) : c.getD d 0 = 0 := by
  obtain ⟨hlen, hlt⟩ := coordinate_iff_getD.mp hc
  rw [length_keptShape] at hlen hlt
  by_cases hin : d < shape.length
  · have hone := hlt d hin
    rw [getD_keptShape hin, if_pos hd] at hone
    exact Nat.lt_one_iff.mp hone
  · exact getD_eq_default _ _ (hlen ▸ Nat.not_lt.mp hin)

/-- A coordinate of the kept shape of an input that is not empty is one of the input. -/
theorem kept_coordinate (hpos : 0 ∉ shape) (hc : Coordinate (keptShape shape dims) c) : Coordinate shape c := by
  obtain ⟨hlen, hlt⟩ := coordinate_iff_getD.mp hc
  rw [length_keptShape] at hlen hlt
  refine coordinate_iff_getD.mpr ⟨hlen, fun i hi => ?_⟩
  have hkept := hlt i hi
  rw [getD_keptShape hi] at hkept
  split at hkept
  · have hwidth : shape.getD i 0 ≠ 0 := by
      rw [getD_eq_getElem _ 0 hi]
      exact fun h => hpos (h ▸ getElem_mem hi)
    exact Nat.lt_of_lt_of_le hkept (Nat.pos_of_ne_zero hwidth)
  · exact hkept

/-- The kernels start at the coordinate of the output element. -/
theorem outputBase_rowIndex {layout : Layout} (hc : Coordinate (keptShape layout.shape dims) c) :
    outputBase layout dims (rowIndex (keptShape layout.shape dims) c) = layout.address c := by
  have hwidths : (List.range layout.rank).map (outputWidth layout.shape dims) = keptShape layout.shape dims := by
    rw [keptShape_eq]
    refine map_congr_left fun i hi => ?_
    have hlt : i < layout.shape.length := mem_range.mp hi
    rw [outputWidth]
    split
    · rfl
    · next hmem =>
      -- a dimension that is kept is positive, since the kept shape has a coordinate
      refine Nat.max_eq_left (Nat.pos_of_ne_zero fun hzero => hc.positive ?_)
      rw [keptShape_eq]
      exact mem_map.mpr ⟨i, mem_range.mpr hlt, by rw [if_neg hmem, hzero]⟩
  have hstrides : (List.range layout.rank).map (layout.strides.getD · 0) = layout.strides := by
    have hid := map_getD_range (fun s => s) layout.strides
    rwa [map_id', ← layout.rank_eq] at hid
  rw [outputBase, odometer_eq, hwidths, hstrides, digits_rowIndex hc]
  rfl

end Shapes

/-! ## Destinations -/

theorem validateDims_ok {shape dims : List Nat} {operation : String} {u : Unit} :
    validateDims shape dims operation = .ok u ↔ ∀ d ∈ dims, d < shape.length := by
  unfold validateDims
  split
  · next d hd =>
    refine ⟨nofun, fun h => ?_⟩
    have hle := List.find?_some hd
    exact absurd (h d (mem_of_find?_eq_some hd)) (Nat.not_lt.mpr (of_decide_eq_true hle))
  · next hnone =>
    refine ⟨fun _ d hd => ?_, fun _ => rfl⟩
    exact Nat.not_le.mp fun hle => List.find?_eq_none.mp hnone d hd (decide_eq_true hle)

/-- A destination of the kept shape that is ready is accepted. -/
theorem validateReduceDestination_ready {U : Type} [CpuElem U] {layout : Layout} {dims : List Nat}
    {destination : CpuDestination U} (hdims : ∀ d ∈ dims, d < layout.shape.length) (hready : destination.Ready)
    (hshape : destination.shape = keptShape layout.shape dims) (operation : String) :
    validateReduceDestination operation layout dims destination = .ok () := by
  refine bind_ok.mpr ⟨(), validateDims_ok.mpr hdims, bind_ok.mpr ⟨(), hready.validateCurrent operation, ?_⟩⟩
  refine bind_ok.mpr ⟨(), rejectIf_ok.mpr (not_not_intro (hshape ▸ length_keptShape layout.shape dims)), ?_⟩
  refine foldlM_check.mpr fun ⟨⟨input, output⟩, dimension⟩ hmem => rejectIf_ok.mpr (not_not_intro ?_)
  have hget := mem_zipIdx_iff_getElem?.mp hmem
  obtain ⟨hinput, houtput⟩ := List.getElem?_zip_eq_some.mp hget
  obtain ⟨hlt, hinput⟩ := List.getElem?_eq_some_iff.mp hinput
  rw [hshape] at houtput
  obtain ⟨hlt', houtput⟩ := List.getElem?_eq_some_iff.mp houtput
  dsimp only at hlt hinput hlt' houtput
  rw [← houtput, ← getD_eq_getElem _ 0 hlt', getD_keptShape hlt, getD_eq_getElem _ 0 hlt, hinput]

end Reduce

end EffectTorch
