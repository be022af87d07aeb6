import EffectTorch.Lib.UnitAxes

/-!
# Permutations that move no elements

`permute_moves_only_unit_axes` of `graph/src/lib.rs`, for the axes of a valid permutation.

Result: `permuteMovesOnlyUnitAxes_iff`: lowering takes an alias for a permutation exactly when that
leaves the elements in their order.
-/

namespace EffectTorch
open List Lib

/-- The source axes in output order against the axes in input order, unit axes left out. `dims` names each
axis once. -/
def permuteMovesOnlyUnitAxes (shape dims : List Nat) : Bool :=
  let nonUnit := (shape.zipIdx.filter fun (extent, _) => extent ≠ 1).map fun (_, axis) => axis
  dims.filter (fun source => shape.getD source 0 ≠ 1) == nonUnit

section Permuted

variable {shape dims : List Nat}

theorem nonUnit_eq (shape : List Nat) : ((shape.zipIdx.filter fun (extent, _) => extent ≠ 1).map fun (_, axis) => axis) =
    (List.range shape.length).filter fun axis => shape.getD axis 0 ≠ 1 := by
  have hzip : shape.zipIdx = (List.range shape.length).map fun axis => (shape.getD axis 0, axis) := by
    refine ext_getElem (by simp) fun i h _ => ?_
    have hi : i < shape.length := by simpa using h
    simp [hi]
  rw [hzip, filter_map, map_map]
  exact map_id' _

theorem permuteMovesOnlyUnitAxes_eq : permuteMovesOnlyUnitAxes shape dims = true ↔
    dims.filter (fun axis => shape.getD axis 0 ≠ 1) = (List.range shape.length).filter fun axis => shape.getD axis 0 ≠ 1 := by
  rw [permuteMovesOnlyUnitAxes, beq_iff_eq, nonUnit_eq]

/-- The permuted coordinates keep their index when the strides along the axes are row-major. -/
theorem rowIndex_scatter_iff (hdims : dims.Perm (List.range shape.length)) (hpos : 0 ∉ shape) :
    (∀ c, Coordinate (dims.map (shape.getD · 0)) c → rowIndex shape (scatter dims c) = rowIndex (dims.map (shape.getD · 0)) c) ↔
      RowMajor (dims.map (shape.getD · 0)) (dims.map ((rowStrides shape).getD · 0)) := by
  have hstrides : (rowStrides shape).length = shape.length := by simp [rowStrides]
  have hzero : 0 ∉ dims.map (shape.getD · 0) := fun hmem => by
    have hperm := hdims.map (shape.getD · 0)
    rw [map_getD_range fun d => d, map_id'] at hperm
    exact hpos (hperm.mem_iff.mp hmem)
  rw [← dot_eq_rowIndex_iff (by simp) hzero]
  refine forall₂_congr fun c hc => ?_
  rw [dot_gather (hstrides ▸ hdims) (by simpa using hc.length_eq), dot_rowStrides (coordinate_scatter hdims hc)]

/-- Only an order that moves unit axes leaves the elements in their order. -/
theorem permuteMovesOnlyUnitAxes_iff (shape dims : List Nat) (hpos : 0 ∉ shape) (hdims : dims.Perm (List.range shape.length)) :
    permuteMovesOnlyUnitAxes shape dims = true ↔ ∀ (α : Type) (t : List Nat → α),
      elements (dims.map (shape.getD · 0)) (fun c => t (scatter dims c)) = elements shape t := by
  have hrange : RowMajor ((List.range shape.length).map (shape.getD · 0)) ((List.range shape.length).map ((rowStrides shape).getD · 0)) := by
    have hstrides : (List.range shape.length).map ((rowStrides shape).getD · 0) = rowStrides shape := by
      have h := map_getD_range (fun d => d) (rowStrides shape)
      rwa [map_id', show (rowStrides shape).length = shape.length by simp [rowStrides]] at h
    rw [hstrides, map_getD_range fun d => d, map_id']
    exact rowMajor_rowStrides shape
  rw [elements_scatter hdims, rowIndex_scatter_iff hdims hpos, permuteMovesOnlyUnitAxes_eq]
  constructor
  · intro h
    rw [← rowMajor_filter, h, rowMajor_filter]
    exact hrange
  · intro h
    refine RowMajor.unique ((rowMajor_filter dims).mpr h) ((rowMajor_filter _).mpr hrange) (hdims.filter _) fun axis haxis => ?_
    obtain ⟨hmem, hmany⟩ := mem_filter.mp haxis
    have hlt : axis < shape.length := mem_range.mp (hdims.mem_iff.mp hmem)
    have hextent : shape.getD axis 0 ∈ shape := by
      rw [getD_eq_getElem _ _ hlt]
      exact getElem_mem hlt
    have hne : shape.getD axis 0 ≠ 1 := by simpa using hmany
    exact Nat.lt_of_le_of_ne (Nat.pos_of_ne_zero fun hzero => hpos (hzero ▸ hextent)) hne.symm

theorem permuteMovesOnlyUnitAxes_iff_three : permuteMovesOnlyUnitAxes [2, 1, 3] [1, 0, 2] = true ↔ ∀ (α : Type) (t : List Nat → α),
    elements ([1, 0, 2].map ([2, 1, 3].getD · 0)) (fun c => t (scatter [1, 0, 2] c)) = elements [2, 1, 3] t :=
  permuteMovesOnlyUnitAxes_iff [2, 1, 3] [1, 0, 2] (by decide) (by decide)

/-- The cases of the source's test. -/
example : [([2, 1, 2, 2], [0, 2, 1, 3]), ([1, 3], [1, 0]), ([2, 3], [0, 1]), ([2, 3], [1, 0]), ([2, 2, 1], [1, 0, 2])].map
    (fun p => permuteMovesOnlyUnitAxes p.1 p.2) = [true, true, true, false, false] := by decide

end Permuted

end EffectTorch
