import EffectTorch.Lib.Odometer
import Mathlib.Data.List.Pairwise

/-!
# Axes in another order

The axes of a tensor with their extents and strides, listed in some order. Axes of extent one do not
count; the others can be listed in one order only when the strides are row-major.

Results:
1. `rowMajor_filter`: only the axes with more than one position count.
2. `RowMajor.unique`: two row-major orders of the same axes are one.
3. `elements_scatter`: when a permuted tensor has its elements in the old order.
-/

namespace Lib
open List

section Order

variable {ι : Type} {extent stride : ι → Nat}

theorem prod_filter (axes : List ι) : ((axes.filter (extent · ≠ 1)).map extent).prod = (axes.map extent).prod := by
  induction axes with
  | nil => rfl
  | cons a axes ih =>
    by_cases h : extent a = 1
    · rw [filter_cons_of_neg (by simpa using h), ih, map_cons, prod_cons, h, Nat.one_mul]
    · rw [filter_cons_of_pos (by simpa using h), map_cons, map_cons, prod_cons, prod_cons, ih]

/-- Only the axes with more than one position count. -/
theorem rowMajor_filter (axes : List ι) : RowMajor ((axes.filter (extent · ≠ 1)).map extent) ((axes.filter (extent · ≠ 1)).map stride) ↔
    RowMajor (axes.map extent) (axes.map stride) := by
  induction axes with
  | nil => exact Iff.rfl
  | cons a axes ih =>
    by_cases h : extent a = 1
    · rw [filter_cons_of_neg (by simpa using h), ih]
      exact ⟨fun hrest => ⟨.inl h, hrest⟩, And.right⟩
    · rw [filter_cons_of_pos (by simpa using h), map_cons, map_cons, map_cons, map_cons, RowMajor, RowMajor,
        prod_filter, ih]

/-- The stride of an axis, over its positions, stays within the tensor. -/
theorem RowMajor.stride_mul_le {axes : List ι} (h : RowMajor (axes.map extent) (axes.map stride)) (hmany : ∀ a ∈ axes, 1 < extent a)
    {a : ι} (ha : a ∈ axes) : stride a < (axes.map extent).prod := by
  induction axes with
  | nil => exact absurd ha not_mem_nil
  | cons b axes ih =>
    have hzero : 0 ∉ axes.map extent := fun hmem => by
      obtain ⟨c, hc, hextent⟩ := mem_map.mp hmem
      exact absurd (hmany c (mem_cons_of_mem b hc)) (by rw [hextent]; decide)
    have hpos : 0 < (axes.map extent).prod := rowIndex_last hzero ▸ Nat.succ_pos _
    have hb := hmany b mem_cons_self
    rw [map_cons, prod_cons]
    have hgrow : (axes.map extent).prod < extent b * (axes.map extent).prod := (Nat.lt_mul_iff_one_lt_left hpos).mpr hb
    rcases mem_cons.mp ha with rfl | ha
    · obtain ⟨hunit | hstride, -⟩ := h
      · exact absurd hunit (Nat.ne_of_gt hb)
      · exact hstride ▸ hgrow
    · exact Nat.lt_trans (ih h.2 (fun c hc => hmany c (mem_cons_of_mem b hc)) ha) hgrow

/-- Row-major strides fall along the axes. -/
theorem RowMajor.pairwise {axes : List ι} (h : RowMajor (axes.map extent) (axes.map stride)) (hmany : ∀ a ∈ axes, 1 < extent a) :
    axes.Pairwise fun a b => stride b < stride a := by
  induction axes with
  | nil => exact .nil
  | cons a axes ih =>
    have hrest : ∀ b ∈ axes, 1 < extent b := fun b hb => hmany b (mem_cons_of_mem a hb)
    refine .cons (fun b hb => ?_) (ih h.2 hrest)
    obtain ⟨hunit | hstride, htail⟩ := h
    · exact absurd hunit (Nat.ne_of_gt (hmany a mem_cons_self))
    · exact hstride ▸ RowMajor.stride_mul_le htail hrest hb

/-- Two row-major orders of the same axes are one. -/
theorem RowMajor.unique {axes axes' : List ι} (h : RowMajor (axes.map extent) (axes.map stride))
    (h' : RowMajor (axes'.map extent) (axes'.map stride)) (hperm : axes.Perm axes') (hmany : ∀ a ∈ axes, 1 < extent a) : axes = axes' :=
  hperm.eq_of_pairwise (fun _ _ _ _ hlt hgt => absurd (Nat.lt_trans hlt hgt) (Nat.lt_irrefl _)) (h.pairwise hmany)
    (h'.pairwise fun a ha => hmany a (hperm.mem_iff.mpr ha))

end Order

/-! ## Permuted tensors -/

/-- The elements of a tensor, the last component running fastest. -/
def elements {α : Type} (shape : List Nat) (t : List Nat → α) : List α :=
  (List.range shape.prod).map fun i => t (unravel shape i)

/-- The strides of a tensor whose elements are in their order. -/
def rowStrides (shape : List Nat) : List Nat :=
  (List.range shape.length).map fun axis => (shape.drop (axis + 1)).prod

section Permuted

variable {shape dims : List Nat}

theorem rowMajor_rowStrides (shape : List Nat) : RowMajor shape (rowStrides shape) := by
  induction shape with
  | nil => trivial
  | cons d shape ih =>
    rw [rowStrides, length_cons, range_succ_eq_map, map_cons, map_map]
    exact ⟨.inr rfl, ih⟩

theorem dot_rowStrides {c : List Nat} (hc : Coordinate shape c) : dot c (rowStrides shape) = rowIndex shape c :=
  (rowMajor_rowStrides shape).dot_eq (by simp [rowStrides]) hc

/-- A permuted tensor has its elements in the old order, whatever they are, when its coordinates keep their index. -/
theorem elements_scatter (hdims : dims.Perm (List.range shape.length)) :
    (∀ (α : Type) (t : List Nat → α), elements (dims.map (shape.getD · 0)) (fun c => t (scatter dims c)) = elements shape t) ↔
      ∀ c, Coordinate (dims.map (shape.getD · 0)) c → rowIndex shape (scatter dims c) = rowIndex (dims.map (shape.getD · 0)) c := by
  have hprod : (dims.map (shape.getD · 0)).prod = shape.prod := by
    rw [(hdims.map _).prod_eq, map_getD_range fun d => d, map_id']
  constructor
  · intro h c hc
    have hlt := rowIndex_lt hc
    have hget := congrArg (·[rowIndex (dims.map (shape.getD · 0)) c]?) (h Nat (rowIndex shape))
    simp only [elements, List.getElem?_map, List.getElem?_range hlt, List.getElem?_range (hprod ▸ hlt), Option.map_some,
      Option.some.injEq, unravel_rowIndex hc] at hget
    rw [hget, (rowIndex_unravel (hprod ▸ hlt)).2]
  · intro h α t
    rw [elements, elements, hprod]
    refine map_congr_left fun i hi => congrArg t ?_
    have hlt : i < (dims.map (shape.getD · 0)).prod := hprod ▸ mem_range.mp hi
    obtain ⟨hc, hindex⟩ := rowIndex_unravel hlt
    rw [← unravel_rowIndex (coordinate_scatter hdims hc), h _ hc, hindex]

end Permuted

end Lib
