import EffectTorch.Lib.UnitAxes
import Mathlib.Data.List.Sort

/-!
# Counters along axes in their order

A counter along some axes of a tensor, in the order of the axes, goes through the elements in theirs:
the stride of an axis exceeds what the later axes add up to.

Results:
1. `dot_lt`: components that come later name a later element.
2. `placed_pairwise`: put along axes in their order, counters name elements in theirs.
-/

namespace Lib
open List

/-- Each stride exceeds what the axes after it reach. -/
def Falls : List Nat → List Nat → Prop
  | _ :: widths, s :: ss => dot (lastCoordinate widths) ss < s ∧ Falls widths ss
  | _, _ => True

section Falls

variable {widths ss x y shape c ds : List Nat}

theorem dot_lt (h : Falls widths ss) (hlen : widths.length = ss.length) (hx : Coordinate widths x) (hy : Coordinate widths y)
    (hlt : rowIndex widths x < rowIndex widths y) : dot x ss < dot y ss := by
  induction hx generalizing ss y with
  | nil =>
    cases hy
    exact absurd hlt (Nat.lt_irrefl _)
  | @cons i w x widths hi hx ih =>
    obtain ⟨s, ss, rfl⟩ := exists_cons_of_length_eq_add_one hlen.symm
    cases hy with
    | @cons j _ y _ hj hy =>
      rw [rowIndex_cons, rowIndex_cons] at hlt
      rw [dot_cons, dot_cons]
      rcases Nat.lt_trichotomy i j with hij | rfl | hij
      · calc i * s + dot x ss ≤ i * s + dot (lastCoordinate widths) ss := Nat.add_le_add_left (dot_le_last hx ss) _
          _ < i * s + s := Nat.add_lt_add_left h.1 _
          _ = (i + 1) * s := (Nat.succ_mul i s).symm
          _ ≤ j * s := Nat.mul_le_mul_right s hij
          _ ≤ j * s + dot y ss := Nat.le_add_right _ _
      · exact Nat.add_lt_add_left (ih h.2 (Nat.succ.inj hlen) hy (Nat.lt_of_add_lt_add_left hlt)) _
      · -- the first component cannot come back
        refine absurd hlt (Nat.not_lt.mpr ?_)
        calc j * widths.prod + rowIndex widths y ≤ j * widths.prod + widths.prod :=
              Nat.add_le_add_left (Nat.le_of_lt (rowIndex_lt hy)) _
          _ = (j + 1) * widths.prod := (Nat.succ_mul j _).symm
          _ ≤ i * widths.prod := Nat.mul_le_mul_right _ hij
          _ ≤ i * widths.prod + rowIndex widths x := Nat.le_add_right _ _

theorem RowMajor.falls (hpos : 0 ∉ shape) (h : ∀ i < shape.length, ss.getD i 0 = (shape.drop (i + 1)).prod)
    (hmajor : RowMajor shape ss) (hlen : shape.length = ss.length) : Falls shape ss := by
  induction shape generalizing ss with
  | nil => trivial
  | cons d shape ih =>
    obtain ⟨s, ss, rfl⟩ := exists_cons_of_length_eq_add_one hlen.symm
    obtain ⟨_, hrest⟩ := not_or.mp fun hmem => hpos (mem_cons.mpr hmem)
    have hs : s = shape.prod := h 0 (Nat.succ_pos _)
    refine ⟨?_, ih hrest (fun i hi => h (i + 1) (Nat.succ_lt_succ hi)) hmajor.2 (Nat.succ.inj hlen)⟩
    rw [hmajor.2.dot_eq (Nat.succ.inj hlen) (coordinate_last hrest), hs]
    exact Nat.lt_of_succ_le (Nat.le_of_eq (rowIndex_last hrest))

/-- Some of the axes, in the same order. -/
theorem Falls.sublist {ι : Type} {width stride : ι → Nat} {axes axes' : List ι} (hsub : axes.Sublist axes')
    (h : Falls (axes'.map width) (axes'.map stride)) : Falls (axes.map width) (axes.map stride) ∧
      dot (lastCoordinate (axes.map width)) (axes.map stride) ≤ dot (lastCoordinate (axes'.map width)) (axes'.map stride) := by
  induction hsub with
  | slnil => exact ⟨h, Nat.le_refl _⟩
  | cons a _ ih =>
    obtain ⟨hfalls, hle⟩ := ih h.2
    exact ⟨hfalls, Nat.le_trans hle (Nat.le_add_left _ _)⟩
  | cons_cons a _ ih =>
    obtain ⟨hfalls, hle⟩ := ih h.2
    exact ⟨⟨Nat.lt_of_le_of_lt hle h.1, hfalls⟩, Nat.add_le_add_left hle _⟩

theorem falls_rowStrides (hpos : 0 ∉ shape) (hsorted : ds.Pairwise (· < ·)) (hin : ∀ d ∈ ds, d < shape.length) :
    Falls (ds.map (shape.getD · 0)) (ds.map ((rowStrides shape).getD · 0)) := by
  have hlen : (rowStrides shape).length = shape.length := by rw [rowStrides, length_map, length_range]
  have hsub : ds.Sublist (List.range shape.length) := by
    refine sublist_of_subperm_of_pairwise (subperm_of_subset ?_ fun d hd => mem_range.mpr (hin d hd))
      (hsorted.imp Nat.le_of_lt) (pairwise_lt_range.imp Nat.le_of_lt)
    exact hsorted.imp Nat.ne_of_lt
  refine (Falls.sublist hsub ?_).1
  have hwidths : (List.range shape.length).map (shape.getD · 0) = shape := (map_getD_range (fun d => d) shape).trans shape.map_id'
  have hstrides : (List.range shape.length).map ((rowStrides shape).getD · 0) = rowStrides shape := by
    rw [← hlen]
    exact (map_getD_range (fun d => d) (rowStrides shape)).trans (map_id' _)
  rw [hwidths, hstrides]
  refine (rowMajor_rowStrides shape).falls hpos (fun i hi => ?_) hlen.symm
  simp [rowStrides, hi]

/-- Put along axes in their order, counters name elements in theirs. -/
theorem placed_pairwise (hsorted : ds.Pairwise (· < ·)) (hin : ∀ d ∈ ds, d < shape.length) (hc : Coordinate shape c)
    (hzero : ∀ d ∈ ds, c.getD d 0 = 0) :
    ((List.range (ds.map (shape.getD · 0)).prod).map fun n => place c ds (digits (ds.map (shape.getD · 0)) n)).Pairwise
      fun a b => rowIndex shape a < rowIndex shape b := by
  have hpos : 0 ∉ ds.map (shape.getD · 0) := fun hmem => by
    obtain ⟨d, hd, heq⟩ := mem_map.mp hmem
    exact hc.positive (heq ▸ getD_eq_getElem shape 0 (hin d hd) ▸ getElem_mem _)
  refine pairwise_map.mpr (pairwise_lt_range.imp_of_mem fun {n m} hn hm hlt => ?_)
  have hdn := coordinate_digits hpos n
  have hdm := coordinate_digits hpos m
  have hlen : ∀ {xs}, Coordinate (ds.map (shape.getD · 0)) xs → ds.length = xs.length := fun hxs => by
    rw [hxs.length_eq, length_map]
  have hin' : ∀ d ∈ ds, d < c.length := fun d hd => hc.length_eq ▸ hin d hd
  have hnodup : ds.Nodup := hsorted.imp Nat.ne_of_lt
  rw [← dot_rowStrides (coordinate_place hc hdn), ← dot_rowStrides (coordinate_place hc hdm),
    dot_place hnodup hin' hzero (hlen hdn), dot_place hnodup hin' hzero (hlen hdm)]
  refine Nat.add_lt_add_left (dot_lt (falls_rowStrides hc.positive hsorted hin) (by simp) hdn hdm ?_) _
  rwa [rowIndex_digits, rowIndex_digits, Nat.mod_eq_of_lt (mem_range.mp hn), Nat.mod_eq_of_lt (mem_range.mp hm)]

end Falls

end Lib
