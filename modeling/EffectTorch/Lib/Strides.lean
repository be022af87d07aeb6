import EffectTorch.Lib.Fault
import Mathlib.Data.List.Perm.Basic
import Mathlib.Algebra.BigOperators.Group.List.Basic
import Mathlib.Algebra.Order.Group.Nat
import Mathlib.Algebra.Ring.Nat

/-!
# Strides

A coordinate of a shape has one component below each dimension. A row of strides
sends it to the sum of its components, each times its stride.

Results:
1. `dot_le_last`: no coordinate is sent further than the last one.
2. `rowIndex_lt`: the row-major index stays below the number of coordinates.
3. `dot_eq_rowIndex_iff`: strides send every coordinate to its row-major index exactly
   when each of them is the number of coordinates of the dimensions behind it,
   dimensions of size one excepted.
4. `dot_gather`, `dot_squash`, `dot_modify`: what permuting, repeating and shifting
   the strides does to the coordinates.
-/

namespace Lib
open List

/-! ## Coordinates -/

/-- `c` has one component below each dimension of `shape`. -/
abbrev Coordinate (shape c : List Nat) : Prop := List.Forall₂ (· < ·) c shape

/-- The sum of the components, each times its stride. -/
def dot : List Nat → List Nat → Nat
  | c :: cs, s :: ss => c * s + dot cs ss
  | _, _ => 0

/-- The number of coordinates before `c`, the last component running fastest. -/
def rowIndex : List Nat → List Nat → Nat
  | _ :: shape, c :: cs => c * shape.prod + rowIndex shape cs
  | _, _ => 0

def origin (shape : List Nat) : List Nat :=
  shape.map fun _ => 0

def lastCoordinate (shape : List Nat) : List Nat :=
  shape.map (· - 1)

@[simp] theorem dot_nil_left (ss : List Nat) : dot [] ss = 0 := rfl

@[simp] theorem dot_nil_right (cs : List Nat) : dot cs [] = 0 := by
  cases cs <;> rfl

@[simp] theorem dot_cons (c s : Nat) (cs ss : List Nat) :
    dot (c :: cs) (s :: ss) = c * s + dot cs ss := rfl

@[simp] theorem rowIndex_cons (d c : Nat) (shape cs : List Nat) :
    rowIndex (d :: shape) (c :: cs) = c * shape.prod + rowIndex shape cs := rfl

variable {shape c ss : List Nat}

theorem coordinate_origin (hpos : 0 ∉ shape) : Coordinate shape (origin shape) := by
  induction shape with
  | nil => exact .nil
  | cons d shape ih =>
    obtain ⟨hd, hrest⟩ := not_or.mp fun h => hpos (mem_cons.mpr h)
    exact .cons (Nat.pos_of_ne_zero (Ne.symm hd)) (ih hrest)

theorem coordinate_last (hpos : 0 ∉ shape) : Coordinate shape (lastCoordinate shape) := by
  induction shape with
  | nil => exact .nil
  | cons d shape ih =>
    obtain ⟨hd, hrest⟩ := not_or.mp fun h => hpos (mem_cons.mpr h)
    exact .cons (Nat.sub_lt (Nat.pos_of_ne_zero (Ne.symm hd)) Nat.one_pos) (ih hrest)

/-- An empty shape has no coordinate. -/
theorem not_coordinate (hzero : 0 ∈ shape) : ¬ Coordinate shape c := by
  intro h
  obtain ⟨x, _, hx⟩ := mem_of_forall₂_right h hzero
  exact Nat.not_lt_zero x hx

theorem Coordinate.positive (h : Coordinate shape c) : 0 ∉ shape :=
  fun hzero => not_coordinate hzero h

/-- A coordinate of a last dimension and of those before it. -/
theorem coordinate_concat {d : Nat} (h : Coordinate (shape ++ [d]) c) :
    ∃ cs x, c = cs ++ [x] ∧ Coordinate shape cs ∧ x < d := by
  induction shape generalizing c with
  | nil =>
    obtain ⟨x, _, hlt, hnil, rfl⟩ := forall₂_cons_right_iff.mp h
    obtain rfl := forall₂_nil_right_iff.mp hnil
    exact ⟨[], x, rfl, .nil, hlt⟩
  | cons e shape ih =>
    obtain ⟨y, _, hlt, hrest, rfl⟩ := forall₂_cons_right_iff.mp h
    obtain ⟨cs, x, rfl, hcs, hx⟩ := ih hrest
    exact ⟨y :: cs, x, rfl, .cons hlt hcs, hx⟩

@[simp] theorem dot_origin (shape ss : List Nat) : dot (origin shape) ss = 0 := by
  induction shape generalizing ss with
  | nil => rfl
  | cons d shape ih =>
    cases ss with
    | nil => rfl
    | cons s ss => simpa [origin] using ih ss

@[simp] theorem rowIndex_origin (shape : List Nat) : rowIndex shape (origin shape) = 0 := by
  induction shape with
  | nil => rfl
  | cons d shape ih => simpa [origin] using ih

/-- No coordinate is sent further than the last one. -/
theorem dot_le_last (h : Coordinate shape c) (ss : List Nat) : dot c ss ≤ dot (lastCoordinate shape) ss := by
  induction h generalizing ss with
  | nil => exact Nat.le_refl _
  | cons hlt _ ih =>
    cases ss with
    | nil => exact Nat.zero_le _
    | cons s ss =>
      exact Nat.add_le_add (Nat.mul_le_mul_right s (Nat.le_sub_one_of_lt hlt)) (ih ss)

/-! ## Row-major order -/

/-- The row-major index stays below the number of coordinates. -/
theorem rowIndex_lt (h : Coordinate shape c) : rowIndex shape c < shape.prod := by
  induction h with
  | nil => exact Nat.one_pos
  | @cons x d cs shape hlt _ ih =>
    rw [rowIndex_cons, prod_cons]
    calc x * shape.prod + rowIndex shape cs < x * shape.prod + shape.prod :=
          Nat.add_lt_add_left ih _
      _ = (x + 1) * shape.prod := (Nat.succ_mul _ _).symm
      _ ≤ d * shape.prod := Nat.mul_le_mul_right _ hlt

/-- The last coordinate has the last index. -/
theorem rowIndex_last (hpos : 0 ∉ shape) : rowIndex shape (lastCoordinate shape) + 1 = shape.prod := by
  induction shape with
  | nil => rfl
  | cons d shape ih =>
    obtain ⟨hd, hrest⟩ := not_or.mp fun h => hpos (mem_cons.mpr h)
    have hsucc : d - 1 + 1 = d := Nat.sub_add_cancel (Nat.pos_of_ne_zero (Ne.symm hd))
    calc (d - 1) * shape.prod + rowIndex shape (lastCoordinate shape) + 1
        = (d - 1) * shape.prod + shape.prod := by rw [Nat.add_assoc, ih hrest]
      _ = (d - 1 + 1) * shape.prod := (Nat.succ_mul _ _).symm
      _ = (d :: shape).prod := by rw [hsucc, prod_cons]

/-- Each stride is the number of coordinates of the dimensions behind it. The stride of
a dimension of size one is free: its component is always zero. -/
def RowMajor : List Nat → List Nat → Prop
  | d :: shape, s :: ss => (d = 1 ∨ s = shape.prod) ∧ RowMajor shape ss
  | _, _ => True

theorem RowMajor.dot_eq (h : RowMajor shape ss) (hlen : shape.length = ss.length) (hc : Coordinate shape c) :
    dot c ss = rowIndex shape c := by
  induction hc generalizing ss with
  | nil => rfl
  | @cons x d cs shape hlt _ ih =>
    cases ss with
    | nil => cases hlen
    | cons s ss =>
      rw [dot_cons, rowIndex_cons, ih h.2 (Nat.succ.inj hlen)]
      rcases h.1 with rfl | rfl
      · rw [Nat.lt_one_iff.mp hlt, Nat.zero_mul, Nat.zero_mul]
      · rfl

/-- Strides send every coordinate to its row-major index exactly when each of them is
the number of coordinates of the dimensions behind it. -/
theorem dot_eq_rowIndex_iff (hlen : shape.length = ss.length) (hpos : 0 ∉ shape) :
    (∀ c, Coordinate shape c → dot c ss = rowIndex shape c) ↔ RowMajor shape ss := by
  refine ⟨fun h => ?_, fun h c hc => h.dot_eq hlen hc⟩
  induction shape generalizing ss with
  | nil => trivial
  | cons d shape ih =>
    obtain ⟨hd, hrest⟩ := not_or.mp fun h => hpos (mem_cons.mpr h)
    cases ss with
    | nil => cases hlen
    | cons s ss =>
      refine ⟨?_, ih (Nat.succ.inj hlen) hrest fun c hc => ?_⟩
      · -- the unit step along this dimension, where it has one
        by_cases hone : d = 1
        · exact .inl hone
        · have hstep : 1 < d := Nat.lt_of_le_of_ne (Nat.pos_of_ne_zero (Ne.symm hd)) (Ne.symm hone)
          have hunit := h (1 :: origin shape) (.cons hstep (coordinate_origin hrest))
          exact .inr (by simpa using hunit)
      · have hbelow := h (0 :: c) (.cons (Nat.pos_of_ne_zero (Ne.symm hd)) hc)
        simpa using hbelow

/-! ## Permuting, repeating and shifting -/

theorem dot_eq_sum (hlen : c.length = ss.length) :
    dot c ss = ((List.range ss.length).map fun i => c.getD i 0 * ss.getD i 0).sum := by
  induction c generalizing ss with
  | nil =>
    obtain rfl := length_eq_zero_iff.mp hlen.symm
    rfl
  | cons x c ih =>
    cases ss with
    | nil => cases hlen
    | cons s ss =>
      rw [dot_cons, ih (Nat.succ.inj hlen), length_cons, range_succ_eq_map,
        map_cons, sum_cons, map_map]
      rfl

/-- The coordinate whose component along `axes[i]` is the `i`-th component of `c`. -/
def scatter (axes c : List Nat) : List Nat :=
  (List.range axes.length).map fun a => c.getD (axes.idxOf a) 0

theorem map_getD_range (f : Nat → Nat) (l : List Nat) :
    (List.range l.length).map (fun i => f (l.getD i 0)) = l.map f := by
  refine ext_getElem (by simp) fun i h _ => ?_
  have hi : i < l.length := by simpa using h
  simp [hi]

section Gather

variable {axes c : List Nat} {n : Nat}

/-- Reading the strides along a permutation of the dimensions is reading the components
the other way round. -/
theorem dot_gather {ss : List Nat} (haxes : axes.Perm (List.range ss.length))
    (hc : c.length = axes.length) :
    dot c (axes.map (ss.getD · 0)) = dot (scatter axes c) ss := by
  have hlen : axes.length = ss.length := by simpa using haxes.length_eq
  have hnodup : axes.Nodup := haxes.nodup_iff.mpr nodup_range
  calc dot c (axes.map (ss.getD · 0))
      = ((List.range axes.length).map fun i =>
          c.getD i 0 * (axes.map (ss.getD · 0)).getD i 0).sum := by
        rw [dot_eq_sum (by simpa using hc), length_map]
    _ = ((List.range axes.length).map fun i =>
          c.getD (axes.idxOf (axes.getD i 0)) 0 * ss.getD (axes.getD i 0) 0).sum := by
        refine congrArg List.sum (map_congr_left fun i hi => ?_)
        have hlt : i < axes.length := mem_range.mp hi
        simp [hlt, hnodup.idxOf_getElem]
    _ = (axes.map fun a => c.getD (axes.idxOf a) 0 * ss.getD a 0).sum := by
        rw [map_getD_range (fun a => c.getD (axes.idxOf a) 0 * ss.getD a 0)]
    _ = ((List.range ss.length).map fun a => c.getD (axes.idxOf a) 0 * ss.getD a 0).sum :=
        (haxes.map _).sum_eq
    _ = dot (scatter axes c) ss := by
        rw [dot_eq_sum (by simpa [scatter] using hlen)]
        refine congrArg List.sum (map_congr_left fun a ha => ?_)
        have hlt : a < axes.length := hlen ▸ mem_range.mp ha
        simp [scatter, hlt]

theorem coordinate_scatter {shape : List Nat} (haxes : axes.Perm (List.range shape.length))
    (hc : Coordinate (axes.map (shape.getD · 0)) c) : Coordinate shape (scatter axes c) := by
  have hlen : axes.length = shape.length := by simpa using haxes.length_eq
  have hclen : c.length = axes.length := by simpa using hc.length_eq
  refine forall₂_iff_get.mpr ⟨by simpa [scatter] using hlen, fun a ha ha' => ?_⟩
  have hmem : a ∈ axes := haxes.mem_iff.mpr (mem_range.mpr ha')
  have hidx : axes.idxOf a < axes.length := idxOf_lt_length_iff.mpr hmem
  have hget := hc.get (i := axes.idxOf a) (by rw [hclen]; exact hidx) (by simpa using hidx)
  have hcidx : axes.idxOf a < c.length := hclen ▸ hidx
  simpa [scatter, hcidx, getElem_idxOf, ha'] using hget

end Gather

/-- The coordinate of `shape` that a coordinate of a repetition of it stands for. -/
def squash (shape c : List Nat) : List Nat :=
  List.zipWith (fun d x => if d = 1 then 0 else x) shape c

/-- The strides of a repetition: zero along a dimension that is repeated. -/
def repeatStrides : List Nat → List Nat → List Nat → List Nat
  | d :: shape, s :: ss, d' :: shape' =>
    (if d = 1 ∧ d' ≠ 1 then 0 else s) :: repeatStrides shape ss shape'
  | _, _, _ => []

/-- Every dimension is kept or repeats a dimension of size one. -/
abbrev Repeats (shape shape' : List Nat) : Prop :=
  List.Forall₂ (fun d d' => d = d' ∨ d = 1) shape shape'

/-- Every shape repeats the ones of its rank. -/
theorem repeats_ones (shape : List Nat) : Repeats (List.replicate shape.length 1) shape := by
  induction shape with
  | nil => exact .nil
  | cons d shape ih => exact .cons (.inr rfl) ih

theorem squash_self (hc : Coordinate shape c) : squash shape c = c := by
  induction hc with
  | nil => rfl
  | @cons x d c shape hx _ ih =>
    refine congrArg₂ _ ?_ ih
    show (if d = 1 then 0 else x) = x
    split
    · next hone => exact (Nat.lt_one_iff.mp (hone ▸ hx)).symm
    · rfl

theorem coordinate_squash {shape' : List Nat} (h : Repeats shape shape') (hc : Coordinate shape' c) :
    Coordinate shape (squash shape c) := by
  induction h generalizing c with
  | nil =>
    cases hc
    exact .nil
  | @cons d d' shape shape' hd _ ih =>
    cases hc with
    | @cons x _ c _ hlt hrest =>
      refine .cons ?_ (ih hrest)
      change (if d = 1 then 0 else x) < d
      by_cases hone : d = 1
      · simp [hone]
      · rw [if_neg hone, hd.resolve_right hone]
        exact hlt

theorem dot_squash {shape' : List Nat} (h : Repeats shape shape') (hlen : shape.length = ss.length)
    (hc : Coordinate shape' c) : dot c (repeatStrides shape ss shape') = dot (squash shape c) ss := by
  induction h generalizing ss c with
  | nil =>
    cases hc
    rfl
  | @cons d d' shape shape' hd _ ih =>
    cases ss with
    | nil => cases hlen
    | cons s ss =>
      cases hc with
      | @cons x _ c _ hlt hrest =>
        change x * _ + dot c (repeatStrides shape ss shape') =
          (if d = 1 then 0 else x) * s + dot (squash shape c) ss
        rw [ih (Nat.succ.inj hlen) hrest]
        by_cases hone : d = 1
        · by_cases hone' : d' = 1
          · have hx : x = 0 := Nat.lt_one_iff.mp (hone' ▸ hlt)
            simp [hone, hx]
          · simp [hone, hone']
        · simp [hone]

@[simp] theorem dot_replicate_zero (n : Nat) (c ss : List Nat) :
    dot c (List.replicate n 0 ++ ss) = dot (c.drop n) ss := by
  induction n generalizing c with
  | zero => rfl
  | succ n ih =>
    cases c with
    | nil => rfl
    | cons x c => simpa [replicate_succ] using ih c

/-- Shifting one component moves every coordinate by the same distance. -/
theorem dot_modify {dim start : Nat} (hc : c.length = ss.length) (hdim : dim < ss.length) :
    dot (c.modify dim (start + ·)) ss = start * ss.getD dim 0 + dot c ss := by
  induction ss generalizing c dim with
  | nil => cases hdim
  | cons s ss ih =>
    cases c with
    | nil => cases hc
    | cons x c =>
      cases dim with
      | zero => simp [Nat.add_mul, Nat.add_assoc]
      | succ dim =>
        have hrest := @ih c dim (Nat.succ.inj hc) (Nat.lt_of_succ_lt_succ hdim)
        simp only [modify_succ_cons, dot_cons, hrest, getD_cons_succ]
        exact Nat.add_left_comm _ _ _

theorem coordinate_modify {dim start len : Nat} (hc : Coordinate (shape.set dim len) c)
    (hdim : dim < shape.length) (hfits : start + len ≤ shape.getD dim 0) :
    Coordinate shape (c.modify dim (start + ·)) := by
  induction shape generalizing c dim with
  | nil => cases hdim
  | cons d shape ih =>
    cases dim with
    | zero =>
      cases hc with
      | cons hlt hrest =>
        exact .cons (Nat.lt_of_lt_of_le (Nat.add_lt_add_left hlt start) hfits) hrest
    | succ dim =>
      cases hc with
      | cons hlt hrest => exact .cons hlt (ih hrest (Nat.lt_of_succ_lt_succ hdim) hfits)

end Lib
