import EffectTorch.Lib.Tensor

/-!
# Counters along axes

A loop over the elements of some axes counts them and takes the counter apart, the last axis
running fastest: a component is the remainder by the width of its axis, and what is left is
divided by it.

Results:
1. `odometer_eq`: what such a loop adds to its start is the components times the strides.
2. `coordinate_digits`, `rowIndex_digits`: the components of a counter are a coordinate, and the
   counter is its row-major index.
3. `digits_enumerate`: the counters below the number of coordinates go through each of them once.
4. `odometer_rowIndex`: a loop over all axes of a tensor finds the element with an index.
5. `placed_enumerate`: put along some axes of a coordinate, they go once through the coordinates
   that agree with it off these axes.
-/

namespace Lib
open List

/-- The component along each axis of a counter, the last axis running fastest. -/
def digits : List Nat → Nat → List Nat
  | [], _ => []
  | width :: widths, n => n / widths.prod % width :: digits widths n

/-- The loop over the axes, the last one first: the start and the components times the strides, and
what is left of the counter. -/
def odometer {ι : Type} (width stride : ι → Nat) (axes : List ι) (start n : Nat) : Nat × Nat :=
  axes.foldr (fun axis (base, remainder) =>
    (base + remainder % width axis * stride axis, remainder / width axis)) (start, n)

section Odometer

variable {ι : Type} {width stride : ι → Nat} {axes : List ι} {start n : Nat}

@[simp] theorem odometer_cons (axis : ι) : odometer width stride (axis :: axes) start n =
    ((odometer width stride axes start n).1 +
        (odometer width stride axes start n).2 % width axis * stride axis,
      (odometer width stride axes start n).2 / width axis) := rfl

theorem odometer_eq : odometer width stride axes start n =
    (start + dot (digits (axes.map width) n) (axes.map stride), n / (axes.map width).prod) := by
  induction axes with
  | nil => exact Prod.ext rfl (Nat.div_one n).symm
  | cons axis axes ih =>
    rw [odometer_cons, ih, map_cons, map_cons, digits, dot_cons, prod_cons,
      Nat.div_div_eq_div_mul, Nat.mul_comm (width axis), Nat.add_assoc, Nat.add_comm (dot _ _)]

/-- Axes of width one may be left out of the loop. -/
theorem odometer_filter {keep : ι → Bool} (hone : ∀ axis, keep axis = false → width axis = 1) :
    odometer width stride (axes.filter keep) start n = odometer width stride axes start n := by
  induction axes with
  | nil => rfl
  | cons axis axes ih =>
    cases hkeep : keep axis with
    | true => rw [filter_cons_of_pos hkeep, odometer_cons, odometer_cons, ih]
    | false =>
      rw [filter_cons_of_neg (by rw [hkeep]; exact Bool.false_ne_true), ih, odometer_cons, hone axis hkeep,
        Nat.mod_one, Nat.zero_mul, Nat.add_zero, Nat.div_one]

/-- Two loops that agree on the axes they visit. -/
theorem odometer_congr {width' : ι → Nat} (h : ∀ axis ∈ axes, width axis = width' axis) :
    odometer width stride axes start n = odometer width' stride axes start n := by
  rw [odometer_eq, odometer_eq, map_congr_left h]

end Odometer

section Digits

variable {widths c : List Nat} {n : Nat}

theorem coordinate_digits (hpos : 0 ∉ widths) (n : Nat) : Coordinate widths (digits widths n) := by
  induction widths with
  | nil => exact .nil
  | cons width widths ih =>
    obtain ⟨hwidth, hrest⟩ := not_or.mp fun h => hpos (mem_cons.mpr h)
    exact .cons (Nat.mod_lt _ (Nat.pos_of_ne_zero (Ne.symm hwidth))) (ih hrest)

theorem rowIndex_digits (widths : List Nat) (n : Nat) : rowIndex widths (digits widths n) = n % widths.prod := by
  induction widths with
  | nil => exact (Nat.mod_one n).symm
  | cons width widths ih =>
    rw [digits, rowIndex_cons, ih, prod_cons, Nat.mul_comm width, Nat.mod_mul, Nat.add_comm, Nat.mul_comm]

/-- Every number below the product of the widths is the row-major index of a coordinate. -/
theorem exists_rowIndex (h : n < widths.prod) : ∃ c, Coordinate widths c ∧ rowIndex widths c = n := by
  have hpos : 0 ∉ widths := fun hzero => Nat.not_lt_zero n (prod_eq_zero hzero ▸ h)
  exact ⟨digits widths n, coordinate_digits hpos n, (rowIndex_digits widths n).trans (Nat.mod_eq_of_lt h)⟩

/-- A counter that is the row-major index of a coordinate has its components. -/
theorem digits_rowIndex (hc : Coordinate widths c) : digits widths (rowIndex widths c) = c := by
  have hdigits := unravel_rowIndex (coordinate_digits hc.positive (rowIndex widths c))
  rwa [rowIndex_digits, Nat.mod_eq_of_lt (rowIndex_lt hc), unravel_rowIndex hc, eq_comm] at hdigits

/-- The counters below the number of coordinates go through each of them once. -/
theorem digits_enumerate (widths : List Nat) :
    ((List.range widths.prod).map (digits widths)).Nodup ∧
      ∀ c, c ∈ (List.range widths.prod).map (digits widths) ↔ Coordinate widths c := by
  refine ⟨?_, fun c => ⟨fun hc => ?_, fun hc => ?_⟩⟩
  · refine List.Nodup.map_on (fun i hi j hj hij => ?_) nodup_range
    have hrow := congrArg (rowIndex widths) hij
    rwa [rowIndex_digits, rowIndex_digits, Nat.mod_eq_of_lt (mem_range.mp hi),
      Nat.mod_eq_of_lt (mem_range.mp hj)] at hrow
  · obtain ⟨i, hi, rfl⟩ := mem_map.mp hc
    have hpos : 0 < widths.prod := Nat.zero_lt_of_lt (mem_range.mp hi)
    exact coordinate_digits (fun hzero => Nat.ne_of_gt hpos (prod_eq_zero hzero)) i
  · exact mem_map.mpr ⟨rowIndex widths c, mem_range.mpr (rowIndex_lt hc), digits_rowIndex hc⟩

end Digits

/-- A loop over all axes of a tensor takes an index apart. -/
theorem odometer_rowIndex {shape strides c : List Nat} (hc : Coordinate shape c) (hlen : strides.length = shape.length)
    (start : Nat) :
    (odometer (fun axis => max (shape.getD axis 0) 1) (strides.getD · 0) (List.range shape.length) start
      (rowIndex shape c)).1 = start + dot c strides := by
  have hwidths : (List.range shape.length).map (fun axis => max (shape.getD axis 0) 1) = shape := by
    refine (map_getD_range (fun width => max width 1) shape).trans ((map_congr_left fun width hwidth => ?_).trans shape.map_id)
    exact Nat.max_eq_left (Nat.pos_of_ne_zero fun hzero => hc.positive (hzero ▸ hwidth))
  have hstrides : (List.range shape.length).map (strides.getD · 0) = strides := by
    rw [← hlen]
    exact (map_getD_range (fun s => s) strides).trans strides.map_id'
  rw [odometer_eq, hwidths, hstrides, digits_rowIndex hc]

/-- A loop that replaces some components. -/
theorem foldr_pick {ι : Type} {width stride : ι → Nat} (pick : ι → Nat → Nat) (axes : List ι) (start n : Nat) :
    axes.foldr (fun axis (base, remainder) =>
        (base + pick axis (remainder % width axis) * stride axis, remainder / width axis)) (start, n) =
      (start + dot (List.zipWith pick axes (digits (axes.map width) n)) (axes.map stride), n / (axes.map width).prod) := by
  induction axes with
  | nil => exact Prod.ext rfl (Nat.div_one n).symm
  | cons axis axes ih =>
    rw [foldr_cons, ih, map_cons, map_cons, digits, zipWith_cons_cons, dot_cons, prod_cons]
    dsimp only
    rw [Nat.div_div_eq_div_mul, Nat.mul_comm (width axis), Nat.add_assoc, Nat.add_comm (dot _ _)]

/-- One component replaced. -/
theorem zipWith_set (c : List Nat) (d x : Nat) :
    List.zipWith (fun i y => if i = d then x else y) (List.range c.length) c = c.set d x := by
  refine ext_getElem (by simp) fun i hi hi' => ?_
  rw [getElem_zipWith, getElem_range, getElem_set]
  exact if_congr eq_comm rfl rfl

/-! ## Components along some axes -/

/-- A coordinate, component by component. -/
theorem coordinate_iff_getD {shape c : List Nat} :
    Coordinate shape c ↔ c.length = shape.length ∧ ∀ i < shape.length, c.getD i 0 < shape.getD i 0 := by
  refine forall₂_iff_get.trans (and_congr_right fun hlen => ⟨fun h i hi => ?_, fun h i hi hi' => ?_⟩)
  · have hget := h i (hlen ▸ hi) hi
    rwa [getD_eq_getElem _ 0 (hlen ▸ hi), getD_eq_getElem _ 0 hi]
  · have hget := h i hi'
    rwa [getD_eq_getElem _ 0 hi, getD_eq_getElem _ 0 hi'] at hget

/-- The coordinate `c` with the components `xs` along the axes `ds`. -/
def place (c : List Nat) : List Nat → List Nat → List Nat
  | d :: ds, x :: xs => (place c ds xs).set d x
  | _, _ => c

section Place

variable {shape c ds xs ss : List Nat}

@[simp] theorem place_nil_left (c xs : List Nat) : place c [] xs = c := by
  cases xs <;> rfl

@[simp] theorem place_cons (c : List Nat) (d x : Nat) (ds xs : List Nat) :
    place c (d :: ds) (x :: xs) = (place c ds xs).set d x := rfl

@[simp] theorem length_place (c ds xs : List Nat) : (place c ds xs).length = c.length := by
  induction ds generalizing xs with
  | nil => rw [place_nil_left]
  | cons d ds ih =>
    cases xs with
    | nil => rfl
    | cons x xs => rw [place_cons, length_set, ih]

theorem getD_set_ne {i d : Nat} (h : d ≠ i) (l : List Nat) (x : Nat) : (l.set d x).getD i 0 = l.getD i 0 := by
  rw [getD_eq_getElem?_getD, getD_eq_getElem?_getD, List.getElem?_set_ne h]

theorem getD_set_self {d : Nat} {l : List Nat} (h : d < l.length) (x : Nat) : (l.set d x).getD d 0 = x := by
  rw [getD_eq_getElem?_getD, List.getElem?_set_self h]
  rfl

theorem getD_place {i : Nat} (h : i ∉ ds) : (place c ds xs).getD i 0 = c.getD i 0 := by
  induction ds generalizing xs with
  | nil => rw [place_nil_left]
  | cons d ds ih =>
    obtain ⟨hne, hrest⟩ := not_or.mp fun hmem => h (mem_cons.mpr hmem)
    cases xs with
    | nil => rfl
    | cons x xs => rw [place_cons, getD_set_ne (Ne.symm hne), ih hrest]

/-- The components are found where they were put. -/
theorem map_getD_place (hnodup : ds.Nodup) (hin : ∀ d ∈ ds, d < c.length) (hlen : ds.length = xs.length) :
    ds.map ((place c ds xs).getD · 0) = xs := by
  induction ds generalizing xs with
  | nil => exact (length_eq_zero_iff.mp hlen.symm).symm
  | cons d ds ih =>
    obtain ⟨x, xs, rfl⟩ := exists_cons_of_length_eq_add_one hlen.symm
    obtain ⟨hd, hnodup⟩ := nodup_cons.mp hnodup
    rw [place_cons, map_cons, getD_set_self (by rw [length_place]; exact hin d mem_cons_self)]
    have hrest := ih hnodup (fun e he => hin e (mem_cons_of_mem _ he)) (Nat.succ.inj hlen)
    refine congrArg (x :: ·) (Eq.trans (map_congr_left fun e he => ?_) hrest)
    exact getD_set_ne (ne_of_mem_of_not_mem he hd).symm _ _

theorem dot_set {d : Nat} {l : List Nat} (hd : d < l.length) (hzero : l.getD d 0 = 0) (x : Nat) (ss : List Nat) :
    dot (l.set d x) ss = dot l ss + x * ss.getD d 0 := by
  induction l generalizing d ss with
  | nil => cases hd
  | cons y l ih =>
    cases ss with
    | nil => rw [dot_nil_right, dot_nil_right, getD_nil, Nat.mul_zero]
    | cons s ss =>
      cases d with
      | zero =>
        obtain rfl : y = 0 := hzero
        rw [set_cons_zero, dot_cons, dot_cons, getD_cons_zero, Nat.zero_mul, Nat.zero_add, Nat.add_comm]
      | succ d =>
        rw [set_cons_succ, dot_cons, dot_cons, getD_cons_succ, ih (Nat.lt_of_succ_lt_succ hd) hzero,
          Nat.add_assoc]

/-- Along axes where the coordinate is zero, the strides of these axes are added. -/
theorem dot_place (hnodup : ds.Nodup) (hin : ∀ d ∈ ds, d < c.length) (hzero : ∀ d ∈ ds, c.getD d 0 = 0)
    (hlen : ds.length = xs.length) :
    dot (place c ds xs) ss = dot c ss + dot xs (ds.map (ss.getD · 0)) := by
  induction ds generalizing xs with
  | nil => rw [place_nil_left, map_nil, dot_nil_right, Nat.add_zero]
  | cons d ds ih =>
    obtain ⟨x, xs, rfl⟩ := exists_cons_of_length_eq_add_one hlen.symm
    obtain ⟨hd, hnodup⟩ := nodup_cons.mp hnodup
    rw [place_cons, dot_set (by rw [length_place]; exact hin d mem_cons_self)
        (by rw [getD_place hd]; exact hzero d mem_cons_self),
      ih hnodup (fun e he => hin e (mem_cons_of_mem _ he)) (fun e he => hzero e (mem_cons_of_mem _ he))
        (Nat.succ.inj hlen), map_cons, dot_cons, Nat.add_assoc, Nat.add_comm (dot xs _)]

theorem coordinate_place (hc : Coordinate shape c) (hxs : Coordinate (ds.map (shape.getD · 0)) xs) :
    Coordinate shape (place c ds xs) := by
  induction ds generalizing xs with
  | nil => rwa [place_nil_left]
  | cons d ds ih =>
    rw [map_cons] at hxs
    obtain ⟨x, xs, hx, hrest, rfl⟩ := forall₂_cons_right_iff.mp hxs
    exact coordinate_set (ih hrest) rfl (fun _ _ _ => Nat.le_refl _) hx

/-- Put along some axes of a coordinate, the components of the counters go once through the
coordinates that agree with it off these axes. -/
theorem placed_enumerate (hnodup : ds.Nodup) (hin : ∀ d ∈ ds, d < shape.length) (hc : Coordinate shape c) :
    ((List.range (ds.map (shape.getD · 0)).prod).map
        fun n => place c ds (digits (ds.map (shape.getD · 0)) n)).Nodup ∧
      ∀ c', c' ∈ (List.range (ds.map (shape.getD · 0)).prod).map
          (fun n => place c ds (digits (ds.map (shape.getD · 0)) n)) ↔
        Coordinate shape c' ∧ ∀ i, i ∉ ds → c'.getD i 0 = c.getD i 0 := by
  obtain ⟨hdistinct, hmem⟩ := digits_enumerate (ds.map (shape.getD · 0))
  have hin' : ∀ d ∈ ds, d < c.length := fun d hd => hc.length_eq ▸ hin d hd
  have hmap : (List.range (ds.map (shape.getD · 0)).prod).map
      (fun n => place c ds (digits (ds.map (shape.getD · 0)) n)) =
      ((List.range (ds.map (shape.getD · 0)).prod).map (digits (ds.map (shape.getD · 0)))).map (place c ds) := by
    rw [map_map]
    rfl
  rw [hmap]
  constructor
  · refine List.Nodup.map_on (fun xs hxs ys hys h => ?_) hdistinct
    have hlen : ∀ {zs}, Coordinate (ds.map (shape.getD · 0)) zs → ds.length = zs.length :=
      fun hzs => by rw [hzs.length_eq, length_map]
    rw [← map_getD_place hnodup hin' (hlen ((hmem xs).mp hxs)), h,
      map_getD_place hnodup hin' (hlen ((hmem ys).mp hys))]
  · intro c'
    constructor
    · intro h
      obtain ⟨xs, hxs, rfl⟩ := mem_map.mp h
      exact ⟨coordinate_place hc ((hmem xs).mp hxs), fun i hi => getD_place hi⟩
    · rintro ⟨hc', hoff⟩
      refine mem_map.mpr ⟨ds.map (c'.getD · 0), (hmem _).mpr ?_, ?_⟩
      · refine forall₂_map_left_iff.mpr (forall₂_map_right_iff.mpr (forall₂_same.mpr fun d hd => ?_))
        exact (coordinate_iff_getD.mp hc').2 d (hin d hd)
      · have hon : ds.map ((place c ds (ds.map (c'.getD · 0))).getD · 0) = ds.map (c'.getD · 0) :=
          map_getD_place hnodup hin' (length_map _).symm
        refine ext_getElem (by rw [length_place, hc.length_eq, hc'.length_eq]) fun i hi hi' => ?_
        rw [← getD_eq_getElem _ 0 hi, ← getD_eq_getElem _ 0 hi']
        by_cases hmem : i ∈ ds
        · exact map_inj_left.mp hon i hmem
        · rw [getD_place hmem, hoff i hmem]

end Place

end Lib
