import EffectTorch.Cpu.ScanExact

/-!
# Running sums

The running sums go through the groups of elements that differ along one dimension only. A group is
counted along the other dimensions, and its elements are written at their row-major index.

Results:
1. `cumulatesExactly`: each coordinate gets the sum of the elements up to it.
2. `reductions_exact_iff`: when the reductions, the extremes and the running sums are exact.
-/

namespace EffectTorch
open List Lib

namespace Reduce

/-- The sum of the elements along the dimension up to each coordinate. -/
def CumulatesExactly (layout : Layout) (dimension : Nat) : Prop :=
  ∀ (T A : Type) [CpuElem T] [Inhabited A] (source : List T) (destination : CpuDestination T)
    (add : A → T → A) (narrow : A → T),
    layout.Fits source.length → destination.Ready → destination.shape = layout.shape →
    ∃ out, cumsumWithAccumulator source layout dimension destination add narrow = .ok out ∧
      ∀ c, Coordinate layout.shape c → ∃ values,
        Elements source layout ((List.range (c.getD dimension 0 + 1)).map (c.set dimension)) values ∧
        out[rowIndex layout.shape c]? = some (narrow (values.foldl add default))

variable {layout : Layout} {dimension : Nat} {c : List Nat}

/-! ## Groups -/

section Groups

theorem groupDims_nodup : (groupDims layout dimension).Nodup :=
  nodup_range.filter _

theorem mem_groupDims {d : Nat} : d ∈ groupDims layout dimension ↔ d < layout.shape.length ∧ d ≠ dimension := by
  rw [groupDims, mem_filter, mem_range, decide_eq_true_eq]
  rfl

theorem getD_packedStrides {shape : List Nat} {d : Nat} (hd : d < shape.length) :
    (CpuDestination.packedStrides shape).getD d 0 = contiguousStride shape d := by
  induction shape generalizing d with
  | nil => cases hd
  | cons width shape ih =>
    cases d with
    | zero => rfl
    | succ d => exact ih (Nat.lt_of_succ_lt_succ hd)

/-- The widths of the group dimensions. -/
def groupWidths (layout : Layout) (dimension : Nat) : List Nat :=
  (groupDims layout dimension).map (layout.shape.getD · 0)

/-- The coordinate of a group and an index along the dimension. -/
def cell (layout : Layout) (dimension group x : Nat) : List Nat :=
  (Lib.place (origin layout.shape) (groupDims layout dimension) (digits (groupWidths layout dimension) group)).set
    dimension x

theorem getD_origin (shape : List Nat) (d : Nat) : (origin shape).getD d 0 = 0 := by
  rw [origin, getD_eq_getElem?_getD, List.getElem?_map]
  cases shape[d]? with
  | none => rfl
  | some _ => rfl

theorem set_cell (group x y : Nat) :
    (cell layout dimension group x).set dimension y = cell layout dimension group y :=
  set_set _

theorem getD_cell (hdim : dimension < layout.shape.length) (group x : Nat) :
    (cell layout dimension group x).getD dimension 0 = x :=
  getD_set_self (by rwa [length_place, origin, length_map]) x

section Nonempty

variable (hpos : 0 ∉ layout.shape) (hdim : dimension < layout.shape.length)

include hpos

theorem groupWidths_pos : 0 ∉ groupWidths layout dimension := by
  intro hzero
  obtain ⟨d, hd, heq⟩ := mem_map.mp hzero
  exact Nat.ne_of_gt (width_pos hpos (mem_groupDims.mp hd).1) heq

theorem cell_coordinate (group : Nat) {x : Nat} (hx : x < layout.shape.getD dimension 0) :
    Coordinate layout.shape (cell layout dimension group x) :=
  coordinate_set (coordinate_place (coordinate_origin hpos) (coordinate_digits (groupWidths_pos hpos) group)) rfl
    (fun _ _ _ => Nat.le_refl _) hx

include hdim

/-- What strides make of the coordinate of a group and an index. -/
theorem dot_cell (group x : Nat) (ss : List Nat) :
    dot (cell layout dimension group x) ss =
      dot (digits (groupWidths layout dimension) group) ((groupDims layout dimension).map (ss.getD · 0)) +
        x * ss.getD dimension 0 := by
  have hlen : ∀ d ∈ groupDims layout dimension, d < (origin layout.shape).length := fun d hd => by
    rw [origin, length_map]
    exact (mem_groupDims.mp hd).1
  have hdigits : (groupDims layout dimension).length = (digits (groupWidths layout dimension) group).length := by
    rw [(coordinate_digits (groupWidths_pos hpos) group).length_eq, groupWidths, length_map]
  rw [cell, dot_set (by rwa [length_place, origin, length_map])
      (by rw [getD_place fun h => (mem_groupDims.mp h).2 rfl, getD_origin]),
    dot_place groupDims_nodup hlen (fun d _ => getD_origin _ d) hdigits, dot_origin, Nat.zero_add]

/-- Every coordinate belongs to one of the groups. -/
theorem exists_cell (hc : Coordinate layout.shape c) :
    ∃ group < (groupWidths layout dimension).prod, c = cell layout dimension group (c.getD dimension 0) := by
  have hwidth := width_pos hpos hdim
  have hlen : dimension < c.length := hc.length_eq ▸ hdim
  obtain ⟨_, hmem⟩ := @placed_enumerate layout.shape (origin layout.shape) (groupDims layout dimension) groupDims_nodup
    (fun d hd => (mem_groupDims.mp hd).1) (coordinate_origin hpos)
  obtain ⟨group, hgroup, heq⟩ := mem_map.mp ((hmem (c.set dimension 0)).mpr
    ⟨coordinate_set hc rfl (fun _ _ _ => Nat.le_refl _) hwidth, fun i hi => by
      rw [getD_origin]
      by_cases hi' : i = dimension
      · subst hi'
        exact getD_set_self hlen 0
      · refine getD_eq_default _ _ ?_
        rw [length_set, hc.length_eq]
        exact Nat.not_lt.mp fun hlt => hi (mem_groupDims.mpr ⟨hlt, hi'⟩)⟩)
  refine ⟨group, mem_range.mp hgroup, ?_⟩
  rw [cell, groupWidths, heq, set_set]
  exact (set_getElem_self _).symm.trans (by rw [getD_eq_getElem _ _ hlen])

/-- Where the kernel reads. -/
theorem sourceIndex_cell (group x : Nat) :
    sourceIndex layout (groupDims layout dimension) layout.offset group + x * layout.strides.getD dimension 0 =
      layout.address (cell layout dimension group x) := by
  have hwidths : ∀ d ∈ groupDims layout dimension, max (layout.shape.getD d 0) 1 = layout.shape.getD d 0 :=
    fun d hd => Nat.max_eq_left (width_pos hpos (mem_groupDims.mp hd).1)
  rw [sourceIndex, odometer_congr hwidths, odometer_eq, Layout.address, dot_cell hpos hdim, ← Nat.add_assoc]
  rfl

/-- Where the kernel writes. -/
theorem outputIndex_cell (group : Nat) {x : Nat} (hx : x < layout.shape.getD dimension 0) :
    (odometer (fun current => max (layout.shape.getD current 0) 1) (contiguousStride layout.shape)
        (groupDims layout dimension) 0 group).1 + x * contiguousStride layout.shape dimension =
      rowIndex layout.shape (cell layout dimension group x) := by
  have hwidths : ∀ d ∈ groupDims layout dimension, max (layout.shape.getD d 0) 1 = layout.shape.getD d 0 :=
    fun d hd => Nat.max_eq_left (width_pos hpos (mem_groupDims.mp hd).1)
  have hstrides : (groupDims layout dimension).map (contiguousStride layout.shape) =
      (groupDims layout dimension).map ((CpuDestination.packedStrides layout.shape).getD · 0) :=
    map_congr_left fun d hd => (getD_packedStrides (mem_groupDims.mp hd).1).symm
  rw [odometer_congr hwidths, odometer_eq, hstrides, Nat.zero_add, ← getD_packedStrides hdim,
    ← (CpuDestination.rowMajor_packedStrides layout.shape).dot_eq (CpuDestination.length_packedStrides _)
      (cell_coordinate hpos group hx), dot_cell hpos hdim]
  rfl

end Nonempty

end Groups

/-! ## Loops -/

section Loops

variable {T A : Type} {source : List T}

/-- A write fills one cell of a slice. -/
theorem fills_writeAt {ε : Type} {value : Nat → T} {index : Nat} {a : T} (ha : a = value index) :
    Fills (fun (slice : List T) i => slice[i]?) value (· = index)
      fun slice => (writeAt slice index a : Fallible ε (List T)) := by
  intro slice hcells
  have hlt : index < slice.length := by simpa using hcells index rfl
  refine ⟨_, writeAt_of_lt hlt a, ?_, fun i hi => List.getElem?_set_ne (Ne.symm hi)⟩
  rintro _ rfl
  rw [← ha]
  exact List.getElem?_set_self hlt

/-- A loop that accumulates what it reads and writes the running results. -/
theorem fills_running {ε : Type} (add : A → T → A) (narrow : A → T) {value : Nat → T} {from_ into : Nat → Nat} {v : Nat → T} {start : A} (n : Nat)
    (hread : ∀ x < n, source[from_ x]? = some (v x))
    (hvalue : ∀ x < n, value (into x) = narrow (((List.range (x + 1)).map v).foldl add start)) :
    Fills (fun (slice : List T) i => slice[i]?) value (fun i => ∃ x < n, i = into x) fun output =>
      ((List.range n).foldlM (fun (accumulator, output) index => do
        let value ← readAt source (from_ index)
        let accumulator := add accumulator value
        let output ← writeAt output (into index) (narrow accumulator)
        .ok (accumulator, output)) (start, output) >>= fun written => .ok written.2 : Fallible ε (List T)) := by
  suffices h : ∀ k ≤ n, ∀ output : List T, (∀ x < n, (output[into x]?).isSome) → ∃ output',
      ((List.range k).foldlM (fun (accumulator, output) index => do
        let value ← readAt source (from_ index)
        let accumulator := add accumulator value
        let output ← writeAt output (into index) (narrow accumulator)
        .ok (accumulator, output)) (start, output) : Fallible ε (A × List T)) =
          .ok (((List.range k).map v).foldl add start, output') ∧
      (∀ x < k, output'[into x]? = some (value (into x))) ∧
      ∀ i, (∀ x < k, i ≠ into x) → output'[i]? = output[i]? by
    intro output hcells
    obtain ⟨output', hrun, hin, hout⟩ := h n (Nat.le_refl n) output fun x hx => hcells _ ⟨x, hx, rfl⟩
    refine ⟨output', bind_ok.mpr ⟨_, hrun, rfl⟩, ?_, fun i hi => hout i fun x hx heq => hi ⟨x, hx, heq⟩⟩
    rintro _ ⟨x, hx, rfl⟩
    exact hin x hx
  intro k hk output hcells
  induction k with
  | zero => exact ⟨output, rfl, fun x hx => absurd hx (Nat.not_lt_zero x), fun _ _ => rfl⟩
  | succ k ih =>
    obtain ⟨output₁, hrun, hin, hout⟩ := ih (Nat.le_of_succ_le hk)
    have hsum : ((List.range (k + 1)).map v).foldl add start = add (((List.range k).map v).foldl add start) (v k) := by
      rw [range_succ, map_append, foldl_append]
      rfl
    -- the cell that this turn writes is still there
    have hcell : ∀ i, i = into k → (output₁[i]?).isSome := by
      rintro _ rfl
      by_cases hseen : ∃ x < k, into k = into x
      · obtain ⟨x, hx, heq⟩ := hseen
        rw [heq, hin x hx]
        rfl
      · rw [hout _ fun x hx heq => hseen ⟨x, hx, heq⟩]
        exact hcells k hk
    obtain ⟨output₂, hwrite, hin', hout'⟩ := fills_writeAt (ε := ε) (hvalue k hk).symm output₁ hcell
    refine ⟨output₂, ?_, fun x hx => ?_, fun i hi => ?_⟩
    · have hlast : writeAt output₁ (into k) (narrow (((List.range (k + 1)).map v).foldl add start)) = .ok output₂ :=
        hwrite
      conv_lhs => rw [range_succ]
      rw [foldlM_append, hrun, ok_bind, foldlM_cons]
      dsimp only
      rw [readAt_ok.mpr (hread k hk), ok_bind, ← hsum, hlast]
      rfl
    · by_cases heq : into x = into k
      · rw [heq]
        exact hin' _ rfl
      · refine (hout' _ heq).trans ?_
        rcases Nat.lt_or_eq_of_le (Nat.le_of_lt_succ hx) with hlt | rfl
        · exact hin x hlt
        · exact absurd rfl heq
    · refine (hout' i (hi k (Nat.lt_succ_self k))).trans ?_
      exact hout i fun x hx => hi x (Nat.lt_succ_of_lt hx)

/-- The sum of the elements along the dimension up to a coordinate. -/
def prefixSum [Inhabited A] (add : A → T → A) (narrow : A → T) (v : List Nat → T) (dimension : Nat)
    (c : List Nat) : T :=
  narrow (((List.range (c.getD dimension 0 + 1)).map fun y => v (c.set dimension y)).foldl add default)

/-- A group fills its cells with their sums. -/
theorem fills_cumsumGroup [Inhabited A] (add : A → T → A) (narrow : A → T) {v : List Nat → T} (hpos : 0 ∉ layout.shape)
    (hdim : dimension < layout.shape.length)
    (hv : ∀ c, Coordinate layout.shape c → source[layout.address c]? = some (v c)) (group : Nat) :
    Fills (fun (slice : List T) i => slice[i]?)
      (fun i => prefixSum add narrow v dimension (unravel layout.shape i))
      (fun i => ∃ x < layout.shape.getD dimension 0, i = rowIndex layout.shape (cell layout dimension group x))
      fun output => cumsumGroup source layout dimension add narrow output group := by
  refine (fills_running add narrow (v := fun x => v (cell layout dimension group x)) _ (fun x hx => ?_) fun x hx => ?_).congr
    fun i => ?_
  · rw [sourceIndex_cell hpos hdim]
    exact hv _ (cell_coordinate hpos group hx)
  · rw [outputIndex_cell hpos hdim group hx, unravel_rowIndex (cell_coordinate hpos group hx), prefixSum,
      getD_cell hdim]
    simp only [set_cell]
  · exact exists_congr fun x => and_congr_right fun hx => by rw [outputIndex_cell hpos hdim group hx]

/-- Without elements, either there is no group or the groups are empty. -/
theorem cumsumGroup_empty [Inhabited A] (source : List T) (add : A → T → A) (narrow : A → T)
    (hzero : 0 ∈ layout.shape) {group : Nat}
    (hgroup : group < (groupWidths layout dimension).prod) (output : List T) :
    cumsumGroup source layout dimension add narrow output group = .ok output := by
  have hwidth : layout.shape.getD dimension 0 = 0 := by
    by_contra hne
    obtain ⟨d, hd, hempty⟩ := mem_iff_getElem.mp hzero
    have hother : d ≠ dimension := by
      rintro rfl
      exact hne (by rw [getD_eq_getElem _ _ hd, hempty])
    have hnone : (groupWidths layout dimension).prod = 0 := by
      refine prod_eq_zero (mem_map.mpr ⟨d, mem_groupDims.mpr ⟨hd, hother⟩, ?_⟩)
      rw [getD_eq_getElem _ _ hd, hempty]
    exact Nat.not_lt_zero group (hnone ▸ hgroup)
  rw [cumsumGroup, hwidth]
  rfl

end Loops

/-- The running sums are exact along every dimension whose groups can be counted. -/
theorem cumulatesExactly (hdim : dimension < layout.shape.length)
    (hgroups : ∃ n, reducedElements layout.shape (groupDims layout dimension) = some n) :
    CumulatesExactly layout dimension := by
  intro T A _ _ source destination add narrow hfits hready hshape
  obtain ⟨n, hn⟩ := hgroups
  obtain rfl : n = (groupWidths layout dimension).prod := reducedElements_some hn
  have hstart : cumsumWithAccumulator source layout dimension destination add narrow =
      (List.range (groupWidths layout dimension).prod).foldlM (cumsumGroup source layout dimension add narrow)
        destination.slice := by
    rw [cumsumWithAccumulator, (rejectIf_ok (u := ())).mpr (Nat.not_le.mpr hdim), ok_bind,
      (rejectIf_ok (u := ())).mpr (not_not_intro hshape), ok_bind, hready.validateCurrent, ok_bind, hn, okOr_some,
      ok_bind, CpuDestination.writeCurrent_ready hready]
  rw [hstart]
  by_cases hzero : 0 ∈ layout.shape
  · obtain ⟨out, hout⟩ := foldlM_returns (l := List.range (groupWidths layout dimension).prod)
      (fun output group hgroup => ⟨output, cumsumGroup_empty source add narrow hzero (mem_range.mp hgroup)
        output⟩) destination.slice
    exact ⟨out, hout, fun c hc => absurd hc (not_coordinate hzero)⟩
  · have hfilled : ∀ c, ∃ v : T, Coordinate layout.shape c → source[layout.address c]? = some v := by
      intro c
      by_cases hc : Coordinate layout.shape c
      · exact ⟨_, fun _ => List.getElem?_eq_getElem (hfits.address_lt hc)⟩
      · exact ⟨source.get ⟨_, hfits.address_lt (coordinate_origin hzero)⟩, fun h => absurd h hc⟩
    choose v hv using hfilled
    have hloop := Fills.loop (l := List.range (groupWidths layout dimension).prod) fun group _ =>
      fills_cumsumGroup add narrow hzero hdim hv group
    obtain ⟨out, hout, hin, _⟩ := hloop destination.slice (by
      rintro _ ⟨group, _, x, hx, rfl⟩
      refine Option.isSome_iff_exists.mpr ⟨_, List.getElem?_eq_getElem ?_⟩
      rw [hready.length_slice, hshape]
      exact rowIndex_lt (cell_coordinate hzero group hx))
    refine ⟨out, hout, fun c hc => ?_⟩
    obtain ⟨group, hlt, heq⟩ := exists_cell hzero hdim hc
    have hx := (coordinate_iff_getD.mp hc).2 dimension hdim
    have hvalue := hin (rowIndex layout.shape c) ⟨group, mem_range.mpr hlt, _, hx, by rw [← heq]⟩
    dsimp only at hvalue
    rw [unravel_rowIndex hc] at hvalue
    refine ⟨_, ?_, hvalue⟩
    refine forall₂_map_left_iff.mpr (forall₂_map_right_iff.mpr (forall₂_same.mpr fun y hy => ?_))
    refine hv _ (coordinate_set hc rfl (fun _ _ _ => Nat.le_refl _) ?_)
    exact Nat.lt_of_le_of_lt (Nat.le_of_lt_succ (mem_range.mp hy)) hx

/-- Two elements, and a destination of one. -/
theorem pair_rank : [1].length = [2].length := rfl

theorem one_rank : [1].length = [1].length := rfl

def pairLayout : Layout := ⟨[2], [1], 0, pair_rank⟩

def oneElement : CpuDestination UInt32 := ⟨.u32, ⟨[1], [1], 0, one_rank⟩, [0]⟩

theorem oneElement_ready : oneElement.Ready :=
  ⟨rfl, by decide, by decide, by decide⟩

end Reduce

end EffectTorch
