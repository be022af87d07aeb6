import EffectTorch.Cpu.Reduce
import Mathlib.Algebra.BigOperators.Group.List.Lemmas

/-!
# What the reductions fold

An output element of a reduction folds the elements of the input that share its coordinates off the
reduced dimensions, each once. The kernel counts the reduced elements along the list of dimensions,
while the shape of its output treats the list as a set.

Results:
1. `sourceIndex_place`: what the counter of the reduced elements names.
2. `reducesExactly_iff`: a reduction is exact unless a dimension wider than one is listed twice.
-/

namespace EffectTorch
open List Option Lib

namespace Reduce

/-! ## Reading -/

/-- The elements of the buffer at some coordinates of the layout. -/
abbrev Elements {T : Type} (source : List T) (layout : Layout) (order : List (List Nat)) (values : List T) : Prop :=
  List.Forall₂ (fun c value => source[layout.address c]? = some value) order values

/-- A loop that reads and folds. -/
theorem foldlM_read {ε T A : Type} {source : List T} {index : Nat → Nat} {reduce : A → T → A} {l : List Nat}
    {init result : A} :
    (l.foldlM (fun accumulator n => do
      let value ← readAt source (index n)
      .ok (reduce accumulator value)) init : Fallible ε A) = .ok result ↔
      ∃ values, List.Forall₂ (fun n value => source[index n]? = some value) l values ∧
        result = values.foldl reduce init := by
  refine (foldlM_bind_ok (g := fun n => readAt source (index n))
    (h := fun accumulator value => .ok (reduce accumulator value))).trans ?_
  have hfold : ∀ values : List T, (values.foldlM (fun accumulator value => .ok (reduce accumulator value)) init :
      Fallible ε A) = .ok (values.foldl reduce init) := fun values => foldlM_pure
  constructor
  · rintro ⟨values, hread, hrun⟩
    rw [hfold] at hrun
    exact ⟨values, hread.imp fun _ _ h => readAt_ok.mp h, (Except.ok.inj hrun).symm⟩
  · rintro ⟨values, hread, rfl⟩
    exact ⟨values, hread.imp fun _ _ h => readAt_ok.mpr h, hfold values⟩

/-- Coordinates of a layout that fits have elements. -/
theorem exists_elements {T : Type} {source : List T} {layout : Layout} (hfits : layout.Fits source.length)
    {order : List (List Nat)} (horder : ∀ c ∈ order, Coordinate layout.shape c) :
    ∃ values, Elements source layout order values :=
  exists_forall₂ fun c hc => ⟨source.get ⟨layout.address c, hfits.address_lt (horder c hc)⟩, List.getElem?_eq_getElem _⟩

/-! ## The reduced elements -/

theorem foldlM_checkedMul_prod {widths : List Nat} {start total : Nat}
    (h : widths.foldlM checkedMul start = some total) : total = start * widths.prod := by
  induction widths generalizing start with
  | nil =>
    cases h
    exact (Nat.mul_one _).symm
  | cons width widths ih =>
    rw [foldlM_cons, bind_eq_bind, bind_eq_some_iff] at h
    obtain ⟨next, hnext, h⟩ := h
    rw [ih h, (checkedMul_some.mp hnext).2, prod_cons, Nat.mul_assoc]

theorem reducedElements_some {shape dims : List Nat} {n : Nat} (h : reducedElements shape dims = some n) :
    n = (dims.map (shape.getD · 0)).prod := by
  rw [reducedElements, ← foldlM_map] at h
  rw [foldlM_checkedMul_prod h, Nat.one_mul]

section Counters

variable {layout : Layout} {dims c : List Nat}

/-- The listed dimensions that are not of width one. -/
def wideDims (shape dims : List Nat) : List Nat :=
  dims.filter fun d => shape.getD d 0 ≠ 1

theorem prod_wideDims (shape dims : List Nat) :
    ((wideDims shape dims).map (shape.getD · 0)).prod = (dims.map (shape.getD · 0)).prod := by
  induction dims with
  | nil => rfl
  | cons d dims ih =>
    rw [wideDims, filter_cons, map_cons, prod_cons, ← ih, wideDims]
    split
    · rw [map_cons, prod_cons]
    · next hone =>
      rw [decide_eq_true_eq, not_not] at hone
      rw [hone, Nat.one_mul]

theorem width_pos {shape : List Nat} (hpos : 0 ∉ shape) {d : Nat} (hd : d < shape.length) : 0 < shape.getD d 0 := by
  rw [getD_eq_getElem _ 0 hd]
  exact Nat.pos_of_ne_zero fun h => hpos (h ▸ getElem_mem hd)

/-- No dimension wider than one is listed twice. -/
def ListedOnce (shape dims : List Nat) : Prop :=
  ∀ d, 1 < shape.getD d 0 → dims.count d ≤ 1

theorem wideDims_nodup {shape : List Nat} (hpos : 0 ∉ shape) (hdims : ∀ d ∈ dims, d < shape.length)
    (honce : ListedOnce shape dims) : (wideDims shape dims).Nodup := by
  refine nodup_iff_count_le_one.mpr fun d => ?_
  by_cases hmem : d ∈ wideDims shape dims
  · obtain ⟨hd, hwide⟩ := mem_filter.mp hmem
    have hne : shape.getD d 0 ≠ 1 := of_decide_eq_true hwide
    rw [wideDims, count_filter (p := fun d => decide (shape.getD d 0 ≠ 1)) hwide]
    exact honce d (Nat.lt_of_le_of_ne (width_pos hpos (hdims d hd)) hne.symm)
  · rw [count_eq_zero_of_not_mem hmem]
    exact Nat.zero_le 1

/-- What the counter of the reduced elements names: the coordinate of the output element with the
components of the counter along the wide dimensions. -/
theorem sourceIndex_place (hpos : 0 ∉ layout.shape) (hdims : ∀ d ∈ dims, d < layout.shape.length)
    (honce : ListedOnce layout.shape dims) (hc : Coordinate (keptShape layout.shape dims) c) (n : Nat) :
    sourceIndex layout dims (layout.address c) n =
      layout.address (Lib.place c (wideDims layout.shape dims)
        (digits ((wideDims layout.shape dims).map (layout.shape.getD · 0)) n)) := by
  have hsub : ∀ d ∈ wideDims layout.shape dims, d ∈ dims := fun d hd => (mem_filter.mp hd).1
  have hwidths : ∀ d ∈ dims, max (layout.shape.getD d 0) 1 = layout.shape.getD d 0 := fun d hd =>
    Nat.max_eq_left (width_pos hpos (hdims d hd))
  have hlen : c.length = layout.shape.length := hc.length_eq.trans (length_keptShape _ _)
  have hwide : 0 ∉ (wideDims layout.shape dims).map (layout.shape.getD · 0) := by
    intro hzero
    obtain ⟨d, hd, heq⟩ := mem_map.mp hzero
    exact Nat.ne_of_gt (width_pos hpos (hdims d (hsub d hd))) heq
  have hdigits := (coordinate_digits hwide n).length_eq
  have hfilter : odometer (layout.shape.getD · 0) (layout.strides.getD · 0) (wideDims layout.shape dims)
      (layout.address c) n =
      odometer (layout.shape.getD · 0) (layout.strides.getD · 0) dims (layout.address c) n :=
    odometer_filter fun d hd => not_not.mp (of_decide_eq_false hd)
  rw [sourceIndex, odometer_congr hwidths, ← hfilter, odometer_eq, Layout.address, Layout.address,
    dot_place (wideDims_nodup hpos hdims honce) (fun d hd => hlen ▸ hdims d (hsub d hd))
      (fun d hd => kept_zero hc (hsub d hd)) (by rw [hdigits, length_map]), Nat.add_assoc]

end Counters

/-! ## Reductions -/

/-- The coordinates of the input that agree with `c` off the reduced dimensions, each once. -/
def Fibre (shape dims c : List Nat) (order : List (List Nat)) : Prop :=
  order.Nodup ∧ ∀ c', c' ∈ order ↔ Coordinate shape c' ∧ ∀ i, i ∉ dims → c'.getD i 0 = c.getD i 0

/-- The dimensions that the validation accepts: they are in range, the reduced elements can be
counted, and the output can be stored. -/
structure Accepts (shape dims : List Nat) : Prop where
  inRange : ∀ d ∈ dims, d < shape.length
  counted : ∃ n, reducedElements shape dims = some n
  stored : (keptShape shape dims).prod ≤ usizeMax

/-- Whatever is folded, over whatever elements, each output element folds its fibre. -/
def ReducesExactly (layout : Layout) (dims : List Nat) : Prop :=
  ∀ (T A : Type) [CpuElem T] (operation : String) (source : List T) (init : A) (reduce : A → T → A)
    (finish : A → T) (destination : CpuDestination T),
    layout.Fits source.length → destination.Ready → destination.shape = keptShape layout.shape dims →
    ∃ out, reduceWithAccumulator operation source layout dims init reduce finish destination = .ok out ∧
      out.length = destination.shape.prod ∧
      ∀ c, Coordinate destination.shape c → ∃ order values, Fibre layout.shape dims c order ∧
        Elements source layout order values ∧
        out[rowIndex destination.shape c]? = some (finish (values.foldl reduce init))

section Exact

variable {layout : Layout} {dims : List Nat}

/-- The output elements, each from its own loop. -/
theorem reduceWithAccumulator_ready {T A : Type} [CpuElem T] {operation : String} {source : List T} {init : A}
    {reduce : A → T → A} {finish : A → T} {destination : CpuDestination T} {n : Nat}
    (hdims : ∀ d ∈ dims, d < layout.shape.length) (hn : reducedElements layout.shape dims = some n)
    (hready : destination.Ready) (hshape : destination.shape = keptShape layout.shape dims) {out : List T} :
    reduceWithAccumulator operation source layout dims init reduce finish destination = .ok out ↔
      List.Forall₂ (fun outputIndex value => ∃ values,
        List.Forall₂ (fun reducedIndex value =>
          source[sourceIndex layout dims (outputBase layout dims outputIndex) reducedIndex]? = some value)
          (List.range n) values ∧ value = finish (values.foldl reduce init))
        (List.range destination.shape.prod) out := by
  rw [reduceWithAccumulator, validateReduceDestination_ready hdims hready hshape, ok_bind, hn, okOr_some, ok_bind,
    CpuDestination.writeCurrent_ready hready, hready.length_slice, mapM_forall₂]
  have hbody : ∀ outputIndex value,
      ((List.range n).foldlM (fun accumulator reducedIndex => do
          let value ← readAt source (sourceIndex layout dims (outputBase layout dims outputIndex) reducedIndex)
          .ok (reduce accumulator value)) init >>= fun accumulator => .ok (finish accumulator) :
        Fallible String T) = .ok value ↔ ∃ values, List.Forall₂ (fun reducedIndex value =>
          source[sourceIndex layout dims (outputBase layout dims outputIndex) reducedIndex]? = some value)
          (List.range n) values ∧ value = finish (values.foldl reduce init) := by
    intro outputIndex value
    rw [bind_ok]
    constructor
    · rintro ⟨accumulator, hrun, hvalue⟩
      obtain ⟨values, hread, rfl⟩ := foldlM_read.mp hrun
      exact ⟨values, hread, (Except.ok.inj hvalue).symm⟩
    · rintro ⟨values, hread, rfl⟩
      exact ⟨_, foldlM_read.mpr ⟨values, hread, rfl⟩, rfl⟩
  exact ⟨fun h => h.imp fun i v hv => (hbody i v).mp hv, fun h => h.imp fun i v hv => (hbody i v).mpr hv⟩

/-- The coordinates that the kernel folds into the output element at `c`, in their order. -/
def foldOrder (shape dims c : List Nat) : List (List Nat) :=
  (List.range ((wideDims shape dims).map (shape.getD · 0)).prod).map fun n =>
    Lib.place c (wideDims shape dims) (digits ((wideDims shape dims).map (shape.getD · 0)) n)

/-- When the input is empty and the output is not, a reduced dimension is empty. -/
theorem foldOrder_empty {shape c : List Nat} (hzero : 0 ∈ shape) (hc : Coordinate (keptShape shape dims) c) :
    (dims.map (shape.getD · 0)).prod = 0 ∧ foldOrder shape dims c = [] := by
  obtain ⟨i, hi, hempty⟩ := mem_iff_getElem.mp hzero
  have hlt := (coordinate_iff_getD.mp hc).2 i (by rwa [length_keptShape])
  have hmem : i ∈ dims := by
    by_contra hmem
    rw [getD_keptShape hi, if_neg hmem, getD_eq_getElem _ 0 hi, hempty] at hlt
    exact Nat.not_lt_zero _ hlt
  have hnone : (dims.map (shape.getD · 0)).prod = 0 :=
    prod_eq_zero (mem_map.mpr ⟨i, hmem, by rw [getD_eq_getElem _ 0 hi, hempty]⟩)
  exact ⟨hnone, by rw [foldOrder, prod_wideDims, hnone, range_zero, map_nil]⟩

/-- The kernel folds the fibre of the output element. -/
theorem foldOrder_fibre {c : List Nat} (hdims : ∀ d ∈ dims, d < layout.shape.length)
    (honce : 0 ∈ layout.shape ∨ ListedOnce layout.shape dims) (hc : Coordinate (keptShape layout.shape dims) c) :
    Fibre layout.shape dims c (foldOrder layout.shape dims c) := by
  by_cases hzero : 0 ∈ layout.shape
  · rw [(foldOrder_empty hzero hc).2]
    exact ⟨nodup_nil, fun c' => ⟨nofun, fun h => absurd h.1 (not_coordinate hzero)⟩⟩
  · obtain ⟨hnodup, hmem⟩ := placed_enumerate (wideDims_nodup hzero hdims (honce.resolve_left hzero))
      (fun d hd => hdims d (mem_filter.mp hd).1) (kept_coordinate hzero hc)
    refine ⟨hnodup, fun c' => (hmem c').trans (and_congr_right fun hc' => ⟨fun h i hi => ?_, fun h i hi => ?_⟩)⟩
    · exact h i fun hwide => hi (mem_filter.mp hwide).1
    · by_cases hd : i ∈ dims
      · -- a listed dimension that is not wide has only the component zero
        have hone : layout.shape.getD i 0 = 1 := by
          by_contra hne
          exact hi (mem_filter.mpr ⟨hd, decide_eq_true hne⟩)
        have hlt := (coordinate_iff_getD.mp hc').2 i (hdims i hd)
        rw [hone] at hlt
        rw [kept_zero hc hd, Nat.lt_one_iff.mp hlt]
      · exact h i hd

/-- What the loop over the reduced elements reads for the output element at `c`. -/
theorem reads_order {T : Type} {source : List T} {c : List Nat} {n : Nat}
    (hdims : ∀ d ∈ dims, d < layout.shape.length) (hn : reducedElements layout.shape dims = some n)
    (honce : 0 ∈ layout.shape ∨ ListedOnce layout.shape dims) (hfits : layout.Fits source.length)
    (hc : Coordinate (keptShape layout.shape dims) c) :
    ∃ values, Elements source layout (foldOrder layout.shape dims c) values ∧
      List.Forall₂ (fun reducedIndex value => source[sourceIndex layout dims
        (outputBase layout dims (rowIndex (keptShape layout.shape dims) c)) reducedIndex]? = some value)
        (List.range n) values := by
  have hcount := reducedElements_some hn
  by_cases hzero : 0 ∈ layout.shape
  · obtain ⟨hnone, horder⟩ := foldOrder_empty hzero hc
    rw [horder, hcount, hnone]
    exact ⟨[], .nil, .nil⟩
  · obtain ⟨values, hvalues⟩ := exists_elements hfits fun c' hc' => (((foldOrder_fibre hdims honce hc).2 c').mp hc').1
    refine ⟨values, hvalues, ?_⟩
    rw [outputBase_rowIndex hc, hcount, ← prod_wideDims]
    refine (forall₂_map_left_iff.mp hvalues).imp fun reducedIndex value h => ?_
    rwa [sourceIndex_place hzero hdims (honce.resolve_left hzero) hc]

/-- A reduction folds into each output element, in the order of the kernel. -/
theorem reduceWithAccumulator_order {T A : Type} [CpuElem T] {operation : String} {source : List T} {init : A}
    {reduce : A → T → A} {finish : A → T} {destination : CpuDestination T} (haccepts : Accepts layout.shape dims)
    (honce : 0 ∈ layout.shape ∨ ListedOnce layout.shape dims) (hfits : layout.Fits source.length)
    (hready : destination.Ready) (hshape : destination.shape = keptShape layout.shape dims) :
    ∃ out, reduceWithAccumulator operation source layout dims init reduce finish destination = .ok out ∧
      out.length = destination.shape.prod ∧
      ∀ c, Coordinate destination.shape c → ∃ values, Elements source layout (foldOrder layout.shape dims c) values ∧
        out[rowIndex destination.shape c]? = some (finish (values.foldl reduce init)) := by
  obtain ⟨n, hn⟩ := haccepts.counted
  obtain ⟨out, hout⟩ : ∃ out, List.Forall₂ (fun outputIndex value => ∃ values,
      List.Forall₂ (fun reducedIndex value =>
        source[sourceIndex layout dims (outputBase layout dims outputIndex) reducedIndex]? = some value)
        (List.range n) values ∧ value = finish (values.foldl reduce init))
      (List.range destination.shape.prod) out := by
    refine exists_forall₂ fun outputIndex hmem => ?_
    obtain ⟨hc, hindex⟩ := rowIndex_unravel (mem_range.mp hmem)
    rw [hshape] at hc hindex
    obtain ⟨values, _, hread⟩ := reads_order haccepts.inRange hn honce hfits hc
    rw [hindex] at hread
    exact ⟨_, values, hread, rfl⟩
  obtain ⟨hlen, hget⟩ := forall₂_range hout
  refine ⟨out, (reduceWithAccumulator_ready haccepts.inRange hn hready hshape).mpr hout, hlen, fun c hc => ?_⟩
  obtain ⟨value, hvalue, values, hread, rfl⟩ := hget _ (rowIndex_lt hc)
  rw [hshape] at hc hread
  obtain ⟨values', helements, hread'⟩ := reads_order haccepts.inRange hn honce hfits hc
  have hsame : values = values' :=
    right_unique_forall₂' (fun _ _ _ h h' => some.inj (h.symm.trans h')) hread hread'
  exact ⟨values', helements, hsame ▸ hvalue⟩

theorem reducesExactly_of_listedOnce (haccepts : Accepts layout.shape dims)
    (honce : 0 ∈ layout.shape ∨ ListedOnce layout.shape dims) : ReducesExactly layout dims := by
  intro T A _ operation source init reduce finish destination hfits hready hshape
  obtain ⟨out, hrun, hlen, hget⟩ := @reduceWithAccumulator_order layout dims T A _ operation source init reduce finish destination
    haccepts honce hfits hready hshape
  refine ⟨out, hrun, hlen, fun c hc => ?_⟩
  obtain ⟨values, helements, hvalue⟩ := hget c hc
  exact ⟨_, values, foldOrder_fibre haccepts.inRange honce (hshape ▸ hc), helements, hvalue⟩

/-- A product over a list with a repeated factor above one is larger than over its members. -/
theorem prod_dedup_lt {f : Nat → Nat} (hpos : ∀ d ∈ dims, 0 < f d) {d : Nat} (hd : 1 < f d)
    (htwice : 1 < dims.count d) : (dims.dedup.map f).prod < (dims.map f).prod := by
  have hmem : d ∈ dims := count_pos_iff.mp (Nat.zero_lt_of_lt htwice)
  have hsub : dims.dedup ⊆ dims.erase d := by
    intro x hx
    have hx := mem_dedup.mp hx
    by_cases heq : x = d
    · subst heq
      refine count_pos_iff.mp ?_
      rw [count_erase_self]
      exact Nat.sub_pos_of_lt htwice
    · exact (mem_erase_of_ne heq).mpr hx
  obtain ⟨l, hperm, hsublist⟩ := (nodup_dedup dims).subperm hsub
  have hrest : 0 < ((dims.erase d).map f).prod := by
    refine Nat.pos_of_ne_zero fun hzero => ?_
    obtain ⟨x, hx, hfx⟩ := mem_map.mp (prod_eq_zero_iff.mp hzero)
    exact Nat.ne_of_gt (hpos x (mem_of_mem_erase hx)) hfx
  calc (dims.dedup.map f).prod = (l.map f).prod := ((hperm.map f).prod_eq).symm
    _ ≤ ((dims.erase d).map f).prod := Nat.le_of_dvd hrest (hsublist.map f).prod_dvd_prod
    _ < f d * ((dims.erase d).map f).prod := (Nat.lt_mul_iff_one_lt_left hrest).mpr hd
    _ = (dims.map f).prod := by
      rw [← prod_cons, ← map_cons]
      exact ((perm_cons_erase hmem).map f).prod_eq.symm

theorem foldl_count {T : Type} (values : List T) (start : Nat) :
    values.foldl (fun count _ => count + 1) start = start + values.length := by
  induction values generalizing start with
  | nil => rfl
  | cons value values ih => rw [foldl_cons, ih, length_cons, Nat.add_assoc, Nat.add_comm 1]

/-- Counting the elements that each output element folds shows how many the kernel visits. -/
theorem listedOnce_of_reducesExactly (hpos : 0 ∉ layout.shape) (haccepts : Accepts layout.shape dims)
    {len : Nat} (hfits : layout.Fits len) (h : ReducesExactly layout dims) : ListedOnce layout.shape dims := by
  intro d hd
  by_contra htwice
  have hlisted : ∀ x ∈ dims, 0 < layout.shape.getD x 0 := fun x hx => width_pos hpos (haccepts.inRange x hx)
  have hkept : 0 ∉ keptShape layout.shape dims := by
    rw [keptShape_eq]
    intro hzero
    obtain ⟨i, hi, heq⟩ := mem_map.mp hzero
    split at heq
    · cases heq
    · exact Nat.ne_of_gt (width_pos hpos (mem_range.mp hi)) heq
  obtain ⟨n, hn⟩ := haccepts.counted
  let _ : CpuElem Nat := ⟨.u32⟩
  obtain ⟨destination, hready, hshape⟩ := CpuDestination.exists_ready (0 : Nat) hkept haccepts.stored
  obtain ⟨out, hrun, _, hfold⟩ := h Nat Nat "sum" (List.replicate len 0) 0 (fun count _ => count + 1) id destination
    (by rwa [length_replicate]) hready hshape
  rw [hshape] at hfold
  have horigin := coordinate_origin hkept
  obtain ⟨order, values, ⟨hnodup, hmem⟩, helements, hout⟩ := hfold _ horigin
  -- the loop counts as many elements as the list of dimensions says
  obtain ⟨_, hget⟩ := forall₂_range ((reduceWithAccumulator_ready haccepts.inRange hn hready hshape).mp hrun)
  obtain ⟨value, hvalue, reads, hread, rfl⟩ := hget _ (hshape ▸ rowIndex_lt horigin)
  have hlength : values.length = n := by
    rw [hshape] at hvalue
    have heq := some.inj (hout.symm.trans hvalue)
    rwa [foldl_count, foldl_count, id, id, Nat.zero_add, Nat.zero_add, ← hread.length_eq, length_range] at heq
  -- while the fibre has one element for each member of the list
  obtain ⟨hnodup', hmem'⟩ := placed_enumerate (nodup_dedup dims)
    (fun x hx => haccepts.inRange x (mem_dedup.mp hx)) (kept_coordinate hpos horigin)
  have hperm : order.Perm _ := (perm_ext_iff_of_nodup hnodup hnodup').mpr fun c' =>
    (hmem c').trans ((hmem' c').trans (and_congr_right fun _ =>
      forall_congr' fun i => by rw [mem_dedup])).symm
  have hsize := hperm.length_eq
  rw [length_map, length_range, helements.length_eq, hlength, reducedElements_some hn] at hsize
  exact Nat.ne_of_gt (prod_dedup_lt hlisted hd (Nat.not_le.mp htwice)) hsize

/-- A reduction is exact unless a dimension wider than one is listed twice. -/
theorem reducesExactly_iff (haccepts : Accepts layout.shape dims) {len : Nat} (hfits : layout.Fits len) :
    ReducesExactly layout dims ↔ (0 ∈ layout.shape ∨ ListedOnce layout.shape dims) := by
  refine ⟨fun h => ?_, reducesExactly_of_listedOnce haccepts⟩
  by_cases hzero : 0 ∈ layout.shape
  · exact .inl hzero
  · exact .inr (listedOnce_of_reducesExactly hzero haccepts hfits h)

end Exact

end Reduce

end EffectTorch
