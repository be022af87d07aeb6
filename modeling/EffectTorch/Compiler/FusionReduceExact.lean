import EffectTorch.Compiler.FusionReduce
import EffectTorch.Cpu.ReduceExact
import EffectTorch.Lib.AxisOrder

/-!
# What a fused reduction folds

A fused reduction evaluates its expression at each element of the input and folds the value into an
output element. The same expression can be written out first and reduced by the kernels.

Results:
1. `laneValues_elements`: a fused loop reads the elements that are broadcast to its element.
2. `interpretCoreInto_elements`: it writes the value of each element.
3. `interpretReduceCoreInto_elements`: a fused reduction folds these values in row-major order.
4. `fusedReduction_exact`: the kernels fold the same elements, once each and in the same order.
-/

namespace EffectTorch
open List Lib

variable {T : Type}

/-! ## Elements -/

/-- Each lane broadcasts to the shape of the region, and its slice holds its elements. -/
structure FusedLanes (program : CpuFusionProgram) (lanes strides : List (List Nat)) (slices : List (List T))
    (shape : List Nat) : Prop where
  broadcast : List.Forall₂ (fun lane s => laneStrides lane shape = some s) lanes strides
  stored : List.Forall₂ (fun lane (slice : List T) => lane.prod ≤ slice.length) lanes slices
  inputs : program.inputCount ≤ slices.length

/-- The elements of the lanes that are broadcast to a coordinate. -/
def laneElements [Scalar T] (program : CpuFusionProgram) (lanes : List (List Nat)) (slices : List (List T))
    (c : List Nat) : List T :=
  (List.range program.inputCount).map fun k =>
    (slices.getD k []).getD (rowIndex (lanes.getD k []) (broadcastSource (lanes.getD k []) c)) (Scalar.fromF64 ⟨0⟩)

/-- The value of the expression at a coordinate. -/
def elementValue [Scalar T] (program : CpuFusionProgram) (expr : KernelExpr) (lanes : List (List Nat))
    (slices : List (List T)) (scalarValues : List T) (c : List Nat) : T :=
  expr.value ((laneElements program lanes slices c).getD · (Scalar.fromF64 ⟨0⟩))
    (scalarValues.getD · (Scalar.fromF64 ⟨0⟩))

section Elements

variable {program : CpuFusionProgram} {lanes strides : List (List Nat)} {slices : List (List T)}
  {shape c : List Nat}
  {scalarValues scratch : List T}

theorem length_strides (h : FusedLanes program lanes strides slices shape) :
    strides.length = slices.length ∧ ∀ s ∈ strides, s.length = shape.length := by
  refine ⟨h.broadcast.length_eq.symm.trans h.stored.length_eq, fun s hs => ?_⟩
  obtain ⟨_, _, hs⟩ := mem_of_forall₂_right h.broadcast hs
  exact length_laneStrides hs

theorem scratchElements_ok (hscratch : program.inputCount + program.valueScratchLen ≤ scratch.length)
    (hlen : scratch.length ≤ usizeMax) : program.scratchElements = .ok (program.inputCount + program.valueScratchLen) := by
  rw [CpuFusionProgram.scratchElements, checkedAdd_of_le (Nat.le_trans hscratch hlen), expect_some]

variable [Scalar T] {expr : KernelExpr}

/-- A fused loop reads the elements that are broadcast to its element. -/
theorem laneValues_elements (h : FusedLanes program lanes strides slices shape) (hc : Coordinate shape c) :
    program.laneValues slices (laneOffset (some strides) shape (rowIndex shape c)) =
      .ok (laneElements program lanes slices c) := by
  refine mapM_forall₂.mpr (forall₂_map_right_iff.mpr (forall₂_same.mpr fun k hk => ?_))
  have hlt : k < lanes.length := by
    rw [h.stored.length_eq]
    exact Nat.lt_of_lt_of_le (mem_range.mp hk) h.inputs
  obtain ⟨lane, hlane⟩ : ∃ lane, lanes[k]? = some lane := ⟨_, List.getElem?_eq_getElem hlt⟩
  obtain ⟨s, hs, hstrides⟩ := getElem?_of_forall₂ h.broadcast hlane
  obtain ⟨slice, hslice, hle⟩ := getElem?_of_forall₂ h.stored hlane
  have hsource := stridedOffset_rowIndex hstrides hc
  have hbounds := rowIndex_lt (coordinate_broadcastSource (laneStrides_iff.mp hstrides).1 hc)
  obtain ⟨x, hx⟩ : ∃ x, slice[rowIndex lane (broadcastSource lane c)]? = some x :=
    ⟨_, List.getElem?_eq_getElem (Nat.lt_of_lt_of_le hbounds hle)⟩
  have hread : (readAt slice (rowIndex lane (broadcastSource lane c)) : Fallible Empty T) = .ok x := readAt_ok.mpr hx
  rw [laneOffset, hs, expect_some, ok_bind, ok_bind, hslice, expect_some, ok_bind, hsource, hread]
  simp [getD_eq_getElem?_getD, hlane, hslice, hx]

/-- The program of one expression evaluates it. -/
theorem evaluateLanes_value (hprogram : CpuFusionProgram.new [expr] = .ok program)
    (hscratch : program.inputCount + program.valueScratchLen ≤ scratch.length) :
    program.evaluateLanes 0 (laneElements program lanes slices c) scalarValues scratch =
      .ok (elementValue program expr lanes slices scalarValues c) :=
  ((evaluate_value hprogram).1 0 expr rfl T _ _ _ _ (Nat.le_sub_of_add_le' hscratch)).1

theorem outputCount_new (hprogram : CpuFusionProgram.new [expr] = .ok program) : program.outputCount = 1 :=
  (CpuFusionProgram.new_prepared hprogram).ends_length

/-- One turn of a fused loop with one output. -/
theorem interpretElement_value (hprogram : CpuFusionProgram.new [expr] = .ok program)
    (h : FusedLanes program lanes strides slices shape)
    (hscratch : program.inputCount + program.valueScratchLen ≤ scratch.length) {cells : List T} {index : Nat}
    (hindex : index < shape.prod) (hcells : cells.length = shape.prod) :
    interpretElement program slices (some strides) scalarValues shape scratch [cells] index =
      .ok [cells.modify index fun _ => elementValue program expr lanes slices scalarValues (unravel shape index)] := by
  obtain ⟨hc, hrow⟩ := rowIndex_unravel hindex
  have hlanes := laneValues_elements h hc
  rw [hrow] at hlanes
  rw [interpretElement, hlanes, ok_bind]
  refine mapM_forall₂.mpr (.cons ?_ .nil)
  dsimp only
  rw [evaluateLanes_value hprogram hscratch, ok_bind, writeAt_of_lt (hcells ▸ hindex), set_eq_modify]

/-- A fused loop writes the value of each element. -/
theorem interpretCoreInto_elements (hprogram : CpuFusionProgram.new [expr] = .ok program)
    (h : FusedLanes program lanes strides slices shape) (hscalars : program.scalarCount ≤ scalarValues.length)
    (hscratch : program.inputCount + program.valueScratchLen ≤ scratch.length) (hlen : scratch.length ≤ usizeMax)
    {cells : List T} (hcells : cells.length = shape.prod) :
    interpretCoreInto program slices (some strides) scalarValues shape.prod shape [cells] scratch =
      .ok [elements shape (elementValue program expr lanes slices scalarValues)] := by
  obtain ⟨hstrides, hranks⟩ := length_strides h
  obtain ⟨_, hrun, rfl⟩ := foldlM_total
    (f := interpretElement program slices (some strides) scalarValues shape scratch)
    (fun done outputs => outputs = [accumulate (fun i => i) (fun _ v => v)
      (fun i => elementValue program expr lanes slices scalarValues (unravel shape i)) cells done])
    (List.range shape.prod) (fun done index rest outputs hl houtputs => by
      have hindex : index < shape.prod := (range_eq_length hl).2
      rw [houtputs, interpretElement_value hprogram h hscratch hindex (by rw [length_accumulate, hcells]), accumulate,
        accumulate, foldl_append]
      exact ⟨_, rfl, rfl⟩) [cells] rfl
  have helements : accumulate (fun i => i) (fun _ v => v)
      (fun i => elementValue program expr lanes slices scalarValues (unravel shape i)) cells (List.range shape.prod) =
        elements shape (elementValue program expr lanes slices scalarValues) := by
    refine ext_getElem? fun o => ?_
    rw [getElem?_accumulate, elements, List.getElem?_map]
    by_cases ho : o < shape.prod
    · have hcount : (List.range shape.prod).count o = 1 :=
        count_eq_one_of_mem nodup_range (mem_range.mpr ho)
      rw [filter_eq, hcount, List.getElem?_range ho, List.getElem?_eq_getElem (hcells ▸ ho)]
      rfl
    · rw [List.getElem?_eq_none (by rw [hcells]; exact Nat.not_lt.mp ho),
        List.getElem?_eq_none (by rw [length_range]; exact Nat.not_lt.mp ho)]
      rfl
  have hone : [cells].length = program.outputCount := (outputCount_new hprogram).symm
  have hrooms : ∀ output ∈ [cells], shape.prod ≤ output.length := by simp [hcells]
  have hcount : ∀ given, some strides = some given → given.length = slices.length := fun _ heq => Option.some.inj heq ▸ hstrides
  have hranks' : ∀ given, some strides = some given → ∀ lane ∈ given, lane.length = shape.length := fun _ heq =>
    Option.some.inj heq ▸ hranks
  rw [interpretCoreInto, (assert_ok (u := ())).mpr hone, ok_bind, (assert_ok (u := ())).mpr h.inputs, ok_bind,
    (assert_ok (u := ())).mpr hscalars, ok_bind, (assert_ok (u := ())).mpr hrooms, ok_bind, scratchElements_ok hscratch hlen,
    ok_bind, (assert_ok (u := ())).mpr hscratch, ok_bind, (assert_ok (u := ())).mpr hcount, ok_bind,
    (assert_ok (u := ())).mpr hranks', ok_bind, hrun, helements]

/-! ## Reductions -/

/-- The coordinates that are folded into an output element, in row-major order. -/
def foldedInto (shape dims : List Nat) (keepdims : Bool) (c : List Nat) : List (List Nat) :=
  ((List.range shape.prod).map (unravel shape)).filter (outputCoordinate dims keepdims · = c)

variable {dims : List Nat} {keepdims : Bool} {op : ReduceOp}

theorem mem_foldedInto {c' : List Nat} :
    c' ∈ foldedInto shape dims keepdims c ↔ Coordinate shape c' ∧ outputCoordinate dims keepdims c' = c := by
  rw [foldedInto, mem_filter, decide_eq_true_eq]
  refine and_congr_left fun _ => ⟨fun h => ?_, fun h => ?_⟩
  · obtain ⟨i, hi, rfl⟩ := mem_map.mp h
    exact (rowIndex_unravel (mem_range.mp hi)).1
  · exact mem_map.mpr ⟨_, mem_range.mpr (rowIndex_lt h), unravel_rowIndex h⟩

theorem foldedInto_pairwise (shape dims : List Nat) (keepdims : Bool) (c : List Nat) :
    (foldedInto shape dims keepdims c).Pairwise fun a b => rowIndex shape a < rowIndex shape b := by
  refine List.Pairwise.filter _ (pairwise_map.mpr (pairwise_lt_range.imp_of_mem fun hi hj hlt => ?_))
  rwa [(rowIndex_unravel (mem_range.mp hi)).2, (rowIndex_unravel (mem_range.mp hj)).2]

/-- The components of a coordinate off the reduced axes are a coordinate of the reduced shape. -/
theorem coordinate_outputAxes (axis : Nat) (hc : Coordinate shape c) :
    Coordinate (outputAxes dims keepdims 1 axis shape) (outputAxes dims keepdims 0 axis c) := by
  induction hc generalizing axis with
  | nil => exact .nil
  | cons hx _ ih =>
    rw [outputAxes, outputAxes]
    by_cases hdims : axis ∈ dims
    · rw [if_pos hdims, if_pos hdims]
      cases keepdims with
      | true => exact .cons Nat.one_pos (ih (axis + 1))
      | false => exact ih (axis + 1)
    · rw [if_neg hdims, if_neg hdims]
      exact .cons hx (ih (axis + 1))

theorem coordinate_outputCoordinate (hc : Coordinate shape c) :
    Coordinate (reducedShape shape dims keepdims) (outputCoordinate dims keepdims c) :=
  reducedShape_eq shape dims keepdims ▸ coordinate_outputAxes 0 hc

/-- One turn of a fused reduction. -/
theorem reduceElement_value (hprogram : CpuFusionProgram.new [expr] = .ok program)
    (h : FusedLanes program lanes strides slices shape)
    (hscratch : program.inputCount + program.valueScratchLen ≤ scratch.length) {output : List T}
    {index : Nat} (hindex : index < shape.prod)
    (houtput : output.length = (reducedShape shape dims keepdims).prod) :
    reduceElement op program slices strides shape dims keepdims (reducedShape shape dims keepdims) scratch output index =
      .ok (output.modify (rowIndex (reducedShape shape dims keepdims) (outputCoordinate dims keepdims (unravel shape index)))
        (op.fold · (elementValue program expr lanes slices [] (unravel shape index)))) := by
  obtain ⟨hc, hrow⟩ := rowIndex_unravel hindex
  have hlanes := laneValues_elements h hc
  have hoffset := @reduceOutputOffset_rowIndex shape dims keepdims _ hc
  rw [hrow] at hlanes hoffset
  have hlt : rowIndex (reducedShape shape dims keepdims) (outputCoordinate dims keepdims (unravel shape index)) <
      output.length := houtput ▸ rowIndex_lt (coordinate_outputCoordinate hc)
  have hread : (readAt output _ : Fallible Empty T) = .ok _ := readAt_ok.mpr (List.getElem?_eq_getElem hlt)
  rw [reduceElement, hlanes, ok_bind, evaluateLanes_value hprogram hscratch, ok_bind, hoffset, ok_bind, hread, ok_bind,
    writeAt_of_lt hlt, modify_eq_set_getElem?, List.getElem?_eq_getElem hlt]
  rfl

/-- Only the mean divides, by the extents of the reduced axes. -/
theorem reducedExtent_ok (op : ReduceOp) (hdims : ∀ d ∈ dims, d < shape.length) :
    ∃ extent, reducedExtent op shape dims = .ok extent ∧
      (op.finish extent : T → T) = op.finish (dims.map (shape.getD · 0)).prod := by
  unfold reducedExtent
  split
  · have hread : dims.mapM (readAt shape : Nat → Fallible Empty Nat) = .ok (dims.map (shape.getD · 0)) := by
      refine mapM_forall₂.mpr (forall₂_map_right_iff.mpr (forall₂_same.mpr fun d hd => readAt_ok.mpr ?_))
      rw [List.getElem?_eq_getElem (hdims d hd), getD_eq_getElem _ 0 (hdims d hd)]
    exact ⟨_, by rw [hread, ok_bind], rfl⟩
  · next hmean => exact ⟨1, rfl, funext fun value => (if_neg hmean).trans (if_neg hmean).symm⟩

/-- The loop of a fused reduction. -/
theorem reduceElements_value (hprogram : CpuFusionProgram.new [expr] = .ok program)
    (h : FusedLanes program lanes strides slices shape)
    (hscratch : program.inputCount + program.valueScratchLen ≤ scratch.length) {n : Nat}
    (hn : n = (reducedShape shape dims keepdims).prod) {start : T} :
    ∃ folded, (List.range shape.prod).foldlM
        (reduceElement op program slices strides shape dims keepdims (reducedShape shape dims keepdims) scratch)
        (List.replicate n start) = .ok folded ∧
      ∀ c, Coordinate (reducedShape shape dims keepdims) c → folded[rowIndex (reducedShape shape dims keepdims) c]? =
        some (((foldedInto shape dims keepdims c).map (elementValue program expr lanes slices [])).foldl op.fold start) := by
  refine ⟨_, foldlM_accumulate fun index hindex cells hcells => reduceElement_value hprogram h hscratch
    (mem_range.mp hindex) (by rw [hcells, length_replicate, hn]), fun c hc => ?_⟩
  rw [getElem?_accumulate, List.getElem?_replicate, if_pos (hn ▸ rowIndex_lt hc), Option.map_some, foldedInto, filter_map,
    map_map]
  -- an output element is known by its index
  have hsame : ((List.range shape.prod).filter fun index => rowIndex (reducedShape shape dims keepdims)
        (outputCoordinate dims keepdims (unravel shape index)) = rowIndex (reducedShape shape dims keepdims) c) =
      (List.range shape.prod).filter ((outputCoordinate dims keepdims · = c) ∘ unravel shape) := by
    refine filter_congr fun index hindex => ?_
    have hsource := (rowIndex_unravel (mem_range.mp hindex)).1
    refine decide_eq_decide.mpr ⟨fun heq => ?_, fun heq => congrArg _ heq⟩
    rw [← unravel_rowIndex (coordinate_outputCoordinate hsource), heq, unravel_rowIndex hc]
  rw [hsame]
  rfl

/-- A fused reduction folds the values of the elements in row-major order. -/
theorem interpretReduceCoreInto_elements (hprogram : CpuFusionProgram.new [expr] = .ok program)
    (h : FusedLanes program lanes strides slices shape) (hscalars : program.scalarCount = 0)
    (hscratch : program.inputCount + program.valueScratchLen ≤ scratch.length)
    (hlen : scratch.length ≤ usizeMax) (hdims : ∀ d ∈ dims, d < shape.length) {output : List T}
    (houtput : output.length = (reducedShape shape dims keepdims).prod) :
    ∃ result, interpretReduceCoreInto op program slices strides shape dims keepdims
        (reducedShape shape dims keepdims) output scratch = .ok result ∧
      ∀ c, Coordinate (reducedShape shape dims keepdims) c →
        result[rowIndex (reducedShape shape dims keepdims) c]? = some (op.finish (dims.map (shape.getD · 0)).prod
          (((foldedInto shape dims keepdims c).map (elementValue program expr lanes slices [])).foldl op.fold
            (Scalar.fromF64 op.init))) := by
  obtain ⟨hstrides, hranks⟩ := length_strides h
  obtain ⟨folded, hrun, hcells⟩ :=
    @reduceElements_value T program lanes strides slices shape scratch _ expr dims keepdims op hprogram h hscratch _ houtput
      (Scalar.fromF64 op.init)
  obtain ⟨extent, hextent, hfinish⟩ := @reducedExtent_ok T shape _ dims op hdims
  refine ⟨folded.map (op.finish extent), ?_, fun c hc => ?_⟩
  · rw [interpretReduceCoreInto, (assert_ok (u := ())).mpr (outputCount_new hprogram), ok_bind,
      (assert_ok (u := ())).mpr hscalars, ok_bind, (assert_ok (u := ())).mpr h.inputs, ok_bind,
      (assert_ok (u := ())).mpr hstrides, ok_bind, (assert_ok (u := ())).mpr hranks, ok_bind, (assert_ok (u := ())).mpr houtput,
      ok_bind, scratchElements_ok hscratch hlen, ok_bind, (assert_ok (u := ())).mpr hscratch, ok_bind, hrun, ok_bind, hextent,
      ok_bind]
  · rw [List.getElem?_map, hcells c hc, Option.map_some, hfinish]

end Elements

/-! ## Writing out and reducing -/

section Materialised

variable {shape dims c : List Nat} {keepdims : Bool}

variable {layout : Layout}

theorem contiguous_fits (h : Layout.contiguous shape = .ok layout) (hprod : shape.prod ≤ usizeMax) :
    layout.Fits shape.prod := by
  obtain ⟨rfl, hoffset, hmajor⟩ := Layout.contiguous_ok h
  by_cases hzero : 0 ∈ layout.shape
  · exact ⟨0, Layout.checkedMaxIndex_some.mpr (.inl ⟨hzero, rfl⟩), Nat.zero_le _⟩
  · have hlast : layout.address (lastCoordinate layout.shape) + 1 = layout.shape.prod := by
      rw [Layout.address, hoffset, Nat.zero_add, hmajor.dot_eq layout.rank_eq (coordinate_last hzero), rowIndex_last hzero]
    exact ⟨_, Layout.checkedMaxIndex_some.mpr (.inr ⟨hzero, hlast ▸ hprod, rfl⟩), Nat.le_of_eq hlast⟩

/-- The elements of a tensor that is written out, at some of its coordinates. -/
theorem elements_written (h : Layout.contiguous shape = .ok layout) (value : List Nat → T)
    {order : List (List Nat)} (horder : ∀ c ∈ order, Coordinate shape c) :
    Reduce.Elements (elements shape value) layout order (order.map value) := by
  obtain ⟨rfl, hoffset, hmajor⟩ := Layout.contiguous_ok h
  refine forall₂_map_right_iff.mpr (forall₂_same.mpr fun c hc => ?_)
  have hc := horder c hc
  rw [Layout.address, hoffset, Nat.zero_add, hmajor.dot_eq layout.rank_eq hc, elements, List.getElem?_map,
    List.getElem?_range (rowIndex_lt hc), Option.map_some, unravel_rowIndex hc]

theorem keptShape_eq_reduced (shape dims : List Nat) : Reduce.keptShape shape dims = reducedShape shape dims true := by
  rw [Reduce.keptShape_eq, reducedShape, if_pos rfl]
  refine ext_getElem (by simp) fun i hi hi' => ?_
  have hlt : i < shape.length := by simpa using hi
  simp [hlt]

theorem prod_outputAxes (axis : Nat) (shape : List Nat) :
    (outputAxes dims true 1 axis shape).prod = (outputAxes dims keepdims 1 axis shape).prod := by
  induction shape generalizing axis with
  | nil => rfl
  | cons d shape ih =>
    rw [outputAxes, outputAxes]
    by_cases hdims : axis ∈ dims
    · rw [if_pos hdims, if_pos hdims, if_pos rfl, prod_cons, Nat.one_mul, ih]
      cases keepdims with
      | true => rw [if_pos rfl, prod_cons, Nat.one_mul]
      | false => rw [if_neg Bool.false_ne_true]
    · rw [if_neg hdims, if_neg hdims, prod_cons, prod_cons, ih]

/-- A coordinate of the reduced shape, with the reduced axes kept, has the same index. -/
theorem exists_keptAxes (axis : Nat) (hc : Coordinate (outputAxes dims keepdims 1 axis shape) c) :
    ∃ kept, Coordinate (outputAxes dims true 1 axis shape) kept ∧ outputAxes dims keepdims 0 axis kept = c ∧
      rowIndex (outputAxes dims true 1 axis shape) kept = rowIndex (outputAxes dims keepdims 1 axis shape) c := by
  induction shape generalizing axis c with
  | nil =>
    cases hc
    exact ⟨[], .nil, rfl, rfl⟩
  | cons d shape ih =>
    rw [outputAxes] at hc ⊢
    rw [outputAxes]
    by_cases hdims : axis ∈ dims
    · rw [if_pos hdims] at hc ⊢
      rw [if_pos hdims, if_pos rfl]
      cases keepdims with
      | true =>
        obtain ⟨x, c, hx, hrest, rfl⟩ := forall₂_cons_right_iff.mp hc
        obtain rfl := Nat.lt_one_iff.mp hx
        obtain ⟨kept, hkept, hout, hrow⟩ := ih (axis + 1) hrest
        refine ⟨0 :: kept, .cons Nat.one_pos hkept, by rw [outputAxes, if_pos hdims, if_pos rfl, hout], ?_⟩
        rw [if_pos rfl, rowIndex_cons, rowIndex_cons, hrow]
      | false =>
        obtain ⟨kept, hkept, hout, hrow⟩ := ih (axis + 1) hc
        refine ⟨0 :: kept, .cons Nat.one_pos hkept,
          by rw [outputAxes, if_pos hdims, if_neg Bool.false_ne_true, hout], ?_⟩
        rw [if_neg Bool.false_ne_true, rowIndex_cons, Nat.zero_mul, Nat.zero_add, hrow]
    · rw [if_neg hdims] at hc ⊢
      rw [if_neg hdims]
      obtain ⟨x, c, hx, hrest, rfl⟩ := forall₂_cons_right_iff.mp hc
      obtain ⟨kept, hkept, hout, hrow⟩ := ih (axis + 1) hrest
      refine ⟨x :: kept, .cons hx hkept, by rw [outputAxes, if_neg hdims, hout], ?_⟩
      rw [rowIndex_cons, rowIndex_cons, hrow, prod_outputAxes]

/-- Two coordinates are folded into one element when they agree off the reduced axes. -/
theorem outputAxes_congr {c' : List Nat} (axis : Nat) (hlen : c.length = c'.length) :
    outputAxes dims keepdims 0 axis c = outputAxes dims keepdims 0 axis c' ↔
      ∀ i < c.length, axis + i ∉ dims → c.getD i 0 = c'.getD i 0 := by
  induction c generalizing c' axis with
  | nil =>
    obtain rfl := length_eq_zero_iff.mp hlen.symm
    exact ⟨fun _ i hi => absurd hi (Nat.not_lt_zero i), fun _ => rfl⟩
  | cons x c ih =>
    obtain ⟨y, c', rfl⟩ := exists_cons_of_length_eq_add_one hlen.symm
    have hrest := ih (axis + 1) (Nat.succ.inj hlen)
    -- the components after the first
    have hlater : (∀ i < (x :: c).length, axis + i ∉ dims → (x :: c).getD i 0 = (y :: c').getD i 0) ↔
        (axis ∉ dims → x = y) ∧ ∀ i < c.length, axis + 1 + i ∉ dims → c.getD i 0 = c'.getD i 0 := by
      refine ⟨fun h => ⟨h 0 (Nat.succ_pos _), fun i hi hd => ?_⟩, fun h i hi hd => ?_⟩
      · exact h (i + 1) (Nat.succ_lt_succ hi) (by rwa [Nat.add_comm i, ← Nat.add_assoc])
      · cases i with
        | zero => exact h.1 hd
        | succ i => exact h.2 i (Nat.lt_of_succ_lt_succ hi) (by rwa [Nat.add_assoc, Nat.add_comm 1])
    rw [hlater, ← hrest, outputAxes, outputAxes]
    by_cases hdims : axis ∈ dims
    · rw [if_pos hdims, if_pos hdims, and_iff_right fun h => absurd hdims h]
      cases keepdims with
      | true => simp
      | false => simp
    · rw [if_neg hdims, if_neg hdims, List.cons.injEq, imp_iff_right hdims]

/-- The kernels fold the elements in row-major order when the axes come in their order. -/
theorem foldOrder_eq {kept : List Nat} (hsorted : dims.Pairwise (· < ·))
    (hdims : ∀ d ∈ dims, d < layout.shape.length)
    (hkept : Coordinate (Reduce.keptShape layout.shape dims) kept)
    (hc : outputCoordinate dims keepdims kept = c) :
    Reduce.foldOrder layout.shape dims kept = foldedInto layout.shape dims keepdims c := by
  have honce : Reduce.ListedOnce layout.shape dims := fun d _ =>
    nodup_iff_count_le_one.mp (hsorted.imp Nat.ne_of_lt) d
  obtain ⟨hnodup, hmem⟩ := Reduce.foldOrder_fibre hdims (.inr honce) hkept
  have hlength : kept.length = layout.shape.length := hkept.length_eq.trans (Reduce.length_keptShape _ _)
  have hsame : ∀ c', c' ∈ Reduce.foldOrder layout.shape dims kept ↔ c' ∈ foldedInto layout.shape dims keepdims c := by
    refine fun c' => (hmem c').trans (Iff.trans (and_congr_right fun hc' => ?_) mem_foldedInto.symm)
    have hcongr := @outputAxes_congr dims c' keepdims kept 0 (hc'.length_eq.trans hlength.symm)
    rw [← hc, outputCoordinate, outputCoordinate, hcongr, hc'.length_eq]
    refine ⟨fun h i _ hd => h i (by rwa [Nat.zero_add] at hd), fun h i hd => ?_⟩
    by_cases hi : i < layout.shape.length
    · exact h i hi (by rwa [Nat.zero_add])
    · rw [getD_eq_default _ _ (hc'.length_eq ▸ Nat.not_lt.mp hi), getD_eq_default _ _ (hlength ▸ Nat.not_lt.mp hi)]
  have hfolded := foldedInto_pairwise layout.shape dims keepdims c
  have hnodup' : (foldedInto layout.shape dims keepdims c).Nodup :=
    hfolded.imp fun {a b} hlt (heq : a = b) => Nat.lt_irrefl _ (heq ▸ hlt)
  refine ((perm_ext_iff_of_nodup hnodup hnodup').mpr hsame).eq_of_pairwise
    (fun _ _ _ _ hlt hgt => absurd (Nat.lt_trans hlt hgt) (Nat.lt_irrefl _)) ?_ hfolded
  by_cases hzero : 0 ∈ layout.shape
  · rw [(Reduce.foldOrder_empty hzero hkept).2]
    exact .nil
  · have hsub : (Reduce.wideDims layout.shape dims).Sublist dims := filter_sublist
    exact placed_pairwise (hsorted.sublist hsub) (fun d hd => hdims d (hsub.subset hd)) (Reduce.kept_coordinate hzero hkept)
      fun d hd => Reduce.kept_zero hkept (hsub.subset hd)

end Materialised

/-- The strides of a lane lead every element of the output to the element that is broadcast there. Over any set
of axes, kept or dropped, a fused reduction folds what the kernels fold when the expression is written out first:
the elements that share the coordinate of the output element, once each, in row-major order. -/
theorem fusedReduction_exact :
    (∀ lane out, Broadcasts lane out → ∃ strides, laneStrides lane out = some strides ∧ ∀ index < out.prod,
      stridedOffset index out strides = rowIndex lane (broadcastSource lane (unravel out index)) ∧
        stridedOffset index out strides < lane.prod) ∧
    ∀ (T : Type) [Scalar T] [CpuElem T] (op : ReduceOp) (expr : KernelExpr) (program : CpuFusionProgram)
      (lanes strides : List (List Nat)) (slices : List (List T)) (shape dims : List Nat) (keepdims : Bool)
      (layout : Layout) (cells output scratch : List T),
      CpuFusionProgram.new [expr] = .ok program → program.scalarCount = 0 →
      FusedLanes program lanes strides slices shape → Layout.contiguous shape = .ok layout → shape.prod ≤ usizeMax →
      dims.Pairwise (· < ·) → (∀ d ∈ dims, d < shape.length) → cells.length = shape.prod →
      output.length = (reducedShape shape dims keepdims).prod →
      program.inputCount + program.valueScratchLen ≤ scratch.length → scratch.length ≤ usizeMax →
      ∃ written result, interpretCoreInto program slices (some strides) [] shape.prod shape [cells] scratch = .ok [written] ∧
        interpretReduceCoreInto op program slices strides shape dims keepdims (reducedShape shape dims keepdims) output
          scratch = .ok result ∧
        ∀ c, Coordinate (reducedShape shape dims keepdims) c → ∃ order values,
          order.Pairwise (fun a b => rowIndex shape a < rowIndex shape b) ∧
          (∀ c', c' ∈ order ↔ Coordinate shape c' ∧ outputCoordinate dims keepdims c' = c) ∧
          Reduce.Elements written layout order values ∧
          result[rowIndex (reducedShape shape dims keepdims) c]? =
            some (op.finish (dims.map (shape.getD · 0)).prod (values.foldl op.fold (Scalar.fromF64 op.init))) ∧
          ∀ (A : Type) (operation : String) (init : A) (reduce : A → T → A) (finish : A → T)
            (destination : CpuDestination T), Reduce.Accepts shape dims → destination.Ready →
            destination.shape = Reduce.keptShape shape dims →
            ∃ reduced, Reduce.reduceWithAccumulator operation written layout dims init reduce finish destination =
                .ok reduced ∧
              reduced[rowIndex (reducedShape shape dims keepdims) c]? = some (finish (values.foldl reduce init)) := by
  constructor
  · intro lane out hbroadcasts
    obtain ⟨strides, hstrides⟩ : ∃ strides, laneStrides lane out = some strides :=
      ⟨_, laneStrides_iff.mpr ⟨hbroadcasts, rfl⟩⟩
    refine ⟨strides, hstrides, fun index hindex => ?_⟩
    obtain ⟨hc, hrow⟩ := rowIndex_unravel hindex
    have hoffset := stridedOffset_rowIndex hstrides hc
    rw [hrow] at hoffset
    exact ⟨hoffset, hoffset ▸ rowIndex_lt (coordinate_broadcastSource hbroadcasts hc)⟩
  · intro T _ _ op expr program lanes strides slices shape dims keepdims layout cells output scratch hprogram hscalars hlanes
      hlayout hprod hsorted hdims hcells houtput hscratch hlen
    obtain ⟨result, hresult, hfolds⟩ := @interpretReduceCoreInto_elements T program lanes strides slices shape scratch _ expr dims keepdims op
      hprogram hlanes hscalars hscratch hlen hdims output houtput
    have hnone : program.scalarCount ≤ ([] : List T).length := Nat.le_of_eq hscalars
    refine ⟨_, result, interpretCoreInto_elements hprogram hlanes hnone hscratch hlen hcells, hresult,
      fun c hc => ⟨_, _, foldedInto_pairwise shape dims keepdims c, fun c' => mem_foldedInto,
        elements_written hlayout _ fun c' hc' => (mem_foldedInto.mp hc').1, hfolds c hc, ?_⟩⟩
    intro A operation init reduce finish destination haccepts hready hshape
    obtain ⟨rfl, -, -⟩ := Layout.contiguous_ok hlayout
    have honce : Reduce.ListedOnce layout.shape dims := fun d _ =>
      nodup_iff_count_le_one.mp (hsorted.imp Nat.ne_of_lt) d
    have hfits : layout.Fits (elements layout.shape (elementValue program expr lanes slices [])).length := by
      rw [elements, length_map, length_range]
      exact contiguous_fits hlayout hprod
    obtain ⟨reduced, hreduced, -, hget⟩ := @Reduce.reduceWithAccumulator_order layout dims T A _ operation _ init reduce finish
      destination haccepts (.inr honce) hfits hready hshape
    refine ⟨reduced, hreduced, ?_⟩
    -- the output element with the reduced axes kept
    obtain ⟨kept, hkept, hout, hrow⟩ := exists_keptAxes 0 (reducedShape_eq layout.shape dims keepdims ▸ hc)
    have hkeptShape : Reduce.keptShape layout.shape dims = outputAxes dims true 1 0 layout.shape :=
      (keptShape_eq_reduced _ _).trans (reducedShape_eq _ _ _)
    rw [hshape, hkeptShape] at hget
    obtain ⟨values, hvalues, hcell⟩ := hget kept hkept
    rw [foldOrder_eq hsorted hdims (hkeptShape ▸ hkept) hout] at hvalues
    have hsame : values = (foldedInto layout.shape dims keepdims c).map (elementValue program expr lanes slices []) :=
      right_unique_forall₂' (fun _ _ _ h h' => Option.some.inj (h.symm.trans h')) hvalues
        (elements_written hlayout _ fun c' hc' => (mem_foldedInto.mp hc').1)
    rw [reducedShape_eq, ← hrow, hcell, hsame]

/-! ### Rows of a product -/

def rowProduct : KernelExpr := .mul (.input 0) (.input 1)

def rowProductProgram : CpuFusionProgram where
  ops := [.input 0, .input 1, .mul]
  planEnds := [3]
  inputCount := 2
  scalarCount := 0
  valueScratchLen := 2

theorem rowProduct_new : CpuFusionProgram.new [rowProduct] = .ok rowProductProgram := by
  have hflat : flattenInto rowProduct [] = [.input 0, .input 1, .mul] := by
    simp [flattenInto_eq, rowProduct, KernelExpr.postorder_eq, KernelExpr.children, KernelExpr.op]
  rw [CpuFusionProgram.new, foldlM_cons, CpuFusionProgram.addPlan, hflat]
  rfl

theorem rowProduct_lanes :
    FusedLanes rowProductProgram [[2, 3], [3]] [[3, 1], [0, 1]] [[1, 2, 3, 4, 5, 6], [1, 10, 100]] [2, 3] where
  broadcast := .cons rfl (.cons rfl .nil)
  stored := .cons (by decide) (.cons (by decide) .nil)
  inputs := by decide

theorem fusedReduction_exact_rows :
    (∃ strides, laneStrides [3] [2, 3] = some strides ∧ ∀ index < 6,
      stridedOffset index [2, 3] strides = rowIndex [3] (broadcastSource [3] (unravel [2, 3] index)) ∧
        stridedOffset index [2, 3] strides < 3) ∧
    ∃ written result, interpretCoreInto rowProductProgram [[1, 2, 3, 4, 5, 6], [1, 10, 100]] (some [[3, 1], [0, 1]]) [] 6
        [2, 3] [[0, 0, 0, 0, 0, 0]] [0, 0, 0, 0] = .ok [written] ∧
      interpretReduceCoreInto .sum rowProductProgram [[1, 2, 3, 4, 5, 6], [1, 10, 100]] [[3, 1], [0, 1]] [2, 3] [1] false [2]
        [0, 0] [0, 0, 0, 0] = .ok result ∧
      ∃ values : List Nat, result[1]? = some (values.foldl (· + ·) 0) := by
  refine ⟨fusedReduction_exact.1 [3] [2, 3] ⟨by decide, .cons (.inl rfl) .nil⟩, ?_⟩
  let _ : CpuElem Nat := ⟨.u32⟩
  obtain ⟨written, result, hwritten, hresult, hfolds⟩ := fusedReduction_exact.2 Nat .sum rowProduct rowProductProgram
    [[2, 3], [3]] [[3, 1], [0, 1]] [[1, 2, 3, 4, 5, 6], [1, 10, 100]] [2, 3] [1] false
    ⟨[2, 3], [3, 1], 0, rfl⟩ [0, 0, 0, 0, 0, 0] [0, 0] [0, 0, 0, 0] rowProduct_new rfl rowProduct_lanes rfl (by decide)
    (pairwise_singleton _ _) (by decide) rfl rfl (by decide) (by decide)
  obtain ⟨_, values, _, _, _, hvalue, _⟩ := hfolds [1] (.cons (by decide) .nil)
  exact ⟨written, result, hwritten, hresult, values, hvalue⟩

end EffectTorch
