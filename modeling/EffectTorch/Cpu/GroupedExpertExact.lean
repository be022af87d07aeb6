import EffectTorch.Cpu.GroupedExpertLinear
import EffectTorch.Cpu.MatmulExact

/-!
# What grouped expert linear rows compute

Each output row is the product of its input row and the weights of its own expert. It is copied once, and
no row is copied when some index is bad.

Results:
1. `rowsOf_eq`, `expertWeights_eq`: the views that the products read and write.
2. `multiplyGroups_eq`: the packed rows after all products.
3. `copyRows_eq`: each row is copied to its place.
4. `executeInto_exact`: the execution is exact.
-/

namespace EffectTorch
open Option Lib Matmul Gguf

namespace GroupedExpertLinear

/-! ## Packed matrices -/

/-- Contiguous storage of a matrix. -/
structure PackedMatrix {T : Type} [CpuElem T] (t : TypedTensor T) (rows columns : Nat) : Prop where
  shape : t.shape = [rows, columns]
  ready : t.planned.Ready

section PackedMatrices

variable {T : Type} [CpuElem T] {t : TypedTensor T} {rows columns i j : Nat}

theorem PackedMatrix.room (h : PackedMatrix t rows columns) : t.layout.offset + rows * columns ≤ t.values.length := by
  have hroom := h.ready.room
  have hshape : t.planned.shape = [rows, columns] := h.shape
  rw [hshape, List.prod_cons, List.prod_cons, List.prod_nil, Nat.mul_one] at hroom
  exact hroom

theorem PackedMatrix.addressable (h : PackedMatrix t rows columns) : t.values.length ≤ usizeMax := h.ready.addressable

/-- The elements lie in row-major order. -/
theorem PackedMatrix.at_eq (h : PackedMatrix t rows columns) (hi : i < rows) (hj : j < columns) :
    t.at? [i, j] = t.values[t.layout.offset + (i * columns + j)]? := by
  have hshape : t.layout.shape = [rows, columns] := h.shape
  have hc : Coordinate t.layout.shape [i, j] := by rw [hshape]; exact coordinate_matrix.mpr ⟨hi, hj⟩
  have hrow : RowMajor t.layout.shape t.layout.strides := (Layout.isContiguous_iff.mp h.ready.contiguous).1
  have hindex : rowIndex t.layout.shape [i, j] = i * columns + j := by
    rw [hshape]
    simp [rowIndex]
  rw [TypedTensor.at?, Layout.address, RowMajor.dot_eq hrow t.layout.rank_eq hc, hindex]

theorem PackedMatrix.length_slice (h : PackedMatrix t rows columns) : t.planned.slice.length = rows * columns := by
  have hshape : t.planned.shape = [rows, columns] := h.shape
  rw [h.ready.length_slice, hshape, List.prod_cons, List.prod_cons, List.prod_nil, Nat.mul_one]

theorem PackedMatrix.getElem?_slice (h : PackedMatrix t rows columns) (hi : i < rows) (hj : j < columns) :
    t.planned.slice[i * columns + j]? = t.at? [i, j] := by
  have hshape : t.planned.shape = [rows, columns] := h.shape
  have hrow : i * columns + columns ≤ rows * columns := Nat.succ_mul i columns ▸ Nat.mul_le_mul_right columns hi
  rw [h.at_eq hi hj, CpuDestination.slice, hshape, List.prod_cons, List.prod_cons, List.prod_nil, Nat.mul_one,
    List.getElem?_take_of_lt (Nat.lt_of_lt_of_le (Nat.add_lt_add_left hj _) hrow), List.getElem?_drop]
  rfl

theorem PackedMatrix.sliceOf_eq (h : PackedMatrix t rows columns) (message : String) :
    t.sliceOf message = .ok t.planned.slice := by
  have hcontiguous : t.layout.isContiguous := h.ready.contiguous
  have hnumel : (t.layout.numel : Fallible String Nat) = .ok t.planned.shape.prod := expect_ok.mpr h.ready.checkedNumel
  have hroom : t.layout.offset + t.planned.shape.prod ≤ t.values.length := h.ready.room
  rw [TypedTensor.sliceOf, if_pos hcontiguous, hnumel, ok_bind, if_pos hroom]
  rfl

/-- A matrix is contiguous when its strides are packed. -/
theorem isContiguous_matrix {l : Layout} {s₀ s₁ : Nat} (hshape : l.shape = [rows, columns]) (hstrides : l.strides = [s₀, s₁]) :
    l.isContiguous = true ↔ (rows = 1 ∨ s₀ = columns) ∧ (columns = 1 ∨ s₁ = 1) ∧ columns ≤ usizeMax := by
  rw [Layout.isContiguous_iff, hshape, hstrides]
  simp [RowMajor, ProductsFit, and_assoc]

omit [CpuElem T] in
/-- A view whose addresses lie in the buffer. -/
theorem view_eq {ε : Type} {layout : Layout} (h : layout.Fits t.values.length) :
    (t.view layout : Fallible ε (TypedTensor T)) = .ok ⟨t.values, layout, h⟩ := by
  obtain ⟨index, hindex, hle⟩ := h
  unfold TypedTensor.view
  split
  · next hnone => rw [hindex] at hnone; cases hnone
  · next index' hsome =>
    obtain rfl := some.inj (hindex.symm.trans hsome)
    rw [dif_pos hle]

/-- A view of adjacent rows. -/
theorem rowsOf_eq {start len : Nat} (h : PackedMatrix t rows columns) (hrows : rows ≤ usizeMax) (hlen : 0 < len)
    (hfits : start + len ≤ rows) : ∃ v, rowsOf t start len = .ok v ∧ PackedMatrix v len columns ∧ v.values = t.values ∧
      v.layout.offset = t.layout.offset + start * columns := by
  obtain ⟨values, ⟨shape, strides, offset, hrank⟩, hinside⟩ := t
  obtain rfl : shape = [rows, columns] := h.shape
  match strides, hrank with
  | [s₀, s₁], hrank =>
    obtain ⟨hs₀, hs₁, hcolumns⟩ := (isContiguous_matrix rfl rfl).mp h.ready.contiguous
    have hroom : offset + rows * columns ≤ values.length := h.room
    have haddressable : values.length ≤ usizeMax := h.addressable
    have hstep : start * s₀ = start * columns := by
      rcases hs₀ with rfl | rfl
      · obtain rfl : start = 0 := by omega
        rw [Nat.zero_mul, Nat.zero_mul]
      · rfl
    have hend : start * columns + len * columns ≤ rows * columns := Nat.add_mul _ _ _ ▸ Nat.mul_le_mul_right columns hfits
    have hrows' : len = 1 ∨ s₀ = columns := hs₀.imp_left fun hone => by omega
    have hlayout : Layout.narrow .wrapping ⟨[rows, columns], [s₀, s₁], offset, hrank⟩ 0 start len =
        .ok ⟨[len, columns], [s₀, s₁], offset + start * columns, rfl⟩ := by
      have hadd : Build.wrapping.add start len = .ok (start + len) := Build.add_of_le (Nat.le_trans hfits hrows)
      have hmul : Build.wrapping.mul start s₀ = .ok (start * columns) := hstep ▸ Build.mul_of_le (by omega)
      have hoffset : Build.wrapping.add offset (start * columns) = .ok (offset + start * columns) := Build.add_of_le (by omega)
      simp [Layout.narrow, hadd, hmul, hoffset, Layout.rank, assert, hfits]
    have hready : (⟨CpuElem.dtype T, ⟨[len, columns], [s₀, s₁], offset + start * columns, rfl⟩, values⟩ :
        CpuDestination T).Ready := by
      refine ⟨rfl, (isContiguous_matrix rfl rfl).mpr ⟨hrows', hs₁, hcolumns⟩, ?_, haddressable⟩
      show offset + start * columns + [len, columns].prod ≤ values.length
      rw [List.prod_cons, List.prod_cons, List.prod_nil, Nat.mul_one]
      omega
    have hinside' : Layout.Fits ⟨[len, columns], [s₀, s₁], offset + start * columns, rfl⟩ values.length := hready.checkedMaxIndex
    refine ⟨⟨values, _, hinside'⟩, ?_, ⟨rfl, hready⟩, rfl, rfl⟩
    rw [rowsOf, hlayout]
    exact view_eq hinside'

omit [CpuElem T] in
/-- The matrix of an expert has its weights, transposed. -/
theorem expertWeights_eq {experts inner expert : Nat} (hshape : t.shape = [experts, columns, inner]) (hexpert : expert < experts) :
    ∃ b, expertWeights t inner columns expert = .ok b ∧ b.shape = [inner, columns] ∧
      ∀ k < inner, ∀ j < columns, b.at? [k, j] = t.at? [expert, j, k] := by
  obtain ⟨values, ⟨shape, strides, offset, hrank⟩, hinside⟩ := t
  obtain rfl : shape = [experts, columns, inner] := hshape
  match strides, hrank with
  | [s₀, s₁, s₂], hrank =>
    by_cases hzero : 0 ∈ [inner, columns]
    · -- no weights are read, wherever the view starts
      obtain ⟨product, hproduct⟩ : ∃ n, Build.wrapping.mul expert s₀ = .ok n := by
        unfold Build.mul
        split <;> exact ⟨_, rfl⟩
      obtain ⟨start, hstart⟩ : ∃ n, Build.wrapping.add offset product = .ok n := by
        unfold Build.add
        split <;> exact ⟨_, rfl⟩
      have hview : Layout.Fits ⟨[inner, columns], [s₂, s₁], start, rfl⟩ values.length :=
        ⟨0, Layout.checkedMaxIndex_some.mpr (.inl ⟨hzero, rfl⟩), Nat.zero_le _⟩
      refine ⟨⟨values, _, hview⟩, ?_, rfl, fun k hk j hj => ?_⟩
      · simp only [expertWeights, List.getD_cons_zero, List.getD_cons_succ, hproduct, ok_bind, hstart, mapErr]
        exact view_eq hview
      · exact absurd (coordinate_matrix.mpr ⟨hk, hj⟩) (not_coordinate hzero)
    · obtain ⟨hinner, hcolumns⟩ : 0 < inner ∧ 0 < columns := by simpa [eq_comm, Nat.pos_iff_ne_zero] using hzero
      have hpos : 0 ∉ [experts, columns, inner] := by simp; omega
      obtain ⟨n, hn, hle⟩ := hinside
      obtain ⟨hbound, hlast⟩ : offset + ((experts - 1) * s₀ + ((columns - 1) * s₁ + (inner - 1) * s₂)) + 1 ≤ usizeMax ∧
          offset + ((experts - 1) * s₀ + ((columns - 1) * s₁ + (inner - 1) * s₂)) + 1 ≤ values.length := by
        obtain ⟨hzero', -⟩ | ⟨-, hbound, rfl⟩ := Layout.checkedMaxIndex_some.mp hn
        · exact absurd hzero' hpos
        · exact ⟨hbound, hle⟩
      have hstep : expert * s₀ ≤ (experts - 1) * s₀ := Nat.mul_le_mul_right s₀ (Nat.le_sub_one_of_lt hexpert)
      have hproduct : Build.wrapping.mul expert s₀ = .ok (expert * s₀) := Build.mul_of_le (by omega)
      have hstart : Build.wrapping.add offset (expert * s₀) = .ok (offset + expert * s₀) := Build.add_of_le (by omega)
      have hview : Layout.Fits ⟨[inner, columns], [s₂, s₁], offset + expert * s₀, rfl⟩ values.length := by
        have haddress : Layout.address ⟨[inner, columns], [s₂, s₁], offset + expert * s₀, rfl⟩ (lastCoordinate [inner, columns]) =
            offset + expert * s₀ + ((inner - 1) * s₂ + (columns - 1) * s₁) := rfl
        exact ⟨_, Layout.checkedMaxIndex_some.mpr (.inr ⟨hzero, by rw [haddress]; omega, rfl⟩), by rw [haddress]; omega⟩
      refine ⟨⟨values, _, hview⟩, ?_, rfl, fun k hk j hj => ?_⟩
      · simp only [expertWeights, List.getD_cons_zero, List.getD_cons_succ, hproduct, ok_bind, hstart, mapErr]
        exact view_eq hview
      · refine congrArg (values[·]?) ?_
        show offset + expert * s₀ + (k * s₂ + (j * s₁ + 0)) = offset + (expert * s₀ + (j * s₁ + (k * s₂ + 0)))
        omega

end PackedMatrices

/-! ## Products -/

/-- Storage that has been written from `start` on. -/
theorem getElem?_overwrite {T : Type} (t : TypedTensor T) {start : Nat} {output : List T}
    (hroom : start + output.length ≤ t.values.length) (i : Nat) : (t.overwrite start output).values[i]? =
      if start ≤ i ∧ i < start + output.length then output[i - start]? else t.values[i]? := by
  rw [TypedTensor.overwrite, List.getElem?_mapIdx]
  by_cases hin : start ≤ i ∧ i < start + output.length
  · have hindex : i - start < output.length := Nat.sub_lt_left_of_lt_add hin.1 hin.2
    rw [if_pos hin, List.getElem?_eq_getElem (Nat.lt_of_lt_of_le hin.2 hroom), map_some, if_neg (Nat.not_lt.mpr hin.1),
      List.getD_eq_getElem _ _ hindex, List.getElem?_eq_getElem hindex]
  · have hsame : (fun v => if i < start then v else output.getD (i - start) v) = id := by
      funext v
      split
      · rfl
      · next hle => exact List.getD_eq_default _ _ (by omega)
    rw [if_neg hin, hsame, Option.map_id, id]

section Products

variable {T : Type} [MatmulElem T] {packedX weight packedY : TypedTensor T} {rows inner columns experts : Nat}

theorem PackedMatrix.overwrite (h : PackedMatrix packedY rows columns) (start : Nat) (output : List T) :
    PackedMatrix (packedY.overwrite start output) rows columns := by
  have hlength : (packedY.overwrite start output).values.length = packedY.values.length := List.length_mapIdx
  refine ⟨h.shape, h.ready.dtype, h.ready.contiguous, ?_, ?_⟩
  · exact Nat.le_trans h.ready.room (Nat.le_of_eq hlength.symm)
  · exact Nat.le_trans (Nat.le_of_eq hlength) h.addressable

/-- The rows from `start` on have been written. -/
theorem PackedMatrix.at_overwrite (h : PackedMatrix packedY rows columns) {start len : Nat} {output : List T}
    (hlength : output.length = len * columns) (hfits : start + len ≤ rows) {i j : Nat} (hi : i < rows) (hj : j < columns) :
    (packedY.overwrite (packedY.layout.offset + start * columns) output).at? [i, j] =
      if start ≤ i ∧ i < start + len then output[(i - start) * columns + j]? else packedY.at? [i, j] := by
  have hroom := h.room
  have hend : start * columns + len * columns ≤ rows * columns := Nat.add_mul _ _ _ ▸ Nat.mul_le_mul_right columns hfits
  have hoffset : (packedY.overwrite (packedY.layout.offset + start * columns) output).layout.offset = packedY.layout.offset := rfl
  rw [(h.overwrite _ _).at_eq hi hj, h.at_eq hi hj, getElem?_overwrite packedY (by omega), hoffset, hlength]
  by_cases hin : start ≤ i ∧ i < start + len
  · obtain ⟨r, rfl⟩ := Nat.exists_eq_add_of_le hin.1
    have hr : r < len := Nat.lt_of_add_lt_add_left hin.2
    have hrow : r * columns + columns ≤ len * columns := Nat.succ_mul r columns ▸ Nat.mul_le_mul_right columns hr
    rw [Nat.add_mul, if_pos (by omega), if_pos hin, Nat.add_sub_cancel_left]
    congr 1
    omega
  · rw [if_neg hin, if_neg fun hbetween => hin ?_]
    constructor
    · refine Nat.le_of_not_lt fun hlt => ?_
      have hrow : i * columns + columns ≤ start * columns := Nat.succ_mul i columns ▸ Nat.mul_le_mul_right columns hlt
      omega
    · refine Nat.lt_of_not_le fun hle => ?_
      have hrow := Nat.mul_le_mul_right columns hle
      rw [Nat.add_mul] at hrow
      omega

/-- The pairs of elements that one output element is the product of. -/
def pairs (x weight : TypedTensor T) (inner row expert column : Nat) : List (T × T) :=
  (List.range inner).map fun t => (element x [row, t], element weight [expert, column, t])

/-- The requirement of the results bounds those of each group. -/
theorem matmulRequirement_rows {dtype : DType} {requirement : CpuTensorRequirement} {len : Nat}
    (h : requirementNew [rows, columns] dtype = .ok requirement) (hlen : len ≤ rows) :
    rows ≤ usizeMax ∧ ∃ output, matmulRequirement [len, columns] dtype = .ok output := by
  obtain ⟨elements, helements, h⟩ := bind_ok.mp h
  obtain ⟨bytes, hbytes, -⟩ := bind_ok.mp h
  obtain ⟨first, hfirst, hrest⟩ := bind_eq_some_iff.mp (expect_ok.mp helements)
  obtain ⟨second, hsecond, hlast⟩ := bind_eq_some_iff.mp hrest
  obtain ⟨hle, rfl⟩ := checkedMul_some.mp hfirst
  obtain ⟨hle', rfl⟩ := checkedMul_some.mp hsecond
  obtain rfl := some.inj hlast
  obtain ⟨hle'', rfl⟩ := checkedMul_some.mp (expect_ok.mp hbytes)
  rw [Nat.one_mul] at hle hle' hle''
  have hcolumns := Nat.mul_le_mul_right columns hlen
  have hproduct : Matmul.checkedProduct [len, columns] = .ok (len * columns) := by
    have hfirst : checkedMul 1 len = some len :=
      checkedMul_some.mpr ⟨Nat.le_trans (Nat.le_of_eq (Nat.one_mul len)) (Nat.le_trans hlen hle), (Nat.one_mul len).symm⟩
    have hsecond : checkedMul len columns = some (len * columns) := checkedMul_some.mpr ⟨Nat.le_trans hcolumns hle', rfl⟩
    refine okOr_ok.mpr ?_
    simp [hfirst, hsecond]
  have hsize : checkedMul (len * columns) dtype.sizeInBytes = some (len * columns * dtype.sizeInBytes) :=
    checkedMul_some.mpr ⟨Nat.le_trans (Nat.mul_le_mul_right _ hcolumns) hle'', rfl⟩
  refine ⟨hle, _, bind_ok.mpr ⟨_, hproduct, bind_ok.mpr ⟨_, okOr_ok.mpr hsize, rfl⟩⟩⟩

/-- The product of one group writes its rows and leaves the others. -/
theorem multiplyGroup_eq {requirement : CpuTensorRequirement} (hx : PackedMatrix packedX rows inner)
    (hweight : weight.shape = [experts, columns, inner]) (hy : PackedMatrix packedY rows columns)
    (hsize : requirementNew [rows, columns] (CpuElem.dtype T) = .ok requirement) {start expert len : Nat}
    (hexpert : expert < experts) (hlen : 0 < len) (hfits : start + len ≤ rows) :
    ∃ packedY', multiplyGroup packedX weight inner columns start expert len packedY = .ok packedY' ∧
      PackedMatrix packedY' rows columns ∧ ∀ i < rows, ∀ j < columns, packedY'.at? [i, j] =
        if start ≤ i ∧ i < start + len then some (product (pairs packedX weight inner i expert j)) else packedY.at? [i, j] := by
  obtain ⟨hrows, output, houtput⟩ := matmulRequirement_rows hsize (Nat.le_trans (Nat.le_add_left len start) hfits)
  obtain ⟨a, ha, hapacked, havalues, haoffset⟩ := rowsOf_eq hx hrows hlen hfits
  obtain ⟨b, hb, hbshape, hbat⟩ := expertWeights_eq hweight hexpert
  obtain ⟨y, hyrows, hypacked, _, hyoffset⟩ := rowsOf_eq hy hrows hlen hfits
  obtain ⟨out, hrun, hlength, hcells⟩ := matmulInto_matrices hapacked.shape hbshape houtput hypacked.ready hypacked.shape
  refine ⟨packedY.overwrite y.layout.offset out, ?_, hy.overwrite _ _, fun i hi j hj => ?_⟩
  · rw [multiplyGroup, ha, ok_bind, hb, ok_bind, hyrows, ok_bind, matmulRequirements_matrices hapacked.shape hbshape houtput,
      ok_bind, hrun, ok_bind]
  · rw [hyoffset, hy.at_overwrite hlength hfits hi hj]
    split
    · next hin =>
      obtain ⟨r, rfl⟩ := Nat.exists_eq_add_of_le hin.1
      have hr : r < len := Nat.lt_of_add_lt_add_left hin.2
      rw [Nat.add_sub_cancel_left, hcells r hr j hj]
      refine congrArg (some ∘ product) (List.map_congr_left fun t ht => ?_)
      have ht := List.mem_range.mp ht
      have hrow : packedX.layout.offset + start * inner + (r * inner + t) = packedX.layout.offset + ((start + r) * inner + t) := by
        rw [Nat.add_mul, Nat.add_assoc, Nat.add_assoc]
      rw [element, element, element, element, hapacked.at_eq hr ht, hx.at_eq hi ht, havalues, haoffset, hrow, hbat t ht j hj]
    · rfl

/-- The products of all groups. -/
theorem multiplyGroups_eq {requirement : CpuTensorRequirement} {route : Nat → Nat} (hx : PackedMatrix packedX rows inner)
    (hweight : weight.shape = [experts, columns, inner]) (hsize : requirementNew [rows, columns] (CpuElem.dtype T) = .ok requirement)
    {groups : List (Nat × List Nat)} (hkeyed : Lib.Keyed route groups) (hexperts : ∀ entry ∈ groups, entry.1 < experts)
    {start : Nat} (hfits : start + (members groups).length ≤ rows) (hy : PackedMatrix packedY rows columns) :
    ∃ packedY', multiplyGroups packedX weight inner columns start groups packedY = .ok packedY' ∧
      PackedMatrix packedY' rows columns ∧ ∀ i < rows, ∀ j < columns, packedY'.at? [i, j] =
        if start ≤ i ∧ i < start + (members groups).length then
          some (product (pairs packedX weight inner i (route ((members groups).getD (i - start) 0)) j))
        else packedY.at? [i, j] := by
  induction groups generalizing start packedY with
  | nil => exact ⟨packedY, rfl, hy, fun i _ j _ => (if_neg fun h => Nat.not_lt.mpr h.1 h.2).symm⟩
  | cons entry groups ih =>
    obtain ⟨expert, group⟩ := entry
    obtain ⟨⟨hnonempty, hroute⟩, hrest⟩ := List.forall_mem_cons.mp hkeyed
    obtain ⟨hexpert, hothers⟩ := List.forall_mem_cons.mp hexperts
    have hmembers : members ((expert, group) :: groups) = group ++ members groups := rfl
    rw [hmembers, List.length_append] at hfits
    obtain ⟨first, hfirst, hfirstpacked, hfirstat⟩ := multiplyGroup_eq hx hweight hy hsize hexpert
      (List.length_pos_iff.mpr hnonempty) (Nat.le_trans (Nat.add_le_add_left (Nat.le_add_right _ _) start) hfits)
    obtain ⟨last, hlast, hlastpacked, hlastat⟩ := @ih first hrest hothers (start + group.length)
      (by rwa [Nat.add_assoc]) hfirstpacked
    refine ⟨last, by rw [multiplyGroups, hfirst, ok_bind, hlast], hlastpacked, fun i hi j hj => ?_⟩
    rw [hlastat i hi j hj, hfirstat i hi j hj, hmembers, List.length_append]
    by_cases hbefore : i < start + group.length
    · rw [if_neg fun h => Nat.not_le.mpr hbefore h.1]
      by_cases hin : start ≤ i
      · -- the row is of the first group, whose members have its expert
        have hindex : i - start < group.length := Nat.sub_lt_left_of_lt_add hin hbefore
        rw [if_pos ⟨hin, hbefore⟩, if_pos ⟨hin, by omega⟩, List.getD_append _ _ _ _ hindex, List.getD_eq_getElem _ _ hindex,
          hroute _ (List.getElem_mem hindex)]
      · rw [if_neg fun h => hin h.1, if_neg fun h => hin h.1]
    · have hle := Nat.not_lt.mp hbefore
      have hrange : start + group.length ≤ i ∧ i < start + group.length + (members groups).length ↔
          start ≤ i ∧ i < start + (group.length + (members groups).length) := by omega
      have hnot : ¬ (start ≤ i ∧ i < start + group.length) := fun h => hbefore h.2
      rw [List.getD_append_right _ _ _ _ (Nat.le_sub_of_add_le' hle), Nat.sub_sub, if_congr hrange rfl (if_neg hnot)]

/-- The rows of the input, in the order of the groups. -/
theorem packRows_eq {x : TypedTensor T} {order : List Nat} {output : List T} (hx : x.shape = [rows, inner])
    (horder : ∀ row ∈ order, row < rows) (hlength : output.length = order.length * inner) :
    ∃ out, packRows x inner order output = .ok out ∧ out.length = order.length * inner ∧
      ∀ p < order.length, ∀ i < inner, out[p * inner + i]? = some (element x [order.getD p 0, i]) := by
  have hslot : ∀ a ∈ order.zipIdx, a.2 < order.length := fun a ha => (List.mem_zipIdx' ha).1
  have hall : ∀ p < order.length, ∃ a ∈ order.zipIdx, a.2 = p := fun p hp =>
    ⟨(order[p], p), List.mem_zipIdx_iff_getElem?.mpr (List.getElem?_eq_getElem hp), rfl⟩
  obtain ⟨out, hrun, hout, hcells⟩ := @foldlM_rows T order.length inner (Nat × Nat) order.zipIdx Prod.snd
    (fun linear => element x [order.getD (linear / inner) 0, linear % inner])
    (fun output a => (List.range inner).foldlM (fun output i => do
      let value ← readAt x.values (x.layout.offset + a.1 * x.layout.strides.getD 0 0 + i * x.layout.strides.getD 1 0)
      writeAt output (a.2 * inner + i) value) output) output hlength hslot hall (fun a ha cells hroom => by
        refine foldlM_sweep fun i hi cells' hcells' => ?_
        obtain ⟨hpacked, hrow⟩ := List.mem_zipIdx' ha
        have hlt : a.2 * inner + i < cells'.length := hcells' ▸ Nat.lt_of_lt_of_le (Nat.add_lt_add_left hi _) hroom
        have hrank : x.layout.rank = 2 := congrArg List.length hx
        have hread : (readAt x.values (x.layout.offset + a.1 * x.layout.strides.getD 0 0 + i * x.layout.strides.getD 1 0) :
            Fallible String T) = .ok (element x [a.1, i]) := by
          have haddress := address_matrix (i := a.1) (j := i) hx
          rw [hrank] at haddress
          refine readAt_ok.mpr ((congrArg (x.values[·]?) haddress.symm).trans (at_element ?_))
          rw [hx]
          exact coordinate_matrix.mpr ⟨horder _ (hrow ▸ List.getElem_mem hpacked), hi⟩
        rw [hread, ok_bind, writeAt_of_lt hlt, List.modify_eq_set_getElem?, List.getElem?_eq_getElem hlt, (row_column hi).1,
          (row_column hi).2, List.getD_eq_getElem _ _ hpacked, ← hrow]
        rfl)
  refine ⟨out, hrun, hout, fun p hp i hi => ?_⟩
  rw [hcells p hp i hi, (row_column hi).1, (row_column hi).2]

end Products

/-! ## Routes -/

section Routes

variable {indexes : Tensor} {ids : List UInt32} {rows experts : Nat}

/-- The expert of a row. -/
def route (indexes : Tensor) (row : Nat) : Nat := ((indexes.index? [row]).getD 0).toNat

theorem routes_turn (hbuffer : indexes.buffer = .u32 ids) (hshape : indexes.layout.shape = [rows]) {row : Nat} (hrow : row < rows) :
    indexes.index? [row] = some (route indexes row : Int) ∧ ∃ id, route indexes row = id.toNat ∧
      (readAt ids (indexes.layout.offset + row * indexes.layout.strides.getD 0 0) : Fallible String UInt32) = .ok id := by
  obtain ⟨buffer, ⟨shape, strides, offset, hrank⟩, hfits⟩ := indexes
  obtain rfl : shape = [rows] := hshape
  obtain rfl : buffer = .u32 ids := hbuffer
  match strides, hrank with
  | [s], hrank =>
    have hstored : Layout.Fits ⟨[rows], [s], offset, hrank⟩ ids.length := hfits
    obtain ⟨id, hid⟩ := hstored.exists_at (c := [row]) (.cons hrow .nil)
    have hindex : Tensor.index? ⟨.u32 ids, ⟨[rows], [s], offset, hrank⟩, hfits⟩ [row] = some (id.toNat : Int) := by
      rw [Tensor.index?]
      simp only [hid, map_some]
    refine ⟨?_, id, ?_, readAt_ok.mpr hid⟩
    · rw [route, hindex]
      rfl
    · rw [route, hindex]
      rfl

/-- The rows are grouped by their experts, unless some index is bad. -/
theorem routes_cases (hbuffer : indexes.buffer = .u32 ids) (hshape : indexes.layout.shape = [rows]) :
    (BadIndex indexes experts ∧ ∃ e, routes ids indexes.layout rows experts = fail e) ∨
      (¬ BadIndex indexes experts ∧ (∀ row < rows, route indexes row < experts) ∧
        routes ids indexes.layout rows experts = .ok (groupAll (route indexes) (List.range rows))) := by
  have hturn := fun row (hrow : row < rows) => routes_turn hbuffer hshape hrow
  have hids : validateIndices indexes "groupedExpertLinearRows" = .ok () := by rw [validateIndices, hbuffer]
  have hbad : ¬ BadIndex indexes experts ↔ ∀ row < rows, route indexes row < experts := by
    rw [not_badIndex_iff hids, hshape]
    constructor
    · intro h row hrow
      obtain ⟨id, hid, hlt⟩ := h [row] (.cons hrow .nil)
      rw [(hturn row hrow).1] at hid
      exact (Int.ofNat_inj.mp (some.inj hid)) ▸ hlt
    · intro h c hc
      obtain ⟨row, rest, hrow, hrest, rfl⟩ := List.forall₂_cons_right_iff.mp hc
      obtain rfl := List.forall₂_nil_right_iff.mp hrest
      exact ⟨route indexes row, (hturn row hrow).1, h row hrow⟩
  by_cases hall : ∀ row < rows, route indexes row < experts
  · refine .inr ⟨hbad.mpr hall, hall, foldlM_plain fun row hrow groups => ?_⟩
    obtain ⟨-, id, hid, hread⟩ := hturn row (List.mem_range.mp hrow)
    have hok : ¬ experts ≤ id.toNat := Nat.not_le.mpr (hid ▸ hall row (List.mem_range.mp hrow))
    rw [hread, ok_bind, rejectIf, if_neg hok, ok_bind, hid]
  · refine .inl ⟨not_not.mp fun h => hall (hbad.mp h), ?_⟩
    cases hrun : routes ids indexes.layout rows experts with
    | ok groups =>
      -- every turn went through, so every index was in range
      have hpassed := foldlM_forall (C := fun row => ∃ id,
          (readAt ids (indexes.layout.offset + row * indexes.layout.strides.getD 0 0) : Fallible String UInt32) = .ok id ∧
            ¬ experts ≤ id.toNat) (fun groups row groups' h => by
        obtain ⟨id, hread, h⟩ := bind_ok.mp h
        obtain ⟨_, hok, _⟩ := bind_ok.mp h
        exact ⟨id, hread, rejectIf_ok.mp hok⟩) hrun
      refine absurd (fun row hrow => ?_) hall
      obtain ⟨id, hread, hok⟩ := hpassed row (List.mem_range.mpr hrow)
      obtain ⟨-, id', hid, hread'⟩ := hturn row hrow
      obtain rfl := Except.ok.inj (hread.symm.trans hread')
      exact hid ▸ Nat.not_le.mp hok
    | error fault =>
      obtain ⟨done, row, rest, groups, hl, -, herror⟩ := foldlM_fault (fun _ _ => True) (List.range rows)
        (fun _ _ _ _ _ _ _ _ => trivial) trivial hrun
      obtain ⟨-, id, -, hread⟩ := hturn row (range_eq_length hl).2
      rw [hread, ok_bind, rejectIf] at herror
      split at herror
      · cases herror
        exact ⟨_, rfl⟩
      · cases herror

end Routes

/-! ## Copies -/

section Copies

variable {T : Type} {rows columns : Nat} {values : List T}

/-- One row is copied. -/
theorem copyRow_eq {row packed : Nat} {out : Copied T} (hcells : out.cells.length = rows * columns)
    (hvalues : values.length = rows * columns) (hrow : row < rows) (hpacked : packed < rows) :
    ∃ out', copyRow columns values row packed out = .ok out' ∧ out'.cells.length = rows * columns ∧
      out'.rows = out.rows ++ [row] ∧ ∀ i < rows, ∀ j < columns, out'.cells[i * columns + j]? =
        if i = row then values[packed * columns + j]? else out.cells[i * columns + j]? := by
  have hend : ∀ i < rows, i * columns + columns ≤ rows * columns := fun i hi =>
    Nat.succ_mul i columns ▸ Nat.mul_le_mul_right columns hi
  have hmiddle : ((values.drop (packed * columns)).take columns).length = columns := by
    rw [List.length_take, List.length_drop, hvalues]
    exact Nat.min_eq_left (Nat.le_sub_of_add_le' (hend packed hpacked))
  have hsplice := fun i => @getElem?_splice T out.cells ((values.drop (packed * columns)).take columns) (row * columns)
    (by rw [hmiddle, hcells]; exact hend row hrow) i
  rw [hmiddle] at hsplice
  rw [copyRow, Nat.succ_mul, Nat.succ_mul, if_neg (by rw [hcells]; exact Nat.not_lt.mpr (hend row hrow)),
    if_neg (by rw [hvalues]; exact Nat.not_lt.mpr (hend packed hpacked))]
  refine ⟨_, rfl, ?_, rfl, fun i hi j hj => ?_⟩
  · rw [List.length_append, List.length_append, hmiddle, List.length_take, List.length_drop, hcells]
    have := hend row hrow
    omega
  · refine (hsplice _).trans ?_
    by_cases heq : i = row
    · subst heq
      rw [if_pos rfl, if_pos ⟨Nat.le_add_right _ _, Nat.add_lt_add_left hj _⟩, Nat.add_sub_cancel_left,
        List.getElem?_take_of_lt hj, List.getElem?_drop]
    · rw [if_neg heq, if_neg fun hin => heq ?_]
      rcases Nat.lt_trichotomy i row with hlt | rfl | hlt
      · have hnext : i * columns + columns ≤ row * columns := Nat.succ_mul i columns ▸ Nat.mul_le_mul_right columns hlt
        omega
      · rfl
      · have hnext : row * columns + columns ≤ i * columns := Nat.succ_mul row columns ▸ Nat.mul_le_mul_right columns hlt
        omega

/-- Each row is copied to its place. -/
theorem copyRows_eq {order : List (Nat × Nat)} (hvalues : values.length = rows * columns)
    (horder : ∀ a ∈ order, a.1 < rows ∧ a.2 < rows) (hnodup : (order.map Prod.fst).Nodup) {out : Copied T}
    (hcells : out.cells.length = rows * columns) :
    ∃ out', copyRows columns values order out = (.ok (), out') ∧ out'.cells.length = rows * columns ∧
      out'.rows = out.rows ++ order.map Prod.fst ∧
      (∀ a ∈ order, ∀ j < columns, out'.cells[a.1 * columns + j]? = values[a.2 * columns + j]?) ∧
      ∀ i < rows, i ∉ order.map Prod.fst → ∀ j < columns, out'.cells[i * columns + j]? = out.cells[i * columns + j]? := by
  induction order generalizing out with
  | nil => exact ⟨out, rfl, hcells, (List.append_nil _).symm, nofun, fun _ _ _ _ _ => rfl⟩
  | cons a order ih =>
    obtain ⟨row, packed⟩ := a
    obtain ⟨⟨hrow, hpacked⟩, hrest⟩ := List.forall_mem_cons.mp horder
    obtain ⟨hnew, hnodup⟩ := List.nodup_cons.mp hnodup
    obtain ⟨first, hfirst, hlength, hrows, hat⟩ := copyRow_eq hcells hvalues hrow hpacked
    obtain ⟨last, hlast, hlength', hrows', hcopied, hkept⟩ := ih hrest hnodup hlength
    refine ⟨last, by rw [copyRows, hfirst]; exact hlast, hlength', by rw [hrows', hrows, List.append_assoc]; rfl, ?_, ?_⟩
    · refine List.forall_mem_cons.mpr ⟨fun j hj => ?_, hcopied⟩
      rw [hkept row hrow hnew j hj, hat row hrow j hj, if_pos rfl]
    · intro i hi hout j hj
      obtain ⟨hne, hother⟩ := not_or.mp fun hmem => hout (List.mem_cons.mpr hmem)
      rw [hkept i hi hother j hj, hat i hi j hj, if_neg hne]

end Copies

/-! ## Executions -/

section Executions

variable {T : Type} [MatmulElem T] {x weight packedX packedY : TypedTensor T} {indexes : Tensor} {plan : Plan}
  {destination : CpuDestination T} {rows inner columns experts : Nat}

/-- The inputs have the metadata that the plan was made for, and the storage is what it requires. -/
structure Plan.Accepts (plan : Plan) (x weight : TypedTensor T) (indexes : Tensor) (packedX packedY : TypedTensor T)
    (destination : CpuDestination T) : Prop where
  x : sameMetadata x.layout (CpuElem.dtype T) plan.layouts.1 plan.dtype = .ok ()
  weight : sameMetadata weight.layout (CpuElem.dtype T) plan.layouts.2.1 plan.dtype = .ok ()
  indexes : sameMetadata indexes.layout indexes.buffer.dtype plan.layouts.2.2 .u32 = .ok ()
  activations : packedX.planned.Ready ∧ packedX.shape = plan.scratch.1.shape
  results : packedY.planned.Ready ∧ packedY.shape = plan.scratch.2.shape
  ready : destination.Ready
  output : destination.shape = plan.scratch.2.shape

/-- Each row has been copied once, and is the product of the row of the input and the weights of its expert. -/
def GroupedRows (x weight : TypedTensor T) (indexes : Tensor) (out : Copied T) : Prop :=
  out.rows.Perm (List.range (x.shape.getD 0 0)) ∧ out.cells.length = x.shape.getD 0 0 * weight.shape.getD 1 0 ∧
  ∀ row < x.shape.getD 0 0, ∃ expert, Chosen indexes (weight.shape.getD 0 0) [row] expert ∧
    ∀ column < weight.shape.getD 1 0, ∃ pairs : List (T × T), List.Forall₂ (fun t p => x.at? [row, t] = some p.1 ∧
      weight.at? [expert, column, t] = some p.2) (List.range (x.shape.getD 1 0)) pairs ∧
      out.cells[row * weight.shape.getD 1 0 + column]? = some (product pairs)

theorem requirementNew_ok {shape : List Nat} {dtype : DType} {requirement : CpuTensorRequirement}
    (h : requirementNew shape dtype = .ok requirement) : requirement.shape = shape ∧ requirement.dtype = dtype := by
  obtain ⟨_, _, h⟩ := bind_ok.mp h
  obtain ⟨_, _, h⟩ := bind_ok.mp h
  exact (Except.ok.inj h) ▸ ⟨rfl, rfl⟩

/-- The shapes that a plan is made for. -/
theorem Plan.new_ok {x₀ weight₀ : TypedTensor T} {indexes₀ : Tensor} (h : Plan.new x₀ weight₀ indexes₀ = .ok plan) :
    ∃ rows inner experts columns, plan.layouts.1.shape = [rows, inner] ∧ plan.layouts.2.1.shape = [experts, columns, inner] ∧
      plan.layouts.2.2.shape = [rows] ∧ plan.scratch.1.shape = [rows, inner] ∧ plan.scratch.1.dtype = CpuElem.dtype T ∧
      plan.scratch.2.shape = [rows, columns] ∧ plan.scratch.2.dtype = CpuElem.dtype T ∧
      ∃ requirement, requirementNew [rows, columns] (CpuElem.dtype T) = .ok requirement := by
  obtain ⟨_, hcheck, h⟩ := bind_ok.mp h
  obtain ⟨activations, hactivations, h⟩ := bind_ok.mp h
  obtain ⟨results, hresults, h⟩ := bind_ok.mp h
  obtain rfl := (Except.ok.inj h).symm
  have hcheck := rejectIf_ok.mp hcheck
  simp only [not_or, not_not] at hcheck
  obtain ⟨hx, hweight, hindexes, hinner, -⟩ := hcheck
  obtain ⟨rows, inner, hx⟩ := List.length_eq_two.mp hx
  obtain ⟨experts, columns, inner', hweight⟩ := List.length_eq_three.mp hweight
  rw [hx] at hindexes hinner hactivations hresults
  rw [hweight] at hinner hresults
  obtain rfl : inner' = inner := hinner
  obtain ⟨hshape, hdtype⟩ := requirementNew_ok hactivations
  obtain ⟨hshape', hdtype'⟩ := requirementNew_ok hresults
  exact ⟨rows, inner', experts, columns, hx, hweight, hindexes, hshape, hdtype, hshape', hdtype', results, hresults⟩

theorem packedResults_eq {requirement : CpuTensorRequirement} (hx : x.shape = [rows, inner])
    (hweight : weight.shape = [experts, columns, inner]) (hsize : requirementNew [rows, columns] (CpuElem.dtype T) = .ok requirement)
    (hX : PackedMatrix packedX rows inner) (hY : PackedMatrix packedY rows columns) {route : Nat → Nat}
    (hroute : ∀ row < rows, route row < experts) :
    ∃ values, packedResults x weight packedX packedY (groupAll route (List.range rows)) = .ok values ∧
      values.length = rows * columns ∧ ∀ p < rows, ∀ j < columns, values[p * columns + j]? =
        some (product (pairs x weight inner ((members (groupAll route (List.range rows))).getD p 0)
          (route ((members (groupAll route (List.range rows))).getD p 0)) j)) := by
  have hperm := members_groupAll route (List.range rows)
  have hkeyed := keyed_groupAll route (List.range rows)
  generalize groupAll route (List.range rows) = groups at hperm hkeyed ⊢
  have hcount : (members groups).length = rows := hperm.length_eq.trans List.length_range
  have hmember : ∀ row ∈ members groups, row < rows := fun row hrow => List.mem_range.mp (hperm.mem_iff.mp hrow)
  have hexperts : ∀ entry ∈ groups, entry.1 < experts := fun entry hentry => by
    obtain ⟨hnonempty, hall⟩ := hkeyed entry hentry
    obtain ⟨row, hrow⟩ := List.exists_mem_of_ne_nil _ hnonempty
    exact hall row hrow ▸ hroute row (hmember row (List.mem_flatMap.mpr ⟨entry, hentry, hrow⟩))
  obtain ⟨activations, hpack, hlength, hpacked⟩ := packRows_eq hx hmember
    (show packedX.planned.slice.length = (members groups).length * inner by rw [hX.length_slice, hcount])
  rw [hcount] at hlength hpacked
  have hX' := hX.overwrite packedX.layout.offset activations
  have helement : ∀ p < rows, ∀ t < inner, element (packedX.overwrite packedX.layout.offset activations) [p, t] =
      element x [(members groups).getD p 0, t] := fun p hp t ht => by
    have hat := hX.at_overwrite hlength (show 0 + rows ≤ rows from Nat.le_of_eq (Nat.zero_add rows)) hp ht
    rw [Nat.zero_mul, Nat.add_zero, if_pos ⟨Nat.zero_le p, by rwa [Nat.zero_add]⟩, Nat.sub_zero, hpacked p hp t ht] at hat
    rw [element, hat]
    rfl
  obtain ⟨packedY', hrun, hY', hcells⟩ := multiplyGroups_eq hX' hweight hsize hkeyed hexperts
    (Nat.le_of_eq ((Nat.zero_add _).trans hcount)) hY
  refine ⟨packedY'.planned.slice, ?_, hY'.length_slice, fun p hp j hj => ?_⟩
  · have hactivations : packedX.planned.write "groupedExpertLinearRows activations" [rows, inner]
        (packRows x inner (members groups)) = .ok activations := (write_ready hX.ready hX.shape _).trans hpack
    rw [packedResults, hx, hweight]
    simp only [List.getD_cons_zero, List.getD_cons_succ]
    rw [hactivations, ok_bind, hrun, ok_bind, hY'.sliceOf_eq]
  · rw [hY'.getElem?_slice hp hj, hcells p hp j hj, Nat.zero_add, hcount, if_pos ⟨Nat.zero_le p, hp⟩, Nat.sub_zero]
    refine congrArg (some ∘ product) (List.map_congr_left fun t ht => ?_)
    rw [helement p hp t (List.mem_range.mp ht)]

/-- The execution is exact: it fails for a bad index and nothing else, and then copies nothing. -/
theorem executeInto_exact {x₀ weight₀ : TypedTensor T} {indexes₀ : Tensor} (hplan : Plan.new x₀ weight₀ indexes₀ = .ok plan)
    (h : plan.Accepts x weight indexes packedX packedY destination) :
    (BadIndex indexes (weight.shape.getD 0 0) → ∃ e,
      plan.executeInto x weight indexes packedX packedY destination = (fail e, ⟨destination.slice, []⟩)) ∧
    (¬ BadIndex indexes (weight.shape.getD 0 0) → ∃ out,
      plan.executeInto x weight indexes packedX packedY destination = (.ok (), out) ∧ GroupedRows x weight indexes out) := by
  obtain ⟨rows, inner, experts, columns, hx, hweight, hindexes, hX, hXdtype, hY, hYdtype, requirement, hsize⟩ := Plan.new_ok hplan
  obtain ⟨hsame, hsameWeight, hsameIndexes, ⟨hXready, hXshape⟩, ⟨hYready, hYshape⟩, hready, houtput⟩ := h
  have hmetadata : ∀ {layout compiled : Layout} {dtype dtype' : DType}, sameMetadata layout dtype compiled dtype' = .ok () →
      layout.shape = compiled.shape ∧ dtype = dtype' := fun h => by
    have h := rejectIf_ok.mp h
    simp only [not_or, not_not] at h
    exact ⟨h.1, h.2.2⟩
  obtain ⟨ids, hbuffer⟩ : ∃ ids, indexes.buffer = .u32 ids := by
    have hdtype := (hmetadata hsameIndexes).2
    cases hbuffer : indexes.buffer with
    | u32 ids => exact ⟨ids, rfl⟩
    | f32 _ | f64 _ | f16 _ | bf16 _ | u8 _ | i64 _ =>
      rw [hbuffer] at hdtype
      cases hdtype
  replace hx : x.shape = [rows, inner] := (hmetadata hsame).1.trans hx
  replace hweight : weight.shape = [experts, columns, inner] := (hmetadata hsameWeight).1.trans hweight
  replace hindexes : indexes.layout.shape = [rows] := (hmetadata hsameIndexes).1.trans hindexes
  have hscratch : ∀ {t : TypedTensor T} {r : CpuTensorRequirement}, t.shape = r.shape → r.dtype = CpuElem.dtype T →
      sameScratch t r = .ok () := fun hshape hdtype =>
    rejectIf_ok.mpr (not_or.mpr ⟨not_not_intro hshape, not_not_intro hdtype.symm⟩)
  have hvalidate : plan.validate x weight indexes packedX packedY = routes ids indexes.layout rows experts := by
    rw [Plan.validate, hsame, ok_bind, hsameWeight, ok_bind, hsameIndexes, ok_bind, hscratch hXshape hXdtype, ok_bind,
      hscratch hYshape hYdtype, ok_bind, hbuffer, hx, hweight]
    rfl
  unfold GroupedRows
  rw [hx, hweight]
  simp only [List.getD_cons_zero, List.getD_cons_succ]
  rcases @routes_cases indexes ids rows experts hbuffer hindexes with ⟨hbad, e, hfail⟩ | ⟨hgood, hroute, hgroups⟩
  · refine ⟨fun _ => ⟨e, ?_⟩, fun hgood => absurd hbad hgood⟩
    simp only [Plan.executeInto, hvalidate, hfail, fail]
  · refine ⟨fun hbad => absurd hbad hgood, fun _ => ?_⟩
    obtain ⟨values, hvalues, hlength, hproducts⟩ := packedResults_eq hx hweight hsize ⟨hXshape.trans hX, hXready⟩
      ⟨hYshape.trans hY, hYready⟩ hroute
    have hperm := members_groupAll (route indexes) (List.range rows)
    have hcount : (members (groupAll (route indexes) (List.range rows))).length = rows := hperm.length_eq.trans List.length_range
    have hfirsts : (members (groupAll (route indexes) (List.range rows))).zipIdx.map Prod.fst =
        members (groupAll (route indexes) (List.range rows)) := List.zipIdx_map_fst _ _
    have hslice : destination.slice.length = rows * columns := by
      rw [hready.length_slice, houtput, hY, List.prod_cons, List.prod_cons, List.prod_nil, Nat.mul_one]
    have hwrite : destination.write "groupedExpertLinearRows" [rows, columns] .ok = .ok destination.slice :=
      write_ready hready (houtput.trans hY) _
    obtain ⟨out, hcopied, houtlen, hrows, hcells, -⟩ := copyRows_eq hlength (fun a ha => by
      obtain ⟨hpacked, hrow⟩ := List.mem_zipIdx' ha
      exact ⟨List.mem_range.mp (hperm.mem_iff.mp (hrow ▸ List.getElem_mem hpacked)), hcount ▸ hpacked⟩)
      (by rw [hfirsts]; exact hperm.nodup_iff.mpr List.nodup_range)
      (show (⟨destination.slice, []⟩ : Copied T).cells.length = rows * columns from hslice)
    refine ⟨out, ?_, ?_, houtlen, fun row hrow => ?_⟩
    · simp only [Plan.executeInto, hvalidate, hgroups, hvalues, hx, hweight, List.getD_cons_zero, List.getD_cons_succ, hwrite]
      exact hcopied
    · rw [hrows, hfirsts]
      exact hperm
    · obtain ⟨p, hp, hmember⟩ := List.getElem_of_mem (hperm.mem_iff.mpr (List.mem_range.mpr hrow))
      obtain ⟨hindex, -⟩ := routes_turn hbuffer hindexes hrow
      refine ⟨route indexes row, ⟨hindex, hroute row hrow⟩, fun column hcolumn => ⟨pairs x weight inner row (route indexes row) column, ?_, ?_⟩⟩
      · refine List.forall₂_map_right_iff.mpr (List.forall₂_same.mpr fun t ht => ⟨at_element ?_, at_element ?_⟩)
        · rw [hx]
          exact coordinate_matrix.mpr ⟨hrow, List.mem_range.mp ht⟩
        · rw [hweight]
          exact .cons (hroute row hrow) (.cons hcolumn (.cons (List.mem_range.mp ht) .nil))
      · have hcell := hcells (row, p) (List.mem_zipIdx_iff_getElem?.mpr (List.getElem?_eq_some_iff.mpr ⟨hp, hmember⟩)) column hcolumn
        rw [hproducts p (hcount ▸ hp) column hcolumn, List.getD_eq_getElem _ _ hp, hmember] at hcell
        exact hcell

end Executions

/-! ## Two rows and two experts -/

/-- Multiplication by one: `a * 1 + 0` is `a`. -/
def timesOne (a b c : F32) : F32 := if b.bits = 0x3f800000 ∧ c.bits = 0 then a else c

@[reducible] def timesOneElem : MatmulElem F32 where
  default := ⟨0⟩
  multiplyAdd := timesOne
  widen := id
  narrow := id
  mulAdd := timesOne

def twoByOne (a b : F32) : TypedTensor F32 := ⟨[a, b], ⟨[2, 1], [1, 1], 0, rfl⟩, 2, rfl, Nat.le_refl 2⟩

/-- Two experts with the weight one. -/
def ones : TypedTensor F32 := ⟨[⟨0x3f800000⟩, ⟨0x3f800000⟩], ⟨[2, 1, 1], [1, 1, 1], 0, rfl⟩, 2, rfl, Nat.le_refl 2⟩

theorem crossed_rank : [1].length = [2].length := rfl

/-- The first row goes to the second expert, and the second row to the first. -/
def crossed : Tensor := ⟨.u32 [1, 0], ⟨[2], [1], 0, crossed_rank⟩, 2, rfl, Nat.le_refl 2⟩

def crossedPlan : Plan where
  layouts := ((twoByOne ⟨0⟩ ⟨0⟩).layout, ones.layout, crossed.layout)
  dtype := .f32
  scratch := (⟨[2, 1], .f32, 8, 64⟩, ⟨[2, 1], .f32, 8, 64⟩)

def crossedOutput : CpuDestination F32 := ⟨.f32, ⟨[2, 1], [1, 1], 0, rfl⟩, [⟨0⟩, ⟨0⟩]⟩

theorem crossed_good : ¬ BadIndex crossed 2 := by
  rintro ⟨c, i, hc, hi, hbad⟩
  obtain ⟨row, rest, hrow, hrest, rfl⟩ := List.forall₂_cons_right_iff.mp hc
  obtain rfl := List.forall₂_nil_right_iff.mp hrest
  match row, hrow with
  | 0, _ => obtain rfl := some.inj hi; exact absurd hbad (by decide)
  | 1, _ => obtain rfl := some.inj hi; exact absurd hbad (by decide)

theorem executeInto_exact_crossed : letI := timesOneElem
    ∃ out, crossedPlan.executeInto (twoByOne ⟨0x40000000⟩ ⟨0x40400000⟩) ones crossed (twoByOne ⟨0⟩ ⟨0⟩) (twoByOne ⟨0⟩ ⟨0⟩)
      crossedOutput = (.ok (), out) ∧ GroupedRows (twoByOne ⟨0x40000000⟩ ⟨0x40400000⟩) ones crossed out := by
  let inst := timesOneElem
  have hplan : Plan.new (twoByOne ⟨0⟩ ⟨0⟩) ones crossed = .ok crossedPlan := by rfl
  have hpacked : (twoByOne ⟨0⟩ ⟨0⟩).planned.Ready := ⟨rfl, by decide, by decide, by decide⟩
  have hready : crossedOutput.Ready := ⟨rfl, by decide, by decide, by decide⟩
  exact (executeInto_exact hplan ⟨by rfl, by rfl, by rfl, ⟨hpacked, rfl⟩, ⟨hpacked, rfl⟩, hready, rfl⟩).2 crossed_good

end GroupedExpertLinear

end EffectTorch
