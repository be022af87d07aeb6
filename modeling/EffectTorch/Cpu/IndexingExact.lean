import EffectTorch.Cpu.Indexing
import EffectTorch.Cpu.ReduceExact
import EffectTorch.Lib.Accumulate
import EffectTorch.Lib.UnitAxes

/-!
# What the indexing operations compute

`gather` and `index_select` replace one component of a coordinate by an index, and `scatter_add` adds
along such a replacement. An operation is exact when it fails for a bad index and for nothing else.

Results:
1. `checkedIndex_cases`: an index is read and checked, or is bad and fails.
2. `gatherInto_exact`: `gather` is exact.
3. `indexSelectInto_exact_iff`: `index_select` is exact unless its output is empty and an index is bad.
-/

namespace EffectTorch
open List Option Lib

/-! ## Addresses -/

/-- The element with a linear index, on either path. -/
theorem Layout.sourceIndex_rowIndex {l : Layout} {c : List Nat} (hc : Coordinate l.shape c) :
    l.sourceIndex (rowIndex l.shape c) = l.address c := by
  unfold Layout.sourceIndex
  split
  · next h => rw [Layout.address, (Layout.isContiguous_iff.mp h).1.dot_eq l.rank_eq hc]
  · exact odometer_rowIndex hc l.rank_eq.symm l.offset

theorem Layout.Fits.exists_at {T : Type} {values : List T} {l : Layout} (h : l.Fits values.length) {c : List Nat}
    (hc : Coordinate l.shape c) : ∃ v, values[l.address c]? = some v :=
  ⟨_, List.getElem?_eq_getElem (h.address_lt hc)⟩

theorem TypedTensor.exists_at {T : Type} (t : TypedTensor T) {c : List Nat} (hc : Coordinate t.shape c) :
    ∃ v, t.at? c = some v :=
  t.fits.exists_at hc

theorem TypedTensor.readAt_source {T ε : Type} (t : TypedTensor T) {c : List Nat} {v : T} (hc : Coordinate t.shape c)
    (hv : t.at? c = some v) : (readAt t.values (t.layout.sourceIndex (rowIndex t.shape c)) : Fallible ε T) = .ok v :=
  readAt_ok.mpr (by rw [TypedTensor.shape, Layout.sourceIndex_rowIndex hc]; exact hv)

/-! ## Indexes -/

/-- The index at a coordinate. -/
def Tensor.index? (ids : Tensor) (c : List Nat) : Option Int :=
  match ids.buffer with
  | .u8 values => values[ids.layout.address c]?.map fun value => (value.toNat : Int)
  | .u32 values => values[ids.layout.address c]?.map fun value => (value.toNat : Int)
  | .i64 values => values[ids.layout.address c]?.map Int64.toInt
  | _ => none

/-- The index at a coordinate is `id`, and below the extent. -/
def Chosen (ids : Tensor) (extent : Nat) (c : List Nat) (id : Nat) : Prop :=
  ids.index? c = some (id : Int) ∧ id < extent

/-- Some index is negative, or not below the extent. -/
def BadIndex (ids : Tensor) (extent : Nat) : Prop :=
  ∃ c i, Coordinate ids.layout.shape c ∧ ids.index? c = some i ∧ (i < 0 ∨ (extent : Int) ≤ i)

section Indexes

variable {ids : Tensor} {operation : String} {extent : Nat} {c : List Nat}

/-- Tensors of the three dtypes have an index at each coordinate, and it is what the kernels read. -/
theorem indexAt_eq (hids : validateIndices ids operation = .ok ()) (hc : Coordinate ids.layout.shape c) :
    ∃ i, ids.index? c = some i ∧ indexAt ids (rowIndex ids.layout.shape c) operation =
      if i < 0 then fail (operation ++ ": negative index " ++ toString i) else .ok i.toNat := by
  obtain ⟨buffer, layout, hfits⟩ := ids
  unfold indexAt Tensor.index?
  rw [Layout.sourceIndex_rowIndex hc]
  cases buffer with
  | u8 values | u32 values =>
    have hstored : layout.Fits values.length := hfits
    obtain ⟨v, hv⟩ := hstored.exists_at hc
    refine ⟨(v.toNat : Int), by simp only [hv, map_some], ?_⟩
    have hread : (readAt values (layout.address c) : Fallible String _) = .ok v := readAt_ok.mpr hv
    rw [if_neg (Int.not_lt.mpr (Int.natCast_nonneg _))]
    simp only [hread, ok_bind, Int.toNat_natCast]
  | i64 values =>
    have hstored : layout.Fits values.length := hfits
    obtain ⟨v, hv⟩ := hstored.exists_at hc
    refine ⟨v.toInt, by simp only [hv, map_some], ?_⟩
    have hread : (readAt values (layout.address c) : Fallible String _) = .ok v := readAt_ok.mpr hv
    simp only [hread, ok_bind]
  | f32 values | f64 values | f16 values | bf16 values => exact absurd hids (fail_ne_ok _ _)

/-- An index is read and checked, or is bad and fails. -/
theorem checkedIndex_cases (hids : validateIndices ids operation = .ok ()) (hc : Coordinate ids.layout.shape c) :
    (∃ id, Chosen ids extent c id ∧ checkedIndex ids (rowIndex ids.layout.shape c) operation extent = .ok id) ∨
      (¬ ∃ id, Chosen ids extent c id) ∧ BadIndex ids extent ∧
        ∃ e, checkedIndex ids (rowIndex ids.layout.shape c) operation extent = fail e := by
  obtain ⟨i, hi, hread⟩ := indexAt_eq hids hc
  have hnone : (i < 0 ∨ (extent : Int) ≤ i) → ¬ ∃ id, Chosen ids extent c id := by
    rintro hbad ⟨id, hid, hlt⟩
    obtain rfl := some.inj (hi.symm.trans hid)
    omega
  unfold checkedIndex
  by_cases hneg : i < 0
  · rw [hread, if_pos hneg]
    exact .inr ⟨hnone (.inl hneg), ⟨c, i, hc, hi, .inl hneg⟩, _, rfl⟩
  · rw [hread, if_neg hneg, ok_bind]
    by_cases hle : extent ≤ i.toNat
    · have hbad : (extent : Int) ≤ i := by omega
      rw [rejectIf, if_pos hle]
      exact .inr ⟨hnone (.inr hbad), ⟨c, i, hc, hi, .inr hbad⟩, _, rfl⟩
    · refine .inl ⟨i.toNat, ⟨hi.trans (congrArg some (Int.toNat_of_nonneg (Int.not_lt.mp hneg)).symm), Nat.not_le.mp hle⟩, ?_⟩
      rw [rejectIf, if_neg hle, ok_bind]

/-- No index is bad when each is chosen. -/
theorem not_badIndex_iff (hids : validateIndices ids operation = .ok ()) :
    ¬ BadIndex ids extent ↔ ∀ c, Coordinate ids.layout.shape c → ∃ id, Chosen ids extent c id := by
  constructor
  · intro h c hc
    rcases @checkedIndex_cases ids operation extent c hids hc with ⟨id, hid, -⟩ | ⟨-, hbad, -⟩
    · exact ⟨id, hid⟩
    · exact absurd hbad h
  · rintro h ⟨c, i, hc, hi, hbad⟩
    obtain ⟨id, hid, hlt⟩ := h c hc
    obtain rfl := some.inj (hi.symm.trans hid)
    omega

end Indexes

/-! ## Exact runs -/

/-- A run fails with a message when an index is bad and for nothing else, and what it computes is `good`. -/
def Exact {T : Type} (bad : Prop) (run : Fallible String (List T)) (good : List T → Prop) : Prop :=
  ((∃ e, run = fail e) ↔ bad) ∧ (¬ bad → ∃ out, run = .ok out ∧ good out)

section Exact

variable {T : Type} {bad : Prop} {good : List T → Prop}

/-- A loop over the output elements whose turns stop at bad indexes only. -/
theorem exact_mapM {f : Nat → Fallible String T} {n : Nat}
    (hturn : ∀ i < n, (∃ v, f i = .ok v) ∨ bad ∧ ∃ e, f i = fail e) (hbad : bad → ∃ i < n, ∀ v, f i ≠ .ok v)
    (hgood : ∀ out, List.Forall₂ (fun i v => f i = .ok v) (List.range n) out → good out) :
    Exact bad ((List.range n).mapM f) good := by
  cases hrun : (List.range n).mapM f with
  | ok out =>
    have hturns := mapM_forall₂.mp hrun
    have hnot : ¬ bad := fun h => by
      obtain ⟨i, hi, hne⟩ := hbad h
      obtain ⟨v, _, hv⟩ := getElem?_of_forall₂ hturns (List.getElem?_range hi)
      exact hne v hv
    exact ⟨⟨fun ⟨e, he⟩ => absurd he.symm (fail_ne_ok e out), fun h => absurd h hnot⟩, fun _ => ⟨out, rfl, hgood out hturns⟩⟩
  | error fault =>
    obtain ⟨i, hi, herror⟩ := mapM_error hrun
    rcases hturn i (mem_range.mp hi) with ⟨v, hv⟩ | ⟨h, e, he⟩
    · rw [hv] at herror
      cases herror
    · rw [he] at herror
      cases herror
      exact ⟨⟨fun _ => h, fun _ => ⟨e, rfl⟩⟩, fun hnot => absurd h hnot⟩

end Exact

/-! ## Requirements -/

section Requirements

variable {T : Type} [CpuElem T] {tensor : TypedTensor T} {ids : Tensor} {dim : Nat} {u : Unit}

theorem validateExtents_ok {extents shape : List Nat} {message : String} : validateExtents extents shape dim message = .ok u ↔
    ∀ d < shape.length, d ≠ dim → extents.getD d 0 ≤ shape.getD d 0 := by
  refine foldlM_check.trans ⟨fun h d hd hne => ?_, fun h d hd => rejectIf_ok.mpr fun ⟨hne, hlt⟩ => ?_⟩
  · exact Nat.not_lt.mp fun hlt => rejectIf_ok.mp (h d (mem_range.mpr hd)) ⟨hne, hlt⟩
  · exact absurd (h d (mem_range.mp hd) hne) (Nat.not_le.mpr hlt)

theorem checkedRequirement_ok {shape : List Nat} {dtype : DType} {operation : String} {r : CpuTensorRequirement}
    (h : checkedRequirement shape dtype operation = .ok r) : r.shape = shape := by
  obtain ⟨bytes, -, h⟩ := bind_ok.mp h
  exact (Except.ok.inj h) ▸ rfl

theorem validateGather_ok {shape : List Nat} : validateGather shape dim ids = .ok u ↔ dim < shape.length ∧
    validateIndices ids "gather" = .ok () ∧ ids.layout.shape.length = shape.length ∧
    ∀ d < shape.length, d ≠ dim → ids.layout.shape.getD d 0 ≤ shape.getD d 0 := by
  unfold validateGather
  constructor
  · intro h
    obtain ⟨_, hdim, h⟩ := bind_ok.mp h
    obtain ⟨_, hids, h⟩ := bind_ok.mp h
    obtain ⟨_, hrank, h⟩ := bind_ok.mp h
    exact ⟨Nat.not_le.mp (rejectIf_ok.mp hdim), hids, not_not.mp (rejectIf_ok.mp hrank), validateExtents_ok.mp h⟩
  · rintro ⟨hdim, hids, hrank, hextents⟩
    exact bind_ok.mpr ⟨(), rejectIf_ok.mpr (Nat.not_le.mpr hdim), bind_ok.mpr ⟨(), hids, bind_ok.mpr
      ⟨(), rejectIf_ok.mpr (not_not_intro hrank), validateExtents_ok.mpr hextents⟩⟩⟩

theorem gatherRequirements_ok {r : IndexingRequirements} (h : gatherRequirements tensor dim ids = .ok r) :
    validateGather tensor.shape dim ids = .ok () ∧ r.output.shape = ids.layout.shape := by
  obtain ⟨_, hvalid, h⟩ := bind_ok.mp h
  obtain ⟨output, houtput, h⟩ := bind_ok.mp h
  exact ⟨hvalid, (Except.ok.inj h) ▸ checkedRequirement_ok houtput⟩

end Requirements

/-! ## `gather` -/

/-- The coordinate with a component replaced. -/
theorem coordinate_chosen {shape extents c : List Nat} {dim id : Nat} (hlen : extents.length = shape.length)
    (hextents : ∀ d < shape.length, d ≠ dim → extents.getD d 0 ≤ shape.getD d 0) (hc : Coordinate extents c)
    (hid : id < shape.getD dim 0) : Coordinate shape (c.set dim id) := by
  obtain ⟨hclen, hlt⟩ := coordinate_iff_getD.mp hc
  refine coordinate_iff_getD.mpr ⟨by rw [length_set, hclen, hlen], fun i hi => ?_⟩
  by_cases heq : dim = i
  · subst heq
    rwa [getD_set_self (by rw [hclen, hlen]; exact hi)]
  · rw [getD_set_ne heq]
    exact Nat.lt_of_lt_of_le (hlt i (hlen ▸ hi)) (hextents i hi (Ne.symm heq))

/-- One axis of a loop with one component replaced. -/
def chosenStep (extents strides : List Nat) (dim id axis : Nat) (state : Nat × Nat) : Nat × Nat :=
  (state.1 + (if axis = dim then id else state.2 % max (extents.getD axis 0) 1) * strides.getD axis 0,
    state.2 / max (extents.getD axis 0) 1)

theorem map_width {extents c : List Nat} (hc : Coordinate extents c) :
    (List.range extents.length).map (fun axis => max (extents.getD axis 0) 1) = extents := by
  refine (map_getD_range (fun width => max width 1) extents).trans
    ((map_congr_left fun width hwidth => ?_).trans extents.map_id)
  exact Nat.max_eq_left (Nat.pos_of_ne_zero fun hzero => hc.positive (hzero ▸ hwidth))

/-- A loop over some axes, with one component replaced. -/
theorem foldr_chosenStep (extents strides : List Nat) (dim id : Nat) (axes : List Nat) (start n : Nat) :
    axes.foldr (chosenStep extents strides dim id) (start, n) =
      (start + dot (List.zipWith (fun axis x => if axis = dim then id else x) axes
          (digits (axes.map fun axis => max (extents.getD axis 0) 1) n)) (axes.map (strides.getD · 0)),
        n / (axes.map fun axis => max (extents.getD axis 0) 1).prod) :=
  foldr_pick (fun axis x => if axis = dim then id else x) axes start n

/-- A loop over all axes, with one component replaced. -/
theorem foldr_chosen {extents strides c : List Nat} (hc : Coordinate extents c) (hlen : strides.length = extents.length)
    (dim id start : Nat) : ((List.range extents.length).foldr (chosenStep extents strides dim id)
      (start, rowIndex extents c)).1 = start + dot (c.set dim id) strides := by
  have hstrides : (List.range extents.length).map (strides.getD · 0) = strides := by
    rw [← hlen]
    exact (map_getD_range (fun s => s) strides).trans strides.map_id'
  rw [foldr_chosenStep, map_width hc, hstrides, digits_rowIndex hc, ← hc.length_eq, zipWith_set]

theorem gatherIndex_rowIndex {layout : Layout} {extents c : List Nat} (hlen : extents.length = layout.shape.length)
    (hc : Coordinate extents c) (dim id : Nat) :
    gatherIndex layout extents dim id (rowIndex extents c) = layout.address (c.set dim id) := by
  have hrank : layout.rank = extents.length := hlen.symm
  rw [gatherIndex, hrank]
  exact foldr_chosen hc (layout.rank_eq.symm.trans hlen.symm) dim id layout.offset

/-- The output of `gather`: each element is the one with the index in place of the component along the dimension. -/
def Gathers {T : Type} (tensor : TypedTensor T) (dim : Nat) (ids : Tensor) (out : List T) : Prop :=
  out.length = ids.layout.shape.prod ∧ ∀ c, Coordinate ids.layout.shape c → ∃ id v,
    Chosen ids (tensor.shape.getD dim 0) c id ∧ Coordinate tensor.shape (c.set dim id) ∧
    tensor.at? (c.set dim id) = some v ∧ out[rowIndex ids.layout.shape c]? = some v

section Gather

variable {T : Type} [CpuElem T] {tensor : TypedTensor T} {ids : Tensor} {dim : Nat}
  {destination : CpuDestination T}

theorem write_ready {operation : String} {shape : List Nat} (hready : destination.Ready) (hshape : destination.shape = shape)
    (write : List T → Fallible String (List T)) : destination.write operation shape write = write destination.slice := by
  rw [CpuDestination.write, rejectIf, if_neg (not_not_intro hshape), ok_bind, CpuDestination.writeCurrent_ready hready]

/-- `gather` is exact. -/
theorem gatherInto_exact (hvalid : validateGather tensor.shape dim ids = .ok ()) (hready : destination.Ready)
    (hshape : destination.shape = ids.layout.shape) :
    Exact (BadIndex ids (tensor.shape.getD dim 0)) (gatherInto tensor dim ids destination) (Gathers tensor dim ids) := by
  obtain ⟨hdim, hids, hrank, hextents⟩ := validateGather_ok.mp hvalid
  rw [gatherInto, hvalid, ok_bind, write_ready hready hshape, hready.length_slice, hshape]
  -- the element that a chosen index names
  have hread : ∀ c id, Coordinate ids.layout.shape c → Chosen ids (tensor.shape.getD dim 0) c id →
      Coordinate tensor.shape (c.set dim id) ∧ ∃ v, tensor.at? (c.set dim id) = some v ∧
        (readAt tensor.values (gatherIndex tensor.layout ids.layout.shape dim id (rowIndex ids.layout.shape c)) :
          Fallible String T) = .ok v := by
    intro c id hc hid
    have hchosen := coordinate_chosen hrank hextents hc hid.2
    obtain ⟨v, hv⟩ := tensor.exists_at hchosen
    exact ⟨hchosen, v, hv, readAt_ok.mpr (by rw [gatherIndex_rowIndex hrank hc]; exact hv)⟩
  refine exact_mapM (fun i hi => ?_) (fun hbad => ?_) fun out hout => ?_
  · obtain ⟨hc, hrow⟩ := rowIndex_unravel hi
    rcases @checkedIndex_cases ids "gather" (tensor.shape.getD dim 0) _ hids hc with ⟨id, hid, hcheck⟩ | ⟨-, hbad, e, hcheck⟩
    · obtain ⟨-, v, -, hv⟩ := hread _ id hc hid
      rw [hrow] at hcheck hv
      exact .inl ⟨v, by rw [hcheck, ok_bind, hv]⟩
    · rw [hrow] at hcheck
      exact .inr ⟨hbad, e, by rw [hcheck]; rfl⟩
  · by_contra hall
    refine absurd hbad ((not_badIndex_iff hids).mpr fun c hc => ?_)
    rcases @checkedIndex_cases ids "gather" (tensor.shape.getD dim 0) c hids hc with ⟨id, hid, -⟩ | ⟨-, -, e, hcheck⟩
    · exact ⟨id, hid⟩
    · refine absurd ⟨_, rowIndex_lt hc, fun v => ?_⟩ hall
      rw [hcheck]
      exact nofun
  · obtain ⟨hlen, hget⟩ := forall₂_range hout
    refine ⟨hlen, fun c hc => ?_⟩
    obtain ⟨v, hv, hturn⟩ := hget _ (rowIndex_lt hc)
    rcases @checkedIndex_cases ids "gather" (tensor.shape.getD dim 0) c hids hc with ⟨id, hid, hcheck⟩ | ⟨-, -, e, hcheck⟩
    · obtain ⟨hchosen, v', hv', hread'⟩ := hread c id hc hid
      rw [hcheck, ok_bind, hread'] at hturn
      exact ⟨id, v, hid, hchosen, hv'.trans (congrArg some (Except.ok.inj hturn)), hv⟩
    · rw [hcheck] at hturn
      cases hturn

end Gather

/-! ## `index_select` -/

theorem getD_digits {widths : List Nat} {i : Nat} (hi : i < widths.length) (n : Nat) :
    (digits widths n).getD i 0 = n / (widths.drop (i + 1)).prod % widths.getD i 0 := by
  induction widths generalizing i with
  | nil => cases hi
  | cons width widths ih =>
    cases i with
    | zero => rfl
    | succ i => exact ih (Nat.lt_of_succ_lt_succ hi)

theorem numel_ok {ε : Type} {l : Layout} {n : Nat} (h : (l.numel : Fallible ε Nat) = .ok n) : n = l.shape.prod := by
  have h := expect_ok.mp h
  unfold Layout.checkedNumel at h
  split at h
  · next hzero => rw [prod_eq_zero hzero, ← some.inj h]
  · rw [Reduce.foldlM_checkedMul_prod h, Nat.one_mul]

/-- The output of `index_select`: each element is the one with the selected index along the dimension. -/
def Selects {T : Type} (tensor : TypedTensor T) (dim : Nat) (ids : Tensor) (out : List T) : Prop :=
  out.length = (tensor.shape.set dim ids.layout.shape.prod).prod ∧
  ∀ c, Coordinate (tensor.shape.set dim ids.layout.shape.prod) c → ∃ id v,
    Chosen ids (tensor.shape.getD dim 0) (unravel ids.layout.shape (c.getD dim 0)) id ∧
    Coordinate tensor.shape (c.set dim id) ∧ tensor.at? (c.set dim id) = some v ∧
    out[rowIndex (tensor.shape.set dim ids.layout.shape.prod) c]? = some v

section IndexSelect

variable {T : Type} {tensor : TypedTensor T} {ids : Tensor} {dim : Nat}

theorem indexSelectRequirements_ok [CpuElem T] {r : IndexingRequirements} (h : indexSelectRequirements tensor dim ids = .ok r) :
    dim < tensor.shape.length ∧ validateIndices ids "index_select" = .ok () ∧
      (ids.layout.numel : Fallible String Nat) = .ok ids.layout.shape.prod ∧
      r.output.shape = tensor.shape.set dim ids.layout.shape.prod := by
  obtain ⟨_, hdim, h⟩ := bind_ok.mp h
  obtain ⟨_, hids, h⟩ := bind_ok.mp h
  obtain ⟨numel, hnumel, h⟩ := bind_ok.mp h
  obtain ⟨output, houtput, hr⟩ := bind_ok.mp h
  obtain rfl := numel_ok hnumel
  exact ⟨Nat.not_le.mp (rejectIf_ok.mp hdim), hids, hnumel, (Except.ok.inj hr) ▸ checkedRequirement_ok houtput⟩

/-- The loop over axes other than the dimension. -/
theorem foldrM_others {extents axes : List Nat} (hne : dim ∉ axes) (id : Nat) (state : Nat × Nat) :
    axes.foldrM (indexSelectStep tensor dim ids extents) state =
      .ok (axes.foldr (chosenStep extents tensor.layout.strides dim id) state) := by
  induction axes with
  | nil => rfl
  | cons axis axes ih =>
    obtain ⟨haxis, hrest⟩ := not_or.mp fun hmem => hne (mem_cons.mpr hmem)
    rw [foldrM_cons, ih hrest, ok_bind, foldr_cons, indexSelectStep, if_neg (Ne.symm haxis), chosenStep,
      if_neg (Ne.symm haxis)]

/-- The loop over all axes looks one index up. -/
theorem foldrM_indexSelectStep {extents c : List Nat} (hc : Coordinate extents c) (hdim : dim < extents.length)
    (start : Nat) :
    (List.range extents.length).foldrM (indexSelectStep tensor dim ids extents) (start, rowIndex extents c) =
      (checkedIndex ids (c.getD dim 0) "index_select" (tensor.shape.getD dim 0) >>= fun id =>
        .ok ((List.range extents.length).foldr (chosenStep extents tensor.layout.strides dim id) (start, rowIndex extents c))) := by
  have hlt : dim < (List.range extents.length).length := by rwa [length_range]
  obtain ⟨first, rest, hsplit, hrest⟩ : ∃ first rest, List.range extents.length = first ++ dim :: rest ∧
      rest = (List.range extents.length).drop (dim + 1) := by
    refine ⟨(List.range extents.length).take dim, _, ?_, rfl⟩
    conv_lhs => rw [← take_append_drop dim (List.range extents.length), drop_eq_getElem_cons hlt, getElem_range]
  obtain ⟨hfirst, hlast⟩ : dim ∉ first ∧ dim ∉ rest := by
    have hnodup := hsplit ▸ (nodup_range (n := extents.length))
    have hmiddle := nodup_middle.mp hnodup
    exact not_or.mp fun h => (nodup_cons.mp hmiddle).1 (mem_append.mpr h)
  have hwidth : max (extents.getD dim 0) 1 = extents.getD dim 0 :=
    Nat.max_eq_left (Nat.pos_of_ne_zero fun hzero => hc.positive (by
      rw [getD_eq_getElem _ 0 hdim] at hzero
      exact hzero ▸ getElem_mem hdim))
  have hothers : ∀ id, rest.foldrM (indexSelectStep tensor dim ids extents) (start, rowIndex extents c) =
      .ok (rest.foldr (chosenStep extents tensor.layout.strides dim id) (start, rowIndex extents c)) := fun id =>
    foldrM_others hlast id _
  -- what is left of the index at the dimension
  have hdigit : ∀ id, (rest.foldr (chosenStep extents tensor.layout.strides dim id) (start, rowIndex extents c)).2 %
      max (extents.getD dim 0) 1 = c.getD dim 0 := fun id => by
    rw [foldr_chosenStep, hrest, map_drop, map_width hc, hwidth, ← getD_digits hdim, digits_rowIndex hc]
  have hstep : indexSelectStep tensor dim ids extents dim
      (rest.foldr (chosenStep extents tensor.layout.strides dim 0) (start, rowIndex extents c)) =
      (checkedIndex ids (c.getD dim 0) "index_select" (tensor.shape.getD dim 0) >>= fun id =>
        .ok (chosenStep extents tensor.layout.strides dim id dim
          (rest.foldr (chosenStep extents tensor.layout.strides dim id) (start, rowIndex extents c)))) := by
    have hsame : ∀ id, rest.foldr (chosenStep extents tensor.layout.strides dim id) (start, rowIndex extents c) =
        rest.foldr (chosenStep extents tensor.layout.strides dim 0) (start, rowIndex extents c) := fun id =>
      Except.ok.inj ((hothers id).symm.trans (hothers 0))
    simp only [indexSelectStep, hdigit, if_true, hsame, chosenStep]
  rw [hsplit, foldrM_append, foldrM_cons, hothers 0, ok_bind, hstep]
  cases checkedIndex ids (c.getD dim 0) "index_select" (tensor.shape.getD dim 0) with
  | error e => rfl
  | ok id =>
    rw [ok_bind, ok_bind, ok_bind, foldrM_others hfirst id, foldr_append, foldr_cons]

/-- The selection at an output element. -/
theorem indexSelect_turn (hdim : dim < tensor.shape.length) {c : List Nat}
    (hc : Coordinate (tensor.shape.set dim ids.layout.shape.prod) c) :
    Coordinate ids.layout.shape (unravel ids.layout.shape (c.getD dim 0)) ∧
      checkedIndex ids (c.getD dim 0) "index_select" (tensor.shape.getD dim 0) = checkedIndex ids
        (rowIndex ids.layout.shape (unravel ids.layout.shape (c.getD dim 0))) "index_select" (tensor.shape.getD dim 0) ∧
      ∀ id, id < tensor.shape.getD dim 0 → Coordinate tensor.shape (c.set dim id) ∧
        ((List.range tensor.layout.rank).foldr (chosenStep (tensor.shape.set dim ids.layout.shape.prod)
          tensor.layout.strides dim id) (tensor.layout.offset, rowIndex (tensor.shape.set dim ids.layout.shape.prod) c)).1 =
        tensor.layout.address (c.set dim id) := by
  have hlen : (tensor.shape.set dim ids.layout.shape.prod).length = tensor.shape.length := length_set
  have hx : c.getD dim 0 < ids.layout.shape.prod := by
    have hlt := (coordinate_iff_getD.mp hc).2 dim (by rwa [hlen])
    rwa [getD_set_self hdim] at hlt
  obtain ⟨hselected, hrow⟩ := rowIndex_unravel hx
  refine ⟨hselected, by rw [hrow], fun id hid => ⟨?_, ?_⟩⟩
  · refine coordinate_chosen hlen (fun d hd hne => ?_) hc hid
    rw [getD_set_ne (Ne.symm hne)]
  · have hrank : tensor.layout.rank = (tensor.shape.set dim ids.layout.shape.prod).length := hlen.symm
    rw [hrank, foldr_chosen hc (tensor.layout.rank_eq.symm.trans hlen.symm)]
    rfl

variable [CpuElem T] {destination : CpuDestination T}

/-- The loop of `index_select` on a destination of its output. -/
theorem indexSelectInto_ready (hdim : dim < tensor.shape.length) (hids : validateIndices ids "index_select" = .ok ())
    (hnumel : (ids.layout.numel : Fallible String Nat) = .ok ids.layout.shape.prod) (hready : destination.Ready)
    (hshape : destination.shape = tensor.shape.set dim ids.layout.shape.prod) :
    indexSelectInto tensor dim ids destination = (List.range destination.shape.prod).mapM fun linear =>
      ((List.range tensor.layout.rank).foldrM (indexSelectStep tensor dim ids destination.shape)
        (tensor.layout.offset, linear) >>= fun state => readAt tensor.values state.1) := by
  have hbound : validateDimension tensor.shape dim "index_select" = .ok () := rejectIf_ok.mpr (Nat.not_le.mpr hdim)
  have hrank : ¬ destination.shape.length ≠ tensor.shape.length := not_not_intro (by rw [hshape, length_set])
  have hextents : (List.range tensor.shape.length).foldlM (fun _ dimension => (do
      let expected ← (if dimension = dim then ids.layout.numel else .ok (tensor.shape.getD dimension 0))
      rejectIf (destination.shape.getD dimension 0 ≠ expected) ("index_select destination shape mismatch at dimension " ++
        toString dimension ++ ": expected " ++ toString expected ++ ", got " ++
        toString (destination.shape.getD dimension 0)) : Fallible String Unit)) () = .ok () := by
    refine foldlM_check.mpr fun d hd => ?_
    by_cases heq : d = dim
    · rw [if_pos heq, hnumel, ok_bind, heq, hshape, getD_set_self hdim]
      exact rejectIf_ok.mpr (not_not_intro rfl)
    · rw [if_neg heq, ok_bind, hshape, getD_set_ne (Ne.symm heq)]
      exact rejectIf_ok.mpr (not_not_intro rfl)
  rw [indexSelectInto, hbound, ok_bind, hids, ok_bind, rejectIf, if_neg hrank, ok_bind, hextents, ok_bind,
    CpuDestination.writeCurrent_ready hready, hready.length_slice]

/-- `index_select` is exact unless its output is empty and an index is bad. -/
theorem indexSelectInto_exact_iff (hdim : dim < tensor.shape.length) (hids : validateIndices ids "index_select" = .ok ())
    (hnumel : (ids.layout.numel : Fallible String Nat) = .ok ids.layout.shape.prod) (hready : destination.Ready)
    (hshape : destination.shape = tensor.shape.set dim ids.layout.shape.prod) :
    Exact (BadIndex ids (tensor.shape.getD dim 0)) (indexSelectInto tensor dim ids destination) (Selects tensor dim ids) ↔
      (0 ∉ tensor.shape.eraseIdx dim ∨ ¬ BadIndex ids (tensor.shape.getD dim 0)) := by
  rw [indexSelectInto_ready hdim hids hnumel hready hshape, hshape]
  constructor
  · rintro ⟨herror, -⟩
    by_contra hnot
    obtain ⟨hzero, hbad⟩ := not_or.mp hnot
    -- the loop has no turns
    have hempty : (tensor.shape.set dim ids.layout.shape.prod).prod = 0 := by
      refine prod_eq_zero ?_
      rw [set_eq_take_append_cons_drop, if_pos hdim]
      rw [eraseIdx_eq_take_drop_succ, not_not, mem_append] at hzero
      exact mem_append.mpr (hzero.imp_right (mem_cons_of_mem _))
    obtain ⟨e, he⟩ := herror.mpr (not_not.mp hbad)
    rw [hempty] at he
    exact absurd he.symm (fail_ne_ok e [])
  · intro hcondition
    -- the turn at a coordinate, and at the selected index
    have hturn : ∀ c, Coordinate (tensor.shape.set dim ids.layout.shape.prod) c →
        (∃ id v, Chosen ids (tensor.shape.getD dim 0) (unravel ids.layout.shape (c.getD dim 0)) id ∧
          Coordinate tensor.shape (c.set dim id) ∧ tensor.at? (c.set dim id) = some v ∧
          ((List.range tensor.layout.rank).foldrM (indexSelectStep tensor dim ids (tensor.shape.set dim ids.layout.shape.prod))
            (tensor.layout.offset, rowIndex (tensor.shape.set dim ids.layout.shape.prod) c) >>= fun state =>
              readAt tensor.values state.1) = .ok v) ∨
        (¬ ∃ id, Chosen ids (tensor.shape.getD dim 0) (unravel ids.layout.shape (c.getD dim 0)) id) ∧
          BadIndex ids (tensor.shape.getD dim 0) ∧ ∃ e,
          ((List.range tensor.layout.rank).foldrM (indexSelectStep tensor dim ids (tensor.shape.set dim ids.layout.shape.prod))
            (tensor.layout.offset, rowIndex (tensor.shape.set dim ids.layout.shape.prod) c) >>= fun state =>
              readAt tensor.values state.1) = fail e := by
      intro c hc
      have hrank : tensor.layout.rank = (tensor.shape.set dim ids.layout.shape.prod).length := length_set.symm
      obtain ⟨hselected, hcheck, hchosen⟩ := indexSelect_turn hdim hc
      rw [hrank, foldrM_indexSelectStep hc (by rwa [length_set]), hcheck, ← hrank]
      rcases @checkedIndex_cases ids "index_select" (tensor.shape.getD dim 0) _ hids hselected with
        ⟨id, hid, hok⟩ | ⟨hnone, hbad, e, hfail⟩
      · obtain ⟨hcoordinate, haddress⟩ := hchosen id hid.2
        obtain ⟨v, hv⟩ := tensor.exists_at hcoordinate
        refine .inl ⟨id, v, hid, hcoordinate, hv, ?_⟩
        rw [hok, ok_bind, ok_bind, haddress]
        exact readAt_ok.mpr hv
      · exact .inr ⟨hnone, hbad, e, by rw [hfail]; rfl⟩
    refine exact_mapM (fun i hi => ?_) (fun hbad => ?_) fun out hout => ?_
    · obtain ⟨hc, hrow⟩ := rowIndex_unravel hi
      rcases hturn _ hc with ⟨_, v, _, _, _, hok⟩ | ⟨_, hbad, e, hfail⟩
      · rw [hrow] at hok
        exact .inl ⟨v, hok⟩
      · rw [hrow] at hfail
        exact .inr ⟨hbad, e, hfail⟩
    · -- the bad index is looked up at an output element, since there is one along the other dimensions
      have hothers := hcondition.resolve_right (not_not_intro hbad)
      obtain ⟨c, hc, hnone⟩ : ∃ c, Coordinate ids.layout.shape c ∧ ¬ ∃ id, Chosen ids (tensor.shape.getD dim 0) c id := by
        by_contra hall
        refine absurd hbad ((not_badIndex_iff hids).mpr fun c hc => ?_)
        by_contra hnone
        exact hall ⟨c, hc, hnone⟩
      have hpoint : Coordinate (tensor.shape.set dim ids.layout.shape.prod)
          ((List.replicate tensor.shape.length 0).set dim (rowIndex ids.layout.shape c)) := by
        refine coordinate_iff_getD.mpr ⟨by simp, fun i hi => ?_⟩
        rw [length_set] at hi
        by_cases heq : dim = i
        · subst heq
          rw [getD_set_self (by rwa [length_replicate]), getD_set_self hi]
          exact rowIndex_lt hc
        · have hextent : tensor.shape.getD i 0 ≠ 0 := fun hzero => hothers
            (mem_eraseIdx_iff_getElem.mpr ⟨i, hi, Ne.symm heq, by rw [← getD_eq_getElem _ 0 hi, hzero]⟩)
          rw [getD_set_ne heq, getD_set_ne heq]
          simpa using Nat.pos_of_ne_zero hextent
      refine ⟨_, rowIndex_lt hpoint, fun v => ?_⟩
      have hx : ((List.replicate tensor.shape.length 0).set dim (rowIndex ids.layout.shape c)).getD dim 0 =
          rowIndex ids.layout.shape c := getD_set_self (by rwa [length_replicate]) _
      rcases hturn _ hpoint with ⟨id, _, hid, _⟩ | ⟨_, _, e, hfail⟩
      · rw [hx, unravel_rowIndex hc] at hid
        exact absurd ⟨id, hid⟩ hnone
      · rw [hfail]
        exact fail_ne_ok e v
    · obtain ⟨hlen, hget⟩ := forall₂_range hout
      refine ⟨hlen, fun c hc => ?_⟩
      obtain ⟨v, hv, hrun⟩ := hget _ (rowIndex_lt hc)
      rcases hturn c hc with ⟨id, v', hid, hcoordinate, hv', hok⟩ | ⟨_, _, e, hfail⟩
      · rw [hok] at hrun
        cases hrun
        exact ⟨id, v, hid, hcoordinate, hv', hv⟩
      · rw [hfail] at hrun
        cases hrun

end IndexSelect

end EffectTorch
