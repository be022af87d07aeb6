import EffectTorch.Cpu.IndexingExact

/-!
# What `scatter_add` computes

`scatter_add` copies its input and then adds each source element at the coordinate with the index in
place of the component along the dimension, in the order of the sources.

Results:
1. `copyStrided_eq`: the copy has the elements of the input, in their order.
2. `scatterIndex_rowIndex`: where a source element is added.
3. `scatterAddInto_exact_iff`: `scatter_add` is exact unless the elements of the source cannot be
   counted, or an empty input lies past its buffer.
-/

namespace EffectTorch
open List Lib

/-! ## Copies -/

section Copies

variable {T : Type} {tensor : TypedTensor T}

/-- An empty contiguous view starts past the end of its buffer. -/
def PastEnd (tensor : TypedTensor T) : Prop :=
  tensor.layout.isContiguous ∧ 0 ∈ tensor.shape ∧ tensor.values.length < tensor.layout.offset

theorem checkedNumel_eq {l : Layout} : l.checkedNumel = some l.shape.prod ↔ 0 ∈ l.shape ∨ l.shape.prod ≤ usizeMax := by
  unfold Layout.checkedNumel
  split
  · next hzero => exact ⟨fun _ => .inl hzero, fun _ => congrArg some (prod_eq_zero hzero).symm⟩
  · next hpos =>
    rw [foldlM_checkedMul hpos, or_iff_right hpos, Nat.one_mul]
    refine ⟨fun h => h.1.elim id fun hnil => ?_, fun h => ⟨.inl h, rfl⟩⟩
    rw [hnil]
    exact (by decide : 1 ≤ usizeMax)

theorem checkedRequirement_numel {l : Layout} {dtype : DType} {operation : String} {r : CpuTensorRequirement}
    (h : checkedRequirement l.shape dtype operation = .ok r) : l.checkedNumel = some l.shape.prod := by
  obtain ⟨bytes, hbytes, -⟩ := bind_ok.mp h
  obtain ⟨n, hn, -⟩ := Option.bind_eq_some_iff.mp (okOr_ok.mp hbytes)
  unfold Layout.checkedNumel
  split
  · next hzero => exact congrArg some (prod_eq_zero hzero).symm
  · rw [hn, Reduce.foldlM_checkedMul_prod hn, Nat.one_mul]

/-- A contiguous view that does not start past the end lies in its buffer. -/
theorem contiguous_room (hcontiguous : tensor.layout.isContiguous) (hstart : ¬ PastEnd tensor) :
    tensor.layout.offset + tensor.shape.prod ≤ tensor.values.length := by
  by_cases hzero : 0 ∈ tensor.shape
  · rw [prod_eq_zero hzero, Nat.add_zero]
    exact Nat.not_lt.mp fun hlt => hstart ⟨hcontiguous, hzero, hlt⟩
  · have hlast := coordinate_last hzero
    have hlt := tensor.fits.address_lt hlast
    rw [Layout.address, (Layout.isContiguous_iff.mp hcontiguous).1.dot_eq tensor.layout.rank_eq hlast] at hlt
    have hend : rowIndex tensor.layout.shape (lastCoordinate tensor.shape) + 1 = tensor.shape.prod := rowIndex_last hzero
    rw [← hend, ← Nat.add_assoc]
    exact hlt

/-- The copy has the elements of the input, unless it starts past the end. -/
theorem copyStrided_eq (hnumel : tensor.layout.checkedNumel = some tensor.shape.prod) :
    (PastEnd tensor → ∃ message, (copyStrided tensor.values tensor.layout tensor.shape.prod : Fallible String (List T)) =
      .error (.panic message)) ∧
    (¬ PastEnd tensor → ∃ out, (copyStrided tensor.values tensor.layout tensor.shape.prod : Fallible String (List T)) =
      .ok out ∧ out.length = tensor.shape.prod ∧
      ∀ c, Coordinate tensor.shape c → out[rowIndex tensor.shape c]? = tensor.at? c) := by
  have hcount : (tensor.layout.numel : Fallible String Nat) = .ok tensor.shape.prod := expect_ok.mpr hnumel
  constructor
  · rintro ⟨hcontiguous, hzero, hlt⟩
    rw [copyStrided, if_pos hcontiguous, hcount, ok_bind, if_pos (Nat.lt_of_lt_of_le hlt (Nat.le_add_right _ _))]
    exact ⟨_, rfl⟩
  · intro hstart
    by_cases hcontiguous : tensor.layout.isContiguous
    · have hroom := contiguous_room hcontiguous hstart
      rw [copyStrided, if_pos hcontiguous, hcount, ok_bind, if_neg (Nat.not_lt.mpr hroom), if_neg (not_not_intro rfl)]
      refine ⟨_, rfl, ?_, fun c hc => ?_⟩
      · rw [length_take, length_drop]
        exact Nat.min_eq_left (Nat.le_sub_of_add_le' hroom)
      · rw [List.getElem?_take_of_lt (rowIndex_lt hc), List.getElem?_drop, TypedTensor.at?, Layout.address,
          (Layout.isContiguous_iff.mp hcontiguous).1.dot_eq tensor.layout.rank_eq hc]
        rfl
    · obtain ⟨out, hout⟩ : ∃ out, List.Forall₂ (fun i v => (readAt tensor.values (tensor.layout.sourceIndex i) :
          Fallible String T) = .ok v) (List.range tensor.shape.prod) out := by
        refine exists_forall₂ fun i hi => ?_
        obtain ⟨hc, hrow⟩ := rowIndex_unravel (mem_range.mp hi)
        obtain ⟨v, hv⟩ := tensor.exists_at hc
        have hread : (readAt tensor.values _ : Fallible String T) = .ok v := tensor.readAt_source hc hv
        exact ⟨v, hrow ▸ hread⟩
      obtain ⟨hlen, hget⟩ := forall₂_range hout
      refine ⟨out, ?_, hlen, fun c hc => ?_⟩
      · rw [copyStrided, if_neg hcontiguous]
        exact mapM_forall₂.mpr hout
      · obtain ⟨v, hv, hread⟩ := hget _ (rowIndex_lt hc)
        obtain ⟨v', hv'⟩ := tensor.exists_at hc
        have hread' : (readAt tensor.values _ : Fallible String T) = .ok v' := tensor.readAt_source hc hv'
        rw [hv, hv', Except.ok.inj (hread.symm.trans hread')]

end Copies

/-! ## Where a source is added -/

/-- One axis of the loop that finds the output element. -/
def scatterStep (shape srcShape : List Nat) (dim id axis : Nat) (state : Nat × Nat × Nat) : Nat × Nat × Nat :=
  (state.1 + (if axis = dim then id else state.2.2 % max (srcShape.getD axis 0) 1) * state.2.1,
    state.2.1 * shape.getD axis 0, state.2.2 / max (srcShape.getD axis 0) 1)

/-- What the loop has after the axes of `rest`, the last ones. -/
theorem foldr_scatterStep {before rest srcBefore srcRest : List Nat} (hbefore : srcBefore.length = before.length)
    (hrest : srcRest.length = rest.length) (hpos : 0 ∉ srcRest) (dim id n : Nat) :
    (List.range' before.length rest.length).foldr (scatterStep (before ++ rest) (srcBefore ++ srcRest) dim id) (0, 1, n) =
      (rowIndex rest (List.zipWith (fun axis x => if axis = dim then id else x) (List.range' before.length rest.length)
        (digits srcRest n)), rest.prod, n / srcRest.prod) := by
  induction rest generalizing before srcBefore srcRest with
  | nil =>
    obtain rfl := length_eq_zero_iff.mp hrest
    exact Prod.ext rfl (Prod.ext rfl (Nat.div_one n).symm)
  | cons d rest ih =>
    obtain ⟨width, srcRest, rfl⟩ := exists_cons_of_length_eq_add_one hrest
    obtain ⟨hwidth, hlater⟩ := not_or.mp fun hmem => hpos (mem_cons.mpr hmem)
    have h := @ih (before ++ [d]) (srcBefore ++ [width]) srcRest (by simp [hbefore]) (Nat.succ.inj hrest) hlater
    rw [length_append, length_singleton, append_assoc, append_assoc] at h
    have hextent : (before ++ d :: rest).getD before.length 0 = d := by simp
    have hsource : max ((srcBefore ++ width :: srcRest).getD before.length 0) 1 = width := by
      have hone : 1 ≤ width := Nat.pos_of_ne_zero (Ne.symm hwidth)
      rw [← hbefore]
      simpa using hone
    rw [length_cons, List.range'_succ, foldr_cons]
    refine (congrArg _ h).trans ?_
    rw [scatterStep, hextent, hsource, digits, zipWith_cons_cons, rowIndex_cons, prod_cons, prod_cons]
    dsimp only
    rw [Nat.div_div_eq_div_mul, Nat.mul_comm width, Nat.mul_comm d, Nat.add_comm (rowIndex rest _)]

/-- The loop finds the coordinate with the index in place of the component along the dimension. -/
theorem scatterIndex_rowIndex {shape srcShape c : List Nat} (hlen : srcShape.length = shape.length)
    (hc : Coordinate srcShape c) (dim id : Nat) :
    scatterIndex shape srcShape dim id (rowIndex srcShape c) = rowIndex shape (c.set dim id) := by
  have h := @foldr_scatterStep [] shape [] srcShape rfl hlen hc.positive dim id (rowIndex srcShape c)
  rw [digits_rowIndex hc, length_nil, ← range_eq_range', nil_append, nil_append, ← hlen, ← hc.length_eq,
    zipWith_set, hc.length_eq, hlen] at h
  exact congrArg Prod.fst h

/-! ## `scatter_add` -/

/-- The coordinate that a source is added at. -/
def scatterTarget (ids : Tensor) (dim : Nat) (s : List Nat) : List Nat :=
  s.set dim ((ids.index? s).getD 0).toNat

/-- The output of `scatter_add`: each element of the input with the sources that are added at it, in their order. -/
def Scatters {T : Type} [Add T] (tensor : TypedTensor T) (dim : Nat) (ids : Tensor) (src : TypedTensor T) (out : List T) : Prop :=
  out.length = tensor.shape.prod ∧
  (∀ s, Coordinate src.shape s → ∃ id, Chosen ids (tensor.shape.getD dim 0) s id ∧ Coordinate tensor.shape (s.set dim id)) ∧
  ∀ c, Coordinate tensor.shape c → ∃ start order values, tensor.at? c = some start ∧
    order.Pairwise (fun a b => rowIndex src.shape a < rowIndex src.shape b) ∧
    (∀ s, s ∈ order ↔ Coordinate src.shape s ∧ ∃ id, Chosen ids (tensor.shape.getD dim 0) s id ∧ s.set dim id = c) ∧
    List.Forall₂ (fun s v => src.at? s = some v) order values ∧
    out[rowIndex tensor.shape c]? = some (values.foldl (· + ·) start)

section ScatterAdd

variable {T : Type} [Add T] {tensor src : TypedTensor T} {ids : Tensor} {dim : Nat}

theorem Chosen.target {extent id : Nat} {s : List Nat} (h : Chosen ids extent s id) : scatterTarget ids dim s = s.set dim id := by
  rw [scatterTarget, h.1]
  rfl

/-- One turn adds a source, or stops at a bad index. -/
theorem scatterAdd_turn (hids : validateIndices ids "scatter_add" = .ok ()) (hshape : ids.layout.shape = src.shape)
    (hlen : src.shape.length = tensor.shape.length)
    (hextents : ∀ d < tensor.shape.length, d ≠ dim → src.shape.getD d 0 ≤ tensor.shape.getD d 0) {s : List Nat}
    (hs : Coordinate src.shape s) :
    (∃ id v, Chosen ids (tensor.shape.getD dim 0) s id ∧ Coordinate tensor.shape (s.set dim id) ∧ src.at? s = some v ∧
      ∀ cells : List T, cells.length = tensor.shape.prod →
        scatterAddStep tensor dim ids src cells (rowIndex src.shape s) =
          .ok (cells.modify (rowIndex tensor.shape (s.set dim id)) (· + v))) ∨
    (¬ ∃ id, Chosen ids (tensor.shape.getD dim 0) s id) ∧ BadIndex ids (tensor.shape.getD dim 0) ∧
      ∃ e, ∀ cells, scatterAddStep tensor dim ids src cells (rowIndex src.shape s) = fail e := by
  rw [← hshape] at hs
  rcases @checkedIndex_cases ids "scatter_add" (tensor.shape.getD dim 0) s hids hs with ⟨id, hid, hcheck⟩ | ⟨hnone, hbad, e, hcheck⟩
  · rw [hshape] at hs hcheck
    have hchosen := coordinate_chosen hlen hextents hs hid.2
    obtain ⟨v, hv⟩ := src.exists_at hs
    refine .inl ⟨id, v, hid, hchosen, hv, fun cells hcells => ?_⟩
    have hlt : rowIndex tensor.shape (s.set dim id) < cells.length := hcells ▸ rowIndex_lt hchosen
    have hread : (readAt cells (rowIndex tensor.shape (s.set dim id)) : Fallible String T) = .ok _ :=
      readAt_ok.mpr (List.getElem?_eq_getElem hlt)
    have hsource : (readAt src.values (src.layout.sourceIndex (rowIndex src.shape s)) : Fallible String T) = .ok v :=
      src.readAt_source hs hv
    rw [scatterAddStep, hcheck, ok_bind, scatterIndex_rowIndex hlen hs]
    dsimp only
    rw [hread, ok_bind, hsource, ok_bind, writeAt_of_lt hlt, modify_eq_set_getElem?, List.getElem?_eq_getElem hlt]
    rfl
  · rw [hshape] at hcheck
    exact .inr ⟨hnone, hbad, e, fun cells => by rw [scatterAddStep, hcheck]; rfl⟩

/-- The loop over the sources, when every index is chosen. -/
theorem scatterAdd_loop (hids : validateIndices ids "scatter_add" = .ok ()) (hshape : ids.layout.shape = src.shape)
    (hlen : src.shape.length = tensor.shape.length)
    (hextents : ∀ d < tensor.shape.length, d ≠ dim → src.shape.getD d 0 ≤ tensor.shape.getD d 0)
    (hall : ∀ s, Coordinate src.shape s → ∃ id, Chosen ids (tensor.shape.getD dim 0) s id) {cells : List T}
    (hcells : cells.length = tensor.shape.prod)
    (hcopy : ∀ c, Coordinate tensor.shape c → cells[rowIndex tensor.shape c]? = tensor.at? c) :
    ∃ out, (List.range src.shape.prod).foldlM (scatterAddStep tensor dim ids src) cells = .ok out ∧
      Scatters tensor dim ids src out := by
  have hchosen : ∀ s, Coordinate src.shape s → ∃ id v, Chosen ids (tensor.shape.getD dim 0) s id ∧
      Coordinate tensor.shape (s.set dim id) ∧ src.at? s = some v ∧ ∀ cells : List T, cells.length = tensor.shape.prod →
        scatterAddStep tensor dim ids src cells (rowIndex src.shape s) =
          .ok (cells.modify (rowIndex tensor.shape (s.set dim id)) (· + v)) := fun s hs =>
    (scatterAdd_turn hids hshape hlen hextents hs).resolve_right fun h => h.1 (hall s hs)
  -- a turn folds the element of its source, which is there
  have hrun := @foldlM_accumulate Nat T (Option T) (Fault String)
    (fun i => rowIndex tensor.shape (scatterTarget ids dim (unravel src.shape i)))
    (fun a v => v.elim a (a + ·)) (fun i => src.at? (unravel src.shape i)) cells (List.range src.shape.prod)
    (scatterAddStep tensor dim ids src) (fun i hi cells' hcells' => by
      obtain ⟨hs, hrow⟩ := rowIndex_unravel (mem_range.mp hi)
      obtain ⟨id, v, hid, -, hv, hstep⟩ := hchosen _ hs
      have hturn := hstep cells' (hcells'.trans hcells)
      rw [hrow] at hturn
      rw [hturn, hid.target, hv]
      rfl)
  refine ⟨_, hrun, by rw [length_accumulate, hcells], fun s hs => ?_, fun c hc => ?_⟩
  · obtain ⟨id, _, hid, hin, -⟩ := hchosen s hs
    exact ⟨id, hid, hin⟩
  · obtain ⟨start, hstart⟩ := tensor.exists_at hc
    have hmem : ∀ i, i ∈ (List.range src.shape.prod).filter (fun i =>
        rowIndex tensor.shape (scatterTarget ids dim (unravel src.shape i)) = rowIndex tensor.shape c) ↔
          i < src.shape.prod ∧ scatterTarget ids dim (unravel src.shape i) = c := by
      intro i
      rw [mem_filter, mem_range, decide_eq_true_eq]
      refine and_congr_right fun hi => ⟨fun heq => ?_, fun heq => congrArg _ heq⟩
      obtain ⟨id, _, hid, hin, -⟩ := hchosen _ (rowIndex_unravel hi).1
      rw [hid.target] at heq ⊢
      rw [← unravel_rowIndex hin, heq, unravel_rowIndex hc]
    obtain ⟨values, hvalues⟩ : ∃ values, List.Forall₂ (fun i v => src.at? (unravel src.shape i) = some v)
        ((List.range src.shape.prod).filter fun i =>
          rowIndex tensor.shape (scatterTarget ids dim (unravel src.shape i)) = rowIndex tensor.shape c) values :=
      exists_forall₂ fun i hi => src.exists_at (rowIndex_unravel ((hmem i).mp hi).1).1
    refine ⟨start, _, values, hstart, pairwise_map.mpr ((pairwise_lt_range.filter _).imp_of_mem ?_), fun s => ?_,
      forall₂_map_left_iff.mpr hvalues, ?_⟩
    · intro i j hi hj hlt
      rwa [(rowIndex_unravel ((hmem i).mp hi).1).2, (rowIndex_unravel ((hmem j).mp hj).1).2]
    · rw [mem_map]
      constructor
      · rintro ⟨i, hi, rfl⟩
        obtain ⟨hlt, htarget⟩ := (hmem i).mp hi
        obtain ⟨id, _, hid, _, _⟩ := hchosen _ (rowIndex_unravel hlt).1
        exact ⟨(rowIndex_unravel hlt).1, id, hid, hid.target ▸ htarget⟩
      · rintro ⟨hs, id, hid, rfl⟩
        refine ⟨rowIndex src.shape s, (hmem _).mpr ⟨rowIndex_lt hs, ?_⟩, unravel_rowIndex hs⟩
        rw [unravel_rowIndex hs, hid.target]
    · have hmap : ((List.range src.shape.prod).filter fun i =>
          rowIndex tensor.shape (scatterTarget ids dim (unravel src.shape i)) = rowIndex tensor.shape c).map
            (fun i => src.at? (unravel src.shape i)) = values.map some :=
        (map_eq_of_forall₂ hvalues fun _ _ h => h.symm).symm
      rw [getElem?_accumulate, hcopy c hc, hstart, Option.map_some, hmap, foldl_map]
      rfl

/-- The loop over the sources stops with a message when some index is bad. -/
theorem scatterAdd_stops (hids : validateIndices ids "scatter_add" = .ok ()) (hshape : ids.layout.shape = src.shape)
    (hlen : src.shape.length = tensor.shape.length)
    (hextents : ∀ d < tensor.shape.length, d ≠ dim → src.shape.getD d 0 ≤ tensor.shape.getD d 0)
    (hbad : BadIndex ids (tensor.shape.getD dim 0)) {cells : List T} (hcells : cells.length = tensor.shape.prod) :
    ∃ e, (List.range src.shape.prod).foldlM (scatterAddStep tensor dim ids src) cells = fail e := by
  have hturn := fun i (hi : i < src.shape.prod) =>
    @scatterAdd_turn T _ tensor src ids dim hids hshape hlen hextents _ (rowIndex_unravel hi).1
  cases hrun : (List.range src.shape.prod).foldlM (scatterAddStep tensor dim ids src) cells with
  | ok out =>
    -- every turn went through, so every index was chosen
    refine absurd hbad ((not_badIndex_iff hids).mpr fun s hs => ?_)
    rw [hshape] at hs
    have hpassed := foldlM_forall (C := fun i => ∃ cells cells', scatterAddStep tensor dim ids src cells i = .ok cells')
      (fun cells i cells' h => ⟨cells, cells', h⟩) hrun _ (mem_range.mpr (rowIndex_lt hs))
    rcases @scatterAdd_turn T _ tensor src ids dim hids hshape hlen hextents _ hs with ⟨id, _, hid, _⟩ | ⟨_, _, e, hfail⟩
    · exact ⟨id, hid⟩
    · obtain ⟨cells, cells', hok⟩ := hpassed
      rw [hfail] at hok
      cases hok
  | error fault =>
    obtain ⟨done, i, rest, cells', hl, hlength, herror⟩ := foldlM_fault (fun _ cells => cells.length = tensor.shape.prod)
      (List.range src.shape.prod) (fun done i rest cells cells' hl hlength hok => by
        have hlt := (range_eq_length hl).2
        rcases hturn i hlt with ⟨_, v, _, _, _, hstep⟩ | ⟨_, _, e, hfail⟩
        · have hstep := hstep cells hlength
          rw [(rowIndex_unravel hlt).2, hok] at hstep
          rw [Except.ok.inj hstep, length_modify, hlength]
        · have hfail := hfail cells
          rw [(rowIndex_unravel hlt).2, hok] at hfail
          cases hfail) hcells hrun
    have hlt := (range_eq_length hl).2
    rcases hturn i hlt with ⟨_, v, _, _, _, hstep⟩ | ⟨_, _, e, hfail⟩
    · have hstep := hstep cells' hlength
      rw [(rowIndex_unravel hlt).2, herror] at hstep
      cases hstep
    · have hfail := hfail cells'
      rw [(rowIndex_unravel hlt).2, herror] at hfail
      exact ⟨e, hfail⟩

variable [CpuElem T] {destination : CpuDestination T}

theorem validateScatterAdd_ok {shape srcShape : List Nat} {u : Unit} : validateScatterAdd shape dim ids srcShape = .ok u ↔
    dim < shape.length ∧ validateIndices ids "scatter_add" = .ok () ∧ ids.layout.shape = srcShape ∧
    srcShape.length = shape.length ∧ ∀ d < shape.length, d ≠ dim → srcShape.getD d 0 ≤ shape.getD d 0 := by
  unfold validateScatterAdd
  constructor
  · intro h
    obtain ⟨_, hdim, h⟩ := bind_ok.mp h
    obtain ⟨_, hids, h⟩ := bind_ok.mp h
    obtain ⟨_, hsame, h⟩ := bind_ok.mp h
    obtain ⟨_, hrank, h⟩ := bind_ok.mp h
    exact ⟨Nat.not_le.mp (rejectIf_ok.mp hdim), hids, not_not.mp (rejectIf_ok.mp hsame), not_not.mp (rejectIf_ok.mp hrank),
      validateExtents_ok.mp h⟩
  · rintro ⟨hdim, hids, hsame, hrank, hextents⟩
    exact bind_ok.mpr ⟨(), rejectIf_ok.mpr (Nat.not_le.mpr hdim), bind_ok.mpr ⟨(), hids, bind_ok.mpr
      ⟨(), rejectIf_ok.mpr (not_not_intro hsame), bind_ok.mpr ⟨(), rejectIf_ok.mpr (not_not_intro hrank),
        validateExtents_ok.mpr hextents⟩⟩⟩⟩

omit [Add T] in
theorem scatterAddRequirements_ok {r : IndexingRequirements} (h : scatterAddRequirements tensor dim ids src = .ok r) :
    validateScatterAdd tensor.shape dim ids src.shape = .ok () ∧ tensor.layout.checkedNumel = some tensor.shape.prod ∧
      r.output.shape = tensor.shape := by
  obtain ⟨_, hvalid, h⟩ := bind_ok.mp h
  obtain ⟨output, houtput, h⟩ := bind_ok.mp h
  exact ⟨hvalid, checkedRequirement_numel houtput, (Except.ok.inj h) ▸ checkedRequirement_ok houtput⟩

/-- `scatter_add` is exact unless the elements of the source cannot be counted, or an empty input lies past its buffer. -/
theorem scatterAddInto_exact_iff (hvalid : validateScatterAdd tensor.shape dim ids src.shape = .ok ())
    (hnumel : tensor.layout.checkedNumel = some tensor.shape.prod) (hready : destination.Ready)
    (hshape : destination.shape = tensor.shape) :
    Exact (BadIndex ids (tensor.shape.getD dim 0)) (scatterAddInto tensor dim ids src destination)
        (Scatters tensor dim ids src) ↔
      (0 ∈ src.shape ∨ src.shape.prod ≤ usizeMax) ∧ ¬ PastEnd tensor := by
  obtain ⟨hdim, hids, hsame, hrank, hextents⟩ := validateScatterAdd_ok.mp hvalid
  obtain ⟨hpanics, hcopies⟩ := copyStrided_eq hnumel
  rw [scatterAddInto, hvalid, ok_bind, write_ready hready hshape, hready.length_slice, hshape]
  -- a panic is neither an output nor an error with a message
  have hpanic : ∀ message, ¬ Exact (BadIndex ids (tensor.shape.getD dim 0)) (.error (.panic message))
      (Scatters tensor dim ids src) := by
    rintro message ⟨herror, hok⟩
    by_cases hbad : BadIndex ids (tensor.shape.getD dim 0)
    · obtain ⟨e, he⟩ := herror.mpr hbad
      cases he
    · obtain ⟨out, hout, -⟩ := hok hbad
      cases hout
  by_cases hpast : PastEnd tensor
  · obtain ⟨message, hmessage⟩ := hpanics hpast
    rw [hmessage]
    exact iff_of_false (hpanic message) fun h => h.2 hpast
  obtain ⟨copied, hcopied, hlength, hcells⟩ := hcopies hpast
  rw [hcopied, ok_bind, and_iff_left hpast]
  by_cases hcounted : 0 ∈ src.shape ∨ src.shape.prod ≤ usizeMax
  · have hcount : (src.layout.numel : Fallible String Nat) = .ok src.shape.prod := expect_ok.mpr (checkedNumel_eq.mpr hcounted)
    rw [hcount, ok_bind]
    refine iff_of_true ?_ hcounted
    by_cases hbad : BadIndex ids (tensor.shape.getD dim 0)
    · exact ⟨iff_of_true (scatterAdd_stops hids hsame hrank hextents hbad hlength) hbad, fun h => absurd hbad h⟩
    · obtain ⟨out, hout, hscatters⟩ := scatterAdd_loop hids hsame hrank hextents
        (fun s hs => (not_badIndex_iff hids).mp hbad s (hsame ▸ hs)) hlength hcells
      refine ⟨iff_of_false (fun ⟨e, he⟩ => ?_) hbad, fun _ => ⟨out, hout, hscatters⟩⟩
      rw [hout] at he
      cases he
  · have hnone : (src.layout.numel : Fallible String Nat) = .error (.panic "layout element count overflow") := by
      cases hchecked : src.layout.checkedNumel with
      | none => rw [Layout.numel, hchecked, expect_none]
      | some n =>
        have hn : (src.layout.numel : Fallible String Nat) = .ok n := expect_ok.mpr hchecked
        exact absurd (checkedNumel_eq.mp (hchecked.trans (congrArg some (numel_ok hn)))) hcounted
    rw [hnone]
    exact iff_of_false (hpanic _) hcounted

end ScatterAdd

end EffectTorch
