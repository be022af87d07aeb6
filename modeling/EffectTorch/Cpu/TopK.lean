import EffectTorch.Lib.Rows
import EffectTorch.Lib.StableSort
import EffectTorch.Cpu.Destination

/-!
# The largest values of each row

`top_k_indices_into` of `runtime-cpu/src/reduce.rs`: the indices of the `k` largest values of each
row, in the stable descending order. The output row doubles as the workspace of an insertion sort
that keeps `k` entries.

Results:
1. `take_insertSlot`: one turn inserts an index into the first `k` entries.
2. `topKIndicesInto_exact`: a row is the front of the stable descending sort, and only an invalid
   `k` and a NaN stop the kernel.
-/

namespace EffectTorch
open List Lib Gguf

namespace Reduce

/-! ## The kernel -/

/-- The `while` loop over the entries that stay in front, from `position` on, with `left` to go. -/
def insertPosition (keep : Nat → Fallible String Bool) : (left position : Nat) → Fallible String Nat
  | 0, position => .ok position
  | left + 1, position => do
    match ← keep position with
    | true => insertPosition keep left (position + 1)
    | false => .ok position

/-- Moves the entries behind `position` by one slot, the last one first. The slots lie in the row. -/
def shiftSlots (indices : List UInt32) (position last : Nat) : List UInt32 :=
  (List.range' (position + 1) (last - position)).foldr (fun slot indices =>
    indices.set slot (indices.getD (slot - 1) 0)) indices

/-- One turn of the loop over a row. -/
def insertIndex (values : List F32) (base stride k : Nat) (indices : List UInt32) (index : Nat) :
    Fallible String (List UInt32) := do
  let value ← readAt values (base + index * stride)
  rejectIf value.isNan "topKIndices: NaN input"
  let used := min index k
  let position ← insertPosition (fun position => do
    let chosen ← readAt indices position
    let other ← readAt values (base + chosen.toNat * stride)
    .ok (atMost value other)) used 0
  if position < k then .ok ((shiftSlots indices position (min used (k - 1))).set position (UInt32.ofNat index))
  else .ok indices

/-- `chunks_exact_mut(k)`: the chunks one after the other, and what is left behind them. -/
def chunksExactMut (k : Nat) (body : Nat → List UInt32 → Fallible String (List UInt32)) (output : List UInt32) :
    Fallible String (List UInt32) := do
  let rows ← (List.range (output.length / k)).mapM fun row => body row ((output.drop (row * k)).take k)
  .ok (rows.flatten ++ output.drop (output.length / k * k))

/-- Where a row starts: its number is taken apart along the dimensions in front. None of them is empty
when there is a row. -/
def rowStart (layout : Layout) (row : Nat) : Nat :=
  (odometer (layout.shape.getD · 0) (layout.strides.getD · 0) (List.range (layout.shape.length - 1))
    layout.offset row).1

/-- The loop over a row. -/
def topKRow (values : List F32) (layout : Layout) (width k row : Nat) (indices : List UInt32) :
    Fallible String (List UInt32) :=
  (List.range width).foldlM (insertIndex values (rowStart layout row)
    (layout.strides.getD (layout.shape.length - 1) 0) k) indices

def topKIndicesInto (tensor : Tensor) (k : Nat) (destination : CpuDestination UInt32) :
    Fallible String (List UInt32) := do
  let shape := tensor.layout.shape
  let width ← okOr shape.getLast? "topKIndices: input must have rank >= 1"
  rejectIf (k = 0 ∨ width < k ∨ 2 ^ 32 - 1 < width) "topKIndices: invalid k or last-axis width"
  match tensor.buffer with
  | .f32 values =>
    rejectIf (destination.shape.length ≠ shape.length ∨ destination.shape.getLast? ≠ some k ∨
        destination.shape.take (shape.length - 1) ≠ shape.take (shape.length - 1))
      "topKIndices: destination shape mismatch"
    destination.writeCurrent "topKIndices" fun output =>
      chunksExactMut k (topKRow values tensor.layout width k) output
  | _ => fail "topKIndices: expected f32"

/-! ## One turn -/

section Turn

theorem insertPosition_eq {keep : Nat → Fallible String Bool} {l : List Nat} {test : Nat → Bool}
    (hkeep : ∀ i x, l[i]? = some x → keep i = .ok (test x)) {left position : Nat}
    (h : position + left = l.length) :
    insertPosition keep left position = .ok (position + ((l.drop position).takeWhile test).length) := by
  induction left generalizing position with
  | zero =>
    have hnone : l.drop position = [] := drop_of_length_le (by omega)
    rw [hnone]
    rfl
  | succ left ih =>
    have hlt : position < l.length := by omega
    rw [insertPosition, hkeep position _ (List.getElem?_eq_getElem hlt), ok_bind, drop_eq_getElem_cons hlt,
      takeWhile_cons]
    cases test l[position] with
    | true =>
      dsimp only
      rw [ih (by omega), if_pos rfl, length_cons, Nat.add_assoc, Nat.add_comm 1]
    | false => rfl

theorem length_shiftSlots (indices : List UInt32) (position last : Nat) :
    (shiftSlots indices position last).length = indices.length := by
  rw [shiftSlots]
  induction List.range' (position + 1) (last - position) with
  | nil => rfl
  | cons slot slots ih => rw [foldr_cons, length_set, ih]

/-- Each slot behind `position` up to the last one takes the entry of the slot before it. -/
theorem getElem?_shiftSlots {indices : List UInt32} {position last : Nat} (hle : position ≤ last)
    (hlast : last < indices.length) (j : Nat) :
    (shiftSlots indices position last)[j]? =
      if position < j ∧ j ≤ last then indices[j - 1]? else indices[j]? := by
  obtain ⟨n, rfl⟩ := Nat.exists_eq_add_of_le hle
  clear hle
  induction n generalizing position j with
  | zero =>
    rw [shiftSlots, Nat.add_sub_cancel_left, if_neg (by omega)]
    rfl
  | succ n ih =>
    -- the slots further back have moved before this one does
    have hrest := fun j => @ih (position + 1) j (by omega)
    have hfirst : shiftSlots indices position (position + (n + 1)) =
        (shiftSlots indices (position + 1) (position + 1 + n)).set (position + 1)
          ((shiftSlots indices (position + 1) (position + 1 + n)).getD position 0) := by
      rw [shiftSlots, shiftSlots, Nat.add_sub_cancel_left, Nat.add_sub_cancel_left, List.range'_succ, foldr_cons,
        Nat.add_sub_cancel]
    have hmoved : (shiftSlots indices (position + 1) (position + 1 + n)).getD position 0 =
        indices.get ⟨position, by omega⟩ := by
      rw [getD_eq_getElem?_getD, hrest, if_neg (by omega), List.getElem?_eq_getElem (by omega)]
      rfl
    rw [hfirst, hmoved, List.getElem?_set, length_shiftSlots]
    split
    · next heq =>
      subst heq
      rw [if_pos (by omega), if_pos (by omega), Nat.add_sub_cancel, List.getElem?_eq_getElem (by omega)]
      rfl
    · next hne =>
      rw [hrest]
      refine if_congr ?_ rfl rfl
      omega

/-- The first entries of a row after an insertion. -/
theorem take_insertSlot {indices : List UInt32} {k index position : Nat} (hlen : indices.length = k)
    (hposition : position ≤ min index k) (hk : position < k) (v : UInt32) :
    (((shiftSlots indices position (min (min index k) (k - 1))).set position v).take (min (index + 1) k)) =
      (((indices.take (min index k)).insertIdx position v).take k) := by
  refine ext_getElem? fun j => ?_
  rw [List.getElem?_take, List.getElem?_take, List.getElem?_insertIdx, length_take, List.getElem?_take,
    List.getElem?_take, List.getElem?_set, length_shiftSlots, getElem?_shiftSlots (by omega) (by omega)]
  by_cases hj : j < min (index + 1) k
  · rw [if_pos hj, if_pos (show j < k by omega)]
    rcases Nat.lt_trichotomy j position with hlt | rfl | hgt
    · rw [if_neg (by omega), if_neg (by omega), if_pos hlt, if_pos (by omega)]
    · rw [if_pos rfl, if_pos (by omega), if_neg (Nat.lt_irrefl j), if_pos rfl, if_pos (by omega)]
    · rw [if_neg (by omega), if_pos (by omega), if_neg (by omega), if_neg (by omega), if_pos (by omega)]
  · rw [if_neg hj]
    split
    · rw [if_neg (by omega), if_neg (by omega), if_neg (by omega)]
    · rfl

/-- After `done` turns the row holds the first `k` entries of the sorted indices. -/
def Kept (le : Nat → Nat → Bool) (k done : Nat) (indices : List UInt32) : Prop :=
  indices.length = k ∧ (indices.take (min done k)).map UInt32.toNat = (insertAll le done).take k

/-- The order of the indices of a row: the larger value first. -/
def descending (p : Nat → Int) (i j : Nat) : Bool :=
  decide (p j ≤ p i)

theorem descending_trans {p : Nat → Int} (a b c : Nat) (hab : descending p a b) (hbc : descending p b c) :
    descending p a c :=
  decide_eq_true (Int.le_trans (of_decide_eq_true hbc) (of_decide_eq_true hab))

theorem descending_total {p : Nat → Int} (a b : Nat) : descending p a b || descending p b a :=
  (Bool.or_eq_true _ _).mpr ((Int.le_total (p b) (p a)).imp decide_eq_true decide_eq_true)

section Row

variable {values : List F32} {base stride width k index : Nat} {v : Nat → F32} {indices : List UInt32}

theorem place_of_not_nan {x : F32} (h : x.isNan = false) : Comparable.place x = some x.place := by
  show (if x.isNan then none else some x.place) = _
  rw [h]
  rfl

/-- A turn inserts its index into the first `k` entries. -/
theorem insertIndex_kept (hwidth : width ≤ 2 ^ 32 - 1) (hv : ∀ i < width, values[base + i * stride]? = some (v i))
    (hindex : index < width) (hnan : ∀ i ≤ index, (v i).isNan = false)
    (h : Kept (descending fun i => (v i).place) k index indices) :
    ∃ indices', insertIndex values base stride k indices index = .ok indices' ∧
      Kept (descending fun i => (v i).place) k (index + 1) indices' := by
  obtain ⟨hlen, hkept⟩ := h
  obtain ⟨l, hl⟩ : ∃ l, (indices.take (min index k)).map UInt32.toNat = l := ⟨_, rfl⟩
  have hllen : l.length = min index k := by
    rw [← hl, length_map, length_take, hlen, Nat.min_eq_left (Nat.min_le_right _ _)]
  have hmem : ∀ x ∈ l, x < index := by
    intro x hx
    rw [← hl, hkept] at hx
    exact mem_range.mp ((insertAll_perm index).mem_iff.mp (mem_of_mem_take hx))
  have hkeep : ∀ i x, l[i]? = some x → (do
      let chosen ← readAt indices i
      let other ← readAt values (base + chosen.toNat * stride)
      .ok (atMost (v index) other) : Fallible String Bool) = .ok (descending (fun i => (v i).place) x index) := by
    intro i x hx
    have hlt := hmem x (mem_of_getElem? hx)
    rw [← hl, List.getElem?_map, Option.map_eq_some_iff] at hx
    obtain ⟨chosen, hchosen, rfl⟩ := hx
    rw [List.getElem?_take] at hchosen
    split at hchosen
    · rw [readAt_ok.mpr hchosen, ok_bind, readAt_ok.mpr (hv _ (Nat.lt_trans hlt hindex)), ok_bind]
      refine congrArg Except.ok (Bool.eq_iff_iff.mpr ?_)
      rw [atMost_some (place_of_not_nan (hnan index (Nat.le_refl _))) (place_of_not_nan (hnan _ (Nat.le_of_lt hlt)))]
      exact (decide_eq_true_iff).symm
    · cases hchosen
  have hposition := insertPosition_eq hkeep (show 0 + min index k = l.length by rw [hllen, Nat.zero_add])
  rw [drop_zero, Nat.zero_add] at hposition
  obtain ⟨position, hdef⟩ : ∃ position, (l.takeWhile (descending (fun i => (v i).place) · index)).length = position :=
    ⟨_, rfl⟩
  rw [hdef] at hposition
  have hbound : position ≤ min index k := by
    rw [← hdef, ← hllen]
    exact (takeWhile_sublist _).length_le
  have hinsert : (l.insertIdx position index).take k =
      (insertAll (descending fun i => (v i).place) (index + 1)).take k := by
    rw [← hdef, ← insertBehind_eq_insertIdx, ← hl, hkept, take_insertBehind, insertAll_succ]
  rw [insertIndex, readAt_ok.mpr (hv index hindex), ok_bind,
    (rejectIf_ok (u := ())).mpr (by rw [hnan index (Nat.le_refl _)]; exact Bool.false_ne_true), ok_bind]
  dsimp only
  rw [hposition, ok_bind]
  split
  · next hk =>
    refine ⟨_, rfl, by rw [length_set, length_shiftSlots, hlen], ?_⟩
    have hvalue : (UInt32.ofNat index).toNat = index := by
      rw [UInt32.toNat_ofNat']
      exact Nat.mod_eq_of_lt (by omega)
    rw [take_insertSlot hlen hbound hk, map_take, map_insertIdx, hl, hvalue, hinsert]
  · next hk =>
    have hfull : min index k = k := by omega
    have hend : position = l.length := by omega
    have hrow : indices.take k = indices := take_of_length_le (Nat.le_of_eq hlen)
    refine ⟨indices, rfl, hlen, ?_⟩
    rw [← hinsert, hend, insertIdx_length_self, take_append_of_le_length (by omega), ← hl, hfull,
      Nat.min_eq_right (by omega : k ≤ index + 1), ← map_take, hrow, hrow]

/-- The turns up to an index without a NaN. -/
theorem insertIndex_loop (hwidth : width ≤ 2 ^ 32 - 1) (hv : ∀ i < width, values[base + i * stride]? = some (v i))
    {n : Nat} (hn : n ≤ width) (hnan : ∀ i < n, (v i).isNan = false) (hlen : indices.length = k) :
    ∃ indices', (List.range n).foldlM (insertIndex values base stride k) indices = .ok indices' ∧
      Kept (descending fun i => (v i).place) k n indices' := by
  induction n with
  | zero =>
    refine ⟨indices, rfl, hlen, ?_⟩
    rw [Nat.zero_min, take_zero]
    exact take_nil.symm
  | succ n ih =>
    obtain ⟨indices₁, hrun, hkept⟩ := ih (Nat.le_of_succ_le hn) fun i hi => hnan i (Nat.lt_succ_of_lt hi)
    obtain ⟨indices₂, hturn, hkept'⟩ := insertIndex_kept hwidth hv hn (fun i hi => hnan i (Nat.lt_succ_of_le hi)) hkept
    refine ⟨indices₂, ?_, hkept'⟩
    rw [range_succ, foldlM_append, hrun, ok_bind, foldlM_cons, hturn]
    rfl

/-- The first NaN stops the row. -/
theorem insertIndex_nan (hwidth : width ≤ 2 ^ 32 - 1) (hv : ∀ i < width, values[base + i * stride]? = some (v i))
    (hnan : ∃ i < width, (v i).isNan = true) (hlen : indices.length = k) :
    (List.range width).foldlM (insertIndex values base stride k) indices = fail "topKIndices: NaN input" := by
  obtain ⟨i, ⟨hi, hstop⟩, hfirst⟩ : ∃ i, (i < width ∧ (v i).isNan = true) ∧
      ∀ j < i, ¬(j < width ∧ (v j).isNan = true) := ⟨_, Nat.find_spec hnan, fun j hj => Nat.find_min hnan hj⟩
  have hbefore : ∀ j < i, (v j).isNan = false :=
    fun j hj => Bool.eq_false_iff.mpr fun h => hfirst j hj ⟨Nat.lt_trans hj hi, h⟩
  obtain ⟨indices', hrun, _⟩ := insertIndex_loop hwidth hv (Nat.le_of_lt hi) hbefore hlen
  have hturn : insertIndex values base stride k indices' i = fail "topKIndices: NaN input" := by
    rw [insertIndex, readAt_ok.mpr (hv i hi), ok_bind, hstop]
    rfl
  obtain ⟨rest, rfl⟩ := Nat.exists_eq_add_of_lt hi
  rw [Nat.add_assoc, range_add, foldlM_append, hrun, ok_bind, range_succ_eq_map, map_cons,
    foldlM_cons, Nat.add_zero, hturn]
  rfl

/-- A full row holds the front of the stable descending sort. -/
theorem Kept.eq_mergeSort (h : Kept (descending fun i => (v i).place) k width indices) (hk : k ≤ width) :
    indices.map UInt32.toNat = ((List.range width).mergeSort (descending fun i => (v i).place)).take k := by
  have hrow : indices.take k = indices := take_of_length_le (Nat.le_of_eq h.1)
  rw [← insertAll_eq_mergeSort descending_trans descending_total, ← h.2, Nat.min_eq_right hk, hrow]

end Row

end Turn

/-! ## Rows -/

section Rows

variable {layout : Layout} {lead c : List Nat} {width k x : Nat}

theorem dot_concat {cs ss : List Nat} (hlen : cs.length = ss.length) (x s : Nat) :
    dot (cs ++ [x]) (ss ++ [s]) = dot cs ss + x * s := by
  induction cs generalizing ss with
  | nil =>
    obtain rfl := eq_nil_of_length_eq_zero hlen.symm
    rw [nil_append, nil_append, dot_cons, dot_nil_left, Nat.add_comm]
  | cons c cs ih =>
    cases ss with
    | nil => cases hlen
    | cons t ss => rw [cons_append, cons_append, dot_cons, dot_cons, ih (Nat.succ.inj hlen), Nat.add_assoc]

/-- A row starts at its coordinate, and its elements are a stride apart. -/
theorem rowStart_add (hshape : layout.shape = lead ++ [width]) (hc : Coordinate lead c) (x : Nat) :
    rowStart layout (rowIndex lead c) + x * layout.strides.getD (layout.shape.length - 1) 0 =
      layout.address (c ++ [x]) := by
  obtain ⟨ss, s, hstrides⟩ : ∃ ss s, layout.strides = ss ++ [s] := by
    refine (eq_nil_or_concat' layout.strides).resolve_left fun hnil => ?_
    have hrank := layout.rank_eq
    rw [hnil, hshape, length_append] at hrank
    exact Nat.succ_ne_zero _ hrank
  have hlen : lead.length = ss.length := by
    have hrank := layout.rank_eq
    rw [hshape, hstrides, length_append, length_append] at hrank
    exact Nat.succ.inj hrank
  have hlast : layout.shape.length - 1 = lead.length := by rw [hshape, length_append]; rfl
  have hfront : ∀ (l : List Nat) (y : Nat), l.length = lead.length →
      (List.range lead.length).map ((l ++ [y]).getD · 0) = l := by
    intro l y hl
    have hid := map_getD_range (fun s => s) l
    rw [map_id'] at hid
    refine Eq.trans (map_congr_left fun i hi => ?_) (hl ▸ hid)
    exact getD_append _ _ _ _ (hl ▸ mem_range.mp hi)
  have hstride : (ss ++ [s]).getD lead.length 0 = s := by
    rw [hlen, getD_eq_getElem?_getD, List.getElem?_concat_length]
    rfl
  rw [hlast, rowStart, hlast, odometer_eq, hshape, hstrides, hfront lead width rfl, hfront ss s hlen.symm, digits_rowIndex hc, hstride,
    Layout.address, hstrides, dot_concat (hc.length_eq.trans hlen), Nat.add_assoc]

end Rows

/-! ## All rows -/

/-- The value at a coordinate; the storage holds every coordinate of the layout. -/
def valueAt (values : List F32) (layout : Layout) (c : List Nat) : F32 :=
  values.getD (layout.address c) ⟨0⟩

section Exact

variable {tensor : Tensor} {values : List F32} {lead c : List Nat} {width k : Nat}
  {destination : CpuDestination UInt32}

theorem length_slice_rows (hready : destination.Ready) (hdest : destination.shape = lead ++ [k]) :
    destination.slice.length = lead.prod * k := by
  rw [hready.length_slice, hdest, prod_append, prod_singleton]

theorem length_chunk (hready : destination.Ready) (hdest : destination.shape = lead ++ [k]) (hc : Coordinate lead c) :
    ((destination.slice.drop (rowIndex lead c * k)).take k).length = k := by
  have hroom : (rowIndex lead c + 1) * k ≤ lead.prod * k := Nat.mul_le_mul_right k (rowIndex_lt hc)
  rw [Nat.succ_mul] at hroom
  rw [length_take, length_drop, length_slice_rows hready hdest]
  exact Nat.min_eq_left (Nat.le_sub_of_add_le' hroom)

theorem topKIndicesInto_rows (hbuffer : tensor.buffer = .f32 values) (hshape : tensor.layout.shape = lead ++ [width])
    (hwidth : width ≤ 2 ^ 32 - 1) (hready : destination.Ready) (hdest : destination.shape = lead ++ [k])
    (hk : 0 < k) (hle : k ≤ width) :
    topKIndicesInto tensor k destination =
      ((List.range lead.prod).mapM fun row =>
        topKRow values tensor.layout width k row ((destination.slice.drop (row * k)).take k)) >>=
          fun rows => .ok rows.flatten := by
  have hlen := length_slice_rows hready hdest
  have hlast : tensor.layout.shape.getLast? = some width := by rw [hshape, List.getLast?_concat]
  have hfront : ∀ y, (lead ++ [y]).take (tensor.layout.shape.length - 1) = lead := by
    intro y
    rw [hshape, length_append]
    exact take_left' rfl
  have hmatches : ¬(destination.shape.length ≠ tensor.layout.shape.length ∨ destination.shape.getLast? ≠ some k ∨
      destination.shape.take (tensor.layout.shape.length - 1) ≠
        tensor.layout.shape.take (tensor.layout.shape.length - 1)) := by
    rw [hdest, hfront, List.getLast?_concat]
    nth_rewrite 3 [hshape]
    rw [hfront, hshape, length_append, length_append]
    rintro (h | h | h)
    · exact h rfl
    · exact h rfl
    · exact h rfl
  rw [topKIndicesInto, hlast, okOr_some, ok_bind, (rejectIf_ok (u := ())).mpr (by omega), ok_bind, hbuffer]
  dsimp only
  rw [(rejectIf_ok (u := ())).mpr hmatches, ok_bind, CpuDestination.writeCurrent_ready hready, chunksExactMut, hlen,
    Nat.mul_div_cancel _ hk, drop_of_length_le (Nat.le_of_eq hlen)]
  simp only [append_nil]

/-- The order of the elements of the row at `c`: the larger value first. -/
def rowOrder (values : List F32) (layout : Layout) (c : List Nat) : Nat → Nat → Bool :=
  descending fun i => (valueAt values layout (c ++ [i])).place

theorem valueAt_read {layout : Layout} (hfits : layout.Fits values.length) (hc : Coordinate layout.shape c) :
    values[layout.address c]? = some (valueAt values layout c) := by
  have hlt := hfits.address_lt hc
  rw [valueAt, getD_eq_getElem _ _ hlt, List.getElem?_eq_getElem hlt]

theorem coordinate_append (hc : Coordinate lead c) {x : Nat} (hx : x < width) :
    Coordinate (lead ++ [width]) (c ++ [x]) :=
  rel_append hc (.cons hx .nil)

theorem topKRow_exact {layout : Layout} (hfits : layout.Fits values.length) (hshape : layout.shape = lead ++ [width])
    (hwidth : width ≤ 2 ^ 32 - 1) (hc : Coordinate lead c) {indices : List UInt32} (hlen : indices.length = k) :
    ((∃ i < width, (valueAt values layout (c ++ [i])).isNan) →
      topKRow values layout width k (rowIndex lead c) indices = fail "topKIndices: NaN input") ∧
    ((∀ i < width, (valueAt values layout (c ++ [i])).isNan = false) → k ≤ width →
      ∃ row, topKRow values layout width k (rowIndex lead c) indices = .ok row ∧ row.length = k ∧
        row.map UInt32.toNat = ((List.range width).mergeSort (rowOrder values layout c)).take k) := by
  have hv : ∀ i < width, values[rowStart layout (rowIndex lead c) + i * layout.strides.getD (layout.shape.length - 1) 0]? =
      some (valueAt values layout (c ++ [i])) := by
    intro i hi
    rw [rowStart_add hshape hc]
    exact valueAt_read hfits (hshape ▸ coordinate_append hc hi)
  constructor
  · exact fun hnan => insertIndex_nan hwidth hv hnan hlen
  · intro hnan hle
    obtain ⟨row, hrun, hkept⟩ := insertIndex_loop hwidth hv (Nat.le_refl width) hnan hlen
    exact ⟨row, hrun, hkept.1, hkept.eq_mergeSort hle⟩

/-- A row of the output holds the indices of the largest values: the front of the stable descending
sort, in which no index stands before one of a larger value or before a lower one of an equal value. -/
structure HoldsLargest (values : List F32) (layout : Layout) (width k : Nat) (c : List Nat) (row : List Nat) :
    Prop where
  sorted : row = ((List.range width).mergeSort (rowOrder values layout c)).take k
  ordered : row.Pairwise (Before (rowOrder values layout c))
  largest : ∀ i ∈ row, ∀ j < width, j ∉ row → Before (rowOrder values layout c) i j

theorem holdsLargest {layout : Layout} {row : List Nat}
    (h : row = ((List.range width).mergeSort (rowOrder values layout c)).take k) :
    HoldsLargest values layout width k c row := by
  have hordered : ((List.range width).mergeSort (rowOrder values layout c)).Pairwise (Before (rowOrder values layout c)) :=
    mergeSort_ordered descending_trans descending_total width
  rw [← take_append_drop k ((List.range width).mergeSort (rowOrder values layout c)), ← h] at hordered
  obtain ⟨hfront, _, hbehind⟩ := pairwise_append.mp hordered
  refine ⟨h, hfront, fun i hi j hj hout => hbehind i hi j ?_⟩
  have hmem : j ∈ (List.range width).mergeSort (rowOrder values layout c) :=
    mem_mergeSort.mpr (mem_range.mpr hj)
  rw [← take_append_drop k ((List.range width).mergeSort (rowOrder values layout c)), ← h] at hmem
  exact (mem_append.mp hmem).resolve_left hout

/-- A row that is finished holds its largest values, and only a NaN stops a row. -/
theorem topKRow_cases {layout : Layout} (hfits : layout.Fits values.length) (hshape : layout.shape = lead ++ [width])
    (hwidth : width ≤ 2 ^ 32 - 1) (hc : Coordinate lead c) {indices : List UInt32} (hlen : indices.length = k)
    (hle : k ≤ width) :
    ((∃ i < width, (valueAt values layout (c ++ [i])).isNan) ∧
      topKRow values layout width k (rowIndex lead c) indices = fail "topKIndices: NaN input") ∨
    ((∀ i < width, (valueAt values layout (c ++ [i])).isNan = false) ∧
      ∃ row, topKRow values layout width k (rowIndex lead c) indices = .ok row ∧ row.length = k ∧
        HoldsLargest values layout width k c (row.map UInt32.toNat)) := by
  obtain ⟨hstops, hfinishes⟩ := topKRow_exact hfits hshape hwidth hc hlen
  by_cases hnan : ∃ i < width, (valueAt values layout (c ++ [i])).isNan
  · exact .inl ⟨hnan, hstops hnan⟩
  · have hnone : ∀ i < width, (valueAt values layout (c ++ [i])).isNan = false :=
      fun i hi => Bool.eq_false_iff.mpr fun h => hnan ⟨i, hi, h⟩
    obtain ⟨row, hrun, hrow, hsorted⟩ := hfinishes hnone hle
    exact .inr ⟨hnone, row, hrun, hrow, holdsLargest hsorted⟩

/-- Every row receives the indices of its largest values, in order, unless `k` is invalid or a value
is a NaN. -/
theorem topKIndicesInto_exact (hbuffer : tensor.buffer = .f32 values) (hshape : tensor.layout.shape = lead ++ [width])
    (hwidth : width ≤ 2 ^ 32 - 1) (hready : destination.Ready) (hdest : destination.shape = lead ++ [k]) :
    ((∃ out, topKIndicesInto tensor k destination = .ok out) ↔ 0 < k ∧ k ≤ width ∧
      ∀ c, Coordinate tensor.layout.shape c → (valueAt values tensor.layout c).isNan = false) ∧
    (∀ message, topKIndicesInto tensor k destination ≠ .error (.panic message)) ∧
    ∀ out, topKIndicesInto tensor k destination = .ok out → out.length = destination.shape.prod ∧
      ∀ c, Coordinate lead c → HoldsLargest values tensor.layout width k c
        (((out.drop (rowIndex lead c * k)).take k).map UInt32.toNat) := by
  have hfits : tensor.layout.Fits values.length := by
    have h := tensor.fits
    rwa [hbuffer] at h
  by_cases hk : 0 < k ∧ k ≤ width
  · obtain ⟨hpos, hle⟩ := hk
    rw [topKIndicesInto_rows hbuffer hshape hwidth hready hdest hpos hle]
    have hcases := fun c (hc : Coordinate lead c) => topKRow_cases hfits hshape hwidth hc (length_chunk hready hdest hc) hle
    have hnumber : ∀ row ∈ List.range lead.prod, ∃ c, Coordinate lead c ∧ rowIndex lead c = row :=
      fun row hrow => exists_rowIndex (mem_range.mp hrow)
    refine ⟨⟨?_, ?_⟩, ?_, ?_⟩
    · rintro ⟨out, hrun⟩
      obtain ⟨rows, hrows, _⟩ := bind_ok.mp hrun
      refine ⟨hpos, hle, fun c' hc' => Bool.eq_false_iff.mpr fun hnan => ?_⟩
      obtain ⟨c, i, rfl, hc, hi⟩ := coordinate_concat (hshape ▸ hc')
      obtain ⟨row, _, hrow⟩ := mapM_mem_left hrows (mem_range.mpr (rowIndex_lt hc))
      rcases hcases c hc with ⟨_, hstop⟩ | ⟨hnone, _⟩
      · exact nomatch hstop.symm.trans hrow
      · exact Bool.false_ne_true ((hnone i hi).symm.trans hnan)
    · rintro ⟨_, _, hnone⟩
      have hall : ∀ row ∈ List.range lead.prod, ∃ indices, topKRow values tensor.layout width k row
          ((destination.slice.drop (row * k)).take k) = .ok indices := by
        intro row hrow
        obtain ⟨c, hc, rfl⟩ := hnumber row hrow
        rcases hcases c hc with ⟨⟨i, hi, hnan⟩, _⟩ | ⟨_, indices, hrun, _⟩
        · exact absurd ((hnone _ (hshape ▸ coordinate_append hc hi)).symm.trans hnan) Bool.false_ne_true
        · exact ⟨indices, hrun⟩
      obtain ⟨rows, hrows⟩ := mapM_total hall
      exact ⟨rows.flatten, bind_ok.mpr ⟨rows, hrows, rfl⟩⟩
    · intro message hpanic
      rcases bind_error.mp hpanic with hrows | ⟨_, _, hrun⟩
      · obtain ⟨row, hrow, hstop⟩ := mapM_error hrows
        obtain ⟨c, hc, rfl⟩ := hnumber row hrow
        rcases hcases c hc with ⟨_, hnan⟩ | ⟨_, row, hrun, _⟩
        · exact nomatch hnan.symm.trans hstop
        · exact nomatch hrun.symm.trans hstop
      · cases hrun
    · intro out hrun
      obtain ⟨rows, hrows, heq⟩ := bind_ok.mp hrun
      cases heq
      have hheld : ∀ c, Coordinate lead c → ∃ row, rows[rowIndex lead c]? = some row ∧ row.length = k ∧
          HoldsLargest values tensor.layout width k c (row.map UInt32.toNat) := by
        intro c hc
        obtain ⟨row, hget, hrow⟩ := (mapM_ok.mp hrows).2 (rowIndex lead c) _
          (List.getElem?_eq_some_iff.mpr ⟨by rw [length_range]; exact rowIndex_lt hc, getElem_range _⟩)
        rcases hcases c hc with ⟨_, hstop⟩ | ⟨_, row', hrun', hlen, hholds⟩
        · exact nomatch hstop.symm.trans hrow
        · cases hrun'.symm.trans hrow
          exact ⟨row, hget, hlen, hholds⟩
      have hlen : rows.length = lead.prod := by rw [← (mapM_ok.mp hrows).1, length_range]
      have hwidths : ∀ row ∈ rows, row.length = k := by
        intro row hrow
        obtain ⟨i, hi⟩ := mem_iff_getElem?.mp hrow
        obtain ⟨c, hc, rfl⟩ := hnumber i (mem_range.mpr (hlen ▸ (List.getElem?_eq_some_iff.mp hi).1))
        obtain ⟨row', hget, hrow', _⟩ := hheld c hc
        cases hi.symm.trans hget
        exact hrow'
      refine ⟨?_, fun c hc => ?_⟩
      · rw [length_flatten_rows hwidths, hlen, hdest, prod_append, prod_singleton]
      · obtain ⟨row, hget, _, hholds⟩ := hheld c hc
        rwa [take_drop_flatten hwidths hget]
  · have hfail : topKIndicesInto tensor k destination = fail "topKIndices: invalid k or last-axis width" := by
      rw [topKIndicesInto, hshape, List.getLast?_concat, okOr_some, ok_bind, rejectIf, if_pos (by omega)]
      rfl
    rw [hfail]
    exact ⟨⟨nofun, fun h => absurd ⟨h.1, h.2.1⟩ hk⟩, nofun, nofun⟩

/-- One, three and two. -/
def threeValues : Tensor :=
  ⟨.f32 [⟨0x3f800000⟩, ⟨0x40400000⟩, ⟨0x40000000⟩], ⟨[3], [1], 0, rfl⟩, 3, by decide, Nat.le_refl 3⟩

theorem twoIndices_rank : [1].length = [2].length := rfl

def twoIndices : CpuDestination UInt32 := ⟨.u32, ⟨[2], [1], 0, twoIndices_rank⟩, [0, 0]⟩

theorem topKIndicesInto_three :
    (∃ out, topKIndicesInto threeValues 2 twoIndices = .ok out) ∧
      topKIndicesInto threeValues 2 twoIndices = .ok [1, 2] := by
  have hready : twoIndices.Ready := ⟨rfl, by decide, by decide, by decide⟩
  have hshape : threeValues.layout.shape = [] ++ [3] := rfl
  have hwidth : 3 ≤ 2 ^ 32 - 1 := by decide
  have hk : 2 ≤ 3 := by decide
  refine ⟨(topKIndicesInto_exact rfl hshape hwidth hready rfl).1.mpr ⟨by decide, hk, ?_⟩, rfl⟩
  intro c hc
  obtain ⟨cs, x, rfl, hcs, hx⟩ := coordinate_concat (show Coordinate ([] ++ [3]) c from hc)
  obtain rfl := forall₂_nil_right_iff.mp hcs
  match x, hx with
  | 0, _ => decide
  | 1, _ => decide
  | 2, _ => decide

end Exact

end Reduce

end EffectTorch
