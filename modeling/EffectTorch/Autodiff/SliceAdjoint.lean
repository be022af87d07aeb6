import EffectTorch.Graph.ValueOps

/-!
# The adjoint of a slice

Along each axis the cotangent is dilated, and zeros are put in front of it and behind it. It comes
back to the size of the input if nothing is left behind the last position that the range reads.

Results:
1. `Adjoint.slice_ok`: what the rule builds for any cotangent of the shape of the slice.
2. `sliceAdjoint_exact_iff`: when this is a cotangent of the input.
-/

namespace EffectTorch
open Lib Value

namespace Adjoint

/-- The size of an axis with zeros between its elements. -/
def dilatedSize (len stride : Nat) : Nat := if len = 0 then 0 else (len - 1) * stride + 1

/-- The size of an axis of the cotangent that is built, for an input axis of size `n`. -/
def sliceSize (range : Nat × Nat × Nat) (n : Nat) : Nat :=
  range.1 + dilatedSize (count range) range.2.2 + (n - range.2.1)

variable {K : Type} [CommRing K] [Trigonometric K] {cur : Value K} {pre post : List Nat} {len stride : Nat}

theorem dilate_ok (hcur : cur.shape = pre ++ len :: post) (hlen : 0 < len) (hstride : 0 < stride) :
    ∃ v, (dilate cur pre.length stride).interpret denote = .ok v ∧
      cur.Spread (pre ++ ((len - 1) * stride + 1) :: post) (fun c => c.modify pre.length (· * stride)) v := by
  have hcolumns : cur.shape.insertIdx (pre.length + 1) 1 = pre ++ len :: 1 :: post := by
    rw [hcur, insertIdx_axis]
  have hzeros : cur.shape.insertIdx (pre.length + 1) (stride - 1) = (pre ++ [len]) ++ (stride - 1) :: post := by
    rw [hcur, insertIdx_axis, List.append_assoc, List.singleton_append]
  have hwide : cur.shape.set pre.length (len * stride) = pre ++ (len * stride) :: post := by
    rw [hcur, set_axis]
  obtain ⟨column, hcolumn, hspread⟩ := Spread.reshape cur (pre ++ len :: 1 :: post) (by
    rw [hcur, List.prod_append, List.prod_append, List.prod_cons, List.prod_cons, List.prod_cons,
      Nat.one_mul])
  obtain ⟨cat, hcat, hcatSpread⟩ := Spread.concat_zeros _ (d := 1)
    (hspread.shape.trans (by rw [List.append_assoc, List.singleton_append])) hzeros
  rw [List.append_assoc, List.singleton_append, Nat.add_sub_of_le hstride] at hcatSpread
  rw [List.length_append, List.length_singleton] at hcat
  obtain ⟨wide, hwideOk, hwideSpread⟩ := Spread.reshape cat (pre ++ (len * stride) :: post) (by
    rw [hcatSpread.shape, List.prod_append, List.prod_append, List.prod_cons, List.prod_cons,
      List.prod_cons, Nat.mul_assoc])
  -- the elements of `cur` are the first ones of the rows of `cat`
  have hspread : cur.Spread (pre ++ (len * stride) :: post) (fun c => c.modify pre.length (· * stride)) wide := by
    refine ((hspread.trans hcatSpread).trans hwideSpread).congr fun k hk => ?_
    rw [hcur] at hk
    obtain ⟨ci, x, cj, rfl, hi, hx, hj⟩ := coordinate_split.mp hk
    have hrow : unravel (pre ++ len :: 1 :: post) (rowIndex (pre ++ len :: post) (ci ++ x :: cj)) =
        ci ++ x :: 0 :: cj := by
      have hmerge := @rowIndex_merge pre post ci cj len 1 x 0 hi.length_eq
      rw [Nat.mul_one, Nat.mul_one, Nat.add_zero] at hmerge
      rw [← hmerge, unravel_rowIndex (coordinate_mk hi hx (.cons Nat.one_pos hj))]
    show (ci ++ x :: cj).modify pre.length (· * stride) = unravel _ (rowIndex cat.shape (unravel _ (rowIndex cur.shape _)))
    rw [hcur, hrow, hcatSpread.shape, rowIndex_merge hi.length_eq, Nat.add_zero, ← hi.length_eq, modify_axis,
      unravel_rowIndex (coordinate_mk hi (Nat.mul_lt_mul_of_pos_right hx hstride) hj)]
  have hlast : (len - 1) * stride + stride = len * stride := by
    rw [← Nat.succ_mul, Nat.succ_eq_add_one, Nat.sub_add_cancel hlen]
  have hinside : ∀ k, Coordinate cur.shape k → Coordinate (pre ++ ((len - 1) * stride + 1) :: post)
      (k.modify pre.length (· * stride)) := by
    intro k hk
    rw [hcur] at hk
    obtain ⟨ci, x, cj, rfl, hi, hx, hj⟩ := coordinate_split.mp hk
    rw [← hi.length_eq, modify_axis]
    exact coordinate_mk hi (Nat.lt_succ_of_le (Nat.mul_le_mul_right _ (Nat.le_pred_of_lt hx))) hj
  have hlen' : (shapeOf cur).getD pre.length 0 = len := by rw [shapeOf_value, hcur, getD_axis]
  rw [← hcolumns] at hcolumn
  rw [← hwide] at hwideOk
  rw [dilate, hlen', NodeProgram.interpret_bind, shapeOf_value, hcolumn, ok_bind, NodeProgram.interpret_bind,
    NodeProgram.interpret_newNode, dtypeOf_value, deviceOf_value, denote_zeros, ok_bind,
    NodeProgram.interpret_bind, NodeProgram.interpret_newNode, hcat, ok_bind,
    NodeProgram.interpret_bind, hwideOk, ok_bind]
  dsimp only
  split
  · next hkeep =>
    rw [NodeProgram.interpret_newNode]
    exact hspread.trim (Nat.le_of_lt hkeep) hinside
  · next hkeep =>
    -- nothing is cut, so the stride is one
    have hone : (len - 1) * stride + 1 = len * stride :=
      Nat.le_antisymm (hlast ▸ Nat.add_le_add_left hstride _) (Nat.not_lt.mp hkeep)
    rw [hone]
    exact ⟨wide, rfl, hspread⟩

/-- One axis of the cotangent. -/
theorem sliceAxis_ok (start stop n : Nat) (hcur : cur.shape = pre ++ len :: post) (hstride : 0 < stride) :
    ∃ v, (sliceAxis n cur pre.length start stop stride).interpret denote = .ok v ∧
      cur.Spread (pre ++ (start + dilatedSize len stride + (n - stop)) :: post)
        (fun c => c.modify pre.length (start + · * stride)) v := by
  have haligned : ∃ v, (align cur pre.length stride).interpret denote = .ok v ∧
      cur.Spread (pre ++ dilatedSize len stride :: post) (fun c => c.modify pre.length (· * stride)) v := by
    rw [align, shapeOf_value, hcur, getD_axis]
    split
    · next h =>
      rw [dilatedSize, if_neg (Nat.ne_of_gt h.2)]
      exact dilate_ok hcur h.2 hstride
    · next h =>
      refine ⟨cur, rfl, ?_⟩
      rcases Nat.eq_zero_or_pos len with rfl | hlen
      · rw [dilatedSize, if_pos rfl, ← hcur]
        exact (Spread.refl cur).congr fun k hk => absurd hk (not_coordinate (by simp [hcur]))
      · obtain rfl : stride = 1 := not_not.mp fun hne => h ⟨hne, hlen⟩
        rw [dilatedSize, if_neg (Nat.ne_of_gt hlen), Nat.mul_one, Nat.sub_add_cancel hlen, ← hcur]
        exact (Spread.refl cur).congr fun k _ => (congrArg _ (funext Nat.mul_one)).trans (List.modify_id _ _)
  obtain ⟨u, hu, hspread⟩ := haligned
  have hprepended : ∃ v, (prepend u pre.length start).interpret denote = .ok v ∧
      cur.Spread (pre ++ (start + dilatedSize len stride) :: post)
        (fun c => c.modify pre.length (start + · * stride)) v := by
    rw [prepend]
    split
    · obtain ⟨v, hv, hplaced⟩ := Spread.prependZeros hspread.shape start
      exact ⟨v, hv, (hspread.trans hplaced).congr fun k _ => (List.modify_modify_eq _ _ _ _).symm⟩
    · next h =>
      obtain rfl : start = 0 := Nat.eq_zero_of_not_pos h
      simp only [Nat.zero_add]
      exact ⟨u, rfl, hspread⟩
  obtain ⟨v, hv, hplaced⟩ := hprepended
  rw [sliceAxis, NodeProgram.interpret_bind, hu, ok_bind, NodeProgram.interpret_bind, hv, ok_bind, append]
  split
  · obtain ⟨w, hw, happended⟩ := Spread.appendZeros hplaced.shape (n - stop)
    exact ⟨w, hw, hplaced.trans happended⟩
  · next h =>
    rw [Nat.sub_eq_zero_of_le (Nat.not_lt.mp h), Nat.add_zero]
    exact ⟨v, rfl, hplaced⟩

/-- The loop over the ranges, from an axis on. -/
theorem slice_ok (pre before : List Nat) {sizes : List Nat} {ranges : List (Nat × Nat × Nat)}
    (hstride : ∀ range ∈ ranges, 0 < range.2.2) (hsizes : ranges.length = sizes.length)
    (hbefore : before.length = pre.length) (hcur : cur.shape = pre ++ ranges.map count) :
    ∃ v, (slice (before ++ sizes) pre.length ranges cur).interpret denote = .ok v ∧
      cur.Spread (pre ++ List.zipWith sliceSize ranges sizes)
        (fun c => c.take pre.length ++ List.zipWith position ranges (c.drop pre.length)) v := by
  induction ranges generalizing before sizes pre cur with
  | nil =>
    refine ⟨cur, rfl, hcur ▸ (Spread.refl cur).congr fun k hk => ?_⟩
    rw [hcur, List.map_nil, List.append_nil] at hk
    rw [List.take_of_length_le (Nat.le_of_eq hk.length_eq)]
    exact List.append_nil _
  | cons range ranges ih =>
    obtain ⟨n, sizes, rfl⟩ := List.exists_cons_of_length_eq_add_one hsizes.symm
    obtain ⟨start, stop, stride⟩ := range
    obtain ⟨u, hu, hspread⟩ := sliceAxis_ok start stop n hcur (hstride _ List.mem_cons_self)
    have hn : (before ++ n :: sizes).getD pre.length 0 = n := by rw [← hbefore, getD_axis]
    have hshape : u.shape = (pre ++ [sliceSize (start, stop, stride) n]) ++ ranges.map count :=
      hspread.shape.trans (List.append_cons _ _ _)
    have hlen : (pre ++ [sliceSize (start, stop, stride) n]).length = pre.length + 1 := List.length_append
    obtain ⟨v, hv, hrest⟩ := ih (pre ++ [sliceSize (start, stop, stride) n]) (before ++ [n]) (fun range hmem => hstride range (.tail _ hmem))
      (Nat.succ.inj hsizes) (by rw [hlen, List.length_append, hbefore]; rfl) hshape
    rw [hlen, ← List.append_cons] at hv
    rw [hlen, ← List.append_cons] at hrest
    refine ⟨v, ?_, (hspread.trans hrest).congr fun k hk => ?_⟩
    · rw [slice, NodeProgram.interpret_bind, hn, hu]
      exact hv
    · rw [hcur, List.map_cons] at hk
      obtain ⟨ci, x, cj, rfl, hi, hx, hj⟩ := coordinate_split.mp hk
      rw [Function.comp_apply, ← hi.length_eq, modify_axis]
      simp [position, List.take_length_add_append]

/-- An axis comes back to the size of the input. -/
theorem sliceSize_eq {start stop stride n : Nat} (hstart : start ≤ stop) (hstop : stop ≤ n)
    (hstride : 0 < stride) : sliceSize (start, stop, stride) n = n ↔ start = stop ∨ stride ∣ stop - start - 1 := by
  have htotal : start + (stop - start) + (n - stop) = n := by
    rw [Nat.add_sub_of_le hstart, Nat.add_sub_of_le hstop]
  have hsize : sliceSize (start, stop, stride) n = n ↔
      dilatedSize (count (start, stop, stride)) stride = stop - start := by
    show start + _ + (n - stop) = n ↔ _
    constructor
    · intro h
      exact Nat.add_left_cancel (Nat.add_right_cancel (h.trans htotal.symm))
    · intro h
      rw [h, htotal]
  rw [hsize]
  obtain ⟨width, rfl⟩ := Nat.exists_eq_add_of_le hstart
  rw [Nat.add_sub_cancel_left]
  cases width with
  | zero =>
    have hempty : count (start, start + 0, stride) = 0 := by
      rw [count, Nat.add_zero, Nat.sub_self, Nat.zero_add]
      exact Nat.div_eq_of_lt (Nat.sub_lt hstride Nat.one_pos)
    exact iff_of_true (by rw [hempty]; rfl) (.inl rfl)
  | succ last =>
    have hcount : count (start, start + (last + 1), stride) = last / stride + 1 := by
      rw [count, Nat.add_sub_cancel_left, Nat.add_assoc, Nat.add_sub_of_le hstride,
        Nat.add_div_right last hstride]
    rw [hcount, dilatedSize, if_neg (Nat.succ_ne_zero _), Nat.add_sub_cancel, Nat.add_sub_cancel,
      Nat.add_right_cancel_iff, Nat.dvd_iff_div_mul_eq]
    exact ⟨.inr, fun h => h.resolve_left (by omega)⟩

/-- A range of the graph: it is within an axis of size `n`, and it moves. -/
def InRange (range : Nat × Nat × Nat) (n : Nat) : Prop :=
  range.1 ≤ range.2.1 ∧ range.2.1 ≤ n ∧ 0 < range.2.2

theorem InRange.stride_pos {ranges : List (Nat × Nat × Nat)} {sizes : List Nat}
    (hranges : List.Forall₂ InRange ranges sizes) : ∀ range ∈ ranges, 0 < range.2.2 := by
  induction hranges with
  | nil => exact fun _ h => nomatch h
  | cons hrange _ ih => exact List.forall_mem_cons.mpr ⟨hrange.2.2, ih⟩

theorem sliceSizes_eq {ranges : List (Nat × Nat × Nat)} {sizes : List Nat}
    (hranges : List.Forall₂ InRange ranges sizes) : List.zipWith sliceSize ranges sizes = sizes ↔
      ∀ range ∈ ranges, range.1 = range.2.1 ∨ range.2.2 ∣ range.2.1 - range.1 - 1 := by
  induction hranges with
  | nil => exact iff_of_true rfl fun _ h => nomatch h
  | cons hrange _ ih =>
    rw [List.zipWith_cons_cons, List.cons.injEq, ih, List.forall_mem_cons]
    exact and_congr_left' (sliceSize_eq hrange.1 hrange.2.1 hrange.2.2)

/-- `v` has each element of `g` at the position that the slice read, and is zero elsewhere. -/
def SliceCotangent (a : Value K) (ranges : List (Nat × Nat × Nat)) (g v : Value K) : Prop :=
  v.shape = a.shape ∧ Places g.shape a.shape (List.zipWith position ranges) g.data v.data

end Adjoint

variable {K : Type} [CommRing K] [Trigonometric K]

/-- The rule gives a cotangent of the input if and only if each range that is not empty stops next
to the last position that it reads. -/
theorem sliceAdjoint_exact_iff {build : Build} {a g : Value K} {ranges : List (Nat × Nat × Nat)}
    (hranges : List.Forall₂ Adjoint.InRange ranges a.shape)
    (hg : inferMetadata (.slice a ranges) = .ok g.toSignature) :
    (∃ v, (adjoint build (.slice a ranges) g).interpret denote = .ok [(a, v)] ∧
      Adjoint.SliceCotangent a ranges g v) ↔
    ∀ range ∈ ranges, range.1 = range.2.1 ∨ range.2.2 ∣ range.2.1 - range.1 - 1 := by
  have hstride : ∀ range ∈ ranges, 0 < range.2.2 := Adjoint.InRange.stride_pos hranges
  have hgshape : g.shape = ranges.map count := by
    have hoperation := slice_operation hranges.length_eq fun range hmem => Nat.ne_of_gt (hstride range hmem)
    exact (Prod.ext_iff.mp (Except.ok.inj ((inferMetadata_iff.mp hg).1.symm.trans hoperation))).1
  obtain ⟨v, hv, hspread⟩ := Adjoint.slice_ok [] [] hstride hranges.length_eq rfl hgshape
  have hrun : (adjoint build (.slice a ranges) g).interpret denote = .ok [(a, v)] := by
    rw [adjoint, NodeProgram.interpret_bind]
    exact bind_ok.mpr ⟨v, hv, rfl⟩
  have hmove : Places g.shape (List.zipWith Adjoint.sliceSize ranges a.shape)
      (List.zipWith position ranges) g.data v.data :=
    hspread.places.congr (fun _ _ => rfl) fun _ _ => rfl
  rw [← Adjoint.sliceSizes_eq hranges]
  constructor
  · rintro ⟨v', hv', hshape, _⟩
    cases hrun.symm.trans hv'
    exact hspread.shape.symm.trans hshape
  · intro h
    rw [h] at hmove
    exact ⟨v, hrun, hspread.shape.trans h, hmove⟩

/-- A vector of ones. -/
def ones (n : Nat) : Value Int := ⟨⟨[n], .f32, .cpu 0, supported_f32⟩, fun _ => (1, 0)⟩

theorem sliceAdjoint_exact_three : ∃ v,
    (adjoint .wrapping (.slice (ones 3) [(0, 3, 2)]) (ones 2)).interpret denote = .ok [(ones 3, v)] ∧
      Adjoint.SliceCotangent (ones 3) [(0, 3, 2)] (ones 2) v :=
  (sliceAdjoint_exact_iff (.cons ⟨by decide, by decide, by decide⟩ .nil) rfl).mpr (by decide)

/-- The last position of the input is not read, and the cotangent does not have it. -/
theorem sliceAdjoint_four_by_two : List.Forall₂ Adjoint.InRange [(0, 4, 2)] (ones 4).shape ∧
    inferMetadata (.slice (ones 4) [(0, 4, 2)]) = .ok (ones 2).toSignature ∧
    ¬ ∃ v, (adjoint .wrapping (.slice (ones 4) [(0, 4, 2)]) (ones 2)).interpret denote = .ok [(ones 4, v)] ∧
      Adjoint.SliceCotangent (ones 4) [(0, 4, 2)] (ones 2) v := by
  refine ⟨.cons ⟨by decide, by decide, by decide⟩ .nil, rfl, ?_⟩
  rintro ⟨v, hv, hshape, _⟩
  have hrun : ((adjoint .wrapping (.slice (ones 4) [(0, 4, 2)]) (ones 2)).interpret denote).map
      (List.map fun received => received.2.shape) = .ok [[3]] := rfl
  rw [hv] at hrun
  have hthree : v.shape = [3] := (List.cons.inj (Except.ok.inj hrun)).1
  exact absurd (hshape.symm.trans hthree) (by decide)

end EffectTorch
