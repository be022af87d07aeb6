import EffectTorch.Lib.UnitAxes
import Mathlib.Data.List.TakeDrop

/-!
# Strides of fused lanes

`contiguous_strides`, `lane_strides` and `strided_offset` of `compiler/src/ir.rs`. Sizes are counted
without a bound.

Results:
1. `contiguousStrides_eq`: the strides of a contiguous lane are row-major.
2. `laneStrides_iff`: a lane has strides exactly when it broadcasts, and which.
3. `stridedOffset_rowIndex`: an index of the output leads to the element that is broadcast there.
-/

namespace EffectTorch
open List Option Lib

/-! ## Strides -/

/-- `contiguous_strides`: the loop goes from the last dimension but one to the first. -/
def contiguousStrides (shape : List Nat) : List Nat :=
  (List.range (shape.length - 1)).foldr
    (fun d strides => strides.set d (strides.getD (d + 1) 0 * shape.getD (d + 1) 0))
    (List.replicate shape.length 1)

/-- One turn of `lane_strides`. -/
def laneStride (lane out : List Nat) (strides : List Nat) : Nat × Nat → Option (List Nat)
  | (ld, i) =>
    let offset := out.length - lane.length
    if ld = out.getD (offset + i) 0 then some (strides.set (offset + i) ((contiguousStrides lane).getD i 0))
    else if ld = 1 then some (strides.set (offset + i) 0)
    else none

/-- `lane_strides`. -/
def laneStrides (lane out : List Nat) : Option (List Nat) :=
  if out.length < lane.length then none
  else lane.zipIdx.foldlM (laneStride lane out) (List.replicate out.length 0)

/-- `strided_offset`. -/
def stridedOffset (index : Nat) (shape strides : List Nat) : Nat :=
  (odometer (fun dimension => max (shape.getD dimension 0) 1) (strides.getD · 0) (List.range shape.length) 0
    index).1

/-! ## Broadcasting -/

/-- The lane stands against the last dimensions of the output, and each of its dimensions is the one of
the output or repeated along it. -/
def Broadcasts (lane out : List Nat) : Prop :=
  lane.length ≤ out.length ∧ Repeats lane (out.drop (out.length - lane.length))

/-- The coordinate of the lane that is broadcast to a coordinate of the output. -/
def broadcastSource (lane c : List Nat) : List Nat :=
  squash lane (c.drop (c.length - lane.length))

section Strides

variable {lane out shape : List Nat}

theorem length_rowStrides (shape : List Nat) : (rowStrides shape).length = shape.length := by
  rw [rowStrides, length_map, length_range]

theorem getD_rowStrides {d : Nat} (hd : d < shape.length) : (rowStrides shape).getD d 0 = (shape.drop (d + 1)).prod := by
  rw [getD_eq_getElem _ 0 (by rwa [length_rowStrides])]
  simp [rowStrides]

/-- After its last turns, the loop has the strides of the last dimensions. -/
theorem contiguousStrides_turns {k m : Nat} (h : k + m + 1 = shape.length) :
    let strides := (List.range' k m).foldr
      (fun d strides => strides.set d (strides.getD (d + 1) 0 * shape.getD (d + 1) 0)) (List.replicate shape.length 1)
    strides.length = shape.length ∧ ∀ d, k ≤ d → d < shape.length → strides.getD d 0 = (shape.drop (d + 1)).prod := by
  induction m generalizing k with
  | zero =>
    refine ⟨length_replicate, fun d hk hd => ?_⟩
    have hlast : d + 1 = shape.length := by omega
    rw [hlast, drop_length, prod_nil]
    simp [hd]
  | succ m ih =>
    obtain ⟨hlen, hrest⟩ := @ih (k + 1) (by omega)
    rw [List.range'_succ, foldr_cons]
    refine ⟨by rw [length_set, hlen], fun d hk hd => ?_⟩
    rcases Nat.eq_or_lt_of_le hk with rfl | hlt
    · have hnext : k + 1 < shape.length := by omega
      rw [getD_set_self (by rw [hlen]; exact hd), hrest _ (Nat.le_refl _) hnext, drop_eq_getElem_cons hnext, prod_cons,
        getD_eq_getElem _ 0 hnext, Nat.mul_comm]
    · rw [getD_set_ne (Nat.ne_of_lt hlt), hrest d hlt hd]

theorem contiguousStrides_eq (shape : List Nat) : contiguousStrides shape = rowStrides shape := by
  cases hshape : shape with
  | nil => rfl
  | cons width rest =>
    rw [← hshape]
    have hpos : 0 < shape.length := hshape ▸ Nat.succ_pos _
    obtain ⟨hlen, hget⟩ := @contiguousStrides_turns shape 0 (shape.length - 1) (by omega)
    rw [← range_eq_range'] at hlen hget
    refine ext_getElem (by rw [length_rowStrides]; exact hlen) fun d hd hd' => ?_
    rw [length_rowStrides] at hd'
    rw [← getD_eq_getElem _ 0 hd, ← getD_eq_getElem _ 0 (by rwa [length_rowStrides]), getD_rowStrides hd']
    exact hget d (Nat.zero_le d) hd'

/-! ## Lanes -/

/-- The turns over the dimensions from `start` on write the strides of these. -/
theorem laneStride_turns {before rest front back ownBefore own done strides : List Nat} (hlane : lane = before ++ rest)
    (hout : out = front ++ back) (hown : contiguousStrides lane = ownBefore ++ own) (hfront : done.length = front.length)
    (hoffset : out.length - lane.length + before.length = front.length) (hbefore : ownBefore.length = before.length)
    (hback : back.length = rest.length) (hrest : own.length = rest.length) :
    (rest.zipIdx before.length).foldlM (laneStride lane out) (done ++ List.replicate rest.length 0) = some strides ↔
      Repeats rest back ∧ strides = done ++ repeatStrides rest own back := by
  induction rest generalizing before front back ownBefore own done with
  | nil =>
    obtain rfl := length_eq_zero_iff.mp hback
    exact ⟨fun h => ⟨.nil, by cases h; rfl⟩, fun ⟨_, h⟩ => by rw [h]; rfl⟩
  | cons ld rest ih =>
    obtain ⟨od, back, rfl⟩ := exists_cons_of_length_eq_add_one hback
    obtain ⟨stride, own, rfl⟩ := exists_cons_of_length_eq_add_one hrest
    have hod : out.getD (out.length - lane.length + before.length) 0 = od := by
      rw [hoffset, hout]
      simp
    have hstride : (contiguousStrides lane).getD before.length 0 = stride := by
      rw [hown, ← hbefore]
      simp
    have hset : ∀ x, (done ++ List.replicate (rest.length + 1) 0).set (out.length - lane.length + before.length) x =
        (done ++ [x]) ++ List.replicate rest.length 0 := fun x => by
      rw [hoffset, ← hfront, replicate_succ]
      simp
    -- the strides of the dimensions after this one, whatever is written here
    have hnext : ∀ x, ((rest.zipIdx (before.length + 1)).foldlM (laneStride lane out)
        ((done ++ [x]) ++ List.replicate rest.length 0) = some strides ↔
          Repeats rest back ∧ strides = (done ++ [x]) ++ repeatStrides rest own back) := fun x => by
      have h := @ih (before ++ [ld]) (front ++ [od]) back (ownBefore ++ [stride]) own (done ++ [x]) (by simp [hlane])
        (by simp [hout]) (by simp [hown]) (by simp [hfront]) (by simp; omega) (by simp [hbefore]) (Nat.succ.inj hback)
        (Nat.succ.inj hrest)
      rwa [length_append, length_singleton] at h
    have hrepeats : Repeats (ld :: rest) (od :: back) ↔ (ld = od ∨ ld = 1) ∧ Repeats rest back := forall₂_cons
    rw [zipIdx_cons, foldlM_cons, length_cons, laneStride, hod, hstride, hset, hset, hrepeats, repeatStrides]
    by_cases hequal : ld = od
    · have hown : ¬ (ld = 1 ∧ od ≠ 1) := fun h => h.2 (hequal ▸ h.1)
      rw [if_pos hequal, if_neg hown, bind_eq_bind, bind_some, hnext, append_assoc]
      exact ⟨fun h => ⟨⟨.inl hequal, h.1⟩, h.2⟩, fun h => ⟨h.1.2, h.2⟩⟩
    · rw [if_neg hequal]
      by_cases hone : ld = 1
      · rw [if_pos hone, if_pos ⟨hone, fun h => hequal (hone.trans h.symm)⟩, bind_eq_bind, bind_some, hnext,
          append_assoc]
        exact ⟨fun h => ⟨⟨.inr hone, h.1⟩, h.2⟩, fun h => ⟨h.1.2, h.2⟩⟩
      · rw [if_neg hone]
        exact ⟨nofun, fun h => (h.1.1.elim hequal hone).elim⟩

/-- A lane has strides exactly when it broadcasts: none along the dimensions that it lacks. -/
theorem laneStrides_iff {strides : List Nat} : laneStrides lane out = some strides ↔ Broadcasts lane out ∧
    strides = List.replicate (out.length - lane.length) 0 ++
      repeatStrides lane (rowStrides lane) (out.drop (out.length - lane.length)) := by
  unfold laneStrides Broadcasts
  split
  · next hlong => exact ⟨nofun, fun h => absurd h.1.1 (Nat.not_le.mpr hlong)⟩
  · next hshort =>
    have hle := Nat.not_lt.mp hshort
    have hturns := @laneStride_turns lane out [] lane (out.take (out.length - lane.length))
      (out.drop (out.length - lane.length)) [] (rowStrides lane) (List.replicate (out.length - lane.length) 0) strides rfl
      (take_append_drop _ _).symm (contiguousStrides_eq lane) (by simp) (by simp) rfl (by simp; omega)
      (length_rowStrides lane)
    rw [replicate_append_replicate, Nat.sub_add_cancel hle] at hturns
    exact hturns.trans ⟨fun h => ⟨⟨hle, h.1⟩, h.2⟩, fun h => ⟨h.1.2, h.2⟩⟩

theorem length_repeatStrides {s s' ss : List Nat} (h : Repeats s s') (hlen : s.length = ss.length) :
    (repeatStrides s ss s').length = s.length := by
  induction h generalizing ss with
  | nil => rfl
  | cons _ _ ih =>
    obtain ⟨x, ss, rfl⟩ := exists_cons_of_length_eq_add_one hlen.symm
    exact congrArg (· + 1) (ih (Nat.succ.inj hlen))

theorem length_laneStrides {strides : List Nat} (h : laneStrides lane out = some strides) : strides.length = out.length := by
  obtain ⟨⟨hle, hrepeats⟩, rfl⟩ := laneStrides_iff.mp h
  rw [length_append, length_replicate, length_repeatStrides hrepeats (length_rowStrides lane).symm,
    Nat.sub_add_cancel hle]

theorem coordinate_broadcastSource {c : List Nat} (h : Broadcasts lane out) (hc : Coordinate out c) :
    Coordinate lane (broadcastSource lane c) := by
  rw [broadcastSource, hc.length_eq]
  exact coordinate_squash h.2 (forall₂_drop _ hc)

/-- The strides of a lane lead to the element that is broadcast. -/
theorem stridedOffset_rowIndex {strides c : List Nat} (h : laneStrides lane out = some strides) (hc : Coordinate out c) :
    stridedOffset (rowIndex out c) out strides = rowIndex lane (broadcastSource lane c) := by
  rw [stridedOffset, odometer_rowIndex hc (length_laneStrides h), Nat.zero_add]
  obtain ⟨hbroadcasts, rfl⟩ := laneStrides_iff.mp h
  have hdrop : Coordinate (out.drop (out.length - lane.length)) (c.drop (out.length - lane.length)) := forall₂_drop _ hc
  rw [dot_replicate_zero, dot_squash hbroadcasts.2 (length_rowStrides lane).symm hdrop,
    dot_rowStrides (coordinate_squash hbroadcasts.2 hdrop), broadcastSource, hc.length_eq]

end Strides

end EffectTorch
