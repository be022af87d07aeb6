import EffectTorch.Graph.Denote
import EffectTorch.Autodiff.Adjoint

/-!
# Operations on values

What the operations build when their operands fit. Zeros that are concatenated to a value and a
reshape leave its elements as they are, at other coordinates.

Results:
1. `denote_ok`: the value of a node that is accepted.
2. `Spread.appendZeros`, `Spread.prependZeros`: a value with zeros behind it or in front of it along
   an axis.
-/

namespace EffectTorch
open List Lib

variable {K : Type}

@[simp] theorem shapeOf_value (v : Value K) : shapeOf v = v.shape := rfl

@[simp] theorem dtypeOf_value (v : Value K) : dtypeOf v = v.dtype := rfl

@[simp] theorem deviceOf_value (v : Value K) : deviceOf v = v.device := rfl

/-- A value that differs from `a` in shape and elements only. -/
def Value.alike (a : Value K) (shape : List Nat) (data : List Nat → Elem K) : Value K :=
  { a with shape, data }

/-- `v` has the elements of `a` where `move` takes them, and zeros elsewhere. -/
structure Value.Spread [CommRing K] (a : Value K) (target : List Nat) (move : List Nat → List Nat) (v : Value K) :
    Prop where
  shape : v.shape = target
  dtype : v.dtype = a.dtype
  device : v.device = a.device
  places : Places a.shape target move a.data v.data

variable [CommRing K]

namespace Value.Spread

variable {a v w : Value K} {target target' : List Nat} {move next : List Nat → List Nat}

theorem refl (a : Value K) : a.Spread a.shape id a := ⟨rfl, rfl, rfl, .refl _ _⟩

theorem trans (hv : a.Spread target move v) (hw : v.Spread target' next w) :
    a.Spread target' (next ∘ move) w where
  shape := hw.shape
  dtype := hw.dtype.trans hv.dtype
  device := hw.device.trans hv.device
  places := hv.places.trans (hv.shape ▸ hw.places)

theorem congr (hv : a.Spread target move v) (h : ∀ k, Coordinate a.shape k → next k = move k) :
    a.Spread target next v :=
  { hv with places := hv.places.congr h fun _ _ => rfl }

end Value.Spread

/-! ## Nodes of values -/

variable [Trigonometric K]

theorem denote_ok {kind : NodeKind (Value K)} {shape : List Nat} {dtype : DType} {device : Device}
    {data : List Nat → Elem K} (hoperation : Metadata.operation kind = .ok (shape, dtype, device))
    (hdevice : ∀ child ∈ nodeChildren kind, child.device = device) (hsupported : Supported dtype device)
    (hdata : Value.compute kind = .ok data) : denote kind = .ok ⟨⟨shape, dtype, device, hsupported⟩, data⟩ := by
  have hinfer : inferMetadata kind = .ok ⟨shape, dtype, device, hsupported⟩ :=
    inferMetadata_iff.mpr ⟨hoperation, hdevice⟩
  rw [denote, hinfer, ok_bind, hdata]
  rfl

theorem denote_iff {kind : NodeKind (Value K)} {v : Value K} : denote kind = .ok v ↔
    inferMetadata kind = .ok v.toSignature ∧ Value.compute kind = .ok v.data := by
  constructor
  · intro h
    obtain ⟨signature, hinfer, h⟩ := bind_ok.mp h
    obtain ⟨data, hdata, h⟩ := bind_ok.mp h
    cases h
    exact ⟨hinfer, hdata⟩
  · rintro ⟨hinfer, hdata⟩
    exact bind_ok.mpr ⟨_, hinfer, bind_ok.mpr ⟨_, hdata, rfl⟩⟩

theorem denote_zeros (a : Value K) (shape : List Nat) :
    denote (.zeros shape a.dtype a.device) = .ok (a.alike shape fun _ => 0) :=
  denote_ok rfl (by simp [nodeChildren]) a.supported rfl

theorem denote_reshape {a : Value K} {shape : List Nat} (h : a.shape.prod = shape.prod) :
    denote (.reshape a shape) = .ok (a.alike shape (reshaped a.shape shape a.data)) := by
  refine denote_ok ?_ ?_ a.supported rfl
  · rw [Metadata.operation, shapeOf_value, if_neg (not_not.mpr h)]
    rfl
  · simp [nodeChildren]

theorem denote_concat {a b : Value K} {pre post : List Nat} {d e : Nat} (ha : a.shape = pre ++ d :: post)
    (hb : b.shape = pre ++ e :: post) (hdtype : b.dtype = a.dtype) (hdevice : b.device = a.device) :
    denote (.concat a b pre.length) = .ok (a.alike (pre ++ (d + e) :: post) fun c =>
      if c.getD pre.length 0 < d then a.data c
      else b.data (c.set pre.length (c.getD pre.length 0 - d))) := by
  refine denote_ok ?_ ?_ a.supported ?_
  · have hfind : (List.range (shapeOf a).length).find? (fun i => decide (i ≠ pre.length ∧
        (shapeOf a).getD i 0 ≠ (shapeOf b).getD i 0)) = none := by
      refine List.find?_eq_none.mpr fun i _ h => ?_
      obtain ⟨hi, hne⟩ := of_decide_eq_true h
      rw [shapeOf_value, shapeOf_value, ha, hb] at hne
      exact hne (getD_off_axis pre post d e 0 hi)
    have hrank : ¬ (a.shape.length ≠ b.shape.length ∨ a.shape.length ≤ pre.length) := by
      simp [ha, hb]
    rw [Metadata.operation]
    refine bind_ok.mpr ⟨(), rejectIf_ok.mpr (not_not.mpr hdtype.symm), ?_⟩
    refine bind_ok.mpr ⟨(), rejectIf_ok.mpr hrank, ?_⟩
    rw [hfind]
    simp only [shapeOf_value, ha, hb, getD_axis, set_axis]
    rfl
  · simp [nodeChildren, hdevice]
  · rw [Value.compute, ha, getD_axis]

theorem zerosAlong_ok (a : Value K) (dim size : Nat) : (Adjoint.zerosAlong a dim size).interpret denote =
    .ok (a.alike (a.shape.set dim size) fun _ => 0) := by
  rw [Adjoint.zerosAlong, NodeProgram.interpret_newNode]
  exact denote_zeros a _

/-! ## Broadcasting -/

theorem denote_broadcastTo {a : Value K} {shape : List Nat} (hrank : a.shape.length ≤ shape.length)
    (h : Repeats a.shape (shape.drop (shape.length - a.shape.length))) :
    denote (.broadcastTo a shape) = .ok (a.alike shape a.repeated) := by
  have hany : ¬ ((a.shape.zip (shape.drop (shape.length - a.shape.length))).any
      fun p => p.1 ≠ p.2 ∧ p.1 ≠ 1) = true := by
    rw [any_eq_true]
    rintro ⟨⟨d, d'⟩, hmem, hne⟩
    obtain ⟨hne, hone⟩ := of_decide_eq_true hne
    exact ((forall₂_iff_zip.mp h).2 hmem).elim hne hone
  refine denote_ok ?_ (by simp [nodeChildren]) a.supported rfl
  rw [Metadata.operation]
  exact bind_ok.mpr ⟨(), rejectIf_ok.mpr (Nat.not_lt.mpr hrank), bind_ok.mpr ⟨(), rejectIf_ok.mpr hany, rfl⟩⟩

/-- A value with each dimension kept or repeated. -/
theorem broadcastTo_ok {a : Value K} (shape : List Nat) (hrank : a.shape.length ≤ shape.length)
    (h : Repeats a.shape (shape.drop (shape.length - a.shape.length))) :
    ∃ v, (Adjoint.broadcastTo a shape).interpret denote = .ok v ∧ v.shape = shape ∧ v.dtype = a.dtype ∧
      v.device = a.device ∧ ∀ c, Coordinate shape c → v.data c = a.repeated c := by
  by_cases hsame : a.shape = shape
  · refine ⟨a, ?_, hsame, rfl, rfl, fun c hc => ?_⟩
    · rw [Adjoint.broadcastTo, shapeOf_value, if_pos hsame]
      rfl
    · rw [Value.repeated, hsame, ← hc.length_eq, Nat.sub_self, drop_zero, squash_self hc]
  · refine ⟨a.alike shape a.repeated, ?_, rfl, rfl, rfl, fun _ _ => rfl⟩
    rw [Adjoint.broadcastTo, shapeOf_value, if_neg hsame, NodeProgram.interpret_newNode, denote_broadcastTo hrank h]

/-! ## Index operations -/

theorem denote_scatterAdd {a indexes src : Value K} {dim : Nat} (hdim : dim < a.shape.length)
    (hindexes : indexes.dtype = .i64 ∨ indexes.dtype = .u32) (hshape : indexes.shape = src.shape)
    (hdtype : src.dtype = a.dtype) (hdevice : indexes.device = a.device ∧ src.device = a.device) :
    denote (.scatterAdd a dim indexes src) = .ok (a.alike a.shape fun c => a.data c +
      sumOver src.shape fun k => if k.set dim (indexes.index k) = c then src.data k else 0) := by
  refine denote_ok ?_ ?_ a.supported rfl
  · rw [Metadata.operation]
    refine bind_ok.mpr ⟨(), rejectIf_ok.mpr (Nat.not_le.mpr hdim), bind_ok.mpr ⟨(), Metadata.indexDType_ok.mpr hindexes, ?_⟩⟩
    exact bind_ok.mpr ⟨(), rejectIf_ok.mpr (not_not.mpr hshape), bind_ok.mpr ⟨(), rejectIf_ok.mpr (not_not.mpr hdtype), rfl⟩⟩
  · simp [nodeChildren, hdevice]

theorem denote_gather {a indexes : Value K} {dim : Nat} (hdim : dim < a.shape.length)
    (hindexes : indexes.dtype = .i64 ∨ indexes.dtype = .u32) (hfits : Metadata.GatherFits a dim indexes)
    (hdevice : indexes.device = a.device) : denote (.gather a dim indexes) =
      .ok (a.alike indexes.shape fun c => a.data (c.set dim (indexes.index c))) := by
  refine denote_ok (Metadata.gather_ok.mpr ⟨hdim, hindexes, hfits, rfl⟩) ?_ a.supported rfl
  simp [nodeChildren, hdevice]

/-! ## Values among zeros -/

namespace Value.Spread

variable {a : Value K} {pre post : List Nat} {d : Nat}

/-- Zeros behind a value along an axis. -/
theorem concat_zeros (shape : List Nat) {size : Nat} (ha : a.shape = pre ++ d :: post)
    (hz : shape = pre ++ size :: post) :
    ∃ v, denote (.concat a (a.alike shape fun _ => 0) pre.length) = .ok v ∧
      a.Spread (pre ++ (d + size) :: post) id v := by
  rw [denote_concat (b := a.alike shape fun _ => 0) ha hz rfl rfl]
  refine ⟨_, rfl, rfl, rfl, rfl, ?_⟩
  have hplaces : Places (pre ++ d :: post) (pre ++ (d + size) :: post)
      (fun c => c.modify pre.length id) a.data fun c =>
        if c.getD pre.length 0 < d then a.data c else 0 := by
    refine Places.axis (fun x hx => Nat.lt_add_right size hx) ?_ ?_
    · intro ci x cj hi hx _
      show (if (ci ++ x :: cj).getD pre.length 0 < d then a.data (ci ++ x :: cj) else 0) = _
      rw [getD_coordinate hi, if_pos hx]
    · intro ci y cj hi _ _ hne
      rw [getD_coordinate hi, if_neg fun hy => hne y hy rfl]
  rw [ha]
  exact hplaces.congr (fun k _ => (modify_id _ _).symm) fun _ _ => rfl

/-- Zeros in front of a value along an axis. -/
theorem zeros_concat {shape : List Nat} {size : Nat} (ha : a.shape = pre ++ d :: post)
    (hz : shape = pre ++ size :: post) :
    ∃ v, denote (.concat (a.alike shape fun _ => 0) a pre.length) = .ok v ∧
      a.Spread (pre ++ (size + d) :: post) (fun c => c.modify pre.length (size + ·)) v := by
  rw [denote_concat (a := a.alike shape fun _ => 0) hz ha rfl rfl]
  refine ⟨_, rfl, rfl, rfl, rfl, ?_⟩
  have hplaces : Places (pre ++ d :: post) (pre ++ (size + d) :: post)
      (fun c => c.modify pre.length (size + ·)) a.data fun c =>
        if c.getD pre.length 0 < size then 0
        else a.data (c.set pre.length (c.getD pre.length 0 - size)) := by
    refine Places.axis (fun x hx => Nat.add_lt_add_left hx size) ?_ ?_
    · intro ci x cj hi _ _
      rw [getD_coordinate hi, if_neg (Nat.not_lt.mpr (Nat.le_add_right size x)), set_coordinate hi,
        Nat.add_sub_cancel_left]
    · intro ci y cj hi hy _ hne
      rw [getD_coordinate hi]
      refine if_pos (Nat.not_le.mp fun hle => hne (y - size) ?_ (Nat.add_sub_of_le hle))
      exact Nat.sub_lt_left_of_lt_add hle hy
  rw [ha]
  exact hplaces

theorem appendZeros (ha : a.shape = pre ++ d :: post) (size : Nat) :
    ∃ v, (do
      let z ← Adjoint.zerosAlong a pre.length size
      newNode (.concat a z pre.length)).interpret denote = .ok v ∧
      a.Spread (pre ++ (d + size) :: post) id v := by
  rw [NodeProgram.interpret_bind, zerosAlong_ok, ok_bind, NodeProgram.interpret_newNode]
  exact concat_zeros _ ha (by rw [ha, set_axis])

theorem prependZeros (ha : a.shape = pre ++ d :: post) (size : Nat) :
    ∃ v, (do
      let z ← Adjoint.zerosAlong a pre.length size
      newNode (.concat z a pre.length)).interpret denote = .ok v ∧
      a.Spread (pre ++ (size + d) :: post) (fun c => c.modify pre.length (size + ·)) v := by
  rw [NodeProgram.interpret_bind, zerosAlong_ok, ok_bind, NodeProgram.interpret_newNode]
  exact zeros_concat ha (by rw [ha, set_axis])

theorem appendStrip {g : Value K} (pre post : List Nat) (ha : a.shape = pre ++ d :: post) (hdtype : g.dtype = a.dtype)
    (hdevice : g.device = a.device) (size : Nat) :
    ∃ v, (Adjoint.appendStrip g a pre.length size).interpret denote = .ok v ∧
      a.Spread (pre ++ (d + size) :: post) id v := by
  rw [Adjoint.appendStrip]
  split
  · next hzero =>
    rw [hzero, Nat.add_zero, ← ha]
    exact ⟨a, rfl, refl a⟩
  · rw [NodeProgram.interpret_bind, NodeProgram.interpret_newNode, dtypeOf_value, deviceOf_value, hdtype, hdevice,
      denote_zeros, ok_bind, NodeProgram.interpret_newNode]
    exact concat_zeros _ ha (by rw [shapeOf_value, ha, set_axis])

/-- A reshaped value has its elements in the same order. -/
theorem reshape (a : Value K) (shape : List Nat) (h : a.shape.prod = shape.prod) :
    ∃ v, (Adjoint.reshape a shape).interpret denote = .ok v ∧
      a.Spread shape (fun k => unravel shape (rowIndex a.shape k)) v := by
  by_cases hsame : a.shape = shape
  · subst hsame
    refine ⟨a, ?_, (refl a).congr fun k hk => unravel_rowIndex hk⟩
    rw [Adjoint.reshape, shapeOf_value, if_pos rfl]
    rfl
  · refine ⟨a.alike shape (reshaped a.shape shape a.data), ?_, rfl, rfl, rfl,
      Places.of_reshaped h fun k hk => ?_⟩
    · rw [Adjoint.reshape, shapeOf_value, if_neg hsame, NodeProgram.interpret_newNode, denote_reshape h]
    · exact rowIndex_unravel (h ▸ rowIndex_lt hk)

end Value.Spread

/-! ## Slices of values -/

section Slices

open Value

/-- The position that a range reads for an index. -/
def Value.position (range : Nat × Nat × Nat) (x : Nat) : Nat := range.1 + x * range.2.2

/-- The number of positions of a range. -/
def Value.count (range : Nat × Nat × Nat) : Nat :=
  (range.2.1 - range.1 + (range.2.2 - 1)) / range.2.2

omit [CommRing K] [Trigonometric K] in
theorem slice_operation {a : Value K} {ranges : List (Nat × Nat × Nat)}
    (hrank : ranges.length = a.shape.length) (hstride : ∀ range ∈ ranges, range.2.2 ≠ 0) :
    Metadata.operation (.slice a ranges) = .ok (ranges.map count, a.dtype, a.device) := by
  rw [Metadata.operation]
  refine bind_ok.mpr ⟨(), rejectIf_ok.mpr (not_not.mpr hrank), bind_ok.mpr ⟨ranges.map count, ?_, rfl⟩⟩
  refine mapM_forall₂.mpr (forall₂_map_right_iff.mpr (forall₂_same.mpr fun range hmem => ?_))
  exact if_neg (hstride range hmem)

theorem denote_slice {a : Value K} {ranges : List (Nat × Nat × Nat)}
    (hrank : ranges.length = a.shape.length) (hstride : ∀ range ∈ ranges, range.2.2 ≠ 0) :
    denote (.slice a ranges) = .ok (a.alike (ranges.map count) fun c =>
      a.data (List.zipWith position ranges c)) :=
  denote_ok (slice_operation hrank hstride) (by simp [nodeChildren]) a.supported rfl

/-- A slice that cuts one axis. -/
theorem Value.Spread.trim {a v : Value K} {pre post : List Nat} {d keep : Nat}
    {move : List Nat → List Nat} (hv : a.Spread (pre ++ d :: post) move v) (hkeep : keep ≤ d)
    (hinside : ∀ k, Coordinate a.shape k → Coordinate (pre ++ keep :: post) (move k)) :
    ∃ w, denote (.slice v ((v.shape.map fun size => (0, size, 1)).set pre.length (0, keep, 1))) = .ok w ∧
      a.Spread (pre ++ keep :: post) move w := by
  have hranges : (v.shape.map fun size => (0, size, 1)).set pre.length (0, keep, 1) =
      (pre ++ keep :: post).map fun size => (0, size, 1) := by
    rw [hv.shape, map_append, map_cons, map_append, map_cons,
      ← length_map fun size => (0, size, 1), set_axis]
  have hcount : ((pre ++ keep :: post).map fun size => (0, size, 1)).map count = pre ++ keep :: post := by
    rw [map_map]
    exact (map_congr_left fun size _ => Nat.div_one size).trans (map_id _)
  have hposition : ∀ shape c : List Nat, Coordinate shape c →
      List.zipWith position (shape.map fun size => (0, size, 1)) c = c := by
    intro shape c hc
    induction hc with
    | nil => rfl
    | cons _ _ ih => rw [map_cons, zipWith_cons_cons, ih, position, Nat.zero_add, Nat.mul_one]
  rw [hranges, denote_slice (by rw [length_map, hv.shape]; simp) fun range hmem => by
    obtain ⟨_, _, rfl⟩ := mem_map.mp hmem
    exact Nat.one_ne_zero]
  refine ⟨_, rfl, hcount, hv.dtype, hv.device, ?_⟩
  rw [hcount]
  refine hv.places.restrict hinside fun c hc => ⟨?_, congrArg v.data (hposition _ c hc)⟩
  obtain ⟨ci, x, cj, rfl, hi, hx, hj⟩ := coordinate_split.mp hc
  exact coordinate_mk hi (Nat.lt_of_lt_of_le hx hkeep) hj

end Slices

end EffectTorch
