import EffectTorch.Cpu.ScatterExact
import EffectTorch.Lib.Fill

/-!
# What `cat` computes

`cat` writes the elements of each tensor past those of the tensors before it along the dimension, in a
blocked pass for each tensor.

Results:
1. `catAt_append`: the tensors before an element of the concatenation are skipped.
2. `catTensors_fills`: the passes fill the cells of their tensors.
3. `catInto_exact`: `cat` is exact.
4. `indexing_exact_iff`: when the four operations are exact.
-/

namespace EffectTorch
open List Option Lib

variable {T : Type}

/-! ## Concatenations -/

/-- The extent along the dimension. -/
def TypedTensor.extent (t : TypedTensor T) (dim : Nat) : Nat := t.shape.getD dim 0

/-- The tensors have the shape of the first off the dimension, and the output has their extents together. -/
structure Stacks (pre post : List Nat) (dim : Nat) (tensors : List (TypedTensor T)) (outShape : List Nat) : Prop where
  axis : pre.length = dim
  shape : ∀ t ∈ tensors, t.shape = pre ++ t.extent dim :: post
  output : outShape = pre ++ (tensors.map (·.extent dim)).sum :: post

/-- The output of `cat`: its elements are those of the tensors, each past the tensors before its own. -/
def Concatenates (tensors : List (TypedTensor T)) (dim : Nat) (outShape : List Nat) (out : List T) : Prop :=
  out.length = outShape.prod ∧
  (∀ before t after c, tensors = before ++ t :: after → Coordinate t.shape c →
    Coordinate outShape (c.set dim ((before.map (·.extent dim)).sum + c.getD dim 0)) ∧ (t.at? c).isSome ∧
    out[rowIndex outShape (c.set dim ((before.map (·.extent dim)).sum + c.getD dim 0))]? = t.at? c) ∧
  ∀ o, Coordinate outShape o → ∃ before t after c, tensors = before ++ t :: after ∧ Coordinate t.shape c ∧
    o = c.set dim ((before.map (·.extent dim)).sum + c.getD dim 0)

/-- The element of the concatenation at a coordinate: of the first tensor that reaches it. -/
def catAt (dim : Nat) : List (TypedTensor T) → List Nat → Option T
  | [], _ => none
  | t :: tensors, c =>
    if c.getD dim 0 < t.extent dim then t.at? c else catAt dim tensors (c.set dim (c.getD dim 0 - t.extent dim))

section Stacks

variable {pre post ci cj : List Nat} {dim x : Nat} {tensors before after : List (TypedTensor T)}
  {t : TypedTensor T}

/-- The tensors before an element are skipped. -/
theorem catAt_append (hi : Coordinate pre ci) :
    catAt pre.length (before ++ after) (ci ++ ((before.map (·.extent pre.length)).sum + x) :: cj) =
      catAt pre.length after (ci ++ x :: cj) := by
  induction before with
  | nil => rw [nil_append, map_nil, sum_nil, Nat.zero_add]
  | cons t before ih =>
    rw [cons_append, catAt, map_cons, sum_cons, Nat.add_assoc, getD_coordinate hi,
      if_neg (Nat.not_lt.mpr (Nat.le_add_right _ _)), set_coordinate hi, Nat.add_sub_cancel_left, ih]

theorem catAt_middle (hi : Coordinate pre ci) (hx : x < t.extent pre.length) :
    catAt pre.length (before ++ t :: after) (ci ++ ((before.map (·.extent pre.length)).sum + x) :: cj) =
      t.at? (ci ++ x :: cj) := by
  rw [catAt_append hi, catAt, getD_coordinate hi, if_pos hx]

/-- Each component below the concatenated extent is that of one tensor, past those before it. -/
theorem exists_tensor (hx : x < (tensors.map (·.extent dim)).sum) : ∃ before t after y, tensors = before ++ t :: after ∧
    y < t.extent dim ∧ x = (before.map (·.extent dim)).sum + y := by
  induction tensors generalizing x with
  | nil => cases hx
  | cons t tensors ih =>
    rw [map_cons, sum_cons] at hx
    by_cases hlt : x < t.extent dim
    · exact ⟨[], t, tensors, x, rfl, hlt, (Nat.zero_add x).symm⟩
    · have hle := Nat.not_lt.mp hlt
      obtain ⟨before, t', after, y, rfl, hy, hrest⟩ := ih (Nat.sub_lt_left_of_lt_add hle hx)
      refine ⟨t :: before, t', after, y, rfl, hy, ?_⟩
      rw [map_cons, sum_cons, Nat.add_assoc, ← hrest, Nat.add_sub_cancel' hle]

/-- A tensor ends within the concatenation. -/
theorem lt_total (htensors : tensors = before ++ t :: after) (hx : x < t.extent dim) :
    (before.map (·.extent dim)).sum + x < (tensors.map (·.extent dim)).sum := by
  rw [htensors, map_append, sum_append, map_cons, sum_cons]
  exact Nat.add_lt_add_left (Nat.lt_of_lt_of_le hx (Nat.le_add_right _ _)) _

end Stacks

/-! ## The passes -/

/-- The elements of an output. -/
def element? (output : List T) (linear : Nat) : Option (Option T) := output[linear]?.map some

/-- One element is copied. -/
theorem fills_copy {value : Nat → Option T} {source : Fallible String T} {v : T} {linear : Nat} (hsource : source = .ok v)
    (hvalue : value linear = some v) :
    Fills element? value (· = linear) fun output => source >>= fun v => (writeAt output linear v : Fallible String (List T)) := by
  intro output hcells
  have hlt : linear < output.length := by simpa [element?] using hcells linear rfl
  refine ⟨output.set linear v, by rw [hsource]; exact writeAt_of_lt hlt v, ?_, fun i hi => ?_⟩
  · rintro _ rfl
    rw [element?, List.getElem?_set_self hlt, hvalue]
    rfl
  · rw [element?, List.getElem?_set_ne (Ne.symm hi)]
    rfl

section Passes

variable {pre post outShape : List Nat} {dim : Nat} {tensors before after : List (TypedTensor T)}
  {t : TypedTensor T}

/-- Where a tensor with `offset` elements before it along the dimension is written. -/
def Cells (outShape : List Nat) (dim offset : Nat) (t : TypedTensor T) (linear : Nat) : Prop :=
  ∃ c, Coordinate t.shape c ∧ linear = rowIndex outShape (c.set dim (offset + c.getD dim 0))

/-- The pass over a tensor fills its cells. -/
theorem catTensor_fills (hstacks : Stacks pre post dim tensors outShape) (htensors : tensors = before ++ t :: after) :
    Fills element? (fun linear => catAt dim tensors (unravel outShape linear))
      (Cells outShape dim (before.map (·.extent dim)).sum t)
      (catTensor outShape dim (before.map (·.extent dim)).sum t) := by
  obtain ⟨rfl, hshape, hout⟩ := hstacks
  have ht := hshape t (htensors ▸ mem_append_right _ mem_cons_self)
  have hlinear : ∀ (d x : Nat) (ci cj : List Nat), Coordinate pre ci → Coordinate post cj →
      rowIndex (pre ++ d :: post) (ci ++ x :: cj) = (rowIndex pre ci * d + x) * post.prod + rowIndex post cj := by
    intro d x ci cj hi hj
    rw [rowIndex_append hi.length_eq, rowIndex_cons, prod_cons, ← Nat.mul_assoc, Nat.add_mul, Nat.add_assoc]
  have hturn : ∀ ci x cj, Coordinate pre ci → x < t.extent pre.length → Coordinate post cj →
      Fills element? (fun linear => catAt pre.length tensors (unravel outShape linear))
        (· = rowIndex outShape (ci ++ ((before.map (·.extent pre.length)).sum + x) :: cj)) fun output =>
        readAt t.values (t.layout.sourceIndex (rowIndex t.shape (ci ++ x :: cj))) >>= fun v =>
          (writeAt output (rowIndex outShape (ci ++ ((before.map (·.extent pre.length)).sum + x) :: cj)) v :
            Fallible String (List T)) := by
    intro ci x cj hi hx hj
    have hc : Coordinate t.shape (ci ++ x :: cj) := by
      rw [ht]
      exact coordinate_mk hi hx hj
    obtain ⟨v, hv⟩ := t.exists_at hc
    refine fills_copy (t.readAt_source hc hv) ?_
    have hwritten : Coordinate outShape (ci ++ ((before.map (·.extent pre.length)).sum + x) :: cj) := by
      rw [hout]
      exact coordinate_mk hi (lt_total htensors hx) hj
    rw [unravel_rowIndex hwritten, htensors, catAt_middle hi hx, hv]
  have houter : (outShape.take pre.length).prod = pre.prod := by rw [hout, take_left]
  have hinner : (outShape.drop (pre.length + 1)).prod = post.prod := by rw [hout, drop_length_add_append, drop_one]; rfl
  have hwidth : outShape.getD pre.length 0 = (tensors.map (·.extent pre.length)).sum := by rw [hout, getD_axis]
  have hloops : Fills element? (fun linear => catAt pre.length tensors (unravel outShape linear))
      (fun linear => ∃ i ∈ List.range pre.prod, ∃ x ∈ List.range (t.extent pre.length), ∃ j ∈ List.range post.prod,
        linear = rowIndex outShape (unravel pre i ++ ((before.map (·.extent pre.length)).sum + x) :: unravel post j))
      (catTensor outShape pre.length (before.map (·.extent pre.length)).sum t) := by
    unfold catTensor
    rw [houter, hinner, hwidth]
    refine Fills.loop fun i hi => Fills.loop fun x hx => Fills.loop fun j hj => ?_
    obtain ⟨hi, hrowi⟩ := rowIndex_unravel (mem_range.mp hi)
    obtain ⟨hj, hrowj⟩ := rowIndex_unravel (mem_range.mp hj)
    have h := hturn _ _ _ hi (mem_range.mp hx) hj
    have hsource := hlinear (t.extent pre.length) x _ _ hi hj
    have htarget := hlinear (tensors.map (·.extent pre.length)).sum ((before.map (·.extent pre.length)).sum + x) _ _ hi hj
    rw [← ht, hrowi, hrowj] at hsource
    rw [← hout, hrowi, hrowj, ← Nat.add_assoc] at htarget
    rw [hsource] at h
    dsimp only
    rw [← htarget]
    exact h
  refine hloops.congr fun linear => ⟨?_, ?_⟩
  · rintro ⟨i, hi, x, hx, j, hj, rfl⟩
    have hi := (rowIndex_unravel (mem_range.mp hi)).1
    refine ⟨unravel pre i ++ x :: unravel post j, ?_, by rw [getD_coordinate hi, set_coordinate hi]⟩
    rw [ht]
    exact coordinate_mk hi (mem_range.mp hx) (rowIndex_unravel (mem_range.mp hj)).1
  · rintro ⟨c, hc, rfl⟩
    rw [ht] at hc
    obtain ⟨ci, x, cj, rfl, hi, hx, hj⟩ := coordinate_split.mp hc
    refine ⟨rowIndex pre ci, mem_range.mpr (rowIndex_lt hi), x, mem_range.mpr hx, rowIndex post cj,
      mem_range.mpr (rowIndex_lt hj), ?_⟩
    rw [getD_coordinate hi, set_coordinate hi, unravel_rowIndex hi, unravel_rowIndex hj]

/-- The passes over the last tensors fill the cells of each. -/
theorem catTensors_fills (hstacks : Stacks pre post dim tensors outShape) (htensors : tensors = before ++ after) :
    Fills element? (fun linear => catAt dim tensors (unravel outShape linear))
      (fun linear => ∃ mid t rest, after = mid ++ t :: rest ∧
        Cells outShape dim ((before ++ mid).map (·.extent dim)).sum t linear)
      (catTensors outShape dim (before.map (·.extent dim)).sum after) := by
  induction after generalizing before with
  | nil => exact Fills.nothing.congr fun linear => ⟨False.elim, fun ⟨mid, t, rest, h, _⟩ => by cases mid <;> cases h⟩
  | cons t after ih =>
    have hrest := @ih (before ++ [t]) (by rw [htensors, append_assoc]; rfl)
    have hoffset : ((before ++ [t]).map (·.extent dim)).sum = (before.map (·.extent dim)).sum + t.shape.getD dim 0 := by
      rw [map_append, sum_append]
      rfl
    rw [hoffset] at hrest
    refine ((catTensor_fills hstacks htensors).bind hrest).congr fun linear => ⟨?_, ?_⟩
    · rintro (hcell | ⟨mid, t', rest, rfl, hcell⟩)
      · exact ⟨[], t, after, rfl, by rwa [append_nil]⟩
      · exact ⟨t :: mid, t', rest, rfl, by rwa [append_assoc] at hcell⟩
    · rintro ⟨mid, t', rest, heq, hcell⟩
      cases mid with
      | nil =>
        cases heq
        rw [append_nil] at hcell
        exact .inl hcell
      | cons _ mid =>
        cases heq
        exact .inr ⟨mid, t', rest, rfl, by rwa [append_assoc]⟩

/-- The loop over all tensors computes their concatenation. -/
theorem catTensors_concatenates (hstacks : Stacks pre post dim tensors outShape) {output : List T}
    (hlength : output.length = outShape.prod) :
    ∃ out, catTensors outShape dim 0 tensors output = .ok out ∧ Concatenates tensors dim outShape out := by
  have hfills := catTensors_fills hstacks (nil_append tensors).symm
  obtain ⟨rfl, hshape, hout⟩ := hstacks
  have hcover : ∀ before t after c, tensors = before ++ t :: after → Coordinate t.shape c →
      Coordinate outShape (c.set pre.length ((before.map (·.extent pre.length)).sum + c.getD pre.length 0)) ∧
        catAt pre.length tensors (c.set pre.length ((before.map (·.extent pre.length)).sum + c.getD pre.length 0)) = t.at? c := by
    intro before t after c htensors hc
    rw [hshape t (htensors ▸ mem_append_right _ mem_cons_self)] at hc
    obtain ⟨ci, x, cj, rfl, hi, hx, hj⟩ := coordinate_split.mp hc
    rw [getD_coordinate hi, set_coordinate hi]
    refine ⟨?_, htensors ▸ catAt_middle hi hx⟩
    rw [hout]
    exact coordinate_mk hi (lt_total htensors hx) hj
  have hcells : ∀ linear, (∃ mid t rest, tensors = mid ++ t :: rest ∧
      Cells outShape pre.length (([] ++ mid).map (·.extent pre.length)).sum t linear) → (element? output linear).isSome := by
    rintro _ ⟨mid, t, rest, htensors, c, hc, rfl⟩
    have hlt := rowIndex_lt (hcover mid t rest c htensors hc).1
    rw [← hlength] at hlt
    rw [element?, nil_append, List.getElem?_eq_getElem hlt]
    rfl
  obtain ⟨out, hrun, hin, -⟩ := hfills output hcells
  refine ⟨out, hrun, ?_, fun before t after c htensors hc => ?_, fun o ho => ?_⟩
  · refine (hfills.length_eq (fun s n => ?_) hcells hrun).trans hlength
    rw [element?, isSome_map]
    exact Iff.of_eq (isSome_getElem? s n)
  · obtain ⟨hwritten, hvalue⟩ := hcover before t after c htensors hc
    obtain ⟨v, hv⟩ := t.exists_at hc
    have hcell := hin _ ⟨before, t, after, htensors, c, hc, rfl⟩
    dsimp only at hcell
    rw [nil_append, unravel_rowIndex hwritten, hvalue, hv] at hcell
    obtain ⟨v', hv', heq⟩ := map_eq_some_iff.mp hcell
    rw [hv', some.inj heq, hv]
    exact ⟨hwritten, rfl, rfl⟩
  · rw [hout] at ho
    obtain ⟨ci, x, cj, rfl, hi, hx, hj⟩ := coordinate_split.mp ho
    obtain ⟨before, t, after, y, htensors, hy, rfl⟩ := exists_tensor hx
    refine ⟨before, t, after, ci ++ y :: cj, htensors, ?_, by rw [getD_coordinate hi, set_coordinate hi]⟩
    rw [hshape t (htensors ▸ mem_append_right _ mem_cons_self)]
    exact coordinate_mk hi hy hj

end Passes

/-! ## `cat` -/

section Cat

variable {tensors : List (TypedTensor T)} {dim : Nat}

/-- The shapes are equal off the dimension. -/
def Alike (first : List Nat) (dim : Nat) (t : TypedTensor T) : Prop :=
  t.shape.length = first.length ∧ ∀ d < first.length, d ≠ dim → t.shape.getD d 0 = first.getD d 0

/-- A loop whose turns check an element and then add to the state. -/
theorem foldlM_guarded {α β σ φ : Type} {step : σ → α → Except φ σ} {add : σ → β → Option σ} {g : α → β} {P : α → Prop}
    (hstep : ∀ s a s', step s a = .ok s' ↔ add s (g a) = some s' ∧ P a) {l : List α} {s s' : σ} :
    l.foldlM step s = .ok s' ↔ (l.map g).foldlM add s = some s' ∧ ∀ a ∈ l, P a := by
  induction l generalizing s with
  | nil => exact ⟨fun h => ⟨congrArg some (Except.ok.inj h), nofun⟩, fun h => congrArg Except.ok (some.inj h.1)⟩
  | cons a l ih =>
    rw [foldlM_cons, map_cons, foldlM_cons, forall_mem_cons]
    constructor
    · intro h
      obtain ⟨next, hturn, h⟩ := bind_ok.mp h
      obtain ⟨hadd, ha⟩ := (hstep s a next).mp hturn
      obtain ⟨hrest, hall⟩ := ih.mp h
      exact ⟨bind_eq_some_iff.mpr ⟨next, hadd, hrest⟩, ha, hall⟩
    · rintro ⟨hadds, ha, hall⟩
      obtain ⟨next, hadd, hrest⟩ := bind_eq_some_iff.mp hadds
      exact bind_ok.mpr ⟨next, (hstep s a next).mpr ⟨hadd, ha⟩, ih.mpr ⟨hrest, hall⟩⟩

/-- The extents add up, and the tensors have the shape of the first off the dimension. -/
theorem catExtent_ok {first : List Nat} {rankMessage : Nat → String} {n : Nat} :
    catExtent first dim tensors rankMessage = .ok n ↔
      (tensors.map (·.extent dim)).foldlM checkedAdd 0 = some n ∧ ∀ t ∈ tensors, Alike first dim t := by
  refine foldlM_guarded fun s t s' => ?_
  have hshape : (List.range first.length).foldlM (fun _ dimension =>
      rejectIf (dimension ≠ dim ∧ t.shape.getD dimension 0 ≠ first.getD dimension 0)
        ("cat: shape mismatch at dimension " ++ toString dimension)) () = (.ok () : Fallible String Unit) ↔
      ∀ d < first.length, d ≠ dim → t.shape.getD d 0 = first.getD d 0 := by
    refine foldlM_check.trans ⟨fun h d hd hne => ?_, fun h d hd => rejectIf_ok.mpr fun ⟨hne, hdiffer⟩ => ?_⟩
    · exact not_not.mp fun hdiffer => rejectIf_ok.mp (h d (mem_range.mpr hd)) ⟨hne, hdiffer⟩
    · exact hdiffer (h d (mem_range.mp hd) hne)
  constructor
  · intro h
    obtain ⟨_, hrank, h⟩ := bind_ok.mp h
    obtain ⟨_, hextents, hadd⟩ := bind_ok.mp h
    exact ⟨okOr_ok.mp hadd, not_not.mp (rejectIf_ok.mp hrank), hshape.mp hextents⟩
  · rintro ⟨hadd, hrank, hextents⟩
    exact bind_ok.mpr ⟨(), rejectIf_ok.mpr (not_not_intro hrank), bind_ok.mpr
      ⟨(), hshape.mpr hextents, okOr_ok.mpr hadd⟩⟩

theorem foldlM_checkedAdd_sum {l : List Nat} {start n : Nat} (h : l.foldlM checkedAdd start = some n) : n = start + l.sum := by
  induction l generalizing start with
  | nil => exact (some.inj h).symm
  | cons a l ih =>
    obtain ⟨next, hadd, h⟩ := bind_eq_some_iff.mp h
    rw [ih h, (checkedAdd_some.mp hadd).2, sum_cons, Nat.add_assoc]

/-- The tensors that the requirements accept stack along the dimension. -/
theorem stacks_of_alike {first : List Nat} (hdim : dim < first.length) (halike : ∀ t ∈ tensors, Alike first dim t) :
    ∃ pre post, Stacks pre post dim tensors (first.set dim (tensors.map (·.extent dim)).sum) := by
  obtain ⟨pre, d, post, rfl, rfl⟩ := exists_axis hdim
  refine ⟨pre, post, rfl, fun t ht => ?_, set_axis pre post d _⟩
  obtain ⟨hrank, hextents⟩ := halike t ht
  rw [← set_axis pre post d]
  refine ext_getElem (by rw [hrank, length_set]) fun i hi hi' => ?_
  rw [length_set] at hi'
  rw [← getD_eq_getElem _ 0 hi, ← getD_eq_getElem _ 0]
  by_cases heq : pre.length = i
  · rw [← heq, getD_set_self hdim, TypedTensor.extent]
  · rw [getD_set_ne heq, hextents i hi' (Ne.symm heq)]

variable [CpuElem T] {destination : CpuDestination T}

theorem catRequirements_ok {r : IndexingRequirements} (h : catRequirements tensors dim = .ok r) :
    ∃ first, tensors.head? = some first ∧ dim < first.shape.length ∧ (∀ t ∈ tensors, Alike first.shape dim t) ∧
      (tensors.map (·.extent dim)).foldlM checkedAdd 0 = some (tensors.map (·.extent dim)).sum ∧
      r.output.shape = first.shape.set dim (tensors.map (·.extent dim)).sum := by
  obtain ⟨first, hfirst, h⟩ := bind_ok.mp h
  obtain ⟨_, hdim, h⟩ := bind_ok.mp h
  obtain ⟨n, hextent, h⟩ := bind_ok.mp h
  obtain ⟨output, houtput, hr⟩ := bind_ok.mp h
  obtain ⟨hsum, halike⟩ := catExtent_ok.mp hextent
  obtain rfl := (foldlM_checkedAdd_sum hsum).trans (Nat.zero_add _)
  exact ⟨first, okOr_ok.mp hfirst, Nat.not_le.mp (rejectIf_ok.mp hdim), halike, hsum,
    (Except.ok.inj hr) ▸ checkedRequirement_ok houtput⟩

/-- `cat` is exact. -/
theorem catInto_exact {r : IndexingRequirements} (h : catRequirements tensors dim = .ok r) (hready : destination.Ready)
    (hshape : destination.shape = r.output.shape) :
    ∃ out, catInto tensors dim destination = .ok out ∧ Concatenates tensors dim r.output.shape out := by
  obtain ⟨first, hfirst, hdim, halike, hsum, houtput⟩ := catRequirements_ok h
  obtain ⟨pre, post, hstacks⟩ := stacks_of_alike hdim halike
  rw [← houtput, ← hshape] at hstacks
  have hbound : validateDimension first.shape dim "cat" = .ok () := rejectIf_ok.mpr (Nat.not_le.mpr hdim)
  have hrank : ¬ destination.shape.length ≠ first.shape.length :=
    not_not_intro (by rw [hshape, houtput, length_set])
  have hextents : (List.range first.shape.length).foldlM (fun _ dimension =>
      let expected := if dimension = dim then (tensors.map (·.extent dim)).sum else first.shape.getD dimension 0
      rejectIf (destination.shape.getD dimension 0 ≠ expected) ("cat destination shape mismatch at dimension " ++
        toString dimension ++ ": expected " ++ toString expected ++ ", got " ++
        toString (destination.shape.getD dimension 0))) () = (.ok () : Fallible String Unit) := by
    refine foldlM_check.mpr fun d hd => rejectIf_ok.mpr (not_not_intro ?_)
    rw [hshape, houtput]
    by_cases heq : d = dim
    · rw [if_pos heq, heq, getD_set_self hdim]
    · rw [if_neg heq, getD_set_ne (Ne.symm heq)]
  obtain ⟨out, hrun, hout⟩ := catTensors_concatenates hstacks (hready.length_slice)
  refine ⟨out, ?_, hshape ▸ hout⟩
  rw [catInto, okOr_ok.mpr hfirst, ok_bind, hbound, ok_bind, rejectIf, if_neg hrank, ok_bind,
    catExtent_ok.mpr ⟨hsum, halike⟩, ok_bind, hextents, ok_bind, CpuDestination.writeCurrent_ready hready, hrun]

end Cat

/-! ## The four operations -/

/-- The four operations are exact for what their requirements accept, up to what `index_select` and `scatter_add` leave out. -/
theorem indexing_exact_iff [CpuElem T] [Add T] (tensor src : TypedTensor T) (ids : Tensor) (tensors : List (TypedTensor T))
    (dim : Nat) {destination : CpuDestination T} (hready : destination.Ready) {r : IndexingRequirements}
    (hshape : destination.shape = r.output.shape) :
    (gatherRequirements tensor dim ids = .ok r →
      Exact (BadIndex ids (tensor.shape.getD dim 0)) (gatherInto tensor dim ids destination) (Gathers tensor dim ids)) ∧
    (indexSelectRequirements tensor dim ids = .ok r →
      (Exact (BadIndex ids (tensor.shape.getD dim 0)) (indexSelectInto tensor dim ids destination) (Selects tensor dim ids) ↔
        (0 ∉ tensor.shape.eraseIdx dim ∨ ¬ BadIndex ids (tensor.shape.getD dim 0)))) ∧
    (scatterAddRequirements tensor dim ids src = .ok r →
      (Exact (BadIndex ids (tensor.shape.getD dim 0)) (scatterAddInto tensor dim ids src destination)
          (Scatters tensor dim ids src) ↔ (0 ∈ src.shape ∨ src.shape.prod ≤ usizeMax) ∧ ¬ PastEnd tensor)) ∧
    (catRequirements tensors dim = .ok r →
      Exact False (catInto tensors dim destination) (Concatenates tensors dim r.output.shape)) := by
  refine ⟨fun h => ?_, fun h => ?_, fun h => ?_, fun h => ?_⟩
  · obtain ⟨hvalid, houtput⟩ := gatherRequirements_ok h
    exact gatherInto_exact hvalid hready (hshape.trans houtput)
  · obtain ⟨hdim, hids, hnumel, houtput⟩ := indexSelectRequirements_ok h
    exact indexSelectInto_exact_iff hdim hids hnumel hready (hshape.trans houtput)
  · obtain ⟨hvalid, hnumel, houtput⟩ := scatterAddRequirements_ok h
    exact scatterAddInto_exact_iff hvalid hnumel hready (hshape.trans houtput)
  · obtain ⟨out, hrun, hout⟩ := catInto_exact h hready hshape
    exact ⟨iff_of_false (fun ⟨e, he⟩ => fail_ne_ok e out (he.symm.trans hrun)) id, fun _ => ⟨out, hrun, hout⟩⟩

/-! ## A selection without elements -/

/-- A tensor with no rows and three columns. -/
def noRows : TypedTensor UInt32 where
  values := []
  layout := ⟨[0, 3], [3, 1], 0, rfl⟩
  fits := ⟨0, rfl, Nat.le_refl 0⟩

/-- The index of a sixth column. -/
theorem sixthColumn_rank : [1].length = [1].length := rfl

def sixthColumn : Tensor where
  buffer := .u32 [5]
  layout := ⟨[1], [1], 0, sixthColumn_rank⟩
  fits := ⟨1, rfl, Nat.le_refl 1⟩

def noRowsSelected : CpuDestination UInt32 := ⟨.u32, ⟨[0, 1], [1, 1], 0, rfl⟩, []⟩

theorem noRowsSelected_ready : noRowsSelected.Ready := ⟨rfl, by decide, by decide, by decide⟩

theorem sixthColumn_bad : BadIndex sixthColumn 3 := ⟨[0], 5, .cons (by decide) .nil, rfl, .inr (by decide)⟩

theorem indexSelect_noRows :
    (∃ r, indexSelectRequirements noRows 1 sixthColumn = .ok r ∧ noRowsSelected.shape = r.output.shape) ∧
      BadIndex sixthColumn (noRows.shape.getD 1 0) ∧ indexSelectInto noRows 1 sixthColumn noRowsSelected = .ok [] ∧
      ¬ Exact (BadIndex sixthColumn (noRows.shape.getD 1 0)) (indexSelectInto noRows 1 sixthColumn noRowsSelected)
        (Selects noRows 1 sixthColumn) := by
  refine ⟨⟨_, rfl, rfl⟩, sixthColumn_bad, by rfl, fun h => ?_⟩
  obtain ⟨e, he⟩ := h.1.mpr sixthColumn_bad
  cases he

theorem indexing_exact_noRows :
    Exact (BadIndex sixthColumn 3) (indexSelectInto noRows 1 sixthColumn noRowsSelected) (Selects noRows 1 sixthColumn) ↔
      (0 ∉ [0] ∨ ¬ BadIndex sixthColumn 3) :=
  (indexing_exact_iff noRows noRows sixthColumn [noRows] 1 noRowsSelected_ready
    (r := ⟨⟨[0, 1], .u32, 0, 64⟩, none, [], .direct 1, [noRows.layout, sixthColumn.layout], 1⟩) rfl).2.1 rfl

end EffectTorch
