import EffectTorch.Lib.Fill
import EffectTorch.Runtime.Storage
import Mathlib.Data.List.GetD

/-!
# The convolution state

`conv_state_into_impl` of `runtime-cpu/src/napi/mod.rs`, the depthwise causal convolution of a
chunk behind the inputs it keeps, and `short_conv1d_forward_into_impl` of
`runtime-cpu/src/composed.rs`, the convolution of a whole sequence. Arithmetic is exact and
there is one type of elements: the checks of element types are left out.

Results:
1. `convStateInto_ok`: a chunk is convolved with the kept inputs before it, and the last
   inputs up to the advance are kept.
2. `shortConv1dForwardInto_ok`: the whole sequence is convolved with zeros before it.
-/

namespace EffectTorch
open List Lib

/-! ## Dense tensors -/

/-- The logical elements of a tensor, the last dimension running fastest. -/
structure Dense (K : Type) where
  shape : List Nat
  elements : Slice K shape.prod

variable {K : Type}

/-- A tensor of zeros. -/
def Dense.zeros [Zero K] (shape : List Nat) : Dense K :=
  ⟨shape, List.replicate shape.prod 0, length_replicate⟩

/-- `tensor_element` and `logical_value`. -/
def Dense.element (t : Dense K) (index : Nat) : Fallible String K :=
  t.elements.read index

/-- `shape[index]`. -/
def dimension (shape : List Nat) (index : Nat) : Fallible String Nat :=
  expect shape[index]? "index out of bounds"

/-- `for index in 0..count`. -/
def repeated {σ : Type} (count : Nat) (body : Nat → σ → Fallible String σ) (s : σ) :
    Fallible String σ :=
  (List.range count).foldlM (fun s index => body index s) s

/-! ## Filling slices -/

/-- Element `index`; zero outside. -/
def Dense.at [Zero K] (t : Dense K) (index : Nat) : K :=
  t.elements.data.getD index 0

theorem Dense.element_ok [Zero K] {t : Dense K} {index : Nat} (h : index < t.shape.prod) :
    t.element index = .ok (t.at index) := by
  rw [← t.elements.length_eq] at h
  rw [Dense.element, Slice.read, Slice.get?, Dense.at, List.getElem?_eq_getElem h,
    getD_eq_getElem _ _ h]
  rfl

theorem Dense.at_eq [Zero K] {t : Dense K} {index : Nat} {value : K}
    (h : t.elements.data[index]? = some value) : t.at index = value := by
  rw [Dense.at, getD_eq_getElem?_getD, h]
  rfl

@[simp] theorem Dense.at_zeros [Zero K] (shape : List Nat) (index : Nat) :
    (Dense.zeros shape : Dense K).at index = 0 := by
  rw [Dense.at, getD_eq_getElem?_getD, Dense.zeros, List.getElem?_replicate]
  split <;> rfl

/-- The value of a cell by its lane, row and column. -/
def cellValue (rows width : Nat) (f : Nat → Nat → Nat → K) (index : Nat) : K :=
  f (index / width / rows) (index / width % rows) (index % width)

theorem cellValue_eq {rows width row column : Nat} (f : Nat → Nat → Nat → K) (lane : Nat)
    (hrow : row < rows) (hcolumn : column < width) :
    cellValue rows width f ((lane * rows + row) * width + column) = f lane row column := by
  have hdiv : ∀ {a b n : Nat}, b < n → (a * n + b) / n = a := fun {a b n} hb => by
    rw [Nat.mul_comm, Nat.mul_add_div (Nat.zero_lt_of_lt hb), Nat.div_eq_of_lt hb, Nat.add_zero]
  have hmod : ∀ {a b n : Nat}, b < n → (a * n + b) % n = b := fun {a b n} hb => by
    rw [Nat.mul_add_mod_self_right, Nat.mod_eq_of_lt hb]
  rw [cellValue, hdiv hcolumn, hdiv hrow, hmod hrow, hmod hcolumn]

theorem index_lt {lanes rows width lane row column : Nat} (hlane : lane < lanes)
    (hrow : row < rows) (hcolumn : column < width) :
    (lane * rows + row) * width + column < lanes * (rows * width) := by
  rw [← Nat.mul_assoc]
  have hrows : lane * rows + row + 1 ≤ lanes * rows :=
    Nat.lt_of_lt_of_le (Nat.add_lt_add_left hrow _)
      (by rw [← Nat.succ_mul]; exact Nat.mul_le_mul_right rows hlane)
  calc (lane * rows + row) * width + column < (lane * rows + row + 1) * width := by
        rw [Nat.succ_mul]
        exact Nat.add_lt_add_left hcolumn _
    _ ≤ lanes * rows * width := Nat.mul_le_mul_right width hrows

theorem fills_repeated {σ ι α : Type} {get : σ → ι → Option α} {value : ι → α} {count : Nat}
    {cells : Nat → ι → Prop} {body : Nat → σ → Fallible String σ}
    (h : ∀ index < count, Fills get value (cells index) (body index)) :
    Fills get value (fun i => ∃ index < count, cells index i) (repeated count body) :=
  (Fills.loop fun index hindex => h index (mem_range.mp hindex)).congr fun i => by simp

def laneCells (lane rows width index : Nat) : Prop :=
  ∃ row < rows, ∃ column < width, index = (lane * rows + row) * width + column

theorem laneCells_lt {lanes lane rows width index : Nat} (h : laneCells lane rows width index)
    (hlane : lane < lanes) : index < lanes * (rows * width) := by
  obtain ⟨row, hrow, column, hcolumn, rfl⟩ := h
  exact index_lt hlane hrow hcolumn

/-- The turns over the rows and columns of one lane. -/
theorem Slice.fills_lane {n lane rows width : Nat} (f : Nat → Nat → Nat → K)
    {value : Nat → Nat → Fallible String K}
    (hvalue : ∀ row < rows, ∀ column < width, value row column = .ok (f lane row column)) :
    Fills (Slice.get? (n := n)) (cellValue rows width f) (laneCells lane rows width)
      (repeated rows fun row => repeated width fun column slice => do
        let v ← value row column
        slice.write ((lane * rows + row) * width + column) v) := by
  refine fills_repeated fun row hrow => fills_repeated fun column hcolumn => ?_
  rw [hvalue row hrow column hcolumn]
  exact Slice.fills_write (cellValue_eq f lane hrow hcolumn).symm

variable [Semiring K]

/-! ## The stateful convolution -/

/-- The source of a tap: `past` kept inputs, and the chunk behind them. -/
def convWindow (x state : Dense K) (steps channels past batchIndex windowIndex channel : Nat) :
    Fallible String K :=
  if windowIndex < past then
    state.element ((batchIndex * past + windowIndex) * channels + channel)
  else x.element ((batchIndex * steps + windowIndex - past) * channels + channel)

/-- One element of the output. -/
def convValue (x weight state : Dense K) (steps channels kernel batchIndex step channel : Nat) :
    Fallible String K :=
  (List.range kernel).foldlM (fun value tap => do
    let source ← convWindow x state steps channels (kernel - 1) batchIndex (step + tap) channel
    let coefficient ← weight.element (channel * kernel + tap)
    .ok (value + source * coefficient)) 0

/-- The turns of one lane over the output. -/
def outputLane {n : Nat} (x weight state : Dense K) (steps channels kernel batchIndex : Nat) :
    Slice K n → Fallible String (Slice K n) :=
  repeated steps fun step => repeated channels fun channel out => do
    let value ← convValue x weight state steps channels kernel batchIndex step channel
    out.write ((batchIndex * steps + step) * channels + channel) value

/-- The turns of one lane over the next state. -/
def nextLane {n : Nat} (x state : Dense K) (advances : List Nat)
    (steps channels past batchIndex : Nat) : Slice K n → Fallible String (Slice K n) :=
  repeated past fun index next => do
    let windowIndex := (← dimension advances batchIndex) + index
    repeated channels (fun channel next => do
      let value ← convWindow x state steps channels past batchIndex windowIndex channel
      next.write ((batchIndex * past + index) * channels + channel) value) next

/-- `conv_state_into_impl`: the output and the next state. -/
def convStateInto (x weight state : Dense K) (advances : List Nat) (output stateNext : Dense K) :
    Fallible String (Dense K × Dense K) := do
  let shape := x.shape
  let rank := shape.length
  let lead ← expect (checkedSub rank 2) "attempt to subtract with overflow"
  let batch := (shape.take lead).prod
  let steps ← dimension shape lead
  let channels ← dimension shape (rank - 1)
  let kernel ← dimension weight.shape 1
  rejectIf (batch ≠ advances.length) "conv state: inconsistent planned destinations"
  let past ← expect (checkedSub kernel 1) "attempt to subtract with overflow"
  rejectIf (state.shape ≠ [batch, past, channels] ∨ output.shape ≠ shape ∨
    stateNext.shape ≠ state.shape) "conv state: inconsistent planned destinations"
  let (out, next) ← repeated batch (fun batchIndex slices =>
    outputLane x weight state steps channels kernel batchIndex slices.1 >>= fun out =>
      nextLane x state advances steps channels past batchIndex slices.2 >>= fun next =>
        .ok (out, next)) (output.elements, stateNext.elements)
  .ok (⟨output.shape, out⟩, ⟨stateNext.shape, next⟩)

/-! ## The convolution of a whole sequence -/

/-- `short_conv_geometry`: batch, steps, channels and kernel. -/
def shortConvGeometry (x weight : Dense K) : Fallible String (Nat × Nat × Nat × Nat) := do
  let rank := x.shape.length
  rejectIf (rank < 2 ∨ weight.shape.length ≠ 2)
    "short_conv1d: expected matching float tensors of rank >= 2 and 2"
  let steps ← dimension x.shape (rank - 2)
  let channels ← dimension x.shape (rank - 1)
  let kernel ← dimension weight.shape 1
  let weightChannels ← dimension weight.shape 0
  rejectIf (weightChannels ≠ channels ∨ steps = 0 ∨ channels = 0 ∨ kernel = 0)
    "short_conv1d: inconsistent or zero-sized geometry"
  let batch ← okOr ((x.shape.take (rank - 2)).foldlM checkedMul 1)
    "short_conv1d batch: element count overflow"
  .ok (batch, steps, channels, kernel)

/-- One element of the output. -/
def shortConvValue (x weight : Dense K) (steps channels kernel batchIndex step channel : Nat) :
    Fallible String K :=
  (List.range kernel).foldlM (fun value tap =>
    if kernel ≤ step + tap + 1 then do
      let source ← x.element ((batchIndex * steps + (step + tap + 1 - kernel)) * channels + channel)
      let coefficient ← weight.element (channel * kernel + tap)
      .ok (value + source * coefficient)
    else .ok value) 0

/-- The turns of one lane. -/
def shortConvLane {n : Nat} (x weight : Dense K) (steps channels kernel batchIndex : Nat) :
    Slice K n → Fallible String (Slice K n) :=
  repeated steps fun step => repeated channels fun channel out => do
    let value ← shortConvValue x weight steps channels kernel batchIndex step channel
    out.write ((batchIndex * steps + step) * channels + channel) value

/-- `short_conv1d_forward_into`. -/
def shortConv1dForwardInto (x weight output : Dense K) : Fallible String (Dense K) := do
  let (batch, steps, channels, kernel) ← shortConvGeometry x weight
  rejectIf (output.shape ≠ x.shape) "short_conv1d output destination shape mismatch"
  let out ← repeated batch (shortConvLane x weight steps channels kernel) output.elements
  .ok ⟨output.shape, out⟩

/-! ## What a chunk computes -/

/-- The source of a tap. -/
def windowAt (x state : Dense K) (steps channels past lane window channel : Nat) : K :=
  if window < past then state.at ((lane * past + window) * channels + channel)
  else x.at ((lane * steps + (window - past)) * channels + channel)

section Chunk

variable {x weight state : Dense K} {steps channels past lanes lane channel : Nat}
  {advances : List Nat}

theorem convWindow_ok (hx : x.shape.prod = lanes * (steps * channels))
    (hs : state.shape = [lanes, past, channels]) {window : Nat} (hlane : lane < lanes)
    (hchannel : channel < channels) (hwindow : window < past + steps) :
    convWindow x state steps channels past lane window channel =
      .ok (windowAt x state steps channels past lane window channel) := by
  unfold convWindow windowAt
  split
  · next hlt =>
    refine Dense.element_ok ?_
    rw [hs, prod_cons, prod_cons, prod_singleton]
    exact index_lt hlane hlt hchannel
  · next hge =>
    have hle : past ≤ window := Nat.le_of_not_lt hge
    rw [Nat.add_sub_assoc hle]
    refine Dense.element_ok ?_
    rw [hx]
    exact index_lt hlane (Nat.sub_lt_left_of_lt_add hle hwindow) hchannel

theorem weight_ok {kernel tap : Nat} (hw : weight.shape = [channels, kernel])
    (hchannel : channel < channels) (htap : tap < kernel) :
    weight.element (channel * kernel + tap) = .ok (weight.at (channel * kernel + tap)) := by
  refine Dense.element_ok ?_
  rw [hw, prod_cons, prod_singleton]
  calc channel * kernel + tap < channel * kernel + kernel := Nat.add_lt_add_left htap _
    _ = (channel + 1) * kernel := (Nat.succ_mul _ _).symm
    _ ≤ channels * kernel := Nat.mul_le_mul_right kernel hchannel

/-- The convolution at a step of the chunk. -/
def convAt (x weight state : Dense K) (steps channels past lane step channel : Nat) : K :=
  ((List.range (past + 1)).map fun tap =>
    windowAt x state steps channels past lane (step + tap) channel *
      weight.at (channel * (past + 1) + tap)).sum

theorem convValue_ok (hx : x.shape.prod = lanes * (steps * channels))
    (hw : weight.shape = [channels, past + 1]) (hs : state.shape = [lanes, past, channels])
    {step : Nat} (hlane : lane < lanes) (hstep : step < steps) (hchannel : channel < channels) :
    convValue x weight state steps channels (past + 1) lane step channel =
      .ok (convAt x weight state steps channels past lane step channel) := by
  have hturn : ∀ tap ∈ List.range (past + 1), ∀ value : K, (do
      let source ← convWindow x state steps channels past lane (step + tap) channel
      let coefficient ← weight.element (channel * (past + 1) + tap)
      .ok (value + source * coefficient) : Fallible String K) =
        .ok (value + windowAt x state steps channels past lane (step + tap) channel *
          weight.at (channel * (past + 1) + tap)) := by
    intro tap htap value
    have hwindow : step + tap < past + steps := by
      have htap := mem_range.mp htap
      omega
    rw [convWindow_ok hx hs hlane hchannel hwindow, ok_bind,
      weight_ok hw hchannel (mem_range.mp htap), ok_bind]
  exact (sum_loop hturn 0).trans (congrArg Except.ok (zero_add _))

theorem outputLane_fills {n : Nat} (hx : x.shape.prod = lanes * (steps * channels))
    (hw : weight.shape = [channels, past + 1]) (hs : state.shape = [lanes, past, channels])
    (hlane : lane < lanes) :
    Fills (Slice.get? (n := n))
      (cellValue steps channels (convAt x weight state steps channels past))
      (laneCells lane steps channels) (outputLane x weight state steps channels (past + 1) lane) :=
  Slice.fills_lane _ fun _ hstep _ hchannel => convValue_ok hx hw hs hlane hstep hchannel

theorem nextLane_fills {n advance : Nat} (hx : x.shape.prod = lanes * (steps * channels))
    (hs : state.shape = [lanes, past, channels]) (hlane : lane < lanes)
    (hadvance : dimension advances lane = .ok advance) (hle : advance ≤ steps) :
    Fills (Slice.get? (n := n))
      (cellValue past channels fun lane index =>
        windowAt x state steps channels past lane (advances.getD lane 0 + index))
      (laneCells lane past channels) (nextLane x state advances steps channels past lane) := by
  have hget : advances.getD lane 0 = advance := by
    rw [getD_eq_getElem?_getD, expect_ok.mp hadvance]
    rfl
  unfold nextLane
  simp only [hadvance, ok_bind]
  refine Slice.fills_lane _ fun index hindex channel hchannel => ?_
  rw [hget]
  exact convWindow_ok hx hs hlane hchannel (by omega)

/-- The dimensions of a tensor whose last two are the steps and the channels. -/
theorem dimension_lead {shape lead : List Nat} (h : shape = lead ++ [steps, channels]) :
    checkedSub shape.length 2 = some lead.length ∧ shape.take lead.length = lead ∧
      dimension shape lead.length = .ok steps ∧ dimension shape (shape.length - 1) = .ok channels ∧
      shape.prod = lead.prod * (steps * channels) := by
  subst h
  refine ⟨?_, ?_, ?_, ?_, ?_⟩
  · simp [checkedSub]
  · simp
  · simp [dimension]
  · simp [dimension]
  · simp

/-- What `conv_state_into_impl` leaves in its destinations. -/
theorem convStateInto_ok {lead : List Nat} (hx : x.shape = lead ++ [steps, channels])
    (hw : weight.shape = [channels, past + 1]) (hs : state.shape = [lead.prod, past, channels])
    (hlanes : advances.length = lead.prod) (hadvances : ∀ advance ∈ advances, advance ≤ steps)
    {output stateNext : Dense K} (houtput : output.shape = x.shape)
    (hnext : stateNext.shape = state.shape) :
    ∃ out next, convStateInto x weight state advances output stateNext = .ok (out, next) ∧
      out.shape = x.shape ∧ next.shape = state.shape ∧
      (∀ lane < lead.prod, ∀ step < steps, ∀ channel < channels,
        out.at ((lane * steps + step) * channels + channel) =
          convAt x weight state steps channels past lane step channel) ∧
      ∀ lane < lead.prod, ∀ index < past, ∀ channel < channels,
        next.at ((lane * past + index) * channels + channel) =
          windowAt x state steps channels past lane (advances.getD lane 0 + index) channel := by
  obtain ⟨hrank, htake, hsteps, hchannels, hprod⟩ := dimension_lead hx
  have hkernel : dimension weight.shape 1 = .ok (past + 1) := by rw [hw]; rfl
  have hadvance : ∀ lane < lead.prod, dimension advances lane = .ok (advances.getD lane 0) ∧
      advances.getD lane 0 ≤ steps := by
    intro lane hlane
    have hlt : lane < advances.length := hlanes ▸ hlane
    rw [dimension, List.getElem?_eq_getElem hlt, getD_eq_getElem _ _ hlt]
    exact ⟨rfl, hadvances _ (getElem_mem hlt)⟩
  have hloop : Fills (getBoth (Slice.get? (n := output.shape.prod)) Slice.get?)
      (Sum.elim (cellValue steps channels (convAt x weight state steps channels past))
        (cellValue past channels fun lane index =>
          windowAt x state steps channels past lane (advances.getD lane 0 + index))) _ _ :=
    fills_repeated fun lane (hlane : lane < lead.prod) =>
      (outputLane_fills hprod hw hs hlane).both
        (nextLane_fills (n := stateNext.shape.prod) hprod hs hlane (hadvance lane hlane).1
          (hadvance lane hlane).2)
  obtain ⟨⟨out, next⟩, hrun, hcells, -⟩ := hloop (output.elements, stateNext.elements) (by
    rintro (i | i) ⟨lane, hlane, hi⟩
    · refine Slice.isSome_get? _ ?_
      rw [houtput, hprod]
      exact laneCells_lt hi hlane
    · refine Slice.isSome_get? _ ?_
      rw [hnext, hs, prod_cons, prod_cons, prod_singleton]
      exact laneCells_lt hi hlane)
  refine ⟨⟨output.shape, out⟩, ⟨stateNext.shape, next⟩, ?_, houtput, hnext, ?_, ?_⟩
  · unfold convStateInto
    have hbatch : rejectIf (lead.prod ≠ advances.length)
        "conv state: inconsistent planned destinations" = .ok () :=
      rejectIf_ok.mpr (not_not.mpr hlanes.symm)
    have hpast : checkedSub (past + 1) 1 = some past := by simp [checkedSub]
    have hshapes : rejectIf (state.shape ≠ [lead.prod, past, channels] ∨ output.shape ≠ x.shape ∨
        stateNext.shape ≠ state.shape) "conv state: inconsistent planned destinations" = .ok () :=
      rejectIf_ok.mpr (by simp [hs, houtput, hnext])
    simp only [hrank, htake, hsteps, hchannels, hkernel, hbatch, hpast, hshapes, expect_some, ok_bind]
    rw [hrun, ok_bind]
  · intro lane hlane step hstep channel hchannel
    have hcell := hcells (.inl ((lane * steps + step) * channels + channel))
      ⟨lane, hlane, step, hstep, channel, hchannel, rfl⟩
    exact (Dense.at_eq hcell).trans (cellValue_eq _ lane hstep hchannel)
  · intro lane hlane index hindex channel hchannel
    have hcell := hcells (.inr ((lane * past + index) * channels + channel))
      ⟨lane, hlane, index, hindex, channel, hchannel, rfl⟩
    exact (Dense.at_eq hcell).trans (cellValue_eq (fun lane index =>
      windowAt x state steps channels past lane (advances.getD lane 0 + index)) lane hindex hchannel)

end Chunk

/-! ## What the whole sequence gives -/

section Whole

variable {x weight : Dense K} {steps channels kernel lanes lane channel : Nat}

/-- The convolution at a step of the whole sequence: a tap before its start counts for nothing. -/
def shortConvAt (x weight : Dense K) (steps channels kernel lane step channel : Nat) : K :=
  ((List.range kernel).map fun tap =>
    if kernel ≤ step + tap + 1 then
      x.at ((lane * steps + (step + tap + 1 - kernel)) * channels + channel) *
        weight.at (channel * kernel + tap)
    else 0).sum

theorem shortConvValue_ok (hx : x.shape.prod = lanes * (steps * channels))
    (hw : weight.shape = [channels, kernel]) {step : Nat} (hlane : lane < lanes)
    (hstep : step < steps) (hchannel : channel < channels) :
    shortConvValue x weight steps channels kernel lane step channel =
      .ok (shortConvAt x weight steps channels kernel lane step channel) := by
  refine (sum_loop (fun tap htap value => ?_) 0).trans (congrArg Except.ok (zero_add _))
  have htap := mem_range.mp htap
  split
  · next hle =>
    have hsource : x.element ((lane * steps + (step + tap + 1 - kernel)) * channels + channel) =
        .ok (x.at ((lane * steps + (step + tap + 1 - kernel)) * channels + channel)) := by
      refine Dense.element_ok ?_
      rw [hx]
      exact index_lt hlane (by omega) hchannel
    rw [hsource, ok_bind, weight_ok hw hchannel htap, ok_bind]
  · rw [add_zero]

/-- The product of dimensions that fits has no part that overflows. -/
theorem lead_ok {lead : List Nat} (hpos : 0 ∉ lead) (hfits : lead.prod ≤ usizeMax) :
    lead.foldlM checkedMul 1 = some lead.prod :=
  (foldlM_checkedMul hpos).mpr ⟨.inl (by rwa [Nat.one_mul]), (Nat.one_mul _).symm⟩

theorem shortConvLane_fills {n : Nat} (hx : x.shape.prod = lanes * (steps * channels))
    (hw : weight.shape = [channels, kernel]) (hlane : lane < lanes) :
    Fills (Slice.get? (n := n)) (cellValue steps channels (shortConvAt x weight steps channels kernel))
      (laneCells lane steps channels) (shortConvLane x weight steps channels kernel lane) :=
  Slice.fills_lane _ fun _ hstep _ hchannel => shortConvValue_ok hx hw hlane hstep hchannel

omit [Semiring K] in
theorem shortConvGeometry_ok {lead : List Nat} (hx : x.shape = lead ++ [steps, channels])
    (hw : weight.shape = [channels, kernel]) (hkernel : kernel ≠ 0) (hpos : 0 ∉ x.shape)
    (hfits : lead.prod ≤ usizeMax) :
    shortConvGeometry x weight = .ok (lead.prod, steps, channels, kernel) := by
  obtain ⟨-, htake, hsteps, hchannels, -⟩ := dimension_lead hx
  have hrank : x.shape.length = lead.length + 2 := by simp [hx]
  have hlast : x.shape.length - 1 = lead.length + 1 := by omega
  rw [hlast] at hchannels
  have hne : 0 ∉ lead ∧ steps ≠ 0 ∧ channels ≠ 0 := by
    simpa [hx, eq_comm, not_or] using hpos
  have hranks : rejectIf (lead.length + 2 < 2 ∨ weight.shape.length ≠ 2)
      "short_conv1d: expected matching float tensors of rank >= 2 and 2" = .ok () :=
    rejectIf_ok.mpr (by simp [hw])
  have hsizes : rejectIf (channels ≠ channels ∨ steps = 0 ∨ channels = 0 ∨ kernel = 0)
      "short_conv1d: inconsistent or zero-sized geometry" = .ok () :=
    rejectIf_ok.mpr (by simp [hne, hkernel])
  have hdims : dimension weight.shape 0 = .ok channels ∧ dimension weight.shape 1 = .ok kernel := by
    rw [hw]
    exact ⟨rfl, rfl⟩
  have hlead : lead.length + 2 - 2 = lead.length := rfl
  unfold shortConvGeometry
  simp only [hrank, hranks, hlead, hsteps, hchannels, hdims, hsizes, htake, lead_ok hne.1 hfits,
    Nat.add_one_sub_one, okOr_some, ok_bind]

/-- What `short_conv1d_forward_into` leaves in its destination. -/
theorem shortConv1dForwardInto_ok {lead : List Nat} (hx : x.shape = lead ++ [steps, channels])
    (hw : weight.shape = [channels, kernel]) (hkernel : kernel ≠ 0) (hpos : 0 ∉ x.shape)
    (hfits : lead.prod ≤ usizeMax) {output : Dense K} (houtput : output.shape = x.shape) :
    ∃ out, shortConv1dForwardInto x weight output = .ok out ∧ out.shape = x.shape ∧
      ∀ lane < lead.prod, ∀ step < steps, ∀ channel < channels,
        out.at ((lane * steps + step) * channels + channel) =
          shortConvAt x weight steps channels kernel lane step channel := by
  obtain ⟨-, -, -, -, hprod⟩ := dimension_lead hx
  have hgeometry := shortConvGeometry_ok hx hw hkernel hpos hfits
  have hloop := fills_repeated fun lane (hlane : lane < lead.prod) =>
    shortConvLane_fills (n := output.shape.prod) hprod hw hlane
  obtain ⟨out, hrun, hcells, -⟩ := hloop output.elements (by
    rintro i ⟨lane, hlane, hi⟩
    refine Slice.isSome_get? _ ?_
    rw [houtput, hprod]
    exact laneCells_lt hi hlane)
  refine ⟨⟨output.shape, out⟩, ?_, houtput, fun lane hlane step hstep channel hchannel => ?_⟩
  · have hshape : rejectIf (output.shape ≠ x.shape)
        "short_conv1d output destination shape mismatch" = .ok () :=
      rejectIf_ok.mpr (not_not.mpr houtput)
    unfold shortConv1dForwardInto
    rw [hgeometry, ok_bind]
    dsimp only
    rw [hshape, ok_bind, hrun, ok_bind]
  · have hcell := hcells ((lane * steps + step) * channels + channel)
      ⟨lane, hlane, step, hstep, channel, hchannel, rfl⟩
    exact (Dense.at_eq hcell).trans (cellValue_eq _ lane hstep hchannel)

end Whole

end EffectTorch
