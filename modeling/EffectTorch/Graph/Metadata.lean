import EffectTorch.Graph.NodeProgram
import EffectTorch.Lib.Strides

/-!
# Metadata of the tensor operations

`NodeKind::metadata` of `graph/src/lib.rs` for the operations that the adjoints of views, indexing
and convolutions and the rotary decomposition are made of. Shapes are lists of natural numbers: a
size that does not fit a machine word is not among them.
-/

namespace EffectTorch
open List Lib

/-- `check_dtype_device` accepts the pair. -/
def Supported (dtype : DType) (device : Device) : Prop := ¬ (dtype = .f64 ∧ device.isMetal = true)

instance (dtype : DType) (device : Device) : Decidable (Supported dtype device) :=
  inferInstanceAs (Decidable (¬ (_ ∧ _)))

theorem supported_f32 : Supported .f32 (.cpu 0) := by decide

/-- What an accepted node is, apart from how it is stored. -/
structure Signature where
  shape : List Nat
  dtype : DType
  device : Device
  supported : Supported dtype device

instance : Described Signature where
  metadata := fun s => ⟨s.shape, s.dtype, s.device, .dense⟩

def Device.display : Device → String
  | cpu ordinal => s!"cpu:{ordinal}"
  | metal ordinal => s!"metal:{ordinal}"
  | cuda ordinal => s!"cuda:{ordinal}"

namespace Metadata

/-- `a - b` on machine words, in a build that checks it. -/
def usizeSub (a b : Nat) : Fallible String Nat :=
  if b ≤ a then .ok (a - b) else .error (.panic "attempt to subtract with overflow")

/-- The panic of `shape[index]`. -/
def dimension (shape : List Nat) (index : Nat) : Fallible String Nat :=
  expect shape[index]? s!"index out of bounds: the len is {shape.length} but the index is {index}"

/-- `shape`, with axes of size one in front of it up to `rank` of them. -/
def leadingOnes (rank : Nat) (shape : List Nat) : List Nat :=
  List.replicate (rank - shape.length) 1 ++ shape

/-- `broadcast_shapes`. -/
def broadcastShapes (a b : List Nat) : Fallible String (List Nat) :=
  let rank := max a.length b.length
  ((leadingOnes rank a).zip (leadingOnes rank b)).mapM fun (da, db) =>
    if da ≠ db ∧ da ≠ 1 ∧ db ≠ 1 then fail s!"shapes {a} and {b} are not broadcastable"
    else .ok (max da db)

section Operations

variable {ν : Type} [Described ν]

/-- `scalar_aware_binary_dtype`. -/
def scalarAwareBinaryDType (a b : ν) : Fallible String DType :=
  if dtypeOf a = dtypeOf b then .ok (dtypeOf a)
  else if (dtypeOf a).isFloat ∧ (dtypeOf b).isFloat ∧ (shapeOf a).isEmpty ≠ (shapeOf b).isEmpty then
    .ok (if (shapeOf a).isEmpty then dtypeOf b else dtypeOf a)
  else
    fail ("dtype mismatch: " ++ (dtypeOf a).name ++ " and " ++ (dtypeOf b).name ++
      "; insert an explicit cast")

/-- `conv_out_dim`. -/
def convOutDim (input kernel stride padding dilation : Nat) : Fallible String Nat := do
  let effective := dilation * (← usizeSub kernel 1) + 1
  if input + 2 * padding < effective then
    fail s!"conv: kernel of effective size {effective} exceeds the padded input size {input + 2 * padding}"
  else .ok ((input + 2 * padding - effective) / stride + 1)

/-- `conv_check`. -/
def convCheck (op : String) (x w : ν) (stride dilation groups : Nat) : Fallible String Unit := do
  rejectIf (stride < 1 ∨ dilation < 1 ∨ groups < 1)
    (op ++ s!": stride, dilation and groups must be >= 1, got {stride}, {dilation}, {groups}")
  let cIn ← dimension (shapeOf x) 1
  let cOut ← dimension (shapeOf w) 0
  rejectIf (cIn % groups ≠ 0 ∨ cOut % groups ≠ 0)
    (op ++ s!": channels [{cIn}, {cOut}] are not divisible into {groups} groups")
  let cGroup ← dimension (shapeOf w) 1
  rejectIf (cGroup ≠ cIn / groups)
    (op ++ s!": weight has {cGroup} input channels per group, expected {cIn / groups}")
  rejectIf ((dtypeOf x).isFloat = false ∨ dtypeOf x ≠ dtypeOf w)
    (op ++ ": dtypes must be floating point and match, got " ++ (dtypeOf x).debug ++ " and " ++
      (dtypeOf w).debug)
  rejectIf (deviceOf x ≠ deviceOf w) (op ++ ": input and weight must be on the same device")

/-- The size of one spatial axis of a transposed convolution. -/
def convTransposeDim (size kernel stride padding outputPadding dilation : Nat) : Fallible String Nat := do
  let steps := (← usizeSub size 1) * stride
  let reach := dilation * (← usizeSub kernel 1)
  usizeSub (steps + reach + outputPadding + 1) (2 * padding)

/-- The index operations take integers. -/
def indexDType (op : String) (indexes : ν) : Fallible String Unit :=
  rejectIf (dtypeOf indexes ≠ .i64 ∧ dtypeOf indexes ≠ .u32)
    (op ++ ": indexes must be i64 or u32, got " ++ (dtypeOf indexes).debug)

def axisInRange (op : String) (a : ν) (dim : Nat) : Fallible String Unit :=
  rejectIf ((shapeOf a).length ≤ dim)
    (op ++ s!": dim {dim} out of range for rank {(shapeOf a).length}")

/-- The metadata of an operation, before the checks that are common to all of them. -/
def operation : NodeKind ν → Fallible String (List Nat × DType × Device)
  | .zeros shape dtype device => .ok (shape, dtype, device)
  | .add a b | .mul a b => do
    let shape ← broadcastShapes (shapeOf a) (shapeOf b)
    let dtype ← scalarAwareBinaryDType a b
    return (shape, dtype, deviceOf a)
  | .neg a | .sin a | .cos a => .ok (shapeOf a, dtypeOf a, deviceOf a)
  | .cast a dtype => .ok (shapeOf a, dtype, deviceOf a)
  | .indexSelect a dim indexes => do
    axisInRange "index_select" a dim
    indexDType "index_select" indexes
    match shapeOf indexes with
    | [count] => return ((shapeOf a).set dim count, dtypeOf a, deviceOf a)
    | shape => fail s!"index_select: indexes must be 1-D, got shape {shape}"
  | .scatterAdd a dim indexes src => do
    axisInRange "scatter_add" a dim
    indexDType "scatter_add" indexes
    rejectIf (shapeOf indexes ≠ shapeOf src)
      s!"scatter_add: indexes shape {shapeOf indexes} must match src shape {shapeOf src}"
    rejectIf (dtypeOf src ≠ dtypeOf a)
      ("scatter_add: src dtype " ++ (dtypeOf src).debug ++ " does not match target dtype " ++
        (dtypeOf a).debug)
    return (shapeOf a, dtypeOf a, deviceOf a)
  | .gather a dim indexes => do
    axisInRange "gather" a dim
    indexDType "gather" indexes
    rejectIf ((shapeOf indexes).length ≠ (shapeOf a).length)
      s!"gather: indexes rank {(shapeOf indexes).length} must match input rank {(shapeOf a).length}"
    match (List.range (shapeOf a).length).find? fun i =>
        i ≠ dim ∧ (shapeOf a).getD i 0 < (shapeOf indexes).getD i 0 with
    | some i =>
      fail s!"gather: indexes shape {shapeOf indexes} exceeds input shape {shapeOf a} at dim {i}"
    | none => return (shapeOf indexes, dtypeOf a, deviceOf a)
  | .conv1d x w stride padding dilation groups => do
    rejectIf ((shapeOf x).length ≠ 3 ∨ (shapeOf w).length ≠ 3)
      s!"conv1d: expected rank-3 input and weight, got ranks {(shapeOf x).length} and {(shapeOf w).length}"
    convCheck "conv1d" x w stride dilation groups
    let out ← convOutDim ((shapeOf x).getD 2 0) ((shapeOf w).getD 2 0) stride padding dilation
    return ([(shapeOf x).getD 0 0, (shapeOf w).getD 0 0, out], dtypeOf x, deviceOf x)
  | .conv2d x w stride padding dilation groups => do
    rejectIf ((shapeOf x).length ≠ 4 ∨ (shapeOf w).length ≠ 4)
      s!"conv2d: expected rank-4 input and weight, got ranks {(shapeOf x).length} and {(shapeOf w).length}"
    convCheck "conv2d" x w stride dilation groups
    let oh ← convOutDim ((shapeOf x).getD 2 0) ((shapeOf w).getD 2 0) stride padding dilation
    let ow ← convOutDim ((shapeOf x).getD 3 0) ((shapeOf w).getD 3 0) stride padding dilation
    return ([(shapeOf x).getD 0 0, (shapeOf w).getD 0 0, oh, ow], dtypeOf x, deviceOf x)
  | .convTranspose1d x w stride padding outputPadding dilation groups => do
    rejectIf ((shapeOf x).length ≠ 3 ∨ (shapeOf w).length ≠ 3)
      "conv_transpose1d: expected rank-3 input and weight"
    let out ← convTransposeDim ((shapeOf x).getD 2 0) ((shapeOf w).getD 2 0) stride padding
      outputPadding dilation
    return ([(shapeOf x).getD 0 0, (shapeOf w).getD 1 0 * groups, out], dtypeOf x, deviceOf x)
  | .convTranspose2d x w stride padding outputPadding dilation groups => do
    rejectIf ((shapeOf x).length ≠ 4 ∨ (shapeOf w).length ≠ 4)
      "conv_transpose2d: expected rank-4 input and weight"
    let oh ← convTransposeDim ((shapeOf x).getD 2 0) ((shapeOf w).getD 2 0) stride padding
      outputPadding dilation
    let ow ← convTransposeDim ((shapeOf x).getD 3 0) ((shapeOf w).getD 3 0) stride padding
      outputPadding dilation
    return ([(shapeOf x).getD 0 0, (shapeOf w).getD 1 0 * groups, oh, ow], dtypeOf x, deviceOf x)
  | .conv1dBackwardW x _ kernel outChannels _ _ _ groups =>
    .ok ([outChannels, (shapeOf x).getD 1 0 / groups, kernel], dtypeOf x, deviceOf x)
  | .conv2dBackwardW x _ kernel outChannels _ _ _ groups =>
    .ok ([outChannels, (shapeOf x).getD 1 0 / groups, kernel.1, kernel.2], dtypeOf x, deviceOf x)
  | .reshape a shape =>
    if (shapeOf a).prod ≠ shape.prod then
      fail s!"reshape: cannot reshape {shapeOf a} ({(shapeOf a).prod} elements) to {shape} ({shape.prod} elements)"
    else .ok (shape, dtypeOf a, deviceOf a)
  | .slice a ranges => do
    rejectIf (ranges.length ≠ (shapeOf a).length)
      s!"slice: expected {(shapeOf a).length} ranges, got {ranges.length}"
    let shape ← ranges.mapM fun (start, stop, stride) =>
      if stride = 0 then .error (.panic "attempt to divide by zero")
      else .ok ((stop - start + (stride - 1)) / stride)
    return (shape, dtypeOf a, deviceOf a)
  | .concat a b dim => do
    rejectIf (dtypeOf a ≠ dtypeOf b) "concat: operands must share a dtype; insert an explicit cast"
    rejectIf ((shapeOf a).length ≠ (shapeOf b).length ∨ (shapeOf a).length ≤ dim)
      s!"concat: rank/dim mismatch, {shapeOf a} vs {shapeOf b} along dim {dim}"
    match (List.range (shapeOf a).length).find? fun i =>
        i ≠ dim ∧ (shapeOf a).getD i 0 ≠ (shapeOf b).getD i 0 with
    | some i => fail s!"concat: shape mismatch at dim {i}, {shapeOf a} vs {shapeOf b}"
    | none =>
      return ((shapeOf a).set dim ((shapeOf a).getD dim 0 + (shapeOf b).getD dim 0), dtypeOf a,
        deviceOf a)
  | .broadcastTo a shape => do
    rejectIf (shape.length < (shapeOf a).length)
      s!"broadcast_to: cannot broadcast {shapeOf a} to lower rank {shape}"
    rejectIf (((shapeOf a).zip (shape.drop (shape.length - (shapeOf a).length))).any
        fun (d, d') => d ≠ d' ∧ d ≠ 1)
      s!"broadcast_to: cannot broadcast {shapeOf a} to {shape}"
    return (shape, dtypeOf a, deviceOf a)
  | .rotaryEmbeddingExplicit x positions inverseFrequencies _ => do
    let rank := (shapeOf x).length
    let width := (shapeOf x).getD (rank - 1) 0
    rejectIf (rank < 2 ∨ width = 0 ∨ width % 2 ≠ 0)
      "rotary_embedding: expected [..., T, D] with positive even D"
    rejectIf (dtypeOf x ≠ .f32 ∧ dtypeOf x ≠ .f16 ∧ dtypeOf x ≠ .bf16)
      "rotary_embedding: explicit rotation requires F32, F16, or BF16"
    let batch := (shapeOf x).take (rank - 3)
    rejectIf ((dtypeOf positions ≠ .u32 ∧ dtypeOf positions ≠ .i64) ∨
        (shapeOf positions).length ≠ batch.length + 1 ∨
        (shapeOf positions).getLast? ≠ (shapeOf x)[rank - 2]? ∨
        (batch.zip (shapeOf positions)).any fun (size, actual) => actual ≠ 1 ∧ actual ≠ size)
      "rotary_embedding: positions must be u32/i64 [...batch, T] with broadcastable batch axes"
    rejectIf ((dtypeOf inverseFrequencies ≠ .f32 ∧ dtypeOf inverseFrequencies ≠ .f16 ∧
        dtypeOf inverseFrequencies ≠ .bf16) ∨ shapeOf inverseFrequencies ≠ [width / 2])
      "rotary_embedding: inverse frequencies must be floating-point [D/2]"
    return (shapeOf x, dtypeOf x, deviceOf x)
  | _ => fail "an operation that is not among those of this module"

/-! ## Accepted operations -/

variable {result : List Nat × DType × Device} {indexes a x w : ν}
  {dim kernel stride padding dilation out groups : Nat}

theorem indexDType_ok {op : String} {u : Unit} :
    indexDType op indexes = .ok u ↔ dtypeOf indexes = .i64 ∨ dtypeOf indexes = .u32 := by
  rw [indexDType, rejectIf_ok]
  tauto

theorem indexSelect_ok (h : operation (.indexSelect a dim indexes) = .ok result) : dim < (shapeOf a).length ∧
      (dtypeOf indexes = .i64 ∨ dtypeOf indexes = .u32) ∧
      ∃ n, shapeOf indexes = [n] ∧ result = ((shapeOf a).set dim n, dtypeOf a, deviceOf a) := by
  rw [operation] at h
  obtain ⟨_, hdim, h⟩ := bind_ok.mp h
  obtain ⟨_, hindexes, h⟩ := bind_ok.mp h
  refine ⟨Nat.not_le.mp (rejectIf_ok.mp hdim), indexDType_ok.mp hindexes, ?_⟩
  split at h
  · next n hshape => exact ⟨n, hshape, (Except.ok.inj h).symm⟩
  · cases h

theorem scatterAdd_ok {src : ν} (h : operation (.scatterAdd a dim indexes src) = .ok result) :
    dim < (shapeOf a).length ∧
      (dtypeOf indexes = .i64 ∨ dtypeOf indexes = .u32) ∧ shapeOf indexes = shapeOf src ∧
      dtypeOf src = dtypeOf a ∧ result = (shapeOf a, dtypeOf a, deviceOf a) := by
  rw [operation] at h
  obtain ⟨_, hdim, h⟩ := bind_ok.mp h
  obtain ⟨_, hindexes, h⟩ := bind_ok.mp h
  obtain ⟨_, hshape, h⟩ := bind_ok.mp h
  obtain ⟨_, hdtype, h⟩ := bind_ok.mp h
  exact ⟨Nat.not_le.mp (rejectIf_ok.mp hdim), indexDType_ok.mp hindexes, not_not.mp (rejectIf_ok.mp hshape),
    not_not.mp (rejectIf_ok.mp hdtype), (Except.ok.inj h).symm⟩

/-- The indices of a gather fit its input. -/
def GatherFits (a : ν) (dim : Nat) (indexes : ν) : Prop :=
  (shapeOf indexes).length = (shapeOf a).length ∧
    ∀ i < (shapeOf a).length, i ≠ dim → (shapeOf indexes).getD i 0 ≤ (shapeOf a).getD i 0

theorem gather_ok :
    operation (.gather a dim indexes) = .ok result ↔ dim < (shapeOf a).length ∧
      (dtypeOf indexes = .i64 ∨ dtypeOf indexes = .u32) ∧ GatherFits a dim indexes ∧
      result = (shapeOf indexes, dtypeOf a, deviceOf a) := by
  rw [operation]
  constructor
  · intro h
    obtain ⟨_, hdim, h⟩ := bind_ok.mp h
    obtain ⟨_, hindexes, h⟩ := bind_ok.mp h
    obtain ⟨_, hrank, h⟩ := bind_ok.mp h
    split at h
    · cases h
    · next hfind =>
      refine ⟨Nat.not_le.mp (rejectIf_ok.mp hdim), indexDType_ok.mp hindexes,
        ⟨not_not.mp (rejectIf_ok.mp hrank), fun i hi hne => Nat.not_lt.mp fun hlt => ?_⟩,
        (Except.ok.inj h).symm⟩
      exact List.find?_eq_none.mp hfind i (mem_range.mpr hi) (decide_eq_true ⟨hne, hlt⟩)
  · rintro ⟨hdim, hindexes, ⟨hrank, hfits⟩, rfl⟩
    refine bind_ok.mpr ⟨(), rejectIf_ok.mpr (Nat.not_le.mpr hdim), bind_ok.mpr ⟨(), indexDType_ok.mpr hindexes, ?_⟩⟩
    refine bind_ok.mpr ⟨(), rejectIf_ok.mpr (not_not.mpr hrank), ?_⟩
    split
    · next i hfind =>
      have hfound := List.find?_some hfind
      obtain ⟨hne, hlt⟩ := of_decide_eq_true hfound
      have hi := mem_range.mp (mem_of_find?_eq_some hfind)
      exact absurd (hfits i hi hne) (Nat.not_le.mpr hlt)
    · rfl

theorem usizeSub_ok {a b c : Nat} : usizeSub a b = .ok c ↔ b ≤ a ∧ c = a - b := by
  unfold usizeSub
  split
  · next h => simp [h, eq_comm]
  · next h => simp [h]

theorem convOutDim_ok {input : Nat} :
    convOutDim input kernel stride padding dilation = .ok out ↔ 1 ≤ kernel ∧
      dilation * (kernel - 1) + 1 ≤ input + 2 * padding ∧
      out = (input + 2 * padding - (dilation * (kernel - 1) + 1)) / stride + 1 := by
  simp only [convOutDim, bind_ok, usizeSub_ok]
  constructor
  · rintro ⟨_, ⟨hkernel, rfl⟩, h⟩
    split at h
    · cases h
    · next hle => exact ⟨hkernel, Nat.not_lt.mp hle, (Except.ok.inj h).symm⟩
  · rintro ⟨hkernel, hle, rfl⟩
    exact ⟨_, ⟨hkernel, rfl⟩, if_neg (Nat.not_lt.mpr hle)⟩

/-- The last tap of the last output is within the padded input. -/
theorem convOutDim_reach {input : Nat} (h : convOutDim input kernel stride padding dilation = .ok out) :
    1 ≤ out ∧ (out - 1) * stride + dilation * (kernel - 1) + 1 ≤ input + 2 * padding := by
  obtain ⟨_, hle, rfl⟩ := convOutDim_ok.mp h
  refine ⟨Nat.le_add_left 1 _, ?_⟩
  rw [Nat.add_sub_cancel, Nat.add_assoc]
  exact (Nat.add_le_add_right (Nat.div_mul_le_self _ stride) _).trans (Nat.sub_add_cancel hle).le

theorem convTransposeDim_ok {size outputPadding : Nat} :
    convTransposeDim size kernel stride padding outputPadding dilation = .ok out ↔ 1 ≤ size ∧ 1 ≤ kernel ∧
      2 * padding ≤ (size - 1) * stride + dilation * (kernel - 1) + outputPadding + 1 ∧
      out = (size - 1) * stride + dilation * (kernel - 1) + outputPadding + 1 - 2 * padding := by
  simp only [convTransposeDim, bind_ok, usizeSub_ok]
  constructor
  · rintro ⟨_, ⟨hsize, rfl⟩, _, ⟨hkernel, rfl⟩, hle, rfl⟩
    exact ⟨hsize, hkernel, hle, rfl⟩
  · rintro ⟨hsize, hkernel, hle, rfl⟩
    exact ⟨_, ⟨hsize, rfl⟩, _, ⟨hkernel, rfl⟩, hle, rfl⟩

/-- What a convolution checks of its operands: their channels are in groups. -/
structure ConvAccepts (x w : ν) (stride dilation groups n c o cGroup : Nat) (size kernel : List Nat) : Prop where
  input : shapeOf x = n :: c :: size
  weight : shapeOf w = o :: cGroup :: kernel
  stride_pos : 1 ≤ stride
  dilation_pos : 1 ≤ dilation
  channels : c = groups * cGroup
  outputs : o = groups * (o / groups)
  dtype : dtypeOf x = dtypeOf w
  device : deviceOf x = deviceOf w

theorem convCheck_ok {op : String} {n c o cGroup : Nat} {size kernel : List Nat} {u : Unit}
    (hx : shapeOf x = n :: c :: size) (hw : shapeOf w = o :: cGroup :: kernel)
    (h : convCheck op x w stride dilation groups = .ok u) :
    ConvAccepts x w stride dilation groups n c o cGroup size kernel := by
  obtain ⟨_, hpositive, h⟩ := bind_ok.mp h
  obtain ⟨cIn, hcIn, h⟩ := bind_ok.mp h
  obtain ⟨cOut, hcOut, h⟩ := bind_ok.mp h
  obtain ⟨_, hgroups, h⟩ := bind_ok.mp h
  obtain ⟨cWeight, hcWeight, h⟩ := bind_ok.mp h
  obtain ⟨_, hcGroup, h⟩ := bind_ok.mp h
  obtain ⟨_, hdtype, hdevice⟩ := bind_ok.mp h
  obtain rfl : c = cIn := by simpa [hx] using expect_ok.mp hcIn
  obtain rfl : o = cOut := by simpa [hw] using expect_ok.mp hcOut
  obtain rfl : cGroup = cWeight := by simpa [hw] using expect_ok.mp hcWeight
  have hmod := rejectIf_ok.mp hgroups
  have hpos := rejectIf_ok.mp hpositive
  push Not at hmod hpos
  refine ⟨hx, hw, hpos.1, hpos.2.1, ?_, ?_, ?_, not_not.mp (rejectIf_ok.mp hdevice)⟩
  · rw [not_not.mp (rejectIf_ok.mp hcGroup), Nat.mul_div_cancel' (Nat.dvd_of_mod_eq_zero hmod.1)]
  · rw [Nat.mul_div_cancel' (Nat.dvd_of_mod_eq_zero hmod.2)]
  · exact not_not.mp fun hne => rejectIf_ok.mp hdtype (.inr hne)

theorem conv1d_ok (h : operation (.conv1d x w stride padding dilation groups) = .ok result) :
    ∃ n c o cGroup l k out, ConvAccepts x w stride dilation groups n c o cGroup [l] [k] ∧
      convOutDim l k stride padding dilation = .ok out ∧
      result = ([n, o, out], dtypeOf x, deviceOf x) := by
  rw [operation] at h
  obtain ⟨_, hranks, h⟩ := bind_ok.mp h
  obtain ⟨_, hcheck, h⟩ := bind_ok.mp h
  obtain ⟨out, hout, h⟩ := bind_ok.mp h
  have hranks := rejectIf_ok.mp hranks
  push Not at hranks
  obtain ⟨n, c, l, hx⟩ := length_eq_three.mp hranks.1
  obtain ⟨o, cGroup, k, hw⟩ := length_eq_three.mp hranks.2
  rw [hx, hw] at hout
  refine ⟨n, c, o, cGroup, l, k, out, convCheck_ok hx hw hcheck, hout, ?_⟩
  rw [← Except.ok.inj h, hx, hw]
  rfl

theorem conv2d_ok (h : operation (.conv2d x w stride padding dilation groups) = .ok result) :
    ∃ n c o cGroup lh lw kh kw oh ow,
      ConvAccepts x w stride dilation groups n c o cGroup [lh, lw] [kh, kw] ∧
      convOutDim lh kh stride padding dilation = .ok oh ∧
      convOutDim lw kw stride padding dilation = .ok ow ∧
      result = ([n, o, oh, ow], dtypeOf x, deviceOf x) := by
  rw [operation] at h
  obtain ⟨_, hranks, h⟩ := bind_ok.mp h
  obtain ⟨_, hcheck, h⟩ := bind_ok.mp h
  obtain ⟨oh, hoh, h⟩ := bind_ok.mp h
  obtain ⟨ow, how, h⟩ := bind_ok.mp h
  have hranks := rejectIf_ok.mp hranks
  push Not at hranks
  obtain ⟨n, c, lh, lw, hx⟩ := length_eq_four.mp hranks.1
  obtain ⟨o, cGroup, kh, kw, hw⟩ := length_eq_four.mp hranks.2
  rw [hx, hw] at hoh how
  refine ⟨n, c, o, cGroup, lh, lw, kh, kw, oh, ow, convCheck_ok hx hw hcheck, hoh, how, ?_⟩
  rw [← Except.ok.inj h, hx, hw]
  rfl

end Operations

end Metadata

/-- `NodeKind::metadata`. -/
def inferMetadata {ν : Type} [Described ν] (kind : NodeKind ν) : Fallible String Signature := do
  let (shape, dtype, device) ← Metadata.operation kind
  rejectIf (∃ child ∈ nodeChildren kind, deviceOf child ≠ device)
    ("node operands must use device " ++ device.display)
  if h : Supported dtype device then .ok ⟨shape, dtype, device, h⟩
  else fail "dtype f64 is not supported on device metal (supported: f32, f16, bf16, i64, u32, u8); cast explicitly or use device cpu"

/-- An accepted node has the metadata of its operation, and all of it is on one device. -/
theorem inferMetadata_iff {ν : Type} [Described ν] {kind : NodeKind ν} {s : Signature} :
    inferMetadata kind = .ok s ↔ Metadata.operation kind = .ok (s.shape, s.dtype, s.device) ∧
      ∀ child ∈ nodeChildren kind, deviceOf child = s.device := by
  constructor
  · intro h
    obtain ⟨⟨shape, dtype, device⟩, hoperation, h⟩ := bind_ok.mp h
    obtain ⟨_, hdevice, h⟩ := bind_ok.mp h
    split at h
    · cases h
      refine ⟨hoperation, fun child hmem => not_not.mp fun hne => ?_⟩
      exact rejectIf_ok.mp hdevice ⟨child, hmem, hne⟩
    · cases h
  · rintro ⟨hoperation, hdevice⟩
    refine bind_ok.mpr ⟨_, hoperation, bind_ok.mpr ⟨(), ?_, dif_pos s.supported⟩⟩
    exact rejectIf_ok.mpr fun ⟨child, hmem, hne⟩ => hne (hdevice child hmem)

namespace NodeProgram

/-- A fallible computation in a program. -/
def lift {ν α : Type} : Fallible String α → NodeProgram ν α
  | .ok a => .done a
  | .error fault => .error fault

/-- A program where each node is what `build` makes of its operation. -/
def interpret {ν α : Type} (build : NodeKind ν → Fallible String ν) : NodeProgram ν α → Fallible String α
  | done a => .ok a
  | error fault => .error fault
  | new kind next => do
    let node ← build kind
    (next node).interpret build

variable {ν α : Type}

theorem interpret_bind {β : Type} (build : NodeKind ν → Fallible String ν) (program : NodeProgram ν α)
    (f : α → NodeProgram ν β) :
    (program >>= f).interpret build = program.interpret build >>= fun a => (f a).interpret build := by
  induction program with
  | done a => rfl
  | error fault => rfl
  | new kind next ih =>
    change (build kind >>= fun node => (next node >>= f).interpret build) =
      (build kind >>= fun node => (next node).interpret build) >>= _
    rw [bind_assoc]
    exact congrArg _ (funext ih)

@[simp] theorem interpret_newNode (build : NodeKind ν → Fallible String ν) (kind : NodeKind ν) :
    (newNode kind).interpret build = build kind := by
  change (build kind >>= fun node => .ok node) = build kind
  exact bind_pure _

@[simp] theorem interpret_lift (build : NodeKind ν → Fallible String ν) (x : Fallible String α) :
    (lift x).interpret build = x := by
  cases x <;> rfl

theorem interpret_foldlM {σ : Type} (build : NodeKind ν → Fallible String ν) (f : σ → α → NodeProgram ν σ)
    (l : List α) (s : σ) :
    (l.foldlM f s).interpret build = l.foldlM (fun s a => (f s a).interpret build) s := by
  induction l generalizing s with
  | nil => rfl
  | cons a l ih =>
    rw [foldlM_cons, foldlM_cons, interpret_bind]
    exact congrArg _ (funext ih)

end NodeProgram

end EffectTorch
