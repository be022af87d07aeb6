import EffectTorch.Lib.Odometer
import EffectTorch.Runtime.Gguf
import EffectTorch.Runtime.LayoutViews

/-!
# Tensors and destinations of the CPU runtime

`runtime-cpu/src/tensor.rs`: the element types with their order, tensors over strided layouts and
the destination that a kernel writes. A kernel that indexes a slice outside its bounds panics.

Results:
1. `Layout.Fits.address_lt`: a layout that fits a buffer addresses its elements.
2. `CpuDestination.writeCurrent_ready`: a destination that is ready is written through its slice.
3. `CpuDestination.exists_ready`: every shape that can be stored has one.
-/

namespace EffectTorch
open List Lib Gguf

/-! ## Elements -/

/-- `Elem`. -/
class CpuElem (T : Type) where
  dtype : DType

/-- `PartialOrd` of an element type: the place of a value in its order, none for a NaN. -/
class Comparable (T : Type) where
  place : T → Option Int

/-- `a <= b`. -/
def atMost {T : Type} [Comparable T] (a b : T) : Bool :=
  match Comparable.place a, Comparable.place b with
  | some x, some y => decide (x ≤ y)
  | _, _ => false

/-- `a < b`. -/
def below {T : Type} [Comparable T] (a b : T) : Bool :=
  match Comparable.place a, Comparable.place b with
  | some x, some y => decide (x < y)
  | _, _ => false

namespace Gguf.F32

def isNan (x : F32) : Bool := decide (0x7f800000 < x.bits &&& 0x7fffffff)

/-- Zero of either sign has the same place. -/
def place (x : F32) : Int :=
  if x.bits &&& 0x80000000 = 0 then (x.bits &&& 0x7fffffff).toNat else -(x.bits &&& 0x7fffffff).toNat

instance : CpuElem F32 := ⟨.f32⟩

instance : Comparable F32 := ⟨fun x => if x.isNan then none else some x.place⟩

end Gguf.F32

instance : CpuElem UInt32 := ⟨.u32⟩

instance : Comparable UInt32 := ⟨fun x => some x.toNat⟩

section Order

variable {T : Type} [Comparable T] {a b c : T} {x y : Int}

theorem atMost_iff : atMost a b ↔ ∃ x y, Comparable.place a = some x ∧ Comparable.place b = some y ∧ x ≤ y := by
  unfold atMost
  split
  · next x y ha hb => simp [ha, hb]
  · next hnone => exact ⟨nofun, fun ⟨x, y, ha, hb, _⟩ => absurd hb (hnone x y ha)⟩

theorem atMost_some (ha : Comparable.place a = some x) (hb : Comparable.place b = some y) :
    atMost a b ↔ x ≤ y := by
  simp [atMost, ha, hb]

theorem below_some (ha : Comparable.place a = some x) (hb : Comparable.place b = some y) :
    below a b ↔ x < y := by
  simp [below, ha, hb]

end Order

/-! ## Tensors -/

/-- Elements of one dtype; a half is its bits. -/
inductive CpuBuffer where
  | f32 (values : List F32)
  | f64 (values : List F64)
  | f16 (values : List UInt16)
  | bf16 (values : List UInt16)
  | u8 (values : List UInt8)
  | u32 (values : List UInt32)
  | i64 (values : List Int64)

def CpuBuffer.len : CpuBuffer → Nat
  | .f32 values => values.length
  | .f64 values => values.length
  | .f16 values => values.length
  | .bf16 values => values.length
  | .u8 values => values.length
  | .u32 values => values.length
  | .i64 values => values.length

/-- Every address of the layout is below `len`: the check of `Tensor::new`. -/
def Layout.Fits (l : Layout) (len : Nat) : Prop :=
  ∃ n, l.checkedMaxIndex = some n ∧ n ≤ len

/-- A buffer and a layout that does not exceed it. -/
structure Tensor where
  buffer : CpuBuffer
  layout : Layout
  fits : layout.Fits buffer.len

theorem Layout.Fits.address_lt {l : Layout} {len : Nat} (h : l.Fits len) {c : List Nat}
    (hc : Coordinate l.shape c) : l.address c < len := by
  obtain ⟨n, hn, hle⟩ := h
  exact Nat.lt_of_lt_of_le (((Layout.checkedMaxIndex_exact l).1 n hn).1 c hc) hle

/-- `slice[index]`. -/
def readAt {ε T : Type} (slice : List T) (index : Nat) : Fallible ε T :=
  match slice[index]? with
  | some value => .ok value
  | none => .error (.panic ("index out of bounds: the len is " ++ toString slice.length ++
      " but the index is " ++ toString index))

/-- `slice[index] = value`. -/
def writeAt {ε T : Type} (slice : List T) (index : Nat) (value : T) : Fallible ε (List T) :=
  if index < slice.length then .ok (slice.set index value)
  else .error (.panic ("index out of bounds: the len is " ++ toString slice.length ++
      " but the index is " ++ toString index))

theorem readAt_ok {ε T : Type} {slice : List T} {index : Nat} {value : T} :
    (readAt slice index : Fallible ε T) = .ok value ↔ slice[index]? = some value := by
  unfold readAt
  split
  · next v hv => simp [hv]
  · next hnone => simp [hnone]

theorem writeAt_of_lt {ε T : Type} {slice : List T} {index : Nat} (h : index < slice.length) (value : T) :
    (writeAt slice index value : Fallible ε (List T)) = .ok (slice.set index value) :=
  if_pos h

/-- A loop over the output elements that computes something of each. -/
theorem forall₂_range {T : Type} {R : Nat → T → Prop} {n : Nat} {out : List T}
    (h : List.Forall₂ R (List.range n) out) : out.length = n ∧ ∀ i < n, ∃ v, out[i]? = some v ∧ R i v := by
  refine ⟨by rw [← h.length_eq, length_range], fun i hi => ?_⟩
  exact getElem?_of_forall₂ h (List.getElem?_eq_some_iff.mpr ⟨by rwa [length_range], getElem_range _⟩)

/-! ## Destinations -/

/-- A destination: its dtype, its layout and its storage, as the elements that the kernel writes. -/
structure CpuDestination (T : Type) where
  dtype : DType
  layout : Layout
  values : List T

/-- `{:?}` of a layout. -/
def Layout.debug (l : Layout) : String :=
  "Layout \x7b shape: " ++ toString l.shape ++ ", strides: " ++ toString l.strides ++ ", offset: " ++
    toString l.offset ++ " \x7d"

namespace CpuDestination

variable {T : Type}

def shape (d : CpuDestination T) : List Nat := d.layout.shape

def validateCurrent [CpuElem T] (d : CpuDestination T) (operation : String) : Fallible String Unit := do
  rejectIf (d.dtype ≠ CpuElem.dtype T) (operation ++ " destination dtype mismatch: expected " ++
    (CpuElem.dtype T).name ++ ", got " ++ d.dtype.name)
  rejectIf (¬ d.layout.isContiguous) (operation ++ " destination must be contiguous, got " ++ d.layout.debug)
  let maxIndex ← expect d.layout.checkedMaxIndex "layout maximum index overflow"
  rejectIf (d.values.length < maxIndex) (operation ++ " destination requires " ++ toString maxIndex ++
    " elements, storage has capacity " ++ toString d.values.length)

/-- The elements that the layout covers. -/
def slice (d : CpuDestination T) : List T :=
  (d.values.drop d.layout.offset).take d.shape.prod

/-- Runs `write` on the elements that the layout covers and returns what it leaves there. -/
def writeCurrent [CpuElem T] (d : CpuDestination T) (operation : String)
    (write : List T → Fallible String (List T)) : Fallible String (List T) := do
  d.validateCurrent operation
  let numel ← expect d.layout.checkedNumel "layout element count overflow"
  let stop ← okOr (checkedAdd d.layout.offset numel) (operation ++ " destination range overflow")
  if stop ≤ d.values.length then write ((d.values.drop d.layout.offset).take numel)
  else .error (.panic ("range end index " ++ toString stop ++ " out of range for slice of length " ++
    toString d.values.length))

/-- The destination is contiguous and lies in its storage. -/
structure Ready [CpuElem T] (d : CpuDestination T) : Prop where
  dtype : d.dtype = CpuElem.dtype T
  contiguous : d.layout.isContiguous
  room : d.layout.offset + d.shape.prod ≤ d.values.length
  addressable : d.values.length ≤ usizeMax

section Ready

variable [CpuElem T] {d : CpuDestination T}

theorem Ready.length_slice (h : d.Ready) : d.slice.length = d.shape.prod := by
  rw [slice, length_take, length_drop]
  exact Nat.min_eq_left (Nat.le_sub_of_add_le' h.room)

theorem Ready.prod_le (h : d.Ready) : d.shape.prod ≤ usizeMax :=
  Nat.le_trans (Nat.le_trans (Nat.le_add_left _ _) h.room) h.addressable

theorem Ready.checkedNumel (h : d.Ready) : d.layout.checkedNumel = some d.shape.prod := by
  unfold Layout.checkedNumel
  split
  · next hzero => rw [shape, prod_eq_zero hzero]
  · next hpos =>
    have hone : d.layout.shape = [] ∨ 1 * d.layout.shape.prod ≤ usizeMax := .inr (by rw [Nat.one_mul]; exact h.prod_le)
    exact (foldlM_checkedMul hpos).mpr ⟨hone.symm, (Nat.one_mul _).symm⟩

theorem Ready.checkedMaxIndex (h : d.Ready) : ∃ n, d.layout.checkedMaxIndex = some n ∧ n ≤ d.values.length := by
  by_cases hzero : 0 ∈ d.layout.shape
  · exact ⟨0, Layout.checkedMaxIndex_some.mpr (.inl ⟨hzero, rfl⟩), Nat.zero_le _⟩
  · have hpacked := ((Layout.isContiguous_iff_packed hzero).mp h.contiguous).1 _ (coordinate_last hzero)
    have hlast : d.layout.address (lastCoordinate d.layout.shape) + 1 = d.layout.offset + d.shape.prod := by
      rw [hpacked, Nat.add_assoc, rowIndex_last hzero]
      rfl
    have hle := Nat.le_trans (Nat.le_of_eq hlast) h.room
    exact ⟨_, Layout.checkedMaxIndex_some.mpr (.inr ⟨hzero, Nat.le_trans hle h.addressable, rfl⟩), hle⟩

theorem Ready.validateCurrent (h : d.Ready) (operation : String) : d.validateCurrent operation = .ok () := by
  obtain ⟨n, hn, hle⟩ := h.checkedMaxIndex
  refine bind_ok.mpr ⟨(), rejectIf_ok.mpr (not_not_intro h.dtype), ?_⟩
  refine bind_ok.mpr ⟨(), rejectIf_ok.mpr (not_not_intro h.contiguous), ?_⟩
  exact bind_ok.mpr ⟨n, expect_ok.mpr hn, rejectIf_ok.mpr (Nat.not_lt.mpr hle)⟩

/-- A destination that is ready is written through its slice. -/
theorem writeCurrent_ready (h : d.Ready) (operation : String) (write : List T → Fallible String (List T)) :
    d.writeCurrent operation write = write d.slice := by
  rw [writeCurrent, h.validateCurrent, ok_bind, h.checkedNumel, expect_some, ok_bind,
    checkedAdd_of_le (Nat.le_trans h.room h.addressable), okOr_some, ok_bind, if_pos h.room, slice]

end Ready

/-- The strides of a packed layout. -/
def packedStrides : List Nat → List Nat
  | [] => []
  | _ :: shape => shape.prod :: packedStrides shape

theorem length_packedStrides (shape : List Nat) : shape.length = (packedStrides shape).length := by
  induction shape with
  | nil => rfl
  | cons d shape ih => exact congrArg (· + 1) ih

theorem rowMajor_packedStrides (shape : List Nat) : RowMajor shape (packedStrides shape) := by
  induction shape with
  | nil => trivial
  | cons d shape ih => exact ⟨.inr rfl, ih⟩

/-- Every shape whose elements can be counted has a destination that is ready. -/
theorem exists_ready {T : Type} [CpuElem T] (default : T) {shape : List Nat} (hpos : 0 ∉ shape)
    (hprod : shape.prod ≤ usizeMax) : ∃ d : CpuDestination T, d.Ready ∧ d.shape = shape := by
  refine ⟨⟨CpuElem.dtype T, ⟨shape, packedStrides shape, 0, length_packedStrides shape⟩,
    List.replicate shape.prod default⟩, ⟨rfl, ?_, ?_, ?_⟩, rfl⟩
  · refine (Layout.isContiguous_iff_packed hpos).mpr ⟨?_, Nat.le_trans (Layout.prod_tail_le hpos) hprod⟩
    exact (Layout.packed_iff hpos).mpr (rowMajor_packedStrides shape)
  · show 0 + shape.prod ≤ (List.replicate shape.prod default).length
    rw [length_replicate, Nat.zero_add]
  · show (List.replicate shape.prod default).length ≤ usizeMax
    rwa [length_replicate]

end CpuDestination

end EffectTorch
