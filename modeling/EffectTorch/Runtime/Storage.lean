import EffectTorch.Runtime.Memory
import Mathlib.Algebra.BigOperators.Ring.List
import Mathlib.Algebra.Ring.Nat

/-!
# Values and their storage

`runtime/src/dtype.rs`, the fields of `runtime/src/layout.rs` and the contracts of
`runtime/src/storage.rs`: what a logical value is, how it may be stored and how many
bytes its canonical form has.

Results:
1. `checkedProduct_ok`: the checked product of a shape is its product.
2. `canonicalGeometry_dense`, `canonicalGeometry_packed`: the bytes of a dense and of a
   packed value.
-/

namespace EffectTorch
open List Lib

/-! ## Scalars -/

/-- Semantic scalar type of a tensor. -/
inductive DType where
  | f32
  | f64
  | f16
  | bf16
  | u8
  | u32
  | i64
deriving DecidableEq, Repr

namespace DType

def sizeInBytes : DType → Nat
  | f32 => 4
  | f64 => 8
  | f16 => 2
  | bf16 => 2
  | u8 => 1
  | u32 => 4
  | i64 => 8

def name : DType → String
  | f32 => "f32"
  | f64 => "f64"
  | f16 => "f16"
  | bf16 => "bf16"
  | u8 => "u8"
  | u32 => "u32"
  | i64 => "i64"

/-- `{:?}`. -/
def debug : DType → String
  | f32 => "F32"
  | f64 => "F64"
  | f16 => "F16"
  | bf16 => "BF16"
  | u8 => "U8"
  | u32 => "U32"
  | i64 => "I64"

def isFloat : DType → Bool
  | f32 | f64 | f16 | bf16 => true
  | _ => false

end DType

/-- An `f64`, by its bits. -/
structure F64 where
  bits : UInt64
deriving DecidableEq, Repr

namespace F64

def isFinite (x : F64) : Bool := (x.bits >>> 52) &&& 0x7ff != 0x7ff

/-- `x < 0.0`, for a finite `x`. -/
def negative (x : F64) : Bool := decide (0x8000000000000000 < x.bits)

/-- `x <= 0.0`, for a finite `x`. -/
def nonPositive (x : F64) : Bool := x.bits == 0 || decide (0x8000000000000000 ≤ x.bits)

/-- `x > 1.0`, for a finite `x`. -/
def aboveOne (x : F64) : Bool :=
  decide (0x3ff0000000000000 < x.bits) && decide (x.bits < 0x8000000000000000)

end F64

/-- `n as f64`: exact below `2^53`, rounded to even from there on. -/
def F64.ofNat (n : Nat) : F64 :=
  if n = 0 then ⟨0⟩
  else
    let exponent := Nat.log2 n
    let mantissa :=
      if exponent ≤ 52 then n * 2 ^ (52 - exponent)
      else
        let unit := 2 ^ (exponent - 52)
        let rest := n % unit
        if 2 * rest < unit ∨ 2 * rest = unit ∧ n / unit % 2 = 0 then n / unit else n / unit + 1
    ⟨UInt64.ofNat ((1023 + exponent) * 2 ^ 52 + (mantissa - 2 ^ 52))⟩

/-- A compute device and its ordinal. -/
inductive Device where
  | cpu (ordinal : Nat)
  | metal (ordinal : Nat)
  | cuda (ordinal : Nat)
deriving DecidableEq, Repr

namespace Device

def isCpu : Device → Bool
  | cpu _ => true
  | _ => false

def isMetal : Device → Bool
  | metal _ => true
  | _ => false

end Device

/-! ## Storage contracts -/

/-- Shape, strides and offset of a view, in elements. -/
structure Layout where
  shape : List Nat
  strides : List Nat
  offset : Nat
  rank_eq : shape.length = strides.length
deriving DecidableEq, Repr

inductive GgmlKQuant where
  | q2K
  | q3K
  | q4K
  | q5K
  | q6K
deriving DecidableEq, Repr

inductive PackedFormat where
  | ggmlKQuant (codec : GgmlKQuant)
deriving DecidableEq, Repr

inductive StorageRepresentation where
  | dense
  | packed (format : PackedFormat)
deriving DecidableEq, Repr

/-- There is no private layout yet. -/
inductive BackendLayoutAbi
deriving DecidableEq, Repr

inductive StorageLayout where
  | unconstrained
  | canonical
  | denseStrided (layout : Layout)
  | backendPrivate (abi : BackendLayoutAbi)
deriving DecidableEq, Repr

structure StorageMetadata where
  representation : StorageRepresentation
  layout : StorageLayout
deriving DecidableEq, Repr

/-- `StorageMetadata::dense`. -/
def StorageMetadata.dense : StorageMetadata := ⟨.dense, .canonical⟩

/-- A logical value: its dtype, its shape and how it is stored. -/
structure ValueSpec where
  semanticDtype : DType
  logicalShape : List Nat
  storage : StorageMetadata
deriving DecidableEq, Repr

structure StorageGeometry where
  physicalShape : List Nat
  physicalDtype : DType
  byteLen : Nat
deriving DecidableEq, Repr

namespace GgmlKQuant

def name : GgmlKQuant → String
  | q2K => "Q2_K"
  | q3K => "Q3_K"
  | q4K => "Q4_K"
  | q5K => "Q5_K"
  | q6K => "Q6_K"

def blockBytes : GgmlKQuant → Nat
  | q2K => 84
  | q3K => 110
  | q4K => 144
  | q5K => 176
  | q6K => 210

end GgmlKQuant

/-! ## Canonical geometry -/

/-- `usize::checked_mul`. -/
def checkedMul (a b : Nat) : Option Nat :=
  if a * b ≤ usizeMax then some (a * b) else none

def checkedProduct (shape : List Nat) : Except String Nat :=
  if 0 ∈ shape then .ok 0
  else
    match shape.foldlM checkedMul 1 with
    | some total => .ok total
    | none => .error "storage: element count overflows usize"

/-- The packed bytes of a logical row. -/
def GgmlKQuant.encodedRowBytes (codec : GgmlKQuant) (columns : Nat) : Option Nat :=
  if columns ≠ 0 ∧ columns % 256 = 0 then checkedMul (columns / 256) codec.blockBytes else none

/-- `ValueSpec::canonical_geometry`. -/
def ValueSpec.canonicalGeometry (value : ValueSpec) : Except String StorageGeometry := do
  let logicalElements ← checkedProduct value.logicalShape
  match value.storage.representation with
  | .dense =>
    match (value.logicalShape.drop 1).reverse.foldlM checkedMul 1 with
    | none => .error "storage: canonical dense strides overflow usize"
    | some _ =>
      match checkedMul logicalElements value.semanticDtype.sizeInBytes with
      | none => .error "storage: dense byte length overflows usize"
      | some byteLen => .ok ⟨value.logicalShape, value.semanticDtype, byteLen⟩
  | .packed (.ggmlKQuant codec) =>
    if 0 ∈ value.logicalShape then
      .error "storage: packed logical dimensions must be positive"
    else if value.semanticDtype ≠ .f32 then
      .error ("storage: " ++ codec.name ++ " represents f32 values, got " ++
        value.semanticDtype.name)
    else
      match value.logicalShape.getLast? with
      | none => .error "storage: packed values require a non-scalar logical shape"
      | some columns => do
        let rows ← checkedProduct value.logicalShape.dropLast
        match codec.encodedRowBytes columns with
        | none => .error ("storage: " ++ codec.name ++ " row width " ++ toString columns ++
            " is not a complete 256-value block or overflows")
        | some rowBytes =>
          match checkedMul rows rowBytes with
          | none => .error "storage: packed byte length overflows usize"
          | some byteLen => .ok ⟨[rows, rowBytes], .u8, byteLen⟩

theorem checkedMul_some {a b c : Nat} : checkedMul a b = some c ↔ a * b ≤ usizeMax ∧ c = a * b := by
  unfold checkedMul
  split
  · next h => simp [h, eq_comm]
  · next h => simp [h]

/-- A product of positive factors that fits has no factor that overflows on the way. -/
theorem foldlM_checkedMul {shape : List Nat} (hpos : 0 ∉ shape) {start total : Nat} :
    shape.foldlM checkedMul start = some total ↔
      (start * shape.prod ≤ usizeMax ∨ shape = []) ∧ total = start * shape.prod := by
  induction shape generalizing start with
  | nil => simp [eq_comm]
  | cons dim shape ih =>
    obtain ⟨hdim, hrest⟩ := not_or.mp fun h => hpos (mem_cons.mpr h)
    have hfactor : 1 ≤ shape.prod := Nat.pos_of_ne_zero fun hzero =>
      hrest (prod_eq_zero_iff.mp hzero)
    rw [foldlM_cons, prod_cons, ← Nat.mul_assoc]
    unfold checkedMul
    split
    · next hle =>
      change shape.foldlM checkedMul (start * dim) = some total ↔ _
      rw [ih hrest]
      constructor
      · rintro ⟨hfits, rfl⟩
        refine ⟨.inl ?_, rfl⟩
        rcases hfits with hfits | rfl
        · exact hfits
        · rw [prod_nil, Nat.mul_one]
          exact hle
      · rintro ⟨hfits, rfl⟩
        exact ⟨.inl (hfits.resolve_right (cons_ne_nil _ _)), rfl⟩
    · next hgt =>
      refine ⟨(fun h => nomatch h), fun ⟨hfits, _⟩ => ?_⟩
      exact absurd (Nat.le_trans (Nat.le_mul_of_pos_right _ hfactor)
        (hfits.resolve_right (cons_ne_nil _ _))) hgt

/-- The checked product of a shape is its product. -/
theorem checkedProduct_ok {shape : List Nat} {total : Nat} :
    checkedProduct shape = .ok total ↔ shape.prod ≤ usizeMax ∧ total = shape.prod := by
  unfold checkedProduct
  split
  · next hzero =>
    rw [prod_eq_zero hzero]
    simp [eq_comm]
  · next hpos =>
    have hone : shape = [] → shape.prod ≤ usizeMax := by
      rintro rfl
      decide
    have hfold : ∀ total, shape.foldlM checkedMul 1 = some total ↔
        shape.prod ≤ usizeMax ∧ total = shape.prod := fun total => by
      rw [foldlM_checkedMul hpos, Nat.one_mul]
      exact ⟨fun h => ⟨h.1.elim id hone, h.2⟩, fun h => ⟨.inl h.1, h.2⟩⟩
    split
    · next value hvalue =>
      rw [Except.ok.injEq, ← (hfold total)]
      rw [hvalue, Option.some.injEq]
    · next hnone => exact ⟨nofun, (fun h => nomatch hnone.symm.trans ((hfold total).mpr h))⟩

theorem encodedRowBytes_some {codec : GgmlKQuant} {columns bytes : Nat} :
    codec.encodedRowBytes columns = some bytes ↔ columns ≠ 0 ∧ columns % 256 = 0 ∧
      columns / 256 * codec.blockBytes ≤ usizeMax ∧ bytes = columns / 256 * codec.blockBytes := by
  unfold GgmlKQuant.encodedRowBytes
  split
  · next h => rw [checkedMul_some, and_iff_right h.1, and_iff_right h.2]
  · next h => exact ⟨nofun, fun ⟨hne, hmod, _⟩ => absurd ⟨hne, hmod⟩ h⟩

/-- The bytes of a dense value. -/
theorem canonicalGeometry_dense {value : ValueSpec} {geometry : StorageGeometry}
    (hdense : value.storage.representation = .dense)
    (h : value.canonicalGeometry = .ok geometry) :
    geometry = ⟨value.logicalShape, value.semanticDtype,
      value.logicalShape.prod * value.semanticDtype.sizeInBytes⟩ ∧
    value.logicalShape.prod * value.semanticDtype.sizeInBytes ≤ usizeMax := by
  unfold ValueSpec.canonicalGeometry at h
  obtain ⟨elements, hproduct, h⟩ := bind_ok.mp h
  obtain ⟨_, rfl⟩ := checkedProduct_ok.mp hproduct
  rw [hdense] at h
  dsimp only at h
  split at h
  · cases h
  · split at h
    · cases h
    · next byteLen hbytes =>
      obtain ⟨hfits, rfl⟩ := checkedMul_some.mp hbytes
      exact ⟨(Except.ok.inj h).symm, hfits⟩

/-- The bytes of a packed value: a row is a number of whole blocks. -/
theorem canonicalGeometry_packed {value : ValueSpec} {geometry : StorageGeometry}
    {codec : GgmlKQuant} (hpacked : value.storage.representation = .packed (.ggmlKQuant codec))
    (h : value.canonicalGeometry = .ok geometry) :
    ∃ leading columns, value.logicalShape = leading ++ [columns] ∧ 0 ∉ value.logicalShape ∧
      columns % 256 = 0 ∧ geometry = ⟨[leading.prod, columns / 256 * codec.blockBytes], .u8,
        leading.prod * (columns / 256 * codec.blockBytes)⟩ ∧
      leading.prod * (columns / 256 * codec.blockBytes) ≤ usizeMax := by
  unfold ValueSpec.canonicalGeometry at h
  obtain ⟨elements, _, h⟩ := bind_ok.mp h
  rw [hpacked] at h
  dsimp only at h
  split at h
  · cases h
  · next hpos =>
    split at h
    · cases h
    · split at h
      · cases h
      · next columns hlast =>
        obtain ⟨rows, hrows, h⟩ := bind_ok.mp h
        obtain ⟨_, rfl⟩ := checkedProduct_ok.mp hrows
        split at h
        · cases h
        · next rowBytes hbytes =>
          obtain ⟨_, hmod, _, rfl⟩ := encodedRowBytes_some.mp hbytes
          split at h
          · cases h
          · next byteLen htotal =>
            obtain ⟨hfits, rfl⟩ := checkedMul_some.mp htotal
            refine ⟨_, columns, (dropLast_append_getLast? _ hlast).symm, hpos, hmod,
              (Except.ok.inj h).symm, hfits⟩

end EffectTorch
