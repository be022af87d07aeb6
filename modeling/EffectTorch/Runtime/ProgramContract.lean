import EffectTorch.Runtime.LayoutViews
import EffectTorch.Runtime.Program

/-!
# Which calls a signature accepts

What a call has to satisfy is stated here without the order of the checks and without
the checked arithmetic: the storage of a binding has to be described by its
representation and laid out as its handle and its declaration say.

Results:
1. `validateBuffer_ok`: which buffers store a value.
2. `validateMetadata_ok`, `validateInvocation_ok`: which bindings and which calls are
   accepted.
3. `validateInvocation_exact`: the same, and what an accepted call may rely on: the bytes
   of every element and of every packed block lie inside their allocation.
-/

namespace EffectTorch
open List Lib

/-! ## Extents -/

namespace Layout

/-- Packed row-major at offset zero. -/
def Canonical (l : Layout) : Prop :=
  l.isContiguous = true ∧ l.offset = 0

/-- The bytes up to the end of the last element. -/
def extent (l : Layout) (dtype : DType) : Nat :=
  if 0 ∈ l.shape then 0 else (l.address (lastCoordinate l.shape) + 1) * dtype.sizeInBytes

end Layout

theorem DType.sizeInBytes_pos (dtype : DType) : 0 < dtype.sizeInBytes := by
  cases dtype <;> decide

namespace Layout

variable {l : Layout} {dtype : DType}

theorem checkedByteSize_some {n : Nat} :
    l.checkedByteSize dtype = some n ↔ l.extent dtype ≤ usizeMax ∧ n = l.extent dtype := by
  unfold checkedByteSize extent
  rw [Option.bind_eq_bind, Option.bind_eq_some_iff]
  simp only [checkedMaxIndex_some, checkedMul_some]
  by_cases hzero : 0 ∈ l.shape
  · simp [hzero]
  · simp only [hzero, false_and, false_or, not_false_eq_true, true_and, if_false]
    constructor
    · rintro ⟨_, ⟨_, rfl⟩, h⟩
      exact h
    · rintro ⟨hfits, rfl⟩
      exact ⟨_, ⟨Nat.le_trans (Nat.le_mul_of_pos_right _ dtype.sizeInBytes_pos) hfits, rfl⟩,
        hfits, rfl⟩

/-- The element of every coordinate ends inside the extent. -/
theorem element_le_extent {c : List Nat} (hc : Coordinate l.shape c) :
    l.address c * dtype.sizeInBytes + dtype.sizeInBytes ≤ l.extent dtype := by
  rw [extent, if_neg hc.positive, ← Nat.succ_mul]
  exact Nat.mul_le_mul_right _ (Nat.succ_le_succ (address_le_last hc))

theorem Canonical.address_eq (h : l.Canonical) {c : List Nat} (hc : Coordinate l.shape c) :
    l.address c = rowIndex l.shape c := by
  rw [packed_of_rowMajor (isContiguous_iff.mp h.1).1 c hc, h.2, Nat.zero_add]

/-- A canonical layout leaves no gaps. -/
theorem Canonical.extent_eq (h : l.Canonical) :
    l.extent dtype = l.shape.prod * dtype.sizeInBytes := by
  unfold extent
  split
  · next hzero => rw [prod_eq_zero hzero, Nat.zero_mul]
  · next hpos => rw [h.address_eq (coordinate_last hpos), rowIndex_last hpos]

end Layout

/-! ## Geometry -/

namespace StorageRepresentation

/-- The physical shape of a value: a packed row is a row of bytes. -/
def physicalShape (shape : List Nat) : StorageRepresentation → List Nat
  | dense => shape
  | packed (.ggmlKQuant codec) =>
    [shape.dropLast.prod, (shape.getLast?.getD 0) / 256 * codec.blockBytes]

def physicalDtype (dtype : DType) : StorageRepresentation → DType
  | dense => dtype
  | packed _ => .u8

/-- A value of this shape and dtype can be stored so, and its sizes fit `usize`. A packed
row is a number of whole blocks of `f32` values. -/
def Describes (shape : List Nat) (dtype : DType) : StorageRepresentation → Prop
  | dense => ProductsFit shape.tail ∧ shape.prod * dtype.sizeInBytes ≤ usizeMax
  | packed (.ggmlKQuant codec) => dtype = .f32 ∧ 0 ∉ shape ∧ shape.prod ≤ usizeMax ∧
      ∃ leading columns, shape = leading ++ [columns] ∧ columns % 256 = 0 ∧
        leading.prod * (columns / 256 * codec.blockBytes) ≤ usizeMax

end StorageRepresentation

theorem foldlM_reverse_checkedMul {shape : List Nat} {total : Nat} :
    shape.reverse.foldlM checkedMul 1 = some total ↔ ProductsFit shape ∧ total = shape.prod := by
  induction shape generalizing total with
  | nil => simp [ProductsFit, eq_comm]
  | cons d shape ih =>
    rw [reverse_cons, foldlM_append, Option.bind_eq_bind, Option.bind_eq_some_iff]
    simp only [ih, foldlM_cons, foldlM_nil, ProductsFit, prod_cons]
    constructor
    · rintro ⟨_, ⟨hrest, rfl⟩, h⟩
      obtain ⟨hfits, rfl⟩ := checkedMul_some.mp (by simpa using h)
      exact ⟨⟨Nat.mul_comm d _ ▸ hfits, hrest⟩, Nat.mul_comm _ _⟩
    · rintro ⟨⟨hfits, hrest⟩, rfl⟩
      have hmul : checkedMul shape.prod d = some (d * shape.prod) :=
        checkedMul_some.mpr ⟨Nat.mul_comm d _ ▸ hfits, Nat.mul_comm _ _⟩
      exact ⟨_, ⟨hrest, rfl⟩, by simp [hmul]⟩

namespace ValueSpec

variable {value : ValueSpec} {geometry : StorageGeometry} {layout : Layout}

theorem canonicalGeometry_dense_iff (hdense : value.storage.representation = .dense) :
    value.canonicalGeometry = .ok geometry ↔
      (ProductsFit value.logicalShape.tail ∧
        value.logicalShape.prod * value.semanticDtype.sizeInBytes ≤ usizeMax) ∧
      geometry = ⟨value.logicalShape, value.semanticDtype,
        value.logicalShape.prod * value.semanticDtype.sizeInBytes⟩ := by
  unfold canonicalGeometry
  rw [bind_ok]
  simp only [checkedProduct_ok, hdense, drop_one]
  constructor
  · rintro ⟨_, ⟨_, rfl⟩, h⟩
    split at h
    · cases h
    · next total hstrides =>
      split at h
      · cases h
      · next byteLen hbytes =>
        obtain ⟨hfits, rfl⟩ := checkedMul_some.mp hbytes
        exact ⟨⟨(foldlM_reverse_checkedMul.mp hstrides).1, hfits⟩, (Except.ok.inj h).symm⟩
  · rintro ⟨⟨hstrides, hfits⟩, rfl⟩
    have hprod : value.logicalShape.prod ≤ usizeMax :=
      Nat.le_trans (Nat.le_mul_of_pos_right _ value.semanticDtype.sizeInBytes_pos) hfits
    refine ⟨_, ⟨hprod, rfl⟩, ?_⟩
    rw [foldlM_reverse_checkedMul.mpr ⟨hstrides, rfl⟩, checkedMul_some.mpr ⟨hfits, rfl⟩]

theorem canonicalGeometry_packed_iff {codec : GgmlKQuant}
    (hpacked : value.storage.representation = .packed (.ggmlKQuant codec)) :
    value.canonicalGeometry = .ok geometry ↔
      (StorageRepresentation.packed (.ggmlKQuant codec)).Describes value.logicalShape
        value.semanticDtype ∧
      geometry = ⟨[value.logicalShape.dropLast.prod,
          (value.logicalShape.getLast?.getD 0) / 256 * codec.blockBytes], .u8,
        value.logicalShape.dropLast.prod *
          ((value.logicalShape.getLast?.getD 0) / 256 * codec.blockBytes)⟩ := by
  constructor
  · intro h
    have hproduct := h
    unfold canonicalGeometry at hproduct
    obtain ⟨_, htotal, hproduct⟩ := bind_ok.mp hproduct
    rw [hpacked] at hproduct
    obtain ⟨leading, columns, hshape, hpos, hmod, hgeometry, hfits⟩ :=
      canonicalGeometry_packed hpacked h
    have hdtype : value.semanticDtype = .f32 := by
      dsimp only at hproduct
      split at hproduct
      · cases hproduct
      · split at hproduct
        · cases hproduct
        · next hdtype => exact not_not.mp hdtype
    refine ⟨⟨hdtype, hpos, (checkedProduct_ok.mp htotal).1, leading, columns, hshape, hmod, hfits⟩,
      ?_⟩
    rw [hgeometry, hshape, dropLast_concat, List.getLast?_concat, Option.getD_some]
  · rintro ⟨⟨hdtype, hpos, htotal, leading, columns, hshape, hmod, hfits⟩, rfl⟩
    have hblock : 0 < codec.blockBytes := by cases codec <;> decide
    have hcolumns : columns ≠ 0 := fun hzero => hpos (by simp [hshape, hzero])
    have hleading : 0 < leading.prod := Nat.pos_of_ne_zero fun hzero =>
      hpos (by rw [hshape]; exact mem_append_left _ (prod_eq_zero_iff.mp hzero))
    have hrow : 0 < columns / 256 * codec.blockBytes := Nat.mul_pos
      (Nat.div_pos (Nat.le_of_dvd (Nat.pos_of_ne_zero hcolumns) (Nat.dvd_of_mod_eq_zero hmod))
        (by decide)) hblock
    have hrows : leading.prod ≤ usizeMax :=
      Nat.le_trans (Nat.le_mul_of_pos_right _ hrow) hfits
    have hbytes : columns / 256 * codec.blockBytes ≤ usizeMax :=
      Nat.le_trans (Nat.le_mul_of_pos_left _ hleading) hfits
    unfold canonicalGeometry
    refine bind_ok.mpr ⟨_, checkedProduct_ok.mpr ⟨htotal, rfl⟩, ?_⟩
    rw [hpacked]
    dsimp only
    rw [if_neg hpos, if_neg (not_not_intro hdtype), hshape, List.getLast?_concat]
    refine bind_ok.mpr ⟨leading.prod, ?_, ?_⟩
    · rw [dropLast_concat]
      exact checkedProduct_ok.mpr ⟨hrows, rfl⟩
    · rw [encodedRowBytes_some.mpr ⟨hcolumns, hmod, hbytes, rfl⟩]
      dsimp only
      rw [checkedMul_some.mpr ⟨hfits, rfl⟩]
      simp

/-- The geometry of a value, where it has one. -/
theorem canonicalGeometry_ok :
    value.canonicalGeometry = .ok geometry ↔
      value.storage.representation.Describes value.logicalShape value.semanticDtype ∧
      geometry = ⟨value.storage.representation.physicalShape value.logicalShape,
        value.storage.representation.physicalDtype value.semanticDtype,
        (value.storage.representation.physicalShape value.logicalShape).prod *
          (value.storage.representation.physicalDtype value.semanticDtype).sizeInBytes⟩ := by
  match hrep : value.storage.representation with
  | .dense => exact canonicalGeometry_dense_iff hrep
  | .packed (.ggmlKQuant codec) =>
    rw [canonicalGeometry_packed_iff hrep]
    simp [StorageRepresentation.physicalShape, StorageRepresentation.physicalDtype,
      DType.sizeInBytes]

end ValueSpec

/-! ## Storage -/

/-- What a declared layout says of the physical one. -/
def StorageLayout.Admits (layout : Layout) : StorageLayout → Prop
  | unconstrained => True
  | canonical => layout.Canonical
  | denseStrided expected => layout = expected
  | backendPrivate abi => nomatch abi

theorem ValueSpec.validateLayout_ok {constraint : StorageLayout} {layout : Layout} {u : Unit} :
    ValueSpec.validateLayout constraint layout = .ok u ↔ constraint.Admits layout := by
  match constraint with
  | .unconstrained => exact iff_of_true rfl trivial
  | .canonical =>
    rw [validateLayout, reject_ok, not_or, not_not, Bool.not_eq_false]
    rfl
  | .denseStrided expected =>
    rw [validateLayout, reject_ok, not_not]
    rfl

/-- A layout in which a value can be stored: its representation describes the value, the
physical layout has the shape that comes of it and is the one that the value declares, and
its extent fits `usize`. A packed value declares the canonical layout. -/
structure ValueSpec.StoredAs (value : ValueSpec) (layout : Layout) : Prop where
  described : value.storage.representation.Describes value.logicalShape value.semanticDtype
  packed_canonical : value.storage.representation ≠ .dense → value.storage.layout = .canonical
  shape_eq : layout.shape = value.storage.representation.physicalShape value.logicalShape
  admitted : value.storage.layout.Admits layout
  extent_le :
    layout.extent (value.storage.representation.physicalDtype value.semanticDtype) ≤ usizeMax

namespace ValueSpec

variable {value : ValueSpec} {layout : Layout}

theorem StoredAs.canonicalGeometry (h : value.StoredAs layout) :
    value.canonicalGeometry = .ok
      ⟨value.storage.representation.physicalShape value.logicalShape,
        value.storage.representation.physicalDtype value.semanticDtype,
        (value.storage.representation.physicalShape value.logicalShape).prod *
          (value.storage.representation.physicalDtype value.semanticDtype).sizeInBytes⟩ :=
  canonicalGeometry_ok.mpr ⟨h.described, rfl⟩

theorem StoredAs.validate (h : value.StoredAs layout) : value.validate = .ok () := by
  refine bind_ok.mpr ⟨_, h.canonicalGeometry, ?_⟩
  have hcanonical := h.packed_canonical
  have hadmitted := h.admitted
  have hshape := h.shape_eq
  have hextent := h.extent_le
  match hrep : value.storage.representation, hlayout : value.storage.layout with
  | .packed format, .canonical => rfl
  | .packed format, .unconstrained =>
    rw [hrep, hlayout] at hcanonical
    cases hcanonical nofun
  | .packed format, .denseStrided expected =>
    rw [hrep, hlayout] at hcanonical
    cases hcanonical nofun
  | .dense, .canonical => rfl
  | .dense, .unconstrained => rfl
  | .dense, .denseStrided expected =>
    rw [hlayout] at hadmitted
    obtain rfl : layout = expected := hadmitted
    rw [hrep] at hshape hextent
    exact bind_ok.mpr ⟨(), reject_ok.mpr (not_not_intro hshape),
      bind_ok.mpr ⟨_, orError_ok.mpr (Layout.checkedByteSize_some.mpr ⟨hextent, rfl⟩), rfl⟩⟩

theorem validate_packed (h : value.validate = .ok ())
    (hpacked : value.storage.representation ≠ .dense) : value.storage.layout = .canonical := by
  obtain ⟨_, _, h⟩ := bind_ok.mp h
  match hrep : value.storage.representation, hlayout : value.storage.layout with
  | .packed format, .canonical => rfl
  | .packed format, .unconstrained =>
    rw [hrep, hlayout] at h
    cases h
  | .packed format, .denseStrided expected =>
    rw [hrep, hlayout] at h
    cases h
  | .dense, _ => exact absurd hrep hpacked

/-- A packed value has the extent of its geometry. -/
theorem StoredAs.extent_packed (h : value.StoredAs layout)
    (hpacked : value.storage.representation ≠ .dense) (dtype : DType) :
    layout.extent dtype =
      (value.storage.representation.physicalShape value.logicalShape).prod *
        dtype.sizeInBytes := by
  have hadmitted := h.admitted
  rw [h.packed_canonical hpacked] at hadmitted
  have hcanonical : layout.Canonical := hadmitted
  rw [hcanonical.extent_eq, h.shape_eq]

/-- Which buffers store a value. -/
theorem validateBuffer_ok {physicalDtype : DType} {byteLen : Nat} :
    value.validateBuffer physicalDtype layout byteLen = .ok () ↔
      value.StoredAs layout ∧
      physicalDtype = value.storage.representation.physicalDtype value.semanticDtype ∧
      layout.extent physicalDtype ≤ byteLen ∧
      (value.storage.representation ≠ .dense → byteLen = layout.extent physicalDtype) := by
  unfold validateBuffer
  constructor
  · intro h
    obtain ⟨_, hvalid, h⟩ := bind_ok.mp h
    obtain ⟨geometry, hgeometry, h⟩ := bind_ok.mp h
    obtain ⟨_, hphysical, h⟩ := bind_ok.mp h
    obtain ⟨_, hlayout, h⟩ := bind_ok.mp h
    obtain ⟨required, hrequired, h⟩ := bind_ok.mp h
    obtain ⟨hdescribed, rfl⟩ := canonicalGeometry_ok.mp hgeometry
    obtain ⟨hdtype, hshape⟩ := not_or.mp (reject_ok.mp hphysical)
    obtain rfl := not_not.mp hdtype
    obtain ⟨hextent, rfl⟩ := Layout.checkedByteSize_some.mp (orError_ok.mp hrequired)
    obtain ⟨hlen, hpacked⟩ := not_or.mp (reject_ok.mp h)
    have hstored : value.StoredAs layout := ⟨hdescribed, validate_packed hvalid, not_not.mp hshape,
      validateLayout_ok.mp hlayout, hextent⟩
    refine ⟨hstored, rfl, Nat.le_of_not_lt hlen, fun hrep => ?_⟩
    rw [hstored.extent_packed hrep]
    exact not_not.mp fun hne => hpacked ⟨hrep, hne⟩
  · rintro ⟨hstored, rfl, hlen, hpacked⟩
    refine bind_ok.mpr ⟨(), hstored.validate, bind_ok.mpr ⟨_, hstored.canonicalGeometry, ?_⟩⟩
    refine bind_ok.mpr ⟨(), reject_ok.mpr ?_, bind_ok.mpr ⟨(), validateLayout_ok.mpr hstored.admitted,
      bind_ok.mpr ⟨_, orError_ok.mpr (Layout.checkedByteSize_some.mpr ⟨hstored.extent_le, rfl⟩),
        reject_ok.mpr ?_⟩⟩⟩
    · exact not_or.mpr ⟨not_not_intro rfl, not_not_intro hstored.shape_eq⟩
    · rintro (hlt | ⟨hrep, hne⟩)
      · exact absurd hlen (Nat.not_le_of_lt hlt)
      · exact hne ((hpacked hrep).trans (hstored.extent_packed hrep _))

end ValueSpec

/-! ## Bindings -/

/-- What an accepted binding has to be: of the declared dtype, placement, shape and
representation, laid out as the policy of the declaration says, and storable under what
its handle, its declaration and the target of its canonicalization say. -/
structure BindingContract (decl : BindingDecl) (value : ValueSpec) (placement : Placement)
    (layout : Layout) : Prop where
  dtype_eq : value.semanticDtype = decl.dtype
  placement_eq : placement = decl.placement
  shape_eq : value.logicalShape = decl.shape
  representation_eq : value.storage.representation = decl.storage.representation
  policy : decl.layout.matches layout = true
  stored : value.StoredAs layout
  declared : decl.valueSpec.StoredAs layout
  target : ∀ target, decl.layout = .canonicalize target → (decl.targetSpec target).StoredAs target

section Bindings

variable {decl : BindingDecl} {value : ValueSpec} {placement : Placement} {layout : Layout}
  {binding : Nat}

/-- A buffer of exactly the extent of the layout stores a value that the layout can. -/
theorem validateBuffer_extent {physicalDtype : DType} {extent : Nat}
    (hextent : layout.checkedByteSize physicalDtype = some extent) :
    value.validateBuffer physicalDtype layout extent = .ok () ↔
      value.StoredAs layout ∧
      physicalDtype = value.storage.representation.physicalDtype value.semanticDtype := by
  obtain ⟨_, rfl⟩ := Layout.checkedByteSize_some.mp hextent
  rw [ValueSpec.validateBuffer_ok]
  exact ⟨fun h => ⟨h.1, h.2.1⟩, fun h => ⟨h.1, h.2, Nat.le_refl _, fun _ => rfl⟩⟩

@[simp] theorem targetSpec_representation (target : Layout) :
    (decl.targetSpec target).storage.representation = decl.storage.representation := by
  unfold BindingDecl.targetSpec
  split <;> rfl

@[simp] theorem targetSpec_dtype (target : Layout) :
    (decl.targetSpec target).semanticDtype = decl.dtype := by
  unfold BindingDecl.targetSpec
  split <;> rfl

theorem validateTarget_ok :
    decl.validateTarget binding (decl.storage.representation.physicalDtype decl.dtype) = .ok () ↔
      ∀ target, decl.layout = .canonicalize target → (decl.targetSpec target).StoredAs target := by
  unfold BindingDecl.validateTarget
  cases hpolicy : decl.layout with
  | require constraint => exact iff_of_true rfl nofun
  | canonicalize target =>
    simp only [bind_ok, orError_ok, mapError_ok, BindingLayoutPolicy.canonicalize.injEq,
      forall_eq']
    constructor
    · rintro ⟨extent, hextent, h⟩
      exact ((validateBuffer_extent hextent).mp h).1
    · intro h
      have hfits := h.extent_le
      rw [targetSpec_representation, targetSpec_dtype] at hfits
      have hextent := Layout.checkedByteSize_some.mpr ⟨hfits, rfl⟩
      exact ⟨_, hextent, (validateBuffer_extent hextent).mpr ⟨h, by simp⟩⟩

/-- Which bindings are accepted. -/
theorem validateMetadata_ok :
    decl.validateMetadata binding value placement layout = .ok () ↔
      BindingContract decl value placement layout := by
  unfold BindingDecl.validateMetadata
  constructor
  · intro h
    obtain ⟨_, hdtype, h⟩ := bind_ok.mp h
    obtain ⟨_, hplacement, h⟩ := bind_ok.mp h
    obtain ⟨_, hshape, h⟩ := bind_ok.mp h
    obtain ⟨_, hrep, h⟩ := bind_ok.mp h
    obtain ⟨_, hpolicy, h⟩ := bind_ok.mp h
    obtain ⟨_, _, h⟩ := bind_ok.mp h
    obtain ⟨geometry, hgeometry, h⟩ := bind_ok.mp h
    obtain ⟨extent, hextent, h⟩ := bind_ok.mp h
    obtain ⟨_, hstored, h⟩ := bind_ok.mp h
    obtain ⟨_, hdeclared, h⟩ := bind_ok.mp h
    have hdtype := not_not.mp (reject_ok.mp hdtype)
    have hrep := not_not.mp (reject_ok.mp hrep)
    obtain ⟨_, rfl⟩ := ValueSpec.canonicalGeometry_ok.mp (mapError_ok.mp hgeometry)
    have hbytes := orError_ok.mp hextent
    refine ⟨hdtype, not_not.mp (reject_ok.mp hplacement), not_not.mp (reject_ok.mp hshape), hrep,
      Bool.not_eq_false _ ▸ reject_ok.mp hpolicy,
      ((validateBuffer_extent hbytes).mp (mapError_ok.mp hstored)).1,
      ((validateBuffer_extent hbytes).mp (mapError_ok.mp hdeclared)).1, ?_⟩
    rw [hdtype, hrep] at h
    exact validateTarget_ok.mp h
  · intro h
    have hextent := Layout.checkedByteSize_some.mpr ⟨h.stored.extent_le, rfl⟩
    have hphysical : decl.storage.representation.physicalDtype decl.dtype =
        value.storage.representation.physicalDtype value.semanticDtype := by
      rw [h.dtype_eq, h.representation_eq]
    refine bind_ok.mpr ⟨(), reject_ok.mpr (not_not_intro h.dtype_eq), ?_⟩
    refine bind_ok.mpr ⟨(), reject_ok.mpr (not_not_intro h.placement_eq), ?_⟩
    refine bind_ok.mpr ⟨(), reject_ok.mpr (not_not_intro h.shape_eq), ?_⟩
    refine bind_ok.mpr ⟨(), reject_ok.mpr (not_not_intro h.representation_eq), ?_⟩
    refine bind_ok.mpr ⟨(), reject_ok.mpr (Bool.not_eq_false _ ▸ h.policy), ?_⟩
    refine bind_ok.mpr ⟨(), mapError_ok.mpr h.stored.validate, ?_⟩
    refine bind_ok.mpr ⟨_, mapError_ok.mpr h.stored.canonicalGeometry, ?_⟩
    refine bind_ok.mpr ⟨_, orError_ok.mpr hextent, ?_⟩
    refine bind_ok.mpr ⟨(), mapError_ok.mpr ((validateBuffer_extent hextent).mpr ⟨h.stored, rfl⟩), ?_⟩
    refine bind_ok.mpr ⟨(), mapError_ok.mpr ((validateBuffer_extent hextent).mpr
      ⟨h.declared, hphysical.symm⟩), ?_⟩
    dsimp only
    rw [← hphysical]
    exact validateTarget_ok.mpr h.target

end Bindings

/-! ## Calls -/

/-- The runtime values that a declaration allows. -/
def RuntimeValueDecl.Accepts (decl : RuntimeValueDecl) : RuntimeValue → Prop
  | .u64 value => ∃ min max, decl.kind = .u64 min max ∧ min ≤ value ∧ value ≤ max
  | .u32Array values => ∃ maxLen min max, decl.kind = .u32Array maxLen min max ∧
      values.length ≤ maxLen ∧ min ≤ max ∧ ∀ value ∈ values, min ≤ value ∧ value ≤ max

/-- A loop that checks each item at its position checks each against its declaration. -/
theorem foldlM_declared {α β ε : Type} {R : β → α → Prop} {f : α × Nat → Except ε Unit}
    {decls : List β} {items : List α} (hlen : decls.length = items.length)
    (hstep : ∀ i decl item, decls[i]? = some decl → (f (item, i) = .ok () ↔ R decl item)) :
    items.zipIdx.foldlM (fun _ entry => f entry) () = .ok () ↔ List.Forall₂ R decls items := by
  rw [foldlM_check, forall₂_iff_get]
  constructor
  · refine fun h => ⟨hlen, fun i hd hi => ?_⟩
    refine (hstep i _ _ (List.getElem?_eq_getElem hd)).mp (h _ ?_)
    exact mk_mem_zipIdx_iff_getElem?.mpr (List.getElem?_eq_getElem hi)
  · rintro ⟨_, h⟩ ⟨item, i⟩ hentry
    obtain ⟨hi, rfl⟩ := List.getElem?_eq_some_iff.mp (mk_mem_zipIdx_iff_getElem?.mp hentry)
    have hd : i < decls.length := hlen ▸ hi
    exact (hstep i _ _ (List.getElem?_eq_getElem hd)).mpr (h i hd hi)

theorem RuntimeValueDecl.validate_ok {decl : RuntimeValueDecl} {value : RuntimeValue} :
    decl.validate value = .ok () ↔ decl.Accepts value := by
  obtain ⟨name, kind⟩ := decl
  match kind, value with
  | .u64 min max, .u64 value =>
    simp only [validate, Accepts, bind_ok, reject_ok, RuntimeValueKind.u64.injEq]
    constructor
    · rintro ⟨_, _, h⟩
      obtain ⟨hmin, hmax⟩ := not_or.mp h
      exact ⟨min, max, ⟨rfl, rfl⟩, UInt64.not_lt.mp hmin, UInt64.not_lt.mp hmax⟩
    · rintro ⟨_, _, ⟨rfl, rfl⟩, hmin, hmax⟩
      exact ⟨(), UInt64.not_lt.mpr (UInt64.le_trans hmin hmax),
        not_or.mpr ⟨UInt64.not_lt.mpr hmin, UInt64.not_lt.mpr hmax⟩⟩
  | .u32Array maxLen min max, .u32Array values =>
    simp only [validate, Accepts, bind_ok, reject_ok, RuntimeValueKind.u32Array.injEq,
      foldlM_check]
    constructor
    · rintro ⟨_, hlen, _, hbounds, h⟩
      refine ⟨maxLen, min, max, ⟨rfl, rfl, rfl⟩, Nat.le_of_not_lt hlen,
        UInt32.not_lt.mp hbounds, fun value hvalue => ?_⟩
      obtain ⟨i, hi⟩ := mem_iff_getElem?.mp hvalue
      have helement := h (value, i) (mk_mem_zipIdx_iff_getElem?.mpr hi)
      obtain ⟨hmin, hmax⟩ := not_or.mp helement
      exact ⟨UInt32.not_lt.mp hmin, UInt32.not_lt.mp hmax⟩
    · rintro ⟨_, _, _, ⟨rfl, rfl, rfl⟩, hlen, hbounds, h⟩
      refine ⟨(), Nat.not_lt_of_le hlen, (), UInt32.not_lt.mpr hbounds, fun ⟨value, i⟩ hentry => ?_⟩
      have hvalue := mem_of_getElem? (mk_mem_zipIdx_iff_getElem?.mp hentry)
      exact not_or.mpr
        ⟨UInt32.not_lt.mpr (h value hvalue).1, UInt32.not_lt.mpr (h value hvalue).2⟩
  | .u64 min max, .u32Array values => simp [validate, Accepts]
  | .u32Array maxLen min max, .u64 value => simp [validate, Accepts]

/-- What an accepted call has to be. Its buffers belong to the runtime and meet their
declarations; its scalars, runtime values and RNG counters are the declared ones. -/
structure InvocationContract (signature : ProgramSignature) (runtime : RuntimeId)
    (invocation : Invocation) : Prop where
  bindings : List.Forall₂ (fun decl buffer => buffer.runtimeId = runtime ∧
    BindingContract decl buffer.valueSpec buffer.placement buffer.layout)
    signature.bindings invocation.bindings
  scalars : List.Forall₂ (fun declared value => declared = ScalarValue.scalarType value)
    signature.invocation.scalars invocation.scalars
  runtimeValues : List.Forall₂ RuntimeValueDecl.Accepts
    signature.invocation.runtimeValues invocation.runtimeValues
  rng : invocation.rng.map List.length = signature.invocation.rng

namespace ProgramSignature

variable {signature : ProgramSignature} {runtime : RuntimeId} {invocation : Invocation}

theorem validateInvocationCounts_ok {bindings scalars runtimeValues : Nat}
    {rngCounters : Option Nat} :
    signature.validateInvocationCounts bindings scalars runtimeValues rngCounters = .ok () ↔
      signature.bindings.length = bindings ∧ signature.invocation.scalars.length = scalars ∧
      signature.invocation.runtimeValues.length = runtimeValues ∧
      rngCounters = signature.invocation.rng := by
  simp only [validateInvocationCounts, validateCount, bind_ok, reject_ok, not_not, exists_const]
  refine and_congr_right fun _ => and_congr_right fun _ => and_congr_right fun _ => ?_
  match hrng : signature.invocation.rng, rngCounters with
  | none, none => exact iff_of_true rfl rfl
  | some expected, some actual =>
    rw [reject_ok, not_not]
    exact (Option.some_inj).symm
  | none, some actual => exact ⟨nofun, nofun⟩
  | some expected, none => exact ⟨nofun, nofun⟩

theorem validateBinding_ok {i : Nat} {decl : BindingDecl} {buffer : ErasedBuffer}
    (hdecl : signature.bindings[i]? = some decl) :
    signature.validateBinding runtime (buffer, i) = .ok () ↔
      buffer.runtimeId = runtime ∧
        BindingContract decl buffer.valueSpec buffer.placement buffer.layout := by
  unfold validateBinding validateBindingMetadata
  simp only [bind_ok, reject_ok, not_not, exists_const, hdecl, validateMetadata_ok]

theorem validateScalarMetadata_ok {i : Nat} {declared : ScalarType} {value : ScalarValue}
    (hdecl : signature.invocation.scalars[i]? = some declared) :
    signature.validateScalarMetadata i value.scalarType = .ok () ↔
      declared = value.scalarType := by
  simp only [validateScalarMetadata, hdecl, reject_ok, not_not]

theorem validateRuntimeValueMetadata_ok {i : Nat} {decl : RuntimeValueDecl}
    {value : RuntimeValue} (hdecl : signature.invocation.runtimeValues[i]? = some decl) :
    signature.validateRuntimeValueMetadata i value = .ok () ↔ decl.Accepts value := by
  simp only [validateRuntimeValueMetadata, hdecl, mapError_ok, RuntimeValueDecl.validate_ok]

/-- Which calls are accepted. -/
theorem validateInvocation_ok :
    signature.validateInvocation runtime invocation = .ok () ↔
      InvocationContract signature runtime invocation := by
  unfold validateInvocation
  constructor
  · intro h
    obtain ⟨_, hcounts, h⟩ := bind_ok.mp h
    obtain ⟨_, hbinding, h⟩ := bind_ok.mp h
    obtain ⟨_, hscalar, hvalue⟩ := bind_ok.mp h
    obtain ⟨hbindings, hscalars, hvalues, hrng⟩ := validateInvocationCounts_ok.mp hcounts
    exact ⟨(foldlM_declared hbindings fun _ _ _ => validateBinding_ok).mp hbinding,
      (foldlM_declared hscalars fun _ _ _ => validateScalarMetadata_ok).mp hscalar,
      (foldlM_declared hvalues fun _ _ _ => validateRuntimeValueMetadata_ok).mp hvalue, hrng⟩
  · intro h
    have hbindings := h.bindings.length_eq
    have hscalars := h.scalars.length_eq
    have hvalues := h.runtimeValues.length_eq
    refine bind_ok.mpr ⟨(), validateInvocationCounts_ok.mpr ⟨hbindings, hscalars, hvalues, h.rng⟩,
      bind_ok.mpr ⟨(), ?_, bind_ok.mpr ⟨(), ?_, ?_⟩⟩⟩
    · exact (foldlM_declared hbindings fun _ _ _ => validateBinding_ok).mpr h.bindings
    · exact (foldlM_declared hscalars fun _ _ _ => validateScalarMetadata_ok).mpr h.scalars
    · exact (foldlM_declared hvalues fun _ _ _ =>
        validateRuntimeValueMetadata_ok).mpr h.runtimeValues

end ProgramSignature

/-! ## What an accepted call may rely on -/

/-- The first byte and the number of bytes of the element at a coordinate, or of the
packed block that holds it: the blocks of a row follow each other. -/
def ErasedBuffer.span (buffer : ErasedBuffer) (c : List Nat) : Nat × Nat :=
  match buffer.valueSpec.storage.representation with
  | .dense => (buffer.layout.address c * buffer.valueSpec.semanticDtype.sizeInBytes,
      buffer.valueSpec.semanticDtype.sizeInBytes)
  | .packed (.ggmlKQuant codec) =>
    (buffer.layout.address
      [rowIndex buffer.valueSpec.logicalShape.dropLast c.dropLast,
        (c.getLast?.getD 0) / 256 * codec.blockBytes], codec.blockBytes)

namespace ErasedBuffer

variable {buffer : ErasedBuffer} {c : List Nat}

/-- The published allocation holds the layout. -/
theorem stored (buffer : ErasedBuffer) : buffer.valueSpec.StoredAs buffer.layout ∧
    buffer.layout.extent (buffer.valueSpec.storage.representation.physicalDtype
      buffer.valueSpec.semanticDtype) ≤ buffer.byteLen := by
  obtain ⟨hstored, hdtype, hlen, _⟩ := ValueSpec.validateBuffer_ok.mp buffer.published
  exact ⟨hstored, hdtype ▸ hlen⟩

/-- A packed buffer is a canonical matrix of bytes. -/
theorem canonical (h : buffer.valueSpec.storage.representation ≠ .dense) :
    buffer.layout.Canonical := by
  have hadmitted := buffer.stored.1.admitted
  rw [buffer.stored.1.packed_canonical h] at hadmitted
  exact hadmitted

/-- The element of every coordinate lies inside the allocation. -/
theorem span_dense (hrep : buffer.valueSpec.storage.representation = .dense)
    (hc : Coordinate buffer.valueSpec.logicalShape c) :
    (buffer.span c).1 + (buffer.span c).2 ≤ buffer.byteLen := by
  obtain ⟨hstored, hlen⟩ := buffer.stored
  have hshape := hstored.shape_eq
  rw [hrep] at hshape hlen
  have hphysical : Coordinate buffer.layout.shape c := by
    rw [hshape]
    exact hc
  unfold span
  rw [hrep]
  exact Nat.le_trans (Layout.element_le_extent hphysical) hlen

/-- So does the block that holds the value at a coordinate. -/
theorem span_packed {codec : GgmlKQuant}
    (hrep : buffer.valueSpec.storage.representation = .packed (.ggmlKQuant codec))
    (hc : Coordinate buffer.valueSpec.logicalShape c) :
    (buffer.span c).1 + (buffer.span c).2 ≤ buffer.byteLen := by
  obtain ⟨hstored, hlen⟩ := buffer.stored
  have hcanonical : buffer.layout.Canonical := canonical (by rw [hrep]; nofun)
  have hshape := hstored.shape_eq
  obtain ⟨_, _, _, leading, columns, hlogical, hmod, _⟩ := hrep ▸ hstored.described
  rw [hrep, StorageRepresentation.physicalShape, hlogical, dropLast_concat,
    List.getLast?_concat, Option.getD_some] at hshape
  rw [hcanonical.extent_eq, hrep, hshape] at hlen
  rw [hlogical] at hc
  obtain ⟨row, x, rfl, hrow, hx⟩ := coordinate_concat hc
  -- the row of the block and its place in the row
  have hrows : rowIndex leading row < leading.prod := rowIndex_lt hrow
  have hblock : x / 256 * codec.blockBytes + codec.blockBytes ≤
      columns / 256 * codec.blockBytes := by
    rw [← Nat.succ_mul]
    refine Nat.mul_le_mul_right _ (Nat.div_lt_of_lt_mul ?_)
    rwa [Nat.mul_div_cancel' (Nat.dvd_of_mod_eq_zero hmod)]
  have hpositive : 0 < codec.blockBytes := by cases codec <;> decide
  have hbyte : Coordinate buffer.layout.shape
      [rowIndex leading row, x / 256 * codec.blockBytes] := by
    rw [hshape]
    exact .cons hrows (.cons (Nat.lt_of_lt_of_le (Nat.lt_add_of_pos_right hpositive) hblock) .nil)
  unfold span
  rw [hrep, hlogical]
  dsimp only
  rw [dropLast_concat, dropLast_concat, List.getLast?_concat, Option.getD_some,
    hcanonical.address_eq hbyte, hshape]
  refine Nat.le_trans ?_ hlen
  simp only [rowIndex, prod_cons, prod_nil, Nat.mul_one, Nat.add_zero,
    StorageRepresentation.physicalDtype, DType.sizeInBytes]
  calc rowIndex leading row * (columns / 256 * codec.blockBytes) + x / 256 * codec.blockBytes +
        codec.blockBytes
      ≤ rowIndex leading row * (columns / 256 * codec.blockBytes) +
        columns / 256 * codec.blockBytes := by
        rw [Nat.add_assoc]
        exact Nat.add_le_add_left hblock _
    _ = (rowIndex leading row + 1) * (columns / 256 * codec.blockBytes) :=
        (Nat.succ_mul _ _).symm
    _ ≤ leading.prod * (columns / 256 * codec.blockBytes) := Nat.mul_le_mul_right _ hrows

theorem span_le (hc : Coordinate buffer.valueSpec.logicalShape c) :
    (buffer.span c).1 + (buffer.span c).2 ≤ buffer.byteLen := by
  match hrep : buffer.valueSpec.storage.representation with
  | .dense => exact span_dense hrep hc
  | .packed (.ggmlKQuant codec) => exact span_packed hrep hc

end ErasedBuffer

/-- A call is accepted exactly when it meets its signature. Then every element of a
binding, or the packed block that holds it, lies inside the allocation, and a packed
binding is a canonical matrix of bytes under every layout policy. -/
theorem validateInvocation_exact (signature : ProgramSignature) (runtime : RuntimeId)
    (invocation : Invocation) :
    (signature.validateInvocation runtime invocation = .ok () ↔
      InvocationContract signature runtime invocation) ∧
    (signature.validateInvocation runtime invocation = .ok () →
      List.Forall₂ (fun decl buffer =>
        (∀ c, Coordinate decl.shape c →
          (buffer.span c).1 + (buffer.span c).2 ≤ buffer.byteLen) ∧
        (decl.storage.representation ≠ .dense →
          buffer.layout.shape = decl.storage.representation.physicalShape decl.shape ∧
          buffer.layout.Canonical ∧
          ∀ c, Coordinate buffer.layout.shape c →
            buffer.layout.address c = rowIndex buffer.layout.shape c))
        signature.bindings invocation.bindings) := by
  refine ⟨ProgramSignature.validateInvocation_ok, fun h => ?_⟩
  refine (ProgramSignature.validateInvocation_ok.mp h).bindings.imp fun decl buffer ⟨_, hbinding⟩ => ?_
  refine ⟨fun c hc => ErasedBuffer.span_le (hbinding.shape_eq ▸ hc), fun hpacked => ?_⟩
  have hcanonical : buffer.layout.Canonical :=
    ErasedBuffer.canonical (hbinding.representation_eq ▸ hpacked)
  refine ⟨?_, hcanonical, fun c hc => hcanonical.address_eq hc⟩
  rw [← hbinding.representation_eq, ← hbinding.shape_eq]
  exact hbinding.stored.shape_eq

/-- Two packed rows of 256 values under a policy that accepts any strides. -/
theorem packedRows_accepted :
    ∃ (decl : BindingDecl) (buffer : ErasedBuffer),
      decl.layout = .require .anyStrided ∧ buffer.byteLen = 288 ∧ buffer.span [1, 255] = (144, 144) ∧
      ∀ c, Coordinate [2, 256] c → (buffer.span c).1 + (buffer.span c).2 ≤ buffer.byteLen := by
  let storage : StorageMetadata := ⟨.packed (.ggmlKQuant .q4K), .canonical⟩
  let decl : BindingDecl :=
    ⟨storage, [2, 256], .f32, ⟨"cpu:0", none⟩, .require .anyStrided⟩
  let buffer : ErasedBuffer :=
    ⟨⟨1⟩, ⟨"cpu:0", none⟩, ⟨.f32, [2, 256], storage⟩, ⟨[2, 144], [144, 1], 0, rfl⟩, .u8, 288, rfl⟩
  have haccepted := (validateInvocation_exact ⟨[decl], ⟨[], [], none⟩⟩ ⟨1⟩
    ⟨[buffer], [], [], none⟩).2 rfl
  cases haccepted with
  | cons hbinding _ => exact ⟨decl, buffer, rfl, rfl, rfl, hbinding.1⟩

/-- The dtype, the shape and the placement of a buffer are the declared ones. -/
def SameKind (decl : BindingDecl) (buffer : ErasedBuffer) : Prop :=
  buffer.valueSpec.semanticDtype = decl.dtype ∧ buffer.valueSpec.logicalShape = decl.shape ∧
    buffer.placement = decl.placement

/-- Calls of the declared count, dtype, shape and placement that are rejected: for the owner
of a buffer, its representation, its layout, a scalar, a runtime value and the RNG. -/
theorem validateInvocation_stricter :
    ∃ (decl : BindingDecl) (buffer strided packed : ErasedBuffer),
      SameKind decl buffer ∧ SameKind decl strided ∧ SameKind decl packed ∧
      ProgramSignature.validateInvocation ⟨[decl], ⟨[], [], none⟩⟩ ⟨2⟩ ⟨[buffer], [], [], none⟩ =
        .error (.invalidOwner 0 ⟨2⟩ ⟨1⟩) ∧
      ProgramSignature.validateInvocation ⟨[decl], ⟨[], [], none⟩⟩ ⟨1⟩ ⟨[packed], [], [], none⟩ =
        .error (.representationMismatch 0 .dense (.packed (.ggmlKQuant .q4K))) ∧
      ProgramSignature.validateInvocation ⟨[decl], ⟨[], [], none⟩⟩ ⟨1⟩ ⟨[strided], [], [], none⟩ =
        .error (.layoutMismatch 0) ∧
      ProgramSignature.validateInvocation ⟨[decl], ⟨[.u32], [], none⟩⟩ ⟨1⟩
        ⟨[buffer], [.bool true], [], none⟩ = .error (.scalarTypeMismatch 0) ∧
      ProgramSignature.validateInvocation ⟨[decl], ⟨[], [⟨"active", .u64 1 4⟩], none⟩⟩ ⟨1⟩
        ⟨[buffer], [], [.u64 5], none⟩ =
        .error (.runtimeValue 0 (.outOfBounds "active" 5 1 4)) ∧
      ProgramSignature.validateInvocation ⟨[decl], ⟨[], [], some 1⟩⟩ ⟨1⟩
        ⟨[buffer], [], [], none⟩ = .error (.rngPresence true false) := by
  let decl : BindingDecl := ⟨.dense, [2, 256], .f32, ⟨"cpu:0", none⟩, .require .contiguous⟩
  let buffer : ErasedBuffer :=
    ⟨⟨1⟩, ⟨"cpu:0", none⟩, ⟨.f32, [2, 256], .dense⟩, ⟨[2, 256], [256, 1], 0, rfl⟩, .f32, 2048, rfl⟩
  let strided : ErasedBuffer :=
    ⟨⟨1⟩, ⟨"cpu:0", none⟩, ⟨.f32, [2, 256], ⟨.dense, .unconstrained⟩⟩,
      ⟨[2, 256], [1, 2], 0, rfl⟩, .f32, 2048, rfl⟩
  let packed : ErasedBuffer :=
    ⟨⟨1⟩, ⟨"cpu:0", none⟩, ⟨.f32, [2, 256], ⟨.packed (.ggmlKQuant .q4K), .canonical⟩⟩,
      ⟨[2, 144], [144, 1], 0, rfl⟩, .u8, 288, rfl⟩
  exact ⟨decl, buffer, strided, packed, ⟨rfl, rfl, rfl⟩, ⟨rfl, rfl, rfl⟩, ⟨rfl, rfl, rfl⟩,
    rfl, rfl, rfl, by decide +kernel, by decide +kernel, rfl⟩

end EffectTorch
