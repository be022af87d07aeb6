import EffectTorch.Lib.LittleEndian
import EffectTorch.Lib.Tiling
import EffectTorch.Safetensors.Json

/-!
# Safetensors headers

`parse_header` of `napi/src/safetensors.rs` and what it calls. A file is its bytes: an
I/O failure and a cancellation end the call before it has a result. The `Dtype` of the
`safetensors` crate is a parameter.

Results:
1. `parseTensorInfo_ok`: what a tensor entry has to say.
2. `payloadByteLength_ok`: the bytes of a shape, computed without overflow.
3. `validateEntries_ok`: the entries have the right lengths and tile the data section.
-/

namespace EffectTorch
open List Lib

/-- `safetensors::tensor::Dtype`: how serde reads it, the bits of one element and the
name of the inspection ABI (`dtype_name`). -/
structure DtypeCodec (δ : Type) where
  fromValue : Json → Except String δ
  bitsize : δ → Nat
  dtypeName : δ → String
  bitsize_pos : ∀ dtype, 0 < bitsize dtype

/-- `MAX_HEADER_BYTES`. -/
def maxHeaderBytes : Nat := 100000000

structure HeaderEntry (δ : Type) where
  dtype : δ
  shape : List Nat
  begin : Nat
  «end» : Nat
  begin_le : begin ≤ «end»
deriving DecidableEq

structure ParsedHeader (δ : Type) where
  dataStart : Nat
  entries : List (String × HeaderEntry δ)
  metadata : List (String × String)
deriving DecidableEq

variable {δ : Type} (dtypes : DtypeCodec δ)

/-! ## Tensor entries -/

def parseDimension (dimension : Json) : Fallible String Nat := do
  let dimension ← okOr dimension.asU64 "safetensors: tensor shape dimensions must be integers"
  rejectIf (u32Max < dimension) "safetensors: tensor shape dimension exceeds the u32 ABI range"
  return dimension

def parseTensorInfo (value : Json) : Fallible String (HeaderEntry δ) := do
  let object ← okOr value.asObject "safetensors: tensor entry must be a JSON object"
  let dtypeValue ← okOr (object.lookup "dtype") "safetensors: tensor entry has no dtype"
  let dtype ← described "safetensors: unsupported tensor dtype: " (dtypes.fromValue dtypeValue)
  let shapeValue ← okOr (object.lookup "shape") "safetensors: tensor entry has no shape"
  let shapeArray ← okOr shapeValue.asArray "safetensors: tensor shape must be an array"
  let shape ← shapeArray.mapM parseDimension
  let offsets ← okOr ((object.lookup "data_offsets").bind Json.asArray)
    "safetensors: tensor entry has no data_offsets array"
  match offsets with
  | [first, second] =>
    let begin ← okOr first.asU64 "safetensors: data_offsets must be non-negative integers"
    let «end» ← okOr second.asU64 "safetensors: data_offsets must be non-negative integers"
    if h : begin ≤ «end» then return ⟨dtype, shape, begin, «end», h⟩
    else fail "safetensors: data_offsets begin must not exceed end"
  | _ => fail "safetensors: data_offsets must contain exactly two integers"

/-- The value of a member describes a tensor: a dtype, a shape of `u32` dimensions and
two offsets in order. -/
structure DescribesTensor (value : Json) (entry : HeaderEntry δ) : Prop where
  dtype : ∃ object dtypeValue, value.asObject = some object ∧
    object.lookup "dtype" = some dtypeValue ∧ dtypes.fromValue dtypeValue = .ok entry.dtype
  shape : ∃ object dims, value.asObject = some object ∧
    object.lookup "shape" = some (.arr dims) ∧
    List.Forall₂ (fun dim size => dim.asU64 = some size ∧ size ≤ u32Max) dims entry.shape
  offsets : ∃ object first second, value.asObject = some object ∧
    object.lookup "data_offsets" = some (.arr [first, second]) ∧
    first.asU64 = some entry.begin ∧ second.asU64 = some entry.«end»

theorem asArray_some {value : Json} {values : List Json} :
    value.asArray = some values ↔ value = .arr values := by
  cases value with
  | arr values' => simp [Json.asArray]
  | _ => exact ⟨nofun, nofun⟩

theorem parseDimension_ok {dimension : Json} {size : Nat} :
    parseDimension dimension = .ok size ↔ dimension.asU64 = some size ∧ size ≤ u32Max := by
  simp only [parseDimension, bind_ok, okOr_ok, rejectIf_ok, Nat.not_lt, pure, Except.pure,
    Except.ok.injEq]
  constructor
  · rintro ⟨_, hsize, _, hle, rfl⟩
    exact ⟨hsize, hle⟩
  · rintro ⟨hsize, hle⟩
    exact ⟨size, hsize, (), hle, rfl⟩

theorem parseShape_ok {dims : List Json} {shape : List Nat} :
    dims.mapM parseDimension = .ok shape ↔
      List.Forall₂ (fun dim size => dim.asU64 = some size ∧ size ≤ u32Max) dims shape := by
  simp only [mapM_forall₂, parseDimension_ok]

/-- What a tensor entry has to say. -/
theorem parseTensorInfo_ok {value : Json} {entry : HeaderEntry δ} :
    parseTensorInfo dtypes value = .ok entry ↔ DescribesTensor dtypes value entry := by
  simp only [parseTensorInfo, bind_ok, okOr_ok, described_ok, parseShape_ok,
    Option.bind_eq_some_iff, asArray_some]
  constructor
  · rintro ⟨object, hobject, dtypeValue, hdtypeValue, dtype, hdtype, _, hshape, dims, rfl,
      shape, hdims, offsets, ⟨_, hoffsets, rfl⟩, h⟩
    split at h
    · next first second =>
      obtain ⟨begin, hbegin, h⟩ := bind_ok.mp h
      obtain ⟨«end», hend, h⟩ := bind_ok.mp h
      split at h
      · obtain rfl := Except.ok.inj h
        exact ⟨⟨object, dtypeValue, hobject, hdtypeValue, hdtype⟩,
          ⟨object, dims, hobject, hshape, hdims⟩,
          ⟨object, first, second, hobject, hoffsets, okOr_ok.mp hbegin, okOr_ok.mp hend⟩⟩
      · cases h
    · cases h
  · rintro ⟨⟨object, dtypeValue, hobject, hdtypeValue, hdtype⟩, ⟨_, dims, hobject', hshape, hdims⟩,
      ⟨_, first, second, hobject'', hoffsets, hbegin, hend⟩⟩
    obtain rfl := Option.some.inj (hobject.symm.trans hobject')
    obtain rfl := Option.some.inj (hobject.symm.trans hobject'')
    refine ⟨object, hobject, dtypeValue, hdtypeValue, entry.dtype, hdtype, _, hshape, dims, rfl,
      entry.shape, hdims, _, ⟨_, hoffsets, rfl⟩, ?_⟩
    dsimp only
    rw [hbegin, hend, okOr_some, okOr_some, ok_bind, ok_bind, dif_pos entry.begin_le]
    rfl

/-! ## Geometry -/

def payloadByteLength (dtype : δ) (shape : List Nat) (name : String) : Fallible String Nat := do
  if 0 ∈ shape then return 0
  else
    let elements ← okOr (shape.foldlM checkedMul 1)
      ("safetensors: tensor " ++ name.quote ++ " element count overflows")
    let bits ← okOr (checkedMul elements (dtypes.bitsize dtype))
      ("safetensors: tensor " ++ name.quote ++ " byte length overflows")
    rejectIf (bits % 8 ≠ 0)
      ("safetensors: tensor " ++ name.quote ++ " has a sub-byte payload that is not byte aligned")
    return bits / 8

/-- The bytes of a payload: its elements times the bits of one, in whole bytes and within
a `u64`. -/
def HasByteLength (dtype : δ) (shape : List Nat) (bytes : Nat) : Prop :=
  shape.prod * dtypes.bitsize dtype ≤ usizeMax ∧
    8 * bytes = shape.prod * dtypes.bitsize dtype

theorem payloadByteLength_ok {dtype : δ} {shape : List Nat} {name : String} {bytes : Nat} :
    payloadByteLength dtypes dtype shape name = .ok bytes ↔
      HasByteLength dtypes dtype shape bytes := by
  unfold payloadByteLength HasByteLength
  have hpos := dtypes.bitsize_pos dtype
  split
  · next hzero =>
    rw [prod_eq_zero hzero, Nat.zero_mul]
    constructor
    · intro h
      obtain rfl := Except.ok.inj h
      exact ⟨Nat.zero_le _, rfl⟩
    · rintro ⟨_, h⟩
      obtain rfl : bytes = 0 := (Nat.mul_eq_zero.mp h).resolve_left (by decide)
      rfl
  · next hzero =>
    simp only [bind_ok, okOr_ok, rejectIf_ok, foldlM_checkedMul hzero, checkedMul_some,
      Nat.one_mul, pure, Except.pure, Except.ok.injEq, ne_eq, Decidable.not_not]
    constructor
    · rintro ⟨_, ⟨_, rfl⟩, _, ⟨hfits, rfl⟩, _, hmod, rfl⟩
      exact ⟨hfits, Nat.mul_div_cancel' (Nat.dvd_of_mod_eq_zero hmod)⟩
    · rintro ⟨hfits, hbytes⟩
      have hprod := Nat.le_trans (Nat.le_mul_of_pos_right shape.prod hpos) hfits
      refine ⟨_, ⟨.inl hprod, rfl⟩, _, ⟨hfits, rfl⟩, (), ?_, ?_⟩
      · rw [← hbytes, Nat.mul_mod_right]
      · rw [← hbytes, Nat.mul_div_cancel_left _ (by decide)]

def HeaderEntry.range (entry : HeaderEntry δ) : Range := ⟨entry.begin, entry.«end»⟩

/-- The turn of `validate_entries` that checks one entry. -/
def validateEntry (dataLen : Nat) (path : String) (ranges : List (Range × String))
    (named : String × HeaderEntry δ) : Fallible String (List (Range × String)) := do
  let (name, entry) := named
  let expected ← payloadByteLength dtypes entry.dtype entry.shape name
  let declared := entry.«end» - entry.begin
  rejectIf (declared ≠ expected)
    ("safetensors: tensor " ++ name.quote ++ " declares " ++ toString declared ++
      " bytes but its " ++ dtypes.dtypeName entry.dtype ++ " shape " ++ toString entry.shape ++
      " requires " ++ toString expected)
  rejectIf (dataLen < entry.«end»)
    ("safetensors: tensor " ++ name.quote ++ " ends at " ++ toString entry.«end» ++
      " beyond the " ++ toString dataLen ++ "-byte data section of " ++ path.quote)
  return ranges ++ [(entry.range, name)]

/-- The turn of `validate_entries` that follows the sorted ranges. -/
def followRange (previousEnd : Nat) (range : Range × String) : Fallible String Nat := do
  rejectIf (range.1.start ≠ previousEnd)
    ("safetensors: tensor " ++ range.2.quote ++ " has a gap or overlap in its byte range")
  return range.1.stop

def validateEntries (entries : List (String × HeaderEntry δ)) (dataLen : Nat) (path : String) :
    Fallible String Unit := do
  let ranges ← entries.foldlM (validateEntry dtypes dataLen path) []
  let sorted := ranges.insertionSort fun a b => a.1.le b.1
  let previousEnd ← sorted.foldlM followRange 0
  rejectIf (previousEnd ≠ dataLen) "safetensors: trailing bytes outside tensor payloads"

theorem validateEntry_ok {dataLen : Nat} {path : String} {ranges ranges' : List (Range × String)}
    {named : String × HeaderEntry δ} :
    validateEntry dtypes dataLen path ranges named = .ok ranges' ↔
      HasByteLength dtypes named.2.dtype named.2.shape (named.2.«end» - named.2.begin) ∧
      named.2.«end» ≤ dataLen ∧ ranges' = ranges ++ [(named.2.range, named.1)] := by
  simp only [validateEntry, bind_ok, payloadByteLength_ok, rejectIf_ok, Nat.not_lt, ne_eq,
    Decidable.not_not, pure, Except.pure, Except.ok.injEq]
  constructor
  · rintro ⟨_, hbytes, _, rfl, _, hle, rfl⟩
    exact ⟨hbytes, hle, rfl⟩
  · rintro ⟨hbytes, hle, rfl⟩
    exact ⟨_, hbytes, (), rfl, (), hle, rfl⟩

/-- The first loop checks every entry and collects the ranges in order. -/
theorem validateEntry_loop {dataLen : Nat} {path : String}
    {entries : List (String × HeaderEntry δ)} {ranges ranges' : List (Range × String)} :
    entries.foldlM (validateEntry dtypes dataLen path) ranges = .ok ranges' ↔
      (∀ named ∈ entries,
        HasByteLength dtypes named.2.dtype named.2.shape (named.2.«end» - named.2.begin) ∧
        named.2.«end» ≤ dataLen) ∧
      ranges' = ranges ++ entries.map fun named => (named.2.range, named.1) := by
  induction entries generalizing ranges with
  | nil => simp [pure, Except.pure, eq_comm]
  | cons named entries ih =>
    simp only [foldlM_cons, bind_ok, validateEntry_ok, ih, forall_mem_cons,
      map_cons]
    constructor
    · rintro ⟨_, ⟨hbytes, hle, rfl⟩, hrest, rfl⟩
      exact ⟨⟨⟨hbytes, hle⟩, hrest⟩, append_assoc _ _ _⟩
    · rintro ⟨⟨⟨hbytes, hle⟩, hrest⟩, rfl⟩
      exact ⟨_, ⟨hbytes, hle, rfl⟩, hrest, by rw [append_assoc, singleton_append]⟩

/-- The second loop finishes exactly on ranges laid end to end. -/
theorem followRange_loop {ranges : List (Range × String)} {lo hi : Nat}
    (hle : ∀ range ∈ ranges, range.1.start ≤ range.1.stop) :
    ranges.foldlM followRange lo = .ok hi ↔ Tiles lo (ranges.map Prod.fst) hi := by
  induction ranges generalizing lo with
  | nil => simp [Tiles, pure, Except.pure]
  | cons range ranges ih =>
    obtain ⟨hrange, hrest⟩ := forall_mem_cons.mp hle
    simp only [foldlM_cons, followRange, bind_ok, rejectIf_ok, ne_eq, Decidable.not_not,
      pure, Except.pure, Except.ok.injEq, map_cons, Tiles]
    constructor
    · rintro ⟨_, ⟨_, rfl, rfl⟩, h⟩
      exact ⟨rfl, hrange, (ih hrest).mp h⟩
    · rintro ⟨rfl, _, h⟩
      exact ⟨_, ⟨(), rfl, rfl⟩, (ih hrest).mpr h⟩

/-- Some arrangement of the entries tiles the data section. -/
def TileData (entries : List (String × HeaderEntry δ)) (dataLen : Nat) : Prop :=
  ∃ ranges : List Range, ranges.Perm (entries.map fun named => named.2.range) ∧
    Tiles 0 ranges dataLen

/-- The entries have the lengths of their shapes and tile the data section. -/
theorem validateEntries_ok {entries : List (String × HeaderEntry δ)} {dataLen : Nat}
    {path : String} {u : Unit} :
    validateEntries dtypes entries dataLen path = .ok u ↔
      (∀ named ∈ entries,
        HasByteLength dtypes named.2.dtype named.2.shape (named.2.«end» - named.2.begin)) ∧
      TileData entries dataLen := by
  simp only [validateEntries, bind_ok, validateEntry_loop, rejectIf_ok, ne_eq, Decidable.not_not,
    nil_append]
  let ranges := entries.map fun named => (named.2.range, named.1)
  let sorted := ranges.insertionSort fun a b => a.1.le b.1
  have hperm : sorted.Perm ranges := perm_insertionSort _ _
  have hranges : (sorted.map Prod.fst).Perm (entries.map fun named => named.2.range) := by
    refine (hperm.map Prod.fst).trans (.of_eq ?_)
    rw [map_map]
    rfl
  have hle : ∀ range ∈ sorted, range.1.start ≤ range.1.stop := fun range hmem => by
    obtain ⟨named, _, rfl⟩ := mem_map.mp (hperm.mem_iff.mp hmem)
    exact named.2.begin_le
  constructor
  · rintro ⟨_, ⟨hall, rfl⟩, _, hfollow, rfl⟩
    exact ⟨fun named hmem => (hall named hmem).1, _, hranges, (followRange_loop hle).mp hfollow⟩
  · rintro ⟨hall, tiling, htiling, htiles⟩
    -- sorting finds the arrangement, as ties in both keys are equal ranges
    have hsorted : (sorted.map Prod.fst).Pairwise Range.le := by
      rw [map_insertionSort _ Range.le _ _ fun _ _ _ _ => Iff.rfl]
      exact insertionSort_le _
    have heq := htiles.eq_of_perm (htiling.trans hranges.symm) hsorted
    refine ⟨_, ⟨fun named hmem => ⟨hall named hmem, ?_⟩, rfl⟩, dataLen,
      (followRange_loop hle).mpr (heq ▸ htiles), rfl⟩
    exact (htiles.bounds (htiling.mem_iff.mpr (mem_map_of_mem hmem))).2.2

end EffectTorch
