import EffectTorch.Runtime.GgufFormat

/-!
# GGUF catalogs

What `parse_gguf` accepts: the files that begin with the reference encoding of a catalog
within the documented constraints, and it returns that catalog.

Results:
1. `parseGguf_ok`: the parser returns a catalog exactly on its encodings.
2. `parseGguf_faithful`: no file has two readings, and every valid catalog has one.
3. `parseGguf_safe`: whatever the file, the parser does not panic, and an accepted
   catalog has distinct names and aligned, disjoint ranges of canonical size in the data
   section.
-/

namespace EffectTorch.Gguf
open List Lib

/-! ## Alignment -/

/-- The least multiple of the alignment from a position on. -/
def roundedUp (position alignment : Nat) : Nat :=
  (position + (alignment - 1)) / alignment * alignment

/-- Masking the low bits rounds down to a multiple of a power of two. -/
theorem and_mask {n k : Nat} (hn : n ≤ usizeMax) (hk : k ≤ 64) :
    n &&& (usizeMax ^^^ (2 ^ k - 1)) = n / 2 ^ k * 2 ^ k := by
  have hbound : n < 2 ^ 64 := Nat.lt_of_le_of_lt hn (by decide)
  rw [← Nat.shiftRight_eq_div_pow, ← Nat.shiftLeft_eq]
  apply Nat.eq_of_testBit_eq
  intro i
  rw [usizeMax, Nat.testBit_and, Nat.testBit_xor, Nat.testBit_two_pow_sub_one,
    Nat.testBit_two_pow_sub_one, Nat.testBit_shiftLeft, Nat.testBit_shiftRight]
  rcases Nat.lt_or_ge i 64 with hi | hi
  · rcases Nat.lt_or_ge i k with hik | hik
    · simp [hi, hik, Nat.not_le_of_lt hik]
    · simp [hi, Nat.not_lt_of_le hik, hik]
  · rw [Nat.testBit_lt_two_pow (Nat.lt_of_lt_of_le hbound (Nat.pow_le_pow_right (by decide) hi))]
    have hzero : n.testBit (k + (i - k)) = false := by
      rw [Nat.add_sub_cancel' (Nat.le_trans hk hi)]
      exact Nat.testBit_lt_two_pow
        (Nat.lt_of_lt_of_le hbound (Nat.pow_le_pow_right (by decide) hi))
    rw [hzero, Bool.and_false, Bool.false_and]

variable {shape : List Nat} {geometry : StorageGeometry} {start fileLen : Nat}
  {tensor : GgufTensorDescriptor} {tensors : List GgufTensorDescriptor} {catalog : GgufFile}

theorem alignUp_ok {alignment : Nat} {position : Nat} (hpower : ∃ k ≤ 32, alignment = 2 ^ k) :
    alignUp position alignment = .ok start ↔
      position + (alignment - 1) ≤ usizeMax ∧ start = roundedUp position alignment := by
  obtain ⟨k, hk, rfl⟩ := hpower
  have hmask : checkedSub (2 ^ k) 1 = some (2 ^ k - 1) := checkedSub_of_le (Nat.two_pow_pos k)
  simp only [alignUp, hmask, expect_some, ok_bind, bind_ok, okOr_ok, checkedAdd_some, pure,
    Except.pure, Except.ok.injEq]
  constructor
  · rintro ⟨_, ⟨hfits, rfl⟩, rfl⟩
    exact ⟨hfits, and_mask hfits (Nat.le_trans hk (by decide))⟩
  · rintro ⟨hfits, rfl⟩
    exact ⟨_, ⟨hfits, rfl⟩, and_mask hfits (Nat.le_trans hk (by decide))⟩

theorem noPanic_alignUp {alignment : Nat} {position : Nat} (hpos : 0 < alignment) : NoPanic (alignUp position alignment) := by
  rw [alignUp, checkedSub_of_le hpos, expect_some, ok_bind]
  exact (noPanic_okOr _ _).bind fun _ _ => noPanic_ok _

theorem dvd_roundedUp (position alignment : Nat) : alignment ∣ roundedUp position alignment :=
  Nat.dvd_mul_left _ _

/-! ## Tensors -/

/-- The bytes of a tensor in its canonical packing. -/
def GgufTensorFormat.canonicalBytes (format : GgufTensorFormat) (shape : List Nat) : Nat :=
  match format.quantization with
  | none => shape.prod * 4
  | some codec => shape.prod / 256 * codec.blockBytes

theorem prod_pos (h : ∀ dimension ∈ shape, 0 < dimension) : 0 < shape.prod :=
  Nat.pos_of_ne_zero fun hzero => absurd (h 0 (prod_eq_zero_iff.mp hzero)) (Nat.lt_irrefl 0)

theorem canonicalGeometry_bytes {format : GgufTensorFormat}
    (h : (format.valueSpec shape).canonicalGeometry = .ok geometry) :
    geometry.byteLen = format.canonicalBytes shape := by
  have hpacked : ∀ codec, format.quantization = some codec →
      (format.valueSpec shape).storage.representation = .packed (.ggmlKQuant codec) →
      geometry.byteLen = format.canonicalBytes shape := by
    intro codec hcodec hrepresentation
    obtain ⟨leading, columns, hshape, -, hmod, rfl, -⟩ :=
      canonicalGeometry_packed hrepresentation h
    obtain rfl : shape = leading ++ [columns] := hshape
    rw [GgufTensorFormat.canonicalBytes, hcodec]
    dsimp only
    rw [prod_append, prod_singleton,
      Nat.mul_div_assoc _ (Nat.dvd_of_mod_eq_zero hmod), Nat.mul_assoc]
  cases format with
  | f32 =>
    obtain ⟨rfl, -⟩ := canonicalGeometry_dense rfl h
    rfl
  | _ => exact hpacked _ rfl rfl

/-- No tensor is empty. -/
theorem canonicalGeometry_pos {format : GgufTensorFormat} (hshape : ∀ dimension ∈ shape, 0 < dimension)
    (h : (format.valueSpec shape).canonicalGeometry = .ok geometry) : 0 < geometry.byteLen := by
  have hpacked : ∀ codec : GgmlKQuant,
      (format.valueSpec shape).storage.representation = .packed (.ggmlKQuant codec) →
      0 < geometry.byteLen := by
    intro codec hrepresentation
    obtain ⟨leading, columns, heq, -, hmod, rfl, -⟩ := canonicalGeometry_packed hrepresentation h
    obtain rfl : shape = leading ++ [columns] := heq
    have hcolumns : 0 < columns / 256 :=
      Nat.div_pos (Nat.le_of_dvd (hshape columns (by simp)) (Nat.dvd_of_mod_eq_zero hmod))
        (by decide)
    have hleading : 0 < leading.prod :=
      prod_pos fun dimension hdimension => hshape dimension (by simp [hdimension])
    have hblock : 0 < codec.blockBytes := by cases codec <;> decide
    exact Nat.mul_pos hleading (Nat.mul_pos hcolumns hblock)
  cases format with
  | f32 =>
    obtain ⟨rfl, -⟩ := canonicalGeometry_dense rfl h
    exact Nat.mul_pos (prod_pos hshape) (Nat.succ_pos 3)
  | _ => exact hpacked _ rfl

def GgufTensorDescriptor.range (tensor : GgufTensorDescriptor) : Range :=
  ⟨tensor.dataOffset, tensor.dataOffset + tensor.byteLen⟩

/-- The tensor as the file has it, for a given start of the data section. -/
def GgufTensorDescriptor.raw (dataStart : Nat) (tensor : GgufTensorDescriptor) :
    RawTensorDescriptor :=
  ⟨tensor.name, tensor.logicalShape.reverse, tensor.format, tensor.dataOffset - dataStart⟩

/-- Where the parser puts a tensor. -/
structure PlacedAt (fileLen dataStart : Nat) (raw : RawTensorDescriptor)
    (tensor : GgufTensorDescriptor) : Prop where
  raw_eq : tensor.raw dataStart = raw
  start_le : dataStart ≤ tensor.dataOffset
  geometry : ∃ dtype, (tensor.format.valueSpec tensor.logicalShape).canonicalGeometry =
    .ok ⟨tensor.physicalShape, dtype, tensor.byteLen⟩
  stop_le : tensor.dataOffset + tensor.byteLen ≤ fileLen

theorem tensorGeometry_ok {raw : RawTensorDescriptor} :
    tensorGeometry raw = .ok geometry ↔
      (raw.format.valueSpec raw.dimensions.reverse).canonicalGeometry = .ok geometry := by
  unfold tensorGeometry
  cases (raw.format.valueSpec raw.dimensions.reverse).canonicalGeometry with
  | ok geometry' => simp
  | error error => exact iff_of_false (fun h => nomatch h) fun h => nomatch h

theorem noPanic_tensorGeometry (raw : RawTensorDescriptor) : NoPanic (tensorGeometry raw) := by
  unfold tensorGeometry
  split
  · exact noPanic_ok _
  · exact noPanic_fail _

theorem placeTensor_ok {raw : RawTensorDescriptor} {dataStart : Nat} (hfile : fileLen ≤ usizeMax) :
    placeTensor fileLen dataStart raw = .ok tensor ↔ PlacedAt fileLen dataStart raw tensor := by
  simp only [placeTensor, bind_ok, tensorGeometry_ok, okOr_ok, checkedAdd_some, rejectIf_ok,
    Nat.not_lt, pure, Except.pure, Except.ok.injEq]
  constructor
  · rintro ⟨⟨physicalShape, dtype, byteLen⟩, hgeometry, _, ⟨-, rfl⟩, _, ⟨-, rfl⟩, -, hstop, rfl⟩
    refine ⟨?_, Nat.le_add_right _ _, ⟨dtype, hgeometry⟩, hstop⟩
    simp only [GgufTensorDescriptor.raw, reverse_reverse, Nat.add_sub_cancel_left]
  · rintro ⟨rfl, hstart, ⟨dtype, hgeometry⟩, hstop⟩
    have hoffset : dataStart + (tensor.dataOffset - dataStart) = tensor.dataOffset :=
      Nat.add_sub_cancel' hstart
    have hfits := Nat.le_trans hstop hfile
    refine ⟨⟨tensor.physicalShape, dtype, tensor.byteLen⟩, ?_, tensor.dataOffset,
      ⟨?_, hoffset.symm⟩, _, ⟨hfits, rfl⟩, (), hstop, ?_⟩
    · simpa only [GgufTensorDescriptor.raw, reverse_reverse] using hgeometry
    · change dataStart + (tensor.dataOffset - dataStart) ≤ usizeMax
      rw [hoffset]
      exact Nat.le_trans (Nat.le_add_right _ _) hfits
    · simp only [GgufTensorDescriptor.raw, reverse_reverse]

theorem noPanic_placeTensor (fileLen dataStart : Nat) (raw : RawTensorDescriptor) :
    NoPanic (placeTensor fileLen dataStart raw) :=
  (noPanic_tensorGeometry raw).bind fun _ _ => (noPanic_okOr _ _).bind fun _ _ =>
    (noPanic_okOr _ _).bind fun _ _ => (noPanic_rejectIf _ _).bind fun _ _ => noPanic_ok _

/-! ## Ranges -/

theorem tensorRange_eq (h : tensor.dataOffset + tensor.byteLen ≤ usizeMax) :
    tensorRange tensor = .ok (tensor.range, tensor.name) := by
  rw [tensorRange, checkedAdd_of_le h]
  rfl

theorem checkNeighbours_ok {ranges : List (Range × String)}
    (hsorted : ranges.Pairwise fun a b => a.1.start ≤ b.1.start)
    (hnonempty : ∀ a ∈ ranges, a.1.start < a.1.stop) :
    checkNeighbours ranges = .ok () ↔ ranges.Pairwise fun a b => a.1.Apart b.1 := by
  induction ranges with
  | nil => exact iff_of_true rfl List.Pairwise.nil
  | cons first ranges ih =>
    cases ranges with
    | nil => exact iff_of_true rfl (pairwise_singleton _ _)
    | cons second ranges =>
      have hrest := ih (pairwise_cons.mp hsorted).2 (forall_mem_cons.mp hnonempty).2
      rw [pairwise_apart_cons hsorted hnonempty, ← hrest, checkNeighbours, bind_ok]
      simp only [rejectIf_ok, Nat.not_lt, exists_const]

theorem noPanic_checkNeighbours (ranges : List (Range × String)) :
    NoPanic (checkNeighbours ranges) := by
  induction ranges with
  | nil => exact noPanic_ok _
  | cons first ranges ih =>
    cases ranges with
    | nil => exact noPanic_ok _
    | cons second ranges => exact (noPanic_rejectIf _ _).bind fun _ _ => ih

/-- The check of the sorted ranges passes exactly if no two tensors share a byte. -/
theorem checkRanges_ok (hpos : ∀ tensor ∈ tensors, 0 < tensor.byteLen) :
    checkNeighbours ((tensors.map fun tensor => (tensor.range, tensor.name)).insertionSort
      fun a b => a.1.start ≤ b.1.start) = .ok () ↔
    tensors.Pairwise fun a b => a.range.Apart b.range := by
  have htotal : Std.Total fun a b : Range × String => a.1.start ≤ b.1.start :=
    ⟨fun a b => Nat.le_total _ _⟩
  have htrans : IsTrans (Range × String) fun a b => a.1.start ≤ b.1.start :=
    ⟨fun _ _ _ => Nat.le_trans⟩
  rw [checkNeighbours_ok (pairwise_insertionSort _ _), (perm_insertionSort _ _).pairwise_iff
    (fun h => Range.Apart.symm h), pairwise_map]
  intro entry hentry
  obtain ⟨tensor, htensor, rfl⟩ := mem_map.mp ((mem_insertionSort _).mp hentry)
  exact Nat.lt_add_of_pos_right (hpos tensor htensor)

/-! ## Catalogs -/

namespace GgufFile

/-- The alignment of the data section. -/
def alignment (catalog : GgufFile) : Nat :=
  (declaredAlignment catalog.metadata).getD defaultAlignment

def rawTensors (catalog : GgufFile) (dataStart : Nat) : List RawTensorDescriptor :=
  catalog.tensors.map (GgufTensorDescriptor.raw dataStart)

/-- The bytes of the header. They do not depend on where the data section starts. -/
def headerBytes (catalog : GgufFile) : Nat :=
  (encodeHeader catalog.metadata (catalog.rawTensors 0)).length

/-- Where the data section starts. -/
def dataStart (catalog : GgufFile) : Nat :=
  roundedUp catalog.headerBytes catalog.alignment

/-- The reference encoding of the catalog, up to the padding before the data section. -/
def encode (catalog : GgufFile) : List UInt8 :=
  encodeHeader catalog.metadata (catalog.rawTensors catalog.dataStart)

end GgufFile

/-- A tensor keeps the documented constraints. -/
structure TensorOk (fileLen dataStart alignment : Nat) (tensor : GgufTensorDescriptor) :
    Prop where
  name_ne : tensor.name ≠ ""
  name_le : (utf8 tensor.name).length ≤ maxTensorNameBytes
  rank : 1 ≤ tensor.logicalShape.length ∧ tensor.logicalShape.length ≤ 4
  dimensions : ∀ dimension ∈ tensor.logicalShape, 0 < dimension ∧ dimension ≤ jsSafeInteger
  geometry : ∃ dtype, (tensor.format.valueSpec tensor.logicalShape).canonicalGeometry =
    .ok ⟨tensor.physicalShape, dtype, tensor.byteLen⟩
  aligned : alignment ∣ tensor.dataOffset
  start_le : dataStart ≤ tensor.dataOffset
  stop_le : tensor.dataOffset + tensor.byteLen ≤ fileLen

/-- A catalog keeps the documented constraints, in a file of a given length. -/
structure GgufFile.Valid (catalog : GgufFile) (fileLen : Nat) : Prop where
  metadata : MetadataOk catalog.metadata catalog.architecture catalog.alignment
  count : catalog.tensors.length ≤ maxTensorCount
  tensors : ∀ tensor ∈ catalog.tensors,
    TensorOk fileLen catalog.dataStart catalog.alignment tensor
  names : (catalog.tensors.map GgufTensorDescriptor.name).Nodup
  apart : catalog.tensors.Pairwise fun a b => a.range.Apart b.range
  quantization : QuantizationOk catalog.metadata
    (catalog.tensors.map GgufTensorDescriptor.format)
  header_le : catalog.headerBytes ≤ headerLimit fileLen
  dataStart_le : catalog.dataStart ≤ fileLen

theorem length_encode_raw (dataStart dataStart' : Nat) (tensor : GgufTensorDescriptor) :
    (tensor.raw dataStart).encode.length = (tensor.raw dataStart').encode.length := by
  simp only [RawTensorDescriptor.encode, GgufTensorDescriptor.raw, length_append, length_toLe]

theorem length_encodeHeader (catalog : GgufFile) (dataStart : Nat) :
    (encodeHeader catalog.metadata (catalog.rawTensors dataStart)).length =
      catalog.headerBytes := by
  simp only [GgufFile.headerBytes, encodeHeader, encodeTables, GgufFile.rawTensors,
    length_append, length_map, length_toLe, flatMap_map, length_flatMap,
    length_encode_raw dataStart 0]

theorem length_encode (catalog : GgufFile) : catalog.encode.length = catalog.headerBytes :=
  length_encodeHeader catalog _

/-- What the parser does once the header is read. -/
theorem parseGguf_iff {file : List UInt8} {fileLen : UInt64} :
    parseGguf file fileLen = .ok catalog ↔ ∃ header reader,
      readHeader fileLen.toNat ⟨file, 0⟩ = .ok (header, reader) ∧
      ∃ start, alignUp reader.position header.alignment = .ok start ∧ start ≤ fileLen.toNat ∧
        List.Forall₂ (PlacedAt fileLen.toNat start) header.tensors catalog.tensors ∧
        (∃ ranges, catalog.tensors.mapM tensorRange = .ok ranges ∧
          checkNeighbours (ranges.insertionSort fun a b => a.1.start ≤ b.1.start) = .ok ()) ∧
        catalog.architecture = header.architecture ∧ catalog.metadata = header.metadata := by
  have hfile : fileLen.toNat ≤ usizeMax := Nat.le_of_lt_succ fileLen.toNat_lt
  simp only [parseGguf, bind_ok, rejectIf_ok, Nat.not_lt, mapM_forall₂, placeTensor_ok hfile, pure,
    Except.pure, Except.ok.injEq]
  constructor
  · rintro ⟨⟨header, reader⟩, hread, start, hstart, -, hle, tensors, htensors, ranges, hranges, u,
      hcheck, rfl⟩
    exact ⟨header, reader, hread, start, hstart, hle, htensors, ⟨ranges, hranges, hcheck⟩, rfl, rfl⟩
  · rintro ⟨header, reader, hread, start, hstart, hle, htensors, ⟨ranges, hranges, hcheck⟩,
      harchitecture, hmetadata⟩
    refine ⟨(header, reader), hread, start, hstart, (), hle, _, htensors, ranges, hranges, (),
      hcheck, ?_⟩
    rw [← harchitecture, ← hmetadata]

theorem MetadataOk.declared {alignment : Nat} {metadata : List GgufMetadataEntry} {architecture : String}
    (h : MetadataOk metadata architecture alignment) : ∃ k ≤ 32, alignment = 2 ^ k := by
  obtain ⟨k, rfl⟩ := h.power
  refine ⟨k, Nat.le_of_lt ((Nat.pow_lt_pow_iff_right (a := 2) (by decide)).mp ?_), rfl⟩
  have hdeclared := h.alignment_eq
  unfold declaredAlignment at hdeclared
  split at hdeclared
  · rw [← Option.some.inj hdeclared]
    decide
  · next value _ =>
    rw [← Option.some.inj hdeclared]
    exact value.toNat_lt
  · cases hdeclared

theorem MetadataOk.alignment_pos {alignment : Nat} {metadata : List GgufMetadataEntry} {architecture : String}
    (h : MetadataOk metadata architecture alignment) : 0 < alignment := by
  obtain ⟨k, rfl⟩ := h.power
  exact Nat.two_pow_pos k

/-- A tensor that the parser placed keeps the constraints, and the other way around. -/
theorem placedAt_iff {alignment : Nat} {raw : RawTensorDescriptor} (hfile : fileLen ≤ usizeMax) (hstart : alignment ∣ start) :
    PlacedAt fileLen start raw tensor ∧ raw.Valid alignment ↔
      tensor.raw start = raw ∧ TensorOk fileLen start alignment tensor := by
  constructor
  · rintro ⟨⟨rfl, hle, hgeometry, hstop⟩, hvalid⟩
    refine ⟨rfl, hvalid.name_ne, hvalid.name_le, ?_, fun dimension hdimension => ?_, hgeometry, ?_,
      hle, hstop⟩
    · simpa only [GgufTensorDescriptor.raw, length_reverse] using hvalid.rank
    · exact hvalid.dimensions dimension (mem_reverse.mpr hdimension)
    · rw [← Nat.add_sub_cancel' hle]
      exact Nat.dvd_add hstart (Nat.dvd_of_mod_eq_zero hvalid.aligned)
  · rintro ⟨rfl, hok⟩
    refine ⟨⟨rfl, hok.start_le, hok.geometry, hok.stop_le⟩, hok.name_ne, hok.name_le, ?_,
      fun dimension hdimension => ?_, ?_, ?_⟩
    · simpa only [GgufTensorDescriptor.raw, length_reverse] using hok.rank
    · exact hok.dimensions dimension (mem_reverse.mp hdimension)
    · have hoffset := Nat.le_trans (Nat.le_trans (Nat.le_add_right _ _) hok.stop_le) hfile
      exact Nat.lt_of_le_of_lt (Nat.le_trans (Nat.sub_le _ _) hoffset) (by decide)
    · exact Nat.mod_eq_zero_of_dvd (Nat.dvd_sub hok.aligned hstart)

theorem forall₂_placedAt {alignment : Nat} {raws : List RawTensorDescriptor} (hfile : fileLen ≤ usizeMax)
    (hstart : alignment ∣ start) :
    List.Forall₂ (PlacedAt fileLen start) raws tensors ∧ (∀ raw ∈ raws, raw.Valid alignment) ↔
      tensors.map (GgufTensorDescriptor.raw start) = raws ∧
        ∀ tensor ∈ tensors, TensorOk fileLen start alignment tensor := by
  induction tensors generalizing raws with
  | nil =>
    cases raws with
    | nil => simp
    | cons raw raws => simp
  | cons tensor tensors ih =>
    cases raws with
    | nil => simp
    | cons raw raws =>
      have hhead : PlacedAt fileLen start raw tensor ∧ raw.Valid alignment ↔ _ :=
        placedAt_iff hfile hstart
      rw [forall₂_cons, forall_mem_cons, forall_mem_cons, map_cons,
        List.cons.injEq, and_and_and_comm, hhead, ih, and_and_and_comm]

/-- The check of the ranges, for tensors that end inside the file. -/
theorem checkedRanges_iff {alignment : Nat} (hfile : fileLen ≤ usizeMax)
    (hok : ∀ tensor ∈ tensors, TensorOk fileLen start alignment tensor) :
    (∃ ranges, tensors.mapM tensorRange = .ok ranges ∧
      checkNeighbours (ranges.insertionSort fun a b => a.1.start ≤ b.1.start) = .ok ()) ↔
    tensors.Pairwise fun a b => a.range.Apart b.range := by
  have hranges : tensors.mapM tensorRange =
      .ok (tensors.map fun tensor => (tensor.range, tensor.name)) := by
    rw [mapM_forall₂, forall₂_map_right_iff, forall₂_same]
    exact fun tensor htensor => tensorRange_eq (Nat.le_trans (hok tensor htensor).stop_le hfile)
  have hpos : ∀ tensor ∈ tensors, 0 < tensor.byteLen := by
    intro tensor htensor
    obtain ⟨dtype, hgeometry⟩ := (hok tensor htensor).geometry
    exact canonicalGeometry_pos (fun dimension hdimension =>
      ((hok tensor htensor).dimensions dimension hdimension).1) hgeometry
  rw [← checkRanges_ok hpos, hranges]
  simp only [Except.ok.injEq, exists_eq_left']

/-- The parser returns a catalog exactly on the files that begin with its encoding. -/
theorem parseGguf_ok {file : List UInt8} {fileLen : UInt64} :
    parseGguf file fileLen = .ok catalog ↔
      catalog.Valid fileLen.toNat ∧ ∃ rest, file = catalog.encode ++ rest := by
  have hfile : fileLen.toNat ≤ usizeMax := Nat.le_of_lt_succ fileLen.toNat_lt
  rw [parseGguf_iff]
  constructor
  · rintro ⟨header, reader, hread, start, hstart, hle, hplaced, hranges, harchitecture, hmetadata⟩
    obtain ⟨_, ⟨hvalid, rfl⟩, hrest, hposition, hinside⟩ :=
      (readHeader_reads.ok (Nat.zero_le _)).mp hread
    have hmetadataOk := hvalid.metadata
    obtain ⟨-, rfl⟩ := (alignUp_ok hmetadataOk.declared).mp hstart
    obtain ⟨hraws, hok⟩ :=
      (forall₂_placedAt hfile (dvd_roundedUp _ _)).mp ⟨hplaced, hvalid.tensors⟩
    have halignment : catalog.alignment = header.alignment := by
      rw [GgufFile.alignment, hmetadata, hmetadataOk.alignment_eq, Option.getD_some]
    have hbytes : reader.position = catalog.headerBytes := by
      have hlength := length_encodeHeader catalog (roundedUp reader.position header.alignment)
      rw [hmetadata, GgufFile.rawTensors, hraws] at hlength
      rw [hposition, Nat.zero_add, hlength]
    have hdata : roundedUp reader.position header.alignment = catalog.dataStart := by
      rw [hbytes, ← halignment, GgufFile.dataStart]
    rw [hdata] at hle hok hraws
    rw [← halignment] at hok
    refine ⟨⟨?_, ?_, hok, ?_, (checkedRanges_iff hfile hok).mp hranges, ?_, hbytes ▸ hinside, hle⟩,
      reader.rest, ?_⟩
    · rw [hmetadata, harchitecture, halignment]
      exact hmetadataOk
    · have hcount := hvalid.count
      rwa [← hraws, length_map] at hcount
    · have hnames := hvalid.names
      rwa [← hraws, map_map] at hnames
    · have hquantization := hvalid.quantization
      rwa [← hraws, map_map, ← hmetadata] at hquantization
    · rw [GgufFile.encode, hmetadata, GgufFile.rawTensors, hraws]
      exact hrest
  · rintro ⟨hvalid, rest, rfl⟩
    let header : RawHeader := ⟨catalog.architecture, catalog.alignment, catalog.metadata,
      catalog.rawTensors catalog.dataStart⟩
    have hstart : catalog.alignment ∣ catalog.dataStart := dvd_roundedUp _ _
    obtain ⟨hplaced, hraws⟩ := (forall₂_placedAt hfile hstart).mpr ⟨rfl, hvalid.tensors⟩
    have hheader : header.Valid := by
      refine ⟨hvalid.metadata, ?_, hraws, ?_, ?_⟩
      · exact (length_map _).trans_le hvalid.count
      · change ((catalog.tensors.map _).map _).Nodup
        rw [map_map]
        exact hvalid.names
      · change QuantizationOk _ ((catalog.tensors.map _).map _)
        rw [map_map]
        exact hvalid.quantization
    have hconsumes : Consumes (headerLimit fileLen.toNat) ⟨catalog.encode ++ rest, 0⟩
        catalog.encode ⟨rest, catalog.headerBytes⟩ :=
      ⟨rfl, by rw [length_encode, Nat.zero_add], hvalid.header_le⟩
    refine ⟨header, ⟨rest, catalog.headerBytes⟩,
      (readHeader_reads.ok (Nat.zero_le _)).mpr ⟨_, ⟨hheader, rfl⟩, hconsumes⟩, catalog.dataStart,
      (alignUp_ok hvalid.metadata.declared).mpr ⟨?_, rfl⟩, hvalid.dataStart_le, hplaced,
      (checkedRanges_iff hfile hvalid.tensors).mpr hvalid.apart, rfl, rfl⟩
    -- the header is short, so rounding its end up does not overflow
    obtain ⟨k, hk, hpower⟩ := hvalid.metadata.declared
    have halignment : catalog.alignment ≤ 2 ^ 32 :=
      hpower ▸ Nat.pow_le_pow_right (by decide) hk
    have hheaderBytes := Nat.le_trans hvalid.header_le (Nat.min_le_right _ _)
    exact Nat.le_trans (Nat.add_le_add hheaderBytes
      (Nat.le_trans (Nat.sub_le _ _) halignment)) (by decide)

/-- The parser does not panic. -/
theorem noPanic_parseGguf (file : List UInt8) (fileLen : UInt64) :
    NoPanic (parseGguf file fileLen) := by
  have hfile : fileLen.toNat ≤ usizeMax := Nat.le_of_lt_succ fileLen.toNat_lt
  refine NoPanic.bind (readHeader_reads.noPanic (Nat.zero_le _)) fun ⟨header, reader⟩ hread => ?_
  obtain ⟨_, ⟨hvalid, -⟩, -⟩ := (readHeader_reads.ok (Nat.zero_le _)).mp hread
  refine (noPanic_alignUp hvalid.metadata.alignment_pos).bind fun start _ =>
    (noPanic_rejectIf _ _).bind fun _ _ => NoPanic.bind ?_ fun tensors htensors => ?_
  · exact noPanic_mapM fun raw _ => noPanic_placeTensor _ _ _
  · have hplaced := mapM_forall₂.mp htensors
    have hranges : ∀ tensor ∈ tensors, NoPanic (tensorRange tensor) := by
      intro tensor htensor
      obtain ⟨raw, _, hraw⟩ := mem_of_forall₂_right hplaced htensor
      rw [tensorRange_eq (Nat.le_trans ((placeTensor_ok hfile).mp hraw).stop_le hfile)]
      exact noPanic_ok _
    exact (noPanic_mapM hranges).bind fun ranges _ =>
      (noPanic_checkNeighbours _).bind fun _ _ => noPanic_ok _

/-! ## Main results -/

/-- Parsing inverts the reference encoding, in files of a given length. -/
structure GgufFaithful (fileLen : UInt64) : Prop where
  /-- A catalog within the constraints is read back, whatever follows its encoding. -/
  parses {catalog : GgufFile} : catalog.Valid fileLen.toNat → ∀ rest,
    parseGguf (catalog.encode ++ rest) fileLen = .ok catalog
  /-- An accepted file begins with the encoding of the catalog it is read as. -/
  reads {file : List UInt8} {catalog : GgufFile} : parseGguf file fileLen = .ok catalog →
    catalog.Valid fileLen.toNat ∧ ∃ rest, file = catalog.encode ++ rest
  /-- No file begins with the encodings of two catalogs. -/
  unique {catalog catalog' : GgufFile} : catalog.Valid fileLen.toNat →
    catalog'.Valid fileLen.toNat → ∀ rest rest',
    catalog.encode ++ rest = catalog'.encode ++ rest' → catalog = catalog'

/-- Parsing and encoding agree, for metadata arrays of scalars and strings. -/
theorem parseGguf_faithful (fileLen : UInt64) : GgufFaithful fileLen where
  parses hvalid rest := parseGguf_ok.mpr ⟨hvalid, rest, rfl⟩
  reads h := parseGguf_ok.mp h
  unique hvalid hvalid' rest rest' heq := by
    have hparsed := parseGguf_ok.mpr ⟨hvalid, rest, rfl⟩
    have hparsed' := parseGguf_ok.mpr ⟨hvalid', rest', rfl⟩
    rw [heq, hparsed'] at hparsed
    exact (Except.ok.inj hparsed).symm

/-- The reference encoding of a header with the metadata `nested = [[7]]`, and its
padding. -/
def nestedArrayFile : List UInt8 :=
  ggufMagic ++ (toLe 4 ggufVersion ++ (toLe 8 0 ++ (toLe 8 2 ++
    ((GgufMetadataEntry.mk "general.architecture" (.string "llama")).encode ++
      (encodeString "nested" ++ (toLe 4 9 ++ encodeArray 9 1 (encodeArray 0 1 [7])))))))

theorem nested_array_rejected : parseGguf (nestedArrayFile ++ List.replicate 16 0) 128 =
    .error (.error (.invalid "nested metadata arrays are not supported by this parser")) := by
  decide +kernel

/-- What an accepted catalog promises to those who load its tensors. -/
structure CatalogSafe (catalog : GgufFile) (fileLen : Nat) : Prop where
  names : (catalog.tensors.map GgufTensorDescriptor.name).Nodup
  aligned : ∀ tensor ∈ catalog.tensors, catalog.alignment ∣ tensor.dataOffset
  inside : ∀ tensor ∈ catalog.tensors, catalog.dataStart ≤ tensor.dataOffset ∧
    tensor.dataOffset + tensor.byteLen ≤ fileLen
  disjoint : catalog.tensors.Pairwise fun a b => ∀ byte, ¬ (a.range.Has byte ∧ b.range.Has byte)
  size : ∀ tensor ∈ catalog.tensors,
    tensor.byteLen = tensor.format.canonicalBytes tensor.logicalShape

theorem GgufFile.Valid.safe (h : catalog.Valid fileLen) :
    CatalogSafe catalog fileLen where
  names := h.names
  aligned tensor htensor := (h.tensors tensor htensor).aligned
  inside tensor htensor := ⟨(h.tensors tensor htensor).start_le, (h.tensors tensor htensor).stop_le⟩
  disjoint := h.apart.imp fun hapart byte ⟨ha, hb⟩ => by
    rcases hapart with hle | hle
    · exact absurd (Nat.lt_of_lt_of_le ha.2 hle) (Nat.not_lt_of_le hb.1)
    · exact absurd (Nat.lt_of_lt_of_le hb.2 hle) (Nat.not_lt_of_le ha.1)
  size tensor htensor := by
    obtain ⟨dtype, hgeometry⟩ := (h.tensors tensor htensor).geometry
    exact canonicalGeometry_bytes hgeometry

/-- The parser is safe on a file of any bytes and any length. -/
structure GgufSafe (file : List UInt8) (fileLen : UInt64) : Prop where
  noPanic : ∀ message, parseGguf file fileLen ≠ .error (.panic message)
  safe {catalog : GgufFile} : parseGguf file fileLen = .ok catalog →
    CatalogSafe catalog fileLen.toNat

theorem parseGguf_safe (file : List UInt8) (fileLen : UInt64) : GgufSafe file fileLen where
  noPanic := noPanic_parseGguf file fileLen
  safe h := (parseGguf_ok.mp h).1.safe

/-- A header with one dense and one quantized tensor. -/
def twoTensorFile : GgufFile where
  architecture := "llama"
  metadata := [⟨"general.architecture", .string "llama"⟩,
    ⟨"general.quantization_version", .u32 2⟩, ⟨"tags", .array (.string ["a", "b"])⟩]
  tensors := [⟨"w", .q4K, [2, 256], [2, 144], 288, 288⟩, ⟨"b", .f32, [3], [3], 256, 12⟩]

example : parseGguf twoTensorFile.encode 576 = .ok twoTensorFile := by decide +kernel

end EffectTorch.Gguf
