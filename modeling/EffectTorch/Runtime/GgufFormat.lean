import EffectTorch.Runtime.Gguf

/-!
# The bytes of a GGUF header

The reference encoding of every part of a header, and for each reader of the parser the
values it accepts: it returns a value exactly on the encoding of a valid value, inside
the file and the resource limit, and it never panics.

Results:
1. `readString_reads`, `readArray_reads`, `readMetadataValue_reads`: strings and metadata
   values.
2. `readMetadataEntry_reads`, `readTensor_reads`: the turns of the two tables.
3. `readHeader_reads`: the whole header.
-/

namespace EffectTorch.Gguf
open List Lib

/-- The bytes that the header may take. -/
def headerLimit (fileLen : Nat) : Nat := min fileLen maxHeaderBytes

variable {fileLen : Nat}

/-! ## Scalars -/

theorem readExact_reads (length : Nat) :
    Reads (headerLimit fileLen) (readExact fileLen length)
      (Encoded (fun bytes => bytes.length = length) id) := by
  refine ⟨fun {s bytes s'} hs => ?_, fun {s} hs => ?_⟩
  · simp only [readExact, bind_ok, okOr_ok, checkedAdd_some, rejectIf_ok, expect_ok, Nat.not_lt,
      pure, Except.pure, Except.ok.injEq, Prod.mk.injEq]
    constructor
    · rintro ⟨_, ⟨-, rfl⟩, -, hfile, -, hheader, -, hlength, _, ⟨-, rfl⟩, rfl, rfl⟩
      have htake : (s.rest.take length).length = length := length_take_of_le hlength
      exact ⟨_, ⟨htake, rfl⟩, (take_append_drop _ _).symm,
        congrArg (s.position + ·) htake.symm, le_min hfile hheader⟩
    · rintro ⟨consumed, ⟨rfl, hsame⟩, hrest, hposition, hinside⟩
      obtain rfl : consumed = bytes := hsame
      have hfile := Nat.le_trans hinside (Nat.min_le_left _ _)
      have hheader := Nat.le_trans hinside (Nat.min_le_right _ _)
      have hfits : s.position + consumed.length ≤ usizeMax := by
        rw [← hposition]
        exact Nat.le_trans hheader (by decide)
      rw [hposition] at hfile hheader
      refine ⟨_, ⟨hfits, rfl⟩, (), hfile, (), hheader, (), ?_, _, ⟨hfits, rfl⟩, ?_, ?_⟩
      · rw [hrest, length_append]
        exact Nat.le_add_right _ _
      · rw [hrest]
        exact take_left' rfl
      · obtain ⟨rest, position⟩ := s'
        rw [hrest, ← hposition]
        exact congrArg (Cursor.mk · _) (drop_left' rfl)
  · refine (noPanic_okOr _ _).bind fun stop hstop => ?_
    refine (noPanic_rejectIf _ _).bind fun _ _ => (noPanic_rejectIf _ _).bind fun _ _ =>
      (noPanic_rejectIf _ _).bind fun _ _ => ?_
    -- the position was already found to fit
    rw [okOr_ok.mp hstop]
    exact noPanic_ok _

theorem readLe_reads (width : Nat) :
    Reads (headerLimit fileLen) (readLe fileLen width)
      (Encoded (fun n => n < 256 ^ width) (toLe width)) := by
  refine ((readExact_reads width).map fromLe).congr fun n bytes => ?_
  constructor
  · rintro ⟨_, rfl, rfl, rfl⟩
    exact ⟨fromLe_lt _, (toLe_fromLe _).symm⟩
  · rintro ⟨hlt, rfl⟩
    exact ⟨_, fromLe_toLe hlt, length_toLe _ _, rfl⟩

theorem readU8_reads : Reads (headerLimit fileLen) (readU8 fileLen)
    (Encoded (fun _ => True) fun value => toLe 1 value.toNat) :=
  ((readLe_reads 1).rename UInt8.toNat (fun _ => UInt8.ofNat_toNat) fun _ hn =>
    UInt8.toNat_ofNat_of_lt' hn).congr fun value _ =>
      and_congr_left fun _ => iff_true_intro value.toNat_lt

theorem readU16_reads : Reads (headerLimit fileLen) (readU16 fileLen)
    (Encoded (fun _ => True) fun value => toLe 2 value.toNat) :=
  ((readLe_reads 2).rename UInt16.toNat (fun _ => UInt16.ofNat_toNat) fun _ hn =>
    UInt16.toNat_ofNat_of_lt' hn).congr fun value _ =>
      and_congr_left fun _ => iff_true_intro value.toNat_lt

theorem readU32_reads : Reads (headerLimit fileLen) (readU32 fileLen)
    (Encoded (fun _ => True) fun value => toLe 4 value.toNat) :=
  ((readLe_reads 4).rename UInt32.toNat (fun _ => UInt32.ofNat_toNat) fun _ hn =>
    UInt32.toNat_ofNat_of_lt' hn).congr fun value _ =>
      and_congr_left fun _ => iff_true_intro value.toNat_lt

theorem readU64_reads : Reads (headerLimit fileLen) (readU64 fileLen)
    (Encoded (fun _ => True) fun value => toLe 8 value.toNat) :=
  ((readLe_reads 8).rename UInt64.toNat (fun _ => UInt64.ofNat_toNat) fun _ hn =>
    UInt64.toNat_ofNat_of_lt' hn).congr fun value _ =>
      and_congr_left fun _ => iff_true_intro value.toNat_lt

theorem readI8_reads : Reads (headerLimit fileLen) (readI8 fileLen)
    (Encoded (fun _ => True) fun value => toLe 1 value.toUInt8.toNat) :=
  readU8_reads.rename Int8.toUInt8 (fun _ => rfl) fun _ _ => rfl

theorem readI16_reads : Reads (headerLimit fileLen) (readI16 fileLen)
    (Encoded (fun _ => True) fun value => toLe 2 value.toUInt16.toNat) :=
  readU16_reads.rename Int16.toUInt16 (fun _ => rfl) fun _ _ => rfl

theorem readI32_reads : Reads (headerLimit fileLen) (readI32 fileLen)
    (Encoded (fun _ => True) fun value => toLe 4 value.toUInt32.toNat) :=
  readU32_reads.rename Int32.toUInt32 (fun _ => rfl) fun _ _ => rfl

theorem readI64_reads : Reads (headerLimit fileLen) (readI64 fileLen)
    (Encoded (fun _ => True) fun value => toLe 8 value.toUInt64.toNat) :=
  readU64_reads.rename Int64.toUInt64 (fun _ => rfl) fun _ _ => rfl

theorem readF32_reads : Reads (headerLimit fileLen) (readF32 fileLen)
    (Encoded (fun _ => True) fun value => toLe 4 value.bits.toNat) :=
  readU32_reads.rename F32.bits (fun _ => rfl) fun _ _ => rfl

theorem readF64_reads : Reads (headerLimit fileLen) (readF64 fileLen)
    (Encoded (fun _ => True) fun value => toLe 8 value.bits.toNat) :=
  readU64_reads.rename F64.bits (fun _ => rfl) fun _ _ => rfl

theorem boolOfByte_ok {byte : UInt8} {value : Bool} :
    boolOfByte byte = .ok value ↔ byte = value.toUInt8 := by
  unfold boolOfByte
  split
  · next h =>
    obtain rfl : byte = 0 := UInt8.toNat_inj.mp h
    cases value with
    | false => exact iff_of_true rfl rfl
    | true => exact iff_of_false (fun h => nomatch h) (by decide)
  · next h =>
    obtain rfl : byte = 1 := UInt8.toNat_inj.mp h
    cases value with
    | false => exact iff_of_false (fun h => nomatch h) (by decide)
    | true => exact iff_of_true rfl rfl
  · next h0 h1 =>
    refine iff_of_false (fun h => nomatch h) fun h => ?_
    cases value with
    | false => exact h0 (congrArg UInt8.toNat h)
    | true => exact h1 (congrArg UInt8.toNat h)

theorem noPanic_boolOfByte (byte : UInt8) : NoPanic (boolOfByte byte) := by
  unfold boolOfByte
  split
  · exact noPanic_ok _
  · exact noPanic_ok _
  · exact noPanic_fail _

theorem readBool_reads : Reads (headerLimit fileLen) (readBool fileLen)
    (Encoded (fun _ => True) fun value => toLe 1 value.toUInt8.toNat) := by
  refine (readU8_reads.bind fun byte _ _ => Reads.of (noPanic_boolOfByte byte)).congr
    fun value bytes => ?_
  constructor
  · rintro ⟨byte, _, _, ⟨-, rfl⟩, ⟨hbyte, rfl⟩, rfl⟩
    rw [append_nil, boolOfByte_ok.mp hbyte]
    exact ⟨trivial, rfl⟩
  · rintro ⟨-, rfl⟩
    exact ⟨_, _, [], ⟨trivial, rfl⟩, ⟨boolOfByte_ok.mpr rfl, rfl⟩, (append_nil _).symm⟩

theorem rejectIf_return {ε α : Type} {b : Prop} [Decidable b] {e : ε} {a a' : α} :
    (do rejectIf b e; return a : Fallible ε α) = .ok a' ↔ a' = a ∧ ¬ b := by
  unfold rejectIf
  split
  · next h => exact iff_of_false (fun heq => nomatch heq) fun heq => heq.2 h
  · next h => exact ⟨fun heq => ⟨(Except.ok.inj heq).symm, h⟩, fun heq => congrArg _ heq.1.symm⟩

theorem readCheckedU64_reads (what : String) :
    Reads (headerLimit fileLen) (readCheckedU64 fileLen what)
      (Encoded (fun value => value.toNat ≤ jsSafeInteger) fun value => toLe 8 value.toNat) := by
  refine (readU64_reads.checked (checkedU64Metadata · what)
    (fun value => value.toNat ≤ jsSafeInteger) (fun value => ?_) fun value value' => ?_).congr
    fun value bytes => and_congr_left fun _ => and_iff_right trivial
  · exact (noPanic_rejectIf _ _).bind fun _ _ => noPanic_ok _
  · exact rejectIf_return.trans (and_congr_right' Nat.not_lt)

/-- The integers that JavaScript represents. -/
def SafeInt (value : Int64) : Prop := -jsSafeInteger ≤ value.toInt ∧ value.toInt ≤ jsSafeInteger

theorem readCheckedI64_reads (what : String) :
    Reads (headerLimit fileLen) (readCheckedI64 fileLen what)
      (Encoded SafeInt fun value => toLe 8 value.toUInt64.toNat) := by
  refine (readI64_reads.checked (checkedI64Metadata · what) SafeInt
    (fun value => ?_) fun value value' => ?_).congr
    fun value bytes => and_congr_left fun _ => and_iff_right trivial
  · exact (noPanic_rejectIf _ _).bind fun _ _ => noPanic_ok _
  · refine rejectIf_return.trans (and_congr_right' ?_)
    rw [not_or, Int.not_lt, Int.not_lt]
    rfl

/-! ## Counts and strings -/

/-- A count is read with what it counts. -/
theorem count_reads {β : Type} {value minimumBytes maximum : Nat} {what : String}
    {next : Nat → HeaderReader β} {format : Format β}
    (h : Reads (headerLimit fileLen) (next value) format)
    (hwidth : ∀ b bytes, format b bytes → value * minimumBytes ≤ bytes.length) :
    Reads (headerLimit fileLen) (count fileLen value what minimumBytes maximum >>= next)
      fun b bytes => value ≤ maximum ∧ format b bytes := by
  have haccept : ∀ s : Cursor, count fileLen value what minimumBytes maximum s = .ok (value, s) ↔
      value ≤ maximum ∧ (0 < minimumBytes → value ≤ (headerLimit fileLen - s.position) / minimumBytes) := by
    intro s
    simp only [count, bind_ok, rejectIf_ok, not_and, Nat.not_lt, pure, Except.pure, exists_const,
      and_true, headerLimit]
  refine Reads.counted (fun value => count fileLen value what minimumBytes maximum)
    (fun {s} _ => ?_) (fun {s} _ => haccept s) h hwidth
  simp only [count, rejectIf]
  split
  · exact Or.inl ⟨_, rfl⟩
  · rw [ok_bind]
    split
    · exact Or.inl ⟨_, rfl⟩
    · exact Or.inr rfl

/-- The bytes of a string. -/
def utf8 (value : String) : List UInt8 := value.toUTF8.data.toList

theorem fromUTF8_iff {bytes : List UInt8} {value : String} :
    String.fromUTF8? ⟨bytes.toArray⟩ = some value ↔ bytes = utf8 value := by
  unfold String.fromUTF8?
  split
  · next hvalid =>
    rw [Option.some.injEq]
    constructor
    · rintro rfl
      rfl
    · rintro rfl
      rfl
  · next hvalid =>
    refine iff_of_false (fun h => nomatch h) ?_
    rintro rfl
    exact hvalid value.isValidUTF8

def encodeString (value : String) : List UInt8 := toLe 8 (utf8 value).length ++ utf8 value

theorem readString_reads (what : String) {maximum : Nat} (hmaximum : maximum < 2 ^ 64) :
    Reads (headerLimit fileLen) (readString fileLen what maximum)
      (Encoded (fun value => (utf8 value).length ≤ maximum) encodeString) := by
  refine (readU64_reads.bind fun byteLen _ _ => count_reads
    ((readExact_reads byteLen.toNat).bind fun bytes _ _ => Reads.of (noPanic_okOr _ _))
    fun value bytes h => ?_).congr fun value bytes => ?_
  · obtain ⟨_, _, _, ⟨hlength, rfl⟩, -, rfl⟩ := h
    rw [length_append, Nat.mul_one, ← hlength]
    exact Nat.le_add_right _ _
  · simp only [okOr_ok, fromUTF8_iff]
    constructor
    · rintro ⟨byteLen, _, _, ⟨-, rfl⟩, ⟨hle, _, _, _, ⟨hlength, rfl⟩, ⟨rfl, rfl⟩, rfl⟩, rfl⟩
      refine ⟨hlength.trans_le hle, ?_⟩
      rw [append_nil, encodeString, hlength]
    · rintro ⟨hle, rfl⟩
      have hlength : (UInt64.ofNat (utf8 value).length).toNat = (utf8 value).length :=
        UInt64.toNat_ofNat_of_lt' (Nat.lt_of_le_of_lt hle hmaximum)
      refine ⟨UInt64.ofNat (utf8 value).length, _, utf8 value, ⟨trivial, rfl⟩,
        ⟨by rwa [hlength], _, _, [], ⟨hlength.symm, rfl⟩, ⟨rfl, rfl⟩, ?_⟩, ?_⟩
      · exact (append_nil _).symm
      · exact congrArg (fun length => toLe 8 length ++ utf8 value) hlength.symm

/-! ## Metadata -/

namespace GgufMetadataArray

/-- The type code of the elements. -/
@[simp] def elementType : GgufMetadataArray → Nat
  | u8 _ => 0
  | i8 _ => 1
  | u16 _ => 2
  | i16 _ => 3
  | u32 _ => 4
  | i32 _ => 5
  | f32 _ => 6
  | bool _ => 7
  | string _ => 8
  | u64 _ => 10
  | i64 _ => 11
  | f64 _ => 12

@[simp] def length : GgufMetadataArray → Nat
  | u8 values => values.length
  | i8 values => values.length
  | u16 values => values.length
  | i16 values => values.length
  | u32 values => values.length
  | i32 values => values.length
  | f32 values => values.length
  | bool values => values.length
  | string values => values.length
  | u64 values => values.length
  | i64 values => values.length
  | f64 values => values.length

@[simp] def encodeElements : GgufMetadataArray → List UInt8
  | u8 values => values.flatMap fun value => toLe 1 value.toNat
  | i8 values => values.flatMap fun value => toLe 1 value.toUInt8.toNat
  | u16 values => values.flatMap fun value => toLe 2 value.toNat
  | i16 values => values.flatMap fun value => toLe 2 value.toUInt16.toNat
  | u32 values => values.flatMap fun value => toLe 4 value.toNat
  | i32 values => values.flatMap fun value => toLe 4 value.toUInt32.toNat
  | f32 values => values.flatMap fun value => toLe 4 value.bits.toNat
  | bool values => values.flatMap fun value => toLe 1 value.toUInt8.toNat
  | string values => values.flatMap encodeString
  | u64 values => values.flatMap fun value => toLe 8 value.toNat
  | i64 values => values.flatMap fun value => toLe 8 value.toUInt64.toNat
  | f64 values => values.flatMap fun value => toLe 8 value.bits.toNat

/-- The elements are within the documented limits. -/
@[simp] def ElementsOk : GgufMetadataArray → Prop
  | string values => ∀ value ∈ values, (utf8 value).length ≤ maxMetadataStringBytes
  | u64 values => ∀ value ∈ values, value.toNat ≤ jsSafeInteger
  | i64 values => ∀ value ∈ values, SafeInt value
  | _ => True

def Valid (values : GgufMetadataArray) : Prop :=
  values.length ≤ maxMetadataArrayElements ∧ values.ElementsOk

end GgufMetadataArray

/-- The bytes of an array, given those of its elements. -/
def encodeArray (elementType count : Nat) (elements : List UInt8) : List UInt8 :=
  toLe 4 elementType ++ toLe 8 count ++ elements

variable {alignment : Nat} {metadata : List GgufMetadataEntry}

theorem readElements_reads {width : Nat} {elementType : Nat} (htype : minimumBytes elementType = some width) (count : Nat) :
    Reads (headerLimit fileLen) (readElements fileLen elementType count)
      (Encoded (fun values => values.elementType = elementType ∧ values.length = count ∧
        values.ElementsOk) GgufMetadataArray.encodeElements) := by
  have hstring := @readString_reads fileLen "metadata array string" maxMetadataStringBytes (by decide)
  unfold minimumBytes at htype
  split at htype
  · exact ((readU8_reads.encodedMany count).map _).congr fun values _ => by
      cases values <;> simp [Encoded]
  · exact ((readI8_reads.encodedMany count).map _).congr fun values _ => by
      cases values <;> simp [Encoded]
  · exact ((readBool_reads.encodedMany count).map _).congr fun values _ => by
      cases values <;> simp [Encoded]
  · exact ((readU16_reads.encodedMany count).map _).congr fun values _ => by
      cases values <;> simp [Encoded]
  · exact ((readI16_reads.encodedMany count).map _).congr fun values _ => by
      cases values <;> simp [Encoded]
  · exact ((readU32_reads.encodedMany count).map _).congr fun values _ => by
      cases values <;> simp [Encoded]
  · exact ((readI32_reads.encodedMany count).map _).congr fun values _ => by
      cases values <;> simp [Encoded]
  · exact ((readF32_reads.encodedMany count).map _).congr fun values _ => by
      cases values <;> simp [Encoded]
  · exact ((hstring.encodedMany count).map _).congr fun values _ => by
      cases values <;> simp [Encoded]
  · exact (((readCheckedU64_reads _).encodedMany count).map _).congr fun values _ => by
      cases values <;> simp [Encoded]
  · exact (((readCheckedI64_reads _).encodedMany count).map _).congr fun values _ => by
      cases values <;> simp [Encoded]
  · exact ((readF64_reads.encodedMany count).map _).congr fun values _ => by
      cases values <;> simp [Encoded]
  · cases htype

/-- What the bytes of a list come to at the least. -/
theorem length_flatMap_le {width : Nat} {α : Type} {values : List α} {encode : α → List UInt8}
    (h : ∀ value ∈ values, width ≤ (encode value).length) :
    values.length * width ≤ (values.flatMap encode).length := by
  induction values with
  | nil => exact Nat.le_of_eq (Nat.zero_mul _)
  | cons value values ih =>
    obtain ⟨hvalue, hrest⟩ := forall_mem_cons.mp h
    rw [length_cons, Nat.succ_mul, flatMap_cons, length_append, Nat.add_comm]
    exact Nat.add_le_add hvalue (ih hrest)

theorem elements_width {width : Nat} {values : GgufMetadataArray} (htype : minimumBytes values.elementType = some width) :
    values.length * width ≤ values.encodeElements.length := by
  cases values with
  | string values =>
    obtain rfl : 8 = width := Option.some.inj htype
    refine length_flatMap_le fun value _ => ?_
    rw [encodeString, length_append, length_toLe]
    exact Nat.le_add_right _ _
  | _ =>
    cases htype
    exact length_flatMap_le fun value _ => Nat.le_of_eq (length_toLe _ _).symm

theorem elementType_lt (values : GgufMetadataArray) : values.elementType < 2 ^ 32 := by
  cases values <;> simp only [GgufMetadataArray.elementType] <;> decide

theorem elementType_ne_array (values : GgufMetadataArray) :
    UInt32.ofNat values.elementType ≠ 9 := by
  cases values <;> simp only [GgufMetadataArray.elementType] <;> decide

theorem minimumBytes_elementType (values : GgufMetadataArray) :
    ∃ width, minimumBytes values.elementType = some width := by
  cases values <;> exact ⟨_, rfl⟩

theorem readArray_reads : Reads (headerLimit fileLen) (readArray fileLen)
    (Encoded GgufMetadataArray.Valid fun values =>
      encodeArray values.elementType values.length values.encodeElements) := by
  refine (readU32_reads.bind fun elementType _ _ => Reads.guard (noPanic_rejectIf _ _)
    (readU64_reads.bind fun count _ _ => (Reads.of (noPanic_okOr _ _)).bind
      fun width _ hwidth => count_reads (readElements_reads (okOr_ok.mp hwidth.1) _)
        fun values bytes h => ?_)).congr fun values bytes => ?_
  · obtain ⟨⟨htype, hlength, -⟩, rfl⟩ := h
    rw [← hlength]
    exact elements_width (htype ▸ okOr_ok.mp hwidth.1)
  · simp only [okOr_ok, rejectIf_ok]
    constructor
    · rintro ⟨elementType, _, _, ⟨-, rfl⟩, ⟨-, count, _, _, ⟨-, rfl⟩, ⟨width, _, _, ⟨-, rfl⟩,
        ⟨hle, ⟨htype, hlength, hok⟩, rfl⟩, rfl⟩, rfl⟩, rfl⟩
      refine ⟨⟨hlength.trans_le hle, hok⟩, ?_⟩
      change _ = toLe 4 values.elementType ++ toLe 8 values.length ++ values.encodeElements
      rw [htype, hlength, append_assoc]
      rfl
    · rintro ⟨⟨hle, hok⟩, rfl⟩
      obtain ⟨width, hwidth⟩ := minimumBytes_elementType values
      have htype : (UInt32.ofNat values.elementType).toNat = values.elementType :=
        UInt32.toNat_ofNat_of_lt' (elementType_lt values)
      have hlength : (UInt64.ofNat values.length).toNat = values.length :=
        UInt64.toNat_ofNat_of_lt' (Nat.lt_of_le_of_lt hle (by decide))
      refine ⟨UInt32.ofNat values.elementType, _, _, ⟨trivial, rfl⟩, ⟨elementType_ne_array values,
        UInt64.ofNat values.length, _, _, ⟨trivial, rfl⟩, ⟨width, [], _, ⟨by rw [htype, hwidth], rfl⟩,
        ⟨hlength.trans_le hle, ⟨htype.symm, hlength.symm, hok⟩, rfl⟩, rfl⟩, rfl⟩, ?_⟩
      change toLe 4 values.elementType ++ toLe 8 values.length ++ values.encodeElements = _
      rw [append_assoc]
      change _ = toLe 4 (UInt32.ofNat values.elementType).toNat ++
        (toLe 8 (UInt64.ofNat values.length).toNat ++ ([] ++ values.encodeElements))
      rw [htype, hlength, nil_append]

namespace GgufMetadataValue

@[simp] def valueType : GgufMetadataValue → Nat
  | u8 _ => 0
  | i8 _ => 1
  | u16 _ => 2
  | i16 _ => 3
  | u32 _ => 4
  | i32 _ => 5
  | f32 _ => 6
  | bool _ => 7
  | string _ => 8
  | array _ => 9
  | u64 _ => 10
  | i64 _ => 11
  | f64 _ => 12

@[simp] def encode : GgufMetadataValue → List UInt8
  | u8 value => toLe 1 value.toNat
  | i8 value => toLe 1 value.toUInt8.toNat
  | u16 value => toLe 2 value.toNat
  | i16 value => toLe 2 value.toUInt16.toNat
  | u32 value => toLe 4 value.toNat
  | i32 value => toLe 4 value.toUInt32.toNat
  | f32 value => toLe 4 value.bits.toNat
  | bool value => toLe 1 value.toUInt8.toNat
  | string value => encodeString value
  | array values => encodeArray values.elementType values.length values.encodeElements
  | u64 value => toLe 8 value.toNat
  | i64 value => toLe 8 value.toUInt64.toNat
  | f64 value => toLe 8 value.bits.toNat

/-- The value is within the documented limits. -/
@[simp] def Valid : GgufMetadataValue → Prop
  | string value => (utf8 value).length ≤ maxMetadataStringBytes
  | array values => values.Valid
  | u64 value => value.toNat ≤ jsSafeInteger
  | i64 value => SafeInt value
  | _ => True

end GgufMetadataValue

theorem readMetadataValue_reads (valueType : UInt32) :
    Reads (headerLimit fileLen) (readMetadataValue fileLen valueType)
      (Encoded (fun value => value.valueType = valueType.toNat ∧ value.Valid)
        GgufMetadataValue.encode) := by
  have hstring := @readString_reads fileLen "metadata string" maxMetadataStringBytes (by decide)
  unfold readMetadataValue
  split
  · next h =>
    exact (readU8_reads.map _).congr fun value _ => by
      cases value <;> simp [Encoded, h]
  · next h =>
    exact (readI8_reads.map _).congr fun value _ => by
      cases value <;> simp [Encoded, h]
  · next h =>
    exact (readU16_reads.map _).congr fun value _ => by
      cases value <;> simp [Encoded, h]
  · next h =>
    exact (readI16_reads.map _).congr fun value _ => by
      cases value <;> simp [Encoded, h]
  · next h =>
    exact (readU32_reads.map _).congr fun value _ => by
      cases value <;> simp [Encoded, h]
  · next h =>
    exact (readI32_reads.map _).congr fun value _ => by
      cases value <;> simp [Encoded, h]
  · next h =>
    exact (readF32_reads.map _).congr fun value _ => by
      cases value <;> simp [Encoded, h]
  · next h =>
    exact (readBool_reads.map _).congr fun value _ => by
      cases value <;> simp [Encoded, h]
  · next h =>
    exact (hstring.map _).congr fun value _ => by
      cases value <;> simp [Encoded, h]
  · next h =>
    exact (readArray_reads.map _).congr fun value _ => by
      cases value <;> simp [Encoded, h]
  · next h =>
    exact ((readCheckedU64_reads _).map _).congr fun value _ => by
      cases value <;> simp [Encoded, h]
  · next h =>
    exact ((readCheckedI64_reads _).map _).congr fun value _ => by
      cases value <;> simp [Encoded, h]
  · next h =>
    exact (readF64_reads.map _).congr fun value _ => by
      cases value <;> simp [Encoded, h]
  · refine (Reads.of (noPanic_fail _)).congr fun value bytes =>
      iff_of_false (by rintro ⟨⟨⟩, -⟩) fun h => ?_
    have htype := h.1.1
    cases value <;> simp_all only [GgufMetadataValue.valueType]

/-! ## The tables -/

def GgufMetadataEntry.encode (entry : GgufMetadataEntry) : List UInt8 :=
  encodeString entry.key ++ (toLe 4 entry.value.valueType ++ entry.value.encode)

structure GgufMetadataEntry.Valid (entry : GgufMetadataEntry) : Prop where
  key_ne : entry.key ≠ ""
  key_le : (utf8 entry.key).length ≤ maxMetadataKeyBytes
  value : entry.value.Valid

theorem valueType_lt (value : GgufMetadataValue) : value.valueType < 2 ^ 32 := by
  cases value <;> simp only [GgufMetadataValue.valueType] <;> decide

theorem readMetadataEntry_reads (metadata : List GgufMetadataEntry) :
    Reads (headerLimit fileLen) (readMetadataEntry fileLen metadata)
      (AppendFormat GgufMetadataEntry.key
        (Encoded GgufMetadataEntry.Valid GgufMetadataEntry.encode) metadata) := by
  refine ((readString_reads _ (by decide)).bind fun key _ _ =>
    Reads.guard (noPanic_rejectIf _ _) (Reads.guard (noPanic_rejectIf _ _)
      (readU32_reads.bind fun valueType _ _ => (readMetadataValue_reads valueType).bind
        fun value _ _ => Reads.pure _))).congr fun next bytes => ?_
  simp only [rejectIf_ok]
  constructor
  · rintro ⟨key, _, _, ⟨hlength, rfl⟩, ⟨hne, hnew, valueType, _, _, ⟨-, rfl⟩,
      ⟨value, _, _, ⟨⟨htype, hvalue⟩, rfl⟩, ⟨rfl, rfl⟩, rfl⟩, rfl⟩, rfl⟩
    refine ⟨⟨key, value⟩, hnew, ⟨⟨hne, hlength, hvalue⟩, ?_⟩, rfl⟩
    rw [GgufMetadataEntry.encode, htype, append_nil]
  · rintro ⟨⟨key, value⟩, hnew, ⟨⟨hne, hlength, hvalue⟩, rfl⟩, rfl⟩
    have htype : (UInt32.ofNat value.valueType).toNat = value.valueType :=
      UInt32.toNat_ofNat_of_lt' (valueType_lt value)
    refine ⟨key, _, _, ⟨hlength, rfl⟩, ⟨hne, hnew, UInt32.ofNat value.valueType, _, _,
      ⟨trivial, rfl⟩, ⟨value, _, _, ⟨⟨htype.symm, hvalue⟩, rfl⟩, ⟨rfl, rfl⟩, rfl⟩, rfl⟩, ?_⟩
    simp only [GgufMetadataEntry.encode, htype, append_nil]

/-- The GGML code of the format. -/
def GgufTensorFormat.code : GgufTensorFormat → Nat
  | f32 => 0
  | q2K => 10
  | q3K => 11
  | q4K => 12
  | q5K => 13
  | q6K => 14

theorem GgufTensorFormat.code_lt (format : GgufTensorFormat) : format.code < 2 ^ 32 := by
  cases format <;> decide

theorem fromCode_ok {code : UInt32} {format : GgufTensorFormat} :
    GgufTensorFormat.fromCode code = .ok format ↔ code.toNat = format.code := by
  unfold GgufTensorFormat.fromCode
  split
  all_goals cases format <;> simp_all [GgufTensorFormat.code, fail]

theorem noPanic_fromCode (code : UInt32) : NoPanic (GgufTensorFormat.fromCode code) := by
  unfold GgufTensorFormat.fromCode
  split
  all_goals first | exact noPanic_ok _ | exact noPanic_fail _

theorem readDimension_reads (name : String) :
    Reads (headerLimit fileLen) (readDimension fileLen name)
      (Encoded (fun dimension => 0 < dimension ∧ dimension ≤ jsSafeInteger) (toLe 8)) := by
  refine (readU64_reads.bind fun dimension _ _ => Reads.guard (noPanic_rejectIf _ _)
    (Reads.pure _)).congr fun dimension bytes => ?_
  simp only [rejectIf_ok, not_or, Nat.not_lt]
  constructor
  · rintro ⟨value, _, _, ⟨-, rfl⟩, ⟨⟨hne, hle⟩, rfl, rfl⟩, rfl⟩
    exact ⟨⟨Nat.pos_of_ne_zero fun h => hne (UInt64.toNat_inj.mp h), hle⟩, append_nil _⟩
  · rintro ⟨⟨hpos, hle⟩, rfl⟩
    have hdimension : (UInt64.ofNat dimension).toNat = dimension :=
      UInt64.toNat_ofNat_of_lt' (Nat.lt_of_le_of_lt hle (by decide))
    refine ⟨UInt64.ofNat dimension, _, [], ⟨trivial, rfl⟩, ⟨⟨fun h => ?_, ?_⟩, ?_, rfl⟩, ?_⟩
    · rw [h] at hdimension
      exact absurd hdimension (Nat.ne_of_lt hpos)
    · rwa [hdimension]
    · exact hdimension.symm
    · simp only [hdimension, append_nil]

def RawTensorDescriptor.encode (tensor : RawTensorDescriptor) : List UInt8 :=
  encodeString tensor.name ++ (toLe 4 tensor.dimensions.length ++
    (tensor.dimensions.flatMap (toLe 8) ++
      (toLe 4 tensor.format.code ++ toLe 8 tensor.relativeOffset)))

structure RawTensorDescriptor.Valid (alignment : Nat) (tensor : RawTensorDescriptor) : Prop where
  name_ne : tensor.name ≠ ""
  name_le : (utf8 tensor.name).length ≤ maxTensorNameBytes
  rank : 1 ≤ tensor.dimensions.length ∧ tensor.dimensions.length ≤ 4
  dimensions : ∀ dimension ∈ tensor.dimensions, 0 < dimension ∧ dimension ≤ jsSafeInteger
  offset_lt : tensor.relativeOffset < 2 ^ 64
  aligned : tensor.relativeOffset % alignment = 0

theorem remainder_ok {a b r : Nat} : remainder a b = .ok r ↔ b ≠ 0 ∧ r = a % b := by
  unfold remainder
  split
  · next h => simp [h]
  · next h => simp [h, eq_comm]

theorem noPanic_remainder {a b : Nat} (h : b ≠ 0) : NoPanic (remainder a b) := by
  rw [remainder, if_neg h]
  exact noPanic_ok _

theorem readTensor_reads (halignment : alignment ≠ 0) (tensors : List RawTensorDescriptor) :
    Reads (headerLimit fileLen) (readTensor fileLen alignment tensors)
      (AppendFormat RawTensorDescriptor.name
        (Encoded (RawTensorDescriptor.Valid alignment) RawTensorDescriptor.encode) tensors) := by
  refine ((readString_reads _ (by decide)).bind fun name _ _ =>
    Reads.guard (noPanic_rejectIf _ _) (Reads.guard (noPanic_rejectIf _ _)
      (readU32_reads.bind fun rank _ _ => Reads.guard (noPanic_rejectIf _ _)
        (((readDimension_reads name).encodedMany rank.toNat).bind fun dimensions _ _ =>
          readU32_reads.bind fun code _ _ => (Reads.of (noPanic_fromCode code)).bind
            fun format _ _ => readU64_reads.bind fun offset _ _ =>
              (Reads.of (noPanic_remainder halignment)).bind fun misaligned _ _ =>
                Reads.guard (noPanic_rejectIf _ _) (Reads.pure _))))).congr fun next bytes => ?_
  simp only [rejectIf_ok, not_not, fromCode_ok, remainder_ok]
  constructor
  · rintro ⟨name, _, _, ⟨hlength, rfl⟩, ⟨hne, hnew, rank, _, _, ⟨-, rfl⟩, ⟨hrank, dimensions, _, _,
      ⟨⟨hcount, hdimensions⟩, rfl⟩, ⟨code, _, _, ⟨-, rfl⟩, ⟨format, _, _, ⟨hcode, rfl⟩,
        ⟨offset, _, _, ⟨-, rfl⟩, ⟨_, _, _, ⟨⟨-, rfl⟩, rfl⟩, ⟨haligned, rfl, rfl⟩, rfl⟩, rfl⟩,
          rfl⟩, rfl⟩, rfl⟩, rfl⟩, rfl⟩
    refine ⟨⟨name, dimensions, format, offset.toNat⟩, hnew,
      ⟨⟨hne, hlength, hcount.symm ▸ hrank, hdimensions, offset.toNat_lt, haligned⟩, ?_⟩, rfl⟩
    simp only [RawTensorDescriptor.encode, hcount, hcode, append_nil, nil_append]
  · rintro ⟨⟨name, dimensions, format, offset⟩, hnew,
      ⟨⟨hne, hlength, hrank, hdimensions, hoffset, haligned⟩, rfl⟩, rfl⟩
    have hcount : (UInt32.ofNat dimensions.length).toNat = dimensions.length :=
      UInt32.toNat_ofNat_of_lt' (Nat.lt_of_le_of_lt hrank.2 (by decide))
    have hcode : (UInt32.ofNat format.code).toNat = format.code :=
      UInt32.toNat_ofNat_of_lt' format.code_lt
    have hsame : (UInt64.ofNat offset).toNat = offset := UInt64.toNat_ofNat_of_lt' hoffset
    refine ⟨name, _, _, ⟨hlength, rfl⟩, ⟨hne, hnew, UInt32.ofNat dimensions.length, _, _,
      ⟨trivial, rfl⟩, ⟨hcount.symm ▸ hrank, dimensions, _, _, ⟨⟨hcount.symm, hdimensions⟩, rfl⟩,
        ⟨UInt32.ofNat format.code, _, _, ⟨trivial, rfl⟩, ⟨format, _, _, ⟨hcode, rfl⟩,
          ⟨UInt64.ofNat offset, _, _, ⟨trivial, rfl⟩, ⟨_, _, _, ⟨⟨halignment, rfl⟩, rfl⟩,
            ⟨?_, ?_, rfl⟩, rfl⟩, rfl⟩, rfl⟩, rfl⟩, rfl⟩, rfl⟩, ?_⟩
    · rw [hsame]
      exact haligned
    · rw [hsame]
    · simp only [RawTensorDescriptor.encode, hcount, hcode, hsame, append_nil,
        nil_append]

/-! ## The header -/

/-- The alignment that the metadata declare, if they do it as a `u32`. -/
def declaredAlignment (metadata : List GgufMetadataEntry) : Option Nat :=
  match findValue metadata "general.alignment" with
  | none => some defaultAlignment
  | some (.u32 value) => some value.toNat
  | some _ => none

/-- The metadata keep the documented constraints. -/
structure MetadataOk (metadata : List GgufMetadataEntry) (architecture : String)
    (alignment : Nat) : Prop where
  count : metadata.length ≤ maxMetadataCount
  entries : ∀ entry ∈ metadata, entry.Valid
  keys : (metadata.map GgufMetadataEntry.key).Nodup
  architecture_eq : findValue metadata "general.architecture" = some (.string architecture)
  architecture_ne : architecture ≠ ""
  alignment_eq : declaredAlignment metadata = some alignment
  power : ∃ k, alignment = 2 ^ k

/-- Quantized tensors come with the version of their encoding. -/
def QuantizationOk (metadata : List GgufMetadataEntry) (formats : List GgufTensorFormat) : Prop :=
  (∃ format ∈ formats, format ≠ .f32) →
    findValue metadata "general.quantization_version" = some (.u32 ggmlQuantizationVersion)

/-- The header keeps the documented constraints. -/
structure RawHeader.Valid (header : RawHeader) : Prop where
  metadata : MetadataOk header.metadata header.architecture header.alignment
  count : header.tensors.length ≤ maxTensorCount
  tensors : ∀ tensor ∈ header.tensors, tensor.Valid header.alignment
  names : (header.tensors.map RawTensorDescriptor.name).Nodup
  quantization : QuantizationOk header.metadata (header.tensors.map RawTensorDescriptor.format)

def encodeTables (metadata : List GgufMetadataEntry) (tensors : List RawTensorDescriptor) :
    List UInt8 :=
  metadata.flatMap GgufMetadataEntry.encode ++ tensors.flatMap RawTensorDescriptor.encode

/-- The reference encoding of a header. -/
def encodeHeader (metadata : List GgufMetadataEntry) (tensors : List RawTensorDescriptor) :
    List UInt8 :=
  ggufMagic ++ (toLe 4 ggufVersion ++ (toLe 8 tensors.length ++ (toLe 8 metadata.length ++
    encodeTables metadata tensors)))

theorem architectureOf_ok {architecture : String} :
    architectureOf metadata = .ok architecture ↔
      findValue metadata "general.architecture" = some (.string architecture) ∧
        architecture ≠ "" := by
  unfold architectureOf
  rw [bind_ok]
  simp only [okOr_ok]
  constructor
  · rintro ⟨value, hvalue, h⟩
    split at h
    · obtain ⟨rfl, hne⟩ := rejectIf_return.mp h
      exact ⟨hvalue, hne⟩
    · cases h
  · rintro ⟨hvalue, hne⟩
    exact ⟨_, hvalue, rejectIf_return.mpr ⟨rfl, hne⟩⟩

theorem noPanic_architectureOf (metadata : List GgufMetadataEntry) :
    NoPanic (architectureOf metadata) := by
  refine (noPanic_okOr _ _).bind fun value _ => ?_
  split
  · exact (noPanic_rejectIf _ _).bind fun _ _ => noPanic_ok _
  · exact noPanic_fail _

theorem alignmentOf_ok :
    alignmentOf metadata = .ok alignment ↔
      declaredAlignment metadata = some alignment ∧ ∃ k, alignment = 2 ^ k := by
  have hpower : ∀ n, ¬ (n = 0 ∨ isPowerOfTwo n = false) ↔ ∃ k, n = 2 ^ k := by
    intro n
    rw [not_or, Bool.not_eq_false, isPowerOfTwo_iff]
    refine and_iff_right_of_imp ?_
    rintro ⟨k, rfl⟩
    exact Nat.ne_of_gt (Nat.two_pow_pos k)
  have hvalue : ∀ n, alignmentValue metadata = .ok n ↔ declaredAlignment metadata = some n := by
    intro n
    unfold alignmentValue declaredAlignment
    cases findValue metadata "general.alignment" with
    | none => simp
    | some value => cases value <;> simp
  rw [alignmentOf, bind_ok]
  constructor
  · rintro ⟨n, hn, hreturn⟩
    obtain ⟨rfl, htest⟩ := rejectIf_return.mp hreturn
    exact ⟨(hvalue _).mp hn, (hpower _).mp htest⟩
  · rintro ⟨hn, hk⟩
    exact ⟨_, (hvalue _).mpr hn, rejectIf_return.mpr ⟨rfl, (hpower _).mpr hk⟩⟩

theorem noPanic_alignmentOf (metadata : List GgufMetadataEntry) :
    NoPanic (alignmentOf metadata) := by
  have hvalue : NoPanic (alignmentValue metadata) := by
    unfold alignmentValue
    split
    · exact noPanic_ok _
    · exact noPanic_ok _
    · exact noPanic_fail _
  exact hvalue.bind fun alignment _ => (noPanic_rejectIf _ _).bind fun _ _ => noPanic_ok _

theorem checkQuantizationVersion_ok {u : Unit} :
    checkQuantizationVersion metadata = .ok u ↔
      findValue metadata "general.quantization_version" = some (.u32 ggmlQuantizationVersion) := by
  unfold checkQuantizationVersion
  rw [bind_ok]
  simp only [okOr_ok]
  constructor
  · rintro ⟨value, hvalue, h⟩
    split at h
    · rw [rejectIf_ok, not_not] at h
      rw [hvalue, h]
    · cases h
  · intro hvalue
    exact ⟨_, hvalue, rejectIf_ok.mpr (not_not.mpr rfl)⟩

theorem noPanic_checkQuantizationVersion (metadata : List GgufMetadataEntry) :
    NoPanic (checkQuantizationVersion metadata) := by
  refine (noPanic_okOr _ _).bind fun value _ => ?_
  split
  · exact noPanic_rejectIf _ _
  · exact noPanic_fail _

theorem isSome_quantization {format : GgufTensorFormat} :
    format.quantization.isSome = true ↔ format ≠ .f32 := by
  cases format <;> decide

theorem quantizationOk_iff {tensors : List RawTensorDescriptor} {u : Unit} :
    (if tensors.any fun tensor => tensor.format.quantization.isSome then
      checkQuantizationVersion metadata else .ok ()) = .ok u ↔
    QuantizationOk metadata (tensors.map RawTensorDescriptor.format) := by
  have hany : (tensors.any fun tensor => tensor.format.quantization.isSome) = true ↔
      ∃ format ∈ tensors.map RawTensorDescriptor.format, format ≠ .f32 := by
    simp only [any_eq_true, isSome_quantization, mem_map, exists_exists_and_eq_and]
  unfold QuantizationOk
  rw [← hany]
  split
  · next h => rw [checkQuantizationVersion_ok, forall_prop_of_true h]
  · next h => exact iff_of_true rfl fun h' => absurd h' h

theorem readTables_reads (metadataCount tensorCount : Nat) :
    Reads (headerLimit fileLen) (readTables fileLen metadataCount tensorCount)
      fun header bytes => header.metadata.length = metadataCount ∧
        header.tensors.length = tensorCount ∧
        (∀ entry ∈ header.metadata, entry.Valid) ∧
        (header.metadata.map GgufMetadataEntry.key).Nodup ∧
        architectureOf header.metadata = .ok header.architecture ∧
        alignmentOf header.metadata = .ok header.alignment ∧
        (∀ tensor ∈ header.tensors, tensor.Valid header.alignment) ∧
        (header.tensors.map RawTensorDescriptor.name).Nodup ∧
        QuantizationOk header.metadata (header.tensors.map RawTensorDescriptor.format) ∧
        bytes = encodeTables header.metadata header.tensors := by
  have halign : ∀ {metadata alignment}, alignmentOf metadata = .ok alignment → alignment ≠ 0 := by
    intro metadata alignment h
    obtain ⟨-, k, rfl⟩ := alignmentOf_ok.mp h
    exact Nat.ne_of_gt (Nat.two_pow_pos k)
  refine ((Reads.iterate readMetadataEntry_reads metadataCount []).bind fun metadata _ _ =>
    (Reads.of (noPanic_architectureOf metadata)).bind fun architecture _ _ =>
      (Reads.of (noPanic_alignmentOf metadata)).bind fun alignment _ h =>
        (Reads.iterate (readTensor_reads (halign h.1)) tensorCount []).bind fun tensors _ _ =>
          Reads.guard ?_ (Reads.pure _)).congr fun header bytes => ?_
  · split
    · exact noPanic_checkQuantizationVersion _
    · exact noPanic_ok _
  · simp only [iterateFormat_collect, manyFormat_encoded, quantizationOk_iff]
    constructor
    · rintro ⟨metadata, _, _, ⟨rfl, hkeys, hentries, rfl⟩, ⟨architecture, _, _,
        ⟨harchitecture, rfl⟩, ⟨alignment, _, _, ⟨halignment, rfl⟩, ⟨tensors, _, _,
          ⟨rfl, hnames, htensors, rfl⟩, ⟨hquantization, rfl, rfl⟩, rfl⟩, rfl⟩, rfl⟩, rfl⟩
      refine ⟨rfl, rfl, hentries, hkeys, harchitecture, halignment, htensors, hnames,
        hquantization, ?_⟩
      simp only [encodeTables, nil_append, append_nil]
    · obtain ⟨architecture, alignment, metadata, tensors⟩ := header
      rintro ⟨rfl, rfl, hentries, hkeys, harchitecture, halignment, htensors, hnames,
        hquantization, rfl⟩
      refine ⟨metadata, _, _, ⟨rfl, hkeys, hentries, rfl⟩, ⟨architecture, _, _,
        ⟨harchitecture, rfl⟩, ⟨alignment, _, _, ⟨halignment, rfl⟩, ⟨tensors, _, _,
          ⟨rfl, hnames, htensors, rfl⟩, ⟨hquantization, rfl, rfl⟩, rfl⟩, rfl⟩, rfl⟩, ?_⟩
      simp only [encodeTables, nil_append, append_nil]

theorem utf8_pos {value : String} (h : value ≠ "") : 1 ≤ (utf8 value).length := by
  refine length_pos_iff.mpr fun hnil => h ?_
  have hvalue : String.fromUTF8? ⟨(utf8 value).toArray⟩ = some value := fromUTF8_iff.mpr rfl
  have hempty : String.fromUTF8? ⟨(utf8 value).toArray⟩ = some "" := fromUTF8_iff.mpr hnil
  exact Option.some.inj (hvalue.symm.trans hempty)

theorem length_encodeString (value : String) :
    (encodeString value).length = 8 + (utf8 value).length := by
  rw [encodeString, length_append, length_toLe]

theorem GgufMetadataEntry.Valid.width {entry : GgufMetadataEntry} (h : entry.Valid) :
    13 ≤ entry.encode.length := by
  have hkey := utf8_pos h.key_ne
  rw [GgufMetadataEntry.encode, length_append, length_append, length_encodeString,
    length_toLe]
  omega

theorem RawTensorDescriptor.Valid.width {tensor : RawTensorDescriptor} (h : tensor.Valid alignment) :
    32 ≤ tensor.encode.length := by
  have hname := utf8_pos h.name_ne
  have hdimensions : tensor.dimensions.length * 8 ≤ (tensor.dimensions.flatMap (toLe 8)).length :=
    length_flatMap_le fun dimension _ => Nat.le_of_eq (length_toLe _ _).symm
  have hrank := h.rank.1
  simp only [RawTensorDescriptor.encode, length_append, length_encodeString, length_toLe]
  omega

/-- The parser reads a header exactly from the reference encoding of a valid one. -/
theorem readHeader_reads : Reads (headerLimit fileLen) (readHeader fileLen)
    (Encoded RawHeader.Valid fun header => encodeHeader header.metadata header.tensors) := by
  refine ((readExact_reads 4).bind fun magic _ _ => Reads.guard (noPanic_rejectIf _ _)
    (readU32_reads.bind fun version _ _ => Reads.guard (noPanic_rejectIf _ _)
      (readU64_reads.bind fun tensorCount _ _ => readU64_reads.bind fun metadataCount _ _ =>
        count_reads (count_reads (readTables_reads _ _) fun header bytes h => ?_)
          fun header bytes h => ?_))).congr fun header bytes => ?_
  · obtain ⟨-, hcount, -, -, -, -, htensors, -, -, rfl⟩ := h
    rw [← hcount, encodeTables, length_append]
    exact Nat.le_trans (length_flatMap_le fun tensor htensor => (htensors tensor htensor).width)
      (Nat.le_add_left _ _)
  · obtain ⟨-, hcount, -, hentries, -, -, -, -, -, -, rfl⟩ := h
    rw [← hcount, encodeTables, length_append]
    exact Nat.le_trans (length_flatMap_le fun entry hentry => (hentries entry hentry).width)
      (Nat.le_add_right _ _)
  · simp only [rejectIf_ok, not_not, architectureOf_ok, alignmentOf_ok]
    constructor
    · rintro ⟨magic, _, _, ⟨-, rfl⟩, ⟨rfl, version, _, _, ⟨-, rfl⟩, ⟨hversion, tensorCount, _, _,
        ⟨-, rfl⟩, ⟨metadataCount, _, _, ⟨-, rfl⟩, ⟨hmetadata, htensor, hcount, hcount', hentries,
          hkeys, harchitecture, halignment, htensors, hnames, hquantization, rfl⟩, rfl⟩, rfl⟩, rfl⟩,
        rfl⟩
      refine ⟨⟨⟨hcount.trans_le hmetadata, hentries, hkeys, harchitecture.1, harchitecture.2,
        halignment.1, halignment.2⟩, hcount'.trans_le htensor, htensors, hnames, hquantization⟩, ?_⟩
      simp only [encodeHeader, hversion, hcount, hcount']
    · rintro ⟨⟨⟨hmetadata, hentries, hkeys, harchitecture, hne, halignment, hpower⟩, htensor,
        htensors, hnames, hquantization⟩, rfl⟩
      have hcount : (UInt64.ofNat header.metadata.length).toNat = header.metadata.length :=
        UInt64.toNat_ofNat_of_lt' (Nat.lt_of_le_of_lt hmetadata (by decide))
      have hcount' : (UInt64.ofNat header.tensors.length).toNat = header.tensors.length :=
        UInt64.toNat_ofNat_of_lt' (Nat.lt_of_le_of_lt htensor (by decide))
      refine ⟨ggufMagic, _, _, ⟨rfl, rfl⟩, ⟨rfl, UInt32.ofNat ggufVersion, _, _, ⟨trivial, rfl⟩,
        ⟨rfl, UInt64.ofNat header.tensors.length, _, _, ⟨trivial, rfl⟩,
          ⟨UInt64.ofNat header.metadata.length, _, _, ⟨trivial, rfl⟩, ⟨hcount.trans_le hmetadata,
            hcount'.trans_le htensor, hcount.symm, hcount'.symm, hentries, hkeys,
            ⟨harchitecture, hne⟩, ⟨halignment, hpower⟩, htensors, hnames, hquantization, rfl⟩,
          rfl⟩, rfl⟩, rfl⟩, ?_⟩
      simp only [encodeHeader, hcount, hcount', id_eq]
      rfl

end EffectTorch.Gguf
