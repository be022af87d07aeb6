import EffectTorch.Lib.Ranges
import EffectTorch.Lib.Reader
import EffectTorch.Runtime.Storage

/-!
# GGUF files

`parse_gguf` of `runtime/src/gguf.rs` and what it calls. A file is the bytes that can be
read from it and the length that the system reports; there is no cancellation flag. An
allocation does not fail. Additions and subtractions that the source does not check
panic when they leave 64 bits.
-/

namespace EffectTorch.Gguf
open Lib

/-! ## Limits -/

/-- `GGUF_MAGIC`. -/
def ggufMagic : List UInt8 := [0x47, 0x47, 0x55, 0x46]

def ggufVersion : Nat := 3

def ggmlQuantizationVersion : UInt32 := 2

def defaultAlignment : Nat := 32

def jsSafeInteger : Nat := 9007199254740991

def maxHeaderBytes : Nat := 64 * 1024 * 1024

def maxMetadataCount : Nat := 4096

def maxTensorCount : Nat := 65536

def maxMetadataKeyBytes : Nat := 65535

def maxTensorNameBytes : Nat := 64

def maxMetadataStringBytes : Nat := 16 * 1024 * 1024

def maxMetadataArrayElements : Nat := 1048576

/-! ## Data -/

inductive GgufParseError where
  | invalid (message : String)
  | io (message : String)
deriving DecidableEq, Repr

/-- An `f32`, by its bits. -/
structure F32 where
  bits : UInt32
deriving DecidableEq, Repr

inductive GgufMetadataArray where
  | u8 (values : List UInt8)
  | i8 (values : List Int8)
  | u16 (values : List UInt16)
  | i16 (values : List Int16)
  | u32 (values : List UInt32)
  | i32 (values : List Int32)
  | f32 (values : List F32)
  | bool (values : List Bool)
  | string (values : List String)
  | u64 (values : List UInt64)
  | i64 (values : List Int64)
  | f64 (values : List F64)
deriving DecidableEq

inductive GgufMetadataValue where
  | u8 (value : UInt8)
  | i8 (value : Int8)
  | u16 (value : UInt16)
  | i16 (value : Int16)
  | u32 (value : UInt32)
  | i32 (value : Int32)
  | f32 (value : F32)
  | bool (value : Bool)
  | string (value : String)
  | u64 (value : UInt64)
  | i64 (value : Int64)
  | f64 (value : F64)
  | array (values : GgufMetadataArray)
deriving DecidableEq

structure GgufMetadataEntry where
  key : String
  value : GgufMetadataValue
deriving DecidableEq

inductive GgufTensorFormat where
  | f32
  | q2K
  | q3K
  | q4K
  | q5K
  | q6K
deriving DecidableEq, Repr

namespace GgufTensorFormat

def fromCode (code : UInt32) : Fallible GgufParseError GgufTensorFormat :=
  match code.toNat with
  | 0 => .ok f32
  | 10 => .ok q2K
  | 11 => .ok q3K
  | 12 => .ok q4K
  | 13 => .ok q5K
  | 14 => .ok q6K
  | _ => fail (.invalid s!"unsupported GGML tensor type code {code}")

/-- The K-quant encoding of the format. -/
def quantization : GgufTensorFormat → Option GgmlKQuant
  | f32 => none
  | q2K => some .q2K
  | q3K => some .q3K
  | q4K => some .q4K
  | q5K => some .q5K
  | q6K => some .q6K

def representation : GgufTensorFormat → StorageRepresentation
  | f32 => .dense
  | q2K => .packed (.ggmlKQuant .q2K)
  | q3K => .packed (.ggmlKQuant .q3K)
  | q4K => .packed (.ggmlKQuant .q4K)
  | q5K => .packed (.ggmlKQuant .q5K)
  | q6K => .packed (.ggmlKQuant .q6K)

def valueSpec (format : GgufTensorFormat) (logicalShape : List Nat) : ValueSpec :=
  ⟨.f32, logicalShape, ⟨format.representation, .canonical⟩⟩

end GgufTensorFormat

structure GgufTensorDescriptor where
  name : String
  format : GgufTensorFormat
  logicalShape : List Nat
  physicalShape : List Nat
  dataOffset : Nat
  byteLen : Nat
deriving DecidableEq

structure GgufFile where
  architecture : String
  metadata : List GgufMetadataEntry
  tensors : List GgufTensorDescriptor
deriving DecidableEq

/-- A tensor entry as the file has it: the least dimension first, the offset from the
start of the data section. -/
structure RawTensorDescriptor where
  name : String
  dimensions : List Nat
  format : GgufTensorFormat
  relativeOffset : Nat
deriving DecidableEq

/-! ## Scalars -/

abbrev HeaderReader (α : Type) := Reader GgufParseError α

variable (fileLen : Nat)

/-- `HeaderReader::read_exact`. -/
def readExact (length : Nat) : HeaderReader (List UInt8) := fun s => do
  let «end» ← okOr (checkedAdd s.position length) (.invalid "header position overflows")
  rejectIf (fileLen < «end») (.invalid "unexpected end of file in header")
  rejectIf (maxHeaderBytes < «end»)
    (.invalid s!"header exceeds the {maxHeaderBytes}-byte resource limit")
  rejectIf (s.rest.length < length) (.io "failed to fill whole buffer")
  let position ← expect (checkedAdd s.position length) "attempt to add with overflow"
  return (s.rest.take length, ⟨s.rest.drop length, position⟩)

def readLe (width : Nat) : HeaderReader Nat := fromLe <$> readExact fileLen width

def readU8 : HeaderReader UInt8 := UInt8.ofNat <$> readLe fileLen 1

def readI8 : HeaderReader Int8 := UInt8.toInt8 <$> readU8 fileLen

def readU16 : HeaderReader UInt16 := UInt16.ofNat <$> readLe fileLen 2

def readI16 : HeaderReader Int16 := UInt16.toInt16 <$> readU16 fileLen

def readU32 : HeaderReader UInt32 := UInt32.ofNat <$> readLe fileLen 4

def readI32 : HeaderReader Int32 := UInt32.toInt32 <$> readU32 fileLen

def readU64 : HeaderReader UInt64 := UInt64.ofNat <$> readLe fileLen 8

def readI64 : HeaderReader Int64 := UInt64.toInt64 <$> readU64 fileLen

def readF32 : HeaderReader F32 := F32.mk <$> readU32 fileLen

def readF64 : HeaderReader F64 := F64.mk <$> readU64 fileLen

def boolOfByte (value : UInt8) : Fallible GgufParseError Bool :=
  match value.toNat with
  | 0 => .ok false
  | 1 => .ok true
  | _ => fail (.invalid s!"invalid boolean metadata byte {value}")

def readBool : HeaderReader Bool := do
  let value ← readU8 fileLen
  Reader.of (boolOfByte value)

/-- `HeaderReader::count`. -/
def count (value : Nat) (what : String) (minimumBytes maximum : Nat) : HeaderReader Nat :=
  fun s => do
    rejectIf (maximum < value)
      (.invalid s!"{what} count {value} exceeds the resource limit {maximum}")
    let remaining := min fileLen maxHeaderBytes - s.position
    rejectIf (0 < minimumBytes ∧ remaining / minimumBytes < value)
      (.invalid s!"{what} count {value} exceeds the remaining file")
    return (value, s)

def readString (what : String) (maximum : Nat) : HeaderReader String := do
  let byteLen ← readU64 fileLen
  let length ← count fileLen byteLen.toNat what 1 maximum
  let bytes ← readExact fileLen length
  Reader.of (okOr (String.fromUTF8? ⟨bytes.toArray⟩) (.invalid s!"{what} is not valid UTF-8"))

def checkedU64Metadata (value : UInt64) (what : String) : Fallible GgufParseError UInt64 := do
  rejectIf (jsSafeInteger < value.toNat)
    (.invalid s!"{what} value {value} is outside the JavaScript safe integer range")
  return value

def checkedI64Metadata (value : Int64) (what : String) : Fallible GgufParseError Int64 := do
  rejectIf (value.toInt < -jsSafeInteger ∨ jsSafeInteger < value.toInt)
    (.invalid s!"{what} value {value} is outside the JavaScript safe integer range")
  return value

def readCheckedU64 (what : String) : HeaderReader UInt64 := do
  let value ← readU64 fileLen
  Reader.of (checkedU64Metadata value what)

def readCheckedI64 (what : String) : HeaderReader Int64 := do
  let value ← readI64 fileLen
  Reader.of (checkedI64Metadata value what)

/-! ## Metadata -/

/-- The least bytes of an array element, by its type. -/
def minimumBytes (elementType : Nat) : Option Nat :=
  match elementType with
  | 0 | 1 | 7 => some 1
  | 2 | 3 => some 2
  | 4 | 5 | 6 => some 4
  | 8 | 10 | 11 | 12 => some 8
  | _ => none

def readElements (elementType count : Nat) : HeaderReader GgufMetadataArray :=
  match elementType with
  | 0 => .u8 <$> readMany (readU8 fileLen) count
  | 1 => .i8 <$> readMany (readI8 fileLen) count
  | 2 => .u16 <$> readMany (readU16 fileLen) count
  | 3 => .i16 <$> readMany (readI16 fileLen) count
  | 4 => .u32 <$> readMany (readU32 fileLen) count
  | 5 => .i32 <$> readMany (readI32 fileLen) count
  | 6 => .f32 <$> readMany (readF32 fileLen) count
  | 7 => .bool <$> readMany (readBool fileLen) count
  | 8 => .string <$>
    readMany (readString fileLen "metadata array string" maxMetadataStringBytes) count
  | 10 => .u64 <$> readMany (readCheckedU64 fileLen "metadata u64 array") count
  | 11 => .i64 <$> readMany (readCheckedI64 fileLen "metadata i64 array") count
  | 12 => .f64 <$> readMany (readF64 fileLen) count
  | _ => Reader.of (.error (.panic "metadata array type was validated"))

def readArray : HeaderReader GgufMetadataArray := do
  let elementType ← readU32 fileLen
  Reader.of (rejectIf (elementType = 9)
    (.invalid "nested metadata arrays are not supported by this parser"))
  let countU64 ← readU64 fileLen
  let minimumBytes ← Reader.of (okOr (minimumBytes elementType.toNat)
    (.invalid s!"unsupported metadata array element type {elementType}"))
  let count ← count fileLen countU64.toNat "metadata array" minimumBytes maxMetadataArrayElements
  readElements fileLen elementType.toNat count

def readMetadataValue (valueType : UInt32) : HeaderReader GgufMetadataValue :=
  match valueType.toNat with
  | 0 => .u8 <$> readU8 fileLen
  | 1 => .i8 <$> readI8 fileLen
  | 2 => .u16 <$> readU16 fileLen
  | 3 => .i16 <$> readI16 fileLen
  | 4 => .u32 <$> readU32 fileLen
  | 5 => .i32 <$> readI32 fileLen
  | 6 => .f32 <$> readF32 fileLen
  | 7 => .bool <$> readBool fileLen
  | 8 => .string <$> readString fileLen "metadata string" maxMetadataStringBytes
  | 9 => .array <$> readArray fileLen
  | 10 => .u64 <$> readCheckedU64 fileLen "metadata u64"
  | 11 => .i64 <$> readCheckedI64 fileLen "metadata i64"
  | 12 => .f64 <$> readF64 fileLen
  | _ => Reader.of (fail (.invalid s!"unsupported metadata value type {valueType}"))

/-- One turn of the loop over the metadata. The keys seen so far are those of the
entries. -/
def readMetadataEntry (metadata : List GgufMetadataEntry) :
    HeaderReader (List GgufMetadataEntry) := do
  let key ← readString fileLen "metadata key" maxMetadataKeyBytes
  Reader.of (rejectIf (key = "") (.invalid "metadata key must not be empty"))
  Reader.of (rejectIf (key ∈ metadata.map GgufMetadataEntry.key)
    (.invalid s!"duplicate metadata key {key.quote}"))
  let valueType ← readU32 fileLen
  let value ← readMetadataValue fileLen valueType
  return metadata ++ [⟨key, value⟩]

def findValue (metadata : List GgufMetadataEntry) (key : String) : Option GgufMetadataValue :=
  (metadata.find? fun entry => entry.key = key).map GgufMetadataEntry.value

def architectureOf (metadata : List GgufMetadataEntry) : Fallible GgufParseError String := do
  let value ← okOr (findValue metadata "general.architecture")
    (.invalid "missing general.architecture metadata")
  match value with
  | .string architecture =>
    rejectIf (architecture = "") (.invalid "general.architecture metadata must not be empty")
    return architecture
  | _ => fail (.invalid "general.architecture metadata must be a string")

def alignmentValue (metadata : List GgufMetadataEntry) : Fallible GgufParseError Nat :=
  match findValue metadata "general.alignment" with
  | none => .ok defaultAlignment
  | some (.u32 value) => .ok value.toNat
  | some _ => fail (.invalid "general.alignment metadata must be u32")

def alignmentOf (metadata : List GgufMetadataEntry) : Fallible GgufParseError Nat := do
  let alignment ← alignmentValue metadata
  rejectIf (alignment = 0 ∨ isPowerOfTwo alignment = false)
    (.invalid s!"general.alignment must be a positive power of two, got {alignment}")
  return alignment

def checkQuantizationVersion (metadata : List GgufMetadataEntry) :
    Fallible GgufParseError Unit := do
  let value ← okOr (findValue metadata "general.quantization_version")
    (.invalid "missing general.quantization_version metadata for quantized tensors")
  match value with
  | .u32 version => rejectIf (version ≠ ggmlQuantizationVersion) (.invalid (
      s!"unsupported general.quantization_version {version}; expected " ++
        toString ggmlQuantizationVersion))
  | _ => fail (.invalid "general.quantization_version metadata must be u32")

/-! ## Tensors -/

def readDimension (name : String) : HeaderReader Nat := do
  let dimension ← readU64 fileLen
  Reader.of (rejectIf (dimension = 0 ∨ jsSafeInteger < dimension.toNat)
    (.invalid s!"tensor {name.quote} has invalid dimension {dimension}"))
  return dimension.toNat

/-- `a % b` in `u64`. -/
def remainder (a b : Nat) : Fallible GgufParseError Nat :=
  if b = 0 then .error (.panic "attempt to calculate the remainder with a divisor of zero")
  else .ok (a % b)

/-- One turn of the loop over the tensors. The names seen so far are those of the
entries. -/
def readTensor (alignment : Nat) (tensors : List RawTensorDescriptor) :
    HeaderReader (List RawTensorDescriptor) := do
  let name ← readString fileLen "tensor name" maxTensorNameBytes
  Reader.of (rejectIf (name = "") (.invalid "tensor name must not be empty"))
  Reader.of (rejectIf (name ∈ tensors.map RawTensorDescriptor.name)
    (.invalid s!"duplicate tensor name {name.quote}"))
  let rank ← readU32 fileLen
  Reader.of (rejectIf (¬ (1 ≤ rank.toNat ∧ rank.toNat ≤ 4))
    (.invalid s!"tensor {name.quote} rank must be in 1..=4, got {rank}"))
  let dimensions ← readMany (readDimension fileLen name) rank.toNat
  let code ← readU32 fileLen
  let format ← Reader.of (GgufTensorFormat.fromCode code)
  let relativeOffset ← readU64 fileLen
  let misaligned ← Reader.of (remainder relativeOffset.toNat alignment)
  Reader.of (rejectIf (misaligned ≠ 0)
    (.invalid s!"tensor {name.quote} offset {relativeOffset} is not aligned to {alignment}"))
  return tensors ++ [⟨name, dimensions, format, relativeOffset.toNat⟩]

/-- What `parse_gguf` has read when it knows where the data section starts. -/
structure RawHeader where
  architecture : String
  alignment : Nat
  metadata : List GgufMetadataEntry
  tensors : List RawTensorDescriptor
deriving DecidableEq

/-- The loops of `parse_gguf` over the two tables of the header. -/
def readTables (metadataCount tensorCount : Nat) : HeaderReader RawHeader := do
  let metadata ← iterate (readMetadataEntry fileLen) metadataCount []
  let architecture ← Reader.of (architectureOf metadata)
  let alignment ← Reader.of (alignmentOf metadata)
  let tensors ← iterate (readTensor fileLen alignment) tensorCount []
  let hasQuantizedTensors := tensors.any fun tensor => tensor.format.quantization.isSome
  Reader.of (if hasQuantizedTensors then checkQuantizationVersion metadata else .ok ())
  return ⟨architecture, alignment, metadata, tensors⟩

/-- The part of `parse_gguf` that reads the file. -/
def readHeader : HeaderReader RawHeader := do
  let magic ← readExact fileLen 4
  Reader.of (rejectIf (magic ≠ ggufMagic) (.invalid "invalid magic"))
  let version ← readU32 fileLen
  Reader.of (rejectIf (version.toNat ≠ ggufVersion)
    (.invalid s!"unsupported version {version}; expected version {ggufVersion}"))
  let tensorCountU64 ← readU64 fileLen
  let metadataCountU64 ← readU64 fileLen
  let metadataCount ← count fileLen metadataCountU64.toNat "metadata" 13 maxMetadataCount
  let tensorCount ← count fileLen tensorCountU64.toNat "tensor" 32 maxTensorCount
  readTables fileLen metadataCount tensorCount

/-! ## The catalog -/

def alignUp (value alignment : Nat) : Fallible GgufParseError Nat := do
  let mask ← expect (checkedSub alignment 1) "attempt to subtract with overflow"
  let sum ← okOr (checkedAdd value mask) (.invalid "aligned tensor-data offset overflows")
  return sum &&& (usizeMax ^^^ mask)

def tensorGeometry (raw : RawTensorDescriptor) : Fallible GgufParseError StorageGeometry :=
  match (raw.format.valueSpec raw.dimensions.reverse).canonicalGeometry with
  | .ok geometry => .ok geometry
  | .error error => fail (.invalid s!"tensor {raw.name.quote}: {error}")

/-- The turn of `parse_gguf` that places one tensor. -/
def placeTensor (dataStart : Nat) (raw : RawTensorDescriptor) :
    Fallible GgufParseError GgufTensorDescriptor := do
  let geometry ← tensorGeometry raw
  let dataOffset ← okOr (checkedAdd dataStart raw.relativeOffset)
    (.invalid "absolute tensor offset overflows")
  let «end» ← okOr (checkedAdd dataOffset geometry.byteLen)
    (.invalid "tensor range end overflows")
  rejectIf (fileLen < «end») (.invalid (s!"tensor {raw.name.quote} range [{dataOffset}, " ++
    toString «end» ++ s!") exceeds file size {fileLen}"))
  return ⟨raw.name, raw.format, raw.dimensions.reverse, geometry.physicalShape, dataOffset,
    geometry.byteLen⟩

def tensorRange (tensor : GgufTensorDescriptor) : Fallible GgufParseError (Range × String) := do
  let «end» ← expect (checkedAdd tensor.dataOffset tensor.byteLen) "attempt to add with overflow"
  return (⟨tensor.dataOffset, «end»⟩, tensor.name)

/-- The loop over the neighbours of the sorted ranges. -/
def checkNeighbours : List (Range × String) → Fallible GgufParseError Unit
  | first :: second :: ranges => do
    rejectIf (second.1.start < first.1.stop)
      (.invalid s!"tensor ranges for {first.2.quote} and {second.2.quote} overlap")
    checkNeighbours (second :: ranges)
  | _ => .ok ()

def parseGguf (file : List UInt8) (fileLen : UInt64) : Fallible GgufParseError GgufFile := do
  let (header, reader) ← readHeader fileLen.toNat ⟨file, 0⟩
  let dataStart ← alignUp reader.position header.alignment
  rejectIf (fileLen.toNat < dataStart)
    (.invalid "aligned tensor-data section starts beyond the file")
  let tensors ← header.tensors.mapM (placeTensor fileLen.toNat dataStart)
  let ranges ← tensors.mapM tensorRange
  checkNeighbours (ranges.insertionSort fun a b => a.1.start ≤ b.1.start)
  return ⟨header.architecture, header.metadata, tensors⟩

end EffectTorch.Gguf
