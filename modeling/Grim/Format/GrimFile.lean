import Grim.Format.NativeMetadata
import Grim.Lib.Extents

/-!
# The `.grim` file

A header, the metadata as JSON text, the registry of tensors, and the payload region.  The writer
works out where each tensor's streams go and writes the registry; the streams themselves are
written by its caller.
-/

namespace Grim.Format

open LittleEndian Reader JsonValue

/-- `b"GRIM\x01"` -/
def fuckingSorcery : List UInt8 := [0x47, 0x52, 0x49, 0x4d, 0x01]

inductive WaveSize
  | w64 | w32
deriving DecidableEq

def WaveSize.segmentBytes : WaveSize → ℕ
  | w64 => 256
  | w32 => 128

def alignToSegment (n : UInt64) (segment : ℕ) : UInt64 :=
  let s := UInt64.ofNat segment
  (n / s + if n % s = 0 then 0 else 1) * s

/-- The text of the metadata is written and parsed by `serde_json`. -/
structure SerdeJson where
  toVec : Value → List UInt8
  fromSlice : List UInt8 → Except String Value

structure GrimHeader where
  magic : List UInt8
  metadataLen : UInt64
  numTensors : UInt32

namespace GrimHeader

def new (numTensors : UInt32) (metadataLen : UInt64) : GrimHeader :=
  { magic := fuckingSorcery, metadataLen, numTensors }

def write (h : GrimHeader) : List UInt8 :=
  h.magic ++ (bytes 8 h.metadataLen.toNat ++ bytes 4 h.numTensors.toNat)

def readField (n : ℕ) : Reader String (List UInt8) :=
  exact "Header read failed: failed to fill whole buffer" n

def read : Reader String GrimHeader := do
  let magic ← readField 5
  if magic ≠ fuckingSorcery then
    fail (s!"Invalid Header: FuckingSorcery magic mismatched. Expected {fuckingSorcery}, " ++
      s!"got {magic}")
  else do
    let metadataLen ← readField 8
    let numTensors ← readField 4
    pure
      { magic
        metadataLen := UInt64.ofNat (value metadataLen)
        numTensors := UInt32.ofNat (value numTensors) }

end GrimHeader

structure GrimTensorEntry where
  name : String := ""
  shape : List ℕ := []
  baseBitwidth : UInt8 := 0
  payloadOffset : UInt64 := 0
  payloadSize : UInt64 := 0
  outlierCount : UInt32 := 0
  outlierOffset : UInt64 := 0
  kvPresent : UInt8 := 0
  kvRotated : UInt8 := 0
  kvBitsK : UInt8 := 0
  kvBitsV : UInt8 := 0
  kvHeadBitsTableOffset : UInt64 := 0
  kvEvictionMapOffset : UInt64 := 0
  kvEvictionMapSize : UInt64 := 0
  kvSinkFp16 : UInt8 := 0
  kvCompressedOffset : UInt64 := 0
  kvCompressedSize : UInt64 := 0
deriving DecidableEq

def outlierRecordBytes : ℕ := 6

namespace GrimTensorEntry

variable (e : GrimTensorEntry)

def writeNamed : List UInt8 :=
  bytes 2 e.name.utf8ByteSize ++ (utf8 e.name ++ (bytes 1 e.shape.length ++
    e.shape.flatMap (bytes 4)))

def writeFixed : List UInt8 :=
  [e.baseBitwidth] ++ (bytes 8 e.payloadOffset.toNat ++ (bytes 8 e.payloadSize.toNat ++
    (bytes 4 e.outlierCount.toNat ++ bytes 8 e.outlierOffset.toNat)))

def writeKv : List UInt8 :=
  [e.kvPresent] ++ ([e.kvRotated] ++ ([e.kvBitsK] ++ ([e.kvBitsV] ++
    (bytes 8 e.kvHeadBitsTableOffset.toNat ++ (bytes 8 e.kvEvictionMapOffset.toNat ++
      (bytes 8 e.kvEvictionMapSize.toNat ++ ([e.kvSinkFp16] ++
        (bytes 8 e.kvCompressedOffset.toNat ++ bytes 8 e.kvCompressedSize.toNat))))))))

def write : List UInt8 := e.writeNamed ++ (e.writeFixed ++ e.writeKv)

def registryEntrySize : ℕ :=
  let nameLen := 2 + e.name.utf8ByteSize
  let shapeLen := 1 + e.shape.length * 4
  let fixed := 1 + 8 + 8 + 4 + 8
  let kvFields := 1 + 1 + 1 + 1 + 8 + 8 + 8 + 1 + 8 + 8
  nameLen + shapeLen + fixed + kvFields

def readField (n : ℕ) : Reader String ℕ := do
  let buf ← exact "Tensor entry read failed: failed to fill whole buffer" n
  pure (value buf)

def readU8 : Reader String UInt8 := do
  let n ← readField 1
  pure (UInt8.ofNat n)

def readU64 : Reader String UInt64 := do
  let n ← readField 8
  pure (UInt64.ofNat n)

def nameFromUtf8 (nameBytes : List UInt8) : Reader String String :=
  match String.fromUTF8? ⟨nameBytes.toArray⟩ with
  | some s => pure s
  | none => fail "Invalid UTF-8 in tensor name"

def readName : Reader String String := do
  let nameLen ← readField 2
  let nameBytes ← exact "Tensor entry read failed: failed to fill whole buffer" nameLen
  nameFromUtf8 nameBytes

def read : Reader String GrimTensorEntry := do
  let name ← readName
  let numDims ← readField 1
  let shape ← items (readField 4) numDims
  let baseBitwidth ← readU8
  let payloadOffset ← readU64
  let payloadSize ← readU64
  let outlierCount ← readField 4
  let outlierOffset ← readU64
  let kvPresent ← readU8
  let kvRotated ← readU8
  let kvBitsK ← readU8
  let kvBitsV ← readU8
  let kvHeadBitsTableOffset ← readU64
  let kvEvictionMapOffset ← readU64
  let kvEvictionMapSize ← readU64
  let kvSinkFp16 ← readU8
  let kvCompressedOffset ← readU64
  let kvCompressedSize ← readU64
  pure
    { name, shape, baseBitwidth, payloadOffset, payloadSize
      outlierCount := UInt32.ofNat outlierCount
      outlierOffset, kvPresent, kvRotated, kvBitsK, kvBitsV, kvHeadBitsTableOffset
      kvEvictionMapOffset, kvEvictionMapSize, kvSinkFp16, kvCompressedOffset, kvCompressedSize }

def HasKv : Prop := e.kvPresent ≠ 0 ∧ 0 < e.kvCompressedSize

instance : Decidable e.HasKv := inferInstanceAs (Decidable (_ ∧ _))

def outlierBytes : UInt64 := e.outlierCount.toUInt64 * UInt64.ofNat outlierRecordBytes

end GrimTensorEntry

structure GrimFile where
  header : GrimHeader
  metadata : GrimMetadata
  tensors : List GrimTensorEntry
  wave : WaveSize

namespace GrimFile

/-- The entries of one tensor after the other, each from the offset the one before it left. -/
def place (segment : ℕ) : UInt64 → List GrimTensorEntry → List GrimTensorEntry
  | _, [] => []
  | offset, t :: ts =>
    let outlierOffset := offset + t.payloadSize
    let behind := outlierOffset + t.outlierBytes
    if t.HasKv then
      { t with payloadOffset := offset, outlierOffset, kvCompressedOffset := behind } ::
        place segment
          (alignToSegment (alignToSegment (behind + t.kvCompressedSize) segment) segment) ts
    else
      { t with payloadOffset := offset, outlierOffset } ::
        place segment (alignToSegment behind segment) ts

variable (serde : SerdeJson)

def metadataBytes (f : GrimFile) : List UInt8 :=
  serde.toVec ({ f.metadata with hasKvRegistry := some true } : GrimMetadata).toJson

/-- The header of the file as it is, whatever header it was read with. -/
def newHeader (f : GrimFile) : GrimHeader :=
  .new (UInt32.ofNat f.tensors.length) (UInt64.ofNat (f.metadataBytes serde).length)

/-- Where the payload region starts, in a stream that stands at `position`. -/
def payloadRegionStart (position : ℕ) (f : GrimFile) : ℕ :=
  position + ((f.newHeader serde).write ++ f.metadataBytes serde).length
    + (f.tensors.map GrimTensorEntry.registryEntrySize).sum

def write (position : ℕ) (f : GrimFile) : List GrimTensorEntry × List UInt8 :=
  let entries := place f.wave.segmentBytes (UInt64.ofNat (f.payloadRegionStart serde position))
    f.tensors
  (entries, (f.newHeader serde).write ++ (f.metadataBytes serde ++
    entries.flatMap GrimTensorEntry.write))

def metadataOfText (buf : List UInt8) : Reader String GrimMetadata :=
  match serde.fromSlice buf with
  | .ok json => pure (GrimMetadata.fromJson json)
  | .error e => fail s!"invalid .grim metadata JSON: {e}"

def readMetadata (len : ℕ) : Reader String GrimMetadata :=
  if 0 < len then
    if 100000000 < len then fail s!"metadata_len {len} exceeds safety cap"
    else do
      let buf ← exact "failed to fill whole buffer" len
      metadataOfText serde buf
  else pure GrimMetadata.default

def waveOf (metadata : GrimMetadata) : WaveSize :=
    if metadata.wavefrontSize = 64 then .w64 else .w32

def read : Reader String GrimFile := do
  let header ← GrimHeader.read
  let metadata ← readMetadata serde header.metadataLen.toNat
  if 1000000 < header.numTensors.toNat then
    fail s!".grim header num_tensors {header.numTensors} exceeds safety limit"
  else do
    let tensors ← items GrimTensorEntry.read header.numTensors.toNat
    pure { header, metadata, tensors, wave := waveOf metadata }

end GrimFile

end Grim.Format
