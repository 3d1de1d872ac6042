import Grim.Format.GrimMetadata
import Grim.Lib.Slice

/-!
# Reading a GGUF file

The header lists metadata and tensors; the data section starts at the next multiple of
`general.alignment`, or of 32 where that is missing or no power of two.
-/

namespace Grim.Format

open LittleEndian Reader Slice

/-- A file; its positions are those of an `i64`. -/
structure File where
  bytes : List UInt8
  length_lt : bytes.length < 2 ^ 63

structure GgufTensorInfo where
  name : String
  dims : List UInt64
  offset : UInt64
  sizeBytes : UInt64
  dtype : GgufDType

structure GgufHeader where
  version : UInt32
  tensorCount : UInt64
  metadata : Metadata
  tensors : List GgufTensorInfo

structure GgufFile extends GgufHeader where
  dataStart : UInt64

def ggufMagic : UInt32 := 0x46554747

def ggufVersion : UInt32 := 3

def maxHeaderCount : ℕ := 1000000

def maxDims : ℕ := 16

/-- `{:#010x}`. -/
def hex (n : UInt32) : String := "0x" ++ String.ofList ((Nat.toDigits 16 n.toNat).leftpad 8 '0')

def readEntry : GgufReader (String × GgufValue) := do
  let key ← readGgufString
  let v ← readGgufValue
  pure (key, v)

/-- The size that `read_gguf` gives a tensor. -/
def tensorSizeBytes (name : String) (dtype : GgufDType) (dims : List UInt64) : GgufReader UInt64 :=
  match dimProduct dims with
  | none => fail s!"GGUF tensor '{name}' dimension product overflowed u64"
  | some params =>
    if dtype.blockSize = 1 then
      match checkedMul params dtype.typeSizePerBlock with
      | none => fail s!"GGUF tensor '{name}' byte size overflowed u64"
      | some size => pure size
    else if dtype.typeSizePerBlock = 0 then
      fail s!"GGUF tensor '{name}': dtype has no implemented block size — cannot compute byte size"
    else
      match checkedMul params dtype.typeSizePerBlock with
      | none => fail s!"GGUF tensor '{name}' byte size overflowed u64"
      | some total => pure (total / dtype.blockSize)

def readTensorInfo : GgufReader GgufTensorInfo := do
  let name ← readGgufString
  let nDims ← readU32Le
  if maxDims < nDims.toNat then
    fail s!"GGUF tensor n_dims {nDims} exceeds maximum allowed rank (16)"
  else do
    let dims ← items readU64Le nDims.toNat
    let dtypeTag ← readU32Le
    match GgufDType.fromTag dtypeTag with
    | none => fail s!"unknown GGUF dtype tag {dtypeTag}"
    | some dtype => do
      let offset ← readU64Le
      let sizeBytes ← tensorSizeBytes name dtype dims
      pure { name, dims, offset, sizeBytes, dtype }

def readHeader : GgufReader GgufHeader := do
  let magic ← readU32Le
  if magic ≠ ggufMagic then fail s!"not a GGUF file: magic {hex magic}"
  else do
    let version ← readU32Le
    if version ≠ 2 ∧ version ≠ 3 then
      fail s!"unsupported GGUF version {version}, expected 2 or 3"
    else do
      let tensorCount ← readU64Le
      let metadataKvCount ← readU64Le
      if maxHeaderCount < tensorCount.toNat then
        fail s!"GGUF header tensor_count {tensorCount} exceeds safety limit"
      else if maxHeaderCount < metadataKvCount.toNat then
        fail s!"GGUF header metadata_kv_count {metadataKvCount} exceeds safety limit"
      else do
        let entries ← items readEntry metadataKvCount.toNat
        let tensors ← items readTensorInfo tensorCount.toNat
        let metadata := Metadata.empty.insertAll entries
        pure { version, tensorCount, metadata, tensors }

/-- `general.alignment`, 32 without a usable one. -/
def alignmentOf (m : Metadata) : UInt64 :=
  match m.get "general.alignment" with
  | some (.uint32 a) => a.toUInt64
  | some (.uint64 a) => a
  | some (.uint16 a) => a.toUInt64
  | some (.uint8 a) => a.toUInt64
  | some (.int32 a) => if 0 < a then a.toInt64.toUInt64 else 32
  | some (.int64 a) => if 0 < a then a.toUInt64 else 32
  | _ => 32

def dataStartAt (alignment pos : UInt64) : UInt64 :=
  if 0 < alignment ∧ alignment &&& (alignment - 1) = 0 then
    (pos + (alignment - 1)) &&& ~~~(alignment - 1)
  else (pos + 31) &&& ~~~31

def readGguf (file : File) : Except String GgufFile := do
  let (header, rest) ← readHeader.run file.bytes
  let pos := UInt64.ofNat (file.bytes.length - rest.length)
  pure { header with dataStart := dataStartAt (alignmentOf header.metadata) pos }

/-- The bytes of one tensor; `size_bytes` counts only where the type has no size. -/
def readTensorBytes (file : File) (gguf : GgufFile) (info : GgufTensorInfo) :
    Except String (List UInt8) :=
  match checkedAdd gguf.dataStart info.offset with
  | none => .error s!"GGUF tensor '{info.name}' start offset overflow"
  | some start =>
    let size := (expectedTensorBytes info.dtype info.dims).getD info.sizeBytes
    match checkedAdd start size with
    | none => .error s!"GGUF tensor '{info.name}' end offset overflow"
    | some stop =>
      if file.bytes.length < stop.toNat then
        .error (s!"GGUF tensor '{info.name}' offset {start}..{stop} exceeds file length " ++
          s!"{file.bytes.length}")
      else .ok (slice file.bytes start.toNat size.toNat)

open LittleEndian

/-- The order in which a `HashMap` hands out its entries. -/
structure IterationOrder where
  entries : Metadata → Metadata
  perm : ∀ m, (entries m).Perm m

def gcnToProfile (gcn : String) : GrimRocmlProfile :=
  if gcn.startsWith "gfx12" then .rdna4
  else if gcn.startsWith "gfx11" then .rdna3
  else if gcn.startsWith "gfx10" then .rdna2
  else if gcn.startsWith "gfx94" || gcn.startsWith "gfx90a" then .cdna3
  else if gcn.startsWith "gfx90" then .cdna2
  else .unknown

/-- The keys set by a conversion for `gcn`. -/
def grimEntries (gcn : String) : List (String × GgufValue) :=
  let profile := gcnToProfile gcn
  [("grim.magic", .string "grim-v1"),
    ("grim.quant_version", .uint32 1),
    ("grim.rocml.profile", .string profile.name),
    ("grim.rocml.wavefront_size", .uint32 profile.wavefrontSize),
    ("grim.rocml.target_gcn", .string gcn),
    ("grim.rocml.lds_size", .uint32 profile.ldsSize),
    ("grim.rocml.tensor_core_enabled", .bool true),
    ("grim.rocm.kv_layout_optimized", .bool true),
    ("grim.rocm.fusion_ops", fusionOps [.qkvAttention])]

def injectMetadata (gcn : String) (m : Metadata) : Metadata := m.insertAll (grimEntries gcn)

def writeEntry (e : String × GgufValue) : List UInt8 :=
  writeGgufString e.1 ++ writeGgufValue e.2

def writeTensorInfo (t : GgufTensorInfo) : List UInt8 :=
  writeGgufString t.name ++ (word (UInt32.ofNat t.dims.length) ++
    (t.dims.flatMap (fun d => bytes 8 d.toNat) ++
      (word t.dtype.discriminant ++ bytes 8 t.offset.toNat)))

def writeHeader (entries : Metadata) (infos : List GgufTensorInfo) : List UInt8 :=
  word ggufMagic ++ (word ggufVersion ++ (bytes 8 infos.length ++ (bytes 8 entries.length ++
    (entries.flatMap writeEntry ++ infos.flatMap writeTensorInfo))))

def padding (currentOffset : UInt64) : UInt64 := (32 - currentOffset % 32) % 32

def alignInfos : UInt64 → List GgufTensorInfo → List GgufTensorInfo
  | _, [] => []
  | currentOffset, t :: ts =>
    let offset := currentOffset + padding currentOffset
    { t with offset } :: alignInfos (offset + t.sizeBytes) ts

/-- `out` is written so far; its length is the stream position. -/
def writeTensors (read : GgufTensorInfo → Except String (List UInt8)) (alignedHeaderLen : UInt64) :
    List UInt8 → List (GgufTensorInfo × GgufTensorInfo) → Except String (List UInt8)
  | out, [] => .ok out
  | out, (t, info) :: rest => do
    let currentPos := UInt64.ofNat out.length
    let targetDataPos := alignedHeaderLen + info.offset
    let padLen := if currentPos < targetDataPos then targetDataPos - currentPos else 0
    let bytes ← read t
    writeTensors read alignedHeaderLen (out ++ List.replicate padLen.toNat 0 ++ bytes) rest

/-- No file grows beyond what an `i64` can address. -/
def createFile (bytes : List UInt8) : Except String File :=
  if h : bytes.length < 2 ^ 63 then .ok ⟨bytes, h⟩ else .error "File too large (os error 27)"

def convertGgufToGrim (order : IterationOrder) (input : File) (resolvedGcn : String) :
    Except String File := do
  let gguf ← readGguf input
  let metadata := injectMetadata resolvedGcn gguf.metadata
  let infos := alignInfos 0 gguf.tensors
  let header := writeHeader (order.entries metadata) infos
  let headerEndPos := UInt64.ofNat header.length
  let alignedHeaderLen := (headerEndPos + 31) &&& ~~~31
  let padded := header ++ List.replicate (alignedHeaderLen - headerEndPos).toNat 0
  let out ← writeTensors (readTensorBytes input gguf) alignedHeaderLen padded
    (gguf.tensors.zip infos)
  createFile out

end Grim.Format
