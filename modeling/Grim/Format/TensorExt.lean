import Grim.Lib.Json.Value

/-!
# What a tensor declares beyond its registry entry

The descriptors live in the metadata as JSON objects.  All of a descriptor is read back but its
sparse residuals, which are not written.
-/

namespace Grim.Format

open JsonValue JsonValue.Value FloatFormat

inductive RowScaleDtype
  | u8 | f16 | fp8
deriving DecidableEq

def RowScaleDtype.fromU8 (tag : UInt8) : Option RowScaleDtype :=
  match tag.toNat with
  | 0 => some u8
  | 1 => some f16
  | 2 => some fp8
  | _ => none

def RowScaleDtype.asU8 : RowScaleDtype → UInt8
  | u8 => 0
  | f16 => 1
  | fp8 => 2

inductive ActQuantDtype
  | none | int8 | fp8E4M3
deriving DecidableEq

def ActQuantDtype.fromU8 (tag : UInt8) : Option ActQuantDtype :=
  match tag.toNat with
  | 0 => some none
  | 1 => some int8
  | 2 => some fp8E4M3
  | _ => Option.none

def ActQuantDtype.asU8 : ActQuantDtype → UInt8
  | none => 0
  | int8 => 1
  | fp8E4M3 => 2

inductive ActScaleLayout
  | none | perTensor | perToken
deriving DecidableEq

def ActScaleLayout.fromU8 (tag : UInt8) : Option ActScaleLayout :=
  match tag.toNat with
  | 0 => some none
  | 1 => some perTensor
  | 2 => some perToken
  | _ => Option.none

def ActScaleLayout.asU8 : ActScaleLayout → UInt8
  | none => 0
  | perTensor => 1
  | perToken => 2

inductive PerRowBpwMode
  | uniform | perRowTable
deriving DecidableEq

def PerRowBpwMode.fromU8 (tag : UInt8) : Option PerRowBpwMode :=
  match tag.toNat with
  | 0 => some uniform
  | 1 => some perRowTable
  | _ => none

def PerRowBpwMode.asU8 : PerRowBpwMode → UInt8
  | uniform => 0
  | perRowTable => 1

/-- Flat indices take six bytes an outlier, delta-varint ones as many as they need. -/
inductive OutlierIndexEncoding
  | flatU32 | deltaVarint
deriving DecidableEq

def OutlierIndexEncoding.fromU8 (tag : UInt8) : Option OutlierIndexEncoding :=
  match tag.toNat with
  | 0 => some deltaVarint
  | 1 => some flatU32
  | _ => none

def OutlierIndexEncoding.asU8 : OutlierIndexEncoding → UInt8
  | flatU32 => 1
  | deltaVarint => 0

inductive PayloadCompression
  | raw | zstd
deriving DecidableEq

def PayloadCompression.fromU8 (tag : UInt8) : Option PayloadCompression :=
  match tag.toNat with
  | 0 => some raw
  | 1 => some zstd
  | _ => none

def PayloadCompression.asU8 : PayloadCompression → UInt8
  | raw => 0
  | zstd => 1

inductive LayoutHintTag
  | default | wavefrontTiled | blockSparse
  | packedQuantWmma (bits fragM fragN : UInt8)
deriving DecidableEq

namespace LayoutHintTag

def fromU8 (tag : UInt8) : Option LayoutHintTag :=
  match tag.toNat with
  | 0 => some default
  | 1 => some wavefrontTiled
  | 2 => some blockSparse
  | 3 => some (packedQuantWmma 0 0 0)
  | _ => none

def asU8 : LayoutHintTag → UInt8
  | default => 0
  | wavefrontTiled => 1
  | blockSparse => 2
  | packedQuantWmma .. => 3

def wmma : LayoutHintTag → UInt8 × UInt8 × UInt8
  | packedQuantWmma bits fragM fragN => (bits, fragM, fragN)
  | _ => (0, 0, 0)

end LayoutHintTag

structure BackupLayer where
  codesOffset : UInt64 := 0
  codesSize : UInt64 := 0
  bpw : UInt8 := 0
  scaleOffset : UInt64 := 0
  scaleSize : UInt64 := 0
deriving DecidableEq

structure LayoutDescriptor where
  words : Vector UInt32 4 := .replicate 4 0
deriving DecidableEq

structure GrimTensorExt where
  tensorName : String := ""
  rowCount : UInt64 := 0
  rowStride : UInt64 := 0
  blockSize : UInt16 := 0
  perRowBpwMode : PerRowBpwMode := .uniform
  ownBpwTable : UInt8 := 0
  defaultBpw : UInt8 := 0
  rowScaleDtype : RowScaleDtype := .u8
  scaleOffset : UInt64 := 0
  scaleSize : UInt64 := 0
  gptqOrdered : UInt8 := 0
  outlierIndexEncoding : OutlierIndexEncoding := .flatU32
  outlierResidualBpw : UInt8 := 0
  compression : PayloadCompression := .raw
  fusionMask : UInt8 := 0
  layoutHint : LayoutHintTag := .default
  layoutDescriptor : LayoutDescriptor := {}
  backup1 : BackupLayer := {}
  backup2 : BackupLayer := {}
  spqrIndices : List UInt32 := []
  spqrValues : List UInt32 := []
  actQuantDtype : ActQuantDtype := .none
  actScaleLayout : ActScaleLayout := .none
deriving DecidableEq

def u8 (n : UInt8) : Value := u64 n.toUInt64

def pickU8 (obj : Object) (k : String) (default : UInt8) : UInt8 :=
  (((obj.get k).bind asU64).map UInt64.toUInt8).getD default

def pickU64 (obj : Object) (k : String) : UInt64 := ((obj.get k).bind asU64).getD 0

namespace BackupLayer

def isPresent (b : BackupLayer) : Bool := 0 < b.bpw && 0 < b.codesSize

def fields (b : BackupLayer) : List (String × Option Value) :=
  [("codes_offset", some (u64 b.codesOffset)), ("codes_size", some (u64 b.codesSize)),
    ("bpw", some (u8 b.bpw)), ("scale_offset", some (u64 b.scaleOffset)),
    ("scale_size", some (u64 b.scaleSize))]

def toJson (b : BackupLayer) : Value := .object (Object.ofFields b.fields)

def fromJson (value : Value) : Option BackupLayer := do
  let obj ← value.asObject
  let codesOffset ← (obj.get "codes_offset").bind asU64
  let codesSize ← (obj.get "codes_size").bind asU64
  let bpw ← (obj.get "bpw").bind asU64
  pure
    { codesOffset, codesSize
      bpw := bpw.toUInt8
      scaleOffset := pickU64 obj "scale_offset"
      scaleSize := pickU64 obj "scale_size" }

end BackupLayer

namespace LayoutHintTag

def fields (hint : LayoutHintTag) : List (String × Option Value) :=
  [("tag", some (u8 hint.asU8)), ("wmma_bits", some (u8 hint.wmma.1)),
    ("wmma_frag_m", some (u8 hint.wmma.2.1)), ("wmma_frag_n", some (u8 hint.wmma.2.2))]

def toJson (hint : LayoutHintTag) : Value := .object (Object.ofFields hint.fields)

/-- One of the numbers of the object form, zero when there is none. -/
def pick (lh : Option Value) (k : String) : UInt8 :=
  (((lh.bind fun v => v.get k).bind asU64).getD 0).toUInt8

def fromJson (lh : Option Value) : LayoutHintTag :=
  match lh.bind asU64 with
  | some tag => (fromU8 tag.toUInt8).getD .default
  | none =>
    if pick lh "tag" = 3 then
      .packedQuantWmma (pick lh "wmma_bits") (pick lh "wmma_frag_m") (pick lh "wmma_frag_n")
    else (fromU8 (pick lh "tag")).getD .default

end LayoutHintTag

namespace LayoutDescriptor

def toJson (d : LayoutDescriptor) : Value :=
  .array (d.words.toList.map fun w => u64 w.toUInt64)

/-- The first four numbers; what is missing or no number is zero. -/
def fromJson (value : Option Value) : LayoutDescriptor :=
  match value.bind asArray with
  | some arr =>
    ⟨.ofFn fun i : Fin 4 => (((arr[i.val]?).bind asU64).getD 0).toUInt32⟩
  | none => {}

end LayoutDescriptor

namespace GrimTensorExt

def fields (e : GrimTensorExt) : List (String × Option Value) :=
  [("tensor_name", some (.string e.tensorName)),
    ("row_count", some (u64 e.rowCount)),
    ("row_stride", some (u64 e.rowStride)),
    ("block_size", some (u64 e.blockSize.toUInt64)),
    ("per_row_bpw_mode", some (u8 e.perRowBpwMode.asU8)),
    ("own_bpw_table", some (u8 e.ownBpwTable)),
    ("default_bpw", some (u8 e.defaultBpw)),
    ("row_scale_dtype", some (u8 e.rowScaleDtype.asU8)),
    ("scale_offset", some (u64 e.scaleOffset)),
    ("scale_size", some (u64 e.scaleSize)),
    ("gptq_ordered", some (u8 e.gptqOrdered)),
    ("outlier_index_encoding", some (u8 e.outlierIndexEncoding.asU8)),
    ("outlier_residual_bpw", some (u8 e.outlierResidualBpw)),
    ("compression", some (u8 e.compression.asU8)),
    ("fusion_mask", some (u8 e.fusionMask)),
    ("layout_hint", some e.layoutHint.toJson),
    ("layout_descriptor", some e.layoutDescriptor.toJson),
    ("backup1", some e.backup1.toJson),
    ("backup2", some e.backup2.toJson),
    ("act_quant_dtype", some (u8 e.actQuantDtype.asU8)),
    ("act_scale_layout", some (u8 e.actScaleLayout.asU8))]

def toJson (e : GrimTensorExt) : Value := .object (Object.ofFields e.fields)

def fromJson (value : Value) : Option GrimTensorExt := do
  let obj ← value.asObject
  let tensorName ← (obj.get "tensor_name").bind asStr
  pure
    { tensorName
      rowCount := pickU64 obj "row_count"
      rowStride := pickU64 obj "row_stride"
      blockSize := (pickU64 obj "block_size").toUInt16
      perRowBpwMode := (PerRowBpwMode.fromU8 (pickU8 obj "per_row_bpw_mode" 0)).getD .uniform
      ownBpwTable := pickU8 obj "own_bpw_table" 0
      defaultBpw := pickU8 obj "default_bpw" 0
      rowScaleDtype := (RowScaleDtype.fromU8 (pickU8 obj "row_scale_dtype" 0)).getD .u8
      scaleOffset := pickU64 obj "scale_offset"
      scaleSize := pickU64 obj "scale_size"
      gptqOrdered := pickU8 obj "gptq_ordered" 0
      outlierIndexEncoding :=
        (OutlierIndexEncoding.fromU8 (pickU8 obj "outlier_index_encoding" 1)).getD .flatU32
      outlierResidualBpw := pickU8 obj "outlier_residual_bpw" 0
      compression := (PayloadCompression.fromU8 (pickU8 obj "compression" 0)).getD .raw
      fusionMask := pickU8 obj "fusion_mask" 0
      layoutHint := .fromJson (obj.get "layout_hint")
      layoutDescriptor := .fromJson (obj.get "layout_descriptor")
      backup1 := ((obj.get "backup1").bind BackupLayer.fromJson).getD {}
      backup2 := ((obj.get "backup2").bind BackupLayer.fromJson).getD {}
      spqrIndices := []
      spqrValues := []
      actQuantDtype := (ActQuantDtype.fromU8 (pickU8 obj "act_quant_dtype" 0)).getD .none
      actScaleLayout := (ActScaleLayout.fromU8 (pickU8 obj "act_scale_layout" 0)).getD .none }

def withoutSpqr (e : GrimTensorExt) : GrimTensorExt :=
  { e with spqrIndices := [], spqrValues := [] }

end GrimTensorExt

@[simp] theorem toUInt8_toUInt64 (n : UInt8) : n.toUInt64.toUInt8 = n := by
  rw [← UInt8.toNat_inj]
  simp

section Pick

variable {o : Object} {k : String}

theorem pickU8_eq {n default : UInt8} (h : o.get k = some (u8 n)) : pickU8 o k default = n := by
  rw [pickU8, h, Option.bind_some, u8, asU64_u64, Option.map_some, Option.getD_some,
    toUInt8_toUInt64]

theorem pickU64_eq {n : UInt64} (h : o.get k = some (u64 n)) : pickU64 o k = n := by
  rw [pickU64, h, Option.bind_some, asU64_u64, Option.getD_some]

end Pick

theorem RowScaleDtype.fromU8_asU8 (d : RowScaleDtype) : fromU8 d.asU8 = some d := by
  cases d <;> rfl

theorem ActQuantDtype.fromU8_asU8 (d : ActQuantDtype) : fromU8 d.asU8 = some d := by
  cases d <;> rfl

theorem ActScaleLayout.fromU8_asU8 (l : ActScaleLayout) : fromU8 l.asU8 = some l := by
  cases l <;> rfl

theorem PerRowBpwMode.fromU8_asU8 (m : PerRowBpwMode) : fromU8 m.asU8 = some m := by
  cases m <;> rfl

theorem OutlierIndexEncoding.fromU8_asU8 (c : OutlierIndexEncoding) : fromU8 c.asU8 = some c := by
  cases c <;> rfl

theorem PayloadCompression.fromU8_asU8 (c : PayloadCompression) : fromU8 c.asU8 = some c := by
  cases c <;> rfl

namespace BackupLayer

variable (b : BackupLayer)

theorem nodup_fields : (b.fields.map Prod.fst).Nodup := by simp [fields]

theorem get_toJson {k : String} {v : Value} (h : (k, some v) ∈ b.fields) :
    (Object.ofFields b.fields).get k = some v := Object.get_ofFields b.nodup_fields h

theorem fromJson_toJson : fromJson b.toJson = some b := by
  have hsize : pickU64 (Object.ofFields b.fields) "scale_size" = b.scaleSize :=
    pickU64_eq (b.get_toJson (by simp [fields]))
  have hoffset : pickU64 (Object.ofFields b.fields) "scale_offset" = b.scaleOffset :=
    pickU64_eq (b.get_toJson (by simp [fields]))
  have hcodes := b.get_toJson (k := "codes_offset") (v := u64 b.codesOffset) (by simp [fields])
  have hcodesSize := b.get_toJson (k := "codes_size") (v := u64 b.codesSize) (by simp [fields])
  have hbpw := b.get_toJson (k := "bpw") (v := u8 b.bpw) (by simp [fields])
  simp only [toJson, fromJson, asObject_object, hcodes, hcodesSize, hbpw, hsize, hoffset, u8,
    Option.bind_eq_bind, Option.bind_some, asU64_u64, toUInt8_toUInt64]
  rfl

end BackupLayer

namespace LayoutHintTag

variable (hint : LayoutHintTag)

theorem pick_toJson {k : String} {n : UInt8} (h : (k, some (u8 n)) ∈ hint.fields) :
    pick (some hint.toJson) k = n := by
  have hget : (Object.ofFields hint.fields).get k = some (u8 n) :=
    Object.get_ofFields (by simp [fields]) h
  rw [pick, Option.bind_some, toJson, get_object, hget, Option.bind_some, u8, asU64_u64,
    Option.getD_some, toUInt8_toUInt64]

theorem fromJson_toJson : fromJson (some hint.toJson) = hint := by
  have htag : pick (some hint.toJson) "tag" = hint.asU8 := pick_toJson _ (by simp [fields])
  have hbits : pick (some hint.toJson) "wmma_bits" = hint.wmma.1 := pick_toJson _ (by simp [fields])
  have hfragM : pick (some hint.toJson) "wmma_frag_m" = hint.wmma.2.1 :=
    pick_toJson _ (by simp [fields])
  have hfragN : pick (some hint.toJson) "wmma_frag_n" = hint.wmma.2.2 :=
    pick_toJson _ (by simp [fields])
  have hnum : (some hint.toJson).bind asU64 = none := rfl
  rw [fromJson, hnum]
  simp only [htag, hbits, hfragM, hfragN]
  cases hint <;> rfl

end LayoutHintTag

theorem LayoutDescriptor.fromJson_toJson (d : LayoutDescriptor) :
    fromJson (some d.toJson) = d := by
  obtain ⟨words⟩ := d
  rw [toJson, fromJson, Option.bind_some, asArray_array]
  refine congrArg LayoutDescriptor.mk ?_
  ext i hi
  simp

namespace GrimTensorExt

variable (e : GrimTensorExt)

theorem nodup_fields : (e.fields.map Prod.fst).Nodup := by simp [fields]

theorem get_toJson {k : String} {v : Value} (h : (k, some v) ∈ e.fields) :
    (Object.ofFields e.fields).get k = some v := Object.get_ofFields e.nodup_fields h

theorem pickU8_toJson {k : String} {n : UInt8} (h : (k, some (u8 n)) ∈ e.fields)
    (default : UInt8) : pickU8 (Object.ofFields e.fields) k default = n :=
  pickU8_eq (e.get_toJson h)

theorem pickU64_toJson {k : String} {n : UInt64} (h : (k, some (u64 n)) ∈ e.fields) :
    pickU64 (Object.ofFields e.fields) k = n := pickU64_eq (e.get_toJson h)

theorem tag_toJson {α : Type} {asU8 : α → UInt8} {fromU8 : UInt8 → Option α}
    (hback : ∀ a, fromU8 (asU8 a) = some a) {k : String} {a : α}
    (h : (k, some (u8 (asU8 a))) ∈ e.fields) (tag : UInt8) (default : α) :
    (fromU8 (pickU8 (Object.ofFields e.fields) k tag)).getD default = a := by
  rw [e.pickU8_toJson h, hback, Option.getD_some]

theorem backup_toJson {k : String} {b : BackupLayer} (h : (k, some b.toJson) ∈ e.fields) :
    (((Object.ofFields e.fields).get k).bind BackupLayer.fromJson).getD {} = b := by
  rw [e.get_toJson h, Option.bind_some, b.fromJson_toJson, Option.getD_some]

theorem fromJson_toJson : fromJson e.toJson = some e.withoutSpqr := by
  have hname := e.get_toJson (k := "tensor_name") (v := .string e.tensorName) (by simp [fields])
  have hhint := e.get_toJson (k := "layout_hint") (v := e.layoutHint.toJson) (by simp [fields])
  have hdesc := e.get_toJson (k := "layout_descriptor") (v := e.layoutDescriptor.toJson)
    (by simp [fields])
  have hblock : pickU64 (Object.ofFields e.fields) "block_size" = e.blockSize.toUInt64 :=
    e.pickU64_toJson (by simp [fields])
  rw [toJson, fromJson]
  simp only [asObject_object, Option.bind_eq_bind, Option.bind_some, hname, asStr_string, hhint,
    hdesc, LayoutHintTag.fromJson_toJson, LayoutDescriptor.fromJson_toJson, hblock]
  refine congrArg some ?_
  rw [withoutSpqr, GrimTensorExt.mk.injEq]
  refine ⟨rfl, ?_, ?_, ?_, ?_, ?_, ?_, ?_, ?_, ?_, ?_, ?_, ?_, ?_, ?_, rfl, rfl, ?_, ?_, rfl, rfl,
    ?_, ?_⟩
  · exact e.pickU64_toJson (by simp [fields])
  · exact e.pickU64_toJson (by simp [fields])
  · rw [← UInt16.toNat_inj]
    simp
  · exact e.tag_toJson PerRowBpwMode.fromU8_asU8 (by simp [fields]) 0 _
  · exact e.pickU8_toJson (by simp [fields]) 0
  · exact e.pickU8_toJson (by simp [fields]) 0
  · exact e.tag_toJson RowScaleDtype.fromU8_asU8 (by simp [fields]) 0 _
  · exact e.pickU64_toJson (by simp [fields])
  · exact e.pickU64_toJson (by simp [fields])
  · exact e.pickU8_toJson (by simp [fields]) 0
  · exact e.tag_toJson OutlierIndexEncoding.fromU8_asU8 (by simp [fields]) 1 _
  · exact e.pickU8_toJson (by simp [fields]) 0
  · exact e.tag_toJson PayloadCompression.fromU8_asU8 (by simp [fields]) 0 _
  · exact e.pickU8_toJson (by simp [fields]) 0
  · exact e.backup_toJson (by simp [fields])
  · exact e.backup_toJson (by simp [fields])
  · exact e.tag_toJson ActQuantDtype.fromU8_asU8 (by simp [fields]) 0 _
  · exact e.tag_toJson ActScaleLayout.fromU8_asU8 (by simp [fields]) 0 _

end GrimTensorExt

end Grim.Format
