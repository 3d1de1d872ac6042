import Grim.Format.GrimMetadata
import Grim.Format.ValueJson
import Grim.Lib.Text

/-!
# The native metadata of a `.grim` file

The metadata is one JSON object between the header and the registry.
-/

namespace Grim.Format

open JsonValue JsonValue.Value FloatFormat List Option

/-- Trimmed and in lower case.  The names compared with have no letter that one outside ASCII
lowers to. -/
def normalized (s : String) : String := .ofList (Text.toAsciiLowercase (Text.trim s.toList))

def GrimRocmlProfile.parse (s : String) : GrimRocmlProfile :=
  match normalized s with
  | "cdna2" => cdna2
  | "cdna3" | "mi300x" => cdna3
  | "rdna2" | "gfx1036" => rdna2
  | "rdna3" => rdna3
  | "rdna4" => rdna4
  | "all" => all
  | _ => unknown

def GrimTrainQuantMode.parse (s : String) : Option GrimTrainQuantMode :=
  match normalized s with
  | "fp4" => some fp4
  | "nf4" => some nf4
  | "fp8" => some fp8
  | "bf16" => some bf16
  | _ => none

def GrimFusionOp.parse (s : String) : Option GrimFusionOp :=
  match normalized s with
  | "rmsnorm_matmul" => some rmsNormMatMul
  | "qkv_attention" => some qkvAttention
  | _ => none

def layoutHintFromTag (tag : String) : Option GrimLayoutHint :=
  match tag with
  | "wavefront-tiled" => some .wavefrontTiled
  | "block-sparse" => some .blockSparse
  | _ => none

namespace GrimQuantOverride

def fields (ov : GrimQuantOverride) : List (String × Option Value) :=
  [("tensor_name", some (.string ov.tensorName)),
    ("effective_bpw", some (u64 ov.effectiveBpw.toUInt64)),
    ("override_dtype", some (u64 ov.overrideDtype.tag.toUInt64)),
    ("importance_score", some (f32 ov.importanceScore)),
    ("layout_hint", some (.string (layoutHintTag ov.layoutHint)))]

def toJson (ov : GrimQuantOverride) : Value := .object (Object.ofFields ov.fields)

end GrimQuantOverride

def scoreFields (score : String × UInt32) : List (String × Option Value) :=
  [("name", some (.string score.1)), ("score", some (f32 score.2))]

def scoreToJson (score : String × UInt32) : Value := .object (Object.ofFields (scoreFields score))

def nonEmpty {α : Type} (f : α → Value) (as : List α) : Option Value :=
  if as = [] then none else some (.array (as.map f))

def bpwToJson (bits : UInt32) : Value :=
  match Number.ofF64 (f32ToF64 bits) with
  | some n => .number n
  | none => .number (.ofU64 0)

def metadataToJson (md : Metadata) : Value :=
  .object (Object.ofEntries (md.map fun e => (e.1, ggufValueToJson e.2)))

namespace GrimMetadata

def fields (m : GrimMetadata) : List (String × Option Value) :=
  [("magic", m.magic.map .string),
    ("quant_version", m.quantVersion.map fun v => u64 v.toUInt64),
    ("rocml_profile", some (.string m.rocmlProfile.name)),
    ("wavefront_size",
      if 0 < m.wavefrontSize then some (u64 m.wavefrontSize.toUInt64) else none),
    ("target_gcn", m.targetGcn.map .string),
    ("block_size", m.blockSize.map fun v => u64 v.toUInt64),
    ("lds_size", m.ldsSize.map fun v => u64 v.toUInt64),
    ("tensor_core_enabled", some (.bool m.tensorCoreEnabled)),
    ("quant_method", m.quantMethod.map .string),
    ("calibration_dataset", m.calibrationDataset.map .string),
    ("quant_overrides", nonEmpty GrimQuantOverride.toJson m.quantOverrides),
    ("rco_allocation", m.rcoAllocation.map fun ovs => .array (ovs.map GrimQuantOverride.toJson)),
    ("rco_allocation_provenance", m.rcoAllocationProvenance.map .string),
    ("calibration_scores", m.calibrationScores.map fun scores => .array (scores.map scoreToJson)),
    ("train_quant_mode", m.trainQuantMode.map fun mode => .string mode.asStr),
    ("train_fusion_ops", nonEmpty (fun op => .string op.asStr) m.trainFusionOps),
    ("rocm_fusion_ops", nonEmpty (fun op => .string op.asStr) m.rocmFusionOps),
    ("xnack_enabled", m.xnackEnabled.map .bool),
    ("kv_layout_optimized", m.kvLayoutOptimized.map .bool),
    ("has_kv_registry", m.hasKvRegistry.map .bool),
    ("grim.ext.entries", nonEmpty GrimTensorExt.toJson m.extEntries),
    ("_gguf_metadata", m.ggufMetadata.map metadataToJson),
    ("rotation_id", m.rotationId.map .string),
    ("rotation_inverse", m.rotationInverse.map fun bytes => .array (bytes.map u8)),
    ("recon_method", m.reconMethod.map .string),
    ("recon_rank", m.reconRank.map fun v => u64 v.toUInt64),
    ("kv_method", m.kvMethod.map .string),
    ("kv_bpw", m.kvBpw.map bpwToJson),
    ("preferred_dtype", m.preferredDtype.map .string),
    ("gemm_backend", m.gemmBackend.map .string),
    ("fp8", m.fp8.map .bool),
    ("multi_gpu_strategy", m.multiGpuStrategy.map .string)]

def toJson (m : GrimMetadata) : Value := .object (Object.ofFields m.fields)

end GrimMetadata

namespace GrimQuantOverride

def fromJson (value : Value) : Option GrimQuantOverride := do
  let tensorName ← (value.get "tensor_name").bind asStr
  let effectiveBpw ← (value.get "effective_bpw").bind asU64
  let tag ← (value.get "override_dtype").bind asU64
  let overrideDtype ← GgufDType.fromTag tag.toUInt32
  pure
    { tensorName, overrideDtype
      effectiveBpw := effectiveBpw.toUInt32
      importanceScore := f64ToF32 (((value.get "importance_score").bind asF64).getD 0)
      layoutHint := ((value.get "layout_hint").bind asStr).bind layoutHintFromTag }

end GrimQuantOverride

def scoreFromJson (value : Value) : Option (String × UInt32) := do
  let name ← (value.get "name").bind asStr
  let score ← (value.get "score").bind asF64
  pure (name, f64ToF32 score)

def metadataFromJson (obj : Object) : Metadata :=
  Metadata.empty.insertAll
    (obj.filterMap fun e => (ggufValueFromJson e.2).map fun v => (e.1, v))

def getStr (obj : Object) (k : String) : Option String := (obj.get k).bind asStr

def getU32 (obj : Object) (k : String) : Option UInt32 :=
  ((obj.get k).bind asU64).map UInt64.toUInt32

def getBool (obj : Object) (k : String) : Option Bool := (obj.get k).bind asBool

/-- What `f` reads of the items of an array. -/
def getItems {α : Type} (f : Value → Option α) (obj : Object) (k : String) : Option (List α) :=
  ((obj.get k).bind asArray).map (List.filterMap f)

namespace GrimMetadata

def fromJson (value : Value) : GrimMetadata :=
  let obj := value.asObject.getD []
  let profile := ((getStr obj "rocml_profile").map GrimRocmlProfile.parse).getD .unknown
  { magic := getStr obj "magic"
    quantVersion := getU32 obj "quant_version"
    rocmlProfile := profile
    wavefrontSize := (getU32 obj "wavefront_size").getD profile.wavefrontSize
    targetGcn := getStr obj "target_gcn"
    blockSize := getU32 obj "block_size"
    ldsSize := getU32 obj "lds_size"
    tensorCoreEnabled := (getBool obj "tensor_core_enabled").getD false
    quantMethod := getStr obj "quant_method"
    calibrationDataset := getStr obj "calibration_dataset"
    quantOverrides := (getItems GrimQuantOverride.fromJson obj "quant_overrides").getD []
    rcoAllocation := getItems GrimQuantOverride.fromJson obj "rco_allocation"
    rcoAllocationProvenance := getStr obj "rco_allocation_provenance"
    calibrationScores := getItems scoreFromJson obj "calibration_scores"
    trainQuantMode := (getStr obj "train_quant_mode").bind GrimTrainQuantMode.parse
    trainFusionOps :=
      (getItems (fun v => v.asStr.bind GrimFusionOp.parse) obj "train_fusion_ops").getD []
    rocmFusionOps :=
      (getItems (fun v => v.asStr.bind GrimFusionOp.parse) obj "rocm_fusion_ops").getD []
    xnackEnabled := getBool obj "xnack_enabled"
    kvLayoutOptimized := getBool obj "kv_layout_optimized"
    hasKvRegistry := getBool obj "has_kv_registry"
    extEntries := (getItems GrimTensorExt.fromJson obj "grim.ext.entries").getD []
    ggufMetadata := ((obj.get "_gguf_metadata").bind asObject).map metadataFromJson
    targetWeightFormat := none
    rotationId := getStr obj "rotation_id"
    rotationInverse := getItems (fun v => v.asU64.map UInt64.toUInt8) obj "rotation_inverse"
    reconMethod := getStr obj "recon_method"
    reconRank := getU32 obj "recon_rank"
    kvMethod := getStr obj "kv_method"
    kvBpw := ((obj.get "kv_bpw").bind asF64).map f64ToF32
    preferredDtype := getStr obj "preferred_dtype"
    gemmBackend := getStr obj "gemm_backend"
    fp8 := getBool obj "fp8"
    multiGpuStrategy := getStr obj "multi_gpu_strategy" }

end GrimMetadata

theorem GrimRocmlProfile.parse_name (p : GrimRocmlProfile) : parse p.name = p := by
  cases p <;> rfl

theorem GrimTrainQuantMode.parse_asStr (m : GrimTrainQuantMode) : parse m.asStr = some m := by
  cases m <;> rfl

theorem GrimFusionOp.parse_asStr (op : GrimFusionOp) : parse op.asStr = some op := by
  cases op <;> rfl

theorem layoutHintFromTag_tag (hint : Option GrimLayoutHint) :
    layoutHintFromTag (layoutHintTag hint) = hint := by
  rcases hint with _ | hint
  · rfl
  · cases hint <;> rfl

@[simp] theorem toUInt32_toUInt64 (n : UInt32) : n.toUInt64.toUInt32 = n := by
  rw [← UInt32.toNat_inj]
  simp

namespace GrimQuantOverride

variable (ov : GrimQuantOverride)

theorem fromJson_toJson (h : IsFiniteF32 ov.importanceScore) : fromJson ov.toJson = some ov := by
  have hget : ∀ {k v}, (k, some v) ∈ ov.fields → ov.toJson.get k = some v := fun hmem =>
    Object.get_ofFields (by simp [fields]) hmem
  have hname := hget (k := "tensor_name") (v := .string ov.tensorName) (by simp [fields])
  have hbpw := hget (k := "effective_bpw") (v := u64 ov.effectiveBpw.toUInt64) (by simp [fields])
  have hdtype := hget (k := "override_dtype") (v := u64 ov.overrideDtype.tag.toUInt64)
    (by simp [fields])
  have hscore := hget (k := "importance_score") (v := f32 ov.importanceScore) (by simp [fields])
  have hhint := hget (k := "layout_hint") (v := .string (layoutHintTag ov.layoutHint))
    (by simp [fields])
  have hback : f64ToF32 ((f32 ov.importanceScore).asF64.getD 0) = ov.importanceScore := by
    obtain ⟨y, hy, hyx⟩ := map_eq_some_iff.mp (asF64_f32 h)
    rw [hy]
    exact hyx
  simp only [fromJson, hname, hbpw, hdtype, hscore, hhint, bind_eq_bind, bind_some,
    asStr_string, asU64_u64, toUInt32_toUInt64, GgufDType.fromTag_tag, hback,
    layoutHintFromTag_tag]
  rfl

end GrimQuantOverride

theorem scoreFromJson_toJson {score : String × UInt32} (h : IsFiniteF32 score.2) :
    scoreFromJson (scoreToJson score) = some score := by
  have hget : ∀ {k v}, (k, some v) ∈ scoreFields score → (scoreToJson score).get k = some v :=
    fun hmem => Object.get_ofFields (by simp [scoreFields]) hmem
  have hname := hget (k := "name") (v := .string score.1) (by simp [scoreFields])
  have hscore := hget (k := "score") (v := f32 score.2) (by simp [scoreFields])
  obtain ⟨y, hy, hback⟩ := map_eq_some_iff.mp (asF64_f32 h)
  simp only [scoreFromJson, hname, hscore, bind_eq_bind, bind_some, asStr_string,
    hy, hback]
  rfl

theorem asF64_bpwToJson {x : UInt32} (h : IsFiniteF32 x) :
    (asF64 (bpwToJson x)).map f64ToF32 = some x := by
  rw [bpwToJson, Number.ofF64, if_pos (isFiniteF64_f32ToF64 h)]
  exact congrArg some (f64ToF32_f32ToF64 h)

def Metadata.narrowed (md : Metadata) : Metadata := md.map fun e => (e.1, Format.narrowed e.2)

theorem metadataFromJson_toJson {md : Metadata} (h : md.Nodup) :
    (asObject (metadataToJson md)).map metadataFromJson = some md.narrowed := by
  have hkeys : Object.Nodup (md.map fun e => (e.1, ggufValueToJson e.2)) := by
    rw [Object.Nodup, List.map_map]
    exact h
  have hread : (md.map fun e => (e.1, ggufValueToJson e.2)).filterMap
      (fun e => (ggufValueFromJson e.2).map fun v => (e.1, v)) = md.narrowed := by
    rw [filterMap_map, Metadata.narrowed, ← filterMap_eq_map]
    refine filterMap_congr fun e _ => ?_
    rw [Function.comp_apply, Function.comp_apply, Format.fromJson_toJson, map_some]
  have hnodup : Metadata.Nodup md.narrowed := by
    rw [Metadata.Nodup, Metadata.narrowed, List.map_map]
    exact h
  rw [metadataToJson, asObject_object, map_some, Object.ofEntries_of_nodup hkeys,
    metadataFromJson, hread, Metadata.insertAll_eq_append _ _ hnodup]
  rfl

namespace GrimMetadata

/-- The `f32` fields that are written. -/
structure FiniteFloats (m : GrimMetadata) : Prop where
  overrides : ∀ ov ∈ m.quantOverrides, IsFiniteF32 ov.importanceScore
  allocation : ∀ ovs ∈ m.rcoAllocation, ∀ ov ∈ ovs, IsFiniteF32 ov.importanceScore
  scores : ∀ scores ∈ m.calibrationScores, ∀ score ∈ scores, IsFiniteF32 score.2
  kvBpw : ∀ bpw ∈ m.kvBpw, IsFiniteF32 bpw

def IsMap (m : GrimMetadata) : Prop := ∀ md ∈ m.ggufMetadata, md.Nodup

variable (m : GrimMetadata)

/-- What comes back: without the target format and the sparse residuals, the profile's wavefront
size for a zero, and the carried values in their narrowest types. -/
def restored : GrimMetadata :=
  { m with
    wavefrontSize := if 0 < m.wavefrontSize then m.wavefrontSize else m.rocmlProfile.wavefrontSize
    targetWeightFormat := none
    extEntries := m.extEntries.map GrimTensorExt.withoutSpqr
    ggufMetadata := m.ggufMetadata.map Metadata.narrowed }

theorem nodup_fields : (m.fields.map Prod.fst).Nodup := by simp [fields]

section Get

variable {m} {k : String}

theorem get_toJson {o : Option Value} (h : (k, o) ∈ m.fields) :
    (Object.ofFields m.fields).get k = o := Object.get_ofFields m.nodup_fields h

theorem getStr_toJson {o : Option String} (h : (k, o.map .string) ∈ m.fields) :
    getStr (Object.ofFields m.fields) k = o := by
  rw [getStr, get_toJson h]
  cases o <;> rfl

theorem getU32_toJson {o : Option UInt32} (h : (k, o.map fun v => u64 v.toUInt64) ∈ m.fields) :
    getU32 (Object.ofFields m.fields) k = o := by
  rw [getU32, get_toJson h]
  cases o <;> simp

theorem getBool_toJson {o : Option Bool} (h : (k, o.map .bool) ∈ m.fields) :
    getBool (Object.ofFields m.fields) k = o := by
  rw [getBool, get_toJson h]
  cases o <;> rfl

variable {α : Type} {f : α → Value} {g : Value → Option α} {back : α → α}

theorem filterMap_toJson {as : List α} (h : ∀ a ∈ as, g (f a) = some (back a)) :
    (as.map f).filterMap g = as.map back := by
  rw [filterMap_map, ← filterMap_eq_map]
  exact filterMap_congr h

theorem getItems_toJson {o : Option (List α)}
    (hm : (k, o.map fun as => .array (as.map f)) ∈ m.fields)
    (h : ∀ as ∈ o, ∀ a ∈ as, g (f a) = some a) :
    getItems g (Object.ofFields m.fields) k = o := by
  rw [getItems, get_toJson hm]
  rcases o with _ | as
  · rfl
  · have := filterMap_toJson (h as rfl)
    simpa using this

theorem getItems_nonEmpty {as : List α} (hm : (k, nonEmpty f as) ∈ m.fields)
    (h : ∀ a ∈ as, g (f a) = some (back a)) :
    (getItems g (Object.ofFields m.fields) k).getD [] = as.map back := by
  rw [getItems, get_toJson hm, nonEmpty]
  split_ifs with hempty
  · rw [hempty]
    rfl
  · rw [bind_some, asArray_array, map_some, getD_some, filterMap_toJson h]

end Get

theorem profile_toJson :
    ((getStr (Object.ofFields m.fields) "rocml_profile").map GrimRocmlProfile.parse).getD .unknown
      = m.rocmlProfile := by
  have hname : getStr (Object.ofFields m.fields) "rocml_profile" = some m.rocmlProfile.name :=
    getStr_toJson (by simp [fields])
  rw [hname, map_some, getD_some, GrimRocmlProfile.parse_name]

theorem wavefrontSize_toJson (default : UInt32) :
    (getU32 (Object.ofFields m.fields) "wavefront_size").getD default =
      if 0 < m.wavefrontSize then m.wavefrontSize else default := by
  have hsize : (Object.ofFields m.fields).get "wavefront_size" =
      if 0 < m.wavefrontSize then some (u64 m.wavefrontSize.toUInt64) else none :=
    get_toJson (by simp [fields])
  rw [getU32, hsize]
  split_ifs <;> simp

theorem overrides_toJson (hfin : m.FiniteFloats) :
    (getItems GrimQuantOverride.fromJson (Object.ofFields m.fields) "quant_overrides").getD [] =
      m.quantOverrides := by
  have hmem : ("quant_overrides", nonEmpty GrimQuantOverride.toJson m.quantOverrides) ∈ m.fields :=
    by simp [fields]
  have hback : ∀ ov ∈ m.quantOverrides, GrimQuantOverride.fromJson ov.toJson = some (id ov) :=
    fun ov hov => ov.fromJson_toJson (hfin.overrides ov hov)
  rw [getItems_nonEmpty hmem hback, List.map_id]

theorem mode_toJson :
    (getStr (Object.ofFields m.fields) "train_quant_mode").bind GrimTrainQuantMode.parse =
      m.trainQuantMode := by
  have hmode : (Object.ofFields m.fields).get "train_quant_mode" =
      m.trainQuantMode.map fun mode => .string mode.asStr := get_toJson (by simp [fields])
  rw [getStr, hmode]
  cases m.trainQuantMode with
  | none => rfl
  | some mode => exact mode.parse_asStr

variable {m} in
theorem ops_toJson {k : String} {ops : List GrimFusionOp}
    (h : (k, nonEmpty (fun op => .string op.asStr) ops) ∈ m.fields) :
    (getItems (fun v => v.asStr.bind GrimFusionOp.parse) (Object.ofFields m.fields) k).getD [] =
      ops := by
  have hback : ∀ op ∈ ops, ((.string op.asStr : Value).asStr).bind GrimFusionOp.parse =
      some (id op) := fun op _ => op.parse_asStr
  rw [getItems_nonEmpty h hback, List.map_id]

theorem gguf_toJson (hmap : m.IsMap) :
    (((Object.ofFields m.fields).get "_gguf_metadata").bind asObject).map metadataFromJson =
      m.ggufMetadata.map Metadata.narrowed := by
  have hmd : (Object.ofFields m.fields).get "_gguf_metadata" =
      m.ggufMetadata.map metadataToJson := get_toJson (by simp [fields])
  rw [hmd]
  rcases hg : m.ggufMetadata with _ | md
  · rfl
  · exact metadataFromJson_toJson (hmap md hg)

theorem bpw_toJson (hfin : m.FiniteFloats) :
    (((Object.ofFields m.fields).get "kv_bpw").bind asF64).map f64ToF32 = m.kvBpw := by
  have hbpw : (Object.ofFields m.fields).get "kv_bpw" = m.kvBpw.map bpwToJson :=
    get_toJson (by simp [fields])
  rw [hbpw]
  rcases hb : m.kvBpw with _ | bpw
  · rfl
  · exact asF64_bpwToJson (hfin.kvBpw bpw hb)

theorem tensorCore_toJson :
    (getBool (Object.ofFields m.fields) "tensor_core_enabled").getD false =
      m.tensorCoreEnabled := by
  have htensor : getBool (Object.ofFields m.fields) "tensor_core_enabled" =
      some m.tensorCoreEnabled := getBool_toJson (by simp [fields])
  rw [htensor, getD_some]

/-- What a metadata record is after it was written and read. -/
theorem fromJson_toJson (hfin : m.FiniteFloats) (hmap : m.IsMap) :
    fromJson m.toJson = m.restored := by
  have hbytes : ∀ b : UInt8, (u8 b).asU64.map UInt64.toUInt8 = some b := by
    intro b
    rw [u8, asU64_u64, map_some, toUInt8_toUInt64]
  rw [toJson, fromJson, restored, GrimMetadata.mk.injEq]
  simp only [asObject_object, getD_some, m.profile_toJson, m.wavefrontSize_toJson,
    m.tensorCore_toJson, m.overrides_toJson hfin, m.mode_toJson, m.gguf_toJson hmap,
    m.bpw_toJson hfin]
  refine ⟨?tag, ?version, trivial, trivial, ?gcn, ?block, ?lds, trivial, ?method, ?dataset,
    trivial, ?rco, ?provenance, ?scores, trivial, ?trainOps, ?rocmOps, ?xnack, ?layout, ?registry,
    ?ext, trivial, trivial, ?rotation, ?inverse, ?recon, ?rank, ?kv, trivial, ?dtype, ?gemm,
    ?float8, ?gpus⟩
  case tag => exact getStr_toJson (by simp [fields])
  case version => exact getU32_toJson (by simp [fields])
  case gcn => exact getStr_toJson (by simp [fields])
  case block => exact getU32_toJson (by simp [fields])
  case lds => exact getU32_toJson (by simp [fields])
  case method => exact getStr_toJson (by simp [fields])
  case dataset => exact getStr_toJson (by simp [fields])
  case rco =>
    exact getItems_toJson (by simp [fields]) fun ovs hovs ov hov =>
      ov.fromJson_toJson (hfin.allocation ovs hovs ov hov)
  case provenance => exact getStr_toJson (by simp [fields])
  case scores =>
    exact getItems_toJson (by simp [fields]) fun scores hscores score hscore =>
      scoreFromJson_toJson (hfin.scores scores hscores score hscore)
  case trainOps => exact ops_toJson (by simp [fields])
  case rocmOps => exact ops_toJson (by simp [fields])
  case xnack => exact getBool_toJson (by simp [fields])
  case layout => exact getBool_toJson (by simp [fields])
  case registry => exact getBool_toJson (by simp [fields])
  case ext => exact getItems_nonEmpty (by simp [fields]) fun e _ => e.fromJson_toJson
  case rotation => exact getStr_toJson (by simp [fields])
  case inverse => exact getItems_toJson (by simp [fields]) fun bytes _ b _ => hbytes b
  case recon => exact getStr_toJson (by simp [fields])
  case rank => exact getU32_toJson (by simp [fields])
  case kv => exact getStr_toJson (by simp [fields])
  case dtype => exact getStr_toJson (by simp [fields])
  case gemm => exact getStr_toJson (by simp [fields])
  case float8 => exact getBool_toJson (by simp [fields])
  case gpus => exact getStr_toJson (by simp [fields])

theorem map_eq_self {α : Type} {f : α → α} {as : List α} :
    as.map f = as ↔ ∀ a ∈ as, f a = a := by
  simpa using map_inj_left (l := as) (f := f) (g := id)

structure Kept : Prop where
  wavefront : 0 < m.wavefrontSize ∨ m.rocmlProfile.wavefrontSize = 0
  target : m.targetWeightFormat = none
  residuals : ∀ e ∈ m.extEntries, e.spqrIndices = [] ∧ e.spqrValues = []
  values : ∀ md ∈ m.ggufMetadata, ∀ e ∈ md, Canonical e.2

theorem wavefront_kept :
    (if 0 < m.wavefrontSize then m.wavefrontSize else m.rocmlProfile.wavefrontSize) =
      m.wavefrontSize ↔ 0 < m.wavefrontSize ∨ m.rocmlProfile.wavefrontSize = 0 := by
  by_cases h : 0 < m.wavefrontSize
  · simp [h]
  · have hzero : m.wavefrontSize = 0 := by
      rw [← UInt32.toNat_inj]
      rw [UInt32.lt_iff_toNat_lt] at h
      simp at h ⊢
      exact h
    simp [hzero]

theorem residuals_kept : m.extEntries.map GrimTensorExt.withoutSpqr = m.extEntries ↔
    ∀ e ∈ m.extEntries, e.spqrIndices = [] ∧ e.spqrValues = [] := by
  have heach : ∀ e : GrimTensorExt, e.withoutSpqr = e ↔ e.spqrIndices = [] ∧ e.spqrValues = [] := by
    rintro ⟨⟩
    simp [GrimTensorExt.withoutSpqr, eq_comm]
  rw [map_eq_self]
  exact forall₂_congr fun e _ => heach e

theorem values_kept : m.ggufMetadata.map Metadata.narrowed = m.ggufMetadata ↔
    ∀ md ∈ m.ggufMetadata, ∀ e ∈ md, Canonical e.2 := by
  have heach : ∀ md : Metadata, md.narrowed = md ↔ ∀ e ∈ md, Canonical e.2 := by
    intro md
    rw [Metadata.narrowed, map_eq_self]
    refine forall₂_congr fun e _ => ?_
    rw [← narrowed_eq_iff e.2]
    obtain ⟨k, v⟩ := e
    simp
  rcases m.ggufMetadata with _ | md
  · simp
  · simp [heach]

theorem restored_eq_iff : m.restored = m ↔ m.Kept := by
  constructor
  · intro h
    exact ⟨m.wavefront_kept.1 (congrArg wavefrontSize h), (congrArg targetWeightFormat h).symm,
      m.residuals_kept.1 (congrArg extEntries h), m.values_kept.1 (congrArg ggufMetadata h)⟩
  · intro h
    have hw := m.wavefront_kept.2 h.wavefront
    have he := m.residuals_kept.2 h.residuals
    have hv := m.values_kept.2 h.values
    have ht := h.target
    rw [restored, hw, he, hv, ← ht]

/-- A record with finite floats is read back as it was exactly when everything in it is kept. -/
theorem fromJson_toJson_iff (m : GrimMetadata) (hfin : m.FiniteFloats) (hmap : m.IsMap) :
    fromJson m.toJson = m ↔ m.Kept := by
  rw [m.fromJson_toJson hfin hmap, m.restored_eq_iff]

end GrimMetadata

/-- No `grim` key is set. -/
def GrimMetadata.default : GrimMetadata where
  magic := none
  quantVersion := none
  rocmlProfile := .unknown
  wavefrontSize := 0
  targetGcn := none
  blockSize := none
  ldsSize := none
  tensorCoreEnabled := false
  quantMethod := none
  calibrationDataset := none
  quantOverrides := []
  rcoAllocation := none
  rcoAllocationProvenance := none
  calibrationScores := none
  trainQuantMode := none
  trainFusionOps := []
  rocmFusionOps := []
  xnackEnabled := none
  kvLayoutOptimized := none
  hasKvRegistry := none

/-- A converted file's metadata with an override, a delta-coded tensor and values of the source
file that are in their narrowest types. -/
def keptMetadata : GrimMetadata :=
  { GrimMetadata.default with
    rocmlProfile := .rdna3
    wavefrontSize := 32
    quantOverrides := [⟨"blk.0.ffn_up.weight", 4, .q4K, 0x3f800001, none⟩]
    kvBpw := some 0x40133333
    extEntries := [{ tensorName := "blk.0.ffn_up.weight", outlierIndexEncoding := .deltaVarint }]
    ggufMetadata := some [("general.name", .string "m"), ("llama.context_length", .uint16 4096)] }

theorem fromJson_toJson_keptMetadata :
    GrimMetadata.fromJson keptMetadata.toJson = keptMetadata ↔ keptMetadata.Kept := by
  refine keptMetadata.fromJson_toJson_iff ⟨?_, ?_, ?_, ?_⟩ ?_
  · simp only [keptMetadata, forall_mem_singleton]
    decide
  · exact fun ovs h => absurd h (by simp [keptMetadata, GrimMetadata.default])
  · exact fun scores h => absurd h (by simp [keptMetadata, GrimMetadata.default])
  · rintro bpw ⟨⟩
    decide
  · rintro md ⟨⟩
    simp [Metadata.Nodup]

/-- A target format, a sparse residual and a number of the source file in 32 bits. -/
def lostMetadata : GrimMetadata :=
  { GrimMetadata.default with
    targetWeightFormat := some "q4_k"
    extEntries :=
      [{ tensorName := "blk.0.ffn_up.weight", spqrIndices := [3], spqrValues := [0x3f800000] }]
    ggufMetadata := some [("llama.rope.freq_base", .uint32 10000)] }

/-- It is not read back as it was. -/
theorem fromJson_toJson_lostMetadata : lostMetadata.FiniteFloats ∧ lostMetadata.IsMap ∧
    GrimMetadata.fromJson lostMetadata.toJson ≠ lostMetadata := by
  have hfin : lostMetadata.FiniteFloats := by
    refine ⟨?_, ?_, ?_, ?_⟩ <;> simp [lostMetadata, GrimMetadata.default]
  have hmap : lostMetadata.IsMap := by
    rintro md ⟨⟩
    simp [Metadata.Nodup]
  refine ⟨hfin, hmap, fun h => ?_⟩
  rw [lostMetadata.fromJson_toJson hfin hmap] at h
  exact absurd (congrArg GrimMetadata.targetWeightFormat h)
    (by simp [GrimMetadata.restored, lostMetadata])

end Grim.Format
