import Grim.Format.NativeMetadata

/-!
# The metadata of a `.grim` file read back from GGUF keys

Every field has a key of its own, so a field comes back as it was put in; the preferences that
are read under keys no field is written to do not.
-/

namespace Grim.Format

open FloatFormat List Option

namespace GgufValue

def asStr : GgufValue → Option String
  | .string s => some s
  | _ => none

def asInt : GgufValue → Option ℤ
  | .uint8 v => some v.toNat
  | .uint16 v => some v.toNat
  | .uint32 v => some v.toNat
  | .uint64 v => some v.toNat
  | .int8 v => some v.toInt
  | .int16 v => some v.toInt
  | .int32 v => some v.toInt
  | .int64 v => some v.toInt
  | _ => none

def asU32 (value : GgufValue) : Option UInt32 :=
  value.asInt.bind fun wide =>
    if 0 ≤ wide ∧ wide.toNat < UInt32.size then some (UInt32.ofNat wide.toNat) else none

def asF32 : GgufValue → Option UInt32
  | .float32 v => some v
  | .float64 v => some (f64ToF32 v)
  | .uint32 v => some (f32OfInt v.toNat)
  | .int32 v => some (f32OfInt v.toInt)
  | .uint64 v => some (f32OfInt v.toNat)
  | .int64 v => some (f32OfInt v.toInt)
  | _ => none

def asArray : GgufValue → Option (List GgufValue)
  | .array items => some items
  | _ => none

def readBool : GgufValue → Option Bool
  | .bool v => some v
  | _ => none

/-- The one integer type that the rows of an allocation are read from. -/
def uint32? : GgufValue → Option UInt32
  | .uint32 v => some v
  | _ => none

def float32? : GgufValue → Option UInt32
  | .float32 v => some v
  | _ => none

end GgufValue

open GgufValue

/-- An entry of `grim.quant_overrides`; one that is malformed is skipped. -/
def readGrimQuantOverride : List GgufValue → Option GrimQuantOverride
  | name :: bpw :: dtype :: score :: rest => do
    let tensorName ← name.asStr
    let effectiveBpw ← bpw.asU32
    let tag ← dtype.asU32
    let overrideDtype ← GgufDType.fromTag tag
    pure
      { tensorName, effectiveBpw, overrideDtype
        importanceScore := score.asF32.getD 0
        layoutHint := (rest.head?.bind asStr).bind layoutHintFromTag }
  | _ => none

def readGrimQuantOverrides (value : GgufValue) : Option (List GrimQuantOverride) :=
  value.asArray.map (List.filterMap fun entry => entry.asArray.bind readGrimQuantOverride)

/-- An entry of `grim.rco.allocation`, whose numbers have one type each. -/
def readRcoEntry : List GgufValue → Option GrimQuantOverride
  | name :: bpw :: dtype :: score :: rest => do
    let tensorName ← name.asStr
    let effectiveBpw ← bpw.uint32?
    let tag ← dtype.uint32?
    let overrideDtype ← GgufDType.fromTag tag
    pure
      { tensorName, effectiveBpw, overrideDtype
        importanceScore := score.float32?.getD 0
        layoutHint := (rest.head?.bind asStr).bind layoutHintFromTag }
  | _ => none

def readRcoAllocation (value : GgufValue) : Option (List GrimQuantOverride) :=
  value.asArray.map (List.filterMap fun entry => entry.asArray.bind readRcoEntry)

def readScore : List GgufValue → Option (String × UInt32)
  | name :: score :: _ => name.asStr.map fun n => (n, score.float32?.getD 0)
  | _ => none

def readCalibrationScores (value : GgufValue) : Option (List (String × UInt32)) :=
  value.asArray.map (List.filterMap fun entry => entry.asArray.bind readScore)

def readGrimFusionOps (value : GgufValue) : Option (List GrimFusionOp) :=
  value.asArray.map fun values => (values.filterMap asStr).filterMap GrimFusionOp.parse

namespace GrimMetadata

def fromGgufMetadata (metadata : Metadata) : GrimMetadata :=
  let str := fun key => (metadata.get key).bind asStr
  let u32 := fun key => (metadata.get key).bind asU32
  let bool := fun key => (metadata.get key).bind readBool
  let profile := ((str "grim.rocml.profile").map GrimRocmlProfile.parse).getD .unknown
  { magic := str "grim.magic"
    quantVersion := u32 "grim.quant_version"
    rocmlProfile := profile
    wavefrontSize := (u32 "grim.rocml.wavefront_size").getD profile.wavefrontSize
    targetGcn := str "grim.rocml.target_gcn"
    blockSize := u32 "grim.rocml.block_size"
    ldsSize := u32 "grim.rocml.lds_size"
    tensorCoreEnabled := (bool "grim.rocml.tensor_core_enabled").getD false
    quantMethod := str "grim.quant_method"
    calibrationDataset := str "grim.calibration_dataset"
    quantOverrides :=
      ((metadata.get "grim.quant_overrides").bind readGrimQuantOverrides).getD []
    rcoAllocation := (metadata.get "grim.rco.allocation").bind readRcoAllocation
    rcoAllocationProvenance := str "grim.rco.allocation.provenance"
    calibrationScores := (metadata.get "grim.calibration.scores").bind readCalibrationScores
    trainQuantMode := (str "grim.train.quant_mode").bind GrimTrainQuantMode.parse
    trainFusionOps := ((metadata.get "grim.train.fusion_ops").bind readGrimFusionOps).getD []
    rocmFusionOps := ((metadata.get "grim.rocm.fusion_ops").bind readGrimFusionOps).getD []
    xnackEnabled := bool "grim.rocm.xnack_enabled"
    kvLayoutOptimized := bool "grim.rocm.kv_layout_optimized"
    hasKvRegistry := bool "grim.has_kv_registry"
    preferredDtype := str "grim.preferred_dtype"
    gemmBackend := str "grim.gemm_backend"
    fp8 := bool "grim.fp8"
    multiGpuStrategy := str "grim.multi_gpu_strategy" }

/-- The metadata with the fields that are read from a key; the others have their defaults. -/
def keyed (g : GrimMetadata) : GrimMetadata :=
  { g with
    extEntries := [], ggufMetadata := none, targetWeightFormat := none, rotationId := none
    rotationInverse := none, reconMethod := none, reconRank := none, kvMethod := none
    kvBpw := none }

end GrimMetadata

theorem asU32_uint32 (v : UInt32) : (GgufValue.uint32 v).asU32 = some v := by
  rw [asU32, asInt, bind_some, Int.toNat_natCast, UInt32.ofNat_toNat]
  exact if_pos ⟨Int.natCast_nonneg _, v.toNat_lt_size⟩

theorem readGrimQuantOverrides_rows (ovs : List GrimQuantOverride) :
    readGrimQuantOverrides (overrideRows ovs) = some ovs := by
  have hrow : ∀ ov : GrimQuantOverride, (ov.row.asArray.bind readGrimQuantOverride) = some ov := by
    intro ov
    simp only [GrimQuantOverride.row, asArray, bind_some, readGrimQuantOverride, asStr,
      asU32_uint32, GgufDType.fromTag_tag, asF32, head?_cons, layoutHintFromTag_tag,
      getD_some, bind_eq_bind]
    rfl
  rw [readGrimQuantOverrides, overrideRows, asArray, map_some, filterMap_map]
  simp only [Function.comp_def, hrow, filterMap_some]

theorem readRcoAllocation_rows (ovs : List GrimQuantOverride) :
    readRcoAllocation (overrideRows ovs) = some ovs := by
  have hrow : ∀ ov : GrimQuantOverride, (ov.row.asArray.bind readRcoEntry) = some ov := by
    intro ov
    simp only [GrimQuantOverride.row, asArray, bind_some, readRcoEntry, asStr, uint32?,
      GgufDType.fromTag_tag, float32?, head?_cons, layoutHintFromTag_tag, getD_some,
      bind_eq_bind]
    rfl
  rw [readRcoAllocation, overrideRows, asArray, map_some, filterMap_map]
  simp only [Function.comp_def, hrow, filterMap_some]

theorem readCalibrationScores_rows (scores : List (String × UInt32)) :
    readCalibrationScores (scoreRows scores) = some scores := by
  rw [readCalibrationScores, scoreRows, asArray, map_some, filterMap_map]
  exact congrArg some filterMap_some

theorem readGrimFusionOps_ops (ops : List GrimFusionOp) :
    readGrimFusionOps (fusionOps ops) = some ops := by
  rw [readGrimFusionOps, fusionOps, asArray, map_some, filterMap_filterMap,
    filterMap_map]
  have hop : ∀ op : GrimFusionOp, (asStr (.string op.asStr)).bind GrimFusionOp.parse = some op :=
    GrimFusionOp.parse_asStr
  simp only [Function.comp_def, hop, filterMap_some]

namespace GrimMetadata

variable (g : GrimMetadata)

def keyFields : List (String × Option GgufValue) :=
  [("grim.magic", g.magic.map .string),
    ("grim.quant_version", g.quantVersion.map .uint32),
    ("grim.rocml.profile", some (.string g.rocmlProfile.name)),
    ("grim.rocml.wavefront_size",
      if 0 < g.wavefrontSize then some (.uint32 g.wavefrontSize) else none),
    ("grim.rocml.target_gcn", g.targetGcn.map .string),
    ("grim.rocml.block_size", g.blockSize.map .uint32),
    ("grim.rocml.lds_size", g.ldsSize.map .uint32),
    ("grim.rocml.tensor_core_enabled", some (.bool g.tensorCoreEnabled)),
    ("grim.quant_method", g.quantMethod.map .string),
    ("grim.calibration_dataset", g.calibrationDataset.map .string),
    ("grim.rco.allocation", g.rcoAllocation.map overrideRows),
    ("grim.rco.allocation.provenance", g.rcoAllocationProvenance.map .string),
    ("grim.calibration.scores", g.calibrationScores.map scoreRows),
    ("grim.quant_overrides",
      if g.quantOverrides = [] then none else some (overrideRows g.quantOverrides)),
    ("grim.train.quant_mode", g.trainQuantMode.map fun mode => .string mode.asStr),
    ("grim.train.fusion_ops",
      if g.trainFusionOps = [] then none else some (fusionOps g.trainFusionOps)),
    ("grim.rocm.fusion_ops",
      if g.rocmFusionOps = [] then none else some (fusionOps g.rocmFusionOps)),
    ("grim.rocm.xnack_enabled", g.xnackEnabled.map .bool),
    ("grim.rocm.kv_layout_optimized", g.kvLayoutOptimized.map .bool),
    ("grim.has_kv_registry", g.hasKvRegistry.map .bool)]

theorem toGgufMetadata_eq : g.toGgufMetadata = Metadata.ofFields g.keyFields := rfl

variable {g} {key : String} {o : Option GgufValue}

theorem get_toGgufMetadata (h : (key, o) ∈ g.keyFields) : g.toGgufMetadata.get key = o := by
  rw [toGgufMetadata_eq]
  exact Metadata.get_ofFields (by simp [keyFields]) h rfl

theorem get_toGgufMetadata_none (h : key ∉ g.keyFields.map Prod.fst) :
    g.toGgufMetadata.get key = none := by
  rw [toGgufMetadata_eq, Metadata.get_ofFields_of_notMem h]
  rfl

theorem string_keyed {s : Option String} (h : (key, s.map .string) ∈ g.keyFields) :
    (g.toGgufMetadata.get key).bind asStr = s := by
  rw [get_toGgufMetadata h]
  cases s <;> rfl

theorem uint32_keyed {n : Option UInt32} (h : (key, n.map .uint32) ∈ g.keyFields) :
    (g.toGgufMetadata.get key).bind asU32 = n := by
  rw [get_toGgufMetadata h]
  cases n with
  | none => rfl
  | some v => exact asU32_uint32 v

theorem bool_keyed {b : Option Bool} (h : (key, b.map .bool) ∈ g.keyFields) :
    (g.toGgufMetadata.get key).bind readBool = b := by
  rw [get_toGgufMetadata h]
  cases b <;> rfl

theorem table_keyed {α : Type} {write : α → GgufValue} {read : GgufValue → Option α}
    (hread : ∀ a, read (write a) = some a) {table : Option α}
    (h : (key, table.map write) ∈ g.keyFields) :
    (g.toGgufMetadata.get key).bind read = table := by
  rw [get_toGgufMetadata h]
  cases table with
  | none => rfl
  | some a => exact hread a

theorem list_keyed {α : Type} {write : List α → GgufValue}
    {read : GgufValue → Option (List α)} (hread : ∀ as, read (write as) = some as) {as : List α}
    (h : (key, if as = [] then none else some (write as)) ∈ g.keyFields) :
    ((g.toGgufMetadata.get key).bind read).getD [] = as := by
  rw [get_toGgufMetadata h]
  split_ifs with hnil
  · exact hnil.symm
  · rw [bind_some, hread, getD_some]

variable (g)

/-- What comes back: a wavefront size of 0 as its profile's, and no preferences. -/
theorem fromGguf_toGguf :
    fromGgufMetadata g.toGgufMetadata =
      { g.keyed with
        wavefrontSize :=
          if 0 < g.wavefrontSize then g.wavefrontSize else g.rocmlProfile.wavefrontSize
        preferredDtype := none, gemmBackend := none, fp8 := none, multiGpuStrategy := none } := by
  have hprofile : (g.toGgufMetadata.get "grim.rocml.profile").bind asStr
      = some g.rocmlProfile.name :=
    string_keyed (s := some g.rocmlProfile.name) (by simp [keyFields])
  have hcore : (g.toGgufMetadata.get "grim.rocml.tensor_core_enabled").bind readBool
      = some g.tensorCoreEnabled :=
    bool_keyed (b := some g.tensorCoreEnabled) (by simp [keyFields])
  have hmode : (g.toGgufMetadata.get "grim.train.quant_mode").bind asStr
      = g.trainQuantMode.map GrimTrainQuantMode.asStr :=
    string_keyed (s := g.trainQuantMode.map GrimTrainQuantMode.asStr)
      (by simp [keyFields, Function.comp_def])
  have hwave : (g.toGgufMetadata.get "grim.rocml.wavefront_size").bind asU32
      = if 0 < g.wavefrontSize then some g.wavefrontSize else none :=
    uint32_keyed (n := if 0 < g.wavefrontSize then some g.wavefrontSize else none)
      (by split_ifs with h <;> simp [keyFields, h])
  have hparse : (g.trainQuantMode.map GrimTrainQuantMode.asStr).bind GrimTrainQuantMode.parse
      = g.trainQuantMode := by
    cases g.trainQuantMode with
    | none => rfl
    | some mode => exact GrimTrainQuantMode.parse_asStr mode
  have hnone : ∀ {key}, key ∉ g.keyFields.map Prod.fst → g.toGgufMetadata.get key = none :=
    fun h => get_toGgufMetadata_none h
  unfold fromGgufMetadata keyed
  dsimp only
  congr 1
  · exact string_keyed (by simp [keyFields])
  · exact uint32_keyed (by simp [keyFields])
  · rw [hprofile, map_some, getD_some, GrimRocmlProfile.parse_name]
  · rw [hwave, hprofile, map_some, getD_some, GrimRocmlProfile.parse_name]
    split_ifs <;> rfl
  · exact string_keyed (by simp [keyFields])
  · exact uint32_keyed (by simp [keyFields])
  · exact uint32_keyed (by simp [keyFields])
  · rw [hcore, getD_some]
  · exact string_keyed (by simp [keyFields])
  · exact string_keyed (by simp [keyFields])
  · exact list_keyed readGrimQuantOverrides_rows (by simp [keyFields])
  · exact table_keyed readRcoAllocation_rows (by simp [keyFields])
  · exact string_keyed (by simp [keyFields])
  · exact table_keyed readCalibrationScores_rows (by simp [keyFields])
  · rw [hmode, hparse]
  · exact list_keyed readGrimFusionOps_ops (by simp [keyFields])
  · exact list_keyed readGrimFusionOps_ops (by simp [keyFields])
  · exact bool_keyed (by simp [keyFields])
  · exact bool_keyed (by simp [keyFields])
  · exact bool_keyed (by simp [keyFields])
  · rw [hnone (by simp [keyFields])]
    rfl
  · rw [hnone (by simp [keyFields])]
    rfl
  · rw [hnone (by simp [keyFields])]
    rfl
  · rw [hnone (by simp [keyFields])]
    rfl

/-- The keyed fields come back just when the preferences are unset, and a wavefront size of 0
is the profile's own. -/
theorem fromGguf_toGguf_eq_keyed_iff :
    fromGgufMetadata g.toGgufMetadata = g.keyed ↔
      (g.wavefrontSize = 0 → g.rocmlProfile.wavefrontSize = 0) ∧ g.preferredDtype = none ∧
        g.gemmBackend = none ∧ g.fp8 = none ∧ g.multiGpuStrategy = none := by
  have hwave : (if 0 < g.wavefrontSize then g.wavefrontSize else g.rocmlProfile.wavefrontSize)
      = g.wavefrontSize ↔ (g.wavefrontSize = 0 → g.rocmlProfile.wavefrontSize = 0) := by
    rcases eq_or_ne g.wavefrontSize 0 with h | h
    · simp [h]
    · simp [h, UInt32.pos_iff_ne_zero]
  rw [fromGguf_toGguf, ← hwave]
  constructor
  · intro h
    refine ⟨?_, ?_, ?_, ?_, ?_⟩
    · exact congrArg wavefrontSize h
    · exact (congrArg preferredDtype h).symm
    · exact (congrArg gemmBackend h).symm
    · exact (congrArg fp8 h).symm
    · exact (congrArg multiGpuStrategy h).symm
  · rintro ⟨hsize, hdtype, hbackend, hfp8, hstrategy⟩
    unfold keyed
    rw [hsize, hdtype, hbackend, hfp8, hstrategy]

end GrimMetadata

/-- The preference that a file was trained with is gone. -/
theorem strategy_lost : ¬ ∀ g : GrimMetadata,
    GrimMetadata.fromGgufMetadata g.toGgufMetadata = g.keyed := by
  intro hall
  have h := hall { oneOverride with multiGpuStrategy := some "replica-dp" }
  rw [GrimMetadata.fromGguf_toGguf] at h
  cases congrArg GrimMetadata.multiGpuStrategy h

end Grim.Format
