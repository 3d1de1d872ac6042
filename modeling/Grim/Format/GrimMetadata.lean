import Grim.Format.DType
import Grim.Format.Metadata
import Grim.Format.TensorExt

/-!
# The metadata of a `.grim` file as GGUF values

Overrides, allocations and scores are rows of mixed types, written as arrays.
-/

namespace Grim.Format

inductive GrimRocmlProfile
  | cdna2 | cdna3 | rdna2 | rdna3 | rdna4 | all | unknown
deriving DecidableEq

namespace GrimRocmlProfile

def name : GrimRocmlProfile → String
  | cdna2 => "cdna2"
  | cdna3 => "cdna3"
  | rdna2 => "rdna2"
  | rdna3 => "rdna3"
  | rdna4 => "rdna4"
  | all => "all"
  | unknown => "unknown"

def wavefrontSize : GrimRocmlProfile → UInt32
  | cdna2 | cdna3 | rdna2 | rdna3 | rdna4 => 32
  | all | unknown => 0

def ldsSize : GrimRocmlProfile → UInt32
  | cdna2 | cdna3 => 65536
  | rdna2 | rdna3 | rdna4 => 32768
  | all | unknown => 0

end GrimRocmlProfile

inductive GrimLayoutHint
  | wavefrontTiled | blockSparse

def layoutHintTag : Option GrimLayoutHint → String
  | some .wavefrontTiled => "wavefront-tiled"
  | some .blockSparse => "block-sparse"
  | none => "none"

inductive GrimTrainQuantMode
  | fp4 | nf4 | fp8 | bf16

def GrimTrainQuantMode.asStr : GrimTrainQuantMode → String
  | .fp4 => "fp4"
  | .nf4 => "nf4"
  | .fp8 => "fp8"
  | .bf16 => "bf16"

inductive GrimFusionOp
  | rmsNormMatMul | qkvAttention

def GrimFusionOp.asStr : GrimFusionOp → String
  | .rmsNormMatMul => "rmsnorm_matmul"
  | .qkvAttention => "qkv_attention"

structure GrimQuantOverride where
  tensorName : String
  effectiveBpw : UInt32
  overrideDtype : GgufDType
  importanceScore : UInt32
  layoutHint : Option GrimLayoutHint

/-- The fields with a default are those that `to_gguf_metadata` leaves out. -/
structure GrimMetadata where
  magic : Option String
  quantVersion : Option UInt32
  rocmlProfile : GrimRocmlProfile
  wavefrontSize : UInt32
  targetGcn : Option String
  blockSize : Option UInt32
  ldsSize : Option UInt32
  tensorCoreEnabled : Bool
  quantMethod : Option String
  calibrationDataset : Option String
  quantOverrides : List GrimQuantOverride
  rcoAllocation : Option (List GrimQuantOverride)
  rcoAllocationProvenance : Option String
  calibrationScores : Option (List (String × UInt32))
  trainQuantMode : Option GrimTrainQuantMode
  trainFusionOps : List GrimFusionOp
  rocmFusionOps : List GrimFusionOp
  xnackEnabled : Option Bool
  kvLayoutOptimized : Option Bool
  hasKvRegistry : Option Bool
  extEntries : List GrimTensorExt := []
  ggufMetadata : Option Metadata := none
  targetWeightFormat : Option String := none
  rotationId : Option String := none
  rotationInverse : Option (List UInt8) := none
  reconMethod : Option String := none
  reconRank : Option UInt32 := none
  kvMethod : Option String := none
  kvBpw : Option UInt32 := none
  preferredDtype : Option String := none
  gemmBackend : Option String := none
  fp8 : Option Bool := none
  multiGpuStrategy : Option String := none

/-- An override as a row, in `grim.quant_overrides` and in `grim.rco.allocation`. -/
def GrimQuantOverride.row (ov : GrimQuantOverride) : GgufValue :=
  .array [.string ov.tensorName, .uint32 ov.effectiveBpw, .uint32 ov.overrideDtype.tag,
    .float32 ov.importanceScore, .string (layoutHintTag ov.layoutHint)]

def overrideRows (ovs : List GrimQuantOverride) : GgufValue :=
  .array (ovs.map GrimQuantOverride.row)

def scoreRows (scores : List (String × UInt32)) : GgufValue :=
  .array (scores.map fun s => .array [.string s.1, .float32 s.2])

def fusionOps (ops : List GrimFusionOp) : GgufValue := .array (ops.map fun op => .string op.asStr)

namespace GrimMetadata

def toGgufMetadata (g : GrimMetadata) : Metadata :=
  Metadata.empty
    |>.insertSome "grim.magic" (g.magic.map .string)
    |>.insertSome "grim.quant_version" (g.quantVersion.map .uint32)
    |>.insert "grim.rocml.profile" (.string g.rocmlProfile.name)
    |>.insertSome "grim.rocml.wavefront_size"
      (if 0 < g.wavefrontSize then some (.uint32 g.wavefrontSize) else none)
    |>.insertSome "grim.rocml.target_gcn" (g.targetGcn.map .string)
    |>.insertSome "grim.rocml.block_size" (g.blockSize.map .uint32)
    |>.insertSome "grim.rocml.lds_size" (g.ldsSize.map .uint32)
    |>.insert "grim.rocml.tensor_core_enabled" (.bool g.tensorCoreEnabled)
    |>.insertSome "grim.quant_method" (g.quantMethod.map .string)
    |>.insertSome "grim.calibration_dataset" (g.calibrationDataset.map .string)
    |>.insertSome "grim.rco.allocation" (g.rcoAllocation.map overrideRows)
    |>.insertSome "grim.rco.allocation.provenance" (g.rcoAllocationProvenance.map .string)
    |>.insertSome "grim.calibration.scores" (g.calibrationScores.map scoreRows)
    |>.insertSome "grim.quant_overrides"
      (if g.quantOverrides = [] then none else some (overrideRows g.quantOverrides))
    |>.insertSome "grim.train.quant_mode" (g.trainQuantMode.map fun mode => .string mode.asStr)
    |>.insertSome "grim.train.fusion_ops"
      (if g.trainFusionOps = [] then none else some (fusionOps g.trainFusionOps))
    |>.insertSome "grim.rocm.fusion_ops"
      (if g.rocmFusionOps = [] then none else some (fusionOps g.rocmFusionOps))
    |>.insertSome "grim.rocm.xnack_enabled" (g.xnackEnabled.map .bool)
    |>.insertSome "grim.rocm.kv_layout_optimized" (g.kvLayoutOptimized.map .bool)
    |>.insertSome "grim.has_kv_registry" (g.hasKvRegistry.map .bool)

end GrimMetadata

theorem uniform_string (s : String) : Uniform (.string s) := by simp [Uniform]

theorem uniform_uint32 (v : UInt32) : Uniform (.uint32 v) := by simp [Uniform]

theorem uniform_bool (v : Bool) : Uniform (.bool v) := by simp [Uniform]

theorem uniform_fusionOps (ops : List GrimFusionOp) : Uniform (fusionOps ops) := by
  simp only [fusionOps, Uniform]
  refine ⟨fun v hv => ?_, AllUniform.of_forall fun v hv => ?_⟩ <;>
    obtain ⟨op, hop, rfl⟩ := List.mem_map.1 hv
  · cases ops with
    | nil => exact absurd hop (by simp)
    | cons first rest => rfl
  · exact uniform_string _

theorem row_not_uniform (ov : GrimQuantOverride) : ¬ Uniform ov.row := by
  simp [GrimQuantOverride.row, Uniform, ggufValueTag, elemTag]

theorem uniform_overrideRows {ovs : List GrimQuantOverride} :
    Uniform (overrideRows ovs) ↔ ovs = [] := by
  cases ovs with
  | nil => simp [overrideRows, Uniform, AllUniform]
  | cons ov ovs => simp [overrideRows, Uniform, AllUniform, row_not_uniform]

namespace GrimMetadata

variable (g : GrimMetadata)

theorem mem_quantOverrides (h : g.quantOverrides ≠ []) :
    ("grim.quant_overrides", overrideRows g.quantOverrides) ∈ g.toGgufMetadata := by
  unfold toGgufMetadata
  iterate 6 refine Metadata.mem_insertSome_of_ne ?_ (by decide)
  rw [if_neg h]
  exact Metadata.mem_insert_self

end GrimMetadata

def oneOverride : GrimMetadata where
  magic := some "grim-v1"
  quantVersion := some 1
  rocmlProfile := .rdna3
  wavefrontSize := 32
  targetGcn := some "gfx1100"
  blockSize := none
  ldsSize := some 32768
  tensorCoreEnabled := true
  quantMethod := none
  calibrationDataset := none
  quantOverrides := [⟨"blk.0.ffn_up.weight", 4, .q4K, 0x3f800000, none⟩]
  rcoAllocation := none
  rcoAllocationProvenance := none
  calibrationScores := none
  trainQuantMode := none
  trainFusionOps := []
  rocmFusionOps := [.qkvAttention]
  xnackEnabled := none
  kvLayoutOptimized := some true
  hasKvRegistry := none

theorem override_lost : ∃ e ∈ oneOverride.toGgufMetadata,
    InLimits maxGgufArrayNestingDepth e.2 ∧
      readGgufValue.run (writeGgufValue e.2) ≠ .ok (e.2, []) := by
  have hne : oneOverride.quantOverrides ≠ [] := by simp [oneOverride]
  have hlim : InLimits maxGgufArrayNestingDepth (overrideRows oneOverride.quantOverrides) := by
    simp [overrideRows, oneOverride, GrimQuantOverride.row, layoutHintTag, InLimits, AllInLimits,
      maxGgufArrayNestingDepth, maxGgufArrayCount, maxGgufStringLength]
    decide
  refine ⟨_, oneOverride.mem_quantOverrides hne, hlim, fun hrun => ?_⟩
  exact hne (uniform_overrideRows.1 (yields_value _ _ [] hrun).1)

end Grim.Format
