import Mathlib.Data.List.AList
import Grim.Autograd.AdamW
import Grim.Lib.Steps

/-!
# The tape

A tape has an entry for each recorded operation, in the order of recording, and the tensors the
entries name.  The tensors are of any type.  Ids are given out in order, and do not reach `2 ^ 32`;
an `f32` of an entry is its bits.  `free_intermediate_activations` drops the tensors that a
segment's replay can rebuild.
-/

namespace Grim.Autograd

open List

abbrev TensorId := ℕ

inductive TapeKind
  | matMul | add | scale | loraApply | siluMul | rmsNorm | rope | softmax | embedding
  | selectiveScan
deriving DecidableEq

inductive TapeMetadata
  | matMul (transposeA transposeB : Bool) (m k n : ℕ)
  | add
  | scale (factor : UInt32)
  | loraApply (alpha : UInt32) (rank : ℕ) (a b : ParamId)
  | siluMul
  | rmsNorm (eps : UInt32) (weightParam : Option ParamId)
  | rope
  | softmax
  | embedding (tokenIds : List ℕ) (vocabSize hiddenDim : ℕ) (weightParam : Option ParamId)
  | selectiveScan (batchIndex dInner dState : ℤ)
deriving DecidableEq

structure TapeEntry where
  kind : TapeKind
  inputs : List TensorId
  output : TensorId
  paramId : Option ParamId
  metadata : TapeMetadata
  segmentIdx : ℕ
deriving DecidableEq

structure Tape (T : Type) where
  entries : List TapeEntry
  tensors : TensorId → Option T
  paramTensors : AList fun _ : ParamId => TensorId
  nextId : ℕ
  checkpointSegs : ℕ
  currentSegment : ℕ
  checkpointBoundaries : AList fun _ : ℕ => TensorId

namespace Tape

variable {T : Type}

def new : Tape T where
  entries := []
  tensors _ := none
  paramTensors := ∅
  nextId := 0
  checkpointSegs := 0
  currentSegment := 0
  checkpointBoundaries := ∅

variable (tape : Tape T)

def setCheckpointSegs (segs : ℕ) : Tape T := { tape with checkpointSegs := segs }

def markSegmentBoundary (segmentIdx : ℕ) (inputId : TensorId) : Tape T :=
  { tape with
    currentSegment := segmentIdx
    checkpointBoundaries := tape.checkpointBoundaries.insert segmentIdx inputId }

def isCheckpointingEnabled : Bool := 1 < tape.checkpointSegs

def register (t : T) : Tape T × TensorId :=
  ({ tape with
      tensors := Function.update tape.tensors tape.nextId (some t)
      nextId := tape.nextId + 1 },
    tape.nextId)

def registerParam (p : ParamId) (t : T) : Tape T × TensorId :=
  let (tape, id) := tape.register t
  ({ tape with paramTensors := tape.paramTensors.insert p id }, id)

def get (id : TensorId) : Option T := tape.tensors id

/-- A write through `get_mut`. -/
def setTensor (id : TensorId) (t : T) : Tape T :=
  if (tape.get id).isSome then { tape with tensors := Function.update tape.tensors id (some t) }
  else tape

def paramTensor (p : ParamId) : Option TensorId := tape.paramTensors.lookup p

def clear : Tape T :=
  { tape with
    entries := []
    tensors := fun _ => none
    paramTensors := ∅
    checkpointBoundaries := ∅
    nextId := 0 }

/-- The output registered, and an entry of the current segment for it. -/
def record (kind : TapeKind) (inputs : List TensorId) (output : T) (paramId : Option ParamId)
    (metadata : TapeMetadata) : Tape T × TensorId :=
  let (tape, outId) := tape.register output
  ({ tape with
      entries := tape.entries ++ [⟨kind, inputs, outId, paramId, metadata, tape.currentSegment⟩] },
    outId)

def recordMatmul (a b : TensorId) (output : T) (transposeA transposeB : Bool) (m k n : ℕ)
    (paramId : Option ParamId) : Tape T × TensorId :=
  tape.record .matMul [a, b] output paramId (.matMul transposeA transposeB m k n)

def recordAdd (lhs rhs : TensorId) (output : T) (paramId : Option ParamId) : Tape T × TensorId :=
  tape.record .add [lhs, rhs] output paramId .add

def recordScale (input : TensorId) (output : T) (factor : UInt32) (paramId : Option ParamId) :
    Tape T × TensorId :=
  tape.record .scale [input] output paramId (.scale factor)

def recordLoraApply (base x a b : TensorId) (output : T) (alpha : UInt32) (rank : ℕ)
    (aParam bParam : ParamId) : Tape T × TensorId :=
  tape.record .loraApply [base, x, a, b] output (some aParam) (.loraApply alpha rank aParam bParam)

def recordSiluMul (gate up : TensorId) (output : T) : Tape T × TensorId :=
  tape.record .siluMul [gate, up] output none .siluMul

def recordRmsnorm (x weight : TensorId) (output : T) (eps : UInt32)
    (weightParam : Option ParamId) : Tape T × TensorId :=
  tape.record .rmsNorm [x, weight] output weightParam (.rmsNorm eps weightParam)

def recordRope (x cos sin : TensorId) (output : T) : Tape T × TensorId :=
  tape.record .rope [x, cos, sin] output none .rope

def recordSoftmax (input : TensorId) (output : T) : Tape T × TensorId :=
  tape.record .softmax [input] output none .softmax

def recordEmbedding (weight : TensorId) (output : T) (tokenIds : List ℕ)
    (vocabSize hiddenDim : ℕ) (weightParam : Option ParamId) : Tape T × TensorId :=
  tape.record .embedding [weight] output weightParam
    (.embedding tokenIds vocabSize hiddenDim weightParam)

def recordSelectiveScan (x aLog b d : TensorId) (output : T) (batchIndex dInner dState : ℤ) :
    Tape T × TensorId :=
  tape.record .selectiveScan [x, aLog, b, d] output none (.selectiveScan batchIndex dInner dState)

def putSegment (m : TensorId → Option ℕ) (e : TapeEntry) : TensorId → Option ℕ :=
  Function.update m e.output (some e.segmentIdx)

/-- The segment whose entry puts out `id`. -/
def producerSegment : TensorId → Option ℕ := tape.entries.foldl putSegment fun _ => none

/-- The inputs of an entry that it does not get from its own segment: a later segment's from an
earlier one, and those no entry puts out. -/
def keptInputs (e : TapeEntry) : List TensorId :=
  e.inputs.filter fun inp =>
    match tape.producerSegment inp with
    | some seg => seg < e.segmentIdx
    | none => true

def retain : List TensorId :=
  tape.checkpointBoundaries.entries.map (·.2) ++ tape.paramTensors.entries.map (·.2)
    ++ tape.entries.flatMap tape.keptInputs

def freeIntermediateActivations : Tape T :=
  if tape.isCheckpointingEnabled then
    { tape with tensors := fun id => if id ∈ tape.retain then tape.tensors id else none }
  else tape

inductive Call (T : Type)
  | setCheckpointSegs (segs : ℕ)
  | markSegmentBoundary (segmentIdx : ℕ) (inputId : TensorId)
  | register (t : T)
  | registerParam (p : ParamId) (t : T)
  | setTensor (id : TensorId) (t : T)
  | clear
  | recordMatmul (a b : TensorId) (output : T) (transposeA transposeB : Bool) (m k n : ℕ)
      (paramId : Option ParamId)
  | recordAdd (lhs rhs : TensorId) (output : T) (paramId : Option ParamId)
  | recordScale (input : TensorId) (output : T) (factor : UInt32) (paramId : Option ParamId)
  | recordLoraApply (base x a b : TensorId) (output : T) (alpha : UInt32) (rank : ℕ)
      (aParam bParam : ParamId)
  | recordSiluMul (gate up : TensorId) (output : T)
  | recordRmsnorm (x weight : TensorId) (output : T) (eps : UInt32)
      (weightParam : Option ParamId)
  | recordRope (x cos sin : TensorId) (output : T)
  | recordSoftmax (input : TensorId) (output : T)
  | recordEmbedding (weight : TensorId) (output : T) (tokenIds : List ℕ)
      (vocabSize hiddenDim : ℕ) (weightParam : Option ParamId)
  | recordSelectiveScan (x aLog b d : TensorId) (output : T) (batchIndex dInner dState : ℤ)

def apply : Call T → Tape T
  | .setCheckpointSegs segs => tape.setCheckpointSegs segs
  | .markSegmentBoundary segmentIdx inputId => tape.markSegmentBoundary segmentIdx inputId
  | .register t => (tape.register t).1
  | .registerParam p t => (tape.registerParam p t).1
  | .setTensor id t => tape.setTensor id t
  | .clear => tape.clear
  | .recordMatmul a b output transposeA transposeB m k n paramId =>
    (tape.recordMatmul a b output transposeA transposeB m k n paramId).1
  | .recordAdd lhs rhs output paramId => (tape.recordAdd lhs rhs output paramId).1
  | .recordScale input output factor paramId => (tape.recordScale input output factor paramId).1
  | .recordLoraApply base x a b output alpha rank aParam bParam =>
    (tape.recordLoraApply base x a b output alpha rank aParam bParam).1
  | .recordSiluMul gate up output => (tape.recordSiluMul gate up output).1
  | .recordRmsnorm x weight output eps weightParam =>
    (tape.recordRmsnorm x weight output eps weightParam).1
  | .recordRope x cos sin output => (tape.recordRope x cos sin output).1
  | .recordSoftmax input output => (tape.recordSoftmax input output).1
  | .recordEmbedding weight output tokenIds vocabSize hiddenDim weightParam =>
    (tape.recordEmbedding weight output tokenIds vocabSize hiddenDim weightParam).1
  | .recordSelectiveScan x aLog b d output batchIndex dInner dState =>
    (tape.recordSelectiveScan x aLog b d output batchIndex dInner dState).1

def Call.inputs : Call T → List TensorId
  | .setCheckpointSegs _ | .markSegmentBoundary .. | .register _ | .registerParam ..
  | .setTensor .. | .clear => []
  | .recordMatmul a b .. => [a, b]
  | .recordAdd lhs rhs .. => [lhs, rhs]
  | .recordScale input .. => [input]
  | .recordLoraApply base x a b .. => [base, x, a, b]
  | .recordSiluMul gate up _ => [gate, up]
  | .recordRmsnorm x weight .. => [x, weight]
  | .recordRope x cos sin _ => [x, cos, sin]
  | .recordSoftmax input _ => [input]
  | .recordEmbedding weight .. => [weight]
  | .recordSelectiveScan x aLog b d .. => [x, aLog, b, d]

def step (call : Call T) : Option (Tape T) := some (tape.apply call)

/-- An operation reads tensors whose ids the tape has given out. -/
def GivenOut (call : Call T) : Prop := ∀ id ∈ call.inputs, id < tape.nextId

instance (call : Call T) : Decidable (tape.GivenOut call) :=
  inferInstanceAs (Decidable (∀ id ∈ call.inputs, id < tape.nextId))

def Recorded : Prop := Steps.Reach step GivenOut new tape

def Segmented : Prop := tape.entries.Pairwise (·.segmentIdx ≤ ·.segmentIdx)

instance : Decidable tape.Segmented :=
  inferInstanceAs (Decidable (tape.entries.Pairwise (·.segmentIdx ≤ ·.segmentIdx)))

/-- Each id given out has a tensor, and an entry puts out a newer id than those it reads and those
the entries before it put out. -/
structure WellFormed (tape : Tape T) : Prop where
  present : ∀ id < tape.nextId, (tape.get id).isSome
  output : ∀ e ∈ tape.entries, e.output < tape.nextId
  inputs : ∀ e ∈ tape.entries, ∀ id ∈ e.inputs, id < e.output
  order : tape.entries.Pairwise (·.output < ·.output)

variable {tape}

theorem wellFormed_new : (new : Tape T).WellFormed where
  present := fun _ h => absurd h (Nat.not_lt_zero _)
  output := fun _ h => absurd h not_mem_nil
  inputs := fun _ h => absurd h not_mem_nil
  order := List.Pairwise.nil

theorem WellFormed.register (h : tape.WellFormed) (t : T) : (tape.register t).1.WellFormed where
  present := by
    intro id hid
    show (Function.update tape.tensors tape.nextId (some t) id).isSome
    by_cases heq : id = tape.nextId
    · rw [heq, Function.update_self]
      rfl
    · rw [Function.update_of_ne heq]
      have hid : id < tape.nextId + 1 := hid
      exact h.present id (by omega)
  output := fun e he => Nat.lt_succ_of_lt (h.output e he)
  inputs := h.inputs
  order := h.order

theorem WellFormed.setTensor (h : tape.WellFormed) (id : TensorId) (t : T) :
    (tape.setTensor id t).WellFormed := by
  unfold Tape.setTensor
  split_ifs
  · refine ⟨fun id' hid => ?_, h.output, h.inputs, h.order⟩
    show (Function.update tape.tensors id (some t) id').isSome
    by_cases heq : id' = id
    · rw [heq, Function.update_self]
      rfl
    · rw [Function.update_of_ne heq]
      exact h.present id' hid
  · exact h

theorem WellFormed.record (h : tape.WellFormed) {inputs : List TensorId}
    (hin : ∀ id ∈ inputs, id < tape.nextId) (kind : TapeKind) (output : T)
    (paramId : Option ParamId) (metadata : TapeMetadata) :
    (tape.record kind inputs output paramId metadata).1.WellFormed := by
  have hreg := h.register output
  have hmem : ∀ e ∈ (tape.record kind inputs output paramId metadata).1.entries,
      e ∈ tape.entries
        ∨ e = ⟨kind, inputs, tape.nextId, paramId, metadata, tape.currentSegment⟩ :=
    fun e he => (mem_append.mp he).imp_right mem_singleton.mp
  refine ⟨hreg.present, fun e he => ?_, fun e he => ?_, ?_⟩
  · rcases hmem e he with he | rfl
    · exact hreg.output e he
    · exact Nat.lt_succ_self _
  · rcases hmem e he with he | rfl
    · exact h.inputs e he
    · exact hin
  · refine pairwise_append.mpr ⟨h.order, pairwise_singleton _ _, fun e he e' he' => ?_⟩
    rw [mem_singleton.mp he']
    exact h.output e he

theorem WellFormed.apply (h : tape.WellFormed) {call : Call T} (hok : tape.GivenOut call) :
    (tape.apply call).WellFormed := by
  cases call with
  | setCheckpointSegs segs => exact ⟨h.present, h.output, h.inputs, h.order⟩
  | markSegmentBoundary segmentIdx inputId => exact ⟨h.present, h.output, h.inputs, h.order⟩
  | register t => exact h.register t
  | registerParam p t =>
    have hreg := h.register t
    exact ⟨hreg.present, hreg.output, hreg.inputs, hreg.order⟩
  | setTensor id t => exact h.setTensor id t
  | clear =>
    have hnew : (new : Tape T).WellFormed := wellFormed_new
    exact ⟨hnew.present, hnew.output, hnew.inputs, hnew.order⟩
  | recordMatmul | recordAdd | recordScale | recordLoraApply | recordSiluMul | recordRmsnorm
  | recordRope | recordSoftmax | recordEmbedding | recordSelectiveScan => exact h.record hok ..

theorem Recorded.wellFormed (h : tape.Recorded) : tape.WellFormed :=
  Steps.Reach.invariant wellFormed_new
    (fun _ _ _ hI hok hs => Option.some.inj hs ▸ hI.apply hok) h

theorem foldl_putSegment_of_notMem {id : TensorId} : ∀ {l : List TapeEntry},
    (∀ e ∈ l, e.output ≠ id) → ∀ m : TensorId → Option ℕ, l.foldl putSegment m id = m id
  | [], _, _ => rfl
  | e :: l, h, m => by
    have hne : id ≠ e.output := (h e mem_cons_self).symm
    rw [foldl_cons,
      foldl_putSegment_of_notMem (fun e' he' => h e' (mem_cons_of_mem _ he')) _, putSegment,
      Function.update_of_ne hne]

theorem foldl_putSegment_of_mem {e : TapeEntry} : ∀ {l : List TapeEntry},
    l.Pairwise (·.output < ·.output) → e ∈ l → ∀ m : TensorId → Option ℕ,
      l.foldl putSegment m e.output = some e.segmentIdx
  | e' :: l, h, he, m => by
    obtain ⟨hlt, h⟩ := pairwise_cons.mp h
    rw [foldl_cons]
    rcases mem_cons.mp he with rfl | he
    · rw [foldl_putSegment_of_notMem (fun e' he' => (hlt e' he').ne') _, putSegment,
        Function.update_self]
    · exact foldl_putSegment_of_mem h he _

theorem WellFormed.producerSegment (h : tape.WellFormed) {e : TapeEntry} (he : e ∈ tape.entries) :
    tape.producerSegment e.output = some e.segmentIdx :=
  foldl_putSegment_of_mem h.order he _

theorem producerSegment_none {id : TensorId} (h : ∀ e ∈ tape.entries, e.output ≠ id) :
    tape.producerSegment id = none :=
  foldl_putSegment_of_notMem h _

theorem WellFormed.segment_le (h : tape.WellFormed) (hseg : tape.Segmented) {e e' : TapeEntry}
    (he : e ∈ tape.entries) (he' : e' ∈ tape.entries) (hlt : e'.output < e.output) :
    e'.segmentIdx ≤ e.segmentIdx := by
  have hboth := h.order.and hseg
  refine List.Pairwise.forall_of_forall_of_flip (R := fun x y : TapeEntry =>
    y.output < x.output → y.segmentIdx ≤ x.segmentIdx) (fun x _ hx => absurd hx (lt_irrefl _))
    (hboth.imp fun hxy hyx => absurd hyx (not_lt.mpr hxy.1.le))
    (hboth.imp fun hxy _ => hxy.2) he he' hlt

theorem free_entries : tape.freeIntermediateActivations.entries = tape.entries := by
  unfold freeIntermediateActivations
  split_ifs <;> rfl

theorem free_get_cases (id : TensorId) : tape.freeIntermediateActivations.get id = tape.get id
    ∨ tape.freeIntermediateActivations.get id = none ∧ id ∉ tape.retain := by
  unfold freeIntermediateActivations
  split_ifs
  · unfold get
    dsimp only
    split_ifs with hid
    · exact .inl rfl
    · exact .inr ⟨rfl, hid⟩
  · exact .inl rfl

theorem WellFormed.free_input (h : tape.WellFormed) (hseg : tape.Segmented) {e : TapeEntry}
    (he : e ∈ tape.entries) {id : TensorId} (hid : id ∈ e.inputs) :
    tape.freeIntermediateActivations.get id = tape.get id
      ∨ ∃ e' ∈ tape.entries, e'.output = id ∧ e'.segmentIdx = e.segmentIdx := by
  refine (free_get_cases id).imp_right fun ⟨_, hnot⟩ => ?_
  have hkept : id ∉ tape.keptInputs e := by
    refine fun hmem => hnot (mem_append_right _ ?_)
    exact mem_flatMap.mpr ⟨e, he, hmem⟩
  by_contra hno
  refine hkept (mem_filter.mpr ⟨hid, ?_⟩)
  by_cases hprod : ∃ e' ∈ tape.entries, e'.output = id
  · obtain ⟨e', he', rfl⟩ := hprod
    have hle := h.segment_le hseg he he' (h.inputs e he _ hid)
    have hne : e'.segmentIdx ≠ e.segmentIdx := fun heq => hno ⟨e', he', rfl, heq⟩
    rw [h.producerSegment he']
    exact decide_eq_true (lt_of_le_of_ne hle hne)
  · rw [producerSegment_none fun e' he' heq => hprod ⟨e', he', heq⟩]

end Tape

end Grim.Autograd
