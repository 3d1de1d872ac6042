import Grim.Autograd.Replay

/-!
# The backward pass

The entries whose output has a gradient are taken in reverse, each with its tensors from the tape
or, where they were freed, from a replay of its segment; the overlay of a segment is dropped when
the pass leaves it.  An entry's gradients go to its inputs and to the gradient buffers of its
parameters.  What the operations compute is a parameter.
-/

namespace Grim.Autograd

structure BackwardOps (T : Type) where
  shape : T → List ℕ
  /-- `alpha / (rank as f32)` -/
  loraScale : UInt32 → ℕ → UInt32
  /-- From the output's gradient, `x`, `a`, `b` and the scale. -/
  loraBackward : T → T → T → T → UInt32 → Except TapeError (T × T × T × T)
  /-- From `a`, `b`, the output's gradient and the transpositions. -/
  matmulBackward : T → T → T → Bool → Bool → Except TapeError (T × T)
  addBackward : T → Option (List ℕ) → Option (List ℕ) → Except TapeError (T × T)
  scaleBackward : T → UInt32 → Except TapeError T
  siluMulBackward : T → T → T → Except TapeError (T × T)
  rmsnormBackward : T → T → T → UInt32 → Except TapeError (T × T)
  ropeBackward : T → T → T → Except TapeError T
  softmaxBackward : T → T → Except TapeError T
  embeddingBackward : T → List ℕ → ℕ → ℕ → Except TapeError T
  /-- From the output's gradient, `a_log`, `b`, `d` and `x`. -/
  selectiveScanBackward : T → T → T → T → T → ℤ → ℤ → ℤ → Except TapeError (T × T)
  /-- The sum of `accumulate_tensor_grad`. -/
  tensorSum : T → T → Except TapeError T
  /-- The sum of `accumulate_grad`. -/
  paramSum : T → T → Except TapeError T

/-- The gradient of a `TrainableParam`. -/
structure GradBuffer (T : Type) where
  grad : T
  frozen : Bool

variable {T : Type}

def GradBuffer.accumulateGrad (ops : BackwardOps T) (p : GradBuffer T) (g : T) :
    Except TapeError (GradBuffer T) :=
  if p.frozen then .ok p
  else do
    let grad ← ops.paramSum p.grad g
    .ok { p with grad := grad }

/-- The gradients of tensors, and the buffers of the trainable parameters. -/
structure Grads (T : Type) where
  tensors : TensorId → Option T
  params : ParamId → Option (GradBuffer T)

namespace Grads

variable (s : Grads T)

def start (lossGrad : T) (lossTensorId : TensorId) (params : ParamId → Option (GradBuffer T)) :
    Grads T :=
  ⟨Function.update (fun _ => none) lossTensorId (some lossGrad), params⟩

def getGrad (id : TensorId) : Except TapeError T :=
  match s.tensors id with
  | some g => .ok g
  | none => .error (.backend ("missing gradient for tensor TensorId(" ++ toString id ++ ")"))

def accumulateTensorGrad (ops : BackwardOps T) (id : TensorId) (g : T) :
    Except TapeError (Grads T) :=
  match s.tensors id with
  | some existing => do
    let sum ← ops.tensorSum existing g
    .ok { s with tensors := Function.update s.tensors id (some sum) }
  | none => .ok { s with tensors := Function.update s.tensors id (some g) }

def accumulateParamGrad (ops : BackwardOps T) (p : ParamId) (g : T) : Except TapeError (Grads T) :=
  match s.params p with
  | some param => do
    let param ← param.accumulateGrad ops g
    .ok { s with params := Function.update s.params p (some param) }
  | none => .ok s

def accumulateOptionGrad (ops : BackwardOps T) (p : Option ParamId) (g : T) :
    Except TapeError (Grads T) :=
  match p with
  | some p => s.accumulateParamGrad ops p g
  | none => .ok s

end Grads

/-- `ok_or_else` with a message. -/
def found (t : Option T) (message : String) : Except TapeError T :=
  match t with
  | some t => .ok t
  | none => .error (.backend message)

/-- The tensor `look` has for an entry's input. -/
def TapeEntry.need (entry : TapeEntry) (look : TensorId → Option T) (i : ℕ) (message : String) :
    Except TapeError T := do
  let id ← entry.input i
  found (look id) message

/-- The shape of the tensor `look` has for an entry's input. -/
def TapeEntry.shapeAt (entry : TapeEntry) (ops : BackwardOps T) (look : TensorId → Option T)
    (i : ℕ) : Except TapeError (Option (List ℕ)) := do
  let id ← entry.input i
  .ok ((look id).map ops.shape)

/-- `accumulate_tensor_grad` for an entry's input. -/
def TapeEntry.passOn (entry : TapeEntry) (ops : BackwardOps T) (s : Grads T) (i : ℕ) (g : T) :
    Except TapeError (Grads T) := do
  let id ← entry.input i
  s.accumulateTensorGrad ops id g

/-- The backward step of an entry, whose output's gradient is `outGrad`, with the tensors of
`look`. -/
def TapeEntry.backward (ops : BackwardOps T) (look : TensorId → Option T) (entry : TapeEntry)
    (outGrad : T) (s : Grads T) : Except TapeError (Grads T) :=
  match entry.metadata with
  | .loraApply alpha rank a b => do
    let _base ← entry.need look 0 "missing base tensor"
    let x ← entry.need look 1 "missing x tensor"
    let aT ← entry.need look 2 "missing a tensor"
    let bT ← entry.need look 3 "missing b tensor"
    let (gBase, gX, gA, gB) ← ops.loraBackward outGrad x aT bT (ops.loraScale alpha rank)
    let s ← s.accumulateParamGrad ops a gA
    let s ← s.accumulateParamGrad ops b gB
    let s ← entry.passOn ops s 0 gBase
    entry.passOn ops s 1 gX
  | .matMul transposeA transposeB _ _ _ => do
    let a ← entry.need look 0 "missing matmul input a"
    let b ← entry.need look 1 "missing matmul input b"
    let (gA, gB) ← ops.matmulBackward a b outGrad transposeA transposeB
    let s ← s.accumulateOptionGrad ops entry.paramId gA
    let s ← entry.passOn ops s 0 gA
    entry.passOn ops s 1 gB
  | .add => do
    let lhsShape ← entry.shapeAt ops look 0
    let rhsShape ← entry.shapeAt ops look 1
    let (gl, gr) ← ops.addBackward outGrad lhsShape rhsShape
    let s ← entry.passOn ops s 0 gl
    entry.passOn ops s 1 gr
  | .scale factor => do
    let g ← ops.scaleBackward outGrad factor
    entry.passOn ops s 0 g
  | .siluMul => do
    let gate ← entry.need look 0 "missing silu_mul gate"
    let up ← entry.need look 1 "missing silu_mul up"
    let (dGate, dUp) ← ops.siluMulBackward gate up outGrad
    let s ← entry.passOn ops s 0 dGate
    entry.passOn ops s 1 dUp
  | .rmsNorm eps weightParam => do
    let x ← entry.need look 0 "missing rmsnorm input x"
    let weight ← entry.need look 1 "missing rmsnorm input weight"
    let (dx, dw) ← ops.rmsnormBackward x weight outGrad eps
    let s ← s.accumulateOptionGrad ops weightParam dw
    let s ← entry.passOn ops s 0 dx
    entry.passOn ops s 1 dw
  | .rope => do
    let cos ← entry.need look 1 "missing rope cos"
    let sin ← entry.need look 2 "missing rope sin"
    let dx ← ops.ropeBackward outGrad cos sin
    entry.passOn ops s 0 dx
  | .softmax => do
    let out ← found (look entry.output) "missing softmax output"
    let dx ← ops.softmaxBackward outGrad out
    entry.passOn ops s 0 dx
  | .embedding tokenIds vocabSize hiddenDim weightParam => do
    let dw ← ops.embeddingBackward outGrad tokenIds vocabSize hiddenDim
    let s ← s.accumulateOptionGrad ops weightParam dw
    entry.passOn ops s 0 dw
  | .selectiveScan batchIndex dInner dState => do
    let x ← entry.need look 0 "missing selective_scan x"
    let aLog ← entry.need look 1 "missing selective_scan a_log"
    let b ← entry.need look 2 "missing selective_scan b"
    let d ← entry.need look 3 "missing selective_scan d"
    let (dx, _dh) ← ops.selectiveScanBackward outGrad aLog b d x batchIndex dInner dState
    entry.passOn ops s 0 dx

section Congr

variable {look look' : TensorId → Option T} {entry : TapeEntry}

theorem TapeEntry.need_congr (hin : ∀ id ∈ entry.inputs, look id = look' id) (i : ℕ)
    (message : String) : entry.need look i message = entry.need look' i message := by
  unfold need input
  cases hi : entry.inputs[i]? with
  | none => rfl
  | some id =>
    show found (look id) message = found (look' id) message
    rw [hin id (List.mem_of_getElem? hi)]

theorem TapeEntry.shapeAt_congr (ops : BackwardOps T)
    (hin : ∀ id ∈ entry.inputs, look id = look' id) (i : ℕ) :
    entry.shapeAt ops look i = entry.shapeAt ops look' i := by
  unfold shapeAt input
  cases hi : entry.inputs[i]? with
  | none => rfl
  | some id =>
    show (.ok ((look id).map ops.shape) : Except TapeError (Option (List ℕ)))
      = .ok ((look' id).map ops.shape)
    rw [hin id (List.mem_of_getElem? hi)]

theorem TapeEntry.backward_congr (ops : BackwardOps T)
    (hin : ∀ id ∈ entry.inputs, look id = look' id)
    (hout : look entry.output = look' entry.output) (outGrad : T) (s : Grads T) :
    entry.backward ops look outGrad s = entry.backward ops look' outGrad s := by
  unfold TapeEntry.backward
  simp only [need_congr hin, shapeAt_congr ops hin, hout]

end Congr

structure Pass (T : Type) where
  grads : Grads T
  overlay : Overlay T
  activeSegment : Option ℕ

namespace Tape

variable (tape : Tape T)

/-- Where the tape and the overlay have not all tensors of an entry, its segment is replayed. -/
def ensureEntryResolved (replay : ReplayOps T) (entry : TapeEntry) (overlay : Overlay T) :
    Except TapeError (Overlay T) :=
  if ∃ id ∈ entry.inputs ++ [entry.output], (tape.getAny overlay id).isNone then
    tape.replaySegment replay entry.segmentIdx overlay
  else .ok overlay

def evictSegmentOverlay (seg : ℕ) (overlay : Overlay T) : Overlay T :=
  (tape.entries.filter (·.segmentIdx = seg)).foldl
    (fun (o : Overlay T) e => Function.update o e.output none) overlay

/-- The overlay on the way to an entry of segment `seg`. -/
def leave (active : Option ℕ) (seg : ℕ) (overlay : Overlay T) : Overlay T :=
  match active with
  | some prev => if prev ≠ seg then tape.evictSegmentOverlay prev overlay else overlay
  | none => overlay

def backwardEntry (replay : ReplayOps T) (ops : BackwardOps T) (s : Pass T) (entry : TapeEntry) :
    Except TapeError (Pass T) :=
  if (s.grads.tensors entry.output).isNone then .ok s
  else do
    let overlay ← tape.ensureEntryResolved replay entry
      (tape.leave s.activeSegment entry.segmentIdx s.overlay)
    let outGrad ← s.grads.getGrad entry.output
    let grads ← entry.backward ops (tape.getAny overlay) outGrad s.grads
    .ok ⟨grads, overlay, some entry.segmentIdx⟩

/-- The tensor gradients, and the gradient buffers of the parameters. -/
def backward (replay : ReplayOps T) (ops : BackwardOps T) (lossGrad : T) (lossTensorId : TensorId)
    (params : ParamId → Option (GradBuffer T)) : Except TapeError (Grads T) := do
  let s ← tape.entries.reverse.foldlM (tape.backwardEntry replay ops)
    ⟨.start lossGrad lossTensorId params, fun _ => none, none⟩
  .ok s.grads

end Tape

end Grim.Autograd
