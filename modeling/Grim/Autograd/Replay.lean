import Grim.Autograd.Tape

/-!
# Replay

A segment's replay computes the outputs the tape has no tensor for, in the order of recording, into
an overlay.  What the operations compute is a parameter.
-/

namespace Grim.Autograd

inductive TapeError
  | backend (message : String)
  /-- `replay_segment: metadata {other:?} does not match kind {kind:?}` -/
  | metaMismatch (kind : TapeKind) (other : TapeMetadata)
  | outOfBounds
deriving DecidableEq

structure ReplayOps (T : Type) where
  matMul : Bool → Bool → ℕ → ℕ → ℕ → T → T → Except TapeError T
  add : T → T → Except TapeError T
  scale : UInt32 → T → Except TapeError T
  loraApply : UInt32 → ℕ → T → T → T → T → Except TapeError T
  siluMul : T → T → Except TapeError T
  rmsNorm : UInt32 → T → T → Except TapeError T
  rope : T → T → T → Except TapeError T
  softmax : T → Except TapeError T
  embedding : List ℕ → ℕ → ℕ → T → Except TapeError T

/-- `entry.inputs[i]` -/
def TapeEntry.input (entry : TapeEntry) (i : ℕ) : Except TapeError TensorId :=
  match entry.inputs[i]? with
  | some id => .ok id
  | none => .error .outOfBounds

abbrev Overlay (T : Type) := TensorId → Option T

namespace Tape

variable {T : Type} (tape : Tape T)

def getAny (overlay : Overlay T) (id : TensorId) : Option T := (overlay id).or (tape.get id)

def resolveInput (overlay : Overlay T) (id : TensorId) (ctx : String) : Except TapeError T :=
  match tape.getAny overlay id with
  | some t => .ok t
  | none => .error (.backend ("replay_segment(" ++ ctx ++ "): missing input tensor TensorId("
      ++ toString id ++ ")"))

def resolveAt (overlay : Overlay T) (entry : TapeEntry) (i : ℕ) (ctx : String) :
    Except TapeError T := do
  let id ← entry.input i
  tape.resolveInput overlay id ctx

def resolveParam (p : ParamId) (message : String) : Except TapeError T :=
  match (tape.paramTensor p).bind tape.get with
  | some t => .ok t
  | none => .error (.backend message)

/-- What was found, or else the tensor registered for a parameter. -/
def orParam (found : Except TapeError T) (p : ParamId) (message : String) : Except TapeError T :=
  match found with
  | .ok t => .ok t
  | .error _ => tape.resolveParam p message

/-- The input of an entry at an index, or else the tensor registered for a parameter. -/
def resolveOrParam (overlay : Overlay T) (entry : TapeEntry) (i : ℕ) (ctx : String) (p : ParamId)
    (message : String) : Except TapeError T := do
  let id ← entry.input i
  tape.orParam (tape.resolveInput overlay id ctx) p message

def replayEntry (ops : ReplayOps T) (entry : TapeEntry) (overlay : Overlay T) :
    Except TapeError T :=
  match entry.kind with
  | .matMul =>
    match entry.metadata with
    | .matMul transposeA transposeB m k n => do
      let a ← tape.resolveAt overlay entry 0 "entry"
      let b ← tape.resolveAt overlay entry 1 "entry"
      ops.matMul transposeA transposeB m k n a b
    | other => .error (.metaMismatch .matMul other)
  | .add => do
    let lhs ← tape.resolveAt overlay entry 0 "entry"
    let rhs ← tape.resolveAt overlay entry 1 "entry"
    ops.add lhs rhs
  | .scale =>
    match entry.metadata with
    | .scale factor => do
      let inp ← tape.resolveAt overlay entry 0 "entry"
      ops.scale factor inp
    | other => .error (.metaMismatch .scale other)
  | .loraApply =>
    match entry.metadata with
    | .loraApply alpha rank metaA metaB => do
      let base ← tape.resolveAt overlay entry 0 "entry"
      let x ← tape.resolveAt overlay entry 1 "entry"
      let a ← tape.resolveOrParam overlay entry 2 "lora a" metaA "replay lora: missing a tensor"
      let b ← tape.resolveOrParam overlay entry 3 "lora b" metaB "replay lora: missing b tensor"
      ops.loraApply alpha rank base x a b
    | other => .error (.metaMismatch .loraApply other)
  | .siluMul => do
    let gate ← tape.resolveAt overlay entry 0 "entry"
    let up ← tape.resolveAt overlay entry 1 "entry"
    ops.siluMul gate up
  | .rmsNorm =>
    match entry.metadata with
    | .rmsNorm eps _ => do
      let x ← tape.resolveAt overlay entry 0 "entry"
      let w ← tape.resolveAt overlay entry 1 "entry"
      ops.rmsNorm eps x w
    | other => .error (.metaMismatch .rmsNorm other)
  | .rope => do
    let x ← tape.resolveAt overlay entry 0 "entry"
    let cos ← tape.resolveAt overlay entry 1 "entry"
    let sin ← tape.resolveAt overlay entry 2 "entry"
    ops.rope x cos sin
  | .softmax => do
    let x ← tape.resolveAt overlay entry 0 "entry"
    ops.softmax x
  | .embedding =>
    match entry.metadata with
    | .embedding tokenIds vocabSize hiddenDim _ => do
      let w ← tape.resolveAt overlay entry 0 "entry"
      ops.embedding tokenIds vocabSize hiddenDim w
    | other => .error (.metaMismatch .embedding other)
  -- no scan is computed
  | .selectiveScan => tape.resolveAt overlay entry 0 "entry"

/-- The replay of one entry of a segment, unless its output is there. -/
def replayInto (ops : ReplayOps T) (overlay : Overlay T) (entry : TapeEntry) :
    Except TapeError (Overlay T) :=
  if (overlay entry.output).isSome ∨ (tape.get entry.output).isSome then .ok overlay
  else do
    let out ← tape.replayEntry ops entry overlay
    .ok (Function.update overlay entry.output (some out))

def replaySegment (ops : ReplayOps T) (seg : ℕ) (overlay : Overlay T) :
    Except TapeError (Overlay T) :=
  (tape.entries.filter (·.segmentIdx = seg)).foldlM (tape.replayInto ops) overlay

/-- The replay of each entry, from the tensors recorded, gives the one recorded for it. -/
def Recomputes (ops : ReplayOps T) : Prop :=
  ∀ e ∈ tape.entries, ∃ t, tape.get e.output = some t
    ∧ tape.replayEntry ops e (fun _ => none) = .ok t

section Congr

variable {tape} {tape' : Tape T} {overlay overlay' : Overlay T} {e : TapeEntry}

theorem resolveAt_congr
    (h : ∀ id ∈ e.inputs, tape.getAny overlay id = tape'.getAny overlay' id) (i : ℕ)
    (ctx : String) : tape.resolveAt overlay e i ctx = tape'.resolveAt overlay' e i ctx := by
  unfold resolveAt TapeEntry.input
  cases hi : e.inputs[i]? with
  | none => rfl
  | some id =>
    show tape.resolveInput overlay id ctx = tape'.resolveInput overlay' id ctx
    rw [resolveInput, h id (List.mem_of_getElem? hi), resolveInput]

theorem resolveOrParam_congr
    (h : ∀ id ∈ e.inputs, tape.getAny overlay id = tape'.getAny overlay' id)
    (hsome : ∀ id ∈ e.inputs, (tape'.getAny overlay' id).isSome) (i : ℕ) (ctx : String)
    (p : ParamId) (message : String) : tape.resolveOrParam overlay e i ctx p message
      = tape'.resolveOrParam overlay' e i ctx p message := by
  unfold resolveOrParam TapeEntry.input
  cases hi : e.inputs[i]? with
  | none => rfl
  | some id =>
    have hmem := List.mem_of_getElem? hi
    obtain ⟨t, ht⟩ := Option.isSome_iff_exists.mp (hsome id hmem)
    have hres : tape'.resolveInput overlay' id ctx = .ok t := by
      rw [resolveInput, ht]
    have hres' : tape.resolveInput overlay id ctx = .ok t := by
      rw [resolveInput, h id hmem, ht]
    show tape.orParam (tape.resolveInput overlay id ctx) p message
      = tape'.orParam (tape'.resolveInput overlay' id ctx) p message
    rw [hres, hres']
    rfl

theorem replayEntry_congr (ops : ReplayOps T)
    (h : ∀ id ∈ e.inputs, tape.getAny overlay id = tape'.getAny overlay' id)
    (hsome : ∀ id ∈ e.inputs, (tape'.getAny overlay' id).isSome) :
    tape.replayEntry ops e overlay = tape'.replayEntry ops e overlay' := by
  unfold replayEntry
  simp only [resolveAt_congr h, resolveOrParam_congr h hsome]

end Congr

end Tape

end Grim.Autograd
