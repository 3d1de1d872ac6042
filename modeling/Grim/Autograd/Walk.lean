import Grim.Autograd.Backward
import Grim.Lib.Folds

/-!
# Walks over a tape

Which entries a backward pass reaches and what gradients it finds does not depend on what is done
with the gradients of the parameters: a pass takes these in the order in which they are found
(`flow`) until that fails or the walk does (`foldlM_walkEntry`).  `backward`, which adds them to
the buffers, is such a pass (`backward_eq`).
-/

namespace Grim.Autograd

open Folds List

variable {T σ ε : Type}

/-- What an entry's backward operation computes, for parameters and for inputs, in the order in
which it is passed on. -/
structure Gradients (T : Type) where
  params : List (ParamId × T)
  inputs : List (ℕ × T)

namespace TapeEntry

/-- The gradients of an entry, whose output's gradient is `outGrad`, with the tensors of `look`. -/
def gradients (ops : BackwardOps T) (look : TensorId → Option T) (entry : TapeEntry)
    (outGrad : T) : Except TapeError (Gradients T) :=
  match entry.metadata with
  | .loraApply alpha rank a b => do
    let _base ← entry.need look 0 "missing base tensor"
    let x ← entry.need look 1 "missing x tensor"
    let aT ← entry.need look 2 "missing a tensor"
    let bT ← entry.need look 3 "missing b tensor"
    let (gBase, gX, gA, gB) ← ops.loraBackward outGrad x aT bT (ops.loraScale alpha rank)
    .ok ⟨[(a, gA), (b, gB)], [(0, gBase), (1, gX)]⟩
  | .matMul transposeA transposeB _ _ _ => do
    let a ← entry.need look 0 "missing matmul input a"
    let b ← entry.need look 1 "missing matmul input b"
    let (gA, gB) ← ops.matmulBackward a b outGrad transposeA transposeB
    .ok ⟨entry.paramId.toList.map (·, gA), [(0, gA), (1, gB)]⟩
  | .add => do
    let lhsShape ← entry.shapeAt ops look 0
    let rhsShape ← entry.shapeAt ops look 1
    let (gl, gr) ← ops.addBackward outGrad lhsShape rhsShape
    .ok ⟨[], [(0, gl), (1, gr)]⟩
  | .scale factor => do
    let g ← ops.scaleBackward outGrad factor
    .ok ⟨[], [(0, g)]⟩
  | .siluMul => do
    let gate ← entry.need look 0 "missing silu_mul gate"
    let up ← entry.need look 1 "missing silu_mul up"
    let (dGate, dUp) ← ops.siluMulBackward gate up outGrad
    .ok ⟨[], [(0, dGate), (1, dUp)]⟩
  | .rmsNorm eps weightParam => do
    let x ← entry.need look 0 "missing rmsnorm input x"
    let weight ← entry.need look 1 "missing rmsnorm input weight"
    let (dx, dw) ← ops.rmsnormBackward x weight outGrad eps
    .ok ⟨weightParam.toList.map (·, dw), [(0, dx), (1, dw)]⟩
  | .rope => do
    let cos ← entry.need look 1 "missing rope cos"
    let sin ← entry.need look 2 "missing rope sin"
    let dx ← ops.ropeBackward outGrad cos sin
    .ok ⟨[], [(0, dx)]⟩
  | .softmax => do
    let out ← found (look entry.output) "missing softmax output"
    let dx ← ops.softmaxBackward outGrad out
    .ok ⟨[], [(0, dx)]⟩
  | .embedding tokenIds vocabSize hiddenDim weightParam => do
    let dw ← ops.embeddingBackward outGrad tokenIds vocabSize hiddenDim
    .ok ⟨weightParam.toList.map (·, dw), [(0, dw)]⟩
  | .selectiveScan batchIndex dInner dState => do
    let x ← entry.need look 0 "missing selective_scan x"
    let aLog ← entry.need look 1 "missing selective_scan a_log"
    let b ← entry.need look 2 "missing selective_scan b"
    let d ← entry.need look 3 "missing selective_scan d"
    let (dx, _dh) ← ops.selectiveScanBackward outGrad aLog b d x batchIndex dInner dState
    .ok ⟨[], [(0, dx)]⟩

theorem gradients_congr (ops : BackwardOps T) {look look' : TensorId → Option T}
    {entry : TapeEntry} (hin : ∀ id ∈ entry.inputs, look id = look' id)
    (hout : look entry.output = look' entry.output) (outGrad : T) :
    entry.gradients ops look outGrad = entry.gradients ops look' outGrad := by
  unfold gradients
  simp only [need_congr hin, shapeAt_congr ops hin, hout]

def contributes (entry : TapeEntry) : List ParamId :=
  match entry.metadata with
  | .loraApply _ _ a b => [a, b]
  | .matMul .. => entry.paramId.toList
  | .rmsNorm _ weightParam => weightParam.toList
  | .embedding _ _ _ weightParam => weightParam.toList
  | _ => []

def passes (entry : TapeEntry) : List ℕ :=
  match entry.metadata with
  | .loraApply .. | .matMul .. | .add | .siluMul | .rmsNorm .. => [0, 1]
  | .scale _ | .rope | .softmax | .embedding .. | .selectiveScan .. => [0]

/-- `accumulate_tensor_grad` for an entry's input. -/
def passTo (entry : TapeEntry) (ops : BackwardOps T) (tensors : TensorId → Option T)
    (c : ℕ × T) : Except TapeError (TensorId → Option T) := do
  let s ← entry.passOn ops ⟨tensors, fun _ => none⟩ c.1 c.2
  .ok s.tensors

theorem passOn_eq (entry : TapeEntry) (ops : BackwardOps T) (s : Grads T) (c : ℕ × T) :
    entry.passOn ops s c.1 c.2 =
      (entry.passTo ops s.tensors c).map fun tensors => { s with tensors := tensors } := by
  unfold passTo passOn
  rcases entry.input c.1 with e | id
  · rfl
  · simp only [bind, Except.bind, Grads.accumulateTensorGrad]
    rcases s.tensors id with _ | existing
    · rfl
    · dsimp only
      rcases ops.tensorSum existing c.2 with e | sum <;> rfl

theorem foldlM_passOn (entry : TapeEntry) (ops : BackwardOps T) :
    ∀ (l : List (ℕ × T)) (s : Grads T),
      l.foldlM (fun s c => entry.passOn ops s c.1 c.2) s =
        (l.foldlM (entry.passTo ops) s.tensors).map fun tensors => { s with tensors := tensors }
  | [], _ => rfl
  | c :: l, s => by
    rw [foldlM_cons, foldlM_cons, passOn_eq]
    rcases entry.passTo ops s.tensors c with e | tensors
    · rfl
    · exact foldlM_passOn entry ops l { s with tensors := tensors }

end TapeEntry

/-- `accumulate_grad` for a parameter that is tracked. -/
def accumulateInto (ops : BackwardOps T) (params : ParamId → Option (GradBuffer T))
    (c : ParamId × T) : Except TapeError (ParamId → Option (GradBuffer T)) :=
  match params c.1 with
  | some param => do
    let param ← param.accumulateGrad ops c.2
    .ok (Function.update params c.1 (some param))
  | none => .ok params

theorem Grads.accumulateParamGrad_eq (ops : BackwardOps T) (s : Grads T) (c : ParamId × T) :
    s.accumulateParamGrad ops c.1 c.2 =
      (accumulateInto ops s.params c).map fun params => { s with params := params } := by
  unfold accumulateParamGrad accumulateInto
  rcases s.params c.1 with _ | param
  · rfl
  · simp only [bind, Except.bind]
    rcases param.accumulateGrad ops c.2 with e | param' <;> rfl

theorem Grads.foldlM_accumulateParamGrad (ops : BackwardOps T) :
    ∀ (l : List (ParamId × T)) (s : Grads T),
      l.foldlM (fun s c => s.accumulateParamGrad ops c.1 c.2) s =
        (l.foldlM (accumulateInto ops) s.params).map fun params => { s with params := params }
  | [], _ => rfl
  | c :: l, s => by
    rw [foldlM_cons, foldlM_cons, accumulateParamGrad_eq]
    rcases accumulateInto ops s.params c with e | params
    · rfl
    · exact foldlM_accumulateParamGrad ops l { s with params := params }

theorem Grads.accumulateOptionGrad_eq (ops : BackwardOps T) (s : Grads T) (p : Option ParamId)
    (g : T) : s.accumulateOptionGrad ops p g =
      (p.toList.map (·, g)).foldlM (fun s c => s.accumulateParamGrad ops c.1 c.2) s := by
  cases p with
  | none => rfl
  | some p => exact (bind_pure (s.accumulateParamGrad ops p g)).symm

theorem TapeEntry.backward_eq (ops : BackwardOps T) (look : TensorId → Option T)
    (entry : TapeEntry) (outGrad : T) (s : Grads T) :
    entry.backward ops look outGrad s = (do
      let g ← entry.gradients ops look outGrad
      let s ← g.params.foldlM (fun s c => s.accumulateParamGrad ops c.1 c.2) s
      g.inputs.foldlM (fun s c => entry.passOn ops s c.1 c.2) s) := by
  have hok : ∀ (g : Gradients T) (f : Gradients T → Except TapeError (Grads T)),
      (Except.ok g >>= f) = f g := fun _ _ => rfl
  unfold TapeEntry.backward TapeEntry.gradients
  cases entry.metadata <;>
    simp only [bind_assoc, hok, Grads.accumulateOptionGrad_eq, foldlM_cons, foldlM_nil,
      pure_bind, bind_pure]

/-- Where a walk is: the gradients it has for tensors, and the tensors it has recomputed. -/
structure Walk (T : Type) where
  tensors : TensorId → Option T
  overlay : Overlay T
  activeSegment : Option ℕ

def Walk.start (lossGrad : T) (lossTensorId : TensorId) : Walk T :=
  ⟨Function.update (fun _ => none) lossTensorId (some lossGrad), fun _ => none, none⟩

/-- A pass of `backward` is a walk with the buffers. -/
def Pass.split (s : Pass T) : Walk T × (ParamId → Option (GradBuffer T)) :=
  (⟨s.grads.tensors, s.overlay, s.activeSegment⟩, s.grads.params)

def Walk.passAll (ops : BackwardOps T) (entry : TapeEntry) (w : Walk T) (l : List (ℕ × T)) :
    Except TapeError (Walk T) :=
  (l.foldlM (entry.passTo ops) w.tensors).map fun tensors => { w with tensors := tensors }

namespace Tape

variable (tape : Tape T) (replay : ReplayOps T) (ops : BackwardOps T)

/-- The gradients of a reached entry, with its segment replayed where a tensor was freed. -/
def gradientsAt (w : Walk T) (entry : TapeEntry) : Except TapeError (Walk T × Gradients T) := do
  let overlay ← tape.ensureEntryResolved replay entry
    (tape.leave w.activeSegment entry.segmentIdx w.overlay)
  let outGrad ← (Grads.mk w.tensors fun _ => none).getGrad entry.output
  let g ← entry.gradients ops (tape.getAny overlay) outGrad
  .ok (⟨w.tensors, overlay, some entry.segmentIdx⟩, g)

/-- An entry's part of a pass that takes the parameters' gradients with `absorb`. -/
def walkEntry (absorb : σ → ParamId × T → Except ε σ) (raise : TapeError → ε) (s : Walk T × σ)
    (entry : TapeEntry) : Except ε (Walk T × σ) :=
  if (s.1.tensors entry.output).isNone then .ok s
  else do
    let (w, g) ← (tape.gradientsAt replay ops s.1 entry).mapError raise
    let t ← g.params.foldlM absorb s.2
    let w ← (w.passAll ops entry g.inputs).mapError raise
    .ok (w, t)

/-- The gradients for parameters, in the order in which they are found, and the end of the walk. -/
def flow : List TapeEntry → Walk T → List (ParamId × T) × Except TapeError (Walk T)
  | [], w => ([], .ok w)
  | entry :: rest, w =>
    if (w.tensors entry.output).isNone then flow rest w
    else
      match tape.gradientsAt replay ops w entry with
      | .error e => ([], .error e)
      | .ok (w, g) =>
        match w.passAll ops entry g.inputs with
        | .error e => (g.params, .error e)
        | .ok w => (g.params ++ (flow rest w).1, (flow rest w).2)

theorem foldlM_walkEntry (absorb : σ → ParamId × T → Except ε σ) (raise : TapeError → ε) :
    ∀ (entries : List TapeEntry) (w : Walk T) (t : σ),
      entries.foldlM (tape.walkEntry replay ops absorb raise) (w, t) = (do
        let t ← (tape.flow replay ops entries w).1.foldlM absorb t
        let w ← (tape.flow replay ops entries w).2.mapError raise
        .ok (w, t))
  | [], w, t => rfl
  | entry :: rest, w, t => by
    rw [foldlM_cons, walkEntry, flow]
    by_cases hnone : (w.tensors entry.output).isNone
    · rw [if_pos hnone, if_pos hnone]
      exact foldlM_walkEntry absorb raise rest w t
    · rw [if_neg hnone, if_neg hnone]
      rcases tape.gradientsAt replay ops w entry with e | ⟨w', g⟩
      · rfl
      · simp only [bind, Except.bind, Except.mapError]
        rcases w'.passAll ops entry g.inputs with e | w''
        · rcases g.params.foldlM absorb t with e | t' <;> rfl
        · simp only [foldlM_append, bind, Except.bind]
          rcases g.params.foldlM absorb t with e | t'
          · rfl
          · exact foldlM_walkEntry absorb raise rest w'' t'

theorem backwardEntry_eq (s : Pass T) (entry : TapeEntry) :
    (tape.backwardEntry replay ops s entry).map Pass.split =
      tape.walkEntry replay ops (accumulateInto ops) id s.split entry := by
  unfold backwardEntry walkEntry gradientsAt
  by_cases hnone : (s.grads.tensors entry.output).isNone
  · rw [if_pos hnone, if_pos (show (s.split.1.tensors entry.output).isNone from hnone)]
    rfl
  · rw [if_neg hnone, if_neg (show ¬(s.split.1.tensors entry.output).isNone from hnone)]
    simp only [bind, Except.bind, Pass.split, Grads.getGrad]
    rcases tape.ensureEntryResolved replay entry
      (tape.leave s.activeSegment entry.segmentIdx s.overlay) with e | overlay
    · rfl
    · dsimp only
      rcases s.grads.tensors entry.output with _ | outGrad
      · rfl
      · dsimp only
        rw [TapeEntry.backward_eq]
        simp only [bind, Except.bind]
        rcases entry.gradients ops (tape.getAny overlay) outGrad with e | g
        · rfl
        · dsimp only [Except.mapError, Walk.passAll]
          rw [Grads.foldlM_accumulateParamGrad]
          rcases g.params.foldlM (accumulateInto ops) s.grads.params with e | params
          · rfl
          · dsimp only [Except.map]
            rw [TapeEntry.foldlM_passOn]
            dsimp only
            rcases g.inputs.foldlM (entry.passTo ops) s.grads.tensors with e | tensors <;> rfl

theorem foldlM_backwardEntry : ∀ (entries : List TapeEntry) (s : Pass T),
    (entries.foldlM (tape.backwardEntry replay ops) s).map Pass.split =
      entries.foldlM (tape.walkEntry replay ops (accumulateInto ops) id) s.split
  | [], s => rfl
  | entry :: rest, s => by
    rw [foldlM_cons, foldlM_cons, ← backwardEntry_eq]
    rcases tape.backwardEntry replay ops s entry with e | s'
    · rfl
    · exact foldlM_backwardEntry rest s'

def flowOf (lossGrad : T) (lossTensorId : TensorId) :
    List (ParamId × T) × Except TapeError (Walk T) :=
  tape.flow replay ops tape.entries.reverse (.start lossGrad lossTensorId)

theorem backward_eq (lossGrad : T) (lossTensorId : TensorId)
    (params : ParamId → Option (GradBuffer T)) :
    tape.backward replay ops lossGrad lossTensorId params = (do
      let params ← (tape.flowOf replay ops lossGrad lossTensorId).1.foldlM (accumulateInto ops)
        params
      let w ← (tape.flowOf replay ops lossGrad lossTensorId).2
      .ok ⟨w.tensors, params⟩) := by
  have hsplit : Pass.split ⟨.start lossGrad lossTensorId params, fun _ => none, none⟩ =
      (Walk.start lossGrad lossTensorId, params) := rfl
  have hfold := tape.foldlM_backwardEntry replay ops tape.entries.reverse
    ⟨.start lossGrad lossTensorId params, fun _ => none, none⟩
  rw [hsplit, foldlM_walkEntry] at hfold
  have hgrads : tape.backward replay ops lossGrad lossTensorId params =
      ((tape.entries.reverse.foldlM (tape.backwardEntry replay ops)
        ⟨.start lossGrad lossTensorId params, fun _ => none, none⟩).map Pass.split).map
          fun s => ⟨s.1.tensors, s.2⟩ := by
    unfold backward
    rcases tape.entries.reverse.foldlM (tape.backwardEntry replay ops) _ with e | s <;> rfl
  rw [hgrads, hfold, flowOf]
  rcases tape.flow replay ops tape.entries.reverse (.start lossGrad lossTensorId) with ⟨cs, e | w⟩
  · rcases cs.foldlM (accumulateInto ops) params with e | params' <;> rfl
  · rcases cs.foldlM (accumulateInto ops) params with e | params' <;> rfl

end Tape

theorem TapeEntry.gradients_fst {ops : BackwardOps T} {look : TensorId → Option T}
    {entry : TapeEntry} {outGrad : T} {g : Gradients T}
    (h : entry.gradients ops look outGrad = .ok g) :
    g.params.map Prod.fst = entry.contributes ∧ g.inputs.map Prod.fst = entry.passes := by
  have hparams : ∀ (p : Option ParamId) (t : T), (p.toList.map (·, t)).map Prod.fst = p.toList :=
    fun p t => by cases p <;> rfl
  unfold TapeEntry.gradients at h
  unfold contributes passes
  cases hmeta : entry.metadata <;> rw [hmeta] at h <;> simp only [bind_ok, Except.ok.injEq] at h
  case loraApply =>
    obtain ⟨_, -, x, -, aT, -, bT, -, r, -, rfl⟩ := h
    exact ⟨rfl, rfl⟩
  case matMul =>
    obtain ⟨a, -, b, -, r, -, rfl⟩ := h
    exact ⟨hparams entry.paramId r.1, rfl⟩
  case add =>
    obtain ⟨lhs, -, rhs, -, r, -, rfl⟩ := h
    exact ⟨rfl, rfl⟩
  case scale =>
    obtain ⟨g, -, rfl⟩ := h
    exact ⟨rfl, rfl⟩
  case siluMul =>
    obtain ⟨gate, -, up, -, r, -, rfl⟩ := h
    exact ⟨rfl, rfl⟩
  case rmsNorm eps weightParam =>
    obtain ⟨x, -, weight, -, r, -, rfl⟩ := h
    exact ⟨hparams weightParam r.2, rfl⟩
  case rope =>
    obtain ⟨cos, -, sin, -, dx, -, rfl⟩ := h
    exact ⟨rfl, rfl⟩
  case softmax =>
    obtain ⟨out, -, dx, -, rfl⟩ := h
    exact ⟨rfl, rfl⟩
  case embedding tokenIds vocabSize hiddenDim weightParam =>
    obtain ⟨dw, -, rfl⟩ := h
    exact ⟨hparams weightParam dw, rfl⟩
  case selectiveScan =>
    obtain ⟨x, -, aLog, -, b, -, d, -, r, -, rfl⟩ := h
    exact ⟨rfl, rfl⟩

/-- The entries a walk reaches that has gradients for `ids`. -/
def reached : List TensorId → List TapeEntry → List TapeEntry
  | _, [] => []
  | ids, entry :: rest =>
    if entry.output ∈ ids then
      entry :: reached (entry.passes.filterMap (entry.inputs[·]?) ++ ids) rest
    else reached ids rest

def Walk.Has (w : Walk T) (ids : List TensorId) : Prop :=
  ∀ id, (w.tensors id).isSome ↔ id ∈ ids

theorem Walk.has_start (lossGrad : T) (lossTensorId : TensorId) :
    (Walk.start lossGrad lossTensorId).Has [lossTensorId] := by
  intro id
  by_cases h : id = lossTensorId <;> simp [Walk.start, h]

theorem TapeEntry.passTo_isSome {ops : BackwardOps T} {entry : TapeEntry}
    {tensors tensors' : TensorId → Option T} {c : ℕ × T}
    (h : entry.passTo ops tensors c = .ok tensors') : ∃ inp, entry.inputs[c.1]? = some inp ∧
      ∀ id, (tensors' id).isSome ↔ id = inp ∨ (tensors id).isSome := by
  obtain ⟨s, hs, rfl⟩ : ∃ s, entry.passOn ops ⟨tensors, fun _ => none⟩ c.1 c.2 = .ok s ∧
      s.tensors = tensors' := by
    obtain ⟨s, hs, h⟩ := bind_ok.1 h
    exact ⟨s, hs, Except.ok.inj h⟩
  obtain ⟨inp, hinp, hs⟩ := bind_ok.1 hs
  have hupdate : ∀ t : T, s.tensors = Function.update tensors inp (some t) →
      ∀ id, (s.tensors id).isSome ↔ id = inp ∨ (tensors id).isSome := by
    intro t ht id
    rw [ht]
    by_cases hid : id = inp
    · simp [hid]
    · simp [hid]
  refine ⟨inp, ?_, ?_⟩
  · unfold input at hinp
    rcases hi : entry.inputs[c.1]? with _ | inp'
    · rw [hi] at hinp
      exact nomatch hinp
    · rw [hi] at hinp
      exact congrArg some (Except.ok.inj hinp)
  · unfold Grads.accumulateTensorGrad at hs
    dsimp only at hs
    rcases htensor : tensors inp with _ | existing
    · rw [htensor] at hs
      obtain rfl := Except.ok.inj hs
      exact hupdate c.2 rfl
    · rw [htensor] at hs
      obtain ⟨sum, -, hs⟩ := bind_ok.1 hs
      obtain rfl := Except.ok.inj hs
      exact hupdate sum rfl

theorem TapeEntry.foldlM_passTo {ops : BackwardOps T} {entry : TapeEntry} :
    ∀ {l : List (ℕ × T)} {tensors tensors' : TensorId → Option T},
      l.foldlM (entry.passTo ops) tensors = .ok tensors' → ∀ id, (tensors' id).isSome ↔
        id ∈ (l.map Prod.fst).filterMap (entry.inputs[·]?) ∨ (tensors id).isSome
  | [], tensors, tensors', h, id => by
    obtain rfl : tensors = tensors' := Except.ok.inj h
    simp
  | c :: l, tensors, tensors', h, id => by
    rw [foldlM_cons] at h
    obtain ⟨tensors₁, hc, h⟩ := bind_ok.1 h
    obtain ⟨inp, hinp, hsome⟩ := passTo_isSome hc
    rw [foldlM_passTo h, hsome, map_cons, filterMap_cons_some hinp, mem_cons]
    tauto

theorem Walk.Has.passAll {ops : BackwardOps T} {entry : TapeEntry} {w w' : Walk T}
    {ids : List TensorId} {l : List (ℕ × T)} (hw : w.Has ids)
    (h : w.passAll ops entry l = .ok w') :
    w'.Has ((l.map Prod.fst).filterMap (entry.inputs[·]?) ++ ids) := by
  intro id
  unfold Walk.passAll at h
  rcases hfold : l.foldlM (entry.passTo ops) w.tensors with e | tensors
  · rw [hfold] at h
    exact nomatch h
  · rw [hfold] at h
    obtain rfl := Except.ok.inj h
    rw [mem_append, ← hw id]
    exact TapeEntry.foldlM_passTo hfold id

namespace Tape

variable {tape : Tape T} {replay : ReplayOps T} {ops : BackwardOps T}

theorem gradientsAt_fst {w w' : Walk T} {entry : TapeEntry} {g : Gradients T}
    (h : tape.gradientsAt replay ops w entry = .ok (w', g)) :
    w'.tensors = w.tensors ∧ g.params.map Prod.fst = entry.contributes ∧
      g.inputs.map Prod.fst = entry.passes := by
  obtain ⟨overlay, -, h⟩ := bind_ok.1 h
  obtain ⟨outGrad, -, h⟩ := bind_ok.1 h
  obtain ⟨g', hg, h⟩ := bind_ok.1 h
  obtain ⟨rfl, rfl⟩ := Prod.mk.inj (Except.ok.inj h)
  exact ⟨rfl, TapeEntry.gradients_fst hg⟩

/-- A walk that comes to its end has found the gradients of the entries it reaches. -/
theorem flow_fst : ∀ {entries : List TapeEntry} {w w' : Walk T} {ids : List TensorId}, w.Has ids →
    (tape.flow replay ops entries w).2 = .ok w' →
      (tape.flow replay ops entries w).1.map Prod.fst =
        (reached ids entries).flatMap TapeEntry.contributes
  | [], _, _, _, _, _ => rfl
  | entry :: rest, w, w', ids, hw, h => by
    rw [flow] at h ⊢
    rw [reached]
    by_cases hin : entry.output ∈ ids
    · have hsome := (hw entry.output).2 hin
      have hnone : ¬(w.tensors entry.output).isNone := by
        rw [Option.isNone_iff_eq_none]
        intro hnone
        rw [hnone] at hsome
        exact nomatch hsome
      rw [if_neg hnone] at h ⊢
      rw [if_pos hin]
      rcases hg : tape.gradientsAt replay ops w entry with e | ⟨w₁, g⟩
      · rw [hg] at h
        exact nomatch h
      · obtain ⟨htensors, hparams, hinputs⟩ := gradientsAt_fst hg
        rw [hg] at h
        dsimp only at h ⊢
        rcases hpass : w₁.passAll ops entry g.inputs with e | w₂
        · rw [hpass] at h
          exact nomatch h
        · rw [hpass] at h
          have hw₁ : w₁.Has ids := fun id => by rw [htensors]; exact hw id
          have hhas := hw₁.passAll hpass
          rw [hinputs] at hhas
          dsimp only
          rw [map_append, hparams, flatMap_cons, flow_fst hhas h]
    · have hnone : (w.tensors entry.output).isNone := by
        rw [Option.isNone_iff_eq_none, ← Option.not_isSome_iff_eq_none, hw]
        exact hin
      rw [if_pos hnone] at h ⊢
      rw [if_neg hin]
      exact flow_fst hw h

end Tape

end Grim.Autograd
