import Mathlib.Tactic
import Grim.Lib.Sweep

/-!
# The optimizer

A registry holds the trainable parameters, F32 tensors each with its gradient, and `AdamW` updates
them from two moments and a count of updates it keeps for each.  An `f32` is its bits, and the
operations on `f32` are parameters.  A call that fails is `none`.  A `HashMap` is a function; the
registry's also has the order in which it is iterated.
-/

namespace Grim.Autograd

inductive LoRAInjectionPoint
  | qProj | kProj | vProj | oProj | gateProj | upProj | downProj | logits
deriving DecidableEq

/-- A trainable parameter: the adapter's A or B matrix at an injection point of a layer. -/
structure ParamId where
  layerIdx : ℕ
  adapterId : ℕ
  point : LoRAInjectionPoint
  isA : Bool
deriving DecidableEq

def ParamId.isBMatrix (id : ParamId) : Bool := !id.isA

/-- What an update of one number is given beside the number, its gradient and its moments. -/
structure StepArgs where
  lr : UInt32
  beta1 : UInt32
  beta2 : UInt32
  eps : UInt32
  weightDecay : UInt32
  biasCorrection1 : UInt32
  biasCorrection2 : UInt32

abbrev Updated := UInt32 × UInt32 × UInt32

/-- The operations on `f32`, and the device's fused kernel where it has one. -/
structure FloatOps where
  add : UInt32 → UInt32 → UInt32
  sub : UInt32 → UInt32 → UInt32
  mul : UInt32 → UInt32 → UInt32
  div : UInt32 → UInt32 → UInt32
  sqrt : UInt32 → UInt32
  recip : UInt32 → UInt32
  powi : UInt32 → ℤ → UInt32
  fusedAdamwStep : Option (StepArgs → UInt32 → UInt32 → UInt32 → UInt32 → Updated)

/-- `1.0` -/
def one : UInt32 := 0x3f800000

/-- `-1.0` -/
def negOne : UInt32 := 0xbf800000

/-- `sc as i32` -/
def asI32 (sc : ℕ) : ℤ := (sc : ℤ).bmod (2 ^ 32)

/-- The fallback, a device call for each line, at one number of the tensors. -/
def componentStep (ops : FloatOps) (a : StepArgs) (data grad m v : UInt32) : Updated :=
  let mBeta1 := ops.mul m a.beta1
  let g1mb1 := ops.mul grad (ops.sub one a.beta1)
  let mNew := ops.add mBeta1 g1mb1
  let gSq := ops.mul grad grad
  let vBeta2 := ops.mul v a.beta2
  let gSq1mb2 := ops.mul gSq (ops.sub one a.beta2)
  let vNew := ops.add vBeta2 gSq1mb2
  let mHat := ops.mul mNew (ops.div one a.biasCorrection1)
  let vHat := ops.mul vNew (ops.div one a.biasCorrection2)
  let sqrtV := ops.sqrt vHat
  let denom := ops.add sqrtV a.eps
  let recipDenom := ops.recip denom
  let mDivDenom := ops.mul mHat recipDenom
  let wdW := ops.mul data a.weightDecay
  let stepGrad := ops.add mDivDenom wdW
  let lrStep := ops.mul stepGrad a.lr
  let negLrStep := ops.mul lrStep negOne
  (ops.add data negLrStep, mNew, vNew)

def adamwKernel (ops : FloatOps) : StepArgs → UInt32 → UInt32 → UInt32 → UInt32 → Updated :=
  ops.fusedAdamwStep.getD (componentStep ops)

structure Tensor where
  shape : List ℕ
  data : List UInt32
  fits : data.length = shape.prod
deriving DecidableEq

namespace Tensor

theorem ext_data {s t : Tensor} (hshape : s.shape = t.shape) (hdata : s.data = t.data) :
    s = t := by
  cases s
  cases t
  subst hshape hdata
  rfl

def fromCpu (data : List UInt32) (shape : List ℕ) : Option Tensor :=
  if h : data.length = shape.prod then some ⟨shape, data, h⟩ else none

theorem fromCpu_data (t : Tensor) : fromCpu t.data t.shape = some t := by
  rw [fromCpu, dif_pos t.fits]

/-- The tensor whose `i`-th number is `f i`. -/
def ofFn (shape : List ℕ) (f : ℕ → UInt32) : Tensor :=
  ⟨shape, (List.range shape.prod).map f, by simp⟩

def zeros (shape : List ℕ) : Tensor := ⟨shape, List.replicate shape.prod 0, by simp⟩

def update (kernel : UInt32 → UInt32 → UInt32 → UInt32 → Updated) (data grad m v : Tensor) :
    Option (Tensor × Tensor × Tensor) :=
  if h : grad.shape = data.shape ∧ m.shape = data.shape ∧ v.shape = data.shape then
    let out := List.zipWith (fun (dg : UInt32 × UInt32) (mv : UInt32 × UInt32) =>
      kernel dg.1 dg.2 mv.1 mv.2) (data.data.zip grad.data) (m.data.zip v.data)
    have hout : out.length = data.shape.prod := by
      simp only [out, List.length_zipWith, List.length_zip, data.fits, grad.fits, m.fits, v.fits,
        h.1, h.2.1, h.2.2, min_self]
    some (⟨data.shape, out.map (·.1), by rw [List.length_map, hout]⟩,
      ⟨data.shape, out.map (·.2.1), by rw [List.length_map, hout]⟩,
      ⟨data.shape, out.map (·.2.2), by rw [List.length_map, hout]⟩)
  else none

theorem update_shapes (kernel : UInt32 → UInt32 → UInt32 → UInt32 → Updated)
    {data grad m v : Tensor} (hgrad : grad.shape = data.shape) (hm : m.shape = data.shape)
    (hv : v.shape = data.shape) : ∃ out, update kernel data grad m v = some out ∧
      out.1.shape = data.shape ∧ out.2.1.shape = data.shape ∧ out.2.2.shape = data.shape := by
  rw [update, dif_pos ⟨hgrad, hm, hv⟩]
  exact ⟨_, rfl, rfl, rfl, rfl⟩

end Tensor

structure TrainableParam where
  data : Tensor
  grad : Tensor
  frozen : Bool

def TrainableParam.zeroGrad (p : TrainableParam) : TrainableParam :=
  { p with grad := .zeros p.grad.shape }

structure TrainableParams where
  ids : List ParamId
  nodup : ids.Nodup
  param : ParamId → TrainableParam

def TrainableParams.set (ps : TrainableParams) (id : ParamId) (p : TrainableParam) :
    TrainableParams :=
  { ps with param := Function.update ps.param id p }

/-- The gradients a training step leaves in the registry, each of its parameter's shape. -/
def TrainableParams.withGrads (ps : TrainableParams) (g : ParamId → ℕ → UInt32) :
    TrainableParams :=
  { ps with param := fun id =>
      { ps.param id with grad := .ofFn (ps.param id).data.shape (g id) } }

structure AdamWConfig where
  lr : UInt32 := 0x3951b717 -- 2e-4
  beta1 : UInt32 := 0x3f666666 -- 0.9
  beta2 : UInt32 := 0x3f7fbe77 -- 0.999
  eps : UInt32 := 0x322bcc77 -- 1e-8
  weightDecay : UInt32 := 0x3c23d70a -- 0.01
  loraPlusRatio : UInt32 := 0x3f800000 -- 1.0
deriving DecidableEq

def AdamWConfig.default : AdamWConfig := {}

structure AdamW where
  config : AdamWConfig
  stepCount : ℕ
  m : ParamId → Option Tensor
  v : ParamId → Option Tensor
  paramSteps : ParamId → Option ℕ

def biasCorrections (ops : FloatOps) (config : AdamWConfig) (sc : ℕ) : UInt32 × UInt32 :=
  (ops.sub one (ops.powi config.beta1 (asI32 sc)), ops.sub one (ops.powi config.beta2 (asI32 sc)))

def stepArgs (ops : FloatOps) (config : AdamWConfig) (id : ParamId) (sc : ℕ) : StepArgs where
  lr := if id.isBMatrix then ops.mul config.lr config.loraPlusRatio else config.lr
  beta1 := config.beta1
  beta2 := config.beta2
  eps := config.eps
  weightDecay := config.weightDecay
  biasCorrection1 := (biasCorrections ops config sc).1
  biasCorrection2 := (biasCorrections ops config sc).2

namespace AdamW

def new (config : AdamWConfig) : AdamW where
  config := config
  stepCount := 0
  m := fun _ => none
  v := fun _ => none
  paramSteps := fun _ => none

def stepParam (ops : FloatOps) (o : AdamW) (id : ParamId) (p : TrainableParam) :
    Option (AdamW × TrainableParam) :=
  if p.frozen then some (o, p.zeroGrad)
  else
    let sc := (o.paramSteps id).getD 0 + 1
    let m := (o.m id).getD (.zeros p.data.shape)
    let v := (o.v id).getD (.zeros p.data.shape)
    (Tensor.update (adamwKernel ops (stepArgs ops o.config id sc)) p.data p.grad m v).map fun out =>
      ({ o with
          m := Function.update o.m id (some out.2.1)
          v := Function.update o.v id (some out.2.2)
          paramSteps := Function.update o.paramSteps id (some sc) },
        { p with data := out.1 })

def stepAt (ops : FloatOps) (s : AdamW × TrainableParams) (id : ParamId) :
    Option (AdamW × TrainableParams) :=
  (stepParam ops s.1 id (s.2.param id)).map fun r => (r.1, s.2.set id r.2)

theorem stepAt_of_some {ops : FloatOps} {o o' : AdamW} {ps : TrainableParams} {id : ParamId}
    {p : TrainableParam} (h : stepParam ops o id (ps.param id) = some (o', p)) :
    stepAt ops (o, ps) id = some (o', ps.set id p) := by rw [stepAt, h]; rfl

def step (ops : FloatOps) (o : AdamW) (ps : TrainableParams) : Option (AdamW × TrainableParams) :=
  ps.ids.foldlM (stepAt ops) ({ o with stepCount := o.stepCount + 1 }, ps)

def run (ops : FloatOps) (s : AdamW × TrainableParams) (gs : List (ParamId → ℕ → UInt32)) :
    Option (AdamW × TrainableParams) :=
  gs.foldlM (fun s g => step ops s.1 (s.2.withGrads g)) s

end AdamW

structure Cell where
  param : TrainableParam
  m : Option Tensor
  v : Option Tensor
  steps : ℕ

instance : Nonempty Cell := ⟨⟨⟨.zeros [], .zeros [], false⟩, none, none, 0⟩⟩

def cell (s : AdamW × TrainableParams) (id : ParamId) : Cell :=
  ⟨s.2.param id, s.1.m id, s.1.v id, (s.1.paramSteps id).getD 0⟩

namespace Cell

def firstMoment (c : Cell) : Tensor := c.m.getD (.zeros c.param.data.shape)

def secondMoment (c : Cell) : Tensor := c.v.getD (.zeros c.param.data.shape)

def step (ops : FloatOps) (config : AdamWConfig) (id : ParamId) (c : Cell) : Option Cell :=
  if c.param.frozen then some { c with param := c.param.zeroGrad }
  else
    (Tensor.update (adamwKernel ops (stepArgs ops config id (c.steps + 1))) c.param.data
      c.param.grad c.firstMoment c.secondMoment).map fun out =>
        ⟨{ c.param with data := out.1 }, some out.2.1, some out.2.2, c.steps + 1⟩

theorem step_frozen {c : Cell} (h : c.param.frozen = true) (ops : FloatOps)
    (config : AdamWConfig) (id : ParamId) :
    c.step ops config id = some { c with param := c.param.zeroGrad } := by rw [step, if_pos h]

theorem step_trained {c : Cell} (h : ¬c.param.frozen = true) (ops : FloatOps)
    (config : AdamWConfig) (id : ParamId) :
    c.step ops config id = (Tensor.update (adamwKernel ops (stepArgs ops config id (c.steps + 1)))
      c.param.data c.param.grad c.firstMoment c.secondMoment).map fun out =>
        ⟨{ c.param with data := out.1 }, some out.2.1, some out.2.2, c.steps + 1⟩ := by
  rw [step, if_neg h]

def withGrad (c : Cell) (g : ℕ → UInt32) : Cell :=
  { c with param := { c.param with grad := .ofFn c.param.data.shape g } }

structure Sized (c : Cell) : Prop where
  m : ∀ t, c.m = some t → t.shape = c.param.data.shape
  v : ∀ t, c.v = some t → t.shape = c.param.data.shape

end Cell

def kept (s : AdamW × TrainableParams) : AdamWConfig × List ParamId := (s.1.config, s.2.ids)

theorem stepAt_local (ops : FloatOps) : Sweep.Local cell kept (AdamW.stepAt ops)
    fun r id c => c.step ops r.1 id where
  step := by
    rintro ⟨o, ps⟩ id c h
    by_cases hfrozen : (ps.param id).frozen
    · rw [Cell.step_frozen hfrozen] at h
      obtain rfl := Option.some.inj h
      refine ⟨(o, ps.set id (ps.param id).zeroGrad), ?_, rfl, ?_, fun j hj => ?_⟩
      · simp [AdamW.stepAt, AdamW.stepParam, hfrozen]
      · simp [cell, TrainableParams.set]
      · simp [cell, TrainableParams.set, hj]
    · rw [Cell.step_trained hfrozen] at h
      obtain ⟨out, hout, rfl⟩ := Option.map_eq_some_iff.1 h
      have hparam : AdamW.stepParam ops o id (ps.param id) = some
          ({ o with
              m := Function.update o.m id (some out.2.1)
              v := Function.update o.v id (some out.2.2)
              paramSteps := Function.update o.paramSteps id
                (some ((o.paramSteps id).getD 0 + 1)) },
            { ps.param id with data := out.1 }) := by
        rw [AdamW.stepParam, if_neg hfrozen]
        exact Option.map_eq_some_iff.2 ⟨out, hout, rfl⟩
      refine ⟨_, AdamW.stepAt_of_some hparam, rfl, ?_, fun j hj => ?_⟩
      · simp [cell, TrainableParams.set]
      · simp [cell, TrainableParams.set, hj]

theorem Cell.Sized.step (ops : FloatOps) (config : AdamWConfig) (id : ParamId) {c : Cell}
    (h : c.Sized) (hgrad : c.param.grad.shape = c.param.data.shape) :
    ∃ c', c.step ops config id = some c' ∧ c'.Sized := by
  have hm : c.firstMoment.shape = c.param.data.shape := by
    rw [Cell.firstMoment]
    rcases hm : c.m with _ | t
    · rfl
    · exact h.m t hm
  have hv : c.secondMoment.shape = c.param.data.shape := by
    rw [Cell.secondMoment]
    rcases hv : c.v with _ | t
    · rfl
    · exact h.v t hv
  by_cases hfrozen : c.param.frozen
  · exact ⟨_, Cell.step_frozen hfrozen ops config id, h.m, h.v⟩
  · obtain ⟨out, hout, hdata, hm', hv'⟩ := Tensor.update_shapes
      (adamwKernel ops (stepArgs ops config id (c.steps + 1))) hgrad hm hv
    rw [Cell.step_trained hfrozen, hout]
    refine ⟨_, rfl, fun t ht => ?_, fun t ht => ?_⟩
    · cases ht
      exact hm'.trans hdata.symm
    · cases ht
      exact hv'.trans hdata.symm

namespace AdamW

variable {ops : FloatOps} {s : AdamW × TrainableParams}

theorem step_cells {c : ParamId → Cell}
    (h : ∀ id ∈ s.2.ids, (cell s id).step ops s.1.config id = some (c id)) :
    ∃ s', step ops s.1 s.2 = some s' ∧ kept s' = kept s ∧ ∀ id ∈ s.2.ids, cell s' id = c id := by
  obtain ⟨s', hrun, hkept, hcells, _⟩ := (stepAt_local ops).sweep
    (s := ({ s.1 with stepCount := s.1.stepCount + 1 }, s.2)) s.2.nodup h
  exact ⟨s', hrun, hkept, hcells⟩

end AdamW

end Grim.Autograd
