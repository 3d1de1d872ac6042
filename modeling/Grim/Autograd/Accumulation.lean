import Grim.Autograd.Backward
import Mathlib.Algebra.BigOperators.Group.Finset.Basic
import Mathlib.Algebra.Module.Rat

/-!
# Accumulating gradients

The training loop zeroes the gradient buffers, adds the gradients of a micro-step's backward passes
to them and, after every `accumulation_steps` micro-steps, steps the optimizer.  A pass is the
gradient it adds, a vector over the rational numbers; the supervised modes scale it by the number of
micro-steps.
-/

namespace Grim.Autograd

open List

inductive TrainingMode
  | lora | qLoRA | bf16Full | rsLora | dora | loftQ | orpo | dpo | kto | simPo | grpo | soulEater
  | omniGrad | scythe1 | vllmOpt | omniloPrune | turboFinetune | kvOmni | spectralQLoRA
  | contrastOmni | compressDistill
deriving DecidableEq

def TrainingMode.isPreference : TrainingMode → Bool
  | .dpo | .orpo | .kto | .simPo | .grpo => true
  | _ => false

variable {V : Type} [AddCommGroup V]

/-- `accumulate_grad` -/
def GradBuffer.add (p : GradBuffer V) (g : V) : GradBuffer V :=
  if p.frozen then p else { p with grad := p.grad + g }

def GradBuffer.zeroGrad (p : GradBuffer V) : GradBuffer V := { p with grad := 0 }

/-- The registry and the count of updates; `seen` is what `optimizer.step` has been given. -/
structure Worker (V : Type) where
  params : ParamId → Option (GradBuffer V)
  stepCounter : ℕ
  seen : List (ParamId → Option V)

namespace Worker

/-- `zero_all_grads` -/
def zeroGrads (w : Worker V) : Worker V :=
  { w with params := fun id => (w.params id).map GradBuffer.zeroGrad }

/-- A backward pass that comes to the gradient `g`. -/
def backward (w : Worker V) (g : ParamId → V) : Worker V :=
  { w with params := fun id => (w.params id).map fun p => p.add (g id) }

def optimizerStep (w : Worker V) : Worker V :=
  { w with
    stepCounter := w.stepCounter + 1
    seen := w.seen ++ [fun id => (w.params id).map GradBuffer.grad] }

variable [Module ℚ V]

/-- `scale_backward`, which the supervised modes apply to the loss's gradient. -/
def passGrad (mode : TrainingMode) (k : ℕ) (g : ParamId → V) : ParamId → V :=
  if mode.isPreference then g else fun id => (1 / k : ℚ) • g id

/-- A micro-step with its backward passes, one for the loss or one for each answer of a pair. -/
def microStep (mode : TrainingMode) (k microStep : ℕ) (passes : List (ParamId → V))
    (w : Worker V) : Worker V :=
  let w := passes.foldl (fun w g => w.backward (passGrad mode k g)) w.zeroGrads
  if (microStep + 1) % k = 0 then w.optimizerStep.zeroGrads else w

def runFrom (mode : TrainingMode) (k : ℕ) : ℕ → List (List (ParamId → V)) → Worker V → Worker V
  | _, [], w => w
  | m, passes :: batches, w => runFrom mode k (m + 1) batches (w.microStep mode k m passes)

def run (mode : TrainingMode) (accumulationSteps : ℕ) (batches : List (List (ParamId → V)))
    (params : ParamId → Option (GradBuffer V)) (stepCounter : ℕ) : Worker V :=
  runFrom mode (max accumulationSteps 1) 0 batches ⟨params, stepCounter, []⟩

end Worker

theorem GradBuffer.foldl_add {ι : Type} (f : ι → V) {p : GradBuffer V} (h : p.frozen = false) :
    ∀ passes : List ι, (passes.foldl (fun p g => p.add (f g)) p).grad =
      p.grad + (passes.map f).sum
  | [] => (add_zero _).symm
  | g :: passes => by
    have hadd : p.add (f g) = { p with grad := p.grad + f g } := by
      rw [add, h]
      rfl
    have hfrozen : (p.add (f g)).frozen = false := by rw [hadd]; exact h
    rw [foldl_cons, foldl_add f hfrozen, hadd, map_cons, sum_cons, add_assoc]

theorem GradBuffer.foldl_add_frozen {ι : Type} (f : ι → V) : ∀ (passes : List ι)
    (p : GradBuffer V), (passes.foldl (fun p g => p.add (f g)) p).frozen = p.frozen
  | [], _ => rfl
  | g :: passes, p => by
    have hadd : (p.add (f g)).frozen = p.frozen := by
      rw [add]
      split_ifs <;> rfl
    rw [foldl_cons, foldl_add_frozen f passes, hadd]

def gradient (batches : List (List (ParamId → V))) (m : ℕ) (id : ParamId) : V :=
  ((batches.getD m []).map fun g => g id).sum

def added [Module ℚ V] (mode : TrainingMode) (k : ℕ) (batches : List (List (ParamId → V))) (m : ℕ)
    (id : ParamId) : V :=
  if mode.isPreference then gradient batches m id else (1 / k : ℚ) • gradient batches m id

namespace Worker

theorem foldl_backward {ι : Type} (f : ι → ParamId → V) : ∀ (passes : List ι) (w : Worker V),
    passes.foldl (fun w g => w.backward (f g)) w =
      { w with params := fun id =>
          (w.params id).map fun p => passes.foldl (fun p g => p.add (f g id)) p }
  | [], w => by simp
  | g :: passes, w => by
    rw [foldl_cons, foldl_backward f passes]
    simp [backward, Function.comp_def]

variable [Module ℚ V]

theorem sum_passGrad (mode : TrainingMode) (k : ℕ) (batches : List (List (ParamId → V))) (m : ℕ)
    (id : ParamId) : ((batches.getD m []).map fun g => passGrad mode k g id).sum =
      added mode k batches m id := by
  simp only [passGrad, added, gradient]
  split_ifs
  · rfl
  · rw [smul_sum, map_map]
    rfl

/-- The worker between micro-steps: the optimizer has been given, after each window, what its last
micro-step has left. -/
structure Stepped (mode : TrainingMode) (k : ℕ) (batches : List (List (ParamId → V)))
    (params : ParamId → Option (GradBuffer V)) (m : ℕ) (w : Worker V) : Prop where
  frozen : ∀ id, (w.params id).map GradBuffer.frozen = (params id).map GradBuffer.frozen
  length : w.seen.length = m / k
  seen : ∀ (i : ℕ) g, w.seen[i]? = some g → ∀ id p, params id = some p → p.frozen = false →
    g id = some (added mode k batches (i * k + (k - 1)) id)

variable {mode : TrainingMode} {k m : ℕ} {batches : List (List (ParamId → V))}
  {params : ParamId → Option (GradBuffer V)} {w : Worker V}

theorem grad_of_passes (h : Stepped mode k batches params m w) (id : ParamId) (p : GradBuffer V)
    (hp : params id = some p) (hfrozen : p.frozen = false) :
    (((batches.getD m []).foldl (fun w g => w.backward (passGrad mode k g)) w.zeroGrads).params
      id).map GradBuffer.grad = some (added mode k batches m id) := by
  have hw := h.frozen id
  rw [hp, Option.map_some, hfrozen, Option.map_eq_some_iff] at hw
  obtain ⟨q, hq, hqf⟩ := hw
  have hzero : q.zeroGrad.frozen = false := hqf
  have hgrad := GradBuffer.foldl_add (fun g : ParamId → V => passGrad mode k g id) hzero
    (batches.getD m [])
  rw [sum_passGrad] at hgrad
  rw [foldl_backward]
  simp only [zeroGrads, hq, Option.map_some]
  rw [hgrad]
  exact congrArg some (zero_add _)

theorem frozen_of_passes (h : Stepped mode k batches params m w) (passes : List (ParamId → V))
    (id : ParamId) :
    ((passes.foldl (fun w g => w.backward (passGrad mode k g)) w.zeroGrads).params
      id).map GradBuffer.frozen = (params id).map GradBuffer.frozen := by
  rw [← h.frozen id, foldl_backward]
  simp only [zeroGrads, Option.map_map]
  refine congrArg (fun f => (w.params id).map f) (funext fun p => ?_)
  exact GradBuffer.foldl_add_frozen _ _ _

theorem eq_of_succ_mod (hk : 0 < k) (h : (m + 1) % k = 0) :
    (m + 1) / k = m / k + 1 ∧ m = m / k * k + (k - 1) := by
  have hdiv : (m + 1) / k = m / k + 1 := by
    rw [Nat.succ_div, if_pos (Nat.dvd_of_mod_eq_zero h)]
  have hmul := Nat.div_mul_cancel (Nat.dvd_of_mod_eq_zero h)
  rw [hdiv, Nat.add_mul, Nat.one_mul] at hmul
  exact ⟨hdiv, by omega⟩

theorem Stepped.microStep (h : Stepped mode k batches params m w) (hk : 0 < k)
    (passes : List (ParamId → V)) (hm : batches.getD m [] = passes) :
    Stepped mode k batches params (m + 1) (w.microStep mode k m passes) := by
  subst hm
  have hfrozen := frozen_of_passes h (batches.getD m [])
  have hgrad := grad_of_passes h
  have hseen : ((batches.getD m []).foldl (fun w g => w.backward (passGrad mode k g))
      w.zeroGrads).seen = w.seen := by rw [foldl_backward]; rfl
  rw [Worker.microStep]
  generalize (batches.getD m []).foldl (fun w g => w.backward (passGrad mode k g)) w.zeroGrads = w'
    at hfrozen hgrad hseen ⊢
  split_ifs with hlast
  · obtain ⟨hdiv, hm⟩ := eq_of_succ_mod hk hlast
    refine ⟨fun id => ?_, ?_, fun i g hg id p hp hpf => ?_⟩
    · rw [← hfrozen id]
      simp only [zeroGrads, optimizerStep, Option.map_map]
      rfl
    · simp only [zeroGrads, optimizerStep, hseen, length_append, h.length, hdiv,
        length_singleton]
    · simp only [zeroGrads, optimizerStep, hseen, getElem?_append] at hg
      split_ifs at hg with hi
      · exact h.seen i g hg id p hp hpf
      · obtain ⟨hi', rfl⟩ := List.getElem?_eq_some_iff.1 hg
        rw [length_singleton] at hi'
        have heq : i = m / k := by rw [← h.length]; omega
        simp only [getElem_singleton]
        rw [hgrad id p hp hpf, heq, ← hm]
  · have hdiv : (m + 1) / k = m / k := by
      rw [Nat.succ_div, if_neg fun hdvd => hlast (Nat.mod_eq_zero_of_dvd hdvd), Nat.add_zero]
    refine ⟨hfrozen, ?_, fun i g hg id p hp hpf => ?_⟩
    · rw [hseen, h.length, hdiv]
    · rw [hseen] at hg
      exact h.seen i g hg id p hp hpf

theorem stepped_runFrom (hk : 0 < k) : ∀ (rest : List (List (ParamId → V))) (m : ℕ) (w : Worker V),
    rest = batches.drop m → Stepped mode k batches params m w →
      Stepped mode k batches params (m + rest.length) (runFrom mode k m rest w)
  | [], _, _, _, h => h
  | passes :: rest, m, w, hrest, h => by
    have hm : batches.getD m [] = passes := by
      rw [getD_eq_getElem?_getD, ← head?_drop, ← hrest]
      rfl
    have hnext : rest = batches.drop (m + 1) := by
      rw [← tail_drop, ← hrest]
      rfl
    have hall := stepped_runFrom hk rest (m + 1) _ hnext (h.microStep hk passes hm)
    rw [length_cons, Nat.add_comm rest.length 1, ← Nat.add_assoc]
    exact hall

theorem stepped_run (mode : TrainingMode) (accumulationSteps : ℕ)
    (batches : List (List (ParamId → V))) (params : ParamId → Option (GradBuffer V))
    (stepCounter : ℕ) : Stepped mode (max accumulationSteps 1) batches params batches.length
      (run mode accumulationSteps batches params stepCounter) := by
  have hstart : Stepped mode (max accumulationSteps 1) batches params 0 ⟨params, stepCounter, []⟩ :=
    ⟨fun _ => rfl, (Nat.zero_div _).symm, fun i g hg => by simp at hg⟩
  have hall := stepped_runFrom (by omega) batches 0 _ rfl hstart
  rwa [Nat.zero_add] at hall

/-- The mean of the gradients of the `i`-th window. -/
def windowMean (k : ℕ) (batches : List (List (ParamId → V))) (i : ℕ) (id : ParamId) : V :=
  (1 / k : ℚ) • ∑ j ∈ Finset.range k, gradient batches (i * k + j) id

/-- The optimizer's `i`-th step is given the mean of the `i`-th window. -/
def SeesMean (mode : TrainingMode) (accumulationSteps : ℕ) (batches : List (List (ParamId → V)))
    (params : ParamId → Option (GradBuffer V)) (stepCounter i : ℕ) : Prop :=
  ∃ g, (run mode accumulationSteps batches params stepCounter).seen[i]? = some g ∧
    ∀ id p, params id = some p → p.frozen = false →
      g id = some (windowMean (max accumulationSteps 1) batches i id)

theorem SeesMean.added_eq {accumulationSteps stepCounter i : ℕ} {p : GradBuffer V}
    (h : SeesMean mode accumulationSteps batches params stepCounter i) (id : ParamId)
    (hp : params id = some p) (hpf : p.frozen = false) :
    added mode (max accumulationSteps 1) batches
      (i * max accumulationSteps 1 + (max accumulationSteps 1 - 1)) id =
        windowMean (max accumulationSteps 1) batches i id := by
  obtain ⟨g, hg, hmean⟩ := h
  have hrun := stepped_run mode accumulationSteps batches params stepCounter
  exact Option.some.inj ((hrun.seen i g hg id p hp hpf).symm.trans (hmean id p hp hpf))

/-- The micro-steps of a window before its last one contribute nothing, in the supervised modes, and
in the others on average what the last one does. -/
def Balanced (mode : TrainingMode) (k : ℕ) (batches : List (List (ParamId → V))) (i : ℕ)
    (id : ParamId) : Prop :=
  ∑ j ∈ Finset.range (k - 1), gradient batches (i * k + j) id =
    if mode.isPreference then (k - 1) • gradient batches (i * k + (k - 1)) id else 0

theorem added_eq_mean_iff (hk : 0 < k) (i : ℕ) (id : ParamId) :
    added mode k batches (i * k + (k - 1)) id = windowMean k batches i id ↔
      Balanced mode k batches i id := by
  obtain ⟨n, rfl⟩ : ∃ n, k = n + 1 := ⟨k - 1, by omega⟩
  have hne : ((n + 1 : ℕ) : ℚ) ≠ 0 := Nat.cast_ne_zero.2 (Nat.succ_ne_zero n)
  rw [added, windowMean, Balanced, Nat.add_sub_cancel, Finset.sum_range_succ, one_div]
  split_ifs
  · rw [eq_inv_smul_iff₀ hne, Nat.cast_smul_eq_nsmul, succ_nsmul, add_left_inj, eq_comm]
  · rw [smul_right_inj (inv_ne_zero hne), right_eq_add]

/-- A step is given the mean of its window exactly when the window is complete and, at every
trainable parameter, the micro-steps before the last one are as if they had been left out. -/
theorem seesMean_iff (mode : TrainingMode) (accumulationSteps : ℕ)
    (batches : List (List (ParamId → V))) (params : ParamId → Option (GradBuffer V))
    (stepCounter i : ℕ) : SeesMean mode accumulationSteps batches params stepCounter i ↔
      i < batches.length / max accumulationSteps 1 ∧ ∀ id p, params id = some p →
        p.frozen = false → Balanced mode (max accumulationSteps 1) batches i id := by
  have h := stepped_run mode accumulationSteps batches params stepCounter
  have hk : 0 < max accumulationSteps 1 := by omega
  constructor
  · intro hsees
    refine ⟨?_, fun id p hp hpf => ?_⟩
    · obtain ⟨g, hg, -⟩ := hsees
      rw [← h.length]
      exact (List.getElem?_eq_some_iff.1 hg).1
    · rw [← added_eq_mean_iff hk]
      exact hsees.added_eq id hp hpf
  · rintro ⟨hi, hbalanced⟩
    rw [← h.length] at hi
    refine ⟨_, getElem?_eq_getElem hi, fun id p hp hpf => ?_⟩
    rw [h.seen i _ (getElem?_eq_getElem hi) id p hp hpf,
      (added_eq_mean_iff hk i id).2 (hbalanced id p hp hpf)]

/-- Two micro-steps whose gradients are one and three: the optimizer is given the half of three, and
with preferences three. -/
theorem optimizer_forgets_first :
    ¬SeesMean .lora 2 [[fun _ => (1 : ℚ)], [fun _ => 3]] (fun _ => some ⟨0, false⟩) 0 0 ∧
      ¬SeesMean .dpo 2 [[fun _ => (1 : ℚ)], [fun _ => 3]] (fun _ => some ⟨0, false⟩) 0 0 := by
  constructor
  · intro h
    have heq := h.added_eq ⟨0, 0, .qProj, true⟩ rfl rfl
    norm_num [added, windowMean, gradient, TrainingMode.isPreference, Finset.sum_range_succ] at heq
  · intro h
    have heq := h.added_eq ⟨0, 0, .qProj, true⟩ rfl rfl
    norm_num [added, windowMean, gradient, TrainingMode.isPreference, Finset.sum_range_succ] at heq

end Worker

end Grim.Autograd
