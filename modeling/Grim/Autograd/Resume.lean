import Grim.Autograd.Checkpoint
import Grim.Lib.FloatFormat

/-!
# Resuming from a checkpoint

A load leaves the update counts of the parameters at zero; and the A and the B matrix of a place
share one slot for each moment.  So the resumed run takes the steps of the uninterrupted one when
the corrections of the lost counts are those of fresh ones and the shared slots hold what both
matrices need (`Restorable`).
-/

namespace Grim.Autograd

variable {ops : FloatOps} {config : AdamWConfig}

/-- From the one count on, the bias corrections are those from the other on. -/
def SameCorrections (ops : FloatOps) (config : AdamWConfig) (n n' : ℕ) : Prop :=
  ∀ t, 0 < t → biasCorrections ops config (n + t) = biasCorrections ops config (n' + t)

theorem SameCorrections.succ {n n' : ℕ} (h : SameCorrections ops config n n') :
    SameCorrections ops config (n + 1) (n' + 1) := by
  intro t ht
  have := h (1 + t) (by omega)
  rwa [← add_assoc, ← add_assoc] at this

theorem stepArgs_congr {id : ParamId} {n n' : ℕ}
    (h : biasCorrections ops config n = biasCorrections ops config n') :
    stepArgs ops config id n = stepArgs ops config id n' := by rw [stepArgs, stepArgs, h]

/-- Two states of a parameter that later gradients cannot tell apart. -/
structure Cell.Agrees (ops : FloatOps) (config : AdamWConfig) (c c' : Cell) : Prop where
  sized : c.Sized
  sized' : c'.Sized
  data : c'.param.data = c.param.data
  frozen : c'.param.frozen = c.param.frozen
  first : ¬c.param.frozen = true → c'.firstMoment = c.firstMoment
  second : ¬c.param.frozen = true → c'.secondMoment = c.secondMoment
  counts : ¬c.param.frozen = true → SameCorrections ops config c'.steps c.steps

theorem Cell.Agrees.withGrad {c c' : Cell} (h : c.Agrees ops config c') (g : ℕ → UInt32) :
    (c.withGrad g).Agrees ops config (c'.withGrad g) :=
  ⟨⟨h.sized.m, h.sized.v⟩, ⟨h.sized'.m, h.sized'.v⟩, h.data, h.frozen, h.first, h.second, h.counts⟩

theorem Cell.Agrees.step {c c' : Cell} (h : c.Agrees ops config c') (id : ParamId)
    (hshape : c.param.grad.shape = c.param.data.shape) (hgrad : c'.param.grad = c.param.grad) :
    ∃ d d', c.step ops config id = some d ∧ c'.step ops config id = some d' ∧
      d.Agrees ops config d' := by
  have hshape' : c'.param.grad.shape = c'.param.data.shape := by rw [hgrad, h.data, hshape]
  obtain ⟨d, hd, hsized⟩ := Cell.Sized.step ops config id h.sized hshape
  obtain ⟨d', hd', hsized'⟩ := Cell.Sized.step ops config id h.sized' hshape'
  refine ⟨d, d', hd, hd', ?_⟩
  by_cases hfrozen : c.param.frozen = true
  · have hfrozen' : c'.param.frozen = true := h.frozen.trans hfrozen
    rw [Cell.step_frozen hfrozen] at hd
    rw [Cell.step_frozen hfrozen'] at hd'
    obtain rfl := Option.some.inj hd
    obtain rfl := Option.some.inj hd'
    exact ⟨hsized, hsized', h.data, h.frozen, fun hf => absurd hfrozen hf,
      fun hf => absurd hfrozen hf, fun hf => absurd hfrozen hf⟩
  · have hfrozen' : ¬c'.param.frozen = true := h.frozen ▸ hfrozen
    have hargs : stepArgs ops config id (c'.steps + 1) = stepArgs ops config id (c.steps + 1) :=
      stepArgs_congr (h.counts hfrozen 1 (by omega))
    rw [Cell.step_trained hfrozen] at hd
    rw [Cell.step_trained hfrozen', hargs, h.data, hgrad, h.first hfrozen, h.second hfrozen] at hd'
    obtain ⟨out, hout, rfl⟩ := Option.map_eq_some_iff.1 hd
    obtain ⟨out', hout', rfl⟩ := Option.map_eq_some_iff.1 hd'
    obtain rfl : out = out' := Option.some.inj (hout.symm.trans hout')
    exact ⟨hsized, hsized', rfl, h.frozen, fun _ => rfl, fun _ => rfl,
      fun hf => (h.counts hfrozen).succ⟩

/-- The two optimizers keep alike everything that later steps read. -/
structure Follows (ops : FloatOps) (s s' : AdamW × TrainableParams) : Prop where
  config : s'.1.config = s.1.config
  ids : ∀ id, id ∈ s'.2.ids ↔ id ∈ s.2.ids
  cells : ∀ id ∈ s.2.ids, (cell s id).Agrees ops s.1.config (cell s' id)

theorem Follows.refl (ops : FloatOps) {s : AdamW × TrainableParams}
    (h : ∀ id ∈ s.2.ids, (cell s id).Sized) :
    Follows ops s s :=
  ⟨rfl, fun _ => Iff.rfl, fun id hid =>
    ⟨h id hid, h id hid, rfl, rfl, fun _ => rfl, fun _ => rfl, fun _ _ _ => rfl⟩⟩

theorem Follows.step {s s' : AdamW × TrainableParams} (h : Follows ops s s')
    (g : ParamId → ℕ → UInt32) : ∃ t t', AdamW.step ops s.1 (s.2.withGrads g) = some t ∧
      AdamW.step ops s'.1 (s'.2.withGrads g) = some t' ∧ Follows ops t t' ∧ kept t = kept s := by
  have hboth : ∀ id ∈ s.2.ids, ∃ d d',
      ((cell s id).withGrad (g id)).step ops s.1.config id = some d ∧
        ((cell s' id).withGrad (g id)).step ops s.1.config id = some d' ∧
          d.Agrees ops s.1.config d' := fun id hid => by
    refine ((h.cells id hid).withGrad (g id)).step id rfl ?_
    simp only [Cell.withGrad, (h.cells id hid).data]
  choose! d d' hd hd' hagrees using hboth
  obtain ⟨t, hstep, hkept, hcells⟩ :=
    AdamW.step_cells (s := (s.1, s.2.withGrads g)) (c := d) hd
  obtain ⟨t', hstep', hkept', hcells'⟩ :=
    AdamW.step_cells (s := (s'.1, s'.2.withGrads g)) (c := d') fun id hid => by
      have := hd' id ((h.ids id).1 hid)
      rwa [← h.config] at this
  obtain ⟨hconfig, hids⟩ := Prod.mk.inj hkept
  obtain ⟨hconfig', hids'⟩ := Prod.mk.inj hkept'
  refine ⟨t, t', hstep, hstep', ⟨?_, fun id => ?_, fun id hid => ?_⟩, hkept⟩
  · rw [hconfig', hconfig]
    exact h.config
  · rw [hids', hids]
    exact h.ids id
  · rw [hids] at hid
    rw [hconfig, hcells id hid, hcells' id ((h.ids id).2 hid)]
    exact hagrees id hid

theorem Follows.run : ∀ (gs : List (ParamId → ℕ → UInt32)) {s s' : AdamW × TrainableParams},
    Follows ops s s' → ∃ t t', AdamW.run ops s gs = some t ∧ AdamW.run ops s' gs = some t' ∧
      Follows ops t t' ∧ kept t = kept s
  | [], s, s', h => ⟨s, s', rfl, rfl, h, rfl⟩
  | g :: gs, s, s', h => by
    obtain ⟨t, t', hstep, hstep', hfollows, hkept⟩ := h.step g
    obtain ⟨u, u', hrun, hrun', hend, hkept'⟩ := hfollows.run gs
    refine ⟨u, u', ?_, ?_, hend, hkept'.trans hkept⟩
    · rw [AdamW.run, List.foldlM_cons, hstep]
      exact hrun
    · rw [AdamW.run, List.foldlM_cons, hstep']
      exact hrun'

theorem sized_new (config : AdamWConfig) (start : TrainableParams) (id : ParamId) :
    (cell (AdamW.new config, start) id).Sized :=
  ⟨by simp [cell, AdamW.new], by simp [cell, AdamW.new]⟩

theorem sized_of_run {start s : AdamW × TrainableParams} {gs : List (ParamId → ℕ → UInt32)}
    (hstart : ∀ id ∈ start.2.ids, (cell start id).Sized)
    (hrun : AdamW.run ops start gs = some s) :
    kept s = kept start ∧ ∀ id ∈ s.2.ids, (cell s id).Sized := by
  obtain ⟨t, _, ht, _, hfollows, hkept⟩ := (Follows.refl ops hstart).run gs
  obtain rfl := Option.some.inj (ht.symm.trans hrun)
  exact ⟨hkept, fun id hid => (hfollows.cells id hid).sized⟩

def ParamId.partner (id : ParamId) : ParamId := { id with isA := !id.isA }

structure Like (ps target : TrainableParams) : Prop where
  ids : ∀ id, id ∈ target.ids ↔ id ∈ ps.ids
  shape : ∀ id ∈ ps.ids, (target.param id).data.shape = (ps.param id).data.shape
  frozen : ∀ id ∈ ps.ids, (target.param id).frozen = (ps.param id).frozen

theorem Like.refl (ps : TrainableParams) : Like ps ps :=
  ⟨fun _ => Iff.rfl, fun _ _ => rfl, fun _ _ => rfl⟩

/-- The other matrix's moment can stand for the parameter's own: it has as many numbers, and the
same ones unless the parameter is frozen. -/
def StandsFor (c : Cell) (own other : Tensor) : Prop :=
  other.data.length = c.param.data.data.length ∧
    (¬c.param.frozen = true → other.data = own.data)

/-- What a checkpoint loses does not matter: of the parameters that are trained, the update counts
are worth no more than none, and of the two matrices of a place each can take the other's moments.
-/
structure Restorable (ops : FloatOps) (o : AdamW) (ps : TrainableParams) : Prop where
  counts : ∀ id ∈ ps.ids, ¬(ps.param id).frozen = true →
    SameCorrections ops o.config ((o.paramSteps id).getD 0) 0
  first : ∀ id ∈ ps.ids, id.partner ∈ ps.ids → ∀ t, o.m id.partner = some t →
    StandsFor (cell (o, ps) id) (cell (o, ps) id).firstMoment t
  second : ∀ id ∈ ps.ids, id.partner ∈ ps.ids → ∀ t, o.v id.partner = some t →
    StandsFor (cell (o, ps) id) (cell (o, ps) id).secondMoment t

theorem eq_or_partner {id id' : ParamId} (h : SamePlace id' id) : id' = id ∨ id' = id.partner := by
  obtain ⟨hlayer, hadapter, hpoint⟩ := h
  rcases hA : id.isA <;> rcases hA' : id'.isA <;> cases id <;> cases id' <;>
    simp_all [ParamId.partner]

def Serves (c : Cell) (own : Tensor) (r : Option Tensor) : Prop :=
  (∀ t, r = some t → t.shape = c.param.data.shape) ∧
    (¬c.param.frozen = true → r.getD (.zeros c.param.data.shape) = own)

theorem loaded_moment {load : List ℕ → Option (Option Tensor)} {ps : TrainableParams} {c : Cell}
    {id : ParamId} {moment : ParamId → Option Tensor}
    (hsized : ∀ t, moment id = some t → t.shape = c.param.data.shape)
    (hpartner : id.partner ∈ ps.ids → ∀ t, moment id.partner = some t →
      StandsFor c ((moment id).getD (.zeros c.param.data.shape)) t)
    (hsaved : (∃ id' ∈ ps.ids, SamePlace id' id ∧ ∃ t, moment id' = some t ∧
        ∀ u : Tensor, u.data = t.data → load u.shape = some (some u)) ∨
      moment id = none ∧ ∀ shape, load shape = some none) :
    ∃ r, load c.param.data.shape = some r ∧
      Serves c ((moment id).getD (.zeros c.param.data.shape)) r := by
  rcases hsaved with ⟨id', hid', hplace, t, ht, hload⟩ | ⟨hnone, hload⟩
  · rcases eq_or_partner hplace with rfl | rfl
    · refine ⟨some t, ?_, fun u hu => ?_, fun _ => by rw [ht]⟩
      · rw [← hsized t ht]
        exact hload t rfl
      · cases hu
        exact hsized t ht
    · obtain ⟨hlength, hsame⟩ := hpartner hid' t ht
      have hfits := hlength.trans c.param.data.fits
      refine ⟨_, hload ⟨c.param.data.shape, t.data, hfits⟩ rfl, fun u hu => by cases hu; rfl,
        fun hf => ?_⟩
      refine Tensor.ext_data ?_ (hsame hf)
      rcases hown : moment id with _ | own
      · rfl
      · exact (hsized own hown).symm
  · exact ⟨none, hload _, by simp, fun _ => by rw [hnone]⟩

theorem agrees_restored {c c₀ : Cell} {m v : Option Tensor} (hsized : c.Sized)
    (hfresh : c₀.m = none ∧ c₀.v = none ∧ c₀.steps = 0)
    (hfrozen : c₀.param.frozen = c.param.frozen) (hm : Serves c c.firstMoment m)
    (hv : Serves c c.secondMoment v)
    (hcounts : ¬c.param.frozen = true → SameCorrections ops config c.steps 0) :
    c.Agrees ops config (c₀.restored (some c.param.data) m v) := by
  obtain ⟨hm₀, hv₀, hsteps⟩ := hfresh
  refine ⟨hsized, ⟨fun t ht => ?_, fun t ht => ?_⟩, rfl, hfrozen, fun hf => ?_, fun hf => ?_,
    fun hf t ht => ?_⟩
  · simp only [Cell.restored, hm₀, Option.or_none] at ht
    exact hm.1 t ht
  · simp only [Cell.restored, hv₀, Option.or_none] at ht
    exact hv.1 t ht
  · simp only [Cell.firstMoment, Cell.restored, hm₀, Option.or_none, Option.getD_some]
    exact hm.2 hf
  · simp only [Cell.secondMoment, Cell.restored, hv₀, Option.or_none, Option.getD_some]
    exact hv.2 hf
  · simp only [Cell.restored, hsteps]
    exact (hcounts hf t ht).symm

theorem Restorable.load {o : AdamW} {ps : TrainableParams} (h : Restorable ops o ps) {id : ParamId}
    (hid : id ∈ ps.ids) (hsized : (cell (o, ps) id).Sized) {c₀ : Cell}
    (hfresh : c₀.m = none ∧ c₀.v = none ∧ c₀.steps = 0)
    (hshape : c₀.param.data.shape = (ps.param id).data.shape)
    (hfrozen : c₀.param.frozen = (ps.param id).frozen) :
    ∃ c', c₀.load (o.saveToTrainState ps) id = some c' ∧
      (cell (o, ps) id).Agrees ops o.config c' := by
  obtain ⟨m, hloadM, hm⟩ := loaded_moment hsized.m (h.first id hid) (saved_m o hid)
  obtain ⟨v, hloadV, hv⟩ := loaded_moment hsized.v (h.second id hid) (saved_v o hid)
  refine ⟨c₀.restored (some (ps.param id).data) m v, ?_,
    agrees_restored hsized hfresh hfrozen hm hv (h.counts id hid)⟩
  have hloadM : loadSlot _ _ _ (ps.param id).data.shape = some m := hloadM
  have hloadV : loadSlot _ _ _ (ps.param id).data.shape = some v := hloadV
  simp only [Cell.load, hshape, saved_weight hid, Option.bind_eq_bind, Option.bind_some,
    Option.getD_some, hloadM, hloadV]

theorem Restorable.follows {o : AdamW} {ps target : TrainableParams}
    (h : Restorable ops o ps) (hsized : ∀ id ∈ ps.ids, (cell (o, ps) id).Sized)
    (hlike : Like ps target) :
    ∃ s', AdamW.resume o ps target = some s' ∧ Follows ops (o, ps) s' := by
  have hload : ∀ id ∈ target.ids, ∃ c',
      (cell (AdamW.new o.config, target) id).load (o.saveToTrainState ps) id = some c' ∧
        (cell (o, ps) id).Agrees ops o.config c' := fun id hid => by
    have hid := (hlike.ids id).1 hid
    exact h.load hid (hsized id hid) ⟨rfl, rfl, rfl⟩ (hlike.shape id hid) (hlike.frozen id hid)
  choose! c hload hagrees using hload
  obtain ⟨s', hrun, hkept, hcells, _⟩ := (loadAt_local (o.saveToTrainState ps)).sweep
    (s := ({ AdamW.new o.config with stepCount := (o.saveToTrainState ps).step }, target))
    target.nodup hload
  obtain ⟨hconfig, hids⟩ := Prod.mk.inj hkept
  refine ⟨s', hrun, hconfig, fun id => ?_, fun id hid => ?_⟩
  · rw [hids]
    exact hlike.ids id
  · have hid' := (hlike.ids id).2 hid
    rw [hcells id hid']
    exact hagrees id hid'

/-- The restored optimizer takes the parameters through the values they have without the restart,
whatever the gradients. -/
def GoesOnAs (ops : FloatOps) (s : AdamW × TrainableParams)
    (restored : Option (AdamW × TrainableParams)) : Prop :=
  ∃ s', restored = some s' ∧ ∀ later, ∃ t t', AdamW.run ops s later = some t ∧
    AdamW.run ops s' later = some t' ∧ ∀ id ∈ s.2.ids, (t'.2.param id).data = (t.2.param id).data

theorem Follows.goesOnAs {s s' : AdamW × TrainableParams} (h : Follows ops s s') :
    GoesOnAs ops s (some s') := by
  refine ⟨s', rfl, fun later => ?_⟩
  obtain ⟨t, t', hrun, hrun', hfollows, hkept⟩ := h.run later
  refine ⟨t, t', hrun, hrun', fun id hid => (hfollows.cells id ?_).data⟩
  rw [(Prod.mk.inj hkept).2]
  exact hid

/-- Saved after any steps and loaded, the optimizer goes on as it would have if what the checkpoint
loses does not matter; and so does a fork of the default configuration. -/
theorem goesOnAs_of_restorable {start : TrainableParams} (past : List (ParamId → ℕ → UInt32))
    {s : AdamW × TrainableParams} (hrun : AdamW.run ops (AdamW.new config, start) past = some s)
    (h : Restorable ops s.1 s.2) {target : TrainableParams} (hlike : Like s.2 target) :
    GoesOnAs ops s (s.1.resume s.2 target) ∧
      (config = { AdamWConfig.default with lr := config.lr } →
        GoesOnAs ops s (s.1.forkForRank s.2 target)) := by
  obtain ⟨hkept, hsized⟩ := sized_of_run (fun id _ => sized_new config start id) hrun
  obtain ⟨s', hresume, hfollows⟩ := h.follows hsized hlike
  have hgoes := hfollows.goesOnAs
  rw [← hresume] at hgoes
  refine ⟨hgoes, fun hdefault => ?_⟩
  have hconfig : s.1.config = config := (Prod.mk.inj hkept).1
  rwa [AdamW.forkForRank, hconfig, ← hdefault, ← hconfig]

/-- `f32` on a device without the fused kernel; a power is a product, and so for the exponents a
short run has. -/
def cpuOps : FloatOps where
  add := FloatFormat.f32Op .add
  sub := FloatFormat.f32Op .sub
  mul := FloatFormat.f32Op .mul
  div := FloatFormat.f32Op .div
  sqrt := FloatFormat.f32Sqrt
  recip := FloatFormat.f32Op .div one
  powi := fun b n => (List.replicate n.toNat b).foldl (FloatFormat.f32Op .mul) one
  fusedAdamwStep := none

def sampleTensor : Tensor := ⟨[1], [one], rfl⟩

def sampleId : ParamId := ⟨0, 0, .qProj, true⟩

/-- The two matrices of a place, of one number each, `1.0`. -/
def sampleParams : TrainableParams where
  ids := [sampleId, sampleId.partner]
  nodup := by decide
  param := fun _ => ⟨sampleTensor, sampleTensor, false⟩

def zeroParams : TrainableParams :=
  { sampleParams with param := fun _ => ⟨⟨[1], [0], rfl⟩, sampleTensor, false⟩ }

/-- Every gradient is `1.0`. -/
def sampleGrads : ParamId → ℕ → UInt32 := fun _ _ => one

/-- An optimizer that has not stepped yet. -/
theorem goesOnAs_fresh :
    let s := (AdamW.new .default, sampleParams)
    GoesOnAs cpuOps s (s.1.resume s.2 zeroParams) ∧
      (AdamWConfig.default = { AdamWConfig.default with lr := AdamWConfig.default.lr } →
        GoesOnAs cpuOps s (s.1.forkForRank s.2 zeroParams)) := by
  have hfresh : Restorable cpuOps (AdamW.new .default) sampleParams :=
    ⟨fun _ _ _ _ _ => rfl, fun _ _ _ t ht => by simp [AdamW.new] at ht,
      fun _ _ _ t ht => by simp [AdamW.new] at ht⟩
  exact goesOnAs_of_restorable [] rfl hfresh ⟨fun _ => Iff.rfl, fun _ _ => rfl, fun _ _ => rfl⟩

def sampleValue (s : AdamW × TrainableParams) : Option UInt32 := (s.2.param sampleId).data.data[0]?

/-- One step before the checkpoint and one after: the second step of the resumed run has the bias
corrections of a first one. -/
theorem not_goesOnAs_stepped : ∃ s : AdamW × TrainableParams,
    AdamW.run cpuOps (AdamW.new .default, sampleParams) [sampleGrads] = some s ∧
      Like s.2 s.2 ∧ ¬GoesOnAs cpuOps s (s.1.resume s.2 s.2) := by
  have hsteps : ((AdamW.run cpuOps (AdamW.new .default, sampleParams) [sampleGrads]).bind
      fun s => AdamW.run cpuOps s [sampleGrads]).bind sampleValue = some 0x3f7fe586 := by
    decide +kernel
  have hresumed : ((AdamW.run cpuOps (AdamW.new .default, sampleParams) [sampleGrads]).bind
      fun s => (s.1.resume s.2 s.2).bind fun s' => AdamW.run cpuOps s' [sampleGrads]).bind
        sampleValue = some 0x3f7fe104 := by decide +kernel
  rcases hrun : AdamW.run cpuOps (AdamW.new .default, sampleParams) [sampleGrads] with _ | s
  · simp [hrun] at hsteps
  · refine ⟨s, rfl, Like.refl s.2, fun ⟨s', hresume, hgoes⟩ => ?_⟩
    obtain ⟨t, t', ht, ht', hsame⟩ := hgoes [sampleGrads]
    simp only [hrun, Option.bind_some, ht] at hsteps
    simp only [hrun, Option.bind_some, hresume, ht'] at hresumed
    have hids : sampleId ∈ s.2.ids := by
      have hkept := (sized_of_run (fun id _ => sized_new _ _ id) hrun).1
      rw [(Prod.mk.inj hkept).2]
      exact List.mem_cons_self
    rw [sampleValue, hsame sampleId hids] at hresumed
    rw [sampleValue, hresumed] at hsteps
    exact absurd hsteps (by decide)

end Grim.Autograd
