import Grim.Autograd.Resume
import Grim.Autograd.Walk

/-!
# The fused step

`backward_step` gives a gradient to the optimizer as soon as the walk has found it, and refuses a
parameter that comes a second time; a refusal changes nothing only if the steps before it do not
(`Undone`).  A fused kernel writes a parameter where it lies, and so the tensors of the tape that
lie there; the gradients are those of `backward` as long as none is computed from them afterwards
(`ReadsApart`).
-/

namespace Grim.Autograd

open Folds List

def TrainableParam.accumulateGrad (ops : BackwardOps Tensor) (p : TrainableParam) (g : Tensor) :
    Except TapeError TrainableParam :=
  if p.frozen then .ok p
  else do
    let grad ← ops.paramSum p.grad g
    .ok { p with grad := grad }

inductive StepError
  | tape (e : TapeError)
  | optimizer
  /-- `backward_step: parameter {p:?} contributes through multiple tape entries`, with what the
  call leaves. -/
  | multiple (p : ParamId) (optimizer : AdamW) (params : TrainableParams)

structure Stepping where
  optimizer : AdamW
  params : TrainableParams
  stepped : List ParamId

namespace Stepping

/-- The gradient is accumulated, the parameter stepped and its buffer zeroed. -/
def stepGrad (fops : FloatOps) (ops : BackwardOps Tensor) (s : Stepping) (c : ParamId × Tensor) :
    Except StepError Stepping :=
  if c.1 ∈ s.params.ids then
    if c.1 ∈ s.stepped then .error (.multiple c.1 s.optimizer s.params)
    else do
      let param ← ((s.params.param c.1).accumulateGrad ops c.2).mapError .tape
      match s.optimizer.stepParam fops c.1 param with
      | some (optimizer, param) =>
        .ok ⟨optimizer, s.params.set c.1 param.zeroGrad, c.1 :: s.stepped⟩
      | none => .error .optimizer
  else .ok s

def state (s : Stepping) : AdamW × TrainableParams := (s.optimizer, s.params)

end Stepping

/-- The trained parameter whose storage a tensor of the tape has.  A frozen one is not written. -/
def TrainableParams.trained (params : TrainableParams) (shared : TensorId → Option ParamId)
    (id : TensorId) : Option ParamId :=
  (shared id).filter fun p => p ∈ params.ids ∧ (params.param p).frozen = false

/-- The tape as it reads when the kernel has written the stepped parameters. -/
def Tape.written (tape : Tape Tensor) (trained : TensorId → Option ParamId) (s : Stepping) :
    Tape Tensor :=
  { tape with tensors := fun id =>
      match trained id with
      | some p => if p ∈ s.stepped then (tape.tensors id).map fun _ => (s.params.param p).data
        else tape.tensors id
      | none => tape.tensors id }

/-- An entry's part of the walk.  The component math puts a parameter into a storage of its own. -/
def Tape.stepEntry (tape : Tape Tensor) (replay : ReplayOps Tensor) (ops : BackwardOps Tensor)
    (fops : FloatOps) (trained : TensorId → Option ParamId) (s : Walk Tensor × Stepping)
    (entry : TapeEntry) : Except StepError (Walk Tensor × Stepping) :=
  (if fops.fusedAdamwStep.isSome then tape.written trained s.2 else tape).walkEntry replay ops
    (Stepping.stepGrad fops ops) .tape s entry

def Tape.backwardStep (tape : Tape Tensor) (replay : ReplayOps Tensor) (ops : BackwardOps Tensor)
    (fops : FloatOps) (lossGrad : Tensor) (lossTensorId : TensorId) (optimizer : AdamW)
    (params : TrainableParams) (shared : TensorId → Option ParamId) :
    Except StepError ((TensorId → Option Tensor) × AdamW × TrainableParams) := do
  let (w, s) ← tape.entries.reverse.foldlM
    (tape.stepEntry replay ops fops (params.trained shared))
    (.start lossGrad lossTensorId, ⟨optimizer, params, []⟩)
  .ok (w.tensors, s.optimizer, s.params)

variable {fops : FloatOps} {ops : BackwardOps Tensor} {config : AdamWConfig} {p : ParamId}

/-- The parameter with its gradient accumulated, stepped and with its buffer zeroed. -/
def Cell.contribute (fops : FloatOps) (ops : BackwardOps Tensor) (config : AdamWConfig)
    (p : ParamId) (g : Tensor) (c : Cell) : Option Cell := do
  let param ← (c.param.accumulateGrad ops g).toOption
  let c ← Cell.step fops config p { c with param := param }
  some { c with param := c.param.zeroGrad }

theorem stepParam_isSome (o : AdamW) (p : ParamId) (param : TrainableParam) :
    (AdamW.stepParam fops o p param).isSome =
      (Cell.step fops o.config p ⟨param, o.m p, o.v p, (o.paramSteps p).getD 0⟩).isSome := by
  unfold AdamW.stepParam Cell.step
  split_ifs
  · rfl
  · simp only [Option.isSome_map]
    rfl

theorem cell_set (o : AdamW) (ps : TrainableParams) (p : ParamId) (param : TrainableParam) :
    cell (o, ps.set p param) p = { cell (o, ps) p with param := param } := by
  simp [cell, TrainableParams.set]

theorem cell_set_of_ne (o : AdamW) (ps : TrainableParams) (param : TrainableParam) {q : ParamId}
    (h : q ≠ p) : cell (o, ps.set p param) q = cell (o, ps) q := by
  simp [cell, TrainableParams.set, h]

namespace Stepping

variable {s s' : Stepping} {c : ParamId × Tensor}

theorem eq_of_accumulate {x : Except TapeError TrainableParam} {param : TrainableParam}
    (h : x.toOption = some param) : x = .ok param := by
  rcases x with e | param'
  · exact nomatch h
  · exact congrArg _ (Option.some.inj h)

theorem stepGrad_of_contribute (hin : c.1 ∈ s.params.ids) (hnew : c.1 ∉ s.stepped) {d : Cell}
    (h : (cell s.state c.1).contribute fops ops s.optimizer.config c.1 c.2 = some d) :
    ∃ s', s.stepGrad fops ops c = .ok s' ∧ s'.stepped = c.1 :: s.stepped ∧
      kept s'.state = kept s.state ∧ cell s'.state c.1 = d ∧
      ∀ q, q ≠ c.1 → cell s'.state q = cell s.state q := by
  obtain ⟨param, hparam, h⟩ := Option.bind_eq_some_iff.1 h
  obtain ⟨e, hstep, h⟩ := Option.bind_eq_some_iff.1 h
  obtain rfl := Option.some.inj h
  obtain ⟨t, ht, hkept, hcell, hframe⟩ := (stepAt_local fops).step (cell_set s.optimizer s.params
    c.1 param ▸ hstep : (cell (s.optimizer, s.params.set c.1 param) c.1).step fops
      s.optimizer.config c.1 = some e)
  obtain ⟨⟨o, q⟩, hr, rfl⟩ := Option.map_eq_some_iff.1 ht
  have hr' : s.optimizer.stepParam fops c.1 param = some (o, q) := by
    have hset : (s.params.set c.1 param).param c.1 = param := Function.update_self ..
    rw [← hr, hset]
  refine ⟨⟨o, s.params.set c.1 q.zeroGrad, c.1 :: s.stepped⟩, ?_, rfl, hkept, ?_, ?_⟩
  · rw [stepGrad, if_pos hin, if_neg hnew,
      show (s.params.param c.1).accumulateGrad ops c.2 = .ok param from eq_of_accumulate hparam]
    simp only [bind, Except.bind, Except.mapError, hr']
  · rw [cell_set] at hcell
    rw [state, cell_set, ← hcell]
    rfl
  · intro j hj
    have hout : cell (o, (s.params.set c.1 param).set c.1 q) j = cell (o, s.params) j :=
      (cell_set_of_ne _ _ _ hj).trans (cell_set_of_ne _ _ _ hj)
    have hin : cell (s.optimizer, s.params.set c.1 param) j = cell s.state j :=
      cell_set_of_ne _ _ _ hj
    exact (cell_set_of_ne _ _ _ hj).trans (hout.symm.trans ((hframe j hj).trans hin))

theorem stepGrad_of_none (hin : c.1 ∈ s.params.ids) (hnew : c.1 ∉ s.stepped)
    (h : (cell s.state c.1).contribute fops ops s.optimizer.config c.1 c.2 = none) :
    ∃ e, s.stepGrad fops ops c = .error e ∧ ∀ p o ps, e ≠ .multiple p o ps := by
  rw [stepGrad, if_pos hin, if_neg hnew]
  rcases hparam : (s.params.param c.1).accumulateGrad ops c.2 with e | param
  · exact ⟨.tape e, rfl, fun _ _ _ h => nomatch h⟩
  · have hstep : s.optimizer.stepParam fops c.1 param = none := by
      rw [Cell.contribute, show (cell s.state c.1).param.accumulateGrad ops c.2 = .ok param from
        hparam] at h
      rw [← Option.not_isSome_iff_eq_none, stepParam_isSome]
      rcases hcell : Cell.step fops s.optimizer.config c.1 { cell s.state c.1 with param := param }
        with _ | d
      · exact fun hsome => nomatch hcell ▸ hsome
      · rw [Except.toOption, Option.bind_eq_bind, Option.bind_some, hcell] at h
        exact nomatch h
    simp only [bind, Except.bind, Except.mapError, hstep]
    exact ⟨.optimizer, rfl, fun _ _ _ h => nomatch h⟩

theorem stepGrad_of_not_mem (hin : c.1 ∉ s.params.ids) : s.stepGrad fops ops c = .ok s :=
  if_neg hin

theorem stepGrad_of_stepped (hin : c.1 ∈ s.params.ids) (hold : c.1 ∈ s.stepped) :
    s.stepGrad fops ops c = .error (.multiple c.1 s.optimizer s.params) := by
  rw [stepGrad, if_pos hin, if_pos hold]

end Stepping

def registered (ids : List ParamId) (cs : List (ParamId × Tensor)) : List ParamId :=
  (cs.map Prod.fst).filter (· ∈ ids)

section Registered

variable {ids : List ParamId} {c : ParamId × Tensor} {cs : List (ParamId × Tensor)}

theorem registered_cons_of_mem (h : c.1 ∈ ids) :
    registered ids (c :: cs) = c.1 :: registered ids cs := by
  rw [registered, map_cons, filter_cons_of_pos (by simpa using h), registered]

theorem registered_cons_of_not_mem (h : c.1 ∉ ids) :
    registered ids (c :: cs) = registered ids cs := by
  rw [registered, map_cons, filter_cons_of_neg (by simpa using h), registered]

theorem mem_registered : p ∈ registered ids cs ↔ (∃ g, (p, g) ∈ cs) ∧ p ∈ ids := by
  rw [registered, mem_filter, mem_map, decide_eq_true_eq]
  refine and_congr_left fun _ => ⟨?_, fun ⟨g, hg⟩ => ⟨(p, g), hg, rfl⟩⟩
  rintro ⟨⟨q, g⟩, hg, rfl⟩
  exact ⟨g, hg⟩

end Registered

namespace Stepping

variable {s s' : Stepping} {cs : List (ParamId × Tensor)}

/-- Each parameter that comes, comes once and is stepped from what it was. -/
structure Applied (fops : FloatOps) (ops : BackwardOps Tensor) (cs : List (ParamId × Tensor))
    (s s' : Stepping) : Prop where
  kept : kept s'.state = kept s.state
  stepped : ∀ p, p ∈ s'.stepped ↔ p ∈ registered s.params.ids cs ∨ p ∈ s.stepped
  nodup : (registered s.params.ids cs).Nodup
  fresh : ∀ p ∈ registered s.params.ids cs, p ∉ s.stepped
  cells : ∀ c ∈ cs, c.1 ∈ s.params.ids → (cell s.state c.1).contribute fops ops
    s.optimizer.config c.1 c.2 = some (cell s'.state c.1)
  frame : ∀ p, p ∉ registered s.params.ids cs → cell s'.state p = cell s.state p

theorem applied_of_ok : ∀ {cs : List (ParamId × Tensor)} {s s' : Stepping},
    cs.foldlM (stepGrad fops ops) s = .ok s' → Applied fops ops cs s s'
  | [], s, s', h => by
    obtain rfl : s = s' := Except.ok.inj h
    exact ⟨rfl, fun p => by simp [registered], .nil, fun p hp => by simp [registered] at hp,
      fun c hc => absurd hc not_mem_nil, fun _ _ => rfl⟩
  | c :: cs, s, s', h => by
    rw [foldlM_cons] at h
    obtain ⟨s₁, hstep, hrest⟩ := bind_ok.1 h
    have hnext := applied_of_ok hrest
    by_cases hin : c.1 ∈ s.params.ids
    · have hnew : c.1 ∉ s.stepped := fun hold => by
        rw [stepGrad_of_stepped hin hold] at hstep
        exact nomatch hstep
      rcases hd : (cell s.state c.1).contribute fops ops s.optimizer.config c.1 c.2 with _ | d
      · obtain ⟨e, he, -⟩ := stepGrad_of_none hin hnew hd
        rw [he] at hstep
        exact nomatch hstep
      · obtain ⟨s₂, hs₂, hstepped, hkept, hcell, hframe⟩ := stepGrad_of_contribute hin hnew hd
        obtain rfl : s₂ = s₁ := Except.ok.inj (hs₂.symm.trans hstep)
        obtain ⟨hconfig, hids⟩ : s₂.optimizer.config = s.optimizer.config ∧
          s₂.params.ids = s.params.ids := Prod.mk.inj hkept
        obtain ⟨hkept', hstepped', hnodup, hfresh, hcells, hframe'⟩ := hnext
        rw [hids] at hstepped' hnodup hfresh hcells hframe'
        rw [hconfig] at hcells
        rw [hstepped] at hfresh
        have hcome : c.1 ∉ registered s.params.ids cs := fun hmem =>
          hfresh c.1 hmem mem_cons_self
        refine ⟨hkept'.trans hkept, fun p => ?_, ?_, ?_, ?_, ?_⟩
        · rw [hstepped', hstepped, registered_cons_of_mem hin, mem_cons, mem_cons]
          tauto
        · rw [registered_cons_of_mem hin]
          exact nodup_cons.2 ⟨hcome, hnodup⟩
        · rw [registered_cons_of_mem hin]
          refine forall_mem_cons.2 ⟨hnew, fun p hp => ?_⟩
          exact fun hold => hfresh p hp (mem_cons_of_mem _ hold)
        · refine forall_mem_cons.2 ⟨fun _ => ?_, fun e he hein => ?_⟩
          · rw [hframe' c.1 hcome, hcell]
            exact hd
          · have hne : e.1 ≠ c.1 := fun heq =>
              hcome (heq ▸ mem_registered.2 ⟨⟨e.2, he⟩, hein⟩)
            rw [← hframe e.1 hne]
            exact hcells e he hein
        · intro p hp
          rw [registered_cons_of_mem hin, mem_cons, not_or] at hp
          rw [hframe' p hp.2, hframe p hp.1]
    · rw [stepGrad_of_not_mem hin] at hstep
      obtain rfl : s = s₁ := Except.ok.inj hstep
      obtain ⟨hkept, hstepped, hnodup, hfresh, hcells, hframe⟩ := hnext
      rw [← registered_cons_of_not_mem hin] at hstepped hnodup hfresh hframe
      exact ⟨hkept, hstepped, hnodup, hfresh,
        forall_mem_cons.2 ⟨fun h => absurd h hin, hcells⟩, hframe⟩

theorem exists_ok : ∀ {cs : List (ParamId × Tensor)} {s : Stepping},
    (registered s.params.ids cs).Nodup → (∀ p ∈ registered s.params.ids cs, p ∉ s.stepped) →
      (∀ c ∈ cs, c.1 ∈ s.params.ids → ∃ d, (cell s.state c.1).contribute fops ops
        s.optimizer.config c.1 c.2 = some d) → ∃ s', cs.foldlM (stepGrad fops ops) s = .ok s'
  | [], s, _, _, _ => ⟨s, rfl⟩
  | c :: cs, s, hnodup, hfresh, hcells => by
    obtain ⟨hc, hcs⟩ := forall_mem_cons.1 hcells
    rw [foldlM_cons]
    by_cases hin : c.1 ∈ s.params.ids
    · rw [registered_cons_of_mem hin] at hnodup hfresh
      obtain ⟨hcome, hnodup⟩ := nodup_cons.1 hnodup
      obtain ⟨hnew, hfresh⟩ := forall_mem_cons.1 hfresh
      obtain ⟨d, hd⟩ := hc hin
      obtain ⟨s₁, hs₁, hstepped, hkept, -, hframe⟩ := stepGrad_of_contribute hin hnew hd
      obtain ⟨hconfig, hids⟩ : s₁.optimizer.config = s.optimizer.config ∧
        s₁.params.ids = s.params.ids := Prod.mk.inj hkept
      rw [hs₁]
      refine exists_ok (s := s₁) ?_ ?_ ?_
      · rwa [hids]
      · rw [hids, hstepped]
        intro p hp hold
        rcases mem_cons.1 hold with rfl | hold
        · exact hcome hp
        · exact hfresh p hp hold
      · rw [hids, hconfig]
        intro e he hein
        have hne : e.1 ≠ c.1 := fun heq => hcome (heq ▸ mem_registered.2 ⟨⟨e.2, he⟩, hein⟩)
        rw [hframe e.1 hne]
        exact hcs e he hein
    · rw [registered_cons_of_not_mem hin] at hnodup hfresh
      rw [stepGrad_of_not_mem hin]
      exact exists_ok hnodup hfresh hcs

theorem stepGrad_multiple {c : ParamId × Tensor} {o : AdamW} {ps : TrainableParams}
    (h : s.stepGrad fops ops c = .error (.multiple p o ps)) :
    c.1 = p ∧ p ∈ s.params.ids ∧ p ∈ s.stepped ∧ (o, ps) = s.state := by
  by_cases hin : c.1 ∈ s.params.ids
  · by_cases hold : c.1 ∈ s.stepped
    · rw [stepGrad_of_stepped hin hold] at h
      obtain ⟨rfl, rfl, rfl⟩ := StepError.multiple.inj (Except.error.inj h)
      exact ⟨rfl, hin, hold, rfl⟩
    · rcases hd : (cell s.state c.1).contribute fops ops s.optimizer.config c.1 c.2 with _ | d
      · obtain ⟨e, he, hne⟩ := stepGrad_of_none hin hold hd
        rw [he] at h
        exact absurd (Except.error.inj h) (hne p o ps)
      · obtain ⟨s₁, hs₁, -⟩ := stepGrad_of_contribute hin hold hd
        rw [hs₁] at h
        exact nomatch h
  · rw [stepGrad_of_not_mem hin] at h
    exact nomatch h

end Stepping

/-- No gradient is computed from a tensor that lies where a parameter does whose gradient the walk
has found before. -/
def Tape.ReadsApart (tape : Tape Tensor) (replay : ReplayOps Tensor) (ops : BackwardOps Tensor)
    (trained : TensorId → Option ParamId) :
    List TapeEntry → Walk Tensor → List ParamId → Prop
  | [], _, _ => True
  | entry :: rest, w, found =>
    ((w.tensors entry.output).isNone → tape.ReadsApart replay ops trained rest w found) ∧
    ((w.tensors entry.output).isSome →
      (∀ tensors : TensorId → Option Tensor,
        (∀ id, (∀ p ∈ found, trained id ≠ some p) → tensors id = tape.tensors id) →
          Tape.gradientsAt { tape with tensors := tensors } replay ops w entry =
            tape.gradientsAt replay ops w entry) ∧
      ∀ w₁ g w₂, tape.gradientsAt replay ops w entry = .ok (w₁, g) →
        w₁.passAll ops entry g.inputs = .ok w₂ →
          tape.ReadsApart replay ops trained rest w₂ (g.params.map Prod.fst ++ found))

/-- The tape has the tensors of an entry, so that none is recomputed for it. -/
def Tape.Stores (tape : Tape Tensor) (entry : TapeEntry) : Prop :=
  ∀ id ∈ entry.inputs ++ [entry.output], (tape.tensors id).isSome

theorem Tape.ensureEntryResolved_stored {tape : Tape Tensor} {replay : ReplayOps Tensor}
    {entry : TapeEntry} (h : tape.Stores entry) (overlay : Overlay Tensor) :
    tape.ensureEntryResolved replay entry overlay = .ok overlay := by
  refine if_neg ?_
  rintro ⟨id, hid, hnone⟩
  obtain ⟨t, ht⟩ := Option.isSome_iff_exists.1 (h id hid)
  simp [getAny, get, ht] at hnone

/-- The tape stores what the walk reads, and no entry reads a tensor that lies where a parameter of
an entry recorded behind it does. -/
theorem Tape.readsApart_of_pairwise {tape : Tape Tensor} {replay : ReplayOps Tensor}
    {trained : TensorId → Option ParamId} : ∀ {entries : List TapeEntry} {w : Walk Tensor}
      {found : List ParamId}, (∀ e ∈ entries, tape.Stores e) →
        entries.Pairwise (fun e e' => ∀ p ∈ e.contributes, ∀ id ∈ e'.inputs ++ [e'.output],
          trained id ≠ some p) →
        (∀ e ∈ entries, ∀ p ∈ found, ∀ id ∈ e.inputs ++ [e.output], trained id ≠ some p) →
          tape.ReadsApart replay ops trained entries w found
  | [], _, _, _, _, _ => trivial
  | entry :: rest, w, found, hstores, hpairwise, hfound => by
    obtain ⟨hentry, hrest⟩ := forall_mem_cons.1 hstores
    obtain ⟨hhead, htail⟩ := pairwise_cons.1 hpairwise
    obtain ⟨hnow, hlater⟩ := forall_mem_cons.1 hfound
    refine ⟨fun _ => readsApart_of_pairwise hrest htail hlater, fun _ => ⟨?_, ?_⟩⟩
    · intro tensors htensors
      have hsame : ∀ id ∈ entry.inputs ++ [entry.output], tensors id = tape.tensors id :=
        fun id hid => htensors id fun p hp => hnow p hp id hid
      have hentry' : Tape.Stores { tape with tensors := tensors } entry := fun id hid => by
        rw [show ({ tape with tensors := tensors } : Tape Tensor).tensors id = tape.tensors id from
          hsame id hid]
        exact hentry id hid
      have hgradients : ∀ overlay outGrad,
          entry.gradients ops (Tape.getAny { tape with tensors := tensors } overlay) outGrad =
            entry.gradients ops (tape.getAny overlay) outGrad := by
        refine fun overlay outGrad => TapeEntry.gradients_congr ops (fun id hid => ?_) ?_ outGrad
        · exact congrArg (overlay id).or (hsame id (mem_append_left _ hid))
        · exact congrArg (overlay entry.output).or
            (hsame entry.output (mem_append_right _ (mem_singleton_self _)))
      unfold gradientsAt
      rw [ensureEntryResolved_stored hentry, ensureEntryResolved_stored hentry']
      simp only [bind, Except.bind, hgradients]
      rfl
    · intro w₁ g w₂ hg _
      refine readsApart_of_pairwise hrest htail fun e he p hp => ?_
      rcases mem_append.1 hp with hp | hp
      · rw [(gradientsAt_fst hg).2.1] at hp
        exact hhead e he p hp
      · exact hlater e he p hp

theorem isSome_of_not_isNone {o : Option Tensor} (h : ¬o.isNone) : o.isSome :=
  Option.isSome_iff_ne_none.2 fun hnone => h (Option.isNone_iff_eq_none.2 hnone)

theorem Tape.written_tensors {tape : Tape Tensor} {trained : TensorId → Option ParamId}
    {s : Stepping} {id : TensorId} (h : ∀ p ∈ s.stepped, trained id ≠ some p) :
    (tape.written trained s).tensors id = tape.tensors id := by
  rcases htrained : trained id with _ | p
  · simp only [written, htrained]
  · simp only [written, htrained, if_neg fun hp => h p hp htrained]

theorem Tape.stepEntry_eq {tape : Tape Tensor} {replay : ReplayOps Tensor}
    {trained : TensorId → Option ParamId} {w : Walk Tensor} {s : Stepping} {entry : TapeEntry}
    (h : (w.tensors entry.output).isSome →
      (tape.written trained s).gradientsAt replay ops w entry =
        tape.gradientsAt replay ops w entry) :
    tape.stepEntry replay ops fops trained (w, s) entry =
      tape.walkEntry replay ops (Stepping.stepGrad fops ops) .tape (w, s) entry := by
  unfold stepEntry
  split_ifs with hkernel
  · unfold walkEntry
    by_cases hnone : (w.tensors entry.output).isNone
    · rw [if_pos hnone, if_pos hnone]
    · rw [if_neg hnone, if_neg hnone, h (isSome_of_not_isNone hnone)]
  · rfl

theorem Tape.foldlM_stepEntry {tape : Tape Tensor} {replay : ReplayOps Tensor}
    {trained : TensorId → Option ParamId} : ∀ {entries : List TapeEntry} {w : Walk Tensor}
      {s : Stepping} {found : List ParamId}, (∀ p ∈ s.stepped, p ∈ found) →
        tape.ReadsApart replay ops trained entries w found →
          entries.foldlM (tape.stepEntry replay ops fops trained) (w, s) =
            entries.foldlM (tape.walkEntry replay ops (Stepping.stepGrad fops ops) .tape) (w, s)
  | [], _, _, _, _, _ => rfl
  | entry :: rest, w, s, found, hfound, hapart => by
    have heq : tape.stepEntry replay ops fops trained (w, s) entry =
        tape.walkEntry replay ops (Stepping.stepGrad fops ops) .tape (w, s) entry := by
      refine Tape.stepEntry_eq fun hsome => ?_
      refine (hapart.2 hsome).1 (tape.written trained s).tensors fun id hid => ?_
      exact Tape.written_tensors fun p hp => hid p (hfound p hp)
    rw [foldlM_cons, foldlM_cons, heq]
    by_cases hnone : (w.tensors entry.output).isNone
    · rw [walkEntry, if_pos hnone]
      exact foldlM_stepEntry hfound (hapart.1 hnone)
    · have hsome : (w.tensors entry.output).isSome := isSome_of_not_isNone hnone
      rw [walkEntry, if_neg hnone]
      rcases hg : tape.gradientsAt replay ops w entry with e | ⟨w₁, g⟩
      · rfl
      · simp only [bind, Except.bind, Except.mapError]
        rcases hfold : g.params.foldlM (Stepping.stepGrad fops ops) s with e | s'
        · rfl
        · rcases hpass : w₁.passAll ops entry g.inputs with e | w₂
          · rfl
          · refine foldlM_stepEntry (fun p hp => ?_) ((hapart.2 hsome).2 w₁ g w₂ hg hpass)
            rcases ((Stepping.applied_of_ok hfold).stepped p).1 hp with hnow | hbefore
            · obtain ⟨⟨t, ht⟩, -⟩ := mem_registered.1 hnow
              exact mem_append_left _ (mem_map_of_mem ht)
            · exact mem_append_right _ (hfound p hbefore)

def TrainableParams.buffers (ps : TrainableParams) (p : ParamId) : Option (GradBuffer Tensor) :=
  if p ∈ ps.ids then some ⟨(ps.param p).grad, (ps.param p).frozen⟩ else none

/-- The registry with what a backward pass has left in the buffers. -/
def TrainableParams.withBuffers (ps : TrainableParams)
    (buffers : ParamId → Option (GradBuffer Tensor)) : TrainableParams :=
  { ps with param := fun p =>
      match buffers p with
      | some b => { ps.param p with grad := b.grad }
      | none => ps.param p }

/-- `backward`, and then `optimizer.step`. -/
def Tape.backwardThenStep (tape : Tape Tensor) (replay : ReplayOps Tensor)
    (ops : BackwardOps Tensor) (fops : FloatOps) (lossGrad : Tensor) (lossTensorId : TensorId)
    (optimizer : AdamW) (params : TrainableParams) : Option (AdamW × TrainableParams) := do
  let grads ← (tape.backward replay ops lossGrad lossTensorId params.buffers).toOption
  optimizer.step fops (params.withBuffers grads.params)

theorem accumulateInto_ok {b b' : ParamId → Option (GradBuffer Tensor)} {c : ParamId × Tensor}
    (h : accumulateInto ops b c = .ok b') :
    (∀ buf, b c.1 = some buf → ∃ buf', buf.accumulateGrad ops c.2 = .ok buf' ∧
      b' c.1 = some buf') ∧ (b c.1 = none → b' = b) ∧ ∀ q, q ≠ c.1 → b' q = b q := by
  unfold accumulateInto at h
  rcases hb : b c.1 with _ | buf
  · rw [hb] at h
    obtain rfl := Except.ok.inj h
    exact ⟨fun _ hsome => (nomatch hsome), fun _ => rfl, fun _ _ => rfl⟩
  · rw [hb] at h
    obtain ⟨buf', hbuf', h⟩ := bind_ok.1 h
    obtain rfl := Except.ok.inj h
    refine ⟨fun buf₁ heq => ?_, ?_, fun q hq => Function.update_of_ne hq _ _⟩
    · obtain rfl := Option.some.inj heq
      exact ⟨buf', hbuf', Function.update_self ..⟩
    · exact fun hnone => nomatch hnone

theorem foldlM_accumulateInto {ids : List ParamId} : ∀ {cs : List (ParamId × Tensor)}
    {b b' : ParamId → Option (GradBuffer Tensor)}, (∀ p, b p ≠ none ↔ p ∈ ids) →
      (registered ids cs).Nodup → cs.foldlM (accumulateInto ops) b = .ok b' →
        (∀ c ∈ cs, ∀ buf, b c.1 = some buf → ∃ buf', buf.accumulateGrad ops c.2 = .ok buf' ∧
          b' c.1 = some buf') ∧ ∀ p, p ∉ registered ids cs → b' p = b p
  | [], b, b', _, _, h => by
    obtain rfl : b = b' := Except.ok.inj h
    exact ⟨fun c hc => absurd hc not_mem_nil, fun _ _ => rfl⟩
  | c :: cs, b, b', hids, hnodup, h => by
    rw [foldlM_cons] at h
    obtain ⟨b₁, hc, hrest⟩ := bind_ok.1 h
    obtain ⟨hsome, hnone, hframe⟩ := accumulateInto_ok hc
    have hids₁ : ∀ p, b₁ p ≠ none ↔ p ∈ ids := by
      intro p
      by_cases hp : p = c.1
      · subst hp
        rcases hb : b c.1 with _ | buf
        · rw [hnone hb]
          exact hids c.1
        · obtain ⟨buf', -, hbuf'⟩ := hsome buf hb
          rw [hbuf', ← hids c.1, hb]
          simp
      · rw [hframe p hp]
        exact hids p
    by_cases hin : c.1 ∈ ids
    · rw [registered_cons_of_mem hin] at hnodup
      obtain ⟨hcome, hnodup⟩ := nodup_cons.1 hnodup
      obtain ⟨hcells, hout⟩ := foldlM_accumulateInto hids₁ hnodup hrest
      refine ⟨forall_mem_cons.2 ⟨fun buf hbuf => ?_, fun e he buf hbuf => ?_⟩, ?_⟩
      · rw [hout c.1 hcome]
        exact hsome buf hbuf
      · have hein : e.1 ∈ ids := (hids e.1).1 (by rw [hbuf]; simp)
        have hne : e.1 ≠ c.1 := fun heq => hcome (heq ▸ mem_registered.2 ⟨⟨e.2, he⟩, hein⟩)
        exact hcells e he buf (by rw [hframe e.1 hne, hbuf])
      · intro p hp
        rw [registered_cons_of_mem hin, mem_cons, not_or] at hp
        rw [hout p hp.2, hframe p hp.1]
    · have hb : b c.1 = none := not_not.1 fun h => hin ((hids c.1).1 h)
      rw [registered_cons_of_not_mem hin] at hnodup ⊢
      obtain rfl := hnone hb
      obtain ⟨hcells, hout⟩ := foldlM_accumulateInto hids hnodup hrest
      refine ⟨forall_mem_cons.2 ⟨fun buf hbuf => ?_, hcells⟩, hout⟩
      rw [hb] at hbuf
      exact nomatch hbuf

theorem accumulateGrad_of_buffer {param : TrainableParam} {g : Tensor} {buf : GradBuffer Tensor}
    (h : (⟨param.grad, param.frozen⟩ : GradBuffer Tensor).accumulateGrad ops g = .ok buf) :
    param.accumulateGrad ops g = .ok { param with grad := buf.grad } := by
  unfold GradBuffer.accumulateGrad at h
  unfold TrainableParam.accumulateGrad
  split_ifs at h ⊢
  · obtain rfl := Except.ok.inj h
    rfl
  · obtain ⟨grad, hgrad, h⟩ := bind_ok.1 h
    obtain rfl := Except.ok.inj h
    rw [hgrad]
    rfl

theorem cell_withBuffers {o : AdamW} {ps : TrainableParams}
    {b : ParamId → Option (GradBuffer Tensor)} {buf : GradBuffer Tensor} (h : b p = some buf) :
    cell (o, ps.withBuffers b) p =
      { cell (o, ps) p with param := { ps.param p with grad := buf.grad } } := by
  simp [cell, TrainableParams.withBuffers, h]

theorem AdamW.stepAt_of_none (s : AdamW × TrainableParams) (p : ParamId)
    (h : (cell s p).step fops (kept s).1 p = none) : AdamW.stepAt fops s p = none := by
  have hstep : s.1.stepParam fops p (s.2.param p) = none := by
    rw [← Option.not_isSome_iff_eq_none, stepParam_isSome]
    exact Option.not_isSome_iff_eq_none.2 h
  rw [stepAt, hstep]
  rfl

theorem AdamW.cells_of_step {s s' : AdamW × TrainableParams}
    (h : AdamW.step fops s.1 s.2 = some s') :
    ∀ p ∈ s.2.ids, (cell s p).step fops s.1.config p = some (cell s' p) := by
  have hall := (stepAt_local fops).exists_of_sweep stepAt_of_none s.2.nodup h
  choose! c hc using hall
  obtain ⟨s'', hs'', -, hcells⟩ := AdamW.step_cells (s := s) (c := c) hc
  obtain rfl := Option.some.inj (h.symm.trans hs'')
  intro p hp
  rw [hcells p hp]
  exact hc p hp

def TapeEntry.recorded (entry : TapeEntry) : List ParamId :=
  match entry.metadata with
  | .loraApply _ _ a b => [a, b]
  | .rmsNorm _ weightParam => weightParam.toList
  | .embedding _ _ _ weightParam => weightParam.toList
  | _ => entry.paramId.toList

def Cell.SameUpdate (c d : Cell) : Prop := c.param.data = d.param.data ∧ c.m = d.m ∧ c.v = d.v

/-- The parameter, with its gradient buffer, and the moments are alike. -/
def Cell.Unmoved (c d : Cell) : Prop := c.param = d.param ∧ c.m = d.m ∧ c.v = d.v

/-- What `backward_step` is called on, and what it is computed with. -/
structure StepCall where
  tape : Tape Tensor
  replay : ReplayOps Tensor
  ops : BackwardOps Tensor
  fops : FloatOps
  lossGrad : Tensor
  lossTensorId : TensorId
  optimizer : AdamW
  params : TrainableParams
  shared : TensorId → Option ParamId

namespace StepCall

variable (call : StepCall)

def fused : Except StepError ((TensorId → Option Tensor) × AdamW × TrainableParams) :=
  call.tape.backwardStep call.replay call.ops call.fops call.lossGrad call.lossTensorId
    call.optimizer call.params call.shared

def plain : Option (AdamW × TrainableParams) :=
  call.tape.backwardThenStep call.replay call.ops call.fops call.lossGrad call.lossTensorId
    call.optimizer call.params

def start (p : ParamId) : Cell := cell (call.optimizer, call.params) p

def reached : List TapeEntry := Autograd.reached [call.lossTensorId] call.tape.entries.reverse

/-- Every trainable parameter is recorded with one reached entry. -/
def Single : Prop :=
  ∀ p ∈ call.params.ids, (call.params.param p).frozen = false →
    call.reached.countP (p ∈ TapeEntry.recorded ·) = 1

/-- The gradients for parameters, in the order in which the walk finds them. -/
def contributions : List (ParamId × Tensor) :=
  (call.tape.flowOf call.replay call.ops call.lossGrad call.lossTensorId).1

/-- The parameters of the registry that the reached entries have gradients for. -/
def visits : List ParamId :=
  (call.reached.flatMap TapeEntry.contributes).filter (· ∈ call.params.ids)

/-- A parameter that has been given a gradient, stepped and zeroed. -/
def contributed (c : ParamId × Tensor) : Option Cell :=
  (call.start c.1).contribute call.fops call.ops call.optimizer.config c.1 c.2

/-- The fused step leaves what the plain path leaves, or everything as it was. -/
structure StepsAsPlain : Prop where
  same : call.Single → ∀ r, call.plain = some r → ∃ grads s, call.fused = .ok (grads, s) ∧
    ∀ p ∈ call.params.ids, (cell s p).SameUpdate (cell r p)
  refused : ∀ p o ps, call.fused = .error (.multiple p o ps) →
    ∀ q, (cell (o, ps) q).Unmoved (call.start q)

/-- Where a parameter comes a second time, those stepped before are not moved by their steps.
Where each is recorded once and the plain path goes through, none comes twice, and a step does not
move those that do not come. -/
structure Undone : Prop where
  refused : ∀ before p g after, call.contributions = before ++ (p, g) :: after →
    p ∈ registered call.params.ids before → (registered call.params.ids before).Nodup →
      (∀ c ∈ before, c.1 ∈ call.params.ids → ∃ d, call.contributed c = some d) →
        ∀ c ∈ before, c.1 ∈ call.params.ids → ∀ d, call.contributed c = some d →
          d.Unmoved (call.start c.1)
  single : call.Single → (∃ r, call.plain = some r) → call.visits.Nodup ∧
    ∀ p ∈ call.params.ids, p ∉ call.visits → ∀ d,
      (call.start p).step call.fops call.optimizer.config p = some d →
        d.SameUpdate (call.start p)

/-- There is no kernel that writes parameters where they lie, or no gradient is computed from what
it has written. -/
def ReadsApart : Prop :=
  call.fops.fusedAdamwStep = none ∨
    call.tape.ReadsApart call.replay call.ops (call.params.trained call.shared)
      call.tape.entries.reverse (.start call.lossGrad call.lossTensorId) []

variable {call}

theorem fused_eq (hapart : call.ReadsApart) : call.fused = (do
    let s ← call.contributions.foldlM (Stepping.stepGrad call.fops call.ops)
      ⟨call.optimizer, call.params, []⟩
    let w ← (call.tape.flowOf call.replay call.ops call.lossGrad call.lossTensorId).2.mapError
      .tape
    .ok (w.tensors, s.state)) := by
  have hwalk : call.tape.entries.reverse.foldlM (call.tape.stepEntry call.replay call.ops call.fops
        (call.params.trained call.shared))
      (.start call.lossGrad call.lossTensorId, ⟨call.optimizer, call.params, []⟩) =
    call.tape.entries.reverse.foldlM (call.tape.walkEntry call.replay call.ops
        (Stepping.stepGrad call.fops call.ops) .tape)
      (.start call.lossGrad call.lossTensorId, ⟨call.optimizer, call.params, []⟩) := by
    rcases hapart with hnone | hapart
    · have hstep : call.tape.stepEntry call.replay call.ops call.fops
          (call.params.trained call.shared) = call.tape.walkEntry call.replay call.ops
            (Stepping.stepGrad call.fops call.ops) .tape := by
        funext s entry
        rw [Tape.stepEntry, hnone]
        rfl
      rw [hstep]
    · exact Tape.foldlM_stepEntry (fun p hp => absurd hp not_mem_nil) hapart
  unfold fused Tape.backwardStep contributions Tape.flowOf
  rw [hwalk, Tape.foldlM_walkEntry]
  simp only [bind_assoc]
  rfl

theorem fused_multiple_iff (hapart : call.ReadsApart) {p : ParamId} {o : AdamW}
    {ps : TrainableParams} :
    call.fused = .error (.multiple p o ps) ↔
      call.contributions.foldlM (Stepping.stepGrad call.fops call.ops)
        ⟨call.optimizer, call.params, []⟩ = .error (.multiple p o ps) := by
  rw [fused_eq hapart]
  rcases call.contributions.foldlM (Stepping.stepGrad call.fops call.ops) _ with e | s
  · constructor
    · intro h
      change Except.error e = Except.error (StepError.multiple p o ps) at h
      rw [Except.error.inj h]
    · intro h
      rw [Except.error.inj h]
      rfl
  · refine ⟨fun h => ?_, fun h => nomatch h⟩
    rcases hw : (call.tape.flowOf call.replay call.ops call.lossGrad call.lossTensorId).2 with e | w
    · rw [hw] at h
      exact nomatch h
    · rw [hw] at h
      exact nomatch h

theorem cells_of_plain {r : AdamW × TrainableParams} (h : call.plain = some r) :
    ∃ b w, call.contributions.foldlM (accumulateInto call.ops) call.params.buffers = .ok b ∧
      (call.tape.flowOf call.replay call.ops call.lossGrad call.lossTensorId).2 = .ok w ∧
      ∀ p ∈ call.params.ids, (cell (call.optimizer, call.params.withBuffers b) p).step call.fops
        call.optimizer.config p = some (cell r p) := by
  obtain ⟨grads, hgrads, hstep⟩ := Option.bind_eq_some_iff.1 h
  rw [Tape.backward_eq] at hgrads
  unfold contributions
  rcases hb : (call.tape.flowOf call.replay call.ops call.lossGrad call.lossTensorId).1.foldlM
    (accumulateInto call.ops) call.params.buffers with e | b
  · rw [hb] at hgrads
    exact nomatch hgrads
  · rcases hw : (call.tape.flowOf call.replay call.ops call.lossGrad call.lossTensorId).2 with e | w
    · rw [hb, hw] at hgrads
      exact nomatch hgrads
    · rw [hb, hw] at hgrads
      obtain rfl := Option.some.inj hgrads
      exact ⟨b, w, rfl, rfl,
        AdamW.cells_of_step (s := (call.optimizer, call.params.withBuffers b)) hstep⟩

theorem registered_contributions {w : Walk Tensor}
    (h : (call.tape.flowOf call.replay call.ops call.lossGrad call.lossTensorId).2 = .ok w) :
    registered call.params.ids call.contributions = call.visits := by
  unfold registered contributions visits reached Tape.flowOf
  rw [Tape.flow_fst (Walk.has_start call.lossGrad call.lossTensorId) h]

theorem buffers_ne_none (ps : TrainableParams) (p : ParamId) :
    ps.buffers p ≠ none ↔ p ∈ ps.ids := by
  unfold TrainableParams.buffers
  split_ifs with h <;> simp [h]

theorem fused_refused (hapart : call.ReadsApart) {before after : List (ParamId × Tensor)}
    {p : ParamId} {g : Tensor}
    (hsplit : call.contributions = before ++ (p, g) :: after)
    (hagain : p ∈ registered call.params.ids before)
    (hnodup : (registered call.params.ids before).Nodup)
    (hsteps : ∀ c ∈ before, c.1 ∈ call.params.ids → ∃ d, call.contributed c = some d) :
    ∃ s, call.fused = .error (.multiple p s.optimizer s.params) ∧
      Stepping.Applied call.fops call.ops before ⟨call.optimizer, call.params, []⟩ s := by
  obtain ⟨s, hs⟩ := Stepping.exists_ok (s := ⟨call.optimizer, call.params, []⟩) hnodup
    (fun _ _ => not_mem_nil) hsteps
  have happlied := Stepping.applied_of_ok hs
  have hids : s.params.ids = call.params.ids := (Prod.mk.inj happlied.kept).2
  refine ⟨s, (fused_multiple_iff hapart).2
    (foldlM_error_iff.2 ⟨before, (p, g), after, s, hsplit, hs,
    Stepping.stepGrad_of_stepped ?_ ?_⟩), happlied⟩
  · rw [hids]
    exact (mem_registered.1 hagain).2
  · exact (happlied.stepped p).2 (.inl hagain)

theorem refused_iff (hapart : call.ReadsApart) : (∀ p o ps, call.fused = .error (.multiple p o ps) →
    ∀ q, (cell (o, ps) q).Unmoved (call.start q)) ↔
      ∀ before p g after, call.contributions = before ++ (p, g) :: after →
        p ∈ registered call.params.ids before → (registered call.params.ids before).Nodup →
          (∀ c ∈ before, c.1 ∈ call.params.ids → ∃ d, call.contributed c = some d) →
            ∀ c ∈ before, c.1 ∈ call.params.ids → ∀ d, call.contributed c = some d →
              d.Unmoved (call.start c.1) := by
  constructor
  · intro h before p g after hsplit hagain hnodup hsteps c hc hin d hd
    obtain ⟨s, hfused, happlied⟩ := fused_refused hapart hsplit hagain hnodup hsteps
    obtain rfl : d = cell s.state c.1 := Option.some.inj (hd.symm.trans (happlied.cells c hc hin))
    exact h p _ _ hfused c.1
  · intro h p o ps hfused q
    obtain ⟨before, i, after, s, hsplit, hs, hi⟩ :=
      foldlM_error_iff.1 ((fused_multiple_iff hapart).1 hfused)
    obtain ⟨rfl, hin, hold, hstate⟩ := Stepping.stepGrad_multiple hi
    have happlied := Stepping.applied_of_ok hs
    have hagain := ((happlied.stepped i.1).1 hold).resolve_right not_mem_nil
    rw [hstate]
    by_cases hq : q ∈ registered call.params.ids before
    · obtain ⟨⟨g, hg⟩, hqin⟩ := mem_registered.1 hq
      exact h before i.1 i.2 after hsplit hagain happlied.nodup
        (fun c hc hcin => ⟨_, happlied.cells c hc hcin⟩) (q, g) hg hqin _
        (happlied.cells (q, g) hg hqin)
    · rw [happlied.frame q hq]
      exact ⟨rfl, rfl, rfl⟩

theorem contribute_of_step {c d : Cell} {param : TrainableParam} {g : Tensor}
    (haccumulate : c.param.accumulateGrad ops g = .ok param)
    (hstep : Cell.step fops config p { c with param := param } = some d) :
    c.contribute fops ops config p g = some { d with param := d.param.zeroGrad } := by
  rw [Cell.contribute, haccumulate, Except.toOption, Option.bind_eq_bind, Option.bind_some, hstep]
  rfl

theorem same_iff (hapart : call.ReadsApart) {r : AdamW × TrainableParams}
    (hplain : call.plain = some r) :
    (∃ grads s, call.fused = .ok (grads, s) ∧
      ∀ p ∈ call.params.ids, (cell s p).SameUpdate (cell r p)) ↔
    call.visits.Nodup ∧ ∀ p ∈ call.params.ids, p ∉ call.visits → ∀ d,
      (call.start p).step call.fops call.optimizer.config p = some d →
        d.SameUpdate (call.start p) := by
  obtain ⟨b, w, hfold, hw, hcells⟩ := cells_of_plain hplain
  have hvisits := registered_contributions hw
  -- a parameter that does not come is stepped with what was in its buffer
  have hidle : call.visits.Nodup → ∀ p ∈ call.params.ids, p ∉ call.visits →
      (call.start p).step call.fops call.optimizer.config p = some (cell r p) := by
    intro hnodup p hp hout
    rw [← hvisits] at hnodup hout
    have hbuf := (foldlM_accumulateInto (buffers_ne_none call.params) hnodup hfold).2 p hout
    rw [TrainableParams.buffers, if_pos hp] at hbuf
    rw [← hcells p hp, cell_withBuffers hbuf]
    rfl
  constructor
  · rintro ⟨grads, s, hfused, hsame⟩
    rw [fused_eq hapart] at hfused
    obtain ⟨s', hs', hfused⟩ := bind_ok.1 hfused
    rw [hw] at hfused
    obtain rfl : s'.state = s := (Prod.mk.inj (Except.ok.inj hfused)).2
    have happlied := Stepping.applied_of_ok hs'
    have hnodup : call.visits.Nodup := hvisits ▸ happlied.nodup
    refine ⟨hnodup, fun p hp hout d hd => ?_⟩
    obtain rfl : cell r p = d := Option.some.inj ((hidle hnodup p hp hout).symm.trans hd)
    have hstart : cell s'.state p = call.start p := happlied.frame p (by rwa [hvisits])
    obtain ⟨hdata, hm, hv⟩ := hsame p hp
    rw [hstart] at hdata hm hv
    exact ⟨hdata.symm, hm.symm, hv.symm⟩
  · rintro ⟨hnodup, hstill⟩
    have hbuf := (foldlM_accumulateInto (buffers_ne_none call.params) (hvisits ▸ hnodup) hfold).1
    have hcontributed : ∀ c ∈ call.contributions, c.1 ∈ call.params.ids →
        call.contributed c =
          some { cell r c.1 with param := (cell r c.1).param.zeroGrad } := by
      intro c hc hin
      obtain ⟨buf, haccumulate, hb⟩ := hbuf c hc _ (if_pos hin)
      refine contribute_of_step (accumulateGrad_of_buffer haccumulate) ?_
      rw [← hcells c.1 hin, cell_withBuffers hb]
      rfl
    obtain ⟨s, hs⟩ := Stepping.exists_ok (s := ⟨call.optimizer, call.params, []⟩)
      (by rw [hvisits]; exact hnodup) (fun _ _ => not_mem_nil)
      fun c hc hin => ⟨_, hcontributed c hc hin⟩
    have happlied := Stepping.applied_of_ok hs
    refine ⟨w.tensors, s.state, ?_, fun p hp => ?_⟩
    · rw [fused_eq hapart, hs, hw]
      rfl
    · by_cases hin : p ∈ call.visits
      · obtain ⟨⟨g, hg⟩, -⟩ := mem_registered.1 (hvisits ▸ hin)
        obtain heq := Option.some.inj
          ((happlied.cells (p, g) hg hp).symm.trans (hcontributed (p, g) hg hp))
        rw [heq]
        exact ⟨rfl, rfl, rfl⟩
      · have hstart : cell s.state p = call.start p := happlied.frame p (by rwa [hvisits])
        obtain ⟨hdata, hm, hv⟩ := hstill p hp hin _ (hidle hnodup p hp hin)
        rw [hstart]
        exact ⟨hdata.symm, hm.symm, hv.symm⟩

/-- The fused step leaves what it should exactly where no step has to be undone. -/
theorem stepsAsPlain_iff (call : StepCall) (hapart : call.ReadsApart) :
    call.StepsAsPlain ↔ call.Undone := by
  constructor
  · rintro ⟨hsame, hrefused⟩
    refine ⟨(refused_iff hapart).1 hrefused, fun hsingle ⟨r, hr⟩ => ?_⟩
    exact (same_iff hapart hr).1 (hsame hsingle r hr)
  · rintro ⟨hrefused, hsingle⟩
    refine ⟨fun h r hr => ?_, (refused_iff hapart).2 hrefused⟩
    exact (same_iff hapart hr).2 (hsingle h ⟨r, hr⟩)

def scalar (x : UInt32) : Tensor := .ofFn [1, 1] fun _ => x

def scalarMul (s t : Tensor) : Tensor :=
  scalar (FloatFormat.f32Op .mul (s.data.headD 0) (t.data.headD 0))

/-- The operations of a LoRA application on tensors of one number. -/
def scalarOps : BackwardOps Tensor where
  shape t := t.shape
  loraScale alpha rank := FloatFormat.f32Op .div alpha (FloatFormat.f32OfInt rank)
  loraBackward g x a b scale :=
    .ok (g, scalarMul (scalar scale) (scalarMul (scalarMul g b) a),
      scalarMul (scalar scale) (scalarMul (scalarMul g b) x),
      scalarMul (scalar scale) (scalarMul g (scalarMul x a)))
  matmulBackward _ _ _ _ _ := .error (.backend "")
  addBackward _ _ _ := .error (.backend "")
  scaleBackward _ _ := .error (.backend "")
  siluMulBackward _ _ _ := .error (.backend "")
  rmsnormBackward _ _ _ _ := .error (.backend "")
  ropeBackward _ _ _ := .error (.backend "")
  softmaxBackward _ _ := .error (.backend "")
  embeddingBackward _ _ _ _ := .error (.backend "")
  selectiveScanBackward _ _ _ _ _ _ _ _ := .error (.backend "")
  tensorSum s t := .ok (scalar (FloatFormat.f32Op .add (s.data.headD 0) (t.data.headD 0)))
  paramSum s t := .ok (scalar (FloatFormat.f32Op .add (s.data.headD 0) (t.data.headD 0)))

def noReplay : ReplayOps Tensor where
  matMul _ _ _ _ _ _ _ := .error (.backend "")
  add _ _ := .error (.backend "")
  scale _ _ := .error (.backend "")
  loraApply _ _ _ _ _ _ := .error (.backend "")
  siluMul _ _ := .error (.backend "")
  rmsNorm _ _ _ := .error (.backend "")
  rope _ _ _ := .error (.backend "")
  softmax _ := .error (.backend "")
  embedding _ _ _ _ := .error (.backend "")

def secondId : ParamId := ⟨0, 2, .vProj, false⟩

/-- Two LoRA applications, the second to what the first puts out, with one A matrix. -/
def tiedTape : Tape Tensor :=
  [.register (scalar one), .registerParam sampleId (scalar one),
    .registerParam sampleId.partner (scalar one), .register (scalar 0),
    .recordLoraApply 3 0 1 2 (scalar one) one 1 sampleId sampleId.partner,
    .registerParam secondId (scalar one), .register (scalar 0),
    .recordLoraApply 6 4 1 5 (scalar one) one 1 sampleId secondId].foldl Tape.apply Tape.new

def apartTape : Tape Tensor :=
  [.register (scalar one), .registerParam sampleId (scalar one),
    .registerParam sampleId.partner (scalar one), .register (scalar 0),
    .recordLoraApply 3 0 1 2 (scalar one) one 1 sampleId sampleId.partner,
    .registerParam secondId.partner (scalar one), .registerParam secondId (scalar one),
    .register (scalar 0),
    .recordLoraApply 7 4 5 6 (scalar one) one 1 secondId.partner secondId].foldl
      Tape.apply Tape.new

def apartCall : StepCall where
  tape := apartTape
  replay := noReplay
  ops := scalarOps
  fops := { cpuOps with fusedAdamwStep := some (componentStep cpuOps) }
  lossGrad := scalar one
  lossTensorId := 8
  optimizer := .new .default
  params :=
    { ids := [sampleId, sampleId.partner, secondId.partner, secondId]
      nodup := by decide
      param := fun _ => ⟨scalar one, scalar 0, false⟩ }
  shared id := [(1, sampleId), (2, sampleId.partner), (5, secondId.partner), (6, secondId)].lookup
    id

theorem stepsAsPlain_iff_apart : apartCall.fops.fusedAdamwStep.isSome ∧ apartCall.ReadsApart ∧
    (apartCall.StepsAsPlain ↔ apartCall.Undone) := by
  have hapart : apartCall.ReadsApart := by
    refine .inr (Tape.readsApart_of_pairwise ?_ ?_ ?_)
    · unfold Tape.Stores
      decide
    · decide
    · exact fun _ _ p hp => absurd hp not_mem_nil
  exact ⟨rfl, hapart, stepsAsPlain_iff apartCall hapart⟩

def tiedCall : StepCall where
  tape := tiedTape
  replay := noReplay
  ops := scalarOps
  fops := cpuOps
  lossGrad := scalar one
  lossTensorId := 7
  optimizer := .new .default
  params :=
    { ids := [sampleId, sampleId.partner, secondId]
      nodup := by decide
      param := fun _ => ⟨scalar one, scalar 0, false⟩ }
  shared id := [(1, sampleId), (2, sampleId.partner), (5, secondId)].lookup id

/-- The second application's matrices are stepped before the tied one is refused. -/
theorem tied_stepped : ¬tiedCall.StepsAsPlain := by
  intro h
  obtain ⟨p, o, ps, hfused, hm⟩ : ∃ p o ps, tiedCall.fused = .error (.multiple p o ps) ∧
      (o.m secondId).isSome := ⟨_, _, _, rfl, rfl⟩
  obtain ⟨-, hsame, -⟩ := h.refused p o ps hfused secondId
  have hnone : o.m secondId = none := hsame
  rw [hnone] at hm
  exact absurd hm (by decide)

end StepCall

end Grim.Autograd
