import Grim.Autograd.Backward
import Grim.Lib.Folds

/-!
# Gradients of a freed tape

Of what an entry reads, freeing drops the outputs of its own segment only, and a replay of the
segment rebuilds these in the order of recording.  So an overlay with nothing but recorded outputs
of the segment the pass is in (`Held`) gives each entry the tensors the full tape has.
-/

namespace Grim.Autograd

open List

namespace Tape

open Folds

variable {T : Type} {tape : Tape T}

/-- The overlay has outputs of the segment `active`, as they were recorded. -/
def Held (tape : Tape T) (active : Option ℕ) (overlay : Overlay T) : Prop :=
  ∀ id t, overlay id = some t →
    tape.get id = some t ∧ ∃ e ∈ tape.entries, e.output = id ∧ some e.segmentIdx = active

section Held

variable {active : Option ℕ} {seg : ℕ} {overlay : Overlay T} {e : TapeEntry} {id : TensorId}

theorem held_empty (active : Option ℕ) : tape.Held active fun _ => none :=
  fun _ _ h => absurd h (by simp)

theorem Held.getAny (h : tape.Held active overlay)
    (hid : (tape.freeIntermediateActivations.getAny overlay id).isSome) :
    tape.freeIntermediateActivations.getAny overlay id = tape.get id := by
  unfold Tape.getAny at hid ⊢
  cases ho : overlay id with
  | some t =>
    rw [Option.some_or]
    exact (h id t ho).1.symm
  | none =>
    rw [ho, Option.none_or] at hid
    rw [Option.none_or]
    obtain heq | ⟨hnone, -⟩ := tape.free_get_cases id
    · exact heq
    · rw [hnone] at hid
      exact absurd hid (by simp)

theorem getAny_update {t : T} (hid : (tape.getAny overlay id).isSome) (out : TensorId) :
    (tape.getAny (Function.update overlay out (some t)) id).isSome := by
  unfold getAny at hid ⊢
  by_cases heq : id = out
  · rw [heq, Function.update_self]
    rfl
  · rwa [Function.update_of_ne heq]

theorem getAny_isSome (h : (overlay id).isSome ∨ (tape.get id).isSome) :
    (tape.getAny overlay id).isSome := by
  unfold getAny
  rw [Option.isSome_or, Bool.or_eq_true]
  exact h

theorem Held.update (h : tape.Held (some seg) overlay) (he : e ∈ tape.entries)
    (hseg : e.segmentIdx = seg) {t : T} (ht : tape.get e.output = some t) :
    tape.Held (some seg) (Function.update overlay e.output (some t)) := by
  intro id t' hid
  by_cases heq : id = e.output
  · rw [heq, Function.update_self] at hid
    rw [heq]
    exact ⟨hid ▸ ht, e, he, rfl, congrArg some hseg⟩
  · rw [Function.update_of_ne heq] at hid
    exact h id t' hid

end Held

section Replay

variable {replay : ReplayOps T} {seg : ℕ} {overlay : Overlay T} {e : TapeEntry}

/-- What is still to come of a segment's replay, and the overlay so far. -/
structure Replaying (tape : Tape T) (seg : ℕ) (rest : List TapeEntry) (overlay : Overlay T) :
    Prop where
  held : tape.Held (some seg) overlay
  order : rest.Pairwise (·.output < ·.output)
  segment : ∀ e ∈ rest, e ∈ tape.entries ∧ e.segmentIdx = seg
  done : ∀ e ∈ tape.entries, e.segmentIdx = seg →
    e ∈ rest ∨ (tape.freeIntermediateActivations.getAny overlay e.output).isSome

theorem Replaying.input (h : tape.WellFormed) (hseg : tape.Segmented) {rest : List TapeEntry}
    (hr : tape.Replaying seg (e :: rest) overlay) {id : TensorId} (hid : id ∈ e.inputs) :
    (tape.freeIntermediateActivations.getAny overlay id).isSome := by
  obtain ⟨he, hes⟩ := hr.segment e mem_cons_self
  have hlt := h.inputs e he id hid
  rcases h.free_input hseg he hid with heq | ⟨e', he', rfl, hs⟩
  · refine getAny_isSome (.inr ?_)
    rw [heq]
    exact h.present id (hlt.trans (h.output e he))
  · -- its producer comes before `e`, so it was replayed already
    refine (hr.done e' he' (hs.trans hes)).resolve_left fun hmem => ?_
    rcases mem_cons.mp hmem with rfl | hmem
    · exact absurd hlt (lt_irrefl _)
    · exact absurd ((pairwise_cons.mp hr.order).1 e' hmem) (not_lt.mpr hlt.le)

theorem Replaying.step (h : tape.WellFormed) (hseg : tape.Segmented) (hrec : tape.Recomputes replay)
    {rest : List TapeEntry} (hr : tape.Replaying seg (e :: rest) overlay) :
    ∃ overlay', tape.freeIntermediateActivations.replayInto replay overlay e = .ok overlay'
      ∧ tape.Replaying seg rest overlay' := by
  obtain ⟨he, hes⟩ := hr.segment e mem_cons_self
  have hrest := fun e' he' => hr.segment e' (mem_cons_of_mem e he')
  have horder := (pairwise_cons.mp hr.order).2
  unfold replayInto
  split_ifs with hthere
  · refine ⟨overlay, rfl, hr.held, horder, hrest, fun e' he' hs => ?_⟩
    rcases hr.done e' he' hs with hmem | hmem
    · rcases mem_cons.mp hmem with rfl | hmem
      · exact .inr (getAny_isSome hthere)
      · exact .inl hmem
    · exact .inr hmem
  · obtain ⟨t, ht, hreplay⟩ := hrec e he
    have hin : ∀ id ∈ e.inputs, tape.freeIntermediateActivations.getAny overlay id
        = tape.getAny (fun _ => none) id :=
      fun id hid => hr.held.getAny (hr.input h hseg hid)
    have hsome : ∀ id ∈ e.inputs, (tape.getAny (fun _ => none) id).isSome :=
      fun id hid => h.present id ((h.inputs e he id hid).trans (h.output e he))
    rw [replayEntry_congr replay hin hsome, hreplay]
    refine ⟨_, rfl, hr.held.update he hes ht, horder, hrest, fun e' he' hs => ?_⟩
    rcases hr.done e' he' hs with hmem | hmem
    · rcases mem_cons.mp hmem with rfl | hmem
      · refine .inr (getAny_isSome (.inl ?_))
        rw [Function.update_self]
        rfl
      · exact .inl hmem
    · exact .inr (getAny_update hmem _)

theorem replaySegment_freed (h : tape.WellFormed) (hseg : tape.Segmented)
    (hrec : tape.Recomputes replay) (hheld : tape.Held (some seg) overlay) :
    ∃ overlay', tape.freeIntermediateActivations.replaySegment replay seg overlay = .ok overlay'
      ∧ tape.Replaying seg [] overlay' := by
  unfold replaySegment
  rw [free_entries]
  refine foldlM_ok (I := tape.Replaying seg) (fun e rest s hr => hr.step h hseg hrec) ?_
  refine ⟨hheld, h.order.filter _, fun e he => ?_, fun e he hs => .inl ?_⟩
  · exact (mem_filter.mp he).imp_right of_decide_eq_true
  · exact mem_filter.mpr ⟨he, decide_eq_true hs⟩

theorem ensureEntryResolved_freed (h : tape.WellFormed) (hseg : tape.Segmented)
    (hrec : tape.Recomputes replay) (he : e ∈ tape.entries)
    (hheld : tape.Held (some e.segmentIdx) overlay) :
    ∃ overlay', tape.freeIntermediateActivations.ensureEntryResolved replay e overlay = .ok overlay'
      ∧ tape.Held (some e.segmentIdx) overlay'
      ∧ ∀ id ∈ e.inputs ++ [e.output],
        tape.freeIntermediateActivations.getAny overlay' id = tape.get id := by
  unfold ensureEntryResolved
  split_ifs with hmissing
  · obtain ⟨overlay', hrun, hr⟩ := replaySegment_freed h hseg hrec hheld
    have hdone : ∀ e' ∈ tape.entries, e'.segmentIdx = e.segmentIdx →
        (tape.freeIntermediateActivations.getAny overlay' e'.output).isSome :=
      fun e' he' hs => (hr.done e' he' hs).resolve_left not_mem_nil
    refine ⟨overlay', hrun, hr.held, fun id hid => hr.held.getAny ?_⟩
    rcases mem_append.mp hid with hid | hid
    · rcases h.free_input hseg he hid with heq | ⟨e', he', rfl, hs⟩
      · refine getAny_isSome (.inr ?_)
        rw [heq]
        exact h.present id ((h.inputs e he id hid).trans (h.output e he))
      · exact hdone e' he' hs
    · rw [mem_singleton.mp hid]
      exact hdone e he rfl
  · refine ⟨overlay, rfl, hheld, fun id hid => hheld.getAny ?_⟩
    by_contra hno
    exact hmissing ⟨id, hid, by simpa using hno⟩

theorem ensureEntryResolved_full (h : tape.WellFormed) (he : e ∈ tape.entries) :
    tape.ensureEntryResolved replay e (fun _ => none) = .ok fun _ => none := by
  unfold ensureEntryResolved
  rw [if_neg]
  rintro ⟨id, hid, hnone⟩
  have hsome : (tape.get id).isSome := by
    rcases mem_append.mp hid with hid | hid
    · exact h.present id ((h.inputs e he id hid).trans (h.output e he))
    · rw [mem_singleton.mp hid]
      exact h.present e.output (h.output e he)
  unfold getAny at hnone
  rw [Option.none_or] at hnone
  rw [Option.isNone_iff_eq_none.mp hnone] at hsome
  exact absurd hsome (by simp)

end Replay

section Evict

theorem foldl_evict (id : TensorId) : ∀ (l : List TapeEntry) (overlay : Overlay T),
    l.foldl (fun (o : Overlay T) e => Function.update o e.output none) overlay id
      = if ∃ e ∈ l, e.output = id then none else overlay id
  | [], overlay => by simp
  | e :: l, overlay => by
    rw [foldl_cons, foldl_evict id l]
    by_cases heq : e.output = id
    · simp [heq]
    · have hne : id ≠ e.output := fun h => heq h.symm
      simp [heq, Function.update_of_ne hne]

theorem Held.leave {active : Option ℕ} {overlay : Overlay T} (h : tape.Held active overlay)
    (seg : ℕ) :
    tape.Held (some seg) (tape.freeIntermediateActivations.leave active seg overlay) := by
  cases active with
  | none =>
    intro id t hid
    obtain ⟨-, e, -, -, hno⟩ := h id t hid
    exact absurd hno (by simp)
  | some prev =>
    show tape.Held (some seg) (if prev ≠ seg
      then tape.freeIntermediateActivations.evictSegmentOverlay prev overlay else overlay)
    split_ifs with hne
    · intro id t hid
      unfold evictSegmentOverlay at hid
      rw [free_entries, foldl_evict] at hid
      split_ifs at hid with hout
      obtain ⟨-, e, he, hid', hs⟩ := h id t hid
      exact absurd ⟨e, mem_filter.mpr ⟨he, decide_eq_true (Option.some.inj hs)⟩, hid'⟩ hout
    · rwa [← not_ne_iff.mp hne]

theorem leave_empty (active : Option ℕ) (seg : ℕ) :
    tape.leave active seg (fun _ => none) = fun _ => none := by
  cases active with
  | none => rfl
  | some prev =>
    show (if prev ≠ seg then tape.evictSegmentOverlay prev (fun _ => none) else fun _ => none) = _
    split_ifs
    · funext id
      unfold evictSegmentOverlay
      rw [foldl_evict, ite_self]
    · rfl

end Evict

section Pass

variable {replay : ReplayOps T} {ops : BackwardOps T}

/-- The passes over the freed and over the full tape, after the same entries. -/
structure InStep (tape : Tape T) (s s' : Pass T) : Prop where
  grads : s.grads = s'.grads
  active : s.activeSegment = s'.activeSegment
  held : tape.Held s.activeSegment s.overlay
  empty : s'.overlay = fun _ => none

theorem InStep.step (h : tape.WellFormed) (hseg : tape.Segmented) (hrec : tape.Recomputes replay)
    {e : TapeEntry} (he : e ∈ tape.entries) {s s' : Pass T} (hs : tape.InStep s s') :
    Agree tape.InStep (tape.freeIntermediateActivations.backwardEntry replay ops s e)
      (tape.backwardEntry replay ops s' e) := by
  unfold backwardEntry
  rw [← hs.grads]
  split_ifs with hnone
  · exact .ok hs
  · obtain ⟨overlay, hens, hheld, hget⟩ :=
      ensureEntryResolved_freed h hseg hrec he (hs.held.leave e.segmentIdx)
    rw [hens, hs.empty, leave_empty, ensureEntryResolved_full h he]
    have hback : ∀ outGrad, e.backward ops (tape.freeIntermediateActivations.getAny overlay)
        outGrad s.grads = e.backward ops (tape.getAny fun _ => none) outGrad s.grads := by
      refine fun outGrad => TapeEntry.backward_congr ops (fun id hid => ?_) ?_ outGrad s.grads
      · exact hget id (mem_append_left _ hid)
      · exact hget e.output (mem_append_right _ (mem_singleton_self _))
    simp only [bind, Except.bind]
    refine (agree_refl (s.grads.getGrad e.output)).bind ?_
    rintro outGrad _ rfl
    rw [hback]
    refine (agree_refl _).bind ?_
    rintro grads _ rfl
    exact .ok ⟨rfl, rfl, hheld, rfl⟩

end Pass

/-- Freeing the activations of a recorded tape changes neither the gradients nor the failure of the
backward pass. -/
theorem backward_freed {replay : ReplayOps T} (ops : BackwardOps T) (hr : tape.Recorded)
    (hseg : tape.Segmented) (hrec : tape.Recomputes replay) (lossGrad : T)
    (lossTensorId : TensorId) (params : ParamId → Option (GradBuffer T)) :
    tape.freeIntermediateActivations.backward replay ops lossGrad lossTensorId params
      = tape.backward replay ops lossGrad lossTensorId params := by
  have h := hr.wellFormed
  unfold backward
  rw [free_entries]
  refine Agree.eq ((Agree.foldlM (R := tape.InStep) (fun e he s s' hs => ?_) ?_).bind ?_)
  · exact hs.step h hseg hrec (mem_reverse.mp he)
  · exact ⟨rfl, rfl, held_empty none, rfl⟩
  · exact fun s s' hs => .ok hs.grads

def numberReplay : ReplayOps ℤ where
  matMul _ _ _ _ _ a b := .ok (a * b)
  add lhs rhs := .ok (lhs + rhs)
  scale factor t := .ok (factor.toNat * t)
  loraApply _ _ base x a b := .ok (base + x * a * b)
  siluMul gate up := .ok (gate * up)
  rmsNorm _ x w := .ok (x * w)
  rope x cos sin := .ok (x * cos - sin)
  softmax t := .ok t
  embedding _ _ _ w := .ok w

def numberBackward : BackwardOps ℤ where
  shape _ := [1]
  loraScale alpha _ := alpha
  loraBackward g x a b _ := .ok (g, g * a * b, g * x * b, g * x * a)
  matmulBackward a b g _ _ := .ok (g * b, a * g)
  addBackward g _ _ := .ok (g, g)
  scaleBackward g factor := .ok (factor.toNat * g)
  siluMulBackward gate up g := .ok (g * up, g * gate)
  rmsnormBackward x w g _ := .ok (g * w, g * x)
  ropeBackward g cos _ := .ok (g * cos)
  softmaxBackward g t := .ok (g * t)
  embeddingBackward g _ _ _ := .ok g
  selectiveScanBackward g _ _ _ _ _ _ _ := .ok (g, g)
  tensorSum g g' := .ok (g + g')
  paramSum g g' := .ok (g + g')

/-- A product in one segment, and its double times itself in the next, with the product again. -/
def squareCalls : List (Call ℤ) :=
  [.setCheckpointSegs 2, .register 3, .register 5, .markSegmentBoundary 0 0,
    .recordMatmul 0 1 15 false false 1 1 1 none, .markSegmentBoundary 1 2,
    .recordScale 2 30 2 none, .recordMatmul 3 3 900 false false 1 1 1 none,
    .recordAdd 4 2 915 none]

def squareTape : Tape ℤ := squareCalls.foldl apply new

theorem backward_freed_square :
    squareTape.freeIntermediateActivations.get 3 = none
      ∧ ∃ grads, squareTape.freeIntermediateActivations.backward numberReplay numberBackward 1 5
          (fun _ => none) = .ok grads ∧ grads.tensors 0 = some 605 := by
  have hrec : squareTape.Recomputes numberReplay := by
    intro e he
    fin_cases he <;> exact ⟨_, rfl, rfl⟩
  have hrun : Steps.exec step GivenOut new squareCalls = some squareTape := rfl
  rw [backward_freed numberBackward (Steps.reach_of_exec hrun) (by decide) hrec]
  exact ⟨by decide, _, rfl, rfl⟩

end Tape

end Grim.Autograd
