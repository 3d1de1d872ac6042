import Grim.Lib.Steps
import Grim.Scheduler.Model

/-!
# Runs of the scheduler, and where a pass puts the ids

A run calls `enqueue` with fresh ids, `schedule`, `pause`, `resume` and `finish` in any order, and
may reset the tuned limits between calls.  What follows says, for each phase of `schedule`, which
ids go from which queue to which; the invariants of runs use these and no phase's definition.
-/

namespace Grim.Scheduler

open List

inductive Call
  | enqueue (request : Request)
  | schedule (tick : Tick)
  | pause (id : ℕ)
  | resume (id : ℕ)
  | finish (id : ℕ)
  | retune (maxBatchedTokens maxNumSeqs chunkedPrefillSize : ℕ) (mode : DeterminismMode)
      (readiness : Option ReadinessDispatcher)

structure History where
  sched : Scheduler
  enqueued : List ℕ

namespace History

def step (h : History) : Call → Option History
  | .enqueue r =>
    if r.id ∈ h.enqueued then none else some ⟨h.sched.enqueue r, r.id :: h.enqueued⟩
  | .schedule tick => some ⟨(h.sched.schedule tick).1, h.enqueued⟩
  | .pause id => some ⟨(h.sched.pause id).1, h.enqueued⟩
  | .resume id => some ⟨(h.sched.resume id).1, h.enqueued⟩
  | .finish id => some ⟨h.sched.finish id, h.enqueued⟩
  | .retune tokens seqs chunk mode readiness =>
    some ⟨{ h.sched with
      maxBatchedTokens := tokens
      maxNumSeqs := seqs
      chunkedPrefillSize := chunk
      determinismMode := mode
      readiness := readiness }, h.enqueued⟩

def new (maxBatchedTokens maxNumSeqs : ℕ) (admission : AdmissionController) : History :=
  ⟨Scheduler.new maxBatchedTokens maxNumSeqs admission, []⟩

end History

abbrev ids (l : List Request) : List ℕ := l.map (·.id)

/-- One of the four queues has `id`. -/
def Tracked (s : Scheduler) (id : ℕ) : Prop :=
  id ∈ ids s.waiting ∨ id ∈ ids s.running ∨ id ∈ ids s.swapped ∨ id ∈ ids s.paused

instance (s : Scheduler) (id : ℕ) : Decidable (Tracked s id) := by
  unfold Tracked; infer_instance

/-- The calls of a run without `finish`. -/
def NoFinish (_ : History) : Call → Prop
  | .finish _ => False
  | _ => True

instance (h : History) (call : Call) : Decidable (NoFinish h call) :=
  match call with
  | .finish .. => inferInstanceAs (Decidable False)
  | .enqueue .. | .schedule .. | .pause .. | .resume .. | .retune .. =>
    inferInstanceAs (Decidable True)

/-- No pressure from the KV pool, and a throughput no target defers on. -/
def calmTick : Tick := ⟨⟨fun _ _ => 0, 0⟩, false, []⟩

/-- A prompt of `n` tokens, none consumed. -/
def freshRequest (id n : ℕ) : Request := ⟨id, n, 0, 0, []⟩

theorem mem_ids_perm {l l' : List Request} (h : l.Perm l') (id : ℕ) : id ∈ ids l ↔ id ∈ ids l' :=
  (h.map _).mem_iff

theorem mem_ids_setRunning (r : Request) (id : ℕ) :
    ∀ l : List Request, id ∈ ids (setRunning r l) ↔ id = r.id ∨ id ∈ ids l
  | [] => by simp [setRunning]
  | e :: es => by
    have ih := mem_ids_setRunning r id es
    simp only [ids] at ih
    simp only [setRunning, ids]
    split_ifs with he
    · simp only [map_cons, mem_cons, he]
      tauto
    · simp only [map_cons, mem_cons, ih]
      tauto

theorem nodup_setRunning (r : Request) :
    ∀ {l : List Request}, (ids l).Nodup → (ids (setRunning r l)).Nodup
  | [], _ => by simp [setRunning]
  | e :: es, h => by
    simp only [ids, map_cons, nodup_cons] at h
    simp only [setRunning]
    split_ifs with he
    · simpa [ids, he] using h
    · simp only [ids, map_cons, nodup_cons]
      refine ⟨?_, nodup_setRunning r h.2⟩
      rw [← ids, mem_ids_setRunning]
      rintro (heq | hmem)
      · exact he heq
      · exact h.1 hmem

theorem takeId_some {id : ℕ} :
    ∀ {l : List Request} {r : Request} {l' : List Request}, takeId id l = some (r, l') →
      r.id = id ∧ l.Perm (r :: l')
  | [], _, _, h => by simp [takeId] at h
  | q :: qs, r, l', h => by
    simp only [takeId] at h
    split_ifs at h with hq
    · simp only [Option.some.injEq, Prod.mk.injEq] at h
      obtain ⟨rfl, rfl⟩ := h
      exact ⟨hq, .refl _⟩
    · simp only [Option.map_eq_some_iff, Prod.exists, Prod.mk.injEq] at h
      obtain ⟨r', rest, ht, rfl, rfl⟩ := h
      obtain ⟨hid, hperm⟩ := takeId_some ht
      exact ⟨hid, (hperm.cons q).trans (List.Perm.swap _ _ _)⟩

theorem tracked_pause (s : Scheduler) (id x : ℕ) : Tracked (s.pause id).1 x ↔ Tracked s x := by
  unfold pause
  split
  · rename_i r running ht
    obtain ⟨rfl, hperm⟩ := takeId_some ht
    simp only [Tracked, mem_ids_perm hperm, ids, map_append, map_cons, map_nil,
      mem_append, mem_cons, not_mem_nil, or_false]
    tauto
  · rfl

theorem tracked_resume (s : Scheduler) (id x : ℕ) : Tracked (s.resume id).1 x ↔ Tracked s x := by
  unfold resume
  split
  · rename_i r paused ht
    obtain ⟨rfl, hperm⟩ := takeId_some ht
    simp only [Tracked, mem_ids_perm hperm, ids, map_append, map_cons, map_nil,
      mem_append, mem_cons, not_mem_nil, or_false]
    tauto
  · rfl

theorem sortQueues_perm (s : Scheduler) :
    s.sortQueues.waiting.Perm s.waiting ∧ s.sortQueues.running.Perm s.running := by
  unfold sortQueues
  split
  · exact ⟨perm_insertionSort _ _, perm_insertionSort _ _⟩
  · split_ifs
    · exact ⟨.refl _, .refl _⟩
    · exact ⟨perm_insertionSort _ _, .refl _⟩

theorem sortQueues_rest (s : Scheduler) :
    s.sortQueues.swapped = s.swapped ∧ s.sortQueues.paused = s.paused
      ∧ s.sortQueues.maxBatchedTokens = s.maxBatchedTokens := by
  unfold sortQueues
  split
  · exact ⟨rfl, rfl, rfl⟩
  · split_ifs <;> exact ⟨rfl, rfl, rfl⟩

theorem sum_remaining_perm {l l' : List Request} (h : l.Perm l') :
    (l.map (·.remaining)).sum = (l'.map (·.remaining)).sum :=
  (h.map _).sum_eq

theorem admitWaiting_perm (admission : AdmissionController) (est : Throughput) (backlog : ℕ) :
    ∀ l : List Request, ((admitWaiting admission est backlog l).1
      ++ (admitWaiting admission est backlog l).2).Perm l
  | [] => .refl _
  | r :: rest => by
    simp only [admitWaiting]
    split
    · exact (admitWaiting_perm admission est backlog rest).cons r
    · exact perm_append_singleton r rest

theorem preempt_cases (pressure : Bool) (total : ℕ) (s : Scheduler) :
    s.preempt pressure total = (s, []) ∨
      ∃ r running, (s.running.insertionSort (fun a b => a.priority ≤ b.priority)) = r :: running
        ∧ pressure = true ∧ s.maxBatchedTokens < total
        ∧ s.preempt pressure total
          = ({ s with running := running, swapped := s.swapped ++ [r] }, [r.id]) := by
  unfold preempt
  split_ifs with h
  · split
    · exact .inl rfl
    · rename_i r running hr
      exact .inr ⟨r, running, hr, h.1, h.2, rfl⟩
  · exact .inl rfl

theorem deferPrefill_sched (pressure : Bool) (tick : Tick) (s : Scheduler) :
    ∃ readiness, (s.deferPrefill pressure tick).1 = { s with readiness := readiness } := by
  unfold deferPrefill
  split
  · exact ⟨s.readiness, rfl⟩
  · simp only []
    split_ifs
    · exact ⟨_, rfl⟩
    · exact ⟨s.readiness, rfl⟩

theorem swapIn_back (s : Scheduler) :
    ∃ back : List Request, back.Sublist s.swapped
      ∧ (∀ r ∈ back, r.id ∉ ids s.waiting ∧ r.id ∉ ids s.running)
      ∧ (∀ r ∈ s.swapped, r ∉ back → r.id ∈ ids s.waiting ∨ r.id ∈ ids s.running)
      ∧ s.swapIn false = { s with waiting := back ++ s.waiting, swapped := [] } := by
  refine ⟨_, filter_sublist, fun r hr => ?_, fun r hr hnot => ?_, rfl⟩
  · simp only [any_eq_true, decide_eq_true_eq, not_or, not_exists, not_and,
      mem_filter] at hr
    simp only [ids, mem_map, not_exists, not_and]
    exact hr.2
  · simp only [any_eq_true, decide_eq_true_eq, mem_filter, not_and, not_not] at hnot
    simp only [ids, mem_map]
    exact hnot hr

def victim (s : Scheduler) : Option Request :=
  if s.maxBatchedTokens < s.totalRunningTokens then
    (s.sortQueues.running.insertionSort fun a b => a.priority ≤ b.priority).head?
  else none

/-- Where the queues stand when the admission loop starts: swapped requests are back in admission
and none is swapped, or the queues are as they were, or one victim has moved to `swapped`. -/
theorem beginPass_cases (tick : Tick) (s : Scheduler) :
    (s.beginPass tick).sched.paused = s.paused ∧
    ((∃ back : List Request, back.Sublist s.swapped
        ∧ (∀ r ∈ back, r.id ∉ ids s.waiting ∧ r.id ∉ ids s.running)
        ∧ (∀ r ∈ s.swapped, r ∉ back → r.id ∈ ids s.waiting ∨ r.id ∈ ids s.running)
        ∧ ((s.beginPass tick).admitted ++ (s.beginPass tick).sched.waiting).Perm
            (back ++ s.waiting)
        ∧ (s.beginPass tick).sched.running.Perm s.running
        ∧ (s.beginPass tick).sched.swapped = [])
    ∨ (((s.beginPass tick).admitted ++ (s.beginPass tick).sched.waiting).Perm s.waiting
        ∧ (s.beginPass tick).sched.running.Perm s.running
        ∧ (s.beginPass tick).sched.swapped = s.swapped)
    ∨ ∃ r, s.victim = some r
        ∧ ((s.beginPass tick).admitted ++ (s.beginPass tick).sched.waiting).Perm s.waiting
        ∧ (r :: (s.beginPass tick).sched.running).Perm s.running
        ∧ (s.beginPass tick).sched.swapped = s.swapped ++ [r]) := by
  obtain ⟨hw, hr⟩ := s.sortQueues_perm
  obtain ⟨hsw, hpa, hmax⟩ := s.sortQueues_rest
  have htot : s.sortQueues.totalRunningTokens = s.totalRunningTokens := sum_remaining_perm hr
  unfold beginPass
  simp only []
  generalize s.sortQueues.pressureActive tick = pressure
  set aw := admitWaiting (s.sortQueues.swapIn pressure).admission tick.throughput
    s.sortQueues.computeTokenBacklog (s.sortQueues.swapIn pressure).waiting
  have haw : (aw.1 ++ aw.2).Perm (s.sortQueues.swapIn pressure).waiting := admitWaiting_perm _ _ _ _
  obtain hp | ⟨r, running, hins, rfl, hlt, hp⟩ := preempt_cases pressure
    s.sortQueues.totalRunningTokens { s.sortQueues.swapIn pressure with waiting := aw.2 }
  · rw [hp]
    obtain ⟨rd, hrd⟩ := deferPrefill_sched pressure tick
      { s.sortQueues.swapIn pressure with waiting := aw.2 }
    rw [hrd]
    cases pressure with
    | false =>
      obtain ⟨back, hsub, hfree, htrack, heq⟩ := s.sortQueues.swapIn_back
      rw [heq] at haw ⊢
      simp only [mem_ids_perm hw, mem_ids_perm hr, hsw] at hsub hfree htrack
      exact ⟨hpa, .inl ⟨back, hsub, hfree, htrack, haw.trans (hw.append_left back), hr, rfl⟩⟩
    | true => exact ⟨hpa, .inr (.inl ⟨haw.trans hw, hr, hsw⟩)⟩
  · rw [hp]
    obtain ⟨rd, hrd⟩ := deferPrefill_sched true tick
      { s.sortQueues with
        waiting := aw.2
        running := running
        swapped := s.sortQueues.swapped ++ [r] }
    simp only [swapIn, if_true] at hins hlt hrd ⊢
    rw [hrd]
    refine ⟨hpa, .inr (.inr ⟨r, ?_, haw.trans hw, ?_, by rw [hsw]⟩)⟩
    · rw [victim, if_pos (by rw [← htot, ← hmax]; exact hlt), hins, head?_cons]
    · rw [← hins]
      exact (perm_insertionSort _ _).trans hr

section AdmitState

variable (st : AdmitState) (r : Request) (chunk : ℕ)

@[simp] theorem putBack_prefillIds : (st.putBack r).prefillIds = st.prefillIds := rfl

@[simp] theorem putBack_totalPrefill : (st.putBack r).totalPrefill = st.totalPrefill := rfl

@[simp] theorem place_prefillIds : (st.place r).prefillIds = st.prefillIds := rfl

@[simp] theorem place_totalPrefill : (st.place r).totalPrefill = st.totalPrefill := rfl

@[simp] theorem requeue_running : (st.requeue r chunk).running = st.running := by
  unfold AdmitState.requeue; split_ifs <;> rfl

@[simp] theorem requeue_prefillIds : (st.requeue r chunk).prefillIds = st.prefillIds := by
  unfold AdmitState.requeue; split_ifs <;> rfl

@[simp] theorem requeue_totalPrefill : (st.requeue r chunk).totalPrefill = st.totalPrefill := by
  unfold AdmitState.requeue; split_ifs <;> rfl

@[simp] theorem prefill_prefillIds : (st.prefill r chunk).prefillIds = st.prefillIds ++ [r.id] :=
  rfl

@[simp] theorem prefill_totalPrefill :
    (st.prefill r chunk).totalPrefill = st.totalPrefill + chunk := rfl

theorem mem_ids_prefill_running (id : ℕ) :
    id ∈ ids (st.prefill r chunk).running ↔ id = r.id ∨ id ∈ ids st.running :=
  mem_ids_setRunning _ _ _

theorem mem_requeue_waiting {id : ℕ} (h : id ∈ ids st.waiting) :
    id ∈ ids (st.requeue r chunk).waiting := by
  unfold AdmitState.requeue
  split_ifs
  · simp only [AdmitState.putBack, ids, map_append]
    exact mem_append_left _ h
  · exact h

end AdmitState

/-- What happens to the requests of ids `l` between two states of the loop: some go to the back of
`waiting`, and some become running entries, one to an id. -/
structure Moved (l : List ℕ) (st st' : AdmitState) : Prop where
  waiting : ∃ back, (ids st'.waiting).Perm (ids st.waiting ++ back) ∧ back.Subperm l
  running : ∀ id ∈ ids st'.running, id ∈ ids st.running ∨ id ∈ l
  running_mono : ∀ id ∈ ids st.running, id ∈ ids st'.running
  nodup : (ids st.running).Nodup → (ids st'.running).Nodup
  prefill : ∀ id ∈ st'.prefillIds, id ∈ st.prefillIds ∨ id ∈ l

theorem Moved.mono {l l' : List ℕ} {st st' : AdmitState} (h : Moved l st st') (hl : l.Subperm l') :
    Moved l' st st' where
  waiting := let ⟨back, hp, hb⟩ := h.waiting; ⟨back, hp, hb.trans hl⟩
  running := fun id hid => (h.running id hid).imp_right (hl.subset ·)
  running_mono := h.running_mono
  nodup := h.nodup
  prefill := fun id hid => (h.prefill id hid).imp_right (hl.subset ·)

theorem Moved.trans {l l' : List ℕ} {st st' st'' : AdmitState} (h : Moved l st st')
    (h' : Moved l' st' st'') : Moved (l ++ l') st st'' where
  waiting := by
    obtain ⟨back, hp, hb⟩ := h.waiting
    obtain ⟨back', hp', hb'⟩ := h'.waiting
    refine ⟨back ++ back', ?_, hb.append hb'⟩
    rw [← append_assoc]
    exact hp'.trans (hp.append_right back')
  running := by
    intro id hid
    rw [mem_append]
    rcases h'.running id hid with hid | hid
    · exact (h.running id hid).imp_right .inl
    · exact .inr (.inr hid)
  running_mono := fun id hid => h'.running_mono id (h.running_mono id hid)
  nodup := fun hn => h'.nodup (h.nodup hn)
  prefill := by
    intro id hid
    rw [mem_append]
    rcases h'.prefill id hid with hid | hid
    · exact (h.prefill id hid).imp_right .inl
    · exact .inr (.inr hid)

theorem Moved.mem_waiting {l : List ℕ} {st st' : AdmitState} (h : Moved l st st') {id : ℕ}
    (hid : id ∈ ids st.waiting) : id ∈ ids st'.waiting := by
  obtain ⟨back, hp, -⟩ := h.waiting
  exact hp.mem_iff.mpr (mem_append_left _ hid)

theorem moved_refl (st : AdmitState) : Moved [] st st where
  waiting := ⟨[], by rw [append_nil], .refl _⟩
  running := fun _ h => .inl h
  running_mono := fun _ h => h
  nodup := fun h => h
  prefill := fun _ h => .inl h

theorem moved_putBack (st : AdmitState) (r : Request) : Moved [r.id] st (st.putBack r) where
  waiting := ⟨[r.id], by simp [AdmitState.putBack, ids], .refl _⟩
  running := fun _ h => .inl h
  running_mono := fun _ h => h
  nodup := fun h => h
  prefill := fun _ h => .inl h

theorem moved_place (st : AdmitState) (r : Request) : Moved [r.id] st (st.place r) where
  waiting := ⟨[], by simp [AdmitState.place], nil_subperm⟩
  running := by
    intro id h
    rw [mem_singleton]
    exact ((mem_ids_setRunning r id _).mp h).symm
  running_mono := fun id h => (mem_ids_setRunning r id _).mpr (.inr h)
  nodup := nodup_setRunning r
  prefill := fun _ h => .inl h

theorem moved_prefill (st : AdmitState) (r : Request) (chunk : ℕ) (leftover : List Request) :
    Moved (r.id :: ids leftover) st
      ({ st.prefill r chunk with
        waiting := (st.prefill r chunk).waiting ++ leftover }.requeue r chunk) := by
  have hplace := moved_place st { r with consumedTokens := r.consumedTokens + chunk }
  have hwait : ∀ w : List Request, ∃ back,
      (ids (w ++ leftover ++ [{ r with consumedTokens := r.consumedTokens + chunk }])).Perm
        (ids w ++ back) ∧ back.Perm (r.id :: ids leftover) := by
    intro w
    refine ⟨ids leftover ++ [r.id], by simp [ids], perm_append_singleton _ _⟩
  unfold AdmitState.requeue
  split_ifs with hrem
  · refine ⟨?_, fun id h => ?_, hplace.running_mono, hplace.nodup, fun id h => ?_⟩
    · obtain ⟨back, hp, hb⟩ := hwait st.waiting
      exact ⟨back, hp, hb.subperm⟩
    · exact (hplace.running id h).imp_right fun h => by simp at h; simp [h]
    · have : id ∈ st.prefillIds ++ [r.id] := h
      rw [mem_append, mem_singleton] at this
      exact this.imp_right fun h => by simp [h]
  · refine ⟨⟨ids leftover, by simp [AdmitState.prefill, AdmitState.place, ids],
      (sublist_cons_self _ _).subperm⟩, fun id h => ?_, hplace.running_mono, hplace.nodup,
      fun id h => ?_⟩
    · exact (hplace.running id h).imp_right fun h => by simp at h; simp [h]
    · have : id ∈ st.prefillIds ++ [r.id] := h
      rw [mem_append, mem_singleton] at this
      exact this.imp_right fun h => by simp [h]

theorem moved_requeue (st : AdmitState) (r : Request) (chunk : ℕ) :
    Moved [r.id] st ((st.prefill r chunk).requeue r chunk) := by
  have h := moved_prefill st r chunk []
  rw [append_nil] at h
  exact h

theorem admitLoop_invariant (c : AdmitCtx) {I : List Request → AdmitState → Prop}
    (hback : ∀ r rest st, I (r :: rest) st → I rest (st.putBack r))
    (hplace : ∀ r rest st, r.remaining = 0 → I (r :: rest) st → I rest (st.place r))
    (hover : ∀ r rest st, I (r :: rest) st → I [] (st.putBack r))
    (hlast : ∀ r rest st, st.totalPrefill + c.chunkSize r ≤ c.maxBatchedTokens →
      I (r :: rest) st → I [] ({ st.prefill r (c.chunkSize r) with
        waiting := (st.prefill r (c.chunkSize r)).waiting ++ rest.reverse }.requeue r
          (c.chunkSize r)))
    (hchunk : ∀ r rest st, st.totalPrefill + c.chunkSize r ≤ c.maxBatchedTokens →
      I (r :: rest) st → I rest ((st.prefill r (c.chunkSize r)).requeue r (c.chunkSize r))) :
    ∀ {admitted : List Request} {st : AdmitState}, I admitted st →
      I [] (admitLoop c admitted st) := by
  intro admitted
  induction admitted with
  | nil => exact fun {st} h => h
  | cons r rest ih =>
    intro st h
    unfold admitLoop
    split_ifs with hcap hdefer hzero hbudget hpressure
    · exact ih (hback r rest st h)
    · exact ih (hback r rest st h)
    · exact ih (hplace r rest st hzero h)
    · exact hover r rest st h
    · exact hlast r rest st (Nat.le_of_not_lt hbudget) h
    · exact ih (hchunk r rest st (Nat.le_of_not_lt hbudget) h)

theorem admitLoop_moved (c : AdmitCtx) :
    ∀ (admitted : List Request) (st : AdmitState), Moved (ids admitted) st (admitLoop c admitted st)
  | [], st => moved_refl st
  | r :: admitted, st => by
    have ih := admitLoop_moved c admitted
    simp only [admitLoop]
    split_ifs with h1 h2 h3 h4 h5
    · exact (moved_putBack st r).trans (ih _)
    · exact (moved_putBack st r).trans (ih _)
    · exact (moved_place st r).trans (ih _)
    · exact (moved_putBack st r).mono (by simp [ids])
    · refine (moved_prefill st r _ admitted.reverse).mono (List.Perm.subperm ?_)
      exact ((reverse_perm admitted).map _).cons r.id
    · exact (moved_requeue st r _).trans (ih _)

end Grim.Scheduler
