import Grim.Scheduler.Runs

/-!
# No request is lost, but by the budget

A pass takes the admitted requests out of `waiting`.  It hands each of them back or makes it a
running entry (`admitLoop_keeps`), except where a chunk overruns the token budget: there the loop
is left, and the requests still behind that one go with the local queue.
-/

namespace Grim.Scheduler

open List

def NoneLost (h : History) : Prop := ∀ id ∈ h.enqueued, Tracked h.sched id

instance (h : History) : Decidable (NoneLost h) := by unfold NoneLost; infer_instance

/-- How many of `l` have a prompt left to prefill. -/
def pending (l : List Request) : ℕ := l.countP (·.remaining ≠ 0)

/-- The prompt tokens `l` has left to prefill. -/
def unspent (l : List Request) : ℕ := (l.map (·.remaining)).sum

/-- With `n` sequences and `total` tokens taken already, the admitted requests `pre` pass and the
chunk of `r`, the next to prefill, overruns the budget while others are behind it. -/
def Strands (c : AdmitCtx) (n total : ℕ) (admitted : List Request) : Prop :=
  c.decodeDeferredPrefill = false ∧
    ∃ pre r post, admitted = pre ++ r :: post ∧ post ≠ [] ∧ r.remaining ≠ 0
      ∧ (c.pressure → ∀ p ∈ pre, p.remaining = 0) ∧ n + pending pre < c.maxNumSeqs
      ∧ c.maxBatchedTokens < total + unspent pre + c.chunkSize r

instance (c : AdmitCtx) (n total : ℕ) (admitted : List Request) :
    Decidable (Strands c n total admitted) :=
  decidable_of_iff (c.decodeDeferredPrefill = false ∧
    ∃ i : Fin admitted.length, admitted.drop (i + 1) ≠ [] ∧ admitted[i].remaining ≠ 0
      ∧ (c.pressure → ∀ p ∈ admitted.take i, p.remaining = 0)
      ∧ n + pending (admitted.take i) < c.maxNumSeqs
      ∧ c.maxBatchedTokens < total + unspent (admitted.take i) + c.chunkSize admitted[i]) <| by
    refine and_congr_right fun _ => ⟨fun ⟨i, h⟩ => ?_, fun ⟨pre, r, post, heq, h⟩ => ?_⟩
    · refine ⟨admitted.take i, admitted[i], admitted.drop (i + 1), ?_, h⟩
      simp
    · subst heq
      refine ⟨⟨pre.length, by simp⟩, ?_⟩
      simpa using h

theorem pending_cons (r : Request) (l : List Request) :
    pending (r :: l) = pending [r] + pending l := by
  rw [← singleton_append, pending, countP_append]; rfl

theorem unspent_cons (r : Request) (l : List Request) :
    unspent (r :: l) = r.remaining + unspent l := by
  simp only [unspent, map_cons, sum_cons]

theorem Strands.cons {c : AdmitCtx} {n total : ℕ} {r : Request} {admitted : List Request}
    (hr : c.pressure → r.remaining = 0)
    (h : Strands c (n + pending [r]) (total + r.remaining) admitted) :
    Strands c n total (r :: admitted) := by
  obtain ⟨hd, pre, q, post, rfl, hpost, hq, hpre, hn, ht⟩ := h
  refine ⟨hd, r :: pre, q, post, rfl, hpost, hq, fun hp => ?_, ?_, ?_⟩
  · exact forall_mem_cons.mpr ⟨hr hp, hpre hp⟩
  · rw [pending_cons]
    omega
  · rw [unspent_cons]
    omega

theorem chunkSize_of_not_pressure {c : AdmitCtx} (h : ¬ c.pressure) (r : Request) :
    c.chunkSize r = r.remaining := by
  simp [AdmitCtx.chunkSize, h]

/-- Where the budget strands nobody, each admitted request ends in `waiting` or in `running`. -/
theorem admitLoop_keeps (c : AdmitCtx) :
    ∀ (admitted : List Request) (st : AdmitState),
      ¬ Strands c (c.currentRunning + st.prefillIds.length) st.totalPrefill admitted →
      ∀ id ∈ ids admitted, id ∈ ids (admitLoop c admitted st).waiting
        ∨ id ∈ ids (admitLoop c admitted st).running
  | [], _, _, id, hid => by simp at hid
  | r :: admitted, st, hs, id, hid => by
    have ih := admitLoop_keeps c admitted
    have hmov := admitLoop_moved c admitted
    have hback : r.id ∈ ids (st.putBack r).waiting := by simp [AdmitState.putBack, ids]
    have hid' : id = r.id ∨ id ∈ ids admitted := by
      simpa only [ids, map_cons, mem_cons] using hid
    simp only [admitLoop]
    split_ifs with h1 h2 h3 h4 h5
    · rcases hid' with rfl | hid'
      · exact .inl ((hmov _).mem_waiting hback)
      · refine ih _ (fun h => ?_) id hid'
        obtain ⟨-, pre, q, post, -, -, -, -, hn, -⟩ := h
        simp only [AdmitState.putBack] at hn
        omega
    · rcases hid' with rfl | hid'
      · exact .inl ((hmov _).mem_waiting hback)
      · exact ih _ (fun h => by simp [h.1] at h2) id hid'
    · rcases hid' with rfl | hid'
      · exact .inr ((hmov _).running_mono _ ((mem_ids_setRunning r r.id _).mpr (.inl rfl)))
      · refine ih _ (fun h => hs (Strands.cons (fun _ => h3) ?_)) id hid'
        simpa [pending, h3] using h
    · -- the requests behind `r` are dropped, so there are none
      rcases hid' with rfl | hid'
      · exact .inl hback
      · refine absurd ⟨by simpa using h2, [], r, admitted, rfl, ?_, h3, by simp, ?_, ?_⟩ hs
        · rintro rfl
          simp at hid'
        · simp only [pending, countP_nil]
          omega
        · simpa [unspent] using h4
    · rcases hid' with rfl | hid'
      · right
        rw [requeue_running]
        exact (mem_ids_prefill_running st r _ r.id).mpr (.inl rfl)
      · left
        refine mem_requeue_waiting _ r _ ?_
        simp only [ids, map_append, map_reverse, mem_append, mem_reverse]
        exact .inr hid'
    · have hch := chunkSize_of_not_pressure h5 r
      rcases hid' with rfl | hid'
      · refine .inr ((hmov _).running_mono _ ?_)
        rw [requeue_running]
        exact (mem_ids_prefill_running st r _ r.id).mpr (.inl rfl)
      · refine ih _ (fun h => hs (Strands.cons (fun hp => absurd hp h5) ?_)) id hid'
        simpa [pending, h3, hch, Nat.add_assoc] using h

theorem schedule_tracked {s : Scheduler} {tick : Tick}
    (hs : ¬ Strands (s.beginPass tick).ctx (s.beginPass tick).ctx.currentRunning 0
      (s.beginPass tick).admitted) {id : ℕ} (h : Tracked s id) :
    Tracked (s.schedule tick).1 id := by
  have hkeep := admitLoop_keeps (s.beginPass tick).ctx (s.beginPass tick).admitted
    ⟨(s.beginPass tick).sched.waiting, (s.beginPass tick).sched.running,
      (s.beginPass tick).sched.admittedTotal, [], 0⟩ (by simpa using hs) id
  have hmov := admitLoop_moved (s.beginPass tick).ctx (s.beginPass tick).admitted
    ⟨(s.beginPass tick).sched.waiting, (s.beginPass tick).sched.running,
      (s.beginPass tick).sched.admittedTotal, [], 0⟩
  -- what the loop starts from is in the queues it leaves
  have hfrom : (id ∈ ids ((s.beginPass tick).admitted ++ (s.beginPass tick).sched.waiting)
      ∨ id ∈ ids (s.beginPass tick).sched.running) → Tracked (s.schedule tick).1 id := by
    rintro (hid | hid)
    · rw [ids, map_append, mem_append] at hid
      rcases hid with hid | hid
      · rcases hkeep hid with hid | hid
        · exact .inl hid
        · exact .inr (.inl hid)
      · exact .inl (hmov.mem_waiting hid)
    · exact .inr (.inl (hmov.running_mono id hid))
  obtain ⟨hpa, hq⟩ := beginPass_cases tick s
  have hpaused : id ∈ ids s.paused → Tracked (s.schedule tick).1 id := by
    intro hid
    refine .inr (.inr (.inr ?_))
    show id ∈ ids (s.beginPass tick).sched.paused
    rwa [hpa]
  rcases hq with ⟨back, hsub, hfree, htrack, hw, hr, hsw⟩ | ⟨hw, hr, hsw⟩ |
    ⟨v, hv, hw, hr, hsw⟩
  · have hwait : id ∈ ids s.waiting → Tracked (s.schedule tick).1 id := by
      intro hid
      refine hfrom (.inl ((mem_ids_perm hw id).mpr ?_))
      rw [ids, map_append]
      exact mem_append_right _ hid
    have hrun : id ∈ ids s.running → Tracked (s.schedule tick).1 id := fun hid =>
      hfrom (.inr ((mem_ids_perm hr id).mpr hid))
    rcases h with h | h | h | h
    · exact hwait h
    · exact hrun h
    · obtain ⟨r, hr, rfl⟩ := mem_map.mp h
      by_cases hb : r ∈ back
      · refine hfrom (.inl ((mem_ids_perm hw r.id).mpr ?_))
        rw [ids, map_append]
        exact mem_append_left _ (mem_map_of_mem hb)
      · exact (htrack r hr hb).elim hwait hrun
    · exact hpaused h
  · rcases h with h | h | h | h
    · exact hfrom (.inl ((mem_ids_perm hw id).mpr h))
    · exact hfrom (.inr ((mem_ids_perm hr id).mpr h))
    · refine .inr (.inr (.inl ?_))
      show id ∈ ids (s.beginPass tick).sched.swapped
      rwa [hsw]
    · exact hpaused h
  · have hswap : ids (s.schedule tick).1.swapped = ids s.swapped ++ [v.id] := by
      show ids (s.beginPass tick).sched.swapped = _
      rw [hsw, ids, map_append]
      rfl
    rcases h with h | h | h | h
    · exact hfrom (.inl ((mem_ids_perm hw id).mpr h))
    · rw [← mem_ids_perm hr id, ids, map_cons, mem_cons] at h
      rcases h with rfl | h
      · refine .inr (.inr (.inl ?_))
        rw [hswap]
        exact mem_append_right _ (mem_singleton_self _)
      · exact hfrom (.inr h)
    · refine .inr (.inr (.inl ?_))
      rw [hswap]
      exact mem_append_left _ h
    · exact hpaused h

/-- No `finish`, and no pass whose budget strands an admitted request. -/
def HandsBack (h : History) : Call → Prop
  | .schedule tick =>
    ¬ Strands (h.sched.beginPass tick).ctx (h.sched.beginPass tick).ctx.currentRunning
      0 (h.sched.beginPass tick).admitted
  | .finish _ => False
  | _ => True

theorem noneLost_step {h h' : History} {call : Call} (hI : NoneLost h) (hok : HandsBack h call)
    (hs : h.step call = some h') : NoneLost h' := by
  cases call with
  | enqueue r =>
    simp only [History.step] at hs
    split_ifs at hs
    simp only [Option.some.injEq] at hs
    subst hs
    intro id hid
    simp only [Tracked, enqueue, ids, map_append, map_cons, map_nil,
      mem_append, mem_singleton]
    rcases mem_cons.mp hid with rfl | hid
    · exact .inl (.inr rfl)
    · exact (hI id hid).imp_left .inl
  | schedule tick =>
    simp only [History.step, Option.some.injEq] at hs
    subst hs
    exact fun id hid => schedule_tracked hok (hI id hid)
  | pause id =>
    simp only [History.step, Option.some.injEq] at hs
    subst hs
    exact fun id' hid => (tracked_pause _ id id').mpr (hI id' hid)
  | resume id =>
    simp only [History.step, Option.some.injEq] at hs
    subst hs
    exact fun id' hid => (tracked_resume _ id id').mpr (hI id' hid)
  | finish id => exact hok.elim
  | retune =>
    simp only [History.step, Option.some.injEq] at hs
    subst hs
    exact hI

/-- In every run without `finish` whose passes strand nobody, every id ever enqueued is in one of
the four queues after each call. -/
theorem no_request_lost (maxBatchedTokens maxNumSeqs : ℕ) (admission : AdmissionController)
    {h : History}
    (hr : Steps.Reach History.step HandsBack (.new maxBatchedTokens maxNumSeqs admission) h) :
    NoneLost h :=
  hr.invariant (by simp [NoneLost, History.new]) fun _ _ _ => noneLost_step

instance (h : History) (call : Call) : Decidable (HandsBack h call) :=
  match call with
  | .schedule _ => inferInstanceAs (Decidable (¬ _))
  | .finish .. => inferInstanceAs (Decidable False)
  | .enqueue .. | .pause .. | .resume .. | .retune .. => inferInstanceAs (Decidable True)

/-- Two prompts under pressure, one chunked, with a pause between the passes. -/
def chunkedCalls : List Call :=
  [.retune 100 8 50 .relaxed none, .enqueue (freshRequest 1 120), .enqueue (freshRequest 2 40),
    .schedule calmTick, .pause 1, .schedule calmTick]

theorem no_request_lost_chunked :
    ∃ h, Steps.exec History.step HandsBack (.new 100 8 ⟨0, 0⟩) chunkedCalls = some h
      ∧ NoneLost h := by
  obtain ⟨h, hrun⟩ : ∃ h, Steps.exec History.step HandsBack (.new 100 8 ⟨0, 0⟩) chunkedCalls
      = some h := ⟨_, rfl⟩
  exact ⟨h, hrun, no_request_lost 100 8 ⟨0, 0⟩ (Steps.reach_of_exec hrun)⟩

def overBudgetCalls : List Call :=
  [.enqueue (freshRequest 1 200), .enqueue (freshRequest 2 200), .schedule calmTick]

/-- The first chunk overruns the budget, and the request behind it is gone. -/
theorem budget_break_loses_request :
    ¬ ∀ (maxBatchedTokens maxNumSeqs : ℕ) (admission : AdmissionController) (h : History),
      Steps.Reach History.step NoFinish (.new maxBatchedTokens maxNumSeqs admission) h →
      NoneLost h := by
  intro hall
  have hrun : ∃ h, Steps.exec History.step NoFinish (.new 100 8 ⟨0, 0⟩) overBudgetCalls = some h
      ∧ ¬ NoneLost h := ⟨_, rfl, by decide⟩
  obtain ⟨h, hrun, hlost⟩ := hrun
  exact hlost (hall 100 8 ⟨0, 0⟩ h (Steps.reach_of_exec hrun))

end Grim.Scheduler
