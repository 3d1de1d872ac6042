import Grim.Scheduler.Lost

/-!
# The cap on running sequences

The admission loop checks the cap against the sequences that ran when it started and the prefills
it has handed out since.  A fully prefilled request goes into `running` uncounted, so a request
behind it can find the cap reached and be taken up all the same (`Overruns`).
-/

namespace Grim.Scheduler

open List

/-- How many ids of `l` do not run yet. -/
def newcomers (running l : List Request) : ℕ :=
  ((ids l).toFinset \ (ids running).toFinset).card

/-- With `n` sequences and `total` tokens counted, the loop takes up `r`, which does not run yet,
when the running sequences and the newcomers before `r` fill the cap. -/
def Overruns (c : AdmitCtx) (running : List Request) (n total : ℕ) (admitted : List Request) :
    Prop :=
  c.decodeDeferredPrefill = false ∧
    ∃ pre r post, admitted = pre ++ r :: post ∧ (c.pressure → ∀ p ∈ pre, p.remaining = 0)
      ∧ n + pending pre < c.maxNumSeqs
      ∧ total + unspent pre + c.chunkSize r ≤ c.maxBatchedTokens
      ∧ r.id ∉ ids running ∧ r.id ∉ ids pre
      ∧ c.maxNumSeqs ≤ running.length + newcomers running pre

instance (c : AdmitCtx) (running : List Request) (n total : ℕ) (admitted : List Request) :
    Decidable (Overruns c running n total admitted) :=
  decidable_of_iff (c.decodeDeferredPrefill = false ∧
    ∃ i : Fin admitted.length, (c.pressure → ∀ p ∈ admitted.take i, p.remaining = 0)
      ∧ n + pending (admitted.take i) < c.maxNumSeqs
      ∧ total + unspent (admitted.take i) + c.chunkSize (admitted.get i) ≤ c.maxBatchedTokens
      ∧ (admitted.get i).id ∉ ids running ∧ (admitted.get i).id ∉ ids (admitted.take i)
      ∧ c.maxNumSeqs ≤ running.length + newcomers running (admitted.take i)) <| by
    refine and_congr_right fun _ => ⟨fun ⟨i, h⟩ => ?_, fun ⟨pre, r, post, heq, h⟩ => ?_⟩
    · exact ⟨admitted.take i, admitted.get i, admitted.drop (i + 1), by simp, h⟩
    · subst heq
      exact ⟨⟨pre.length, by simp⟩, by simpa using h⟩

theorem length_setRunning (r : Request) :
    ∀ l : List Request, (setRunning r l).length = if r.id ∈ ids l then l.length else l.length + 1
  | [] => by simp [setRunning]
  | e :: es => by
    have ih := length_setRunning r es
    by_cases he : e.id = r.id
    · simp [setRunning, he, ids]
    · have hne : r.id ≠ e.id := fun h => he h.symm
      simp only [setRunning, he, if_false, length_cons, ih, ids, map_cons, mem_cons,
        hne, false_or]
      split_ifs <;> rfl

theorem length_le_setRunning (r : Request) (l : List Request) :
    l.length ≤ (setRunning r l).length := by
  rw [length_setRunning]
  split_ifs <;> omega

theorem length_add_newcomers (r : Request) (running l : List Request) :
    (setRunning r running).length + newcomers (setRunning r running) l
      = running.length + newcomers running (r :: l) := by
  have hset : (ids (setRunning r running)).toFinset = insert r.id (ids running).toFinset := by
    ext x
    simp only [mem_toFinset, mem_ids_setRunning, Finset.mem_insert]
  have hcons : (ids (r :: l)).toFinset = insert r.id (ids l).toFinset := toFinset_cons
  rw [length_setRunning, newcomers, newcomers, hset, hcons]
  split_ifs with hr
  · rw [Finset.insert_eq_self.mpr (mem_toFinset.mpr hr),
      Finset.insert_sdiff_of_mem _ (mem_toFinset.mpr hr)]
  · rw [Finset.insert_sdiff_of_notMem _ (by rwa [mem_toFinset]), Finset.sdiff_insert,
      Finset.card_insert_eq_ite, Finset.card_erase_eq_ite]
    split_ifs with hm
    · have := Finset.card_pos.mpr ⟨_, hm⟩
      omega
    · omega

theorem overruns_cons {c : AdmitCtx} {running : List Request} {n total : ℕ} {r r' : Request}
    {admitted : List Request} (hid : r'.id = r.id) :
    Overruns c running n total (r :: admitted) ↔
      (c.decodeDeferredPrefill = false ∧ n < c.maxNumSeqs
        ∧ total + c.chunkSize r ≤ c.maxBatchedTokens ∧ r.id ∉ ids running
        ∧ c.maxNumSeqs ≤ running.length)
      ∨ ((c.pressure → r.remaining = 0)
        ∧ Overruns c (setRunning r' running) (n + pending [r]) (total + r.remaining) admitted) := by
  have hnew : ∀ l, newcomers running (r :: l) = newcomers running (r' :: l) := by
    intro l
    simp only [newcomers, ids, map_cons, hid]
  constructor
  · rintro ⟨hd, pre, q, post, heq, hp, hn, ht, hq, hqp, hcap⟩
    rcases pre with _ | ⟨p, pre⟩
    · obtain ⟨rfl, rfl⟩ : r = q ∧ admitted = post := by simpa using heq
      simp [pending, unspent, newcomers] at hn ht hcap
      exact .inl ⟨hd, hn, ht, hq, hcap⟩
    · obtain ⟨rfl, rfl⟩ : r = p ∧ admitted = pre ++ q :: post := by simpa using heq
      rw [pending_cons] at hn
      rw [unspent_cons] at ht
      rw [hnew, ← length_add_newcomers] at hcap
      simp only [ids, map_cons, mem_cons, not_or] at hqp
      refine .inr ⟨fun h => (forall_mem_cons.mp (hp h)).1, hd, pre, q, post, rfl,
        fun h => (forall_mem_cons.mp (hp h)).2, by omega, by omega, ?_, hqp.2, hcap⟩
      rw [mem_ids_setRunning, hid, not_or]
      exact ⟨hqp.1, hq⟩
  · rintro (⟨hd, hn, ht, hr, hcap⟩ | ⟨hr, hd, pre, q, post, rfl, hp, hn, ht, hq, hqp, hcap⟩)
    · exact ⟨hd, [], r, admitted, rfl, by simp, by simpa [pending] using hn,
        by simpa [unspent] using ht, hr, by simp, by simpa [newcomers] using hcap⟩
    · rw [mem_ids_setRunning, hid, not_or] at hq
      rw [length_add_newcomers, ← hnew] at hcap
      refine ⟨hd, r :: pre, q, post, rfl, fun h => forall_mem_cons.mpr ⟨hr h, hp h⟩, ?_, ?_,
        hq.2, ?_, hcap⟩
      · rw [pending_cons]
        omega
      · rw [unspent_cons]
        omega
      · simp only [ids, map_cons, mem_cons, not_or]
        exact ⟨hq.1, hqp⟩

theorem not_overruns_of_cap {c : AdmitCtx} {running : List Request} {n total : ℕ}
    {admitted : List Request} (h : c.maxNumSeqs ≤ n) : ¬ Overruns c running n total admitted := by
  rintro ⟨-, pre, -, -, -, -, hn, -⟩
  omega

theorem not_overruns_of_budget {c : AdmitCtx} {running : List Request} {n total : ℕ}
    {admitted : List Request} (h : c.maxBatchedTokens < total) :
    ¬ Overruns c running n total admitted := by
  rintro ⟨-, pre, r, -, -, -, -, ht, -⟩
  omega

theorem admitLoop_length_le (c : AdmitCtx) (admitted : List Request) (st : AdmitState) :
    st.running.length ≤ (admitLoop c admitted st).running.length := by
  have hset := length_le_setRunning
  refine admitLoop_invariant c (I := fun _ st' => st.running.length ≤ st'.running.length)
    (fun _ _ _ h => h) (fun r _ st' _ h => h.trans (hset r st'.running)) (fun _ _ _ h => h)
    (fun r _ st' _ h => ?_) (fun r _ st' _ h => ?_) le_rfl
  all_goals
    rw [requeue_running]
    exact h.trans (hset _ st'.running)

/-- The loop keeps the cap if and only if it takes up no request over it. -/
theorem admitLoop_length (c : AdmitCtx) :
    ∀ (admitted : List Request) (st : AdmitState), st.running.length ≤ c.maxNumSeqs →
      st.totalPrefill ≤ c.maxBatchedTokens →
      ((admitLoop c admitted st).running.length ≤ c.maxNumSeqs ↔
        ¬ Overruns c st.running (c.currentRunning + st.prefillIds.length) st.totalPrefill admitted)
  | [], st, hlen, _ => by
    refine ⟨fun _ => ?_, fun _ => hlen⟩
    rintro ⟨-, pre, r, post, heq, -⟩
    simp at heq
  | r :: admitted, st, hlen, htot => by
    have ih := admitLoop_length c admitted
    -- what follows once `r'` runs, by whether it fits
    have hnext : ∀ (st' : AdmitState) (r' : Request), r'.id = r.id →
        st'.running = setRunning r' st.running →
        st'.prefillIds.length = st.prefillIds.length + pending [r] →
        st'.totalPrefill = st.totalPrefill + r.remaining →
        st'.totalPrefill ≤ c.maxBatchedTokens → c.chunkSize r = r.remaining →
        c.currentRunning + st.prefillIds.length < c.maxNumSeqs → ¬ c.decodeDeferredPrefill →
        (c.pressure → r.remaining = 0) →
        ((admitLoop c admitted st').running.length ≤ c.maxNumSeqs ↔
          ¬ Overruns c st.running (c.currentRunning + st.prefillIds.length) st.totalPrefill
            (r :: admitted)) := by
      intro st' r' hid hrun hpre htot' hbud hch hn hd hpr
      rw [overruns_cons hid, ← hrun, ← htot', Nat.add_assoc, ← hpre]
      by_cases hover : r.id ∉ ids st.running ∧ c.maxNumSeqs ≤ st.running.length
      · have hlong : c.maxNumSeqs < st'.running.length := by
          rw [hrun, length_setRunning, hid, if_neg hover.1]
          omega
        have hmono := admitLoop_length_le c admitted st'
        refine ⟨fun h => by omega, fun h => absurd (.inl ?_) h⟩
        exact ⟨by simpa using hd, hn, by omega, hover⟩
      · have hfit : st'.running.length ≤ c.maxNumSeqs := by
          rw [hrun, length_setRunning, hid]
          split_ifs with hm
          · exact hlen
          · have := not_and.mp hover hm
            omega
        rw [ih st' hfit hbud]
        refine not_congr ⟨fun h => .inr ⟨hpr, h⟩, fun h => ?_⟩
        rcases h with ⟨-, -, -, h⟩ | ⟨-, h⟩
        · exact absurd h hover
        · exact h
    simp only [admitLoop]
    split_ifs with h1 h2 h3 h4 h5
    · rw [ih (st.putBack r) hlen htot]
      exact ⟨fun _ => not_overruns_of_cap h1, fun _ => not_overruns_of_cap h1⟩
    · rw [ih (st.putBack r) hlen htot]
      have hno : ∀ l, ¬ Overruns c st.running (c.currentRunning + st.prefillIds.length)
          st.totalPrefill l := fun l h => by simp [h.1] at h2
      exact ⟨fun _ => hno _, fun _ => hno _⟩
    · have hch : c.chunkSize r = r.remaining := by
        simp [AdmitCtx.chunkSize, h3]
      exact hnext (st.place r) r rfl rfl (by simp [pending, h3]) (by simp [h3]) htot hch
        (by omega) h2 (fun _ => h3)
    · -- over budget: nothing is taken up any more
      refine ⟨fun _ => ?_, fun _ => hlen⟩
      rw [overruns_cons (rfl : r.id = r.id)]
      rintro (⟨-, -, ht, -⟩ | ⟨hp, h⟩)
      · exact absurd ht (by omega)
      · have hnp : ¬ c.pressure := fun hpr => h3 (hp hpr)
        rw [chunkSize_of_not_pressure hnp] at h4
        exact not_overruns_of_budget h4 h
    · rw [requeue_running, overruns_cons (rfl : r.id = r.id)]
      have hrun : ∀ w, ({ st.prefill r (c.chunkSize r) with waiting := w } : AdmitState).running
          = setRunning { r with consumedTokens := r.consumedTokens + c.chunkSize r } st.running :=
        fun _ => rfl
      rw [hrun, length_setRunning]
      have htail : ¬ (c.pressure → r.remaining = 0) := fun h => h3 (h h5)
      split_ifs with hm
      · exact ⟨fun _ h => h.elim (fun h => h.2.2.2.1 hm) fun h => htail h.1, fun _ => hlen⟩
      · refine ⟨fun h => ?_, fun h => ?_⟩
        · rintro (⟨-, -, -, -, hcap⟩ | ⟨h', -⟩)
          · omega
          · exact htail h'
        · by_contra hlt
          exact h (.inl ⟨by simpa using h2, by omega, by omega, hm, by omega⟩)
    · have hch := chunkSize_of_not_pressure h5 r
      refine hnext _ { r with consumedTokens := r.consumedTokens + c.chunkSize r } rfl
        (requeue_running _ _ _) ?_ ?_ ?_ hch (by omega) h2 (fun h => absurd h h5)
      · simp [pending, h3]
      · simp [hch]
      · rw [requeue_totalPrefill, prefill_totalPrefill]
        omega

def PassFits (s : Scheduler) (tick : Tick) : Prop :=
  ¬ Overruns (s.beginPass tick).ctx (s.beginPass tick).sched.running
    (s.beginPass tick).ctx.currentRunning 0 (s.beginPass tick).admitted

instance (s : Scheduler) (tick : Tick) : Decidable (PassFits s tick) := by
  unfold PassFits; infer_instance

theorem beginPass_sched (tick : Tick) (s : Scheduler) :
    ∃ waiting running swapped readiness, (s.beginPass tick).sched
      = { s with waiting := waiting, running := running, swapped := swapped,
                 readiness := readiness } := by
  have hsort : ∃ w r, s.sortQueues = { s with waiting := w, running := r } := by
    unfold sortQueues
    split
    · exact ⟨_, _, rfl⟩
    · split_ifs <;> exact ⟨_, _, rfl⟩
  have hswap : ∀ p (s : Scheduler), ∃ w sw, s.swapIn p =
      { s with waiting := w, swapped := sw } := by
    intro p s
    unfold swapIn
    split_ifs <;> exact ⟨_, _, rfl⟩
  obtain ⟨w, r, hsort⟩ := hsort
  unfold beginPass
  simp only []
  generalize s.sortQueues.pressureActive tick = pressure
  generalize s.sortQueues.totalRunningTokens = total
  generalize s.sortQueues.computeTokenBacklog = backlog
  rw [hsort]
  obtain ⟨w', sw, hswap⟩ := hswap pressure { s with waiting := w, running := r }
  rw [hswap]
  generalize (admitWaiting _ tick.throughput backlog _).2 = left
  obtain hp | ⟨v, running, -, -, -, hp⟩ := preempt_cases pressure total
    { s with waiting := left, running := r, swapped := sw }
  · rw [hp]
    obtain ⟨rd, hrd⟩ := deferPrefill_sched pressure tick
      { s with waiting := left, running := r, swapped := sw }
    exact ⟨left, r, sw, rd, hrd⟩
  · rw [hp]
    obtain ⟨rd, hrd⟩ := deferPrefill_sched pressure tick
      { s with waiting := left, running := running, swapped := sw ++ [v] }
    exact ⟨left, running, sw ++ [v], rd, hrd⟩

theorem beginPass_running_le (tick : Tick) (s : Scheduler) :
    (s.beginPass tick).sched.running.length ≤ s.running.length := by
  obtain ⟨-, ⟨-, -, -, -, -, hr, -⟩ | ⟨-, hr, -⟩ | ⟨r, -, -, hr, -⟩⟩ := beginPass_cases tick s
  · exact hr.length_eq.le
  · exact hr.length_eq.le
  · have := hr.length_eq
    rw [length_cons] at this
    omega

theorem beginPass_maxNumSeqs (tick : Tick) (s : Scheduler) :
    (s.beginPass tick).ctx.maxNumSeqs = s.maxNumSeqs := by
  obtain ⟨w, r, sw, rd, hs⟩ := beginPass_sched tick s
  have : (s.beginPass tick).ctx.maxNumSeqs = (s.beginPass tick).sched.maxNumSeqs := rfl
  rw [this, hs]

theorem schedule_maxNumSeqs (tick : Tick) (s : Scheduler) :
    (s.schedule tick).1.maxNumSeqs = s.maxNumSeqs := by
  obtain ⟨w, r, sw, rd, hs⟩ := beginPass_sched tick s
  show (s.beginPass tick).sched.maxNumSeqs = _
  rw [hs]

theorem schedule_length {s : Scheduler} (tick : Tick) (h : s.running.length ≤ s.maxNumSeqs) :
    (s.schedule tick).1.running.length ≤ s.maxNumSeqs ↔ PassFits s tick := by
  have hrun := beginPass_running_le tick s
  have hloop := admitLoop_length (s.beginPass tick).ctx (s.beginPass tick).admitted
    ⟨(s.beginPass tick).sched.waiting, (s.beginPass tick).sched.running,
      (s.beginPass tick).sched.admittedTotal, [], 0⟩
  rw [beginPass_maxNumSeqs] at hloop
  exact hloop (hrun.trans h) (Nat.zero_le _)

def Idle (s : Scheduler) : Prop :=
  s.waiting = [] ∧ s.running = [] ∧ s.swapped = [] ∧ s.paused = []

/-- The calls of a run that neither pauses, resumes nor retunes. -/
def QueueCalls (_ : History) : Call → Prop
  | .enqueue _ | .schedule _ | .finish _ => True
  | .pause _ | .resume _ | .retune .. => False

def FittingCalls (h : History) : Call → Prop
  | .enqueue _ | .finish _ => True
  | .schedule tick => PassFits h.sched tick
  | .pause _ | .resume _ | .retune .. => False

instance (h : History) (call : Call) : Decidable (QueueCalls h call) :=
  match call with
  | .enqueue _ | .schedule _ | .finish _ => inferInstanceAs (Decidable True)
  | .pause _ | .resume _ | .retune .. => inferInstanceAs (Decidable False)

instance (h : History) (call : Call) : Decidable (FittingCalls h call) :=
  match call with
  | .enqueue _ | .finish _ => inferInstanceAs (Decidable True)
  | .schedule tick => inferInstanceAs (Decidable (PassFits h.sched tick))
  | .pause _ | .resume _ | .retune .. => inferInstanceAs (Decidable False)

theorem capped_step {cap : ℕ} {h h' : History} {call : Call}
    (hI : h.sched.running.length ≤ cap ∧ h.sched.maxNumSeqs = cap)
    (hok : FittingCalls h call) (hs : h.step call = some h') :
    h'.sched.running.length ≤ cap ∧ h'.sched.maxNumSeqs = cap := by
  obtain ⟨hlen, rfl⟩ := hI
  cases call with
  | enqueue r =>
    simp only [History.step] at hs
    split_ifs at hs
    simp only [Option.some.injEq] at hs
    subst hs
    exact ⟨hlen, rfl⟩
  | schedule tick =>
    simp only [History.step, Option.some.injEq] at hs
    subst hs
    exact ⟨(schedule_length tick hlen).mpr hok, schedule_maxNumSeqs tick h.sched⟩
  | finish id =>
    simp only [History.step, Option.some.injEq] at hs
    subst hs
    exact ⟨(length_filter_le _ _).trans hlen, rfl⟩
  | pause id => exact hok.elim
  | resume id => exact hok.elim
  | retune => exact hok.elim

/-- In every run whose passes fit, the next pass keeps the cap if and only if it fits too. -/
theorem cap_kept {s : Scheduler} (hs : Idle s) {h : History}
    (hr : Steps.Reach History.step FittingCalls ⟨s, []⟩ h) (tick : Tick) :
    (h.sched.schedule tick).1.running.length ≤ s.maxNumSeqs ↔ PassFits h.sched tick := by
  have h0 : s.running.length ≤ s.maxNumSeqs ∧ s.maxNumSeqs = s.maxNumSeqs := by
    simp [hs.2.1]
  obtain ⟨hlen, hmax⟩ := hr.invariant (I := fun h => h.sched.running.length ≤ s.maxNumSeqs
    ∧ h.sched.maxNumSeqs = s.maxNumSeqs) h0 fun _ _ _ => capped_step
  rw [← hmax] at hlen ⊢
  exact schedule_length tick hlen

/-- Two sequences at most, and chunks of 50 tokens under a budget of 100. -/
def pairScheduler : Scheduler := { new 100 2 ⟨0, 0⟩ with chunkedPrefillSize := 50 }

def swapOutCalls : List Call :=
  [.enqueue (freshRequest 1 20), .schedule calmTick, .enqueue (freshRequest 2 200),
    .schedule calmTick, .schedule calmTick, .schedule calmTick, .schedule calmTick]

theorem cap_kept_swapOut :
    ∃ h, Steps.exec History.step FittingCalls ⟨pairScheduler, []⟩ swapOutCalls = some h
      ∧ (h.sched.schedule calmTick).1.running.length ≤ 2 := by
  obtain ⟨h, hrun, hfit⟩ : ∃ h, Steps.exec History.step FittingCalls ⟨pairScheduler, []⟩
      swapOutCalls = some h ∧ PassFits h.sched calmTick := ⟨_, rfl, by decide⟩
  have hidle : Idle pairScheduler := ⟨rfl, rfl, rfl, rfl⟩
  exact ⟨h, hrun, (cap_kept hidle (Steps.reach_of_exec hrun) calmTick).mpr hfit⟩

/-- A third prompt, which the pass takes up behind the one that swaps in. -/
theorem swapIn_exceeds_cap :
    ¬ ∀ s, Idle s → ∀ h, Steps.Reach History.step QueueCalls ⟨s, []⟩ h → ∀ tick,
      (h.sched.schedule tick).1.running.length ≤ s.maxNumSeqs := by
  intro hall
  obtain ⟨h, hrun, hlong⟩ : ∃ h, Steps.exec History.step QueueCalls ⟨pairScheduler, []⟩
      (swapOutCalls ++ [.enqueue (freshRequest 3 20)]) = some h
        ∧ 2 < (h.sched.schedule calmTick).1.running.length := ⟨_, rfl, by decide⟩
  have hcap := hall pairScheduler ⟨rfl, rfl, rfl, rfl⟩ h (Steps.reach_of_exec hrun) calmTick
  exact absurd hlong (Nat.not_lt.mpr hcap)

end Grim.Scheduler
