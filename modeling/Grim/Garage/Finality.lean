import Grim.Garage.Jobs
import Grim.Lib.Traces

/-!
# Terminal states of a job

A run is the steps of a job's worker with cancel requests between them.  While the worker marks its
job only where no cancellation has been asked for, and does not report a cancellation behind a
failed step (`Careful`), a status that is terminal stays (`Sound`).  The first step that is not
careful changes a terminal status.
-/

namespace Grim.Garage

open Steps

/-- The registry, and the worker of the job `id`. -/
structure JobRun where
  registry : JobRegistry
  worker : Worker

inductive Event
  | worker (move : Move)
  | cancel (id : JobId)
deriving DecidableEq

namespace JobRun

variable (id : JobId)

def step (s : JobRun) : Event → Option JobRun
  | .worker move => (s.worker.step s.registry id move).map fun p => ⟨p.2, p.1⟩
  | .cancel id' => some { s with registry := s.registry.cancelJob id' }

def status (s : JobRun) : Option JobStatus := (s.registry.get id).map (·.status)

structure Created (s : JobRun) : Prop where
  job : ∃ job, s.registry.get id = some job ∧ job.status = .pending ∧ job.cancel = false
  worker : s.worker = .spawn

def Ended (s : JobRun) : Prop := ∃ status, s.status id = some status ∧ status.IsTerminal

end JobRun

/-- The token is not raised where the worker marks its job, and a worker that reports a cancellation
has had no step fail. -/
def Careful (id : JobId) (s : JobRun) : Event → Prop
  | .worker move => (move.marks.isSome → s.registry.isCancelled id = false) ∧
      (move = .reportCancelled → s.worker.stepFailed = false)
  | .cancel _ => True

instance (id : JobId) (s : JobRun) (event : Event) : Decidable (Careful id s event) := by
  cases event
  · exact inferInstanceAs (Decidable ((_ → _) ∧ (_ → _)))
  · exact instDecidableTrue

structure Sound (w : Worker) (job : TrainingJob) : Prop where
  raised : job.cancel = true → job.status.IsTerminal
  terminal : job.status.IsTerminal → w.phase = .done ∨
    (job.cancel = true ∧ job.status = .cancelled ∧ w.stepFailed = false) ∨ w.stepFailed = true
  failed : w.stepFailed = true → w.phase = .done ∨
    (w.phase = .leaving ∨ w.phase = .cancelling) ∧ job.status = .failed
  found : w.phase = .cancelling → job.cancel = true
  single : w.phase = .iterating ∨ w.phase = .stepping ∨ w.phase = .pacing → ¬1 < w.numGpus

section Sound

variable {w w' : Worker} {job : TrainingJob} {move : Move} {status : JobStatus}

theorem Sound.not_failed (h : Sound w job) (hdone : w.phase ≠ .done) (hleaving : w.phase ≠ .leaving)
    (hcancelling : w.phase ≠ .cancelling) : w.stepFailed = false := by
  by_contra hfailed
  rw [Bool.not_eq_false] at hfailed
  rcases h.failed hfailed with hd | ⟨hl | hc, -⟩
  · exact hdone hd
  · exact hleaving hl
  · exact hcancelling hc

theorem Sound.active (h : Sound w job) (hdone : w.phase ≠ .done) (hfailed : w.stepFailed = false)
    (hcancel : job.cancel = false) : ¬job.status.IsTerminal := by
  intro hterminal
  rcases h.terminal hterminal with hd | ⟨hc, -⟩ | hf
  · exact hdone hd
  · rw [hcancel] at hc
    exact absurd hc (by decide)
  · rw [hfailed] at hf
    exact absurd hf (by decide)

theorem Sound.cancelled (h : Sound w job) (hdone : w.phase ≠ .done) (hfailed : w.stepFailed = false)
    (hcancel : job.cancel = true) : job.status = .cancelled := by
  rcases h.terminal (h.raised hcancel) with hd | ⟨-, hs, -⟩ | hf
  · exact absurd hd hdone
  · exact hs
  · rw [hfailed] at hf
    exact absurd hf (by decide)

theorem ends_phase (h : move.ends = some (w.phase, status)) : w.phase ≠ .done ∧
    (move.marks = some status ∧ w.phase ≠ .leaving ∧ w.phase ≠ .cancelling ∨
      move = .reportCancelled ∧ w.phase = .cancelling ∧ status = .cancelled) := by
  cases move <;> simp only [Move.ends, Option.some.injEq, Prod.mk.injEq, reduceCtorEq] at h <;>
    obtain ⟨hphase, rfl⟩ := h <;> rw [← hphase] <;> simp [Move.marks]

theorem Goes.facts {phase : Phase} (h : Goes w job phase) :
    (w.phase ≠ .done ∧ w.phase ≠ .cancelling) ∧
      (w.phase = .leaving → phase = .cancelling ∨ phase = .done ∨ w.stepFailed = false) ∧
      (phase = .cancelling → job.cancel = true) ∧
      (phase = .iterating ∨ phase = .stepping ∨ phase = .pacing → ¬1 < w.numGpus ∨
        (w.phase = .iterating ∨ w.phase = .stepping ∨ w.phase = .pacing)) := by
  unfold Goes at h
  split at h <;> rename_i hphase
  · rcases h with rfl | ⟨rfl, hn⟩
    · simp [hphase]
    · simp [hphase, not_lt.1 hn]
  · rcases h with rfl | rfl <;> simp [hphase]
  · rcases h with rfl | rfl <;> simp [hphase]
  · rcases h with rfl | rfl <;> simp [hphase]
  · rcases h with ⟨rfl, hcancel⟩ | rfl | ⟨rfl, hfailed⟩
    · simp [hphase, hcancel]
    · simp [hphase]
    · simp [hphase, hfailed]
  · exact h.elim

theorem Sound.goes (h : Sound w job) {phase : Phase} (hgo : Goes w job phase) :
    Sound (w.goto phase) job := by
  obtain ⟨⟨hdone, hcancelling⟩, hleaving, hfound, hsingle⟩ := hgo.facts
  refine ⟨h.raised, fun ht => .inr ((h.terminal ht).resolve_left hdone), fun hf => ?_, hfound, ?_⟩
  · rcases h.failed hf with hd | ⟨hl | hc, hstatus⟩
    · exact absurd hd hdone
    · rcases hleaving hl with hp | hp | hp
      · exact .inr ⟨.inr hp, hstatus⟩
      · exact .inl hp
      · exact absurd (hf.symm.trans hp) (by decide)
    · exact absurd hc hcancelling
  · intro hphase
    rcases hsingle hphase with hn | hp
    · exact hn
    · exact h.single hp

theorem sound_done (hdone : w.phase = .done) (hraised : job.cancel = true → job.status.IsTerminal) :
    Sound w job where
  raised := hraised
  terminal _ := .inl hdone
  failed _ := .inl hdone
  found h := absurd (hdone.symm.trans h) (by decide)
  single h := by rcases h with h | h | h <;> exact absurd (hdone.symm.trans h) (by decide)

theorem Sound.takes (h : Sound w job) (ht : Takes w job move w' status)
    (hmarks : move.marks.isSome → job.cancel = false)
    (hreport : move = .reportCancelled → w.stepFailed = false) :
    Sound w' { job with status := status } ∧ (job.status.IsTerminal → status = job.status) := by
  cases ht with
  | get hphase =>
    have hfailed := h.not_failed (by simp [hphase]) (by simp [hphase]) (by simp [hphase])
    refine ⟨⟨h.raised, fun hterm => .inr ?_, fun hf => ?_, by simp, by simp⟩, fun _ => rfl⟩
    · exact (h.terminal hterm).resolve_left (by simp [hphase])
    · exact absurd (hf.symm.trans hfailed) (by decide)
  | running hphase =>
    have hcancel := hmarks rfl
    have hfailed := h.not_failed (by simp [hphase]) (by simp [hphase]) (by simp [hphase])
    have hactive := h.active (by simp [hphase]) hfailed hcancel
    refine ⟨⟨fun hc => ?_, fun hterm => absurd hterm ?_, fun hf => ?_, by simp [Worker.goto],
      by simp [Worker.goto]⟩, fun hterm => absurd hterm hactive⟩
    · exact absurd (hcancel.symm.trans hc) (by decide)
    · show ¬JobStatus.running.IsTerminal
      decide
    · exact absurd (hf.symm.trans hfailed) (by decide)
  | ends hends =>
    refine ⟨sound_done rfl fun _ => ends_terminal hends, fun hterm => ?_⟩
    obtain ⟨hdone, ⟨hm, hleaving, hcancelling⟩ | ⟨rfl, hcancelling, rfl⟩⟩ := ends_phase hends
    · have hfailed := h.not_failed hdone hleaving hcancelling
      exact absurd hterm (h.active hdone hfailed (hmarks (by rw [hm]; rfl)))
    · exact (h.cancelled hdone (hreport rfl) (h.found hcancelling)).symm
  | stepFails hphase =>
    have hcancel := hmarks rfl
    have hfailed := h.not_failed (by simp [hphase]) (by simp [hphase]) (by simp [hphase])
    have hactive := h.active (by simp [hphase]) hfailed hcancel
    refine ⟨⟨fun _ => failed_isTerminal, fun _ => .inr (.inr rfl), fun _ => .inr ⟨.inl rfl, rfl⟩,
      by simp, by simp⟩, fun hterm => absurd hterm hactive⟩
  | syncFails hphase hn => exact absurd hn (h.single (.inr (.inl hphase)))
  | goes hgo hm hr => exact ⟨h.goes hgo, fun _ => rfl⟩

/-- A step that is not careful changes a terminal status. -/
theorem Sound.careless (h : Sound w job) (ht : Takes w job move w' status)
    (hcareless : ¬((move.marks.isSome → job.cancel = false) ∧
      (move = .reportCancelled → w.stepFailed = false))) :
    job.status.IsTerminal ∧ status ≠ job.status := by
  have hboth : (move.marks.isSome ∧ job.cancel = true) ∨
      (move = .reportCancelled ∧ w.stepFailed = true) := by
    by_contra hno
    refine hcareless ⟨fun hm => ?_, fun hr => ?_⟩
    · by_contra hc
      exact hno (.inl ⟨hm, by simpa using hc⟩)
    · by_contra hf
      exact hno (.inr ⟨hr, by simpa using hf⟩)
  have hcancelled : w.phase ≠ .done → w.phase ≠ .leaving → w.phase ≠ .cancelling →
      job.cancel = true → status ≠ .cancelled → job.status.IsTerminal ∧ status ≠ job.status := by
    intro hdone hleaving hcancelling hcancel hne
    have hstatus := h.cancelled hdone (h.not_failed hdone hleaving hcancelling) hcancel
    rw [hstatus]
    exact ⟨by decide, hne⟩
  cases ht with
  | get hphase => exact absurd hboth (by simp [Move.marks])
  | running hphase =>
    obtain ⟨-, hcancel⟩ | ⟨hr, -⟩ := hboth
    · exact hcancelled (by simp [hphase]) (by simp [hphase]) (by simp [hphase]) hcancel (by decide)
    · exact absurd hr (by decide)
  | ends hends =>
    obtain ⟨hdone, ⟨hm, hleaving, hcancelling⟩ | ⟨rfl, hcancelling, rfl⟩⟩ := ends_phase hends
    · obtain ⟨-, hcancel⟩ | ⟨rfl, -⟩ := hboth
      · refine hcancelled hdone hleaving hcancelling hcancel ?_
        rintro rfl
        cases move <;> simp [Move.marks] at hm
        case ranksEnd ok => cases ok <;> simp at hm
      · simp [Move.marks] at hm
    · obtain ⟨hm, -⟩ | ⟨-, hfailed⟩ := hboth
      · simp [Move.marks] at hm
      · obtain ⟨-, hstatus⟩ := (h.failed hfailed).resolve_left hdone
        rw [hstatus]
        decide
  | stepFails hphase =>
    obtain ⟨-, hcancel⟩ | ⟨hr, -⟩ := hboth
    · exact hcancelled (by simp [hphase]) (by simp [hphase]) (by simp [hphase]) hcancel (by decide)
    · exact absurd hr (by decide)
  | syncFails hphase hn => exact absurd hn (h.single (.inr (.inl hphase)))
  | goes hgo hm hr =>
    obtain ⟨hm', -⟩ | ⟨hr', -⟩ := hboth
    · rw [hm] at hm'
      exact absurd hm' (by decide)
    · exact absurd hr' hr

end Sound

theorem get_cancelJob {r : JobRegistry} {id : JobId} {job : TrainingJob} (h : r.get id = some job) :
    (r.cancelJob id).get id = some { job with
      status := if job.status.IsActive then .cancelled else job.status, cancel := true } := by
  by_cases hs : job.status.IsActive
  · rw [JobRegistry.cancelJob_of_active h hs, JobRegistry.get_send, JobRegistry.get_put, if_pos hs]
  · rw [JobRegistry.cancelJob_of_terminal h hs, JobRegistry.get_put, if_neg hs]

theorem Sound.cancel {w : Worker} {job : TrainingJob} (h : Sound w job) : Sound w { job with
    status := if job.status.IsActive then .cancelled else job.status, cancel := true } := by
  by_cases hs : job.status.IsActive
  · have hactive : ¬job.status.IsTerminal := by rwa [JobStatus.isTerminal_iff, not_not]
    rw [if_pos hs]
    refine ⟨fun _ => .inr (.inr rfl), fun _ => ?_, fun hf => ?_, fun _ => rfl, h.single⟩
    · by_cases hf : w.stepFailed = true
      · exact .inr (.inr hf)
      · exact .inr (.inl ⟨rfl, rfl, by simpa using hf⟩)
    · rcases h.failed hf with hd | ⟨-, hstatus⟩
      · exact .inl hd
      · exact absurd (hstatus ▸ failed_isTerminal) hactive
  · have hterminal := JobStatus.isTerminal_iff.2 hs
    rw [if_neg hs]
    refine ⟨fun _ => hterminal, fun _ => ?_, h.failed, fun _ => rfl, h.single⟩
    rcases h.terminal hterminal with hd | ⟨-, hstatus, hf⟩ | hf
    · exact .inl hd
    · exact .inr (.inl ⟨rfl, hstatus, hf⟩)
    · exact .inr (.inr hf)

namespace JobRun

variable {id : JobId} {s s' : JobRun} {event : Event}

def Kept (id : JobId) (s : JobRun) : Prop :=
  ∃ job, s.registry.get id = some job ∧ Sound s.worker job

def Stays (id : JobId) (s s' : JobRun) : Prop := s.Ended id → s'.status id = s.status id

theorem Created.kept (h : Created id s) : Kept id s := by
  obtain ⟨job, hjob, hstatus, hcancel⟩ := h.job
  have hactive : ¬job.status.IsTerminal := by rw [hstatus]; decide
  have hfailed : s.worker.stepFailed = false := by rw [h.worker]; rfl
  have hphase : s.worker.phase = .spawned := by rw [h.worker]; rfl
  refine ⟨job, hjob, ⟨fun hc => ?_, fun ht => absurd ht hactive, fun hf => ?_, ?_, ?_⟩⟩
  · exact absurd (hcancel.symm.trans hc) (by decide)
  · exact absurd (hf.symm.trans hfailed) (by decide)
  · simp [hphase]
  · simp [hphase]

theorem status_of_get {job : TrainingJob} (h : s.registry.get id = some job) :
    s.status id = some job.status := by
  rw [status, h, Option.map_some]

theorem ended_iff {job : TrainingJob} (h : s.registry.get id = some job) :
    s.Ended id ↔ job.status.IsTerminal := by
  rw [Ended, status_of_get h]
  exact ⟨fun ⟨_, hs, ht⟩ => Option.some.inj hs ▸ ht, fun ht => ⟨_, rfl, ht⟩⟩

theorem step_worker {move : Move} {job : TrainingJob} (h : s.registry.get id = some job)
    (hs : s.step id (.worker move) = some s') : ∃ status, Takes s.worker job move s'.worker status ∧
      s'.registry.get id = some { job with status := status } := by
  obtain ⟨⟨w', r'⟩, hstep, rfl⟩ := Option.map_eq_some_iff.1 hs
  obtain ⟨status, htakes, hwrites⟩ := step_takes h hstep
  exact ⟨status, htakes, hwrites.get h⟩

theorem Kept.careful (h : Kept id s) (hs : s.step id event = some s') (hc : Careful id s event) :
    Kept id s' ∧ Stays id s s' := by
  obtain ⟨job, hjob, hsound⟩ := h
  cases event with
  | worker move =>
    obtain ⟨status, htakes, hget⟩ := step_worker hjob hs
    simp only [Careful, JobRegistry.isCancelled_of_get hjob] at hc
    obtain ⟨hsound', hstays⟩ := hsound.takes htakes hc.1 hc.2
    refine ⟨⟨_, hget, hsound'⟩, fun hended => ?_⟩
    rw [status_of_get hget, status_of_get hjob, hstays ((ended_iff hjob).1 hended)]
  | cancel id' =>
    obtain rfl := Option.some.inj hs
    by_cases hid : id' = id
    · subst hid
      refine ⟨⟨_, get_cancelJob hjob, hsound.cancel⟩, fun hended => ?_⟩
      have hs := JobStatus.isTerminal_iff.1 ((ended_iff hjob).1 hended)
      rw [status_of_get hjob, status_of_get (get_cancelJob hjob), if_neg hs]
    · have hget := (JobRegistry.get_cancelJob_ne (r := s.registry) (Ne.symm hid)).trans hjob
      refine ⟨⟨job, hget, hsound⟩, fun _ => ?_⟩
      rw [status_of_get hjob, status_of_get hget]

theorem Kept.careless (h : Kept id s) (hs : s.step id event = some s')
    (hc : ¬Careful id s event) : ¬Stays id s s' := by
  obtain ⟨job, hjob, hsound⟩ := h
  cases event with
  | worker move =>
    obtain ⟨status, htakes, hget⟩ := step_worker hjob hs
    simp only [Careful, JobRegistry.isCancelled_of_get hjob] at hc
    obtain ⟨hterminal, hne⟩ := hsound.careless htakes hc
    intro hstays
    have hstatus := hstays ((ended_iff hjob).2 hterminal)
    rw [status_of_get hget, status_of_get hjob] at hstatus
    exact hne (Option.some.inj hstatus)
  | cancel id' => exact absurd trivial hc

/-- Once the status of the job is terminal in a run, it does not change any more. -/
def Final (id : JobId) (s : JobRun) (events : List Event) : Prop :=
  ∀ as bs cs, events = as ++ (bs ++ cs) → ∀ s₁, run (step id) s as = some s₁ →
    ∀ s₂, run (step id) s₁ bs = some s₂ → s₁.Ended id → s₂.status id = s₁.status id

/-- A run keeps terminal statuses exactly if each of its steps is careful. -/
theorem final_iff_careful {events : List Event} (h : s.Created id) :
    s.Final id events ↔ Along (step id) (fun s event _ => Careful id s event) s events := by
  have hrelated : Along (step id) (fun s _ s' => Stays id s s') s events ↔ s.Final id events :=
    along_iff_related (fun _ _ => rfl) fun {s t u} hst htu hended => ?_
  · rw [Final, ← along_iff_good (fun _ _ _ => Kept.careful) (fun _ _ _ => Kept.careless) h.kept]
    exact hrelated.symm
  · have hstatus := hst hended
    exact (htu (by rwa [Ended, hstatus])).trans hstatus

def fresh : JobRun :=
  ⟨(JobRegistry.withMaxConcurrent 1).create "job" ⟨1, .pending, false⟩, .spawn⟩

theorem fresh_created : fresh.Created "job" := ⟨⟨_, rfl, rfl, rfl⟩, rfl⟩

theorem final_iff_careful_cancelled : fresh.Final "job" [.worker .get, .worker .markRunning,
    .worker .enterLoop, .cancel "job", .worker .checkCancel, .worker .checkAfter,
    .worker .reportCancelled, .cancel "job"] :=
  (final_iff_careful fresh_created).2 (by decide)

/-- A job that has been cancelled is marked as running. -/
theorem cancelled_marked_running :
    ¬∀ id s events, Created id s → Final id s events := by
  intro h
  have hstatus := h "job" fresh [.worker .get, .cancel "job", .worker .markRunning] fresh_created
    [.worker .get, .cancel "job"] [.worker .markRunning] [] rfl _ rfl _ rfl
    ⟨.cancelled, rfl, .inr (.inr rfl)⟩
  exact absurd hstatus (by decide)

end JobRun

end Grim.Garage
