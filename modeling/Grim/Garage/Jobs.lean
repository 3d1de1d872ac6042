import Mathlib.Data.List.AList
import Mathlib.Tactic

/-!
# Training jobs

The registry of the jobs, and the worker that runs one of them.  Each of the worker's steps comes to
the registry or to the job's cancellation token once at most, so that cancellations and other
workers can come between any two.  What a job trains on, its metrics and the time its steps take are
left out; an outcome they decide is the step's to choose.
-/

namespace Grim.Garage

inductive JobStatus
  | pending | running | completed | failed | cancelled
deriving DecidableEq

/-- `matches!(status, JobStatus::Pending | JobStatus::Running)` -/
def JobStatus.IsActive (status : JobStatus) : Prop := status = .pending ∨ status = .running

instance (status : JobStatus) : Decidable status.IsActive := inferInstanceAs (Decidable (_ ∨ _))

def JobStatus.IsTerminal (status : JobStatus) : Prop :=
  status = .completed ∨ status = .failed ∨ status = .cancelled

instance (status : JobStatus) : Decidable status.IsTerminal :=
  inferInstanceAs (Decidable (_ ∨ _))

theorem JobStatus.isTerminal_iff {status : JobStatus} : status.IsTerminal ↔ ¬status.IsActive := by
  cases status <;> decide

theorem failed_isTerminal : JobStatus.failed.IsTerminal := .inr (.inl rfl)

structure TrainingJob where
  numGpus : ℕ
  status : JobStatus
  cancel : Bool

abbrev JobId := String

inductive JobError
  | notFound (id : JobId)
  | duplicate

structure JobRegistry where
  inner : AList fun _ : JobId => TrainingJob
  sent : List (JobId × JobStatus)
  maxConcurrent : ℕ

namespace JobRegistry

def withMaxConcurrent (maxConcurrent : ℕ) : JobRegistry := ⟨∅, [], maxConcurrent⟩

variable (r : JobRegistry)

def get (id : JobId) : Option TrainingJob := r.inner.lookup id

def put (id : JobId) (job : TrainingJob) : JobRegistry := { r with inner := r.inner.insert id job }

def send (id : JobId) (status : JobStatus) : JobRegistry :=
  { r with sent := r.sent ++ [(id, status)] }

def runningCount : ℕ := r.inner.entries.countP fun e => e.2.status.IsActive

def create (id : JobId) (job : TrainingJob) : JobRegistry := r.put id job

/-- `g.get_mut(id)` -/
def getMut (id : JobId) : Except JobError TrainingJob :=
  match r.get id with
  | some job => .ok job
  | none => .error (.notFound id)

def updateStatus (id : JobId) (status : JobStatus) : Except JobError JobRegistry := do
  let job ← r.getMut id
  .ok (r.put id { job with status := status })

def updateStatusAndBroadcast (id : JobId) (status : JobStatus) : Except JobError JobRegistry := do
  let job ← r.getMut id
  .ok ((r.put id { job with status := status }).send id status)

def requestCancel (id : JobId) : Except JobError (JobRegistry × JobStatus) := do
  let job ← r.getMut id
  let job := { job with cancel := true }
  if job.status.IsActive then
    .ok ((r.put id { job with status := .cancelled }).send id .cancelled, .cancelled)
  else .ok (r.put id job, job.status)

/-- `cancel.is_cancelled()` for the token of the job. -/
def isCancelled (id : JobId) : Bool := (r.get id).any (·.cancel)

/-- `let _ = registry.update_status_and_broadcast(..).await` -/
def report (id : JobId) (status : JobStatus) : JobRegistry :=
  match r.updateStatusAndBroadcast id status with
  | .ok r' => r'
  | .error _ => r

/-- `cancel_job` -/
def cancelJob (id : JobId) : JobRegistry :=
  match r.requestCancel id with
  | .ok (r', _) => r'
  | .error _ => r

end JobRegistry

inductive Phase
  | spawned
  | admitting
  | preparing
  | ranks
  | iterating
  | stepping
  | pacing
  | leaving
  | cancelling
  | completing
  | done
deriving DecidableEq

structure Worker where
  phase : Phase
  numGpus : ℕ
  stepFailed : Bool
deriving DecidableEq

inductive Move
  | get
  | refuse
  | markRunning
  /-- A collective, a model, a loader, a replica, a checkpoint or an optimizer fails. -/
  | fail
  | enterRanks
  | ranksEnd (ok : Bool)
  | enterLoop
  | checkCancel
  | lastStep
  | noDataset
  | breakStep
  | syncFails
  | stepFails
  | appendMetric
  | pace
  | checkAfter
  | reportCancelled
  | reportCompleted
deriving DecidableEq

namespace Worker

def spawn : Worker := ⟨.spawned, 0, false⟩

variable (w : Worker)

def goto (phase : Phase) : Worker := { w with phase := phase }

/-- `update_status_and_broadcast(&id, status)` and `return` -/
def finish (r : JobRegistry) (id : JobId) (status : JobStatus) : Worker × JobRegistry :=
  (w.goto .done, r.report id status)

/-- A step of `run_training_worker` for the job `id`; `none` where the worker is elsewhere. -/
def step (r : JobRegistry) (id : JobId) (move : Move) : Option (Worker × JobRegistry) :=
  match w.phase, move with
  | .spawned, .get =>
    match r.get id with
    | some job => some ({ w with phase := .admitting, numGpus := max job.numGpus 1 }, r)
    | none => some (w.goto .done, r)
  | .admitting, .refuse => if 1 < w.numGpus then some (w.finish r id .failed) else none
  | .admitting, .markRunning =>
    match r.updateStatus id .running with
    | .ok r' => some (w.goto .preparing, r')
    | .error _ => some (w.goto .done, r)
  | .preparing, .fail => some (w.finish r id .failed)
  | .preparing, .enterRanks => if 1 < w.numGpus then some (w.goto .ranks, r) else none
  | .ranks, .ranksEnd ok => some (w.finish r id (if ok then .completed else .failed))
  | .preparing, .enterLoop => if 1 < w.numGpus then none else some (w.goto .iterating, r)
  | .iterating, .lastStep => some (w.goto .leaving, r)
  | .iterating, .checkCancel =>
    if r.isCancelled id then some (w.goto .leaving, r) else some (w.goto .stepping, r)
  | .stepping, .noDataset => some (w.finish r id .failed)
  | .stepping, .breakStep => some (w.goto .leaving, r)
  -- this failure leaves `step_failed` as it is
  | .stepping, .syncFails =>
    if 1 < w.numGpus then some (w.goto .leaving, r.report id .failed) else none
  | .stepping, .stepFails =>
    some ({ w with phase := .leaving, stepFailed := true }, r.report id .failed)
  | .stepping, .appendMetric =>
    match r.get id with
    | some _ => some (w.goto .pacing, r)
    | none => some (w.finish r id .failed)
  | .pacing, .pace =>
    if r.isCancelled id then some (w.goto .leaving, r) else some (w.goto .iterating, r)
  | .leaving, .checkAfter =>
    if r.isCancelled id then some (w.goto .cancelling, r)
    else if w.stepFailed then some (w.goto .done, r)
    else some (w.goto .completing, r)
  | .cancelling, .reportCancelled => some (w.finish r id .cancelled)
  | .completing, .reportCompleted => some (w.finish r id .completed)
  | _, _ => none

end Worker

namespace JobRegistry

variable {r r' : JobRegistry} {id : JobId} {job : TrainingJob} {status : JobStatus}

@[simp] theorem get_put (job : TrainingJob) : (r.put id job).get id = some job :=
  AList.lookup_insert r.inner

theorem get_put_ne {id' : JobId} (h : id' ≠ id) (job : TrainingJob) :
    (r.put id job).get id' = r.get id' := AList.lookup_insert_ne h

@[simp] theorem get_send (id' : JobId) : (r.send id' status).get id = r.get id := rfl

theorem updateStatus_of_get (h : r.get id = some job) (status : JobStatus) :
    r.updateStatus id status = .ok (r.put id { job with status := status }) := by
  rw [updateStatus, getMut, h]
  rfl

theorem report_of_get (h : r.get id = some job) (status : JobStatus) :
    r.report id status = (r.put id { job with status := status }).send id status := by
  rw [report, updateStatusAndBroadcast, getMut, h]
  rfl

theorem isCancelled_of_get (h : r.get id = some job) : r.isCancelled id = job.cancel := by
  rw [isCancelled, h, Option.any_some]

theorem cancelJob_of_active (h : r.get id = some job) (hs : job.status.IsActive) :
    r.cancelJob id =
      (r.put id { job with status := .cancelled, cancel := true }).send id .cancelled := by
  simp only [cancelJob, requestCancel, getMut, h, bind, Except.bind, if_pos hs]

theorem cancelJob_of_terminal (h : r.get id = some job) (hs : ¬job.status.IsActive) :
    r.cancelJob id = r.put id { job with cancel := true } := by
  simp only [cancelJob, requestCancel, getMut, h, bind, Except.bind, if_neg hs]

theorem cancelJob_of_none (h : r.get id = none) : r.cancelJob id = r := by
  simp only [cancelJob, requestCancel, getMut, h, bind, Except.bind]

theorem get_cancelJob_ne {id' : JobId} (h : id' ≠ id) : (r.cancelJob id).get id' = r.get id' := by
  cases hid : r.get id with
  | none => rw [cancelJob_of_none hid]
  | some job =>
    by_cases hs : job.status.IsActive
    · rw [cancelJob_of_active hid hs, get_send, get_put_ne h]
    · rw [cancelJob_of_terminal hid hs, get_put_ne h]

theorem maxConcurrent_cancelJob (r : JobRegistry) (id : JobId) :
    (r.cancelJob id).maxConcurrent = r.maxConcurrent := by
  cases hid : r.get id with
  | none => rw [cancelJob_of_none hid]
  | some job =>
    by_cases hs : job.status.IsActive
    · rw [cancelJob_of_active hid hs]
      rfl
    · rw [cancelJob_of_terminal hid hs]
      rfl

end JobRegistry

/-- The status a move marks the job with, the report of a cancellation apart. -/
def Move.marks : Move → Option JobStatus
  | .markRunning => some .running
  | .refuse | .fail | .noDataset | .syncFails | .stepFails => some .failed
  | .ranksEnd ok => some (if ok then .completed else .failed)
  | .reportCompleted => some .completed
  | _ => none

/-- The moves that end the worker: from where, and with which status. -/
def Move.ends : Move → Option (Phase × JobStatus)
  | .refuse => some (.admitting, .failed)
  | .fail => some (.preparing, .failed)
  | .ranksEnd ok => some (.ranks, if ok then .completed else .failed)
  | .noDataset => some (.stepping, .failed)
  | .reportCancelled => some (.cancelling, .cancelled)
  | .reportCompleted => some (.completing, .completed)
  | _ => none

def Goes (w : Worker) (job : TrainingJob) (phase : Phase) : Prop :=
  match w.phase with
  | .preparing => phase = .ranks ∨ phase = .iterating ∧ ¬1 < w.numGpus
  | .iterating => phase = .leaving ∨ phase = .stepping
  | .stepping => phase = .leaving ∨ phase = .pacing
  | .pacing => phase = .leaving ∨ phase = .iterating
  | .leaving => phase = .cancelling ∧ job.cancel = true ∨ phase = .done ∨
      phase = .completing ∧ w.stepFailed = false
  | _ => False

/-- A worker's step for a job that is there: the worker and the status behind it. -/
inductive Takes (w : Worker) (job : TrainingJob) : Move → Worker → JobStatus → Prop
  | get (h : w.phase = .spawned) :
      Takes w job .get { w with phase := .admitting, numGpus := max job.numGpus 1 } job.status
  | running (h : w.phase = .admitting) : Takes w job .markRunning (w.goto .preparing) .running
  | ends {move : Move} {status : JobStatus} (h : move.ends = some (w.phase, status)) :
      Takes w job move (w.goto .done) status
  | stepFails (h : w.phase = .stepping) :
      Takes w job .stepFails { w with phase := .leaving, stepFailed := true } .failed
  | syncFails (h : w.phase = .stepping) (hn : 1 < w.numGpus) :
      Takes w job .syncFails (w.goto .leaving) .failed
  | goes {move : Move} {phase : Phase} (h : Goes w job phase) (hm : move.marks = none)
      (hr : move ≠ .reportCancelled) : Takes w job move (w.goto phase) job.status

section Takes

variable {w w' : Worker} {r r' : JobRegistry} {id : JobId} {job : TrainingJob} {move : Move}

/-- Behind a step the job `id` has the status, and the other jobs are as before. -/
def Writes (r : JobRegistry) (id : JobId) (job : TrainingJob) (status : JobStatus)
    (r' : JobRegistry) : Prop :=
  r' = r ∧ status = job.status ∨ r'.maxConcurrent = r.maxConcurrent ∧
    r'.inner = r.inner.insert id { job with status := status }

theorem Writes.get {status : JobStatus} (h : r.get id = some job)
    (hw : Writes r id job status r') : r'.get id = some { job with status := status } := by
  obtain ⟨rfl, rfl⟩ | ⟨-, hinner⟩ := hw
  · exact h
  · rw [JobRegistry.get, hinner, AList.lookup_insert]

theorem writes_report (h : r.get id = some job) (status : JobStatus) :
    Writes r id job status (r.report id status) :=
  .inr (by rw [JobRegistry.report_of_get h]; exact ⟨rfl, rfl⟩)

theorem step_takes (h : r.get id = some job) (hs : w.step r id move = some (w', r')) :
    ∃ status, Takes w job move w' status ∧ Writes r id job status r' := by
  have hcancel := JobRegistry.isCancelled_of_get h
  have hends : ∀ status, move.ends = some (w.phase, status) →
      some (w.finish r id status) = some (w', r') →
        ∃ status, Takes w job move w' status ∧ Writes r id job status r' := by
    intro status hmove hfin
    obtain ⟨rfl, rfl⟩ := Prod.mk.inj (Option.some.inj hfin)
    exact ⟨status, .ends hmove, writes_report h status⟩
  have hgoes : ∀ phase, Goes w job phase → move.marks = none → move ≠ .reportCancelled →
      some (w.goto phase, r) = some (w', r') →
        ∃ status, Takes w job move w' status ∧ Writes r id job status r' := by
    intro phase hgo hmarks hreport heq
    obtain ⟨rfl, rfl⟩ := Prod.mk.inj (Option.some.inj heq)
    exact ⟨job.status, .goes hgo hmarks hreport, .inl ⟨rfl, rfl⟩⟩
  unfold Worker.step at hs
  split at hs <;> rename_i hphase
  · rw [h] at hs
    obtain ⟨rfl, rfl⟩ := Prod.mk.inj (Option.some.inj hs)
    exact ⟨job.status, .get hphase, .inl ⟨rfl, rfl⟩⟩
  · split_ifs at hs
    exact hends _ (by rw [hphase]; rfl) hs
  · rw [JobRegistry.updateStatus_of_get h] at hs
    obtain ⟨rfl, rfl⟩ := Prod.mk.inj (Option.some.inj hs)
    exact ⟨.running, .running hphase, .inr ⟨rfl, rfl⟩⟩
  · exact hends _ (by rw [hphase]; rfl) hs
  · split_ifs at hs
    exact hgoes _ (by simp [Goes, hphase]) rfl (by decide) hs
  · exact hends _ (by rw [hphase]; rfl) hs
  · split_ifs at hs with hn
    exact hgoes _ (by simp [Goes, hphase, not_lt.1 hn]) rfl (by decide) hs
  · exact hgoes _ (by simp [Goes, hphase]) rfl (by decide) hs
  · split_ifs at hs
    · exact hgoes _ (by simp [Goes, hphase]) rfl (by decide) hs
    · exact hgoes _ (by simp [Goes, hphase]) rfl (by decide) hs
  · exact hends _ (by rw [hphase]; rfl) hs
  · exact hgoes _ (by simp [Goes, hphase]) rfl (by decide) hs
  · split_ifs at hs with hn
    obtain ⟨rfl, rfl⟩ := Prod.mk.inj (Option.some.inj hs)
    exact ⟨.failed, .syncFails hphase hn, writes_report h _⟩
  · obtain ⟨rfl, rfl⟩ := Prod.mk.inj (Option.some.inj hs)
    exact ⟨.failed, .stepFails hphase, writes_report h _⟩
  · rw [h] at hs
    exact hgoes _ (by simp [Goes, hphase]) rfl (by decide) hs
  · split_ifs at hs
    · exact hgoes _ (by simp [Goes, hphase]) rfl (by decide) hs
    · exact hgoes _ (by simp [Goes, hphase]) rfl (by decide) hs
  · rw [hcancel] at hs
    split_ifs at hs with hraised hfailed
    · exact hgoes _ (by simp [Goes, hphase, hraised]) rfl (by decide) hs
    · exact hgoes _ (by simp [Goes, hphase]) rfl (by decide) hs
    · exact hgoes _ (by simp [Goes, hphase, hfailed]) rfl (by decide) hs
  · exact hends _ (by rw [hphase]; rfl) hs
  · exact hends _ (by rw [hphase]; rfl) hs
  · exact absurd hs (by simp)

theorem ends_terminal {status : JobStatus} (h : move.ends = some (w.phase, status)) :
    status.IsTerminal := by
  cases move <;> simp only [Move.ends, Option.some.injEq, Prod.mk.injEq, reduceCtorEq] at h <;>
    obtain ⟨-, rfl⟩ := h
  case ranksEnd ok => cases ok <;> decide
  all_goals decide

theorem report_of_none (h : r.get id = none) (status : JobStatus) : r.report id status = r := by
  rw [JobRegistry.report, JobRegistry.updateStatusAndBroadcast, JobRegistry.getMut, h]
  rfl

theorem step_of_none (h : r.get id = none) (hs : w.step r id move = some (w', r')) : r' = r := by
  have hmark : r.updateStatus id .running = .error (.notFound id) := by
    rw [JobRegistry.updateStatus, JobRegistry.getMut, h]
    rfl
  unfold Worker.step at hs
  simp only [h, hmark, Worker.finish, report_of_none h] at hs
  split at hs <;> first
    | exact (Prod.mk.inj (Option.some.inj hs)).2.symm
    | split_ifs at hs <;> exact (Prod.mk.inj (Option.some.inj hs)).2.symm
    | exact absurd hs (by simp)

end Takes

end Grim.Garage
