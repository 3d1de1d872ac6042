import Grim.Garage.Jobs
import Grim.Lib.Traces

/-!
# The limit on concurrent jobs

A request checks the number of active jobs in one step and creates its job in a later one.  The
limit holds in a run in which no job is created between a request's check and its own creation, and
no worker marks a job as running that has been cancelled before (`Careful`).
-/

namespace Grim.Garage

open Steps

def JobStatus.load (status : JobStatus) : ℕ := if status.IsActive then 1 else 0

namespace JobRegistry

variable {r r' : JobRegistry} {id : JobId} {job : TrainingJob}

theorem perm_of_get (h : r.get id = some job) :
    r.inner.entries.Perm (⟨id, job⟩ :: r.inner.entries.kerase id) := by
  obtain ⟨other, before, behind, -, hentries, herase⟩ :=
    List.exists_of_kerase (AList.lookup_isSome.1 (Option.isSome_of_mem h))
  have hother : other = job := by
    refine r.inner.nodupKeys.eq_of_mk_mem (a := id) ?_ (AList.mem_lookup_iff.1 h)
    rw [hentries]
    exact List.mem_append_right _ List.mem_cons_self
  rw [herase, hentries, hother]
  exact List.perm_middle

theorem runningCount_cons (entry : Sigma fun _ : JobId => TrainingJob)
    (entries : List (Sigma fun _ : JobId => TrainingJob)) :
    (entry :: entries).countP (fun e => e.2.status.IsActive) =
      entries.countP (fun e => e.2.status.IsActive) + entry.2.status.load := by
  rw [List.countP_cons, JobStatus.load]
  simp only [decide_eq_true_eq]

theorem runningCount_replace (h : r.get id = some job) {job' : TrainingJob}
    (h' : r'.inner = r.inner.insert id job') :
    r'.runningCount + job.status.load = r.runningCount + job'.status.load := by
  rw [runningCount, runningCount, h', AList.entries_insert, runningCount_cons,
    (perm_of_get h).countP_eq, runningCount_cons]
  exact add_right_comm _ _ _

theorem runningCount_create (job : TrainingJob) (h : r.get id = none) :
    (r.create id job).runningCount = r.runningCount + job.status.load := by
  rw [runningCount, create, put, AList.entries_insert_of_notMem (AList.lookup_eq_none.1 h),
    runningCount_cons]
  rfl

end JobRegistry

theorem load_of_terminal {status : JobStatus} (h : status.IsTerminal) : status.load = 0 :=
  if_neg (JobStatus.isTerminal_iff.1 h)

theorem Takes.load_le {w w' : Worker} {job : TrainingJob} {move : Move} {status : JobStatus}
    (h : Takes w job move w' status) (hm : move ≠ .markRunning) :
    status.load ≤ job.status.load := by
  cases h with
  | get | goes => exact le_rfl
  | running => exact absurd rfl hm
  | ends hends =>
    rw [load_of_terminal (ends_terminal hends)]
    exact Nat.zero_le _
  | stepFails | syncFails =>
    rw [load_of_terminal failed_isTerminal]
    exact Nat.zero_le _

theorem runningCount_cancelJob (r : JobRegistry) (id : JobId) :
    (r.cancelJob id).runningCount ≤ r.runningCount := by
  cases hjob : r.get id with
  | none => rw [JobRegistry.cancelJob_of_none hjob]
  | some job =>
    by_cases hs : job.status.IsActive
    · have hinner : (r.cancelJob id).inner =
          r.inner.insert id { job with status := .cancelled, cancel := true } := by
        rw [JobRegistry.cancelJob_of_active hjob hs]
        rfl
      have hcount := JobRegistry.runningCount_replace hjob hinner
      rw [load_of_terminal (.inr (.inr rfl))] at hcount
      exact le_of_add_le_left hcount.le
    · have hinner : (r.cancelJob id).inner = r.inner.insert id { job with cancel := true } := by
        rw [JobRegistry.cancelJob_of_terminal hjob hs]
        rfl
      have hcount := JobRegistry.runningCount_replace hjob hinner
      exact (Nat.add_right_cancel hcount).le

inductive Request
  | new
  /-- It has passed the check, when so many jobs had been created. -/
  | admitted (created : ℕ)
  | answered
deriving DecidableEq

structure JobSystem where
  registry : JobRegistry
  created : ℕ
  request : ℕ → Request
  worker : JobId → Option Worker

inductive Call
  | check (request : ℕ)
  | reject (request : ℕ)
  | create (request : ℕ) (id : JobId) (numGpus : ℕ)
  | worker (id : JobId) (move : Move)
  | cancel (id : JobId)
deriving DecidableEq

namespace JobSystem

def start (maxConcurrent : ℕ) : JobSystem :=
  ⟨JobRegistry.withMaxConcurrent maxConcurrent, 0, fun _ => .new, fun _ => none⟩

def step (s : JobSystem) : Call → Option JobSystem
  | .check request =>
    match s.request request with
    | .new =>
      let answer : Request :=
        if s.registry.maxConcurrent ≤ s.registry.runningCount then .answered
        else .admitted s.created
      some { s with request := Function.update s.request request answer }
    | _ => none
  | .reject request =>
    match s.request request with
    | .admitted _ => some { s with request := Function.update s.request request .answered }
    | _ => none
  | .create request id numGpus =>
    match s.request request with
    | .admitted _ =>
      -- the id of a new job is that of no other
      if s.registry.get id = none then
        some ⟨s.registry.create id ⟨numGpus, .pending, false⟩, s.created + 1,
          Function.update s.request request .answered, Function.update s.worker id (some .spawn)⟩
      else none
    | _ => none
  | .worker id move => do
    let w ← s.worker id
    let (w, registry) ← w.step s.registry id move
    some { s with registry := registry, worker := Function.update s.worker id (some w) }
  | .cancel id => some { s with registry := s.registry.cancelJob id }

/-- No job has been created since the check of the request that creates one, and the job that a
worker marks as running has not been cancelled. -/
def Careful (s : JobSystem) : Call → Prop
  | .create request _ _ => s.request request = .admitted s.created
  | .worker id .markRunning => ∀ job ∈ s.registry.get id, job.status.IsActive
  | _ => True

instance (s : JobSystem) : ∀ call, Decidable (s.Careful call)
  | .create request _ _ => inferInstanceAs (Decidable (s.request request = .admitted s.created))
  | .worker id .markRunning =>
    inferInstanceAs (Decidable (∀ job ∈ s.registry.get id, job.status.IsActive))
  | .worker _ .get | .worker _ .refuse | .worker _ .fail | .worker _ .enterRanks
  | .worker _ (.ranksEnd _) | .worker _ .enterLoop | .worker _ .checkCancel | .worker _ .lastStep
  | .worker _ .noDataset | .worker _ .breakStep | .worker _ .syncFails | .worker _ .stepFails
  | .worker _ .appendMetric | .worker _ .pace | .worker _ .checkAfter
  | .worker _ .reportCancelled | .worker _ .reportCompleted
  | .check _ | .reject _ | .cancel _ => isTrue trivial

/-- The limit is kept, and a request that was checked since the last job was created has room. -/
structure Within (maxConcurrent : ℕ) (s : JobSystem) : Prop where
  limit : s.registry.maxConcurrent = maxConcurrent
  count : s.registry.runningCount ≤ maxConcurrent
  bounded : ∀ request k, s.request request = .admitted k → k ≤ s.created
  room : ∀ request, s.request request = .admitted s.created →
    s.registry.runningCount < maxConcurrent

section Within

variable {s s' : JobSystem} {m : ℕ}

theorem within_start (m : ℕ) : Within m (start m) := by
  refine ⟨rfl, Nat.zero_le m, fun request k h => ?_, fun request h => ?_⟩
  · cases h
  · cases h

theorem step_worker {id : JobId} {move : Move} (hs : s.step (.worker id move) = some s') :
    s'.registry.maxConcurrent = s.registry.maxConcurrent ∧
      (s.registry.get id = none ∧ s'.registry = s.registry ∨
        ∃ w w' job status, s.registry.get id = some job ∧ Takes w job move w' status ∧
          s'.registry.runningCount + job.status.load =
            s.registry.runningCount + status.load) := by
  obtain ⟨w, -, hs⟩ := Option.bind_eq_some_iff.1 hs
  obtain ⟨⟨w', r'⟩, hstep, hs⟩ := Option.bind_eq_some_iff.1 hs
  obtain rfl := Option.some.inj hs
  cases hjob : s.registry.get id with
  | none =>
    have hr := step_of_none hjob hstep
    exact ⟨congrArg _ hr, .inl ⟨rfl, hr⟩⟩
  | some job =>
    obtain ⟨status, htakes, ⟨hr, hstatus⟩ | ⟨hlimit, hinner⟩⟩ := step_takes hjob hstep
    · refine ⟨congrArg _ hr, .inr ⟨w, w', job, status, rfl, htakes, ?_⟩⟩
      show r'.runningCount + _ = _
      rw [hr, hstatus]
    · exact ⟨hlimit, .inr ⟨w, w', job, status, rfl, htakes,
        JobRegistry.runningCount_replace hjob hinner⟩⟩

theorem step_worker_request {id : JobId} {move : Move} (hs : s.step (.worker id move) = some s') :
    s'.request = s.request ∧ s'.created = s.created := by
  obtain ⟨w, -, hs⟩ := Option.bind_eq_some_iff.1 hs
  obtain ⟨⟨w', r'⟩, -, hs⟩ := Option.bind_eq_some_iff.1 hs
  obtain rfl := Option.some.inj hs
  exact ⟨rfl, rfl⟩

theorem count_worker {id : JobId} {move : Move} (hs : s.step (.worker id move) = some s')
    (hm : move ≠ .markRunning) : s'.registry.runningCount ≤ s.registry.runningCount := by
  obtain ⟨-, ⟨-, hr⟩ | ⟨w, w', job, status, -, htakes, hcount⟩⟩ := step_worker hs
  · rw [hr]
  · have hload := htakes.load_le hm
    omega

theorem count_markRunning {id : JobId} (hs : s.step (.worker id .markRunning) = some s')
    (hactive : ∀ job ∈ s.registry.get id, job.status.IsActive) :
    s'.registry.runningCount = s.registry.runningCount := by
  obtain ⟨-, ⟨-, hr⟩ | ⟨w, w', job, status, hjob, htakes, hcount⟩⟩ := step_worker hs
  · rw [hr]
  · have hrunning : status = .running := by
      cases htakes with
      | running => rfl
      | ends h => exact absurd h (by simp [Move.ends])
      | goes _ h => exact absurd h (by simp [Move.marks])
    rw [hrunning, JobStatus.load, if_pos (hactive job hjob)] at hcount
    exact Nat.add_right_cancel hcount

theorem Within.of_le (h : Within m s)
    (hlimit : s'.registry.maxConcurrent = s.registry.maxConcurrent)
    (hcount : s'.registry.runningCount ≤ s.registry.runningCount)
      (hcreated : s'.created = s.created)
    (hrequest : ∀ request k, s'.request request = .admitted k → s.request request = .admitted k) :
    Within m s' where
  limit := hlimit.trans h.limit
  count := hcount.trans h.count
  bounded request k hk := hcreated ▸ h.bounded request k (hrequest request k hk)
  room request hk :=
    hcount.trans_lt (h.room request (hrequest request _ (hcreated ▸ hk)))

theorem Within.check {request : ℕ} (h : Within m s) (hs : s.step (.check request) = some s') :
    Within m s' := by
  rw [step] at hs
  split at hs
  · obtain rfl := Option.some.inj hs
    have hasked : ∀ r k, Function.update s.request request
        (if s.registry.maxConcurrent ≤ s.registry.runningCount then .answered
          else .admitted s.created) r = .admitted k →
        s.request r = .admitted k ∨ k = s.created ∧ s.registry.runningCount < m := by
      intro r k hk
      by_cases hr : r = request
      · subst hr
        rw [Function.update_self] at hk
        split_ifs at hk with hfull
        obtain rfl := Request.admitted.inj hk
        exact .inr ⟨rfl, h.limit ▸ not_le.1 hfull⟩
      · rw [Function.update_of_ne hr] at hk
        exact .inl hk
    refine ⟨h.limit, h.count, fun r k hk => ?_, fun r hk => ?_⟩
    · rcases hasked r k hk with hold | ⟨rfl, -⟩
      · exact h.bounded r k hold
      · exact le_rfl
    · rcases hasked r _ hk with hold | ⟨-, hroom⟩
      · exact h.room r hold
      · exact hroom
  · cases hs

theorem answered_of_update {request r k : ℕ}
    (h : Function.update s.request request .answered r = .admitted k) :
    r ≠ request ∧ s.request r = .admitted k := by
  by_cases hr : r = request
  · subst hr
    rw [Function.update_self] at h
    cases h
  · rw [Function.update_of_ne hr] at h
    exact ⟨hr, h⟩

theorem Within.create {request numGpus : ℕ} {id : JobId} (h : Within m s)
    (hs : s.step (.create request id numGpus) = some s')
    (hcareful : s.request request = .admitted s.created) : Within m s' := by
  rw [step, hcareful] at hs
  dsimp only at hs
  split_ifs at hs with hnew
  obtain rfl := Option.some.inj hs
  have hcount := JobRegistry.runningCount_create ⟨numGpus, .pending, false⟩ hnew
  have hroom := h.room request hcareful
  refine ⟨h.limit, ?_, fun r k hk => ?_, fun r hk => ?_⟩
  · show JobRegistry.runningCount _ ≤ m
    rw [hcount]
    exact hroom
  · exact (h.bounded r k (answered_of_update hk).2).trans (Nat.le_succ _)
  · -- no other request was checked behind this job
    exact absurd (h.bounded r _ (answered_of_update hk).2) (Nat.not_succ_le_self _)

theorem Within.step {call : Call} (h : Within m s) (hs : s.step call = some s')
    (hcareful : Careful s call) : Within m s' ∧ s'.registry.runningCount ≤ m := by
  suffices hw : Within m s' from ⟨hw, hw.count⟩
  cases call with
  | check request => exact h.check hs
  | reject request =>
    rw [JobSystem.step] at hs
    split at hs
    · obtain rfl := Option.some.inj hs
      exact h.of_le rfl le_rfl rfl fun r k hk => (answered_of_update hk).2
    · cases hs
  | create request id numGpus => exact h.create hs hcareful
  | worker id move =>
    obtain ⟨hrequest, hcreated⟩ := step_worker_request hs
    refine h.of_le (step_worker hs).1 ?_ hcreated fun r k hk => hrequest ▸ hk
    by_cases hm : move = .markRunning
    · subst hm
      exact (count_markRunning hs hcareful).le
    · exact count_worker hs hm
  | cancel id =>
    obtain rfl := Option.some.inj hs
    exact h.of_le (JobRegistry.maxConcurrent_cancelJob s.registry id)
      (runningCount_cancelJob s.registry id) rfl fun r k hk => hk

end Within

/-- In no state of the run are there more active jobs than the limit. -/
def Limited (maxConcurrent : ℕ) (calls : List Call) : Prop :=
  ∀ as bs, calls = as ++ bs → ∀ s, run step (start maxConcurrent) as = some s →
    s.registry.runningCount ≤ maxConcurrent

/-- The limit holds in every run that is careful at each of its steps. -/
theorem limited_of_careful (maxConcurrent : ℕ) (calls : List Call)
    (h : Along step (fun s call _ => Careful s call) (start maxConcurrent) calls) :
    Limited maxConcurrent calls :=
  (along_iff_states (fun s : JobSystem => s.registry.runningCount ≤ maxConcurrent)
    (within_start maxConcurrent).count).1
      (Along.of_good (fun _ _ _ => Within.step) (within_start _) h)

/-- A request is refused while a job runs, and the next one gets its job behind the cancellation. -/
def orderly : List Call :=
  [.check 0, .create 0 "a" 1, .worker "a" .get, .worker "a" .markRunning, .check 1, .cancel "a",
    .check 2, .create 2 "b" 1]

theorem limited_of_careful_orderly :
    (∃ s, run step (start 1) orderly = some s ∧ s.registry.runningCount = 1) ∧
      Limited 1 orderly :=
  ⟨⟨_, rfl, by decide⟩, limited_of_careful 1 orderly (by decide)⟩

/-- Two requests are checked before either creates its job. -/
theorem two_past_the_check : ¬∀ maxConcurrent calls, Limited maxConcurrent calls := by
  intro h
  have hcount := h 1 [.check 0, .check 1, .create 0 "a" 1, .create 1 "b" 1] _ []
    (List.append_nil _).symm _ rfl
  exact absurd hcount (by decide)

theorem cancelled_job_runs : ¬Limited 1 [.check 0, .create 0 "a" 1, .worker "a" .get, .cancel "a",
    .check 1, .create 1 "b" 1, .worker "a" .markRunning] := by
  intro h
  have hcount := h _ [] (List.append_nil _).symm _ rfl
  exact absurd hcount (by decide)

end JobSystem

end Grim.Garage
