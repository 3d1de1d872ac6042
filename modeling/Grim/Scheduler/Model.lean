import Grim.Scheduler.Readiness

/-!
# The scheduler

The queues `waiting`, `running`, `swapped` and `paused`, and the pass `schedule` over them.  Token
counts are naturals; prompt lengths do not add up to `2 ^ 64`.  What one pass reads from outside
comes with it as a `Tick`.
-/

namespace Grim.Scheduler

/-- `Request`, as far as the scheduler reads it. -/
structure Request where
  id : ℕ
  promptTokens : ℕ
  priority : ℤ
  consumedTokens : ℕ
  adapterIds : List ℕ
deriving DecidableEq, Repr

/-- `prompt_tokens.saturating_sub(consumed_tokens)`. -/
def Request.remaining (r : Request) : ℕ := r.promptTokens - r.consumedTokens

inductive DeterminismMode
  | strict
  | relaxed
deriving DecidableEq, Repr

inductive AdmissionDecision
  | admitted
  | deferred
deriving DecidableEq, Repr

/-- What the throughput estimate says: `predict_ttft` in milliseconds from the prompt's tokens and
the backlog, and the expected latency between tokens. -/
structure Throughput where
  predictTtft : ℕ → ℕ → ℕ
  expectedItlMs : ℕ

structure AdmissionController where
  targetTtftMs : ℕ
  targetItlMs : ℕ
deriving DecidableEq, Repr

def AdmissionController.admits (a : AdmissionController) (est : Throughput) (request : Request)
    (backlog : ℕ) : AdmissionDecision :=
  if backlog ≤ request.promptTokens ∧ a.targetTtftMs < est.predictTtft request.promptTokens 0 then
    .admitted
  else if a.targetTtftMs = 0 then .admitted
  else if 0 < a.targetItlMs ∧ a.targetItlMs < est.expectedItlMs then .deferred
  else if est.predictTtft request.promptTokens backlog ≤ a.targetTtftMs then .admitted
  else .deferred

structure Tick where
  throughput : Throughput
  /-- `kv_memory_pressure`. -/
  kvMemoryPressure : Bool
  kindOrder : List TaskKind

end Scheduler

open Scheduler

structure Scheduler where
  waiting : List Request
  running : List Request
  swapped : List Request
  paused : List Request
  maxBatchedTokens : ℕ
  maxNumSeqs : ℕ
  chunkedPrefillSize : ℕ
  admission : AdmissionController
  determinismMode : DeterminismMode
  admittedTotal : ℕ
  readiness : Option ReadinessDispatcher

namespace Scheduler

/-- `LoraSegment`. -/
structure LoraSegment where
  adapterId : ℕ
  seqStart : ℕ
  seqCount : ℕ
  seqIds : List ℕ
deriving DecidableEq, Repr

/-- `SchedulerOutput`; `adapterBatches` lists the map's entries by increasing adapter. -/
structure SchedulerOutput where
  prefillIds : List ℕ
  decodeIds : List ℕ
  preemptedIds : List ℕ
  adapterBatches : List (ℕ × List ℕ)
  loraSegments : List LoraSegment
deriving DecidableEq, Repr

def new (maxBatchedTokens maxNumSeqs : ℕ) (admission : AdmissionController) : Scheduler where
  waiting := []
  running := []
  swapped := []
  paused := []
  maxBatchedTokens := maxBatchedTokens
  maxNumSeqs := maxNumSeqs
  chunkedPrefillSize := 512
  admission := admission
  determinismMode := .relaxed
  admittedTotal := 0
  readiness := none

def enqueue (s : Scheduler) (request : Request) : Scheduler :=
  { s with waiting := s.waiting ++ [request] }

/-- `compute_token_backlog().total`. -/
def computeTokenBacklog (s : Scheduler) : ℕ := (s.waiting.map (·.promptTokens)).sum

def totalRunningTokens (s : Scheduler) : ℕ := (s.running.map (·.remaining)).sum

/-- The order `schedule` puts its queues in first: by id in strict mode, and otherwise `waiting`
by falling priority, which is left alone when it is in that order already. -/
def sortQueues (s : Scheduler) : Scheduler :=
  match s.determinismMode with
  | .strict =>
    { s with
      waiting := s.waiting.insertionSort (·.id ≤ ·.id)
      running := s.running.insertionSort (·.id ≤ ·.id) }
  | .relaxed =>
    if s.waiting.IsChain (fun a b => ¬ a.priority < b.priority) then s
    else { s with waiting := s.waiting.insertionSort (fun a b => b.priority ≤ a.priority) }

def pressureActive (tick : Tick) (s : Scheduler) : Bool :=
  s.maxBatchedTokens < s.computeTokenBacklog ∨ 10 < s.waiting.length ∨
    s.maxBatchedTokens < s.totalRunningTokens ∨ tick.kvMemoryPressure

/-- Swap-in: without pressure the swapped requests go to the front of `waiting`, but for those
another queue still has. -/
def swapIn (pressure : Bool) (s : Scheduler) : Scheduler :=
  if pressure then s
  else
    { s with
      waiting := (s.swapped.filter fun r =>
        ¬ (s.waiting.any (·.id = r.id) ∨ s.running.any (·.id = r.id))) ++ s.waiting
      swapped := [] }

/-- Admission control: the requests admitted, and what is left of `waiting`, with the first
deferred request at its back. -/
def admitWaiting (admission : AdmissionController) (est : Throughput) (backlog : ℕ) :
    List Request → List Request × List Request
  | [] => ([], [])
  | r :: rest =>
    match admission.admits est r backlog with
    | .admitted =>
      let (admitted, waiting) := admitWaiting admission est backlog rest
      (r :: admitted, waiting)
    | .deferred => ([], rest ++ [r])

/-- Preemption: under token pressure the running request of lowest priority that came first is
swapped out. -/
def preempt (pressure : Bool) (totalRunning : ℕ) (s : Scheduler) : Scheduler × List ℕ :=
  if pressure ∧ s.maxBatchedTokens < totalRunning then
    match s.running.insertionSort (fun a b => a.priority ≤ b.priority) with
    | [] => (s, [])
    | preempted :: running =>
      ({ s with running := running, swapped := s.swapped ++ [preempted] }, [preempted.id])
  else (s, [])

/-- `READINESS_DECODE_PRIORITY`. -/
def readinessDecodePriority : ℤ := 100

/-- Decode-first arbitration: under pressure, with a running request ready to decode, prefill is
deferred if the dispatcher picks a decode task. -/
def deferPrefill (pressure : Bool) (tick : Tick) (s : Scheduler) : Scheduler × Bool :=
  match s.readiness with
  | none => (s, false)
  | some readiness =>
    let decodeReady := s.running.filter fun r => r.promptTokens ≤ r.consumedTokens
    if pressure ∧ decodeReady ≠ [] then
      let submitted := decodeReady.foldl (fun (d : ReadinessDispatcher) r =>
        d.submitTask r.id r.id .forwardDecode readinessDecodePriority 0) readiness
      let (readiness, task) := submitted.arbitrate tick.kindOrder
      ({ s with readiness := some readiness }, task.any (·.kind = .forwardDecode))
    else (s, false)

/-- `running` with the entry of `r`'s id replaced by `r`, or `r` appended. -/
def setRunning (r : Request) : List Request → List Request
  | [] => [r]
  | e :: es => if e.id = r.id then r :: es else e :: setRunning r es

structure AdmitCtx where
  pressure : Bool
  decodeDeferredPrefill : Bool
  currentRunning : ℕ
  maxNumSeqs : ℕ
  maxBatchedTokens : ℕ
  chunkedPrefillSize : ℕ

/-- How many tokens of `r` a pass drains. -/
def AdmitCtx.chunkSize (c : AdmitCtx) (r : Request) : ℕ :=
  if c.pressure then min r.remaining c.chunkedPrefillSize else r.remaining

structure AdmitState where
  waiting : List Request
  running : List Request
  admittedTotal : ℕ
  prefillIds : List ℕ
  totalPrefill : ℕ

/-- `r` back at the end of `waiting`. -/
def AdmitState.putBack (st : AdmitState) (r : Request) : AdmitState :=
  { st with waiting := st.waiting ++ [r] }

/-- `r` as the one running entry of its id; an id new to `running` counts as admitted. -/
def AdmitState.place (st : AdmitState) (r : Request) : AdmitState :=
  { st with
    running := setRunning r st.running
    admittedTotal := if st.running.any (·.id = r.id) then st.admittedTotal
      else st.admittedTotal + 1 }

/-- A chunk of `r` prefilled: its running entry carries the new count. -/
def AdmitState.prefill (st : AdmitState) (r : Request) (chunk : ℕ) : AdmitState :=
  { st.place { r with consumedTokens := r.consumedTokens + chunk } with
    prefillIds := st.prefillIds ++ [r.id]
    totalPrefill := st.totalPrefill + chunk }

/-- The remainder of a chunked `r`, if any, at the end of `waiting`. -/
def AdmitState.requeue (st : AdmitState) (r : Request) (chunk : ℕ) : AdmitState :=
  if 0 < r.promptTokens - (r.consumedTokens + chunk) then
    st.putBack { r with consumedTokens := r.consumedTokens + chunk }
  else st

def admitLoop (c : AdmitCtx) : List Request → AdmitState → AdmitState
  | [], st => st
  | r :: admitted, st =>
    if c.maxNumSeqs ≤ c.currentRunning + st.prefillIds.length then
      admitLoop c admitted (st.putBack r)
    else if c.decodeDeferredPrefill then admitLoop c admitted (st.putBack r)
    else if r.remaining = 0 then admitLoop c admitted (st.place r)
    -- over budget: the loop is left with the requests behind `r` still in `admitted`
    else if c.maxBatchedTokens < st.totalPrefill + c.chunkSize r then st.putBack r
    else
      let st := st.prefill r (c.chunkSize r)
      if c.pressure then
        { st with waiting := st.waiting ++ admitted.reverse }.requeue r (c.chunkSize r)
      else admitLoop c admitted (st.requeue r (c.chunkSize r))

def decodeIds (prefillIds : List ℕ) (running : List Request) : List ℕ :=
  (running.filter fun r => r.id ∉ prefillIds ∧ r.promptTokens ≤ r.consumedTokens).map (·.id)

/-- `adapter_ids.first().copied().unwrap_or(0)`. -/
def Request.primaryAdapter (r : Request) : ℕ := r.adapterIds.headD 0

def adapterBatches (running : List Request) : List (ℕ × List ℕ) :=
  ((running.map (·.primaryAdapter)).dedup.insertionSort (· ≤ ·)).map fun adapter =>
    (adapter, (running.filter (·.primaryAdapter = adapter)).map (·.id))

/-- Contiguous segments of the batches, in order of the adapters. -/
def loraSegments (seqOffset : ℕ) : List (ℕ × List ℕ) → List LoraSegment
  | [] => []
  | (adapterId, seqIds) :: batches =>
    ⟨adapterId, seqOffset, seqIds.length, seqIds⟩ ::
      loraSegments (seqOffset + seqIds.length) batches

/-- What `schedule` has in hand when its admission loop starts. -/
structure Admitting where
  sched : Scheduler
  ctx : AdmitCtx
  admitted : List Request
  preemptedIds : List ℕ

/-- `schedule` up to its admission loop. -/
def beginPass (tick : Tick) (s : Scheduler) : Admitting :=
  let s := s.sortQueues
  let backlog := s.computeTokenBacklog
  let totalRunning := s.totalRunningTokens
  let pressure := s.pressureActive tick
  let s := s.swapIn pressure
  let (admitted, waiting) := admitWaiting s.admission tick.throughput backlog s.waiting
  let (s, preemptedIds) := { s with waiting := waiting }.preempt pressure totalRunning
  let (s, deferred) := s.deferPrefill pressure tick
  { sched := s
    ctx :=
      { pressure := pressure
        decodeDeferredPrefill := deferred
        currentRunning := s.running.length
        maxNumSeqs := s.maxNumSeqs
        maxBatchedTokens := s.maxBatchedTokens
        chunkedPrefillSize := s.chunkedPrefillSize }
    admitted := admitted
    preemptedIds := preemptedIds }

/-- The admission loop's result on what `beginPass` hands over. -/
def Admitting.finish (a : Admitting) : AdmitState :=
  admitLoop a.ctx a.admitted
    ⟨a.sched.waiting, a.sched.running, a.sched.admittedTotal, [], 0⟩

def schedule (tick : Tick) (s : Scheduler) : Scheduler × SchedulerOutput :=
  let a := s.beginPass tick
  let st := a.finish
  let batches := adapterBatches st.running
  ({ a.sched with
      waiting := st.waiting
      running := st.running
      admittedTotal := st.admittedTotal },
    { prefillIds := st.prefillIds
      decodeIds := decodeIds st.prefillIds st.running
      preemptedIds := a.preemptedIds
      adapterBatches := batches
      loraSegments := loraSegments 0 batches })

def finish (s : Scheduler) (id : ℕ) : Scheduler :=
  { s with
    running := s.running.filter (·.id ≠ id)
    swapped := s.swapped.filter (·.id ≠ id)
    paused := s.paused.filter (·.id ≠ id) }

def takeId (id : ℕ) : List Request → Option (Request × List Request)
  | [] => none
  | r :: rs => if r.id = id then some (r, rs) else (takeId id rs).map fun (q, qs) => (q, r :: qs)

def pause (s : Scheduler) (id : ℕ) : Scheduler × Bool :=
  match takeId id s.running with
  | some (r, running) => ({ s with running := running, paused := s.paused ++ [r] }, true)
  | none => (s, false)

def resume (s : Scheduler) (id : ℕ) : Scheduler × Bool :=
  match takeId id s.paused with
  | some (r, paused) => ({ s with paused := paused, running := s.running ++ [r] }, true)
  | none => (s, false)

def isPaused (s : Scheduler) (id : ℕ) : Bool := s.paused.any (·.id = id)

end Grim.Scheduler
