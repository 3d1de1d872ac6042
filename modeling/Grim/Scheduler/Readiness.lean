import Mathlib.Tactic

/-!
# The readiness dispatcher

`readiness_dispatch.rs`: tasks keyed by microbatch and kind, the ready ones queued by kind in
arrival order.  `arbitrate` pops the first kind of the hint that has a ready task.  The two hash
maps are functions of their keys; `kindOrder` is the order in which the map of ready queues
yields its keys, which the source leaves open.
-/

namespace Grim.Scheduler

/-- `TaskKind`. -/
inductive TaskKind
  | forwardPrefill
  | forwardDecode
  | moeRouteAndDispatch
  | activationComm
  | backwardCompute
deriving DecidableEq, Repr

/-- `MicrobatchTask`. -/
structure MicrobatchTask where
  microbatchId : ℕ
  requestId : ℕ
  stageId : ℕ
  kind : TaskKind
  priority : ℤ
  pendingDependencies : ℕ
  arrivalEpoch : ℕ
deriving DecidableEq, Repr

def MicrobatchTask.isReady (t : MicrobatchTask) : Bool := t.pendingDependencies = 0

/-- `ReadySet`: the unfinished tasks, and by kind the ready ones as
`(microbatch_id, priority, arrival_epoch)`. -/
structure ReadySet where
  allTasks : ℕ × TaskKind → Option MicrobatchTask
  readyByKind : TaskKind → List (ℕ × ℤ × ℕ)

namespace ReadySet

def empty : ReadySet := ⟨fun _ => none, fun _ => []⟩

def insert (rs : ReadySet) (task : MicrobatchTask) : ReadySet where
  allTasks := Function.update rs.allTasks (task.microbatchId, task.kind) (some task)
  readyByKind :=
    if task.isReady then
      Function.update rs.readyByKind task.kind
        (rs.readyByKind task.kind ++ [(task.microbatchId, task.priority, task.arrivalEpoch)])
    else rs.readyByKind

def markDependencySatisfied (rs : ReadySet) (microbatchId : ℕ) (kind : TaskKind) :
    ReadySet × Bool :=
  match rs.allTasks (microbatchId, kind) with
  | none => (rs, false)
  | some task =>
    if 0 < task.pendingDependencies then
      let task := { task with pendingDependencies := task.pendingDependencies - 1 }
      let rs := { rs with
        allTasks := Function.update rs.allTasks (microbatchId, kind) (some task) }
      if task.pendingDependencies = 0 then
        ({ rs with
          readyByKind := Function.update rs.readyByKind kind
            (rs.readyByKind kind ++ [(task.microbatchId, task.priority, task.arrivalEpoch)]) },
          true)
      else (rs, false)
    else (rs, false)

/-- One kind's turn in `arbitrate`: the front entry is popped, and its task taken unless that
has been taken already. -/
def popKind (rs : ReadySet) (kind : TaskKind) : ReadySet × Option MicrobatchTask :=
  match rs.readyByKind kind with
  | [] => (rs, none)
  | (mb, _, _) :: queue =>
    let rs := { rs with readyByKind := Function.update rs.readyByKind kind queue }
    match rs.allTasks (mb, kind) with
    | none => (rs, none)
    | some task => ({ rs with allTasks := Function.update rs.allTasks (mb, kind) none }, some task)

def popKinds (rs : ReadySet) : List TaskKind → ReadySet × Option MicrobatchTask
  | [] => (rs, none)
  | kind :: kinds =>
    match rs.popKind kind with
    | (rs, some task) => (rs, some task)
    | (rs, none) => rs.popKinds kinds

end ReadySet

/-- `ReadinessDispatcher`. -/
structure ReadinessDispatcher where
  stageId : ℕ
  readySet : ReadySet
  hint : List TaskKind
  arrivalCounter : ℕ

namespace ReadinessDispatcher

/-- `ScheduleHint::default`. -/
def defaultHint : List TaskKind :=
  [.forwardDecode, .moeRouteAndDispatch, .forwardPrefill, .activationComm, .backwardCompute]

def new (stageId : ℕ) (hint : Option (List TaskKind)) : ReadinessDispatcher :=
  ⟨stageId, .empty, hint.getD defaultHint, 0⟩

def submitTask (d : ReadinessDispatcher) (microbatchId requestId : ℕ) (kind : TaskKind)
    (priority : ℤ) (dependencies : ℕ) : ReadinessDispatcher :=
  { d with
    arrivalCounter := d.arrivalCounter + 1
    readySet := d.readySet.insert
      ⟨microbatchId, requestId, d.stageId, kind, priority, dependencies, d.arrivalCounter + 1⟩ }

def onPredecessorCompleted (d : ReadinessDispatcher) (microbatchId : ℕ) (kind : TaskKind) :
    ReadinessDispatcher :=
  { d with readySet := (d.readySet.markDependencySatisfied microbatchId kind).1 }

def arbitrate (kindOrder : List TaskKind) (d : ReadinessDispatcher) :
    ReadinessDispatcher × Option MicrobatchTask :=
  match d.readySet.popKinds d.hint with
  | (rs, some task) => ({ d with readySet := rs }, some task)
  | (rs, none) =>
    let (rs, task) := rs.popKinds kindOrder
    ({ d with readySet := rs }, task)

end ReadinessDispatcher

end Grim.Scheduler
