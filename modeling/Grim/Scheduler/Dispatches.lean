import Grim.Lib.Steps
import Grim.Scheduler.Readiness

/-!
# Runs of the dispatcher

A run submits tasks, reports predecessors as completed and arbitrates, in any order and with any
keys.  The records in `all_tasks` are those of the latest submissions not returned, whatever the run
(`Mirrored`); a resubmission leaves the queued entries of the record it overwrites.
-/

namespace Grim.Scheduler

instance : Fintype TaskKind where
  elems := {.forwardPrefill, .forwardDecode, .moeRouteAndDispatch, .activationComm,
    .backwardCompute}
  complete := by
    intro kind
    cases kind <;> simp

/-- A submission of a key, and the completions for the key since. -/
structure Submission where
  requestId : ℕ
  priority : ℤ
  dependencies : ℕ
  epoch : ℕ
  completed : ℕ
deriving DecidableEq, Repr

/-- A call on the dispatcher; `kindOrder` is what the map of ready queues yields its keys in. -/
inductive DispatchCall
  | submit (microbatchId requestId : ℕ) (kind : TaskKind) (priority : ℤ) (dependencies : ℕ)
  | complete (microbatchId : ℕ) (kind : TaskKind)
  | arbitrate (kindOrder : List TaskKind)

/-- A dispatcher with the submissions made to it and the epochs of those returned. -/
structure Dispatches where
  dispatcher : ReadinessDispatcher
  latest : ℕ × TaskKind → Option Submission
  returned : List ℕ

/-- A key order of the map: no kind twice, and none with an entry left out. -/
def KeyOrder (d : ReadinessDispatcher) (kindOrder : List TaskKind) : Prop :=
  kindOrder.Nodup ∧ ∀ kind, d.readySet.readyByKind kind ≠ [] → kind ∈ kindOrder

instance (d : ReadinessDispatcher) (kindOrder : List TaskKind) :
    Decidable (KeyOrder d kindOrder) := by
  unfold KeyOrder; infer_instance

namespace Dispatches

def new (stageId : ℕ) (hint : Option (List TaskKind)) : Dispatches :=
  ⟨.new stageId hint, fun _ => none, []⟩

def step (h : Dispatches) : DispatchCall → Option Dispatches
  | .submit mb req kind priority dependencies =>
    some
      { dispatcher := h.dispatcher.submitTask mb req kind priority dependencies
        latest := Function.update h.latest (mb, kind)
          (some ⟨req, priority, dependencies, h.dispatcher.arrivalCounter + 1, 0⟩)
        returned := h.returned }
  | .complete mb kind =>
    some
      { dispatcher := h.dispatcher.onPredecessorCompleted mb kind
        latest := Function.update h.latest (mb, kind)
          ((h.latest (mb, kind)).map fun s => { s with completed := s.completed + 1 })
        returned := h.returned }
  | .arbitrate kindOrder =>
    if KeyOrder h.dispatcher kindOrder then
      some
        { dispatcher := (h.dispatcher.arbitrate kindOrder).1
          latest := h.latest
          returned := ((h.dispatcher.arbitrate kindOrder).2.map (·.arrivalEpoch)).toList
            ++ h.returned }
    else none

/-- The record a submission of `key` has in `all_tasks`. -/
def record (stageId : ℕ) (key : ℕ × TaskKind) (s : Submission) : MicrobatchTask where
  microbatchId := key.1
  requestId := s.requestId
  stageId := stageId
  kind := key.2
  priority := s.priority
  pendingDependencies := s.dependencies - s.completed
  arrivalEpoch := s.epoch

/-- `all_tasks` holds the latest submissions not returned; epochs are not given out twice. -/
structure Mirrored (h : Dispatches) : Prop where
  tasks : ∀ key, h.dispatcher.readySet.allTasks key =
    ((h.latest key).filter (·.epoch ∉ h.returned)).map (record h.dispatcher.stageId key)
  epoch_le : ∀ key s, h.latest key = some s → s.epoch ≤ h.dispatcher.arrivalCounter
  epoch_inj : ∀ key key' s s', h.latest key = some s → h.latest key' = some s' →
    s.epoch = s'.epoch → key = key'
  returned_le : ∀ e ∈ h.returned, e ≤ h.dispatcher.arrivalCounter

/-- The submissions not returned whose dependencies have all come. -/
def Ready (h : Dispatches) (key : ℕ × TaskKind) (s : Submission) : Prop :=
  h.latest key = some s ∧ s.epoch ∉ h.returned ∧ s.dependencies ≤ s.completed

end Dispatches

namespace ReadySet

/-- A turn pops entries, and takes the task of the last one popped or none. -/
structure Popped (rs rs' : ReadySet) (taken : Option MicrobatchTask) : Prop where
  suffix : ∀ kind, rs'.readyByKind kind <:+ rs.readyByKind kind
  none_tasks : taken = none → rs'.allTasks = rs.allTasks
  some_tasks : ∀ task, taken = some task → ∃ mb kind entry, entry ∈ rs.readyByKind kind
    ∧ entry.1 = mb ∧ rs.allTasks (mb, kind) = some task
    ∧ rs'.allTasks = Function.update rs.allTasks (mb, kind) none

theorem popped_refl (rs : ReadySet) : Popped rs rs none :=
  ⟨fun _ => List.suffix_refl _, fun _ => rfl, by simp⟩

theorem Popped.trans {rs rs' rs'' : ReadySet} {taken : Option MicrobatchTask}
    (h : Popped rs rs' none) (h' : Popped rs' rs'' taken) : Popped rs rs'' taken where
  suffix := fun kind => (h'.suffix kind).trans (h.suffix kind)
  none_tasks := fun hn => (h'.none_tasks hn).trans (h.none_tasks rfl)
  some_tasks := by
    intro task ht
    obtain ⟨mb, kind, entry, he, hmb, htask, hall⟩ := h'.some_tasks task ht
    rw [h.none_tasks rfl] at htask hall
    exact ⟨mb, kind, entry, (h.suffix kind).subset he, hmb, htask, hall⟩

theorem popKind_popped (rs : ReadySet) (kind : TaskKind) :
    Popped rs (rs.popKind kind).1 (rs.popKind kind).2 := by
  unfold popKind
  split
  · exact popped_refl rs
  · rename_i mb p e queue hq
    have hsuf : ∀ k, Function.update rs.readyByKind kind queue k <:+ rs.readyByKind k := by
      intro k
      by_cases hk : k = kind
      · subst hk
        rw [Function.update_self, hq]
        exact List.suffix_cons _ _
      · rw [Function.update_of_ne hk]
    simp only []
    split
    · exact ⟨hsuf, fun _ => rfl, by simp⟩
    · rename_i task htask
      refine ⟨hsuf, by simp, fun t ht => ?_⟩
      obtain rfl := Option.some.inj ht
      exact ⟨mb, kind, (mb, p, e), by simp [hq], rfl, htask, rfl⟩

theorem popKinds_popped :
    ∀ (kinds : List TaskKind) (rs : ReadySet), Popped rs (rs.popKinds kinds).1 (rs.popKinds kinds).2
  | [], rs => popped_refl rs
  | kind :: kinds, rs => by
    have h := popKind_popped rs kind
    simp only [popKinds]
    split
    · rename_i rs' task hp
      rwa [hp] at h
    · rename_i rs' hp
      rw [hp] at h
      exact h.trans (popKinds_popped kinds rs')

end ReadySet

theorem arbitrate_popped (kindOrder : List TaskKind) (d : ReadinessDispatcher) :
    ReadySet.Popped d.readySet (d.arbitrate kindOrder).1.readySet (d.arbitrate kindOrder).2 := by
  have h := ReadySet.popKinds_popped d.hint d.readySet
  unfold ReadinessDispatcher.arbitrate
  split
  · rename_i rs task hp
    rwa [hp] at h
  · rename_i rs hp
    rw [hp] at h
    exact h.trans (ReadySet.popKinds_popped kindOrder rs)

theorem arbitrate_rest (kindOrder : List TaskKind) (d : ReadinessDispatcher) :
    (d.arbitrate kindOrder).1.stageId = d.stageId ∧ (d.arbitrate kindOrder).1.hint = d.hint
      ∧ (d.arbitrate kindOrder).1.arrivalCounter = d.arrivalCounter := by
  unfold ReadinessDispatcher.arbitrate
  split <;> exact ⟨rfl, rfl, rfl⟩

theorem mark_cases (rs : ReadySet) (mb : ℕ) (kind : TaskKind) :
    (rs.markDependencySatisfied mb kind).1.allTasks = Function.update rs.allTasks (mb, kind)
      ((rs.allTasks (mb, kind)).map fun t =>
        { t with pendingDependencies := t.pendingDependencies - 1 })
    ∧ ((rs.markDependencySatisfied mb kind).1.readyByKind = rs.readyByKind
        ∧ (∀ t, rs.allTasks (mb, kind) = some t → t.pendingDependencies ≠ 1)
      ∨ ∃ t, rs.allTasks (mb, kind) = some t ∧ t.pendingDependencies = 1
        ∧ (rs.markDependencySatisfied mb kind).1.readyByKind = Function.update rs.readyByKind kind
            (rs.readyByKind kind ++ [(t.microbatchId, t.priority, t.arrivalEpoch)])) := by
  unfold ReadySet.markDependencySatisfied
  split
  · rename_i hnone
    refine ⟨?_, .inl ⟨rfl, by simp [hnone]⟩⟩
    simp only [hnone, Option.map_none]
    rw [← hnone, Function.update_eq_self]
  · rename_i t ht
    by_cases hpos : 0 < t.pendingDependencies
    · rw [if_pos hpos]
      simp only []
      by_cases hone : t.pendingDependencies - 1 = 0
      · rw [if_pos hone]
        exact ⟨by simp [ht], .inr ⟨t, ht, by omega, rfl⟩⟩
      · rw [if_neg hone]
        refine ⟨by simp [ht], .inl ⟨rfl, fun u hu => ?_⟩⟩
        obtain rfl := Option.some.inj (ht.symm.trans hu)
        omega
    · rw [if_neg hpos]
      refine ⟨?_, .inl ⟨rfl, fun u hu => ?_⟩⟩
      · have hzero : t.pendingDependencies - 1 = t.pendingDependencies := by omega
        rw [ht, Option.map_some, hzero, ← ht, Function.update_eq_self]
      · obtain rfl := Option.some.inj (ht.symm.trans hu)
        omega

namespace Dispatches

theorem mirrored_new (stageId : ℕ) (hint : Option (List TaskKind)) :
    Mirrored (new stageId hint) where
  tasks := fun _ => rfl
  epoch_le := by simp [new]
  epoch_inj := by simp [new]
  returned_le := by simp [new]

theorem Mirrored.task {h : Dispatches} (hm : Mirrored h) {key : ℕ × TaskKind} {t : MicrobatchTask}
    (ht : h.dispatcher.readySet.allTasks key = some t) :
    ∃ s, h.latest key = some s ∧ s.epoch ∉ h.returned
      ∧ t = record h.dispatcher.stageId key s := by
  rw [hm.tasks, Option.map_eq_some_iff] at ht
  obtain ⟨s, hs, rfl⟩ := ht
  obtain ⟨hs, hr⟩ := Option.filter_eq_some_iff.mp hs
  exact ⟨s, hs, by simpa using hr, rfl⟩

theorem Mirrored.task_of {h : Dispatches} (hm : Mirrored h) {key : ℕ × TaskKind} {s : Submission}
    (hs : h.latest key = some s) (hr : s.epoch ∉ h.returned) :
    h.dispatcher.readySet.allTasks key = some (record h.dispatcher.stageId key s) := by
  rw [hm.tasks, hs]
  simp [Option.filter, hr]

theorem mirrored_submit {h : Dispatches} (hm : Mirrored h) (mb req : ℕ) (kind : TaskKind)
    (priority : ℤ) (dependencies : ℕ) :
    ∃ h', h.step (.submit mb req kind priority dependencies) = some h' ∧ Mirrored h' := by
  refine ⟨_, rfl, ⟨fun key => ?_, fun key s hs => ?_, fun key key' s s' hs hs' he => ?_,
    fun e he => ?_⟩⟩
  · by_cases hk : key = (mb, kind)
    · subst hk
      have hnew : h.dispatcher.arrivalCounter + 1 ∉ h.returned := fun hr => by
        have := hm.returned_le _ hr
        omega
      simp [ReadinessDispatcher.submitTask, ReadySet.insert, record, Option.filter, hnew]
    · have := hm.tasks key
      simpa [ReadinessDispatcher.submitTask, ReadySet.insert, hk] using this
  · show s.epoch ≤ h.dispatcher.arrivalCounter + 1
    by_cases hk : key = (mb, kind)
    · subst hk
      simp only [Function.update_self, Option.some.injEq] at hs
      subst hs
      exact le_rfl
    · simp only [Function.update_of_ne hk] at hs
      exact (hm.epoch_le key s hs).trans (Nat.le_succ _)
  · simp only [Function.update_apply] at hs hs'
    split_ifs at hs with hk <;> split_ifs at hs' with hk'
    · rw [hk, hk']
    · obtain rfl := Option.some.inj hs
      have := hm.epoch_le key' s' hs'
      simp only at he
      omega
    · obtain rfl := Option.some.inj hs'
      have := hm.epoch_le key s hs
      simp only at he
      omega
    · exact hm.epoch_inj key key' s s' hs hs' he
  · exact (hm.returned_le e he).trans (Nat.le_succ _)

theorem mirrored_complete {h : Dispatches} (hm : Mirrored h) (mb : ℕ) (kind : TaskKind) :
    ∃ h', h.step (.complete mb kind) = some h' ∧ Mirrored h' := by
  -- a completion keeps the epochs
  have hlatest : ∀ key s, Function.update h.latest (mb, kind) ((h.latest (mb, kind)).map fun s =>
      { s with completed := s.completed + 1 }) key = some s →
      ∃ s₀, h.latest key = some s₀ ∧ s.epoch = s₀.epoch := by
    intro key s hs
    rw [Function.update_apply] at hs
    split_ifs at hs with hk
    · obtain ⟨s₀, hs₀, rfl⟩ := Option.map_eq_some_iff.mp hs
      exact ⟨s₀, hk ▸ hs₀, rfl⟩
    · exact ⟨s, hs, rfl⟩
  refine ⟨_, rfl, ⟨fun key => ?_, fun key s hs => ?_, fun key key' s s' hs hs' he => ?_,
    hm.returned_le⟩⟩
  · show (h.dispatcher.readySet.markDependencySatisfied mb kind).1.allTasks key = _
    rw [(mark_cases h.dispatcher.readySet mb kind).1]
    by_cases hk : key = (mb, kind)
    · subst hk
      simp only [Function.update_self, hm.tasks]
      rcases h.latest (mb, kind) with _ | s
      · rfl
      · by_cases hr : s.epoch ∈ h.returned
        · simp [Option.filter, hr]
        · have hsub : s.dependencies - s.completed - 1 = s.dependencies - (s.completed + 1) := by
            omega
          simp [Option.filter, hr, record, ReadinessDispatcher.onPredecessorCompleted, hsub]
    · simp only [Function.update_of_ne hk]
      exact hm.tasks key
  · obtain ⟨s₀, hs₀, he⟩ := hlatest key s hs
    exact he ▸ hm.epoch_le key s₀ hs₀
  · obtain ⟨s₀, hs₀, he₀⟩ := hlatest key s hs
    obtain ⟨s₁, hs₁, he₁⟩ := hlatest key' s' hs'
    exact hm.epoch_inj key key' s₀ s₁ hs₀ hs₁ (by omega)

theorem mirrored_arbitrate {h h' : Dispatches} (hm : Mirrored h) {kindOrder : List TaskKind}
    (hs : h.step (.arbitrate kindOrder) = some h') : Mirrored h' := by
  simp only [step] at hs
  split_ifs at hs
  obtain rfl := Option.some.inj hs
  have hpop := arbitrate_popped kindOrder h.dispatcher
  obtain ⟨hstage, -, hcount⟩ := arbitrate_rest kindOrder h.dispatcher
  rcases htaken : (h.dispatcher.arbitrate kindOrder).2 with _ | t
  · refine ⟨fun key => ?_, ?_, hm.epoch_inj, ?_⟩
    · simp only [hpop.none_tasks htaken, hstage]
      exact hm.tasks key
    · simpa only [hcount] using hm.epoch_le
    · simpa [hcount] using hm.returned_le
  · obtain ⟨mb, kind, entry, -, -, htask, hall⟩ := hpop.some_tasks t htaken
    obtain ⟨s, hsub, hr, rfl⟩ := hm.task htask
    refine ⟨fun key => ?_, ?_, hm.epoch_inj, ?_⟩
    · simp only [hall, hstage, Option.map_some, Option.toList_some, List.singleton_append]
      by_cases hk : key = (mb, kind)
      · subst hk
        simp [hsub, Option.filter, record]
      · -- the other keys' submissions have other epochs
        rw [Function.update_of_ne hk, hm.tasks]
        congr 1
        rcases hlat : h.latest key with _ | s'
        · rfl
        · have hne : s'.epoch ≠ s.epoch := fun he => hk (hm.epoch_inj _ _ _ _ hlat hsub he)
          simp [Option.filter, record, hne]
    · simpa only [hcount] using hm.epoch_le
    · intro e he
      simp only [Option.map_some, Option.toList_some, List.singleton_append,
        List.mem_cons] at he
      rw [hcount]
      rcases he with rfl | he
      · exact hm.epoch_le _ s hsub
      · exact hm.returned_le e he

theorem mirrored_step {h h' : Dispatches} {call : DispatchCall} (hm : Mirrored h)
    (hs : h.step call = some h') : Mirrored h' := by
  cases call with
  | submit mb req kind priority dependencies =>
    obtain ⟨g, hg, hm'⟩ := mirrored_submit hm mb req kind priority dependencies
    exact Option.some.inj (hg.symm.trans hs) ▸ hm'
  | complete mb kind =>
    obtain ⟨g, hg, hm'⟩ := mirrored_complete hm mb kind
    exact Option.some.inj (hg.symm.trans hs) ▸ hm'
  | arbitrate kindOrder => exact mirrored_arbitrate hm hs

end Dispatches

end Grim.Scheduler
