import Grim.Scheduler.Dispatches

/-!
# What `arbitrate` selects

A task resubmitted with dependencies while its entry is queued runs before they are satisfied; in a
run without such a submission no task runs early (`runs_in_order`).  The queues are first in, first
out, so they serve priority and arrival only where tasks become ready in that order and no entry
outlives its record (`Listed`, `selects_iff`).
-/

namespace Grim.Scheduler

open List Option

namespace Dispatches

def queued (h : Dispatches) (kind : TaskKind) : List ℕ :=
  (h.dispatcher.readySet.readyByKind kind).map (·.1)

/-- `arbitrate` returns no task but a latest submission that it never returned before and whose
dependencies have all been satisfied since. -/
def RunsInOrder (h : Dispatches) (kindOrder : List TaskKind) : Prop :=
  ∀ t, (h.dispatcher.arbitrate kindOrder).2 = some t →
    ∃ s, h.Ready (t.microbatchId, t.kind) s ∧ s.epoch = t.arrivalEpoch

def SubmitsFresh (h : Dispatches) : DispatchCall → Prop
  | .submit mb _ kind _ dependencies => 0 < dependencies → mb ∉ h.queued kind
  | .complete .. | .arbitrate _ => True

instance (h : Dispatches) (call : DispatchCall) : Decidable (SubmitsFresh h call) :=
  match call with
  | .submit mb _ kind _ dependencies =>
    inferInstanceAs (Decidable (0 < dependencies → mb ∉ h.queued kind))
  | .complete .. | .arbitrate _ => inferInstanceAs (Decidable True)

def EntriesReady (h : Dispatches) : Prop :=
  ∀ mb kind t, mb ∈ h.queued kind → h.dispatcher.readySet.allTasks (mb, kind) = some t →
    t.pendingDependencies = 0

theorem entriesReady_submit {h h' : Dispatches} (hI : EntriesReady h) {mb req : ℕ}
    {kind : TaskKind} {priority : ℤ} {dependencies : ℕ}
    (hok : 0 < dependencies → mb ∉ h.queued kind)
    (hs : h.step (.submit mb req kind priority dependencies) = some h') : EntriesReady h' := by
  obtain rfl := Option.some.inj hs
  intro mb' kind' t hq ht
  by_cases hk : (mb', kind') = (mb, kind)
  · obtain ⟨rfl, rfl⟩ := Prod.mk.inj hk
    simp only [ReadinessDispatcher.submitTask, ReadySet.insert, Function.update_self,
      Option.some.injEq] at ht
    subst ht
    show dependencies = 0
    by_contra hne
    have hnot := hok (Nat.pos_of_ne_zero hne)
    simp [queued, ReadinessDispatcher.submitTask, ReadySet.insert, MicrobatchTask.isReady, hne]
      at hq
    exact hnot (by simpa [queued] using hq)
  · simp only [ReadinessDispatcher.submitTask, ReadySet.insert, Function.update_of_ne hk] at ht
    refine hI mb' kind' t ?_ ht
    simp only [queued, ReadinessDispatcher.submitTask, ReadySet.insert] at hq ⊢
    split_ifs at hq
    · by_cases hkind : kind' = kind
      · subst hkind
        simp only [Function.update_self, map_append, map_cons, map_nil,
          mem_append, mem_singleton] at hq
        exact hq.resolve_right fun hmb => hk (by rw [hmb])
      · rwa [Function.update_of_ne hkind] at hq
    · exact hq

theorem entriesReady_complete {h h' : Dispatches} (hm : Mirrored h) (hI : EntriesReady h) {mb : ℕ}
    {kind : TaskKind} (hs : h.step (.complete mb kind) = some h') : EntriesReady h' := by
  obtain rfl := Option.some.inj hs
  obtain ⟨htasks, hqueue⟩ := mark_cases h.dispatcher.readySet mb kind
  intro mb' kind' t hq ht
  simp only [queued, ReadinessDispatcher.onPredecessorCompleted] at hq ht
  rw [htasks] at ht
  -- an entry that is new is the completed task's
  have hold : mb' ∈ h.queued kind' ∨ ((mb', kind') = (mb, kind)
      ∧ ∃ t, h.dispatcher.readySet.allTasks (mb, kind) = some t ∧ t.pendingDependencies = 1) := by
    rcases hqueue with ⟨hqueue, -⟩ | ⟨u, hu, hone, hqueue⟩
    · rw [hqueue] at hq
      exact .inl hq
    · rw [hqueue] at hq
      by_cases hkind : kind' = kind
      · subst hkind
        obtain ⟨s, -, -, rfl⟩ := hm.task hu
        simp only [Function.update_self, map_append, map_cons, map_nil,
          mem_append, mem_singleton, record] at hq
        rcases hq with hq | rfl
        · exact .inl hq
        · exact .inr ⟨rfl, _, hu, hone⟩
      · rw [Function.update_of_ne hkind] at hq
        exact .inl hq
  by_cases hk : (mb', kind') = (mb, kind)
  · rw [hk, Function.update_self, map_eq_some_iff] at ht
    obtain ⟨u, hu, rfl⟩ := ht
    show u.pendingDependencies - 1 = 0
    rcases hold with hq | ⟨-, v, hv, hone⟩
    · have := hI mb' kind' u hq (hk ▸ hu)
      omega
    · obtain rfl := Option.some.inj (hu.symm.trans hv)
      omega
  · rw [Function.update_of_ne hk] at ht
    exact hI mb' kind' t (hold.resolve_right fun h => hk h.1) ht

theorem entriesReady_arbitrate {h h' : Dispatches} (hI : EntriesReady h)
    {kindOrder : List TaskKind} (hs : h.step (.arbitrate kindOrder) = some h') :
    EntriesReady h' := by
  simp only [step] at hs
  split_ifs at hs
  obtain rfl := Option.some.inj hs
  have hpop := arbitrate_popped kindOrder h.dispatcher
  intro mb kind t hq ht
  refine hI mb kind t (((hpop.suffix kind).map (·.1)).subset hq) ?_
  rcases htaken : (h.dispatcher.arbitrate kindOrder).2 with _ | u
  · rwa [← hpop.none_tasks htaken]
  · obtain ⟨mb', kind', -, -, -, -, hall⟩ := hpop.some_tasks u htaken
    simp only [hall, Function.update_apply] at ht
    split_ifs at ht
    exact ht

theorem entriesReady_step {h h' : Dispatches} {call : DispatchCall}
    (hI : Mirrored h ∧ EntriesReady h) (hok : SubmitsFresh h call) (hs : h.step call = some h') :
    Mirrored h' ∧ EntriesReady h' := by
  refine ⟨mirrored_step hI.1 hs, ?_⟩
  cases call with
  | submit mb req kind priority dependencies => exact entriesReady_submit hI.2 hok hs
  | complete mb kind => exact entriesReady_complete hI.1 hI.2 hs
  | arbitrate kindOrder => exact entriesReady_arbitrate hI.2 hs

/-- In every run that submits no key with dependencies while it is queued, `arbitrate` returns a
submission only after its dependencies, and only once. -/
theorem runs_in_order (stageId : ℕ) (hint : Option (List TaskKind)) {h : Dispatches}
    (hr : Steps.Reach step SubmitsFresh (new stageId hint) h) (kindOrder : List TaskKind) :
    h.RunsInOrder kindOrder := by
  have h0 : Mirrored (new stageId hint) ∧ EntriesReady (new stageId hint) :=
    ⟨mirrored_new stageId hint, fun _ _ _ _ ht => by simp [new, ReadinessDispatcher.new,
      ReadySet.empty] at ht⟩
  obtain ⟨hm, hI⟩ := hr.invariant (I := fun h => Mirrored h ∧ EntriesReady h) h0
    fun _ _ _ => entriesReady_step
  intro t ht
  obtain ⟨mb, kind, entry, hentry, rfl, htask, -⟩ :=
    (arbitrate_popped kindOrder h.dispatcher).some_tasks t ht
  have hzero := hI entry.1 kind t (List.mem_map_of_mem hentry) htask
  obtain ⟨s, hs, hnew, rfl⟩ := hm.task htask
  refine ⟨s, ⟨hs, hnew, ?_⟩, rfl⟩
  have : s.dependencies - s.completed = 0 := hzero
  omega

/-- A task with two dependencies, one of which has come, and one resubmitted while it is queued. -/
def freshSubmits : List DispatchCall :=
  [.submit 1 1 .forwardPrefill 0 2, .complete 1 .forwardPrefill, .submit 2 2 .forwardDecode 0 0,
    .submit 2 2 .forwardDecode 0 0]

theorem runs_in_order_fresh :
    ∃ h, Steps.exec step SubmitsFresh (new 0 none) freshSubmits = some h
      ∧ h.RunsInOrder [.forwardPrefill, .forwardDecode] := by
  obtain ⟨h, hrun⟩ : ∃ h, Steps.exec step SubmitsFresh (new 0 none) freshSubmits = some h :=
    ⟨_, rfl⟩
  exact ⟨h, hrun, runs_in_order 0 none (Steps.reach_of_exec hrun) _⟩

/-- A queued task resubmitted with a dependency is returned before it. -/
theorem resubmission_runs_early :
    ¬ ∀ stageId hint h, Steps.Reach step (fun _ _ => True) (new stageId hint) h →
      ∀ kindOrder, h.RunsInOrder kindOrder := by
  intro hall
  obtain ⟨h, hrun, t, ht, s, hs, hpend⟩ : ∃ h,
      Steps.exec step (fun _ _ => True) (new 0 none)
        [.submit 1 1 .forwardDecode 0 0, .submit 1 1 .forwardDecode 0 1] = some h
      ∧ ∃ t, (h.dispatcher.arbitrate []).2 = some t
      ∧ ∃ s, h.latest (t.microbatchId, t.kind) = some s ∧ s.completed < s.dependencies :=
    ⟨_, rfl, _, rfl, _, rfl, by decide⟩
  obtain ⟨s', ⟨hs', -, hready⟩, -⟩ := hall 0 none h (Steps.reach_of_exec hrun) [] t ht
  obtain rfl := Option.some.inj (hs.symm.trans hs')
  omega

/-- The policy's order of two entries: falling priority, then arrival. -/
def Before (e e' : ℕ × ℤ × ℕ) : Prop := e'.2.1 < e.2.1 ∨ (e.2.1 = e'.2.1 ∧ e.2.2 < e'.2.2)

instance (e e' : ℕ × ℤ × ℕ) : Decidable (Before e e') := by
  unfold Before; infer_instance

/-- `arbitrate` returns a task if and only if one is ready: one of the first kind of the hint that
has such a task, and the best of its kind. -/
structure Selects (h : Dispatches) (kindOrder : List TaskKind) : Prop where
  some_iff : (h.dispatcher.arbitrate kindOrder).2.isSome ↔ ∃ key s, h.Ready key s
  best : ∀ t, (h.dispatcher.arbitrate kindOrder).2 = some t →
    ∃ s, h.Ready (t.microbatchId, t.kind) s ∧ s.epoch = t.arrivalEpoch
      ∧ (∃ pre post, h.dispatcher.hint = pre ++ t.kind :: post
        ∧ ∀ kind ∈ pre, ∀ mb s', ¬ h.Ready (mb, kind) s')
      ∧ ∀ mb s', h.Ready (mb, t.kind) s' →
        s'.priority < s.priority ∨ (s'.priority = s.priority ∧ s.epoch ≤ s'.epoch)

/-- `e` is the entry of a ready task of `kind`. -/
def ReadyEntry (h : Dispatches) (kind : TaskKind) (e : ℕ × ℤ × ℕ) : Prop :=
  ∃ s, h.Ready (e.1, kind) s ∧ s.priority = e.2.1 ∧ s.epoch = e.2.2

structure Listed (h : Dispatches) : Prop where
  entries : ∀ kind e, e ∈ h.dispatcher.readySet.readyByKind kind ↔ h.ReadyEntry kind e
  sorted : ∀ kind, (h.dispatcher.readySet.readyByKind kind).Pairwise Before

/-- No key with an entry queued is submitted, and a task becomes ready behind those of its kind
that the policy puts before it. -/
def ArrivesInOrder (h : Dispatches) : DispatchCall → Prop
  | .submit mb _ kind priority dependencies => mb ∉ h.queued kind ∧ (dependencies = 0 →
    ∀ e ∈ h.dispatcher.readySet.readyByKind kind, priority ≤ e.2.1)
  | .complete mb kind => ∀ s ∈ h.latest (mb, kind), s.epoch ∉ h.returned →
    s.dependencies = s.completed + 1 →
    ∀ e ∈ h.dispatcher.readySet.readyByKind kind, Before e (mb, s.priority, s.epoch)
  | .arbitrate _ => True

instance (h : Dispatches) (call : DispatchCall) : Decidable (ArrivesInOrder h call) :=
  match call with
  | .submit mb _ kind priority dependencies =>
    inferInstanceAs (Decidable (mb ∉ h.queued kind ∧ (dependencies = 0 →
      ∀ e ∈ h.dispatcher.readySet.readyByKind kind, priority ≤ e.2.1)))
  | .complete mb kind =>
    inferInstanceAs (Decidable (∀ s ∈ h.latest (mb, kind), s.epoch ∉ h.returned →
      s.dependencies = s.completed + 1 →
      ∀ e ∈ h.dispatcher.readySet.readyByKind kind, Before e (mb, s.priority, s.epoch)))
  | .arbitrate _ => inferInstanceAs (Decidable True)

def Hinted (h : Dispatches) : Prop :=
  (∃ key s, h.Ready key s) → ∃ key s, h.Ready key s ∧ key.2 ∈ h.dispatcher.hint

theorem before_irrefl (e : ℕ × ℤ × ℕ) : ¬ Before e e := by
  rintro (h | ⟨-, h⟩)
  · exact lt_irrefl _ h
  · exact lt_irrefl _ h

theorem Listed.not_ready {h : Dispatches} (hl : Listed h) {mb : ℕ} {kind : TaskKind}
    (hq : mb ∉ h.queued kind) (s : Submission) : ¬ h.Ready (mb, kind) s := fun hs =>
  hq (List.mem_map_of_mem (a := (mb, s.priority, s.epoch))
    ((hl.entries kind _).mpr ⟨s, hs, rfl, rfl⟩))

theorem Listed.append {h h' : Dispatches} (hl : Listed h) (kind : TaskKind)
    (extra : List (ℕ × ℤ × ℕ))
    (hqueue : h'.dispatcher.readySet.readyByKind
      = Function.update h.dispatcher.readySet.readyByKind kind
          (h.dispatcher.readySet.readyByKind kind ++ extra))
    (hready : ∀ kind' e, h'.ReadyEntry kind' e ↔ h.ReadyEntry kind' e ∨ (kind' = kind ∧ e ∈ extra))
    (hsorted : (h.dispatcher.readySet.readyByKind kind ++ extra).Pairwise Before) : Listed h' where
  entries := by
    intro kind' e
    rw [hready, ← hl.entries, hqueue]
    by_cases hk : kind' = kind
    · subst hk
      simp
    · simp [hk]
  sorted := by
    intro kind'
    rw [hqueue]
    by_cases hk : kind' = kind
    · subst hk
      rwa [Function.update_self]
    · rw [Function.update_of_ne hk]
      exact hl.sorted kind'

theorem pairwise_concat {l : List (ℕ × ℤ × ℕ)} {e : ℕ × ℤ × ℕ} (h : l.Pairwise Before)
    (he : ∀ e' ∈ l, Before e' e) : (l ++ [e]).Pairwise Before := by
  refine pairwise_append.mpr ⟨h, pairwise_singleton _ _, fun a ha b hb => ?_⟩
  rw [mem_singleton.mp hb]
  exact he a ha

theorem listed_submit {h h' : Dispatches} (hm : Mirrored h) (hl : Listed h) {mb req : ℕ}
    {kind : TaskKind} {priority : ℤ} {dependencies : ℕ}
    (hok : ArrivesInOrder h (.submit mb req kind priority dependencies))
    (hs : h.step (.submit mb req kind priority dependencies) = some h') : Listed h' := by
  obtain rfl := Option.some.inj hs
  obtain ⟨hfree, hprio⟩ := hok
  have hnew : h.dispatcher.arrivalCounter + 1 ∉ h.returned := fun hr => by
    have := hm.returned_le _ hr
    omega
  refine hl.append kind (if dependencies = 0 then
    [(mb, priority, h.dispatcher.arrivalCounter + 1)] else []) ?_ (fun kind' e => ?_) ?_
  · by_cases hdep : dependencies = 0
    · simp [ReadinessDispatcher.submitTask, ReadySet.insert, MicrobatchTask.isReady, hdep]
    · simp [ReadinessDispatcher.submitTask, ReadySet.insert, MicrobatchTask.isReady, hdep]
  · by_cases hk : (e.1, kind') = (mb, kind)
    · obtain ⟨hmb, rfl⟩ := Prod.mk.inj hk
      have hold : ¬ h.ReadyEntry kind' e := by
        rintro ⟨s, hs, -⟩
        rw [hmb] at hs
        exact hl.not_ready hfree s hs
      simp only [ReadyEntry, Ready, hk, Function.update_self, Option.some.injEq] at hold ⊢
      simp only [hold, false_or, true_and]
      constructor
      · rintro ⟨s, ⟨rfl, -, hdep⟩, hp, he⟩
        rw [if_pos (Nat.le_zero.mp hdep), mem_singleton]
        exact Prod.ext hmb (Prod.ext hp.symm he.symm)
      · intro hmem
        split_ifs at hmem with hdep
        · obtain rfl := mem_singleton.mp hmem
          exact ⟨_, ⟨rfl, hnew, hdep.le⟩, rfl, rfl⟩
        · simp at hmem
    · simp only [ReadyEntry, Ready, Function.update_of_ne hk]
      refine ⟨.inl, fun hor => hor.resolve_right ?_⟩
      rintro ⟨rfl, hmem⟩
      split_ifs at hmem
      · exact hk (by rw [mem_singleton.mp hmem])
      · simp at hmem
  · split_ifs with hdep
    · refine pairwise_concat (hl.sorted kind) fun e he => ?_
      obtain ⟨s, hs, -, hep⟩ := (hl.entries kind e).mp he
      have := hm.epoch_le _ s hs.1
      have := hprio hdep e he
      simp only [Before]
      omega
    · simpa using hl.sorted kind

theorem listed_complete {h h' : Dispatches} (hm : Mirrored h) (hl : Listed h) {mb : ℕ}
    {kind : TaskKind} (hok : ArrivesInOrder h (.complete mb kind))
    (hs : h.step (.complete mb kind) = some h') : Listed h' := by
  obtain rfl := Option.some.inj hs
  have hqueue := (mark_cases h.dispatcher.readySet mb kind).2
  rcases hqueue with ⟨hqueue, hlast⟩ | ⟨t, ht, hone, hqueue⟩
  · -- no entry is queued, and nothing becomes ready
    refine hl.append kind [] ?_ (fun kind' e => ?_) (by simpa using hl.sorted kind)
    · rw [append_nil, Function.update_eq_self]
      exact hqueue
    simp only [ReadyEntry, Ready, not_mem_nil, and_false, or_false]
    by_cases hk : (e.1, kind') = (mb, kind)
    · simp only [hk, Function.update_self]
      constructor
      · rintro ⟨s, ⟨hs, hr, hdep⟩, hp, he⟩
        obtain ⟨s₀, hs₀, rfl⟩ := map_eq_some_iff.mp hs
        refine ⟨s₀, ⟨hs₀, hr, ?_⟩, hp, he⟩
        have hne := hlast _ (hm.task_of hs₀ hr)
        simp only [record] at hne hdep
        omega
      · rintro ⟨s, ⟨hs, hr, hdep⟩, hp, he⟩
        exact ⟨{ s with completed := s.completed + 1 }, ⟨by rw [hs]; rfl, hr,
          hdep.trans (Nat.le_succ _)⟩, hp, he⟩
    · simp only [Function.update_of_ne hk]
  · obtain ⟨s, hs, hr, rfl⟩ := hm.task ht
    have hdep : s.dependencies = s.completed + 1 := by
      simp only [record] at hone
      omega
    refine hl.append kind [(mb, s.priority, s.epoch)] hqueue (fun kind' e => ?_)
      (pairwise_concat (hl.sorted kind) (hok s hs hr hdep))
    simp only [ReadyEntry, Ready, mem_singleton]
    by_cases hk : (e.1, kind') = (mb, kind)
    · obtain ⟨hmb, rfl⟩ := Prod.mk.inj hk
      simp only [hk, Function.update_self, hs, map_some, Option.some.injEq, true_and]
      constructor
      · rintro ⟨s', ⟨rfl, -, -⟩, hp, he⟩
        exact .inr (Prod.ext hmb (Prod.ext hp.symm he.symm))
      · rintro (⟨s', ⟨rfl, -, hle⟩, -⟩ | rfl)
        · omega
        · exact ⟨_, ⟨rfl, hr, hdep.le⟩, rfl, rfl⟩
    · simp only [Function.update_of_ne hk]
      refine ⟨.inl, fun hor => hor.resolve_right ?_⟩
      rintro ⟨rfl, rfl⟩
      exact hk rfl

/-! ### One selection -/

/-- The front entry of the first kind of `kinds` that has one, and its task. -/
structure Front (rs : ReadySet) (kinds : List TaskKind) (kind : TaskKind) (e : ℕ × ℤ × ℕ)
    (queue : List (ℕ × ℤ × ℕ)) (t : MicrobatchTask) : Prop where
  first : ∃ pre post, kinds = pre ++ kind :: post ∧ ∀ k ∈ pre, rs.readyByKind k = []
  front : rs.readyByKind kind = e :: queue
  task : rs.allTasks (e.1, kind) = some t

/-- `rs` without a front entry and its task. -/
def popFront (rs : ReadySet) (kind : TaskKind) (e : ℕ × ℤ × ℕ) (queue : List (ℕ × ℤ × ℕ)) :
    ReadySet where
  allTasks := Function.update rs.allTasks (e.1, kind) none
  readyByKind := Function.update rs.readyByKind kind queue

theorem popKinds_live {rs : ReadySet}
    (hlive : ∀ kind, ∀ e ∈ rs.readyByKind kind, ∃ t, rs.allTasks (e.1, kind) = some t) :
    ∀ kinds : List TaskKind,
      ((∀ kind ∈ kinds, rs.readyByKind kind = []) ∧ rs.popKinds kinds = (rs, none))
      ∨ ∃ kind e queue t, Front rs kinds kind e queue t
        ∧ rs.popKinds kinds = (popFront rs kind e queue, some t)
  | [] => .inl ⟨by simp, rfl⟩
  | kind :: kinds => by
    rcases hq : rs.readyByKind kind with _ | ⟨e, queue⟩
    · have hpop : rs.popKinds (kind :: kinds) = rs.popKinds kinds := by
        simp [ReadySet.popKinds, ReadySet.popKind, hq]
      rw [hpop]
      rcases popKinds_live hlive kinds with ⟨hnone, hp⟩ | ⟨k, e, queue, t, hf, hp⟩
      · exact .inl ⟨forall_mem_cons.mpr ⟨hq, hnone⟩, hp⟩
      · obtain ⟨pre, post, rfl, hpre⟩ := hf.first
        exact .inr ⟨k, e, queue, t, ⟨⟨kind :: pre, post, rfl,
          forall_mem_cons.mpr ⟨hq, hpre⟩⟩, hf.front, hf.task⟩, hp⟩
    · obtain ⟨t, ht⟩ := hlive kind e (by rw [hq]; exact mem_cons_self)
      refine .inr ⟨kind, e, queue, t, ⟨⟨[], kinds, rfl, by simp⟩, hq, ht⟩, ?_⟩
      simp [ReadySet.popKinds, ReadySet.popKind, hq, ht, popFront]

theorem arbitrate_live {d : ReadinessDispatcher} {kindOrder : List TaskKind}
    (hkeys : KeyOrder d kindOrder)
    (hlive : ∀ kind, ∀ e ∈ d.readySet.readyByKind kind,
      ∃ t, d.readySet.allTasks (e.1, kind) = some t) :
    ((∀ kind, d.readySet.readyByKind kind = []) ∧ d.arbitrate kindOrder = (d, none))
    ∨ ∃ kind e queue t, (Front d.readySet d.hint kind e queue t
          ∨ ((∀ k ∈ d.hint, d.readySet.readyByKind k = [])
            ∧ Front d.readySet kindOrder kind e queue t))
        ∧ d.arbitrate kindOrder
          = ({ d with readySet := popFront d.readySet kind e queue }, some t) := by
  unfold ReadinessDispatcher.arbitrate
  rcases popKinds_live hlive d.hint with ⟨hnone, hp⟩ | ⟨kind, e, queue, t, hf, hp⟩
  · rw [hp]
    simp only []
    rcases popKinds_live hlive kindOrder with ⟨hnone', hp'⟩ | ⟨kind, e, queue, t, hf, hp'⟩
    · rw [hp']
      refine .inl ⟨fun kind => ?_, rfl⟩
      by_contra hne
      exact hne (hnone' kind (hkeys.2 kind hne))
    · rw [hp']
      exact .inr ⟨kind, e, queue, t, .inr ⟨hnone, hf⟩, rfl⟩
  · rw [hp]
    exact .inr ⟨kind, e, queue, t, .inl hf, rfl⟩

theorem Listed.live {h : Dispatches} (hm : Mirrored h) (hl : Listed h) (kind : TaskKind) :
    ∀ e ∈ h.dispatcher.readySet.readyByKind kind,
      ∃ t, h.dispatcher.readySet.allTasks (e.1, kind) = some t := by
  intro e he
  obtain ⟨s, ⟨hs, hr, -⟩, -⟩ := (hl.entries kind e).mp he
  exact ⟨_, hm.task_of hs hr⟩

theorem Listed.front {h : Dispatches} (hm : Mirrored h) (hl : Listed h) {kinds : List TaskKind}
    {kind : TaskKind} {e : ℕ × ℤ × ℕ} {queue : List (ℕ × ℤ × ℕ)} {t : MicrobatchTask}
    (hf : Front h.dispatcher.readySet kinds kind e queue t) :
    ∃ s, h.Ready (e.1, kind) s ∧ t = record h.dispatcher.stageId (e.1, kind) s
      ∧ s.epoch = e.2.2 ∧ ∀ mb s', h.Ready (mb, kind) s' →
        s'.priority < s.priority ∨ (s'.priority = s.priority ∧ s.epoch ≤ s'.epoch) := by
  have hmem : e ∈ h.dispatcher.readySet.readyByKind kind := by
    rw [hf.front]
    exact mem_cons_self
  obtain ⟨s, hs, hp, he⟩ := (hl.entries kind e).mp hmem
  have ht : t = record h.dispatcher.stageId (e.1, kind) s :=
    Option.some.inj (hf.task.symm.trans (hm.task_of hs.1 hs.2.1))
  refine ⟨s, hs, ht, he, fun mb s' hs' => ?_⟩
  have hmem' : (mb, s'.priority, s'.epoch) ∈ e :: queue := by
    rw [← hf.front]
    exact (hl.entries kind _).mpr ⟨s', hs', rfl, rfl⟩
  rcases mem_cons.mp hmem' with heq | hmem'
  · obtain rfl := heq
    simp only at hp he
    exact .inr ⟨hp.symm, he.le⟩
  · have hsort := hl.sorted kind
    rw [hf.front, pairwise_cons] at hsort
    have hb := hsort.1 _ hmem'
    simp only [Before] at hb
    omega

theorem listed_arbitrate {h h' : Dispatches} (hm : Mirrored h) (hl : Listed h)
    {kindOrder : List TaskKind} (hs : h.step (.arbitrate kindOrder) = some h') : Listed h' := by
  simp only [step] at hs
  split_ifs at hs with hkeys
  obtain rfl := Option.some.inj hs
  rcases arbitrate_live hkeys (hl.live hm) with ⟨-, harb⟩ | ⟨kind, e, queue, t, hf, harb⟩
  · rw [harb]
    exact ⟨hl.entries, hl.sorted⟩
  · have hfront : ∃ kinds, Front h.dispatcher.readySet kinds kind e queue t :=
      hf.elim (fun hf => ⟨_, hf⟩) fun hf => ⟨_, hf.2⟩
    obtain ⟨kinds, hfront⟩ := hfront
    obtain ⟨s, hs, rfl, hep, -⟩ := hl.front hm hfront
    have hsort := hl.sorted kind
    rw [hfront.front, pairwise_cons] at hsort
    rw [harb]
    refine ⟨fun kind' e' => ?_, fun kind' => ?_⟩
    · -- the ready tasks are those of other keys than the returned one
      have hready : ∀ s', (Ready
          { dispatcher := { h.dispatcher with
              readySet := popFront h.dispatcher.readySet kind e queue }
            latest := h.latest
            returned := s.epoch :: h.returned } (e'.1, kind') s') ↔
          h.Ready (e'.1, kind') s' ∧ (e'.1, kind') ≠ (e.1, kind) := by
        intro s'
        simp only [Ready, mem_cons, not_or]
        constructor
        · rintro ⟨hs', ⟨hne, hr⟩, hdep⟩
          refine ⟨⟨hs', hr, hdep⟩, fun heq => hne ?_⟩
          rw [heq] at hs'
          rw [Option.some.inj (hs'.symm.trans hs.1)]
        · rintro ⟨⟨hs', hr, hdep⟩, hne⟩
          exact ⟨hs', ⟨fun heq => hne (hm.epoch_inj _ _ _ _ hs' hs.1 heq), hr⟩, hdep⟩
      have hentry : (∃ s', (h.Ready (e'.1, kind') s' ∧ (e'.1, kind') ≠ (e.1, kind))
          ∧ s'.priority = e'.2.1 ∧ s'.epoch = e'.2.2) ↔
          e' ∈ h.dispatcher.readySet.readyByKind kind' ∧ (e'.1, kind') ≠ (e.1, kind) := by
        rw [hl.entries]
        constructor
        · rintro ⟨s', ⟨hs', hne⟩, hpe⟩
          exact ⟨⟨s', hs', hpe⟩, hne⟩
        · rintro ⟨⟨s', hs', hpe⟩, hne⟩
          exact ⟨s', ⟨hs', hne⟩, hpe⟩
      show e' ∈ Function.update h.dispatcher.readySet.readyByKind kind queue kind' ↔ ∃ s', _ ∧ _
      simp only [map_some, toList_some, singleton_append, record, hready,
        hentry]
      by_cases hk : kind' = kind
      · subst hk
        rw [Function.update_self, hfront.front, mem_cons]
        constructor
        · intro hmem
          refine ⟨.inr hmem, fun heq => ?_⟩
          -- one entry for each microbatch
          have hm' : e' ∈ h.dispatcher.readySet.readyByKind kind' := by
            rw [hfront.front]
            exact mem_cons_of_mem _ hmem
          obtain ⟨s', hs', hp', he'⟩ := (hl.entries kind' e').mp hm'
          obtain ⟨s₀, hs₀, hp₀, he₀⟩ := (hl.entries kind' e).mp (by simp [hfront.front])
          rw [heq] at hs'
          obtain rfl := Option.some.inj (hs'.1.symm.trans hs₀.1)
          have : e' = e := Prod.ext (Prod.mk.inj heq).1 (Prod.ext (hp'.symm.trans hp₀)
            (he'.symm.trans he₀))
          exact before_irrefl e (this ▸ hsort.1 e' hmem)
        · rintro ⟨rfl | hmem, hne⟩
          · exact absurd rfl hne
          · exact hmem
      · rw [Function.update_of_ne hk]
        exact ⟨fun hmem => ⟨hmem, fun heq => hk (Prod.mk.inj heq).2⟩, And.left⟩
    · show (Function.update h.dispatcher.readySet.readyByKind kind queue kind').Pairwise Before
      by_cases hk : kind' = kind
      · subst hk
        rw [Function.update_self]
        exact hsort.2
      · rw [Function.update_of_ne hk]
        exact hl.sorted kind'

theorem listed_step {h h' : Dispatches} {call : DispatchCall} (hI : Mirrored h ∧ Listed h)
    (hok : ArrivesInOrder h call) (hs : h.step call = some h') : Mirrored h' ∧ Listed h' := by
  refine ⟨mirrored_step hI.1 hs, ?_⟩
  cases call with
  | submit mb req kind priority dependencies => exact listed_submit hI.1 hI.2 hok hs
  | complete mb kind => exact listed_complete hI.1 hI.2 hok hs
  | arbitrate kindOrder => exact listed_arbitrate hI.1 hI.2 hs

theorem Listed.selects {h : Dispatches} (hm : Mirrored h) (hl : Listed h)
    {kindOrder : List TaskKind} (hkeys : KeyOrder h.dispatcher kindOrder) :
    h.Selects kindOrder ↔ h.Hinted := by
  have hempty : ∀ kind, h.dispatcher.readySet.readyByKind kind = [] →
      ∀ mb s, ¬ h.Ready (mb, kind) s := by
    intro kind hq mb s hs
    refine hl.not_ready ?_ s hs
    simp [queued, hq]
  constructor
  · intro hsel hany
    obtain ⟨t, ht⟩ := isSome_iff_exists.mp (hsel.some_iff.mpr hany)
    obtain ⟨s, hs, -, ⟨pre, post, hhint, -⟩, -⟩ := hsel.best t ht
    exact ⟨_, s, hs, by simp [hhint]⟩
  · intro hhint
    rcases arbitrate_live hkeys (hl.live hm) with ⟨hnone, harb⟩ | ⟨kind, e, queue, t, hf, harb⟩
    · refine ⟨?_, by simp [harb]⟩
      simp only [harb, isSome_none, Bool.false_eq_true, false_iff, not_exists]
      exact fun key s => hempty key.2 (hnone key.2) key.1 s
    · -- a kind of the hint has a ready task, so the hint's scan finds it
      have hf : Front h.dispatcher.readySet h.dispatcher.hint kind e queue t := by
        refine hf.resolve_right fun ⟨hnone, hf⟩ => ?_
        obtain ⟨s, hs, -⟩ := hl.front hm hf
        obtain ⟨key, s', hs', hmem⟩ := hhint ⟨_, s, hs⟩
        exact hempty key.2 (hnone _ hmem) key.1 s' hs'
      obtain ⟨s, hs, rfl, hep, hbest⟩ := hl.front hm hf
      refine ⟨?_, fun u hu => ?_⟩
      · simp only [harb, isSome_some, true_iff]
        exact ⟨_, s, hs⟩
      · simp only [harb, Option.some.injEq] at hu
        subst hu
        obtain ⟨pre, post, hsplit, hpre⟩ := hf.first
        exact ⟨s, hs, rfl, ⟨pre, post, hsplit, fun k hk mb s' => hempty k (hpre k hk) mb s'⟩,
          hbest⟩

/-- In every run whose tasks become ready in the policy's order and whose keys are free when they
are submitted, `arbitrate` selects by the policy if and only if the hint names a kind with a ready
task, if there is one. -/
theorem selects_iff (stageId : ℕ) (hint : Option (List TaskKind)) {h : Dispatches}
    (hr : Steps.Reach step ArrivesInOrder (new stageId hint) h) {kindOrder : List TaskKind}
    (hkeys : KeyOrder h.dispatcher kindOrder) : h.Selects kindOrder ↔ h.Hinted := by
  have h0 : Mirrored (new stageId hint) ∧ Listed (new stageId hint) := by
    refine ⟨mirrored_new stageId hint, fun kind e => ?_, fun _ => List.Pairwise.nil⟩
    simp [new, ReadinessDispatcher.new, ReadySet.empty, ReadyEntry, Ready]
  obtain ⟨hm, hl⟩ := hr.invariant (I := fun h => Mirrored h ∧ Listed h) h0
    fun _ _ _ => listed_step
  exact hl.selects hm hkeys

/-- A prefill whose dependency comes, and two decodes of falling priority. -/
def fallingSubmits : List DispatchCall :=
  [.submit 1 1 .forwardPrefill 0 1, .submit 2 2 .forwardDecode 9 0,
    .submit 3 3 .forwardDecode 4 0, .complete 1 .forwardPrefill]

theorem selects_falling :
    ∃ h, Steps.exec step ArrivesInOrder (new 0 none) fallingSubmits = some h
      ∧ h.Selects [.forwardPrefill, .forwardDecode] := by
  obtain ⟨h, hrun, hkeys, s, hs⟩ : ∃ h,
      Steps.exec step ArrivesInOrder (new 0 none) fallingSubmits = some h
      ∧ KeyOrder h.dispatcher [.forwardPrefill, .forwardDecode]
      ∧ ∃ s, h.latest (2, .forwardDecode) = some s ∧ s.epoch ∉ h.returned
        ∧ s.dependencies ≤ s.completed ∧ .forwardDecode ∈ h.dispatcher.hint :=
    ⟨_, rfl, by decide, _, rfl, by decide⟩
  refine ⟨h, hrun, (selects_iff 0 none (Steps.reach_of_exec hrun) hkeys).mpr fun _ => ?_⟩
  exact ⟨(2, .forwardDecode), s, ⟨hs.1, hs.2.1, hs.2.2.1⟩, hs.2.2.2⟩

/-- The first of two decodes is returned, whatever the priority of the second. -/
theorem arrival_beats_priority :
    ¬ ∀ stageId hint h, Steps.Reach step (fun _ _ => True) (new stageId hint) h →
      ∀ kindOrder, KeyOrder h.dispatcher kindOrder → h.Selects kindOrder := by
  intro hall
  obtain ⟨h, hrun, hkeys, t, ht, s, s', hs, hs', hr, hlt⟩ : ∃ h,
      Steps.exec step (fun _ _ => True) (new 0 none)
        [.submit 1 1 .forwardDecode 1 0, .submit 2 2 .forwardDecode 5 0] = some h
      ∧ KeyOrder h.dispatcher [.forwardDecode]
      ∧ ∃ t, (h.dispatcher.arbitrate [.forwardDecode]).2 = some t
      ∧ ∃ s s', h.latest (t.microbatchId, t.kind) = some s ∧ h.latest (2, t.kind) = some s'
      ∧ (s'.epoch ∉ h.returned ∧ s'.dependencies ≤ s'.completed) ∧ s.priority < s'.priority :=
    ⟨_, rfl, by decide, _, rfl, _, _, rfl, rfl, by decide, by decide⟩
  obtain ⟨s₀, hs₀, -, -, hbest⟩ :=
    (hall 0 none h (Steps.reach_of_exec hrun) _ hkeys).best t ht
  obtain rfl := Option.some.inj (hs.symm.trans hs₀.1)
  have := hbest 2 s' ⟨hs', hr⟩
  omega

end Dispatches

end Grim.Scheduler
