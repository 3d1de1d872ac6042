import Grim.Scheduler.Runs

/-!
# One owner per request

A chunked request is a running entry and a remainder in `waiting` at once.  `pause` and preemption
move the running entry and leave the remainder, which the next pass admits again.  A run in which
neither meets a request with a remainder keeps each id in one place (`Owned`).
-/

namespace Grim.Scheduler

open List

/-- The ids of the four queues: no id twice in one, those of `swapped` in no other, those of
`paused` in no other. -/
structure Owned (waiting running swapped paused : List ℕ) : Prop where
  nodup_waiting : waiting.Nodup
  nodup_running : running.Nodup
  nodup_swapped : swapped.Nodup
  nodup_paused : paused.Nodup
  swapped_waiting : swapped.Disjoint waiting
  swapped_running : swapped.Disjoint running
  swapped_paused : swapped.Disjoint paused
  paused_waiting : paused.Disjoint waiting
  paused_running : paused.Disjoint running

/-- `Owned` of a scheduler's queues. -/
def OwnedBy (s : Scheduler) : Prop :=
  Owned (ids s.waiting) (ids s.running) (ids s.swapped) (ids s.paused)

theorem Owned.perm {w w' r r' sw p p' : List ℕ} (h : Owned w r sw p) (hw : w'.Perm w)
    (hr : r'.Perm r) (hp : p'.Perm p) : Owned w' r' sw p' where
  nodup_waiting := hw.nodup_iff.mpr h.nodup_waiting
  nodup_running := hr.nodup_iff.mpr h.nodup_running
  nodup_swapped := h.nodup_swapped
  nodup_paused := hp.nodup_iff.mpr h.nodup_paused
  swapped_waiting := fun _ hs hm => h.swapped_waiting hs (hw.subset hm)
  swapped_running := fun _ hs hm => h.swapped_running hs (hr.subset hm)
  swapped_paused := fun _ hs hm => h.swapped_paused hs (hp.subset hm)
  paused_waiting := fun _ hs hm => h.paused_waiting (hp.subset hs) (hw.subset hm)
  paused_running := fun _ hs hm => h.paused_running (hp.subset hs) (hr.subset hm)

theorem Owned.swapIn {w r sw p back : List ℕ} (h : Owned w r sw p) (hb : back.Sublist sw) :
    Owned (back ++ w) r [] p where
  nodup_waiting := nodup_append'.mpr
    ⟨h.nodup_swapped.sublist hb, h.nodup_waiting, fun _ hx => h.swapped_waiting (hb.subset hx)⟩
  nodup_running := h.nodup_running
  nodup_swapped := nodup_nil
  nodup_paused := h.nodup_paused
  swapped_waiting := disjoint_nil_left _
  swapped_running := disjoint_nil_left _
  swapped_paused := disjoint_nil_left _
  paused_waiting := fun _ hp hm => (mem_append.mp hm).elim
    (fun hm => h.swapped_paused (hb.subset hm) hp) (h.paused_waiting hp)
  paused_running := h.paused_running

theorem Owned.swapOut {w r sw p : List ℕ} {id : ℕ} (h : Owned w (id :: r) sw p) (hid : id ∉ w) :
    Owned w r (sw ++ [id]) p := by
  obtain ⟨hnot, hr⟩ := nodup_cons.mp h.nodup_running
  have hsw : ∀ x, x ∈ sw ++ [id] → x ∈ sw ∨ x = id := fun x hx => by simpa using hx
  refine ⟨h.nodup_waiting, hr, ?_, h.nodup_paused, fun x hx hm => ?_, fun x hx hm => ?_,
    fun x hx hm => ?_,
    h.paused_waiting, fun x hx hm => h.paused_running hx (mem_cons_of_mem _ hm)⟩
  · refine nodup_append'.mpr ⟨h.nodup_swapped, nodup_singleton _, fun x hx hm => ?_⟩
    exact h.swapped_running hx (by simp [mem_singleton.mp hm])
  · rcases hsw x hx with hx | rfl
    · exact h.swapped_waiting hx hm
    · exact hid hm
  · rcases hsw x hx with hx | rfl
    · exact h.swapped_running hx (mem_cons_of_mem _ hm)
    · exact hnot hm
  · rcases hsw x hx with hx | rfl
    · exact h.swapped_paused hx hm
    · exact h.paused_running hm mem_cons_self

theorem Owned.pause {w r sw p : List ℕ} {id : ℕ} (h : Owned w (id :: r) sw p) (hid : id ∉ w) :
    Owned w r sw (p ++ [id]) := by
  obtain ⟨hnot, hr⟩ := nodup_cons.mp h.nodup_running
  have hp : ∀ x, x ∈ p ++ [id] → x ∈ p ∨ x = id := fun x hx => by simpa using hx
  refine ⟨h.nodup_waiting, hr, h.nodup_swapped, ?_, h.swapped_waiting,
    fun x hx hm => h.swapped_running hx (mem_cons_of_mem _ hm), fun x hx hm => ?_,
    fun x hx hm => ?_, fun x hx hm => ?_⟩
  · refine nodup_append'.mpr ⟨h.nodup_paused, nodup_singleton _, fun x hx hm => ?_⟩
    exact h.paused_running hx (by simp [mem_singleton.mp hm])
  · rcases hp x hm with hm | rfl
    · exact h.swapped_paused hx hm
    · exact h.swapped_running hx mem_cons_self
  · rcases hp x hx with hx | rfl
    · exact h.paused_waiting hx hm
    · exact hid hm
  · rcases hp x hx with hx | rfl
    · exact h.paused_running hx (mem_cons_of_mem _ hm)
    · exact hnot hm

theorem Owned.resume {w r sw p : List ℕ} {id : ℕ} (h : Owned w r sw (id :: p)) :
    Owned w (r ++ [id]) sw p := by
  obtain ⟨hnot, hp⟩ := nodup_cons.mp h.nodup_paused
  have hr : ∀ x, x ∈ r ++ [id] → x ∈ r ∨ x = id := fun x hx => by simpa using hx
  refine ⟨h.nodup_waiting, ?_, h.nodup_swapped, hp, h.swapped_waiting, fun x hx hm => ?_,
    fun x hx hm => h.swapped_paused hx (mem_cons_of_mem _ hm),
    fun x hx hm => h.paused_waiting (mem_cons_of_mem _ hx) hm, fun x hx hm => ?_⟩
  · refine nodup_append'.mpr ⟨h.nodup_running, nodup_singleton _, fun x hx hm => ?_⟩
    exact h.paused_running (by simp [mem_singleton.mp hm]) hx
  · rcases hr x hm with hm | rfl
    · exact h.swapped_running hx hm
    · exact h.swapped_paused hx mem_cons_self
  · rcases hr x hm with hm | rfl
    · exact h.paused_running (mem_cons_of_mem _ hx) hm
    · exact hnot hx

theorem Owned.admitted {w w' r r' sw p l back : List ℕ} (h : Owned (l ++ w) r sw p)
    (hw : w'.Perm (w ++ back)) (hb : back.Subperm l) (hr : ∀ id ∈ r', id ∈ r ∨ id ∈ l)
    (hn : r'.Nodup) : Owned w' r' sw p := by
  obtain ⟨hl, hnw, hdis⟩ := nodup_append'.mp h.nodup_waiting
  have hw' : ∀ x, x ∈ w' → x ∈ l ++ w := by
    intro x hx
    rcases mem_append.mp (hw.subset hx) with hx | hx
    · exact mem_append_right _ hx
    · exact mem_append_left _ (hb.subset hx)
  have hr' : ∀ x, x ∈ r' → x ∈ r ∨ x ∈ l ++ w := fun x hx =>
    (hr x hx).imp_right (mem_append_left _)
  refine ⟨hw.nodup_iff.mpr
      (nodup_append'.mpr ⟨hnw, ?_, fun x hx hm => hdis (hb.subset hm) hx⟩),
    hn, h.nodup_swapped, h.nodup_paused, fun x hx hm => h.swapped_waiting hx (hw' x hm),
    fun x hx hm => ?_, h.swapped_paused, fun x hx hm => h.paused_waiting hx (hw' x hm),
    fun x hx hm => ?_⟩
  · obtain ⟨l', hp, hs⟩ := hb
    exact hp.nodup_iff.mp (hl.sublist hs)
  · exact (hr' x hm).elim (h.swapped_running hx) (h.swapped_waiting hx)
  · exact (hr' x hm).elim (h.paused_running hx) (h.paused_waiting hx)

theorem beginPass_owned {s : Scheduler} (tick : Tick) (ho : OwnedBy s)
    (hv : ∀ r, s.victim = some r → r.id ∉ ids s.waiting) :
    Owned (ids (s.beginPass tick).admitted ++ ids (s.beginPass tick).sched.waiting)
      (ids (s.beginPass tick).sched.running) (ids (s.beginPass tick).sched.swapped)
      (ids (s.beginPass tick).sched.paused) := by
  obtain ⟨hpa, hq⟩ := beginPass_cases tick s
  rw [hpa, ← map_append]
  rcases hq with ⟨back, hsub, -, -, hw, hr, hsw⟩ | ⟨hw, hr, hsw⟩ | ⟨r, hvic, hw, hr, hsw⟩
  · have hback := Owned.swapIn ho (hsub.map (·.id))
    rw [← map_append] at hback
    rw [hsw]
    exact hback.perm (hw.map _) (hr.map _) (.refl _)
  · rw [hsw]
    exact ho.perm (hw.map _) (hr.map _) (.refl _)
  · have hout := (ho.perm (.refl _) (hr.map _) (.refl _)).swapOut (hv r hvic)
    have hsw' : ids (s.beginPass tick).sched.swapped = ids s.swapped ++ [r.id] := by
      rw [hsw, ids, map_append, map_singleton]
    rw [hsw']
    exact hout.perm (hw.map _) (.refl _) (.refl _)

theorem schedule_owned {s : Scheduler} (tick : Tick) (ho : OwnedBy s)
    (hv : ∀ r, s.victim = some r → r.id ∉ ids s.waiting) : OwnedBy (s.schedule tick).1 := by
  have hbegin := beginPass_owned tick ho hv
  have hmov := admitLoop_moved (s.beginPass tick).ctx (s.beginPass tick).admitted
    ⟨(s.beginPass tick).sched.waiting, (s.beginPass tick).sched.running,
      (s.beginPass tick).sched.admittedTotal, [], 0⟩
  obtain ⟨back, hw, hb⟩ := hmov.waiting
  exact hbegin.admitted hw hb hmov.running (hmov.nodup hbegin.nodup_running)

theorem schedule_selects {s : Scheduler} (tick : Tick) (ho : OwnedBy s)
    (hv : ∀ r, s.victim = some r → r.id ∉ ids s.waiting) {id : ℕ}
    (hid : id ∈ ids (s.schedule tick).1.swapped ∨ id ∈ ids (s.schedule tick).1.paused) :
    id ∉ (s.schedule tick).2.prefillIds ∧ id ∉ (s.schedule tick).2.decodeIds := by
  have hbegin := beginPass_owned tick ho hv
  have hend := schedule_owned tick ho hv
  have hmov := admitLoop_moved (s.beginPass tick).ctx (s.beginPass tick).admitted
    ⟨(s.beginPass tick).sched.waiting, (s.beginPass tick).sched.running,
      (s.beginPass tick).sched.admittedTotal, [], 0⟩
  refine ⟨fun hpre => ?_, fun hdec => ?_⟩
  · have hadm : id ∈ ids (s.beginPass tick).admitted :=
      (hmov.prefill id hpre).resolve_left (not_mem_nil)
    rcases hid with hid | hid
    · exact hbegin.swapped_waiting hid (mem_append_left _ hadm)
    · exact hbegin.paused_waiting hid (mem_append_left _ hadm)
  · have hrun : id ∈ ids (s.schedule tick).1.running := by
      obtain ⟨r, hr, rfl⟩ := mem_map.mp hdec
      exact mem_map_of_mem (mem_filter.mp hr).1
    rcases hid with hid | hid
    · exact hend.swapped_running hid hrun
    · exact hend.paused_running hid hrun

theorem beginPass_known {s : Scheduler} (tick : Tick) {id : ℕ}
    (h : id ∈ ids ((s.beginPass tick).admitted ++ (s.beginPass tick).sched.waiting)
      ∨ id ∈ ids (s.beginPass tick).sched.running) : Tracked s id := by
  obtain ⟨-, hq⟩ := beginPass_cases tick s
  rcases h with h | h
  · rcases hq with ⟨back, hsub, -, -, hw, -, -⟩ | ⟨hw, -, -⟩ | ⟨r, -, hw, -, -⟩
    · rw [mem_ids_perm hw, ids, map_append, mem_append] at h
      exact h.elim (fun h => .inr (.inr (.inl ((hsub.map _).subset h)))) .inl
    · exact .inl ((mem_ids_perm hw id).mp h)
    · exact .inl ((mem_ids_perm hw id).mp h)
  · rcases hq with ⟨-, -, -, -, -, hr, -⟩ | ⟨-, hr, -⟩ | ⟨r, -, -, hr, -⟩
    · exact .inr (.inl ((mem_ids_perm hr id).mp h))
    · exact .inr (.inl ((mem_ids_perm hr id).mp h))
    · exact .inr (.inl ((mem_ids_perm hr id).mp (mem_cons_of_mem _ h)))

theorem admitted_known {s : Scheduler} (tick : Tick) {id : ℕ}
    (h : id ∈ ids (s.beginPass tick).admitted) : Tracked s id :=
  beginPass_known tick (.inl (by rw [ids, map_append]; exact mem_append_left _ h))

theorem schedule_known {s : Scheduler} (tick : Tick) {id : ℕ} (h : Tracked (s.schedule tick).1 id) :
    Tracked s id := by
  have hmov := admitLoop_moved (s.beginPass tick).ctx (s.beginPass tick).admitted
    ⟨(s.beginPass tick).sched.waiting, (s.beginPass tick).sched.running,
      (s.beginPass tick).sched.admittedTotal, [], 0⟩
  obtain ⟨hpa, hq⟩ := beginPass_cases tick s
  rcases h with h | h | h | h
  · obtain ⟨back, hw, hb⟩ := hmov.waiting
    rcases mem_append.mp (hw.subset h) with h | h
    · exact beginPass_known tick
        (.inl (by rw [ids, map_append]; exact mem_append_right _ h))
    · exact admitted_known tick (hb.subset h)
  · exact (hmov.running id h).elim (fun h => beginPass_known tick (.inr h)) (admitted_known tick)
  · have h : id ∈ ids (s.beginPass tick).sched.swapped := h
    rcases hq with ⟨-, -, -, -, -, -, hsw⟩ | ⟨-, -, hsw⟩ | ⟨r, -, -, hr, hsw⟩
    · rw [hsw] at h
      simp at h
    · rw [hsw] at h
      exact .inr (.inr (.inl h))
    · rw [hsw, ids, map_append, mem_append] at h
      rcases h with h | h
      · exact .inr (.inr (.inl h))
      · rw [map_singleton, mem_singleton] at h
        exact .inr (.inl ((mem_ids_perm hr id).mp (by simp [ids, h])))
  · have h : id ∈ ids (s.beginPass tick).sched.paused := h
    rw [hpa] at h
    exact .inr (.inr (.inr h))

theorem pause_owned {s : Scheduler} (id : ℕ) (ho : OwnedBy s)
    (hid : id ∈ ids s.running → id ∉ ids s.waiting) : OwnedBy (s.pause id).1 := by
  unfold pause
  split
  · rename_i r running ht
    obtain ⟨rfl, hperm⟩ := takeId_some ht
    have hrun : r.id ∈ ids s.running := (mem_ids_perm hperm _).mpr (by simp [ids])
    have := (ho.perm (.refl _) (hperm.symm.map (·.id)) (.refl _)).pause (hid hrun)
    simpa [OwnedBy, ids] using this
  · exact ho

theorem resume_owned {s : Scheduler} (id : ℕ) (ho : OwnedBy s) : OwnedBy (s.resume id).1 := by
  unfold resume
  split
  · rename_i r paused ht
    obtain ⟨rfl, hperm⟩ := takeId_some ht
    have := (ho.perm (.refl _) (.refl _) (hperm.symm.map (·.id))).resume
    simpa [OwnedBy, ids] using this
  · exact ho

theorem finish_sublist (id : ℕ) (l : List Request) :
    (ids (l.filter (·.id ≠ id))).Sublist (ids l) :=
  filter_sublist.map _

theorem finish_owned {s : Scheduler} (id : ℕ) (ho : OwnedBy s) : OwnedBy (s.finish id) := by
  have hr := finish_sublist id s.running
  have hsw := finish_sublist id s.swapped
  have hp := finish_sublist id s.paused
  exact ⟨ho.nodup_waiting, ho.nodup_running.sublist hr, ho.nodup_swapped.sublist hsw,
    ho.nodup_paused.sublist hp, fun x h => ho.swapped_waiting (hsw.subset h),
    fun x h h' => ho.swapped_running (hsw.subset h) (hr.subset h'),
    fun x h h' => ho.swapped_paused (hsw.subset h) (hp.subset h'),
    fun x h => ho.paused_waiting (hp.subset h),
    fun x h h' => ho.paused_running (hp.subset h) (hr.subset h')⟩

theorem finish_known {s : Scheduler} (id : ℕ) {x : ℕ} (h : Tracked (s.finish id) x) :
    Tracked s x := by
  rcases h with hx | hx | hx | hx
  · exact .inl hx
  · exact .inr (.inl ((finish_sublist id _).subset hx))
  · exact .inr (.inr (.inl ((finish_sublist id _).subset hx)))
  · exact .inr (.inr (.inr ((finish_sublist id _).subset hx)))

/-- The run's invariant: the queues are owned, and hold enqueued ids only. -/
structure OwnedRun (h : History) : Prop where
  owned : OwnedBy h.sched
  known : ∀ id, Tracked h.sched id → id ∈ h.enqueued

/-- Neither a pause nor a preemption takes a running entry whose remainder is in `waiting`. -/
def TakesWhole (h : History) : Call → Prop
  | .pause id => id ∈ ids h.sched.running → id ∉ ids h.sched.waiting
  | .schedule _ => ∀ r ∈ h.sched.victim, r.id ∉ ids h.sched.waiting
  | _ => True

instance (h : History) (call : Call) : Decidable (TakesWhole h call) :=
  match call with
  | .pause id =>
    inferInstanceAs (Decidable (id ∈ ids h.sched.running → id ∉ ids h.sched.waiting))
  | .schedule _ =>
    inferInstanceAs (Decidable (∀ r ∈ h.sched.victim, r.id ∉ ids h.sched.waiting))
  | .enqueue .. | .resume .. | .finish .. | .retune .. => inferInstanceAs (Decidable True)

/-- An id has one running entry at most, and none while it is paused or swapped. -/
def SingleOwner (s : Scheduler) : Prop :=
  (ids s.running).Nodup ∧ ∀ id, id ∈ ids s.paused ∨ id ∈ ids s.swapped → id ∉ ids s.running

/-- A pass selects no id that is paused, or swapped, before it and after it. -/
def HoldsBack (s : Scheduler) (tick : Tick) : Prop :=
  ∀ id, (id ∈ ids s.paused ∧ id ∈ ids (s.schedule tick).1.paused)
      ∨ (id ∈ ids s.swapped ∧ id ∈ ids (s.schedule tick).1.swapped) →
    id ∉ (s.schedule tick).2.prefillIds ∧ id ∉ (s.schedule tick).2.decodeIds

theorem ownedRun_new (maxBatchedTokens maxNumSeqs : ℕ) (admission : AdmissionController) :
    OwnedRun (.new maxBatchedTokens maxNumSeqs admission) where
  owned := by
    constructor <;> simp [History.new, Scheduler.new]
  known := by
    rintro id (h | h | h | h) <;> simp [History.new, Scheduler.new] at h

theorem ownedRun_step {h h' : History} {call : Call} (hI : OwnedRun h)
    (hok : TakesWhole h call) (hs : h.step call = some h') : OwnedRun h' := by
  obtain ⟨ho, hknown⟩ := hI
  cases call with
  | enqueue r =>
    simp only [History.step] at hs
    split_ifs at hs with hfresh
    simp only [Option.some.injEq] at hs
    subst hs
    have hids : ids (h.sched.enqueue r).waiting = ids h.sched.waiting ++ [r.id] := by
      simp [enqueue, ids]
    have hnew : ∀ x, Tracked h.sched x → x ≠ r.id := fun x hx heq => hfresh (heq ▸ hknown x hx)
    have hmem : ∀ x, x ∈ ids (h.sched.enqueue r).waiting → x ∈ ids h.sched.waiting ∨ x = r.id := by
      intro x hx
      rw [hids] at hx
      simpa using hx
    refine ⟨⟨?_, ho.nodup_running, ho.nodup_swapped, ho.nodup_paused, fun x hx hm => ?_,
      ho.swapped_running, ho.swapped_paused, fun x hx hm => ?_, ho.paused_running⟩, fun x hx => ?_⟩
    · rw [hids]
      refine nodup_append'.mpr ⟨ho.nodup_waiting, nodup_singleton _, fun x hx hm => ?_⟩
      exact hnew x (.inl hx) (mem_singleton.mp hm)
    · exact (hmem x hm).elim (ho.swapped_waiting hx) (hnew x (.inr (.inr (.inl hx))))
    · exact (hmem x hm).elim (ho.paused_waiting hx) (hnew x (.inr (.inr (.inr hx))))
    · rcases hx with hx | hx | hx | hx
      · rcases hmem x hx with hx | rfl
        · exact mem_cons_of_mem _ (hknown x (.inl hx))
        · exact mem_cons_self
      · exact mem_cons_of_mem _ (hknown x (.inr (.inl hx)))
      · exact mem_cons_of_mem _ (hknown x (.inr (.inr (.inl hx))))
      · exact mem_cons_of_mem _ (hknown x (.inr (.inr (.inr hx))))
  | schedule tick =>
    simp only [History.step, Option.some.injEq] at hs
    subst hs
    exact ⟨schedule_owned tick ho hok, fun id hid => hknown id (schedule_known tick hid)⟩
  | pause id =>
    simp only [History.step, Option.some.injEq] at hs
    subst hs
    exact ⟨pause_owned id ho hok, fun x hx => hknown x ((tracked_pause _ id x).mp hx)⟩
  | resume id =>
    simp only [History.step, Option.some.injEq] at hs
    subst hs
    exact ⟨resume_owned id ho, fun x hx => hknown x ((tracked_resume _ id x).mp hx)⟩
  | finish id =>
    simp only [History.step, Option.some.injEq] at hs
    subst hs
    exact ⟨finish_owned id ho, fun x hx => hknown x (finish_known id hx)⟩
  | retune =>
    simp only [History.step, Option.some.injEq] at hs
    subst hs
    exact ⟨ho, hknown⟩

/-- In every run in which no pause and no preemption meets a request with a remainder in
`waiting`, each id has one owner, and no pass selects an id that is held back. -/
theorem single_owner (maxBatchedTokens maxNumSeqs : ℕ) (admission : AdmissionController)
    {h : History}
    (hr : Steps.Reach History.step TakesWhole (.new maxBatchedTokens maxNumSeqs admission) h) :
    SingleOwner h.sched ∧ ∀ tick, TakesWhole h (.schedule tick) → HoldsBack h.sched tick := by
  have ho := (hr.invariant (ownedRun_new _ _ _) fun _ _ _ => ownedRun_step).owned
  refine ⟨⟨ho.nodup_running, ?_⟩, fun tick hok id hid => ?_⟩
  · rintro id (hid | hid)
    · exact fun hm => ho.paused_running hid hm
    · exact fun hm => ho.swapped_running hid hm
  · exact schedule_selects tick ho hok (hid.symm.imp And.right And.right)

def wholeCalls : List Call :=
  [.retune 100 8 50 .relaxed none, .enqueue (freshRequest 1 120), .schedule calmTick,
    .schedule calmTick, .schedule calmTick, .pause 1]

theorem single_owner_whole :
    ∃ h, Steps.exec History.step TakesWhole (.new 100 8 ⟨0, 0⟩) wholeCalls = some h
      ∧ SingleOwner h.sched ∧ HoldsBack h.sched calmTick := by
  obtain ⟨h, hrun, hok⟩ : ∃ h, Steps.exec History.step TakesWhole (.new 100 8 ⟨0, 0⟩) wholeCalls
      = some h ∧ TakesWhole h (.schedule calmTick) := ⟨_, rfl, by decide⟩
  have hown := single_owner 100 8 ⟨0, 0⟩ (Steps.reach_of_exec hrun)
  exact ⟨h, hrun, hown.1, hown.2 calmTick hok⟩

def splitCalls : List Call :=
  [.retune 100 8 50 .relaxed none, .enqueue (freshRequest 1 120), .schedule calmTick, .pause 1]

/-- A pass selects the paused request for prefill, and it runs while it is paused. -/
theorem paused_request_runs :
    ¬ ∀ (maxBatchedTokens maxNumSeqs : ℕ) (admission : AdmissionController) (h : History),
      Steps.Reach History.step NoFinish (.new maxBatchedTokens maxNumSeqs admission) h →
      SingleOwner h.sched ∧ ∀ tick, HoldsBack h.sched tick := by
  intro hall
  obtain ⟨h, hrun, h1, h2, h3⟩ : ∃ h,
      Steps.exec History.step NoFinish (.new 100 8 ⟨0, 0⟩) splitCalls = some h
        ∧ 1 ∈ ids h.sched.paused ∧ 1 ∈ ids (h.sched.schedule calmTick).1.paused
        ∧ 1 ∈ (h.sched.schedule calmTick).2.prefillIds := ⟨_, rfl, by decide⟩
  have hheld := (hall 100 8 ⟨0, 0⟩ h (Steps.reach_of_exec hrun)).2 calmTick 1 (.inl ⟨h1, h2⟩)
  exact hheld.1 h3

/-- A call's effect on the scheduler, with no promise on the ids it brings. -/
def call (s : Scheduler) : Call → Scheduler
  | .enqueue r => s.enqueue r
  | .schedule tick => (s.schedule tick).1
  | .pause id => (s.pause id).1
  | .resume id => (s.resume id).1
  | .finish id => s.finish id
  | .retune tokens seqs chunk mode readiness =>
    { s with
      maxBatchedTokens := tokens
      maxNumSeqs := seqs
      chunkedPrefillSize := chunk
      determinismMode := mode
      readiness := readiness }

/-- The calls of a run that no longer submits `id`. -/
def Others (id : ℕ) : Call → Prop
  | .enqueue r => r.id ≠ id
  | .schedule _ | .pause _ | .resume _ => True
  | .finish _ | .retune .. => False

instance (id : ℕ) (c : Call) : Decidable (Others id c) :=
  match c with
  | .enqueue r => inferInstanceAs (Decidable (r.id ≠ id))
  | .schedule _ | .pause _ | .resume _ => inferInstanceAs (Decidable True)
  | .finish _ | .retune .. => inferInstanceAs (Decidable False)

/-- No queue has `id`, and no pass hands it out. -/
def Gone (s : Scheduler) (id : ℕ) : Prop :=
  ¬ Tracked s id ∧ ∀ tick, id ∉ (s.schedule tick).2.prefillIds
    ∧ id ∉ (s.schedule tick).2.decodeIds ∧ id ∉ (s.schedule tick).2.preemptedIds

/-- `id` is gone in every state of every run from `s` that does not submit it. -/
def StaysGone (s : Scheduler) (id : ℕ) : Prop :=
  ∀ s', Steps.Reach (fun s c => some (s.call c)) (fun _ c => Others id c) s s' → Gone s' id

theorem preempted_running {s : Scheduler} (tick : Tick) {id : ℕ}
    (h : id ∈ (s.schedule tick).2.preemptedIds) : id ∈ ids s.running := by
  have hr := s.sortQueues_perm.2
  change id ∈ (s.beginPass tick).preemptedIds at h
  unfold beginPass at h
  simp only [] at h
  generalize s.sortQueues.pressureActive tick = pressure at h
  obtain hp | ⟨r, running, hins, rfl, -, hp⟩ := preempt_cases pressure
    s.sortQueues.totalRunningTokens { s.sortQueues.swapIn pressure with
      waiting := (admitWaiting (s.sortQueues.swapIn pressure).admission tick.throughput
        s.sortQueues.computeTokenBacklog (s.sortQueues.swapIn pressure).waiting).2 }
  · rw [hp] at h
    simp at h
  · rw [hp] at h
    simp only [mem_singleton] at h
    subst h
    rw [← mem_ids_perm hr, ← mem_ids_perm (perm_insertionSort
      (fun a b : Request => a.priority ≤ b.priority) s.sortQueues.running)]
    have hins : s.sortQueues.running.insertionSort (fun a b => a.priority ≤ b.priority)
        = r :: running := hins
    simp [hins, ids]

theorem selected_known {s : Scheduler} (tick : Tick) {id : ℕ}
    (h : id ∈ (s.schedule tick).2.prefillIds ∨ id ∈ (s.schedule tick).2.decodeIds
      ∨ id ∈ (s.schedule tick).2.preemptedIds) : Tracked s id := by
  have hmov := admitLoop_moved (s.beginPass tick).ctx (s.beginPass tick).admitted
    ⟨(s.beginPass tick).sched.waiting, (s.beginPass tick).sched.running,
      (s.beginPass tick).sched.admittedTotal, [], 0⟩
  rcases h with h | h | h
  · exact admitted_known tick ((hmov.prefill id h).resolve_left not_mem_nil)
  · obtain ⟨r, hr, rfl⟩ := mem_map.mp h
    exact schedule_known tick (.inr (.inl (mem_map_of_mem (mem_filter.mp hr).1)))
  · exact .inr (.inl (preempted_running tick h))

theorem gone_of_not_tracked {s : Scheduler} {id : ℕ} (h : ¬ Tracked s id) : Gone s id :=
  ⟨h, fun tick => ⟨fun hm => h (selected_known tick (.inl hm)),
    fun hm => h (selected_known tick (.inr (.inl hm))),
    fun hm => h (selected_known tick (.inr (.inr hm)))⟩⟩

theorem call_not_tracked {s : Scheduler} {id : ℕ} {c : Call} (h : ¬ Tracked s id)
    (hc : Others id c) : ¬ Tracked (s.call c) id := by
  intro ht
  cases c with
  | enqueue r =>
    have hne : id ≠ r.id := fun heq => hc heq.symm
    simp only [call, enqueue, Tracked, ids, map_append, map_cons, map_nil,
      mem_append, mem_singleton, hne, or_false] at ht
    exact h ht
  | schedule tick => exact h (schedule_known tick ht)
  | pause x => exact h ((tracked_pause s x id).mp ht)
  | resume x => exact h ((tracked_resume s x id).mp ht)
  | finish x => exact hc.elim
  | retune => exact hc.elim

theorem tracked_finish (s : Scheduler) (id : ℕ) :
    Tracked (s.finish id) id ↔ id ∈ ids s.waiting := by
  have hnot : ∀ l : List Request, id ∉ ids (l.filter (·.id ≠ id)) := by
    intro l hm
    obtain ⟨r, hr, heq⟩ := mem_map.mp hm
    simpa [heq] using (mem_filter.mp hr).2
  simp only [Tracked, finish, hnot, or_false]

/-- A finished id stays gone if and only if `waiting` did not have it. -/
theorem finish_staysGone (s : Scheduler) (id : ℕ) :
    StaysGone (s.finish id) id ↔ id ∉ ids s.waiting := by
  refine ⟨fun h hw => (h _ .start).1 ((tracked_finish s id).mpr hw), fun hw s' hr => ?_⟩
  refine gone_of_not_tracked (hr.invariant (I := fun s => ¬ Tracked s id) ?_ ?_)
  · rwa [tracked_finish]
  · intro t c t' ht hc hs
    simp only [Option.some.injEq] at hs
    exact hs ▸ call_not_tracked ht hc

/-- A prompt of 120 tokens in chunks of 50, finished after the first. -/
def cancelledCalls : List Call :=
  [.retune 100 8 50 .relaxed none, .enqueue (freshRequest 1 120), .schedule calmTick]

/-- The pass after `finish` prefills the finished request. -/
theorem finished_request_runs :
    ¬ ∀ (maxBatchedTokens maxNumSeqs : ℕ) (admission : AdmissionController) (s : Scheduler),
      Steps.Reach (fun s c => some (s.call c)) (fun _ _ => True)
        (new maxBatchedTokens maxNumSeqs admission) s → ∀ id, StaysGone (s.finish id) id := by
  intro hall
  obtain ⟨s, hrun, hpre⟩ : ∃ s,
      Steps.exec (fun s c => some (call s c)) (fun _ _ => True) (new 100 8 ⟨0, 0⟩) cancelledCalls
        = some s ∧ 1 ∈ ((s.finish 1).schedule calmTick).2.prefillIds := ⟨_, rfl, by decide⟩
  exact (hall 100 8 ⟨0, 0⟩ s (Steps.reach_of_exec hrun) 1 _ .start).2 calmTick |>.1 hpre

end Grim.Scheduler
