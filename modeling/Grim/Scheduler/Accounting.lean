import Grim.Scheduler.Ownership
import Grim.Scheduler.SeqCap

/-!
# The tokens a run prefills

Beside a run stand the requests as they were enqueued and the chunks of each id.  A running or
waiting entry carries the count its id has reached; a paused or swapped one may carry an older
count, and the chunks tile the prompt as long as no such entry is taken back (`TakesBack`).
-/

namespace Grim.Scheduler

open List

/-- The count of the first entry of `id`. -/
def countIn (l : List Request) (id : ℕ) : ℕ :=
  ((l.find? (·.id = id)).map (·.consumedTokens)).getD 0

/-- The chunk of `id` in a pass: the count of its entry before it, and of its running entry after
it. -/
def passChunk (s : Scheduler) (tick : Tick) (id : ℕ) : ℕ × ℕ :=
  (countIn (s.waiting ++ s.swapped) id, countIn (s.schedule tick).1.running id)

/-- The increase of the counts of the requests that a pass prefills. -/
def increase (s : Scheduler) (tick : Tick) : ℕ :=
  ((s.schedule tick).2.prefillIds.map fun id =>
    (s.passChunk tick id).2 - (s.passChunk tick id).1).sum

def returning (s : Scheduler) (tick : Tick) : List Request :=
  if s.pressureActive tick then []
  else s.swapped.filter fun r => r.id ∉ ids s.waiting ∧ r.id ∉ ids s.running

theorem countIn_eq {l : List Request} {id n : ℕ} (hid : id ∈ ids l)
    (hl : ∀ r, l.find? (·.id = id) = some r → r.consumedTokens = n) : countIn l id = n := by
  obtain ⟨r, hr, hrid⟩ := mem_map.mp hid
  obtain ⟨e, he⟩ := Option.isSome_iff_exists.mp
    (find?_isSome.mpr ⟨r, hr, decide_eq_true hrid⟩ : (l.find? (·.id = id)).isSome)
  rw [countIn, he]
  exact hl e he

theorem find?_id {l : List Request} {id : ℕ} {r : Request} (h : l.find? (·.id = id) = some r) :
    r ∈ l ∧ r.id = id :=
  ⟨mem_of_find?_eq_some h, by simpa using find?_some h⟩

theorem mem_returning {s : Scheduler} {tick : Tick} {r : Request} :
    r ∈ s.returning tick ↔ s.pressureActive tick = false ∧ r ∈ s.swapped
      ∧ r.id ∉ ids s.waiting ∧ r.id ∉ ids s.running := by
  unfold returning
  split_ifs with h
  · simp [h]
  · simp [h, mem_filter]

/-- The chunks, each from where the one before it ended, lead from `start` to `stop`. -/
def Tile : ℕ → List (ℕ × ℕ) → ℕ → Prop
  | start, [], stop => start = stop
  | start, (before, after) :: chunks, stop =>
    before = start ∧ before ≤ after ∧ Tile after chunks stop

theorem tile_append {start stop : ℕ} : ∀ {chunks : List (ℕ × ℕ)}, Tile start chunks stop →
    ∀ {after : ℕ}, stop ≤ after → Tile start (chunks ++ [(stop, after)]) after := by
  intro chunks
  induction chunks generalizing start with
  | nil =>
    rintro rfl after hle
    exact ⟨rfl, hle, rfl⟩
  | cons c chunks ih =>
    intro h after hle
    exact ⟨h.1, h.2.1, ih h.2.2 hle⟩

theorem pressureActive_sortQueues (s : Scheduler) (tick : Tick) :
    s.sortQueues.pressureActive tick = s.pressureActive tick := by
  obtain ⟨hw, hr⟩ := s.sortQueues_perm
  have hbacklog : s.sortQueues.computeTokenBacklog = s.computeTokenBacklog :=
    (hw.map Request.promptTokens).sum_eq
  have htotal : s.sortQueues.totalRunningTokens = s.totalRunningTokens := sum_remaining_perm hr
  unfold pressureActive
  rw [hbacklog, htotal, hw.length_eq, s.sortQueues_rest.2.2]

theorem beginPass_queue (tick : Tick) (s : Scheduler) :
    ∃ admission backlog, ((s.beginPass tick).admitted, (s.beginPass tick).sched.waiting)
      = admitWaiting admission tick.throughput backlog
          (s.returning tick ++ s.sortQueues.waiting) := by
  obtain ⟨hw, hr⟩ := s.sortQueues_perm
  have hswap : (s.sortQueues.swapIn (s.sortQueues.pressureActive tick)).waiting
      = s.returning tick ++ s.sortQueues.waiting := by
    have hany : ∀ {l l' : List Request} (id : ℕ), l'.Perm l →
        (l'.any (·.id = id) = true ↔ id ∈ ids l) := by
      intro l l' id hp
      rw [← mem_ids_perm hp, ids, any_eq_true, mem_map]
      simp
    unfold swapIn returning
    rw [pressureActive_sortQueues]
    split_ifs
    · rfl
    · dsimp only
      rw [s.sortQueues_rest.1]
      congr 1
      refine filter_congr fun r _ => ?_
      rw [decide_eq_decide, hany r.id hw, hany r.id hr, not_or]
  refine ⟨(s.sortQueues.swapIn (s.sortQueues.pressureActive tick)).admission,
    s.sortQueues.computeTokenBacklog, ?_⟩
  rw [← hswap]
  unfold beginPass
  simp only []
  generalize s.sortQueues.pressureActive tick = pressure
  generalize s.sortQueues.totalRunningTokens = total
  generalize s.sortQueues.computeTokenBacklog = backlog
  generalize admitWaiting (s.sortQueues.swapIn pressure).admission tick.throughput backlog
    (s.sortQueues.swapIn pressure).waiting = left
  obtain hp | ⟨v, running, -, -, -, hp⟩ := preempt_cases pressure total
    { s.sortQueues.swapIn pressure with waiting := left.2 }
  all_goals
    rw [hp]
    obtain ⟨rd, hrd⟩ := deferPrefill_sched pressure tick _
    rw [hrd]

theorem beginPass_returning (tick : Tick) (s : Scheduler) :
    ((s.beginPass tick).admitted ++ (s.beginPass tick).sched.waiting).Perm
      (s.returning tick ++ s.waiting) := by
  obtain ⟨admission, backlog, hq⟩ := s.beginPass_queue tick
  have hperm := admitWaiting_perm admission tick.throughput backlog
    (s.returning tick ++ s.sortQueues.waiting)
  rw [← hq] at hperm
  exact hperm.trans (s.sortQueues_perm.1.append_left _)

theorem chunkSize_le (c : AdmitCtx) (r : Request) : c.chunkSize r ≤ r.remaining := by
  unfold AdmitCtx.chunkSize
  split_ifs
  · exact min_le_left _ _
  · exact le_refl _

theorem mem_setRunning {r e : Request} : ∀ {l : List Request}, e ∈ setRunning r l → e = r ∨ e ∈ l
  | [], h => .inl (mem_singleton.mp h)
  | x :: xs, h => by
    unfold setRunning at h
    split_ifs at h
    · exact (mem_cons.mp h).imp_right (mem_cons_of_mem _)
    · rcases mem_cons.mp h with rfl | h
      · exact .inr mem_cons_self
      · exact (mem_setRunning h).imp_right (mem_cons_of_mem _)

theorem self_mem_setRunning (r : Request) : ∀ l : List Request, r ∈ setRunning r l
  | [] => mem_singleton.mpr rfl
  | x :: xs => by
    unfold setRunning
    split_ifs
    · exact mem_cons_self
    · exact mem_cons_of_mem _ (self_mem_setRunning r xs)

theorem eq_of_ids {l : List Request} (h : (ids l).Nodup) {r r' : Request} (hr : r ∈ l)
    (hr' : r' ∈ l) (hid : r.id = r'.id) : r = r' :=
  inj_on_of_nodup_map h hr hr' hid

/-- The admission loop with `admitted` left: no id is twice in `admitted` and `waiting`, or in
`running`, each entry carries the count `cnt` of its id, and the counts have grown from `cur` by
what was prefilled. -/
structure Booked (prompt cur cnt : ℕ → ℕ) (admitted : List Request) (st : AdmitState) : Prop where
  waiting : (ids (admitted ++ st.waiting)).Nodup
  running : (ids st.running).Nodup
  queued : ∀ r ∈ admitted ++ st.waiting,
    r.consumedTokens = cnt r.id ∧ r.promptTokens = prompt r.id
  runs : ∀ r ∈ st.running, r.consumedTokens = cnt r.id ∧ r.promptTokens = prompt r.id
  le_prompt : ∀ id, cnt id ≤ prompt id
  le_count : ∀ id, cur id ≤ cnt id
  nodup : st.prefillIds.Nodup
  prefilled : ∀ id ∈ st.prefillIds, id ∈ ids st.running ∧ id ∉ ids admitted
  others : ∀ id ∉ st.prefillIds, cnt id = cur id
  total : (st.prefillIds.map fun id => cnt id - cur id).sum = st.totalPrefill

section Booked

variable {prompt cur cnt : ℕ → ℕ} {admitted admitted' : List Request} {st st' : AdmitState}
  {r : Request} {chunk : ℕ}

theorem Booked.move (h : Booked prompt cur cnt admitted st)
    (hsub : (admitted' ++ st'.waiting).Subperm (admitted ++ st.waiting))
    (hadm : admitted' ⊆ admitted) (hrun : st'.running = st.running)
    (hpre : st'.prefillIds = st.prefillIds) (htot : st'.totalPrefill = st.totalPrefill) :
    Booked prompt cur cnt admitted' st' where
  waiting := by
    obtain ⟨l, hp, hs⟩ := hsub
    exact (hp.map (·.id)).nodup_iff.mp (h.waiting.sublist (hs.map _))
  running := by rw [hrun]; exact h.running
  queued := fun r hr => h.queued r (hsub.subset hr)
  runs := by rw [hrun]; exact h.runs
  le_prompt := h.le_prompt
  le_count := h.le_count
  nodup := by rw [hpre]; exact h.nodup
  prefilled := by
    rw [hpre, hrun]
    refine fun id hid => ⟨(h.prefilled id hid).1, fun hmem => (h.prefilled id hid).2 ?_⟩
    obtain ⟨r, hr, rfl⟩ := mem_map.mp hmem
    exact mem_map_of_mem (hadm hr)
  others := by rw [hpre]; exact h.others
  total := by rw [hpre, htot]; exact h.total

theorem Booked.putBack (h : Booked prompt cur cnt (r :: admitted) st) :
    Booked prompt cur cnt admitted (st.putBack r) := by
  refine h.move (List.Perm.subperm ?_) (subset_cons_self _ _) rfl rfl rfl
  show (admitted ++ (st.waiting ++ [r])).Perm _
  rw [← append_assoc, cons_append]
  exact perm_append_singleton r _

theorem Booked.remainder (h : Booked prompt cur cnt admitted st)
    (hid : r.id ∉ ids (admitted ++ st.waiting)) (hcount : r.consumedTokens = cnt r.id)
    (hprompt : r.promptTokens = prompt r.id) : Booked prompt cur cnt admitted (st.putBack r) where
  waiting := by
    show (ids (admitted ++ (st.waiting ++ [r]))).Nodup
    rw [← append_assoc, ids, map_append, map_singleton]
    exact nodup_append'.mpr ⟨h.waiting, nodup_singleton _,
      disjoint_singleton.mpr hid⟩
  running := h.running
  queued := by
    intro e he
    have he : e ∈ admitted ++ (st.waiting ++ [r]) := he
    rw [← append_assoc] at he
    rcases mem_append.mp he with he | he
    · exact h.queued e he
    · rw [mem_singleton.mp he]
      exact ⟨hcount, hprompt⟩
  runs := h.runs
  le_prompt := h.le_prompt
  le_count := h.le_count
  nodup := h.nodup
  prefilled := h.prefilled
  others := h.others
  total := h.total

theorem Booked.place (h : Booked prompt cur cnt (r :: admitted) st) :
    Booked prompt cur cnt admitted (st.place r) := by
  have hrest : Booked prompt cur cnt admitted st := h.move (sublist_cons_self r _).subperm
    (subset_cons_self _ _) rfl rfl rfl
  refine { hrest with
    running := nodup_setRunning r h.running
    runs := fun e he => ?_
    prefilled := fun id hid => ⟨?_, (hrest.prefilled id hid).2⟩ }
  · rcases mem_setRunning he with rfl | he
    · exact h.queued e mem_cons_self
    · exact h.runs e he
  · exact (mem_ids_setRunning r id _).mpr (.inr (h.prefilled id hid).1)

theorem Booked.prefill (h : Booked prompt cur cnt (r :: admitted) st)
    (hchunk : chunk ≤ r.remaining) :
    Booked prompt cur (Function.update cnt r.id (r.consumedTokens + chunk)) admitted
      (st.prefill r chunk) := by
  obtain ⟨hcount, hprompt⟩ := h.queued r mem_cons_self
  have hle := h.le_prompt r.id
  have hnot : r.id ∉ st.prefillIds := fun hid => (h.prefilled r.id hid).2 mem_cons_self
  have hcur := h.others r.id hnot
  obtain ⟨hout, hnodup⟩ := nodup_cons.mp h.waiting
  unfold Request.remaining at hchunk
  have hself : r.consumedTokens + chunk
      = Function.update cnt r.id (r.consumedTokens + chunk) r.id := by rw [Function.update_self]
  have hrun : (ids (setRunning { r with consumedTokens := r.consumedTokens + chunk }
      st.running)).Nodup := nodup_setRunning _ h.running
  constructor
  · exact hnodup
  · exact hrun
  · intro e he
    have hne : e.id ≠ r.id := by
      intro heq
      exact hout (mem_map.mpr ⟨e, he, heq⟩)
    rw [Function.update_of_ne hne]
    exact h.queued e (mem_cons_of_mem _ he)
  · intro e he
    by_cases hid : e.id = r.id
    · rw [eq_of_ids hrun he (self_mem_setRunning _ _) hid]
      exact ⟨hself, hprompt⟩
    · rw [Function.update_of_ne hid]
      rcases mem_setRunning he with rfl | he
      · exact absurd rfl hid
      · exact h.runs e he
  · intro id
    by_cases hid : id = r.id
    · rw [hid, Function.update_self, ← hprompt]
      omega
    · rw [Function.update_of_ne hid]
      exact h.le_prompt id
  · intro id
    by_cases hid : id = r.id
    · rw [hid, Function.update_self]
      omega
    · rw [Function.update_of_ne hid]
      exact h.le_count id
  · rw [prefill_prefillIds]
    exact nodup_append'.mpr ⟨h.nodup, nodup_singleton _, disjoint_singleton.mpr hnot⟩
  · intro id hid
    rw [prefill_prefillIds, mem_append, mem_singleton] at hid
    rcases hid with hid | rfl
    · obtain ⟨h1, h2⟩ := h.prefilled id hid
      exact ⟨(mem_ids_setRunning _ id _).mpr (.inr h1),
        fun hmem => h2 (mem_cons_of_mem _ hmem)⟩
    · refine ⟨(mem_ids_setRunning _ r.id _).mpr (.inl rfl), fun hmem => hout ?_⟩
      obtain ⟨e, he, heq⟩ := mem_map.mp hmem
      exact mem_map.mpr ⟨e, mem_append_left _ he, heq⟩
  · intro id hid
    rw [prefill_prefillIds, mem_append, mem_singleton, not_or] at hid
    rw [Function.update_of_ne hid.2]
    exact h.others id hid.1
  · rw [prefill_prefillIds, prefill_totalPrefill, map_append, sum_append, ← h.total]
    congr 1
    · refine congrArg List.sum (map_congr_left fun id hid => ?_)
      have hne : id ≠ r.id := fun heq => hnot (heq ▸ hid)
      rw [Function.update_of_ne hne]
    · rw [map_singleton, sum_singleton, Function.update_self]
      omega

theorem Booked.filled (h : Booked prompt cur cnt (r :: admitted) st) (c : AdmitCtx)
    {rest waiting : List Request} (hperm : (rest ++ waiting).Perm (admitted ++ st.waiting))
    (hrest : rest ⊆ admitted) :
    Booked prompt cur (Function.update cnt r.id (r.consumedTokens + c.chunkSize r)) rest
      ({ st.prefill r (c.chunkSize r) with waiting := waiting }.requeue r (c.chunkSize r)) := by
  have hout : r.id ∉ ids (admitted ++ st.waiting) := (nodup_cons.mp h.waiting).1
  have hprompt := (h.queued r mem_cons_self).2
  have hself : r.consumedTokens + c.chunkSize r
      = Function.update cnt r.id (r.consumedTokens + c.chunkSize r) r.id := by
    rw [Function.update_self]
  have hfilled : Booked prompt cur _ rest
      { st.prefill r (c.chunkSize r) with waiting := waiting } :=
    (h.prefill (chunkSize_le c r)).move hperm.subperm hrest rfl rfl rfl
  unfold AdmitState.requeue
  split_ifs
  · exact hfilled.remainder (fun hmem => hout ((mem_ids_perm hperm _).mp hmem)) hself hprompt
  · exact hfilled

theorem admitLoop_booked (c : AdmitCtx) {admitted : List Request} {cnt : ℕ → ℕ}
    {st : AdmitState} (h : Booked prompt cur cnt admitted st) :
    ∃ cnt', Booked prompt cur cnt' [] (admitLoop c admitted st) := by
  refine admitLoop_invariant c (I := fun admitted st => ∃ cnt, Booked prompt cur cnt admitted st)
    (fun r rest st ⟨cnt, h⟩ => ⟨cnt, h.putBack⟩) (fun r rest st _ ⟨cnt, h⟩ => ⟨cnt, h.place⟩)
    (fun r rest st ⟨cnt, h⟩ => ⟨cnt, ?_⟩) (fun r rest st _ ⟨cnt, h⟩ => ⟨_, h.filled c ?_ ?_⟩)
    (fun r rest st _ ⟨cnt, h⟩ => ⟨_, h.filled c (.refl _) (List.Subset.refl _)⟩) ⟨cnt, h⟩
  · -- the requests behind `r` are lost
    refine h.putBack.move (List.Sublist.subperm ?_) (nil_subset _) rfl rfl rfl
    exact sublist_append_right _ _
  · show (st.waiting ++ rest.reverse).Perm (rest ++ st.waiting)
    exact perm_append_comm.trans ((reverse_perm rest).append_right st.waiting)
  · exact nil_subset _

theorem admitLoop_budget (c : AdmitCtx) {admitted : List Request} {st : AdmitState}
    (h : st.totalPrefill ≤ c.maxBatchedTokens) :
    (admitLoop c admitted st).totalPrefill ≤ c.maxBatchedTokens := by
  refine admitLoop_invariant c (I := fun _ st => st.totalPrefill ≤ c.maxBatchedTokens)
    (fun _ _ _ h => h) (fun _ _ _ _ h => h) (fun _ _ _ h => h) (fun r rest st hle _ => ?_)
    (fun r rest st hle _ => ?_) h
  all_goals
    rw [requeue_totalPrefill]
    exact hle

end Booked

/-- A run's scheduler, the requests as they were enqueued, and the chunks of each id. -/
structure Accounts where
  history : History
  origin : ℕ → Request
  chunks : ℕ → List (ℕ × ℕ)

namespace Accounts

def new (maxBatchedTokens maxNumSeqs : ℕ) (admission : AdmissionController) : Accounts where
  history := .new maxBatchedTokens maxNumSeqs admission
  origin id := freshRequest id 0
  chunks _ := []

variable (a : Accounts)

abbrev sched : Scheduler := a.history.sched

def record (tick : Tick) (id : ℕ) : List (ℕ × ℕ) :=
  a.chunks id ++ ((a.sched.schedule tick).2.prefillIds.filter (· = id)).map (a.sched.passChunk tick)

def step (call : Call) : Option Accounts :=
  (a.history.step call).map fun h =>
    match call with
    | .enqueue r => ⟨h, Function.update a.origin r.id r, a.chunks⟩
    | .schedule tick => ⟨h, a.origin, a.record tick⟩
    | _ => ⟨h, a.origin, a.chunks⟩

/-- Where the last chunk of `id` ended. -/
def reached (id : ℕ) : ℕ := ((a.chunks id).getLast?.map (·.2)).getD (a.origin id).consumedTokens

def live : List Request := a.sched.waiting ++ a.sched.running

/-- The chunks of each running or waiting request lead from the count it was enqueued with to the
count it carries, which is within its prompt. -/
def Tiled : Prop :=
  ∀ r ∈ a.live, Tile (a.origin r.id).consumedTokens (a.chunks r.id) r.consumedTokens
    ∧ r.consumedTokens ≤ r.promptTokens ∧ r.promptTokens = (a.origin r.id).promptTokens

/-- The next pass prefills no more tokens than the budget, a waiting entry carries the count of the
running one, and the chunks are in order. -/
structure Sound (tick : Tick) : Prop where
  budget : a.sched.increase tick ≤ a.sched.maxBatchedTokens
  same : ∀ r ∈ a.sched.running, ∀ w ∈ a.sched.waiting, r.id = w.id →
    r.consumedTokens = w.consumedTokens
  tiled : a.Tiled

def WithinPrompt (_ : Accounts) : Call → Prop
  | .enqueue r => r.consumedTokens ≤ r.promptTokens
  | _ => True

instance (a : Accounts) (call : Call) : Decidable (a.WithinPrompt call) :=
  match call with
  | .enqueue r => inferInstanceAs (Decidable (r.consumedTokens ≤ r.promptTokens))
  | .schedule _ | .pause _ | .resume _ | .finish _ | .retune .. => inferInstanceAs (Decidable True)

/-- What a pass takes back from `swapped`, and what `resume` takes back, carries the count its id
has reached; a pass takes back one entry of an id, and `resume` none of a running one. -/
def TakesBack : Call → Prop
  | .enqueue r => r.consumedTokens ≤ r.promptTokens
  | .schedule tick => (ids (a.sched.returning tick)).Nodup
      ∧ ∀ r ∈ a.sched.returning tick, r.consumedTokens = a.reached r.id
  | .resume id => ∀ q ∈ takeId id a.sched.paused,
      id ∉ ids a.sched.running ∧ q.1.consumedTokens = a.reached id
  | _ => True

instance (call : Call) : Decidable (a.TakesBack call) :=
  match call with
  | .enqueue r => inferInstanceAs (Decidable (r.consumedTokens ≤ r.promptTokens))
  | .schedule tick => inferInstanceAs (Decidable ((ids (a.sched.returning tick)).Nodup
      ∧ ∀ r ∈ a.sched.returning tick, r.consumedTokens = a.reached r.id))
  | .resume id => inferInstanceAs (Decidable (∀ q ∈ takeId id a.sched.paused,
      id ∉ ids a.sched.running ∧ q.1.consumedTokens = a.reached id))
  | .pause _ | .finish _ | .retune .. => inferInstanceAs (Decidable True)

/-- The invariant: each running or waiting entry carries the count its id has reached, and no id is
twice in `running` or in `waiting`. -/
structure Counted (a : Accounts) : Prop where
  waiting : (ids a.sched.waiting).Nodup
  running : (ids a.sched.running).Nodup
  counts : ∀ r ∈ a.live, r.consumedTokens = a.reached r.id
  prompts : ∀ r ∈ a.live ++ a.sched.swapped ++ a.sched.paused,
    r.promptTokens = (a.origin r.id).promptTokens
  le_prompt : ∀ id, a.reached id ≤ (a.origin id).promptTokens
  tile : ∀ id, Tile (a.origin id).consumedTokens (a.chunks id) (a.reached id)
  known : ∀ id, Tracked a.sched id → id ∈ a.history.enqueued
  untouched : ∀ id ∉ a.history.enqueued, a.chunks id = []

variable {a} {a' : Accounts} {call : Call}

theorem counted_new (maxBatchedTokens maxNumSeqs : ℕ) (admission : AdmissionController) :
    (new maxBatchedTokens maxNumSeqs admission).Counted where
  waiting := nodup_nil
  running := nodup_nil
  counts := fun _ hr => absurd hr not_mem_nil
  prompts := fun _ hr => absurd hr not_mem_nil
  le_prompt := fun _ => le_refl _
  tile := fun _ => rfl
  known := by
    rintro id (h | h | h | h) <;> exact absurd h not_mem_nil
  untouched := fun _ _ => rfl

theorem Counted.booked (h : a.Counted) {tick : Tick} (hok : a.TakesBack (.schedule tick)) :
    Booked (fun id => (a.origin id).promptTokens) a.reached a.reached
      (a.sched.beginPass tick).admitted
      ⟨(a.sched.beginPass tick).sched.waiting, (a.sched.beginPass tick).sched.running,
        (a.sched.beginPass tick).sched.admittedTotal, [], 0⟩ := by
  have hqueue := beginPass_returning tick a.sched
  have hback : ∀ r ∈ a.sched.returning tick, r ∈ a.sched.swapped ∧ r.id ∉ ids a.sched.waiting :=
    fun r hr => ⟨(mem_returning.mp hr).2.1, (mem_returning.mp hr).2.2.1⟩
  have hrun : ∀ r ∈ (a.sched.beginPass tick).sched.running, r ∈ a.sched.running := by
    obtain ⟨-, ⟨-, -, -, -, -, hr, -⟩ | ⟨-, hr, -⟩ | ⟨v, -, -, hr, -⟩⟩ :=
      beginPass_cases tick a.sched
    · exact fun r h => hr.subset h
    · exact fun r h => hr.subset h
    · exact fun r h => hr.subset (mem_cons_of_mem _ h)
  have hlive : ∀ r ∈ a.live,
      r.consumedTokens = a.reached r.id ∧ r.promptTokens = (a.origin r.id).promptTokens :=
    fun r hr => ⟨h.counts r hr, h.prompts r (by simp [hr])⟩
  constructor
  · rw [ids, (hqueue.map (·.id)).nodup_iff, map_append]
    refine nodup_append'.mpr ⟨hok.1, h.waiting, fun id hid hw => ?_⟩
    obtain ⟨r, hr, rfl⟩ := mem_map.mp hid
    exact (hback r hr).2 hw
  · obtain ⟨-, ⟨-, -, -, -, -, hr, -⟩ | ⟨-, hr, -⟩ | ⟨v, -, -, hr, -⟩⟩ :=
      beginPass_cases tick a.sched
    · exact (hr.map (·.id)).nodup_iff.mpr h.running
    · exact (hr.map (·.id)).nodup_iff.mpr h.running
    · exact (nodup_cons.mp ((hr.map (·.id)).nodup_iff.mpr h.running)).2
  · intro r hr
    rcases mem_append.mp (hqueue.subset hr) with hr | hr
    · exact ⟨hok.2 r hr, h.prompts r (by simp [(hback r hr).1])⟩
    · exact hlive r (mem_append_left _ hr)
  · exact fun r hr => hlive r (mem_append_right _ (hrun r hr))
  · exact h.le_prompt
  · exact fun _ => le_refl _
  · exact nodup_nil
  · exact fun _ hid => absurd hid not_mem_nil
  · exact fun _ _ => rfl
  · rfl

theorem Counted.passChunk (h : a.Counted) {tick : Tick} (hok : a.TakesBack (.schedule tick))
    {cnt : ℕ → ℕ}
    (hb : Booked (fun id => (a.origin id).promptTokens) a.reached cnt []
      (a.sched.beginPass tick).finish) {id : ℕ}
    (hid : id ∈ (a.sched.schedule tick).2.prefillIds) :
    a.sched.passChunk tick id = (a.reached id, cnt id) := by
  -- what is prefilled was admitted, from `waiting` or from what came back
  have hsource : id ∈ ids (a.sched.returning tick) ∨ id ∈ ids a.sched.waiting := by
    have hmov := admitLoop_moved (a.sched.beginPass tick).ctx (a.sched.beginPass tick).admitted
      ⟨(a.sched.beginPass tick).sched.waiting, (a.sched.beginPass tick).sched.running,
        (a.sched.beginPass tick).sched.admittedTotal, [], 0⟩
    obtain ⟨r, hr, rfl⟩ := mem_map.mp ((hmov.prefill id hid).resolve_left not_mem_nil)
    exact (mem_append.mp ((beginPass_returning tick a.sched).subset
      (mem_append_left _ hr))).imp mem_map_of_mem mem_map_of_mem
  refine Prod.ext (countIn_eq ?_ fun e he => ?_) (countIn_eq (hb.prefilled id hid).1 fun e he => ?_)
  · rcases hsource with hr | hr <;> obtain ⟨r, hr, hrid⟩ := mem_map.mp hr
    · exact mem_map.mpr ⟨r, mem_append_right _ (mem_returning.mp hr).2.1, hrid⟩
    · exact mem_map.mpr ⟨r, mem_append_left _ hr, hrid⟩
  · obtain ⟨hmem, rfl⟩ := find?_id he
    by_cases hw : e.id ∈ ids a.sched.waiting
    · obtain ⟨r, hr, hrid⟩ := mem_map.mp hw
      obtain ⟨e', he'⟩ := Option.isSome_iff_exists.mp (find?_isSome.mpr
        ⟨r, hr, decide_eq_true hrid⟩ : (a.sched.waiting.find? (·.id = e.id)).isSome)
      rw [find?_append, he', Option.some_or] at he
      obtain rfl := Option.some.inj he
      exact h.counts e' (mem_append_left _ (find?_id he').1)
    · obtain ⟨r, hr, hrid⟩ := mem_map.mp (hsource.resolve_right hw)
      obtain ⟨hcalm, -, hnot⟩ := mem_returning.mp hr
      have hswapped := (mem_append.mp hmem).resolve_left fun hm => hw (mem_map_of_mem hm)
      exact hok.2 e (mem_returning.mpr ⟨hcalm, hswapped, hrid ▸ hnot⟩)
  · obtain ⟨hmem, rfl⟩ := find?_id he
    exact (hb.runs e hmem).1

theorem record_eq {tick : Tick} {cnt : ℕ → ℕ}
    (hnodup : (a.sched.schedule tick).2.prefillIds.Nodup)
    (hchunk : ∀ id ∈ (a.sched.schedule tick).2.prefillIds,
      a.sched.passChunk tick id = (a.reached id, cnt id)) (id : ℕ) :
    a.record tick id = if id ∈ (a.sched.schedule tick).2.prefillIds
      then a.chunks id ++ [(a.reached id, cnt id)] else a.chunks id := by
  unfold record
  split_ifs with hid
  · rw [filter_eq, count_eq_one_of_mem hnodup hid, replicate_one, map_singleton,
      hchunk id hid]
  · rw [filter_eq, count_eq_zero_of_not_mem hid, replicate_zero, map_nil,
      append_nil]

theorem schedule_rest (tick : Tick) {r : Request}
    (hr : r ∈ (a.sched.schedule tick).1.swapped ++ (a.sched.schedule tick).1.paused) :
    r ∈ a.live ++ a.sched.swapped ++ a.sched.paused := by
  obtain ⟨hpa, hq⟩ := beginPass_cases tick a.sched
  rcases mem_append.mp hr with hr | hr
  · have hr : r ∈ (a.sched.beginPass tick).sched.swapped := hr
    rcases hq with ⟨-, -, -, -, -, -, hsw⟩ | ⟨-, -, hsw⟩ | ⟨v, -, -, hrun, hsw⟩ <;> rw [hsw] at hr
    · exact absurd hr not_mem_nil
    · simp [hr]
    · rcases mem_append.mp hr with hr | hr
      · simp [hr]
      · have hv : v ∈ a.sched.running := hrun.subset mem_cons_self
        rw [mem_singleton.mp hr]
        simp [live, hv]
  · have hr : r ∈ (a.sched.beginPass tick).sched.paused := hr
    rw [hpa] at hr
    simp [hr]

theorem Counted.schedule (h : a.Counted) {tick : Tick} (hok : a.TakesBack (.schedule tick)) :
    Counted ⟨⟨(a.sched.schedule tick).1, a.history.enqueued⟩, a.origin, a.record tick⟩
      ∧ (∀ id, a.reached id
        ≤ reached ⟨⟨(a.sched.schedule tick).1, a.history.enqueued⟩, a.origin, a.record tick⟩ id)
      ∧ a.sched.increase tick ≤ a.sched.maxBatchedTokens := by
  obtain ⟨cnt, hb⟩ := admitLoop_booked (a.sched.beginPass tick).ctx (h.booked hok)
  have hchunk : ∀ id ∈ (a.sched.schedule tick).2.prefillIds,
      a.sched.passChunk tick id = (a.reached id, cnt id) := fun id hid => h.passChunk hok hb hid
  have hrecord := record_eq hb.nodup hchunk
  have hreached : ∀ id, reached ⟨⟨(a.sched.schedule tick).1, a.history.enqueued⟩, a.origin,
      a.record tick⟩ id = cnt id := by
    intro id
    unfold reached
    dsimp only
    rw [hrecord]
    split_ifs with hid
    · rw [getLast?_append_of_ne_nil _ (by simp), getLast?_singleton]
      rfl
    · exact (hb.others id hid).symm
  refine ⟨?_, fun id => ?_, ?_⟩
  · constructor
    · exact hb.waiting
    · exact hb.running
    · intro r hr
      rw [hreached]
      rcases mem_append.mp hr with hr | hr
      · exact (hb.queued r hr).1
      · exact (hb.runs r hr).1
    · intro r hr
      rw [append_assoc] at hr
      rcases mem_append.mp hr with hr | hr
      · rcases mem_append.mp hr with hr | hr
        · exact (hb.queued r hr).2
        · exact (hb.runs r hr).2
      · exact h.prompts r (schedule_rest tick hr)
    · intro id
      rw [hreached]
      exact hb.le_prompt id
    · intro id
      rw [hreached]
      dsimp only
      rw [hrecord]
      split_ifs with hid
      · exact tile_append (h.tile id) (hb.le_count id)
      · rw [hb.others id hid]
        exact h.tile id
    · exact fun id hid => h.known id (schedule_known tick hid)
    · intro id hid
      dsimp only at hid ⊢
      rw [hrecord, if_neg fun hmem => hid (h.known id ?_), h.untouched id hid]
      exact selected_known tick (.inl hmem)
  · rw [hreached]
    exact hb.le_count id
  · have hmax : (a.sched.beginPass tick).ctx.maxBatchedTokens = a.sched.maxBatchedTokens := by
      obtain ⟨w, r, sw, rd, hs⟩ := beginPass_sched tick a.sched
      show (a.sched.beginPass tick).sched.maxBatchedTokens = _
      rw [hs]
    have hsum : a.sched.increase tick = (a.sched.beginPass tick).finish.totalPrefill := by
      refine Eq.trans ?_ hb.total
      refine congrArg List.sum (map_congr_left fun id hid => ?_)
      rw [hchunk id hid]
    rw [hsum, ← hmax]
    exact admitLoop_budget _ (Nat.zero_le _)

theorem Counted.fresh_ne (h : a.Counted) {id : Nat} (hfresh : id ∉ a.history.enqueued)
    {e : Request} (he : e ∈ a.live ++ a.sched.swapped ++ a.sched.paused) : e.id ≠ id := by
  intro heq
  have hmem := mem_map_of_mem (f := fun q : Request => q.id) he
  simp only [live, map_append, mem_append, or_assoc] at hmem
  exact hfresh (heq ▸ h.known e.id hmem)

/-- The entries of `enqueue`: one more is waiting, of a new id. -/
theorem Counted.enqueue (h : a.Counted) {r : Request} (hle : r.consumedTokens ≤ r.promptTokens)
    (hfresh : r.id ∉ a.history.enqueued) :
    Counted ⟨⟨a.sched.enqueue r, r.id :: a.history.enqueued⟩, Function.update a.origin r.id r,
      a.chunks⟩ := by
  have hreached : ∀ id, reached ⟨⟨a.sched.enqueue r, r.id :: a.history.enqueued⟩,
      Function.update a.origin r.id r, a.chunks⟩ id
        = if id = r.id then r.consumedTokens else a.reached id := by
    intro id
    unfold reached
    dsimp only
    split_ifs with hid
    · rw [hid, h.untouched r.id hfresh, Function.update_self]
      rfl
    · rw [Function.update_of_ne hid]
  have hne : ∀ {e : Request}, e ∈ a.live ++ a.sched.swapped ++ a.sched.paused → e.id ≠ r.id :=
    fun he => h.fresh_ne hfresh he
  have hnew : ∀ {e : Request}, e ∈ (a.sched.enqueue r).waiting → e ∈ a.sched.waiting ∨ e = r := by
    intro e he
    simpa [Scheduler.enqueue] using he
  constructor
  · show (ids (a.sched.waiting ++ [r])).Nodup
    rw [ids, map_append, map_singleton]
    refine nodup_append'.mpr ⟨h.waiting, nodup_singleton _,
      disjoint_singleton.mpr fun hmem => hfresh (h.known r.id (.inl hmem))⟩
  · exact h.running
  · intro e he
    rw [hreached]
    rcases mem_append.mp he with he | he
    · rcases hnew he with he | rfl
      · rw [if_neg (hne (by simp [live, he]))]
        exact h.counts e (mem_append_left _ he)
      · rw [if_pos rfl]
    · rw [if_neg (hne (by simp [live, show e ∈ a.sched.running from he]))]
      exact h.counts e (mem_append_right _ he)
  · intro e he
    have hcase : e ∈ a.live ++ a.sched.swapped ++ a.sched.paused ∨ e = r := by
      simp only [live, append_assoc, mem_append] at he ⊢
      rcases he with he | he
      · exact (hnew he).imp_left .inl
      · exact .inl (.inr he)
    rcases hcase with he | rfl
    · dsimp only
      rw [Function.update_of_ne (hne he)]
      exact h.prompts e he
    · dsimp only
      rw [Function.update_self]
  · intro id
    rw [hreached]
    dsimp only
    split_ifs with hid
    · rw [hid, Function.update_self]
      exact hle
    · rw [Function.update_of_ne hid]
      exact h.le_prompt id
  · intro id
    rw [hreached]
    dsimp only
    split_ifs with hid
    · rw [hid, Function.update_self, h.untouched r.id hfresh]
      rfl
    · rw [Function.update_of_ne hid]
      exact h.tile id
  · intro id hid
    rcases hid with hid | hid
    · obtain ⟨e, he, rfl⟩ := mem_map.mp hid
      rcases hnew he with he | rfl
      · exact mem_cons_of_mem _ (h.known e.id (.inl (mem_map_of_mem he)))
      · exact mem_cons_self
    · exact mem_cons_of_mem _ (h.known id (.inr hid))
  · exact fun id hid => h.untouched id fun hmem => hid (mem_cons_of_mem _ hmem)

theorem Counted.regroup (h : a.Counted) {s : Scheduler} (hw : (ids s.waiting).Nodup)
    (hr : (ids s.running).Nodup)
    (hlive : ∀ r ∈ s.waiting ++ s.running, r ∈ a.live ∨ r.consumedTokens = a.reached r.id)
    (hall : ∀ r ∈ s.waiting ++ s.running ++ s.swapped ++ s.paused,
      r ∈ a.live ++ a.sched.swapped ++ a.sched.paused) :
    Counted ⟨⟨s, a.history.enqueued⟩, a.origin, a.chunks⟩ where
  waiting := hw
  running := hr
  counts := fun r hmem => (hlive r hmem).elim (h.counts r) id
  prompts := fun r hmem => h.prompts r (hall r hmem)
  le_prompt := h.le_prompt
  tile := h.tile
  known := by
    intro id hid
    have hmem : id ∈ ids (s.waiting ++ s.running ++ s.swapped ++ s.paused) := by
      simpa [Tracked, or_assoc] using hid
    obtain ⟨r, hr, rfl⟩ := mem_map.mp hmem
    have hold := mem_map_of_mem (f := fun q : Request => q.id) (hall r hr)
    simp only [live, map_append, mem_append, or_assoc] at hold
    exact h.known r.id hold
  untouched := h.untouched

theorem Counted.pause (h : a.Counted) (id : Nat) :
    Counted ⟨⟨(a.sched.pause id).1, a.history.enqueued⟩, a.origin, a.chunks⟩ := by
  unfold Scheduler.pause
  split
  · rename_i r running ht
    obtain ⟨-, hperm⟩ := takeId_some ht
    have hsub : ∀ e ∈ running, e ∈ a.sched.running :=
      fun e he => hperm.symm.subset (mem_cons_of_mem _ he)
    refine h.regroup h.waiting ?_ (fun e he => .inl ?_) fun e he => ?_
    · exact (nodup_cons.mp ((hperm.map (·.id)).nodup_iff.mp h.running)).2
    · exact (mem_append.mp he).elim (mem_append_left _)
        fun he => mem_append_right _ (hsub e he)
    · have hr : r ∈ a.sched.running := hperm.symm.subset mem_cons_self
      simp only [live, mem_append, mem_singleton] at he ⊢
      rcases he with ((he | he) | he) | he | rfl
      · exact .inl (.inl (.inl he))
      · exact .inl (.inl (.inr (hsub e he)))
      · exact .inl (.inr he)
      · exact .inr he
      · exact .inl (.inl (.inr hr))
  · exact h

theorem Counted.resume (h : a.Counted) {id : Nat} (hok : a.TakesBack (.resume id)) :
    Counted ⟨⟨(a.sched.resume id).1, a.history.enqueued⟩, a.origin, a.chunks⟩ := by
  unfold Scheduler.resume
  split
  · rename_i r paused ht
    obtain ⟨rfl, hperm⟩ := takeId_some ht
    obtain ⟨hnot, hcount⟩ := hok (r, paused) ht
    refine h.regroup h.waiting ?_ (fun e he => ?_) fun e he => ?_
    · show (ids (a.sched.running ++ [r])).Nodup
      rw [ids, map_append, map_singleton]
      exact nodup_append'.mpr ⟨h.running, nodup_singleton _,
        disjoint_singleton.mpr hnot⟩
    · simp only [live, mem_append, mem_singleton] at he ⊢
      rcases he with he | he | rfl
      · exact .inl (.inl he)
      · exact .inl (.inr he)
      · exact .inr hcount
    · have hr : r ∈ a.sched.paused := hperm.symm.subset mem_cons_self
      simp only [live, mem_append, mem_singleton] at he ⊢
      rcases he with ((he | he | rfl) | he) | he
      · exact .inl (.inl (.inl he))
      · exact .inl (.inl (.inr he))
      · exact .inr hr
      · exact .inl (.inr he)
      · exact .inr (hperm.symm.subset (mem_cons_of_mem _ he))
  · exact h

theorem Counted.finish (h : a.Counted) (id : Nat) :
    Counted ⟨⟨a.sched.finish id, a.history.enqueued⟩, a.origin, a.chunks⟩ := by
  refine h.regroup h.waiting (h.running.sublist (finish_sublist id _)) (fun e he => .inl ?_)
    fun e he => ?_
  · exact (mem_append.mp he).elim (mem_append_left _)
      fun he => mem_append_right _ (mem_of_mem_filter he)
  · simp only [live, mem_append] at he ⊢
    rcases he with ((he | he) | he) | he
    · exact .inl (.inl (.inl he))
    · exact .inl (.inl (.inr (mem_of_mem_filter he)))
    · exact .inl (.inr (mem_of_mem_filter he))
    · exact .inr (mem_of_mem_filter he)

theorem Counted.step (h : a.Counted) (hok : a.TakesBack call) (hs : a.step call = some a') :
    a'.Counted ∧ ∀ r ∈ a.live, a.reached r.id ≤ a'.reached r.id := by
  obtain ⟨h', hh, rfl⟩ := Option.map_eq_some_iff.mp hs
  cases call with
  | enqueue r =>
    simp only [History.step] at hh
    split_ifs at hh with hfresh
    obtain rfl := Option.some.inj hh
    refine ⟨h.enqueue hok hfresh, fun e he => ?_⟩
    unfold reached
    dsimp only
    rw [Function.update_of_ne (h.fresh_ne hfresh (by simp [he]))]
  | schedule tick =>
    obtain rfl := Option.some.inj hh
    obtain ⟨hc, hle, -⟩ := h.schedule hok
    exact ⟨hc, fun r _ => hle r.id⟩
  | pause id =>
    obtain rfl := Option.some.inj hh
    exact ⟨h.pause id, fun _ _ => le_refl _⟩
  | resume id =>
    obtain rfl := Option.some.inj hh
    exact ⟨h.resume hok, fun _ _ => le_refl _⟩
  | finish id =>
    obtain rfl := Option.some.inj hh
    exact ⟨h.finish id, fun _ _ => le_refl _⟩
  | retune =>
    obtain rfl := Option.some.inj hh
    exact ⟨h.regroup h.waiting h.running (fun _ he => .inl he) fun _ he => he, fun _ _ => le_refl _⟩

theorem Counted.sound (h : a.Counted) {tick : Tick} (hok : a.TakesBack (.schedule tick)) :
    a.Sound tick where
  budget := (h.schedule hok).2.2
  same := by
    intro r hr w hw hid
    rw [h.counts r (mem_append_right _ hr), h.counts w (mem_append_left _ hw), hid]
  tiled := by
    intro r hr
    have hp := h.prompts r (by simp [hr])
    rw [h.counts r hr, hp]
    exact ⟨h.tile r.id, h.le_prompt r.id, rfl⟩

/-- In every run that takes back no entry with an older count, a pass prefills within the budget,
the entries of an id agree, the chunks of an id tile its prompt, and no count falls. -/
theorem prefill_accounted (maxBatchedTokens maxNumSeqs : ℕ) (admission : AdmissionController)
    {a : Accounts}
    (hr : Steps.Reach step TakesBack (new maxBatchedTokens maxNumSeqs admission) a) :
    (∀ tick, a.TakesBack (.schedule tick) → a.Sound tick)
      ∧ ∀ call a', a.TakesBack call → a.step call = some a' →
        ∀ r ∈ a.live, ∀ r' ∈ a'.live, r.id = r'.id → r.consumedTokens ≤ r'.consumedTokens := by
  have h := hr.invariant (counted_new maxBatchedTokens maxNumSeqs admission)
    fun _ _ _ h hok hs => (h.step hok hs).1
  refine ⟨fun tick hok => h.sound hok, fun call a' hok hs r hr r' hr' hid => ?_⟩
  obtain ⟨h', hle⟩ := h.step hok hs
  rw [h.counts r hr, h'.counts r' hr', ← hid]
  exact hle r hr

/-- A short prompt that the chunks of a long one swap out, until its pass takes it back. -/
def tiledCalls : List Call :=
  .retune 100 2 50 .relaxed none :: swapOutCalls

theorem prefill_accounted_chunked :
    ∃ a, Steps.exec step TakesBack (new 100 8 ⟨0, 0⟩) tiledCalls = some a
      ∧ a.chunks 2 = [(0, 50), (50, 100), (100, 150), (150, 200)] ∧ a.Sound calmTick := by
  obtain ⟨a, hrun, hchunks, hok⟩ : ∃ a, Steps.exec step TakesBack (new 100 8 ⟨0, 0⟩)
      tiledCalls = some a ∧ a.chunks 2 = [(0, 50), (50, 100), (100, 150), (150, 200)]
        ∧ a.TakesBack (.schedule calmTick) := ⟨_, rfl, by decide⟩
  exact ⟨a, hrun, hchunks, (prefill_accounted 100 8 ⟨0, 0⟩ (Steps.reach_of_exec hrun)).1 _ hok⟩

/-- A request paused between two chunks, of which the pass prefills the remainder before it is
resumed. -/
def staleCalls : List Call :=
  [.retune 100 8 50 .relaxed none, .enqueue (freshRequest 1 200), .schedule calmTick, .pause 1,
    .schedule calmTick, .resume 1]

theorem resumed_count_stale :
    ¬ ∀ (maxBatchedTokens maxNumSeqs : ℕ) (admission : AdmissionController) (a : Accounts),
      Steps.Reach step WithinPrompt (new maxBatchedTokens maxNumSeqs admission) a →
        ∀ tick, a.Sound tick := by
  intro hall
  obtain ⟨a, hrun, hr, hw⟩ : ∃ a, Steps.exec step WithinPrompt (new 100 8 ⟨0, 0⟩) staleCalls
      = some a ∧ { freshRequest 1 200 with consumedTokens := 50 } ∈ a.sched.running
        ∧ { freshRequest 1 200 with consumedTokens := 100 } ∈ a.sched.waiting :=
    ⟨_, rfl, by decide⟩
  have hsound := hall 100 8 ⟨0, 0⟩ a (Steps.reach_of_exec hrun) calmTick
  exact absurd (hsound.same _ hr _ hw rfl) (by simp)

end Accounts

end Grim.Scheduler
