import Grim.Lib.Steps

/-!
# The host mirror of the device blocks

A flush is staged and committed apart, and decode writes on in between.  Each block's writes and
flushes are numbered by the calls: `lastWrite` is its last `mark_dirty`, `staged` are its staged
flushes that have not been committed, and `flushed` is the call up to which its writes are in the
host's copy.
-/

namespace Grim.Memory

open Function (update update_self update_of_ne)

open Steps (Reach reach_of_exec)

inductive MirrorSyncState
  | inSync
  | dirtyOnDevice
  | flushing
  | evictedToHost
  | clean
deriving DecidableEq, Repr

/-- `states` has an entry for each block of the pool. -/
structure KvDeviceMirror where
  states : List MirrorSyncState
  hostMirror : ℕ → Option (List UInt32 × List UInt32)
  dirtySet : ℕ → Bool

namespace KvDeviceMirror

def new (capacity : ℕ) : KvDeviceMirror where
  states := List.replicate capacity .clean
  hostMirror _ := none
  dirtySet _ := false

variable (m : KvDeviceMirror)

def state (id : ℕ) : MirrorSyncState := m.states.getD id .clean

def markDirty (id : ℕ) : KvDeviceMirror :=
  if id < m.states.length then
    { m with states := m.states.set id .dirtyOnDevice, dirtySet := update m.dirtySet id true }
  else m

def isDirty (id : ℕ) : Bool := m.dirtySet id

def stageFlush (id : ℕ) : KvDeviceMirror × Option MirrorSyncState :=
  if m.states[id]? = some .dirtyOnDevice then
    ({ m with states := m.states.set id .flushing }, some .flushing)
  else (m, none)

def commitFlush (id : ℕ) (keys values : List UInt32) : KvDeviceMirror :=
  if id < m.states.length then
    { states := m.states.set id .inSync
      hostMirror := update m.hostMirror id (some (keys, values))
      dirtySet := update m.dirtySet id false }
  else m

def markEvicted (id : ℕ) : KvDeviceMirror × Bool :=
  if id < m.states.length ∧ (m.hostMirror id).isSome then
    ({ m with
        states := m.states.set id .evictedToHost
        dirtySet := update m.dirtySet id false }, true)
  else (m, false)

def releaseBlock (id : ℕ) : KvDeviceMirror :=
  if id < m.states.length then
    { states := m.states.set id .clean
      hostMirror := update m.hostMirror id none
      dirtySet := update m.dirtySet id false }
  else m

/-! ### What the calls do to the marks and the copies -/

variable {m} {id b : ℕ}

@[simp]
theorem length_markDirty : (m.markDirty id).states.length = m.states.length := by
  unfold markDirty
  split_ifs <;> simp

@[simp]
theorem length_stageFlush : (m.stageFlush id).1.states.length = m.states.length := by
  unfold stageFlush
  split_ifs <;> simp

@[simp]
theorem length_commitFlush {keys values : List UInt32} :
    (m.commitFlush id keys values).states.length = m.states.length := by
  unfold commitFlush
  split_ifs <;> simp

@[simp]
theorem length_markEvicted : (m.markEvicted id).1.states.length = m.states.length := by
  unfold markEvicted
  split_ifs <;> simp

@[simp]
theorem length_releaseBlock : (m.releaseBlock id).states.length = m.states.length := by
  unfold releaseBlock
  split_ifs <;> simp

theorem isDirty_markDirty : (m.markDirty id).isDirty b
    = if b = id ∧ id < m.states.length then true else m.isDirty b := by
  unfold markDirty isDirty
  by_cases hb : b = id <;> by_cases hid : id < m.states.length <;> simp [hb, hid]

@[simp]
theorem isDirty_stageFlush : (m.stageFlush id).1.isDirty b = m.isDirty b := by
  unfold stageFlush isDirty
  split_ifs <;> rfl

theorem isDirty_commitFlush {keys values : List UInt32} : (m.commitFlush id keys values).isDirty b
    = if b = id ∧ id < m.states.length then false else m.isDirty b := by
  unfold commitFlush isDirty
  by_cases hb : b = id <;> by_cases hid : id < m.states.length <;> simp [hb, hid]

theorem isDirty_markEvicted : (m.markEvicted id).1.isDirty b
    = if b = id ∧ id < m.states.length ∧ (m.hostMirror id).isSome then false else m.isDirty b := by
  unfold markEvicted isDirty
  by_cases hb : b = id <;> by_cases hid : id < m.states.length ∧ (m.hostMirror id).isSome
    <;> simp [hb, hid]

theorem isDirty_releaseBlock : (m.releaseBlock id).isDirty b
    = if b = id ∧ id < m.states.length then false else m.isDirty b := by
  unfold releaseBlock isDirty
  by_cases hb : b = id <;> by_cases hid : id < m.states.length <;> simp [hb, hid]

end KvDeviceMirror

inductive MirrorCall
  | markDirty (id : ℕ)
  | stageFlush (id : ℕ)
  | commitFlush (id flush : ℕ) (keys values : List UInt32)
  | markEvicted (id : ℕ)
  | releaseBlock (id : ℕ)
deriving DecidableEq

structure Mirroring where
  mirror : KvDeviceMirror
  calls : ℕ
  lastWrite : ℕ → ℕ
  staged : ℕ → List ℕ
  flushed : ℕ → ℕ

namespace Mirroring

def new (capacity : ℕ) : Mirroring where
  mirror := .new capacity
  calls := 0
  lastWrite _ := 0
  staged _ := []
  flushed _ := 0

variable (s : Mirroring)

/-- A commit brings the block as it was when its flush was staged, in whatever order the flushes
end, or as it is at the call when nothing was staged for it.  A released block has no writes to
keep. -/
def step : MirrorCall → Option Mirroring
  | .markDirty id => some { s with
      mirror := s.mirror.markDirty id
      calls := s.calls + 1
      lastWrite :=
        if id < s.mirror.states.length then update s.lastWrite id (s.calls + 1) else s.lastWrite }
  | .stageFlush id => some { s with
      mirror := (s.mirror.stageFlush id).1
      calls := s.calls + 1
      staged := match (s.mirror.stageFlush id).2 with
        | some _ => update s.staged id (s.staged id ++ [s.calls + 1])
        | none => s.staged }
  | .commitFlush id flush keys values =>
    if flush ∈ s.staged id ∨ flush = s.calls + 1 then
      some { s with
        mirror := s.mirror.commitFlush id keys values
        calls := s.calls + 1
        staged := update s.staged id ((s.staged id).erase flush)
        flushed := update s.flushed id flush }
    else none
  | .markEvicted id => some { s with
      mirror := (s.mirror.markEvicted id).1
      calls := s.calls + 1 }
  | .releaseBlock id => some { s with
      mirror := s.mirror.releaseBlock id
      calls := s.calls + 1
      lastWrite := update s.lastWrite id 0 }

/-- The block has a write that no commit has brought to the host. -/
def Unflushed (id : ℕ) : Prop := s.flushed id < s.lastWrite id

def NothingLost : Prop := ∀ id, s.Unflushed id → s.mirror.isDirty id = true

/-- No write comes between a staged flush and its commit, and an evicted block is clean or has no
copy in the host. -/
def Careful : MirrorCall → Prop
  | .commitFlush id flush _ _ => s.lastWrite id ≤ flush
  | .markEvicted id => s.mirror.isDirty id = false ∨ s.mirror.hostMirror id = none
  | _ => True

instance (call : MirrorCall) : Decidable (s.Careful call) :=
  match call with
  | .commitFlush id flush _ _ => inferInstanceAs (Decidable (s.lastWrite id ≤ flush))
  | .markEvicted id => inferInstanceAs (Decidable (s.mirror.isDirty id = false ∨ _))
  | .markDirty _ | .stageFlush _ | .releaseBlock _ => inferInstanceAs (Decidable True)

variable {s} {s' : Mirroring} {call : MirrorCall}

structure Tracked (s : Mirroring) : Prop where
  dirty : ∀ id, s.mirror.isDirty id = true ↔ s.Unflushed id
  written : ∀ id, s.lastWrite id ≤ s.calls
  flushed : ∀ id, s.flushed id ≤ s.calls
  staged : ∀ id, ∀ t ∈ s.staged id, t ≤ s.calls
  inRange : ∀ id, s.lastWrite id ≠ 0 → id < s.mirror.states.length

theorem tracked_new (capacity : ℕ) : (new capacity).Tracked where
  dirty id := by simp [new, KvDeviceMirror.new, KvDeviceMirror.isDirty, Unflushed]
  written _ := le_rfl
  flushed _ := le_rfl
  staged id t ht := absurd ht List.not_mem_nil
  inRange id hid := absurd rfl hid

theorem Tracked.nothingLost (h : s.Tracked) : s.NothingLost := fun id => (h.dirty id).mpr

theorem Tracked.lt_of_unflushed (h : s.Tracked) {id : ℕ} (hun : s.Unflushed id) :
    id < s.mirror.states.length :=
  h.inRange id (Nat.ne_of_gt (Nat.zero_lt_of_lt hun))

theorem Tracked.markDirty (h : s.Tracked) {id : ℕ} (hs : s.step (.markDirty id) = some s') :
    s'.Tracked := by
  cases hs
  by_cases hid : id < s.mirror.states.length
  · refine ⟨fun b => ?_, fun b => ?_, fun b => (h.flushed b).trans (Nat.le_succ _),
      fun b t ht => (h.staged b t ht).trans (Nat.le_succ _), fun b hb => ?_⟩
    · have hfl := h.flushed b
      have hold := h.dirty b
      unfold Unflushed at hold ⊢
      simp only [KvDeviceMirror.isDirty_markDirty, hid, and_true, if_true]
      by_cases hb : b = id
      · subst hb
        simp only [update_self, if_true, true_iff]
        omega
      · simpa only [hb, if_false, update_of_ne hb] using hold
    · simp only [hid, if_true]
      by_cases hb : b = id
      · subst hb
        rw [update_self]
      · rw [update_of_ne hb]
        exact (h.written b).trans (Nat.le_succ _)
    · simp only [hid, if_true] at hb
      simp only [KvDeviceMirror.length_markDirty]
      by_cases hbid : b = id
      · rwa [hbid]
      · rw [update_of_ne hbid] at hb
        exact h.inRange b hb
  · have hsame : s.mirror.markDirty id = s.mirror := by simp [KvDeviceMirror.markDirty, hid]
    simp only [hsame, hid, if_false]
    exact ⟨h.dirty, fun b => (h.written b).trans (Nat.le_succ _),
      fun b => (h.flushed b).trans (Nat.le_succ _),
      fun b t ht => (h.staged b t ht).trans (Nat.le_succ _), h.inRange⟩

theorem Tracked.stageFlush (h : s.Tracked) {id : ℕ} (hs : s.step (.stageFlush id) = some s') :
    s'.Tracked := by
  cases hs
  refine ⟨fun b => ?_, fun b => (h.written b).trans (Nat.le_succ _),
    fun b => (h.flushed b).trans (Nat.le_succ _), fun b t ht => ?_, fun b hb => ?_⟩
  · simp only [KvDeviceMirror.isDirty_stageFlush]
    exact h.dirty b
  · have hold : t ∈ s.staged b → t ≤ s.calls + 1 := fun hmem =>
      (h.staged b t hmem).trans (Nat.le_succ _)
    dsimp only at ht ⊢
    rcases hstage : (s.mirror.stageFlush id).2 with - | state
    · rw [hstage] at ht
      exact hold ht
    · rw [hstage] at ht
      by_cases hb : b = id
      · subst hb
        simp only [update_self, List.mem_append, List.mem_singleton] at ht
        exact ht.elim hold fun heq => heq.le
      · simp only [update_of_ne hb] at ht
        exact hold ht
  · simpa only [KvDeviceMirror.length_stageFlush] using h.inRange b hb

theorem Tracked.commitFlush (h : s.Tracked) {id flush : ℕ} {keys values : List UInt32}
    (hs : s.step (.commitFlush id flush keys values) = some s')
    (hcare : s.Careful (.commitFlush id flush keys values)) : s'.Tracked := by
  have hcare : s.lastWrite id ≤ flush := hcare
  simp only [Mirroring.step] at hs
  split_ifs at hs with hflush
  cases hs
  refine ⟨fun b => ?_, fun b => (h.written b).trans (Nat.le_succ _), fun b => ?_,
    fun b t ht => ?_, fun b hb => ?_⟩
  · have hold := h.dirty b
    unfold Unflushed at hold ⊢
    simp only [KvDeviceMirror.isDirty_commitFlush]
    by_cases hb : b = id
    · subst hb
      simp only [update_self, true_and]
      -- both sides are false: out of range, nothing was ever written
      split_ifs with hid
      · simpa using hcare
      · have hclean : ¬ s.flushed b < s.lastWrite b := fun hun => hid (h.lt_of_unflushed hun)
        rw [hold]
        exact iff_of_false hclean (not_lt.mpr hcare)
    · simpa only [hb, false_and, if_false, update_of_ne hb] using hold
  · by_cases hb : b = id
    · subst hb
      simp only [update_self]
      exact hflush.elim (fun hmem => (h.staged b flush hmem).trans (Nat.le_succ _)) fun heq =>
        heq.le
    · simpa only [update_of_ne hb] using (h.flushed b).trans (Nat.le_succ _)
  · have hmem : t ∈ s.staged b := by
      by_cases hb : b = id
      · subst hb
        simp only [update_self] at ht
        exact List.mem_of_mem_erase ht
      · simpa only [update_of_ne hb] using ht
    exact (h.staged b t hmem).trans (Nat.le_succ _)
  · simpa only [KvDeviceMirror.length_commitFlush] using h.inRange b hb

theorem Tracked.careful_of_commit (h : s.Tracked) {id flush : ℕ} {keys values : List UInt32}
    (hs : s.step (.commitFlush id flush keys values) = some s') (hlost : s'.NothingLost) :
    s.Careful (.commitFlush id flush keys values) := by
  simp only [Mirroring.step] at hs
  split_ifs at hs with hflush
  cases hs
  by_contra hlt
  have hlt : flush < s.lastWrite id := not_le.mp hlt
  have hid : id < s.mirror.states.length :=
    h.inRange id (Nat.ne_of_gt (Nat.zero_lt_of_lt hlt))
  have hrep := hlost id (by simpa only [Unflushed, update_self] using hlt)
  simp [KvDeviceMirror.isDirty_commitFlush, hid] at hrep

theorem Tracked.markEvicted (h : s.Tracked) {id : ℕ} (hs : s.step (.markEvicted id) = some s')
    (hcare : s.Careful (.markEvicted id)) : s'.Tracked := by
  cases hs
  refine ⟨fun b => ?_, fun b => (h.written b).trans (Nat.le_succ _),
    fun b => (h.flushed b).trans (Nat.le_succ _),
    fun b t ht => (h.staged b t ht).trans (Nat.le_succ _), fun b hb => ?_⟩
  · have hold := h.dirty b
    simp only [KvDeviceMirror.isDirty_markEvicted]
    split_ifs with hif
    · obtain ⟨rfl, hid, hhost⟩ := hif
      have hclean : s.mirror.isDirty b = false := by
        rcases hcare with hclean | hnone
        · exact hclean
        · simp [hnone] at hhost
      simp only [hclean, Bool.false_eq_true] at hold
      exact hold
    · exact hold
  · simpa only [KvDeviceMirror.length_markEvicted] using h.inRange b hb

theorem Tracked.careful_of_evict (h : s.Tracked) {id : ℕ}
    (hs : s.step (.markEvicted id) = some s') (hlost : s'.NothingLost) :
    s.Careful (.markEvicted id) := by
  cases hs
  by_contra hcare
  simp only [Careful, not_or, Bool.not_eq_false] at hcare
  obtain ⟨hdirty, hhost⟩ := hcare
  have hun := (h.dirty id).mp hdirty
  have hrep := hlost id hun
  simp [KvDeviceMirror.isDirty_markEvicted, h.lt_of_unflushed hun,
    Option.isSome_iff_ne_none.mpr hhost] at hrep

theorem Tracked.releaseBlock (h : s.Tracked) {id : ℕ}
    (hs : s.step (.releaseBlock id) = some s') : s'.Tracked := by
  cases hs
  refine ⟨fun b => ?_, fun b => ?_, fun b => (h.flushed b).trans (Nat.le_succ _),
    fun b t ht => (h.staged b t ht).trans (Nat.le_succ _), fun b hb => ?_⟩
  · have hold := h.dirty b
    unfold Unflushed at hold ⊢
    simp only [KvDeviceMirror.isDirty_releaseBlock]
    by_cases hb : b = id
    · subst hb
      simp only [update_self, true_and, Nat.not_lt_zero, iff_false]
      split_ifs with hid
      · exact not_false
      · exact fun hd => hid (h.lt_of_unflushed (hold.mp hd))
    · simpa only [hb, false_and, if_false, update_of_ne hb] using hold
  · by_cases hb : b = id
    · subst hb
      simp only [update_self, Nat.zero_le]
    · simpa only [update_of_ne hb] using (h.written b).trans (Nat.le_succ _)
  · by_cases hbid : b = id
    · subst hbid
      simp only [update_self, ne_eq, not_true] at hb
    · simp only [update_of_ne hbid] at hb
      simpa only [KvDeviceMirror.length_releaseBlock] using h.inRange b hb

theorem Tracked.step (h : s.Tracked) (hs : s.step call = some s') (hcare : s.Careful call) :
    s'.Tracked := by
  cases call with
  | markDirty id => exact h.markDirty hs
  | stageFlush id => exact h.stageFlush hs
  | commitFlush id flush keys values => exact h.commitFlush hs hcare
  | markEvicted id => exact h.markEvicted hs hcare
  | releaseBlock id => exact h.releaseBlock hs

theorem Tracked.careful_of_nothingLost (h : s.Tracked) (hs : s.step call = some s')
    (hlost : s'.NothingLost) : s.Careful call := by
  cases call with
  | commitFlush id flush keys values => exact h.careful_of_commit hs hlost
  | markEvicted id => exact h.careful_of_evict hs hlost
  | markDirty id | stageFlush id | releaseBlock id => trivial

/-- Nothing is lost for as long as the calls are careful, and the first call that is not loses a
write. -/
theorem nothingLost_iff_careful {capacity : ℕ} (hr : Reach step Careful (new capacity) s) :
    s.NothingLost ∧ ∀ call s', s.step call = some s' → (s'.NothingLost ↔ s.Careful call) := by
  have htracked : s.Tracked :=
    hr.invariant (tracked_new capacity) fun _ _ _ h hcare hs => h.step hs hcare
  exact ⟨htracked.nothingLost, fun call s' hs =>
    ⟨htracked.careful_of_nothingLost hs, fun hcare => (htracked.step hs hcare).nothingLost⟩⟩

def flushRun : List MirrorCall := [.markDirty 0, .stageFlush 0, .commitFlush 0 2 [1] [2]]

theorem nothingLost_flushRun :
    ∃ s, Reach step Careful (new 2) s ∧ s.NothingLost
      ∧ ∀ call s', s.step call = some s' → (s'.NothingLost ↔ s.Careful call) := by
  have hex : (Steps.exec step Careful (new 2) flushRun).isSome := by decide
  obtain ⟨s, hs⟩ := Option.isSome_iff_exists.mp hex
  have hr := reach_of_exec hs
  exact ⟨s, hr, nothingLost_iff_careful hr⟩

def lateWriteRun : List MirrorCall :=
  [.markDirty 0, .stageFlush 0, .markDirty 0, .commitFlush 0 2 [1] [2]]

def evictedWriteRun : List MirrorCall :=
  [.markDirty 0, .stageFlush 0, .commitFlush 0 2 [1] [2], .markDirty 0, .markEvicted 0]

/-- The run ends with a write of block 0 that is not in the host's copy and no longer reported. -/
def Loses (run : List MirrorCall) : Prop :=
  ∃ s, Steps.exec step (fun _ _ => True) (new 1) run = some s
    ∧ Reach step (fun _ _ => True) (new 1) s
    ∧ s.Unflushed 0 ∧ s.mirror.isDirty 0 = false ∧ ¬ s.NothingLost

theorem loses_of_exec {run : List MirrorCall}
    (h : (Steps.exec step (fun _ _ => True) (new 1) run).any
      (fun s => s.flushed 0 < s.lastWrite 0 && !s.mirror.isDirty 0) = true) : Loses run := by
  rcases hs : Steps.exec step (fun _ _ => True) (new 1) run with - | s
  · simp [hs] at h
  · simp only [hs, Option.any_some, Bool.and_eq_true, decide_eq_true_eq, Bool.not_eq_true'] at h
    exact ⟨s, hs, reach_of_exec hs, h.1, h.2, fun hlost => by simp [hlost 0 h.1] at h⟩

/-- The second write is lost in both. -/
theorem second_write_lost : Loses lateWriteRun ∧ Loses evictedWriteRun :=
  ⟨loses_of_exec (by decide), loses_of_exec (by decide)⟩

end Mirroring

end Grim.Memory
