import Grim.Lib.Steps
import Mathlib.Data.List.AList

/-!
# The caches with a budget of elements

The hidden-state store and the encoder cache keep their entries the same way: an LRU queue of
keys, and a count of the elements allocated.  An insertion that replaces an entry takes the old
length off first, and leaves the entry where the evictions that make room can find it.
-/

namespace Grim.Memory

open List

structure CacheEntry (κ : Type) where
  key : κ
  tokenCount : ℕ
  hiddenDim : ℕ
  data : List UInt32

/-- `underflowed` records that a saturating subtraction was cut off. -/
structure ElementStore (κ : Type) where
  maxElements : ℕ
  currentElements : ℕ
  entries : AList fun _ : κ => CacheEntry κ
  lruQueue : List κ
  underflowed : Bool

namespace ElementStore

variable {κ : Type} [DecidableEq κ]

def new (maxElements : ℕ) : ElementStore κ where
  maxElements := maxElements
  currentElements := 0
  entries := ∅
  lruQueue := []
  underflowed := false

variable (s : ElementStore κ)

def touchLru (key : κ) : ElementStore κ := { s with lruQueue := s.lruQueue.erase key ++ [key] }

def get (key : κ) : ElementStore κ × Option (CacheEntry κ) :=
  if (s.entries.lookup key).isSome then (s.touchLru key, s.entries.lookup key) else (s, none)

def reclaim (key : κ) : ElementStore κ :=
  match s.entries.lookup key with
  | some removed =>
    { s with
      entries := s.entries.erase key
      currentElements := s.currentElements - removed.data.length
      underflowed := s.underflowed || decide (s.currentElements < removed.data.length) }
  | none => s

def removeKey (key : κ) : ElementStore κ :=
  { s.reclaim key with lruQueue := (s.reclaim key).lruQueue.erase key }

/-- Keys are popped until there is room; the fuel is the length of the queue. -/
def makeRoom (evict : ElementStore κ → κ → ElementStore κ) (req : ℕ) :
    ℕ → ElementStore κ → ElementStore κ
  | 0, s => s
  | fuel + 1, s =>
    if s.maxElements < s.currentElements + req then
      match s.lruQueue with
      | [] => s
      | key :: queue => makeRoom evict req fuel (evict { s with lruQueue := queue } key)
    else s

/-- `none` is a subtraction below zero. -/
def replacing (key : κ) : Option (ElementStore κ) :=
  match s.entries.lookup key with
  | some old =>
    if old.data.length ≤ s.currentElements then
      some { s with currentElements := s.currentElements - old.data.length }
    else none
  | none => some s

def put (entry : CacheEntry κ) : ElementStore κ :=
  { s with
    currentElements := s.currentElements + entry.data.length
    entries := s.entries.insert entry.key entry }.touchLru entry.key

def insert (evict : ElementStore κ → κ → ElementStore κ) (describe : ℕ → ℕ → String)
    (entry : CacheEntry κ) : Option (ElementStore κ × Except String Unit) :=
  if s.maxElements < entry.data.length then
    some (s, .error (describe entry.data.length s.maxElements))
  else
    (s.replacing entry.key).map fun s =>
      ((makeRoom evict entry.data.length s.lruQueue.length s).put entry, .ok ())

end ElementStore

structure HiddenStateKey where
  chunkHash : UInt64
  layerIdx : ℕ
deriving DecidableEq

structure HiddenStateStore extends ElementStore HiddenStateKey where
  validKvChunks : UInt64 → Option ℕ

namespace HiddenStateStore

def new (maxElements : ℕ) : HiddenStateStore where
  toElementStore := .new maxElements
  validKvChunks _ := none

variable (s : HiddenStateStore)

def retainKvChunk (chunkHash : UInt64) : HiddenStateStore :=
  { s with validKvChunks :=
      Function.update s.validKvChunks chunkHash (some ((s.validKvChunks chunkHash).getD 0 + 1)) }

/-- The layers' hidden states go with the last hold on the chunk. -/
def evictKvChunk (chunkHash : UInt64) : HiddenStateStore :=
  let dropped : HiddenStateStore :=
    { toElementStore := (s.entries.keys.filter fun k => k.chunkHash = chunkHash).foldl
        ElementStore.removeKey s.toElementStore
      validKvChunks := Function.update s.validKvChunks chunkHash none }
  match s.validKvChunks chunkHash with
  | some count =>
    if 1 < count then
      { s with validKvChunks := Function.update s.validKvChunks chunkHash (some (count - 1)) }
    else dropped
  | none => dropped

def insertChunk (chunkHash : UInt64) (layerIdx tokenCount hiddenDim : ℕ) (data : List UInt32) :
    Option (HiddenStateStore × Except String Unit) :=
  (s.toElementStore.insert ElementStore.removeKey
    (fun req cap => s!"Hidden state chunk size {req} exceeds maximum capacity {cap}")
    ⟨⟨chunkHash, layerIdx⟩, tokenCount, hiddenDim, data⟩).map fun r =>
      ({ s with toElementStore := r.1 }, r.2)

def getChunk (chunkHash : UInt64) (layerIdx : ℕ) :
    HiddenStateStore × Option (CacheEntry HiddenStateKey) :=
  ({ s with toElementStore := (s.toElementStore.get ⟨chunkHash, layerIdx⟩).1 },
    (s.toElementStore.get ⟨chunkHash, layerIdx⟩).2)

end HiddenStateStore

structure EncoderKey where
  mediaHash : UInt64
  modality : String
deriving DecidableEq

abbrev EncoderCache : Type := ElementStore EncoderKey

namespace EncoderCache

def insert (s : EncoderCache) (mediaHash : UInt64) (modality : String) (numTokens hiddenDim : ℕ)
    (data : List UInt32) : Option (EncoderCache × Except String Unit) :=
  ElementStore.insert s ElementStore.reclaim
    (fun req cap => s!"Encoder embedding size {req} exceeds max capacity {cap}")
    ⟨⟨mediaHash, modality⟩, numTokens, hiddenDim, data⟩

def get (s : EncoderCache) (mediaHash : UInt64) (modality : String) :
    EncoderCache × Option (CacheEntry EncoderKey) :=
  ElementStore.get s ⟨mediaHash, modality⟩

end EncoderCache

namespace ElementStore

variable {κ : Type} [DecidableEq κ] {s : ElementStore κ} {key k : κ}

def total (entries : AList fun _ : κ => CacheEntry κ) : ℕ :=
  (entries.entries.map fun e => e.2.data.length).sum

def lengthOf (entries : AList fun _ : κ => CacheEntry κ) (key : κ) : ℕ :=
  ((entries.lookup key).map fun e => e.data.length).getD 0

variable {entries : AList fun _ : κ => CacheEntry κ}

theorem total_keys : (entries.keys.map (lengthOf entries)).sum = total entries := by
  unfold total AList.keys List.keys
  rw [map_map]
  refine congrArg List.sum (map_congr_left fun e he => ?_)
  have hl : entries.lookup e.1 = some e.2 := AList.mem_lookup_iff.mpr he
  simp [lengthOf, hl]

@[simp]
theorem lengthOf_erase_self : lengthOf (entries.erase key) key = 0 := by
  simp [lengthOf]

theorem lengthOf_erase_of_ne (h : k ≠ key) :
    lengthOf (entries.erase key) k = lengthOf entries k := by
  simp [lengthOf, AList.lookup_erase_ne h]

theorem lengthOf_of_lookup {e : CacheEntry κ} (h : entries.lookup key = some e) :
    lengthOf entries key = e.data.length := by
  simp [lengthOf, h]

theorem total_erase_queue {queue : List κ} (h : queue.Perm entries.keys) :
    total (entries.erase key) = ((queue.erase key).map (lengthOf entries)).sum := by
  have hperm : (queue.erase key).Perm (entries.erase key).keys := by
    rw [AList.keys_erase]
    exact h.erase key
  rw [← total_keys, ← (hperm.map _).sum_eq]
  refine congrArg List.sum (map_congr_left fun k hk => lengthOf_erase_of_ne ?_)
  rintro rfl
  exact (h.nodup_iff.mpr entries.keys_nodup).not_mem_erase hk

theorem total_erase : total (entries.erase key) + lengthOf entries key = total entries := by
  rw [total_erase_queue (List.Perm.refl _), ← total_keys]
  by_cases hk : key ∈ entries.keys
  · rw [((perm_cons_erase hk).map _).sum_eq, map_cons, sum_cons, Nat.add_comm]
  · have hnone : entries.lookup key = none := AList.lookup_eq_none.mpr hk
    rw [erase_of_not_mem hk]
    simp [lengthOf, hnone]

theorem total_insert (e : CacheEntry κ) :
    total (entries.insert key e) = total (entries.erase key) + e.data.length := by
  unfold total
  rw [AList.entries_insert, map_cons, sum_cons, Nat.add_comm]
  rfl

theorem total_erase_erase_self :
    total ((entries.erase key).erase key) = total (entries.erase key) := by
  have h : total ((entries.erase key).erase key) + lengthOf (entries.erase key) key
      = total (entries.erase key) := total_erase
  rwa [lengthOf_erase_self, Nat.add_zero] at h

theorem total_erase_erase_of_ne (h : k ≠ key) :
    total ((entries.erase k).erase key) + lengthOf entries k = total (entries.erase key) := by
  rw [AList.erase_erase, ← lengthOf_erase_of_ne h]
  exact total_erase

/-- The entries after `key` in the queue. -/
def younger (key : κ) : List κ → List κ
  | [] => []
  | k :: queue => if k = key then queue else younger key queue

theorem younger_sublist : ∀ queue : List κ, (younger key queue).Sublist (queue.erase key)
  | [] => List.Sublist.refl _
  | k :: queue => by
    rw [younger]
    split_ifs with hk
    · rw [hk, erase_cons_head]
    · rw [erase_cons_tail (by simpa using hk)]
      exact (younger_sublist queue).cons k

/-- The books of the other entries balance: those of `key` have been taken off. -/
structure Apart (s : ElementStore κ) (key : κ) : Prop where
  listed : s.lruQueue.Perm s.entries.keys
  allocated : s.currentElements = total (s.entries.erase key)
  sound : s.underflowed = false

/-- More was given back than was held, `key` aside. -/
def Behind (s : ElementStore κ) (key : κ) : Prop :=
  s.underflowed = true ∨ s.currentElements < total (s.entries.erase key)

/-- The entry under `key` is empty, or survives until there is room. -/
def Survives (s : ElementStore κ) (key : κ) (req : ℕ) : Prop :=
  lengthOf s.entries key = 0
    ∨ ((younger key s.lruQueue).map (lengthOf s.entries)).sum + req ≤ s.maxElements

instance (s : ElementStore κ) (key : κ) (req : ℕ) : Decidable (s.Survives key req) :=
  inferInstanceAs (Decidable (_ ∨ _))

theorem Apart.nodup (h : s.Apart key) : s.lruQueue.Nodup :=
    h.listed.nodup_iff.mpr s.entries.keys_nodup

variable {queue : List κ}

theorem Apart.front (h : s.Apart key) (hq : s.lruQueue = k :: queue) :
    ∃ e, s.entries.lookup k = some e ∧ lengthOf s.entries k = e.data.length
      ∧ queue.Perm (s.entries.erase k).keys := by
  have hperm := h.listed
  rw [hq] at hperm
  have hk : k ∈ s.entries := AList.mem_keys.mpr (hperm.subset mem_cons_self)
  obtain ⟨e, he⟩ := Option.isSome_iff_exists.mp (AList.lookup_isSome.mpr hk)
  refine ⟨e, he, lengthOf_of_lookup he, ?_⟩
  have herase := hperm.erase k
  rwa [erase_cons_head, ← AList.keys_erase] at herase

theorem Apart.pop (h : s.Apart key) (hq : s.lruQueue = k :: queue)
    (hk : k = key → lengthOf s.entries key = 0) :
    ({ s with lruQueue := queue }.reclaim k).Apart key := by
  obtain ⟨e, he, hlen, hperm⟩ := h.front hq
  have hle : total ((s.entries.erase k).erase key) + e.data.length
      = total (s.entries.erase key) := by
    by_cases hkey : k = key
    · subst hkey
      rw [total_erase_erase_self, ← hlen, hk rfl, Nat.add_zero]
    · rw [← hlen, total_erase_erase_of_ne hkey]
  have hall := h.allocated
  unfold ElementStore.reclaim
  simp only [he]
  refine ⟨hperm, ?_, ?_⟩
  · dsimp only
    omega
  · simp only [h.sound, Bool.false_or, decide_eq_false_iff_not]
    omega

theorem Apart.pop_behind (h : s.Apart key) (hq : s.lruQueue = key :: queue)
    (hlen : lengthOf s.entries key ≠ 0) :
    ({ s with lruQueue := queue }.reclaim key).Behind key := by
  obtain ⟨e, he, heq, -⟩ := h.front hq
  have hall := h.allocated
  unfold ElementStore.reclaim Behind
  simp only [he, Bool.or_eq_true, decide_eq_true_eq, total_erase_erase_self]
  omega

theorem Behind.pop (h : s.Behind key) : ({ s with lruQueue := queue }.reclaim k).Behind key := by
  unfold ElementStore.reclaim
  dsimp only
  rcases he : s.entries.lookup k with - | e
  · exact h
  · have hlen := lengthOf_of_lookup he
    rcases h with hcut | hlt
    · exact .inl (by simp [hcut])
    · unfold Behind
      simp only [Bool.or_eq_true, decide_eq_true_eq]
      by_cases hcut : s.currentElements < e.data.length
      · exact .inl (.inr hcut)
      · refine .inr ?_
        by_cases hkey : k = key
        · subst hkey
          rw [total_erase_erase_self]
          omega
        · have heq : total ((s.entries.erase k).erase key) + lengthOf s.entries k
              = total (s.entries.erase key) := total_erase_erase_of_ne hkey
          omega

/-! ### The loop -/

/-- The two caches evict the same way: the popped key is in the queue no more. -/
def Evicts (evict : ElementStore κ → κ → ElementStore κ) : Prop :=
  ∀ s k, k ∉ s.lruQueue → evict s k = s.reclaim k

theorem evicts_reclaim : Evicts (κ := κ) reclaim := fun _ _ _ => rfl

@[simp]
theorem lruQueue_reclaim : (s.reclaim k).lruQueue = s.lruQueue := by
  unfold ElementStore.reclaim
  split <;> rfl

@[simp]
theorem maxElements_reclaim : (s.reclaim k).maxElements = s.maxElements := by
  unfold ElementStore.reclaim
  split <;> rfl

@[simp]
theorem entries_reclaim : (s.reclaim k).entries = s.entries.erase k := by
  unfold ElementStore.reclaim
  rcases he : s.entries.lookup k with - | e
  · exact AList.ext (kerase_of_notMem_keys (AList.lookup_eq_none.mp he)).symm
  · rfl

theorem evicts_removeKey : Evicts (κ := κ) removeKey := by
  intro s k hk
  unfold ElementStore.removeKey
  rw [lruQueue_reclaim, erase_of_not_mem hk, ← lruQueue_reclaim (s := s) (k := k)]

variable {evict : ElementStore κ → κ → ElementStore κ} {req : ℕ}

omit [DecidableEq κ] in
theorem makeRoom_of_le (hroom : s.currentElements + req ≤ s.maxElements) (fuel : ℕ) :
    makeRoom evict req fuel s = s := by
  cases fuel with
  | zero => rfl
  | succ fuel => rw [makeRoom, if_neg (not_lt.mpr hroom)]

theorem makeRoom_pop (he : Evicts evict) (hfull : s.maxElements < s.currentElements + req)
    (hq : s.lruQueue = k :: queue) (hnd : s.lruQueue.Nodup) (fuel : ℕ) :
    makeRoom evict req (fuel + 1) s
      = makeRoom evict req fuel ({ s with lruQueue := queue }.reclaim k) := by
  rw [hq] at hnd
  rw [makeRoom, if_pos hfull, hq]
  exact congrArg (makeRoom evict req fuel) (he _ _ (nodup_cons.mp hnd).1)

theorem Apart.eq_zero_of_nil (h : s.Apart key) (hq : s.lruQueue = []) : s.currentElements = 0 := by
  rw [h.allocated, total_erase_queue h.listed, hq]
  rfl

theorem survives_pop (h : s.Apart key) (hq : s.lruQueue = k :: queue) (hk : k ≠ key) :
    ({ s with lruQueue := queue }.reclaim k).Survives key req ↔ s.Survives key req := by
  have hnd := h.nodup
  rw [hq] at hnd
  have hsame : (younger key queue).map (lengthOf (s.entries.erase k))
      = (younger key queue).map (lengthOf s.entries) := by
    refine map_congr_left fun b hb => lengthOf_erase_of_ne ?_
    rintro rfl
    exact (nodup_cons.mp hnd).1
      (mem_of_mem_erase ((younger_sublist queue).subset hb))
  unfold Survives
  rw [entries_reclaim, lruQueue_reclaim, maxElements_reclaim, hsame,
    lengthOf_erase_of_ne (Ne.symm hk), hq,
    younger, if_neg hk]

theorem Apart.younger_le (h : s.Apart key) :
    ((younger key s.lruQueue).map (lengthOf s.entries)).sum ≤ s.currentElements := by
  rw [h.allocated, total_erase_queue h.listed]
  exact ((younger_sublist s.lruQueue).map _).sum_le_sum fun _ _ => Nat.zero_le _

theorem Apart.makeRoom (he : Evicts evict) : ∀ (fuel : ℕ) {s : ElementStore κ}, s.Apart key →
    s.lruQueue.length ≤ fuel → req ≤ s.maxElements → s.Survives key req →
    (makeRoom evict req fuel s).Apart key
      ∧ (makeRoom evict req fuel s).currentElements + req ≤ s.maxElements
      ∧ (makeRoom evict req fuel s).maxElements = s.maxElements
  | fuel, s, h, hlen, hreq, hs => by
    by_cases hroom : s.currentElements + req ≤ s.maxElements
    · rw [makeRoom_of_le hroom]
      exact ⟨h, hroom, rfl⟩
    rcases hq : s.lruQueue with - | ⟨k, queue⟩
    · have := h.eq_zero_of_nil hq
      omega
    rw [hq, length_cons] at hlen
    obtain ⟨fuel, rfl⟩ : ∃ n, fuel = n + 1 := ⟨fuel - 1, by omega⟩
    rw [makeRoom_pop he (not_le.mp hroom) hq h.nodup]
    have hempty : k = key → lengthOf s.entries key = 0 := by
      rintro rfl
      refine hs.resolve_right fun hyoung => hroom ?_
      rw [h.allocated, total_erase_queue h.listed, hq, erase_cons_head]
      rwa [hq, younger, if_pos rfl] at hyoung
    have hpop := h.pop hq hempty
    have hsurv : ({ s with lruQueue := queue }.reclaim k).Survives key req := by
      by_cases hk : k = key
      · subst hk
        exact .inl (by rw [entries_reclaim, lengthOf_erase_self])
      · exact (survives_pop h hq hk).mpr hs
    have := Apart.makeRoom he fuel hpop (by simpa using hlen) (by simpa using hreq) hsurv
    simpa using this

theorem Behind.makeRoom (he : Evicts evict) : ∀ (fuel : ℕ) {s : ElementStore κ}, s.Behind key →
    s.lruQueue.Nodup → (makeRoom evict req fuel s).Behind key
  | 0, _, h, _ => h
  | fuel + 1, s, h, hnd => by
    by_cases hroom : s.currentElements + req ≤ s.maxElements
    · rwa [makeRoom_of_le hroom]
    rcases hq : s.lruQueue with - | ⟨k, queue⟩
    · rw [ElementStore.makeRoom, if_pos (not_le.mp hroom), hq]
      exact h
    rw [makeRoom_pop he (not_le.mp hroom) hq hnd]
    rw [hq] at hnd
    exact Behind.makeRoom he fuel h.pop (by simpa using (nodup_cons.mp hnd).2)

theorem Apart.makeRoom_behind (he : Evicts evict) : ∀ (fuel : ℕ) {s : ElementStore κ},
    s.Apart key → s.lruQueue.length ≤ fuel → ¬ s.Survives key req →
    (ElementStore.makeRoom evict req fuel s).Behind key
  | fuel, s, h, hlen, hs => by
    have hyoung := h.younger_le
    have hs' := hs
    simp only [Survives, not_or, not_le] at hs'
    have hroom : s.maxElements < s.currentElements + req := by omega
    rcases hq : s.lruQueue with - | ⟨k, queue⟩
    · have hnil : s.entries.keys = [] := by
        have := h.listed
        rw [hq] at this
        exact nil_perm.mp this
      have hnone : s.entries.lookup key = none :=
        AList.lookup_eq_none.mpr fun hmem => by simp [AList.mem_keys, hnil] at hmem
      exact absurd (by simp [lengthOf, hnone]) hs'.1
    rw [hq, length_cons] at hlen
    obtain ⟨fuel, rfl⟩ : ∃ n, fuel = n + 1 := ⟨fuel - 1, by omega⟩
    rw [makeRoom_pop he hroom hq h.nodup]
    by_cases hk : k = key
    · subst hk
      have hnd := h.nodup
      rw [hq] at hnd
      exact (h.pop_behind hq hs'.1).makeRoom he fuel
        (by simpa using (nodup_cons.mp hnd).2)
    · exact Apart.makeRoom_behind he fuel (h.pop hq fun heq => absurd heq hk) (by simpa using hlen)
        fun hsurv => hs ((survives_pop h hq hk).mp hsurv)

/-- The count is that of the entries held and within the budget, the queue lists each of them once,
and no subtraction was cut off. -/
structure Exact (s : ElementStore κ) : Prop where
  listed : s.lruQueue.Perm s.entries.keys
  allocated : s.currentElements = total s.entries
  budget : s.currentElements ≤ s.maxElements
  sound : s.underflowed = false

omit [DecidableEq κ] in
theorem exact_new (maxElements : ℕ) : (new maxElements : ElementStore κ).Exact where
  listed := List.Perm.refl _
  allocated := rfl
  budget := Nat.zero_le _
  sound := rfl

theorem touch_perm {queue : List κ} (hk : key ∈ queue) :
    (queue.erase key ++ [key]).Perm queue :=
  (perm_append_singleton key _).trans (perm_cons_erase hk).symm

theorem Exact.get (h : s.Exact) (key : κ) : (s.get key).1.Exact := by
  unfold ElementStore.get
  split_ifs with hk
  · have hmem : key ∈ s.lruQueue :=
      h.listed.symm.subset (AList.mem_keys.mp (AList.lookup_isSome.mp hk))
    exact ⟨(touch_perm hmem).trans h.listed, h.allocated, h.budget, h.sound⟩
  · exact h

theorem Exact.removeKey (h : s.Exact) (key : κ) : (s.removeKey key).Exact := by
  have hsum : total (s.entries.erase key) + lengthOf s.entries key = total s.entries := total_erase
  have hall := h.allocated
  refine ⟨?_, ?_, ?_, ?_⟩
  · unfold ElementStore.removeKey
    rw [lruQueue_reclaim, entries_reclaim, AList.keys_erase]
    exact h.listed.erase key
  all_goals
    unfold ElementStore.removeKey ElementStore.reclaim
    rcases he : s.entries.lookup key with - | e
  · exact h.allocated
  · have := lengthOf_of_lookup he
    dsimp only
    omega
  · exact h.budget
  · exact (Nat.sub_le _ _).trans h.budget
  · exact h.sound
  · have := lengthOf_of_lookup he
    simp only [h.sound, Bool.false_or, decide_eq_false_iff_not]
    omega

theorem Exact.replacing (h : s.Exact) (key : κ) :
    ∃ s', s.replacing key = some s' ∧ s'.Apart key ∧ s'.entries = s.entries
      ∧ s'.lruQueue = s.lruQueue ∧ s'.maxElements = s.maxElements := by
  have hsum : total (s.entries.erase key) + lengthOf s.entries key = total s.entries := total_erase
  have hall := h.allocated
  unfold ElementStore.replacing
  rcases he : s.entries.lookup key with - | e
  · have hzero : lengthOf s.entries key = 0 := by simp [lengthOf, he]
    exact ⟨s, rfl, ⟨h.listed, by omega, h.sound⟩, rfl, rfl, rfl⟩
  · have hlen := lengthOf_of_lookup he
    have hle : e.data.length ≤ s.currentElements := by omega
    exact ⟨_, if_pos hle, ⟨h.listed, by dsimp only; omega, h.sound⟩, rfl, rfl, rfl⟩

theorem Apart.put {entry : CacheEntry κ} (h : s.Apart entry.key)
    (hroom : s.currentElements + entry.data.length ≤ s.maxElements) : (s.put entry).Exact where
  listed := by
    show (s.lruQueue.erase entry.key ++ [entry.key]).Perm (s.entries.insert entry.key entry).keys
    rw [AList.keys_insert]
    exact (perm_append_singleton _ _).trans ((h.listed.erase _).cons _)
  allocated := by
    show s.currentElements + _ = total (s.entries.insert entry.key entry)
    rw [total_insert, h.allocated]
  budget := hroom
  sound := h.sound

theorem Behind.put {entry : CacheEntry κ} (h : s.Behind entry.key) : ¬ (s.put entry).Exact := by
  intro hex
  have hall : s.currentElements + _ = total (s.entries.insert entry.key entry) := hex.allocated
  have hsound : s.underflowed = false := hex.sound
  rw [total_insert] at hall
  rcases h with hcut | hlt
  · exact Bool.false_ne_true (hsound.symm.trans hcut)
  · omega

theorem Exact.insert (h : s.Exact) (he : Evicts evict) (describe : ℕ → ℕ → String)
    (entry : CacheEntry κ) :
    ∃ r, s.insert evict describe entry = some r
      ∧ (r.1.Exact ↔ (entry.data.length ≤ s.maxElements →
        s.Survives entry.key entry.data.length)) := by
  unfold ElementStore.insert
  split_ifs with hbig
  · exact ⟨_, rfl, iff_of_true h fun hle => absurd hbig (not_lt.mpr hle)⟩
  obtain ⟨s', hs', hapart, hent, hq, hmax⟩ := h.replacing entry.key
  have hreq : entry.data.length ≤ s'.maxElements := hmax ▸ not_lt.mp hbig
  have hsame : s'.Survives entry.key entry.data.length
      ↔ s.Survives entry.key entry.data.length := by
    unfold Survives
    rw [hent, hq, hmax]
  rw [hs']
  refine ⟨_, rfl, fun hex _ => ?_, fun hsurv => ?_⟩
  · rw [← hsame]
    by_contra hs
    exact (hapart.makeRoom_behind he _ le_rfl hs).put hex
  · obtain ⟨hr, hroom, hmaxr⟩ :=
      hapart.makeRoom he _ le_rfl hreq (hsame.mpr (hsurv (not_lt.mp hbig)))
    exact hr.put (hmaxr ▸ hroom)

end ElementStore

open Steps (Reach reach_of_exec)

namespace HiddenStateStore

inductive Call
  | insertChunk (chunkHash : UInt64) (layerIdx tokenCount hiddenDim : ℕ) (data : List UInt32)
  | getChunk (chunkHash : UInt64) (layerIdx : ℕ)
  | removeKey (key : HiddenStateKey)
  | retainKvChunk (chunkHash : UInt64)
  | evictKvChunk (chunkHash : UInt64)

def step (s : HiddenStateStore) : Call → Option HiddenStateStore
  | .insertChunk chunkHash layerIdx tokenCount hiddenDim data =>
    (s.insertChunk chunkHash layerIdx tokenCount hiddenDim data).map Prod.fst
  | .getChunk chunkHash layerIdx => some (s.getChunk chunkHash layerIdx).1
  | .removeKey key => some { s with toElementStore := s.toElementStore.removeKey key }
  | .retainKvChunk chunkHash => some (s.retainKvChunk chunkHash)
  | .evictKvChunk chunkHash => some (s.evictKvChunk chunkHash)

/-- An insertion that replaces an entry leaves it room until it is overwritten. -/
def Careful (s : HiddenStateStore) : Call → Prop
  | .insertChunk chunkHash layerIdx _ _ data =>
    data.length ≤ s.maxElements → s.toElementStore.Survives ⟨chunkHash, layerIdx⟩ data.length
  | _ => True

instance (s : HiddenStateStore) (call : Call) : Decidable (s.Careful call) :=
  match call with
  | .insertChunk _ _ _ _ _ => inferInstanceAs (Decidable (_ → _))
  | .getChunk _ _ | .removeKey _ | .retainKvChunk _ | .evictKvChunk _ =>
    inferInstanceAs (Decidable True)

theorem exact_foldl_removeKey (keys : List HiddenStateKey) {s : ElementStore HiddenStateKey}
    (h : s.Exact) : (keys.foldl ElementStore.removeKey s).Exact := by
  induction keys generalizing s with
  | nil => exact h
  | cons key keys ih => exact ih (h.removeKey key)

theorem exact_step {s : HiddenStateStore} (h : s.Exact) (call : Call) :
    ∃ s', s.step call = some s' ∧ (s'.Exact ↔ s.Careful call) := by
  cases call with
  | insertChunk chunkHash layerIdx tokenCount hiddenDim data =>
    obtain ⟨r, hr, hiff⟩ := h.insert ElementStore.evicts_removeKey
      (fun req cap => s!"Hidden state chunk size {req} exceeds maximum capacity {cap}")
      ⟨⟨chunkHash, layerIdx⟩, tokenCount, hiddenDim, data⟩
    exact ⟨{ s with toElementStore := r.1 }, by rw [step, insertChunk, hr]; rfl, hiff⟩
  | getChunk chunkHash layerIdx => exact ⟨_, rfl, iff_of_true (h.get _) trivial⟩
  | removeKey key => exact ⟨_, rfl, iff_of_true (h.removeKey key) trivial⟩
  | retainKvChunk chunkHash => exact ⟨_, rfl, iff_of_true h trivial⟩
  | evictKvChunk chunkHash =>
    refine ⟨_, rfl, iff_of_true ?_ trivial⟩
    unfold evictKvChunk
    split
    · split_ifs
      · exact h
      · exact exact_foldl_removeKey _ h
    · exact exact_foldl_removeKey _ h

end HiddenStateStore

namespace EncoderCache

inductive Call
  | insert (mediaHash : UInt64) (modality : String) (numTokens hiddenDim : ℕ) (data : List UInt32)
  | get (mediaHash : UInt64) (modality : String)

def step (s : EncoderCache) : Call → Option EncoderCache
  | .insert mediaHash modality numTokens hiddenDim data =>
    (EncoderCache.insert s mediaHash modality numTokens hiddenDim data).map Prod.fst
  | .get mediaHash modality => some (EncoderCache.get s mediaHash modality).1

/-- An insertion that replaces an entry leaves it room until it is overwritten. -/
def Careful (s : EncoderCache) : Call → Prop
  | .insert mediaHash modality _ _ data =>
    data.length ≤ s.maxElements → s.Survives ⟨mediaHash, modality⟩ data.length
  | .get _ _ => True

instance (s : EncoderCache) (call : Call) : Decidable (Careful s call) :=
  match call with
  | .insert _ _ _ _ _ => inferInstanceAs (Decidable (_ → _))
  | .get _ _ => inferInstanceAs (Decidable True)

theorem exact_step {s : EncoderCache} (h : s.Exact) (call : Call) :
    ∃ s', step s call = some s' ∧ (s'.Exact ↔ Careful s call) := by
  cases call with
  | insert mediaHash modality numTokens hiddenDim data =>
    obtain ⟨r, hr, hiff⟩ := h.insert ElementStore.evicts_reclaim
      (fun req cap => s!"Encoder embedding size {req} exceeds max capacity {cap}")
      ⟨⟨mediaHash, modality⟩, numTokens, hiddenDim, data⟩
    exact ⟨r.1, by rw [step, EncoderCache.insert, hr]; rfl, hiff⟩
  | get mediaHash modality => exact ⟨_, rfl, iff_of_true (h.get _) trivial⟩

end EncoderCache

/-- Both caches keep their count exact for as long as no replaced entry is evicted, and the first
insertion that evicts one breaks it; no call panics. -/
theorem elementCaches_exact (maxElements : ℕ) :
    (∀ s, Reach HiddenStateStore.step HiddenStateStore.Careful (.new maxElements) s →
      s.Exact ∧ ∀ call, ∃ s', s.step call = some s' ∧ (s'.Exact ↔ s.Careful call))
    ∧ ∀ s, Reach EncoderCache.step EncoderCache.Careful (ElementStore.new maxElements) s →
      s.Exact ∧ ∀ call, ∃ s', EncoderCache.step s call = some s'
        ∧ (s'.Exact ↔ EncoderCache.Careful s call) := by
  constructor
  · intro s hr
    have h : s.Exact := hr.invariant (I := fun s => s.Exact) (ElementStore.exact_new maxElements)
      fun s call s' h hcare hs => by
        obtain ⟨t, ht, hiff⟩ := HiddenStateStore.exact_step h call
        cases ht.symm.trans hs
        exact hiff.mpr hcare
    exact ⟨h, HiddenStateStore.exact_step h⟩
  · intro s hr
    have h : s.Exact := hr.invariant (I := fun s => s.Exact) (ElementStore.exact_new maxElements)
      fun s call s' h hcare hs => by
        obtain ⟨t, ht, hiff⟩ := EncoderCache.exact_step h call
        cases ht.symm.trans hs
        exact hiff.mpr hcare
    exact ⟨h, EncoderCache.exact_step h⟩

/-- Two entries of four elements, and one replaced by one of six, with a budget of ten. -/
def replaceHidden : List HiddenStateStore.Call :=
  [.insertChunk 0 0 2 2 [0, 0, 0, 0], .insertChunk 1 0 2 2 [0, 0, 0, 0],
    .insertChunk 0 0 3 2 [0, 0, 0, 0, 0, 0]]

def replaceEmbedding : List EncoderCache.Call :=
  [.insert 0 "vision" 2 2 [0, 0, 0, 0], .insert 1 "vision" 2 2 [0, 0, 0, 0],
    .insert 0 "vision" 3 2 [0, 0, 0, 0, 0, 0]]

theorem elementCaches_exact_ten :
    (∃ s, Reach HiddenStateStore.step HiddenStateStore.Careful (.new 10) s ∧ s.Exact)
      ∧ ∃ s, Reach EncoderCache.step EncoderCache.Careful (ElementStore.new 10) s ∧ s.Exact := by
  have hh : (Steps.exec HiddenStateStore.step HiddenStateStore.Careful (.new 10)
      replaceHidden).isSome := by decide
  have he : (Steps.exec EncoderCache.step EncoderCache.Careful (ElementStore.new 10)
      replaceEmbedding).isSome := by decide
  obtain ⟨s, hs⟩ := Option.isSome_iff_exists.mp hh
  obtain ⟨t, ht⟩ := Option.isSome_iff_exists.mp he
  exact ⟨⟨s, reach_of_exec hs, ((elementCaches_exact 10).1 s (reach_of_exec hs)).1⟩,
    t, reach_of_exec ht, ((elementCaches_exact 10).2 t (reach_of_exec ht)).1⟩

def replaceHiddenLarger : List HiddenStateStore.Call :=
  [.insertChunk 0 0 2 2 [0, 0, 0, 0], .insertChunk 1 0 2 2 [0, 0, 0, 0],
    .insertChunk 0 0 4 2 [0, 0, 0, 0, 0, 0, 0, 0]]

def replaceEmbeddingLarger : List EncoderCache.Call :=
  [.insert 0 "vision" 2 2 [0, 0, 0, 0], .insert 1 "vision" 2 2 [0, 0, 0, 0],
    .insert 0 "vision" 4 2 [0, 0, 0, 0, 0, 0, 0, 0]]

/-- Replaced by eight elements, the entry is evicted to make room for itself: twelve elements are
held, and eight counted. -/
theorem replaced_entry_counted_twice :
    (∃ s, Reach HiddenStateStore.step (fun _ _ => True) (.new 10) s
        ∧ s.currentElements = 8 ∧ ElementStore.total s.entries = 12 ∧ ¬ s.Exact)
      ∧ ∃ s, Reach EncoderCache.step (fun _ _ => True) (ElementStore.new 10) s
        ∧ s.currentElements = 8 ∧ ElementStore.total s.entries = 12 ∧ ¬ s.Exact := by
  have hh : (Steps.exec HiddenStateStore.step (fun _ _ => True) (.new 10)
      replaceHiddenLarger).map (fun s => (s.currentElements, ElementStore.total s.entries))
      = some (8, 12) := by decide
  have he : (Steps.exec EncoderCache.step (fun _ _ => True) (ElementStore.new 10)
      replaceEmbeddingLarger).map (fun s => (s.currentElements, ElementStore.total s.entries))
      = some (8, 12) := by decide
  obtain ⟨s, hs, hsum⟩ := Option.map_eq_some_iff.mp hh
  obtain ⟨t, ht, htsum⟩ := Option.map_eq_some_iff.mp he
  simp only [Prod.mk.injEq] at hsum htsum
  exact ⟨⟨s, reach_of_exec hs, hsum.1, hsum.2, fun h => by have := h.allocated; omega⟩,
    t, reach_of_exec ht, htsum.1, htsum.2, fun h => by have := h.allocated; omega⟩

end Grim.Memory
