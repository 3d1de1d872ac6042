import Grim.Lib.Steps

/-!
# The residency of expert weights

The tracker's clock wraps, so its times tell the order of two uses only modulo 2⁶⁴.  A run keeps
the order itself: `ticks` counts the uses, and `last` is the number of a key's last one.
-/

namespace Grim.Memory

open List Option
open Function (update update_self update_of_ne)

open Steps (Reach reach_of_exec)

/-- A slot holds a layer, an expert and the time of the last access. -/
structure LruResidencyTracker where
  capacity : ℕ
  slots : List (Option (ℕ × ℕ × UInt64))
  keyToSlot : ℕ × ℕ → Option ℕ
  clock : UInt64
  length_slots : slots.length = capacity

namespace LruResidencyTracker

def new (capacity : ℕ) : LruResidencyTracker where
  capacity := capacity
  slots := List.replicate capacity none
  keyToSlot _ := none
  clock := 0
  length_slots := length_replicate

variable (t : LruResidencyTracker)

/-- `none` is a slot out of range. -/
def lookup (layer expert : ℕ) : Option (LruResidencyTracker × Option ℕ) :=
  match t.keyToSlot (layer, expert) with
  | none => some (t, none)
  | some slot => t.slots[slot]?.map fun entry =>
      ({ t with
          slots := t.slots.set slot (entry.map fun e => (e.1, e.2.1, t.clock + 1))
          clock := t.clock + 1
          length_slots := by rw [length_set, t.length_slots] }, some slot)

/-- The scan for the oldest entry: `slot` is the first of the entries left. -/
def scanOldest : List (Option (ℕ × ℕ × UInt64)) → ℕ → ℕ → UInt64 → ℕ
  | [], _, oldestSlot, _ => oldestSlot
  | none :: entries, slot, oldestSlot, oldestTime =>
    scanOldest entries (slot + 1) oldestSlot oldestTime
  | some (_, _, time) :: entries, slot, oldestSlot, oldestTime =>
    if time < oldestTime then scanOldest entries (slot + 1) slot time
    else scanOldest entries (slot + 1) oldestSlot oldestTime

def oldestSlot : ℕ := scanOldest t.slots 0 0 (UInt64.ofNat (2 ^ 64 - 1))

def place (slot layer expert : ℕ) (evicted : Option (ℕ × ℕ)) : LruResidencyTracker :=
  { t with
    slots := t.slots.set slot (some (layer, expert, t.clock + 1))
    keyToSlot := update (match evicted with
      | some key => update t.keyToSlot key none
      | none => t.keyToSlot) (layer, expert) (some slot)
    clock := t.clock + 1
    length_slots := by rw [length_set, t.length_slots] }

/-- `none` is an index out of range, in a tracker without slots. -/
def admitKey (layer expert : ℕ) : Option (LruResidencyTracker × ℕ × Option (ℕ × ℕ)) :=
  match t.lookup layer expert with
  | none => none
  | some (t, some slot) => some (t, slot, none)
  | some (t, none) =>
    match t.slots.findIdx? Option.isNone with
    | some slot => some (t.place slot layer expert none, slot, none)
    | none => t.slots[t.oldestSlot]?.map fun entry =>
        let evicted := entry.map fun e => (e.1, e.2.1)
        (t.place t.oldestSlot layer expert evicted, t.oldestSlot, evicted)

/-- The keys of popped slots are removed, the last slot's first. -/
def forgetKeys (popped : List (Option (ℕ × ℕ × UInt64))) (keyToSlot : ℕ × ℕ → Option ℕ) :
    ℕ × ℕ → Option ℕ :=
  popped.foldr (fun entry keyToSlot =>
    match entry with
    | some (l, e, _) => update keyToSlot (l, e) none
    | none => keyToSlot) keyToSlot

def resize (newCapacity : ℕ) : LruResidencyTracker where
  capacity := newCapacity
  slots := t.slots.take newCapacity ++ List.replicate (newCapacity - t.slots.length) none
  keyToSlot := forgetKeys (t.slots.drop newCapacity) t.keyToSlot
  clock := t.clock
  length_slots := by
    rw [length_append, length_take, length_replicate]
    omega

/-! ### What the calls do -/

variable {t} {t' : LruResidencyTracker} {layer expert slot : ℕ}

/-- The key-to-slot map and the slots are inverse to each other. -/
def Inverse (t : LruResidencyTracker) : Prop :=
  ∀ key slot, t.keyToSlot key = some slot ↔ ∃ time, t.slots[slot]? =
    some (some (key.1, key.2, time))

theorem inverse_new (capacity : ℕ) : (new capacity).Inverse := by
  intro key slot
  refine iff_of_false (some_ne_none slot).symm fun ⟨time, h⟩ => ?_
  simp [new, getElem?_replicate] at h

theorem Inverse.length_le (h : t.Inverse) {keys : List (ℕ × ℕ)} (hnd : keys.Nodup)
    (hres : ∀ key ∈ keys, (t.keyToSlot key).isSome) : keys.length ≤ t.capacity := by
  have hmap : (keys.map t.keyToSlot).Nodup := by
    refine List.Nodup.map_on (fun k hk k' hk' heq => ?_) hnd
    obtain ⟨slot, hslot⟩ := isSome_iff_exists.mp (hres k hk)
    obtain ⟨time, htime⟩ := (h k slot).mp hslot
    obtain ⟨time', htime'⟩ := (h k' slot).mp (heq ▸ hslot)
    rw [htime, Option.some.injEq, Option.some.injEq] at htime'
    simp only [Prod.mk.injEq] at htime'
    exact Prod.ext htime'.1 htime'.2.1
  have hsub : keys.map t.keyToSlot ⊆ (List.range t.capacity).map some := by
    intro o ho
    obtain ⟨key, hkey, rfl⟩ := List.mem_map.mp ho
    obtain ⟨slot, hslot⟩ := isSome_iff_exists.mp (hres key hkey)
    obtain ⟨time, htime⟩ := (h key slot).mp hslot
    have hlt := (List.getElem?_eq_some_iff.mp htime).1
    rw [t.length_slots] at hlt
    rw [hslot]
    exact List.mem_map.mpr ⟨slot, mem_range.mpr hlt, rfl⟩
  simpa using (subperm_of_subset hmap hsub).length_le

theorem slots_place {evicted : Option (ℕ × ℕ)} (hlt : slot < t.slots.length) (slot' : ℕ) :
    (t.place slot layer expert evicted).slots[slot']?
      = if slot = slot' then some (some (layer, expert, t.clock + 1)) else t.slots[slot']? := by
  unfold LruResidencyTracker.place
  rw [getElem?_set]
  split_ifs <;> rfl

theorem keyToSlot_place {evicted : Option (ℕ × ℕ)} (key : ℕ × ℕ) :
    (t.place slot layer expert evicted).keyToSlot key
      = if key = (layer, expert) then some slot
        else if evicted = some key then none else t.keyToSlot key := by
  unfold LruResidencyTracker.place
  simp only [Function.update_apply]
  rcases evicted with - | old
  · simp
  · simp [Function.update_apply, eq_comm]

theorem Inverse.place (h : t.Inverse) {entry : Option (ℕ × ℕ × UInt64)} {evicted : Option (ℕ × ℕ)}
    (hslot : t.slots[slot]? = some entry)
    (hkey : ∀ slot', t.keyToSlot (layer, expert) = some slot' → slot' = slot)
    (hev : ∀ key, key ≠ (layer, expert) →
      ((∃ time, entry = some (key.1, key.2, time)) ↔ evicted = some key)) :
    (t.place slot layer expert evicted).Inverse := by
  have hlt := (List.getElem?_eq_some_iff.mp hslot).1
  intro key slot'
  rw [slots_place hlt, keyToSlot_place]
  by_cases hk : key = (layer, expert)
  · subst hk
    rw [if_pos rfl]
    split_ifs with hs
    · exact iff_of_true (congrArg some hs) ⟨_, rfl⟩
    · rw [← h (layer, expert) slot']
      exact iff_of_false (fun heq => hs (Option.some.inj heq))
        fun heq => hs (hkey slot' heq).symm
  · rw [if_neg hk]
    have hother : ¬ ∃ time, some (some (layer, expert, t.clock + 1))
        = some (some (key.1, key.2, time)) := by
      rintro ⟨time, htime⟩
      simp only [Option.some.injEq, Prod.mk.injEq] at htime
      exact hk (Prod.ext htime.1.symm htime.2.1.symm)
    split_ifs with he hs hs
    · exact iff_of_false not_false hother
    · obtain ⟨time, rfl⟩ := (hev key hk).mpr he
      refine iff_of_false not_false fun hin => ?_
      have hin := (h key slot').mpr hin
      rw [(h key slot).mpr ⟨time, hslot⟩] at hin
      exact hs (Option.some.inj hin)
    · subst hs
      refine iff_of_false (fun hin => he ?_) hother
      obtain ⟨time, htime⟩ := (h key slot).mp hin
      rw [hslot, Option.some.injEq] at htime
      exact (hev key hk).mp ⟨time, htime⟩
    · exact h key slot'

theorem Inverse.lookup_cases (h : t.Inverse) (layer expert : ℕ) :
    t.keyToSlot (layer, expert) = none ∧ t.lookup layer expert = some (t, none)
      ∨ ∃ slot time, t.keyToSlot (layer, expert) = some slot
        ∧ t.slots[slot]? = some (some (layer, expert, time))
        ∧ t.lookup layer expert = some (t.place slot layer expert none, some slot) := by
  unfold LruResidencyTracker.lookup
  rcases hkey : t.keyToSlot (layer, expert) with - | slot
  · exact .inl ⟨rfl, rfl⟩
  · obtain ⟨time, htime⟩ := (h _ _).mp hkey
    refine .inr ⟨slot, time, rfl, htime, ?_⟩
    have hsame : update t.keyToSlot (layer, expert) (some slot) = t.keyToSlot := by
      rw [← hkey]
      exact Function.update_eq_self _ _
    simp [htime, LruResidencyTracker.place, hsame]

/-- The scan ends at the first of the oldest entries, or where it started. -/
theorem scanOldest_spec : ∀ (entries : List (Option (ℕ × ℕ × UInt64))) (slot oldestSlot : ℕ)
    (oldestTime : UInt64),
    scanOldest entries slot oldestSlot oldestTime = oldestSlot
        ∧ (∀ (i : ℕ) l e time, entries[i]? = some (some (l, e, time)) → oldestTime ≤ time)
      ∨ ∃ j l e time, scanOldest entries slot oldestSlot oldestTime = slot + j
        ∧ entries[j]? = some (some (l, e, time)) ∧ time < oldestTime
        ∧ ∀ (i : ℕ) l' e' time', entries[i]? = some (some (l', e', time')) →
          time ≤ time' ∧ (i < j → time < time')
  | [], _, _, _ => .inl ⟨rfl, fun _ _ _ _ hi => by simp at hi⟩
  | none :: entries, slot, oldestSlot, oldestTime => by
    rw [scanOldest]
    rcases scanOldest_spec entries (slot + 1) oldestSlot oldestTime with ⟨hr, hle⟩ | hfound
    · refine .inl ⟨hr, fun i l e time hi => ?_⟩
      rcases i with - | i
      · simp at hi
      · exact hle i l e time hi
    · obtain ⟨j, l, e, time, hr, hj, hlt, hle⟩ := hfound
      refine .inr ⟨j + 1, l, e, time, by omega, hj, hlt, fun i l' e' time' hi => ?_⟩
      rcases i with - | i
      · simp at hi
      · exact (hle i l' e' time' hi).imp_right fun hbefore hlt => hbefore (by omega)
  | some (l₀, e₀, time₀) :: entries, slot, oldestSlot, oldestTime => by
    rw [scanOldest]
    split_ifs with hnew
    · rcases scanOldest_spec entries (slot + 1) slot time₀ with ⟨hr, hle⟩ | hfound
      · refine .inr ⟨0, l₀, e₀, time₀, hr, rfl, hnew, fun i l' e' time' hi => ?_⟩
        refine ⟨?_, fun hlt => absurd hlt (Nat.not_lt_zero i)⟩
        rcases i with - | i
        · simp only [getElem?_cons_zero, Option.some.injEq, Prod.mk.injEq] at hi
          exact UInt64.le_of_eq hi.2.2
        · exact hle i l' e' time' hi
      · obtain ⟨j, l, e, time, hr, hj, hlt, hle⟩ := hfound
        refine .inr ⟨j + 1, l, e, time, by omega, hj, UInt64.lt_trans hlt hnew,
          fun i l' e' time' hi => ?_⟩
        rcases i with - | i
        · simp only [getElem?_cons_zero, Option.some.injEq, Prod.mk.injEq] at hi
          exact ⟨hi.2.2 ▸ UInt64.le_of_lt hlt, fun _ => hi.2.2 ▸ hlt⟩
        · exact (hle i l' e' time' hi).imp_right fun hbefore hlt => hbefore (by omega)
    · have hold : oldestTime ≤ time₀ := UInt64.not_lt.mp hnew
      rcases scanOldest_spec entries (slot + 1) oldestSlot oldestTime with ⟨hr, hle⟩ | hfound
      · refine .inl ⟨hr, fun i l' e' time' hi => ?_⟩
        rcases i with - | i
        · simp only [getElem?_cons_zero, Option.some.injEq, Prod.mk.injEq] at hi
          exact hi.2.2 ▸ hold
        · exact hle i l' e' time' hi
      · obtain ⟨j, l, e, time, hr, hj, hlt, hle⟩ := hfound
        have hfirst : time < time₀ := UInt64.lt_of_lt_of_le hlt hold
        refine .inr ⟨j + 1, l, e, time, by omega, hj, hlt, fun i l' e' time' hi => ?_⟩
        rcases i with - | i
        · simp only [getElem?_cons_zero, Option.some.injEq, Prod.mk.injEq] at hi
          exact ⟨hi.2.2 ▸ UInt64.le_of_lt hfirst, fun _ => hi.2.2 ▸ hfirst⟩
        · exact (hle i l' e' time' hi).imp_right fun hbefore hlt => hbefore (by omega)

theorem oldestSlot_spec (hfull : ∀ entry ∈ t.slots, entry ≠ none) (hcap : 0 < t.capacity) :
    ∃ l e time, t.slots[t.oldestSlot]? = some (some (l, e, time))
      ∧ ∀ (i : ℕ) l' e' time', t.slots[i]? = some (some (l', e', time')) →
        time ≤ time' ∧ (i < t.oldestSlot → time < time') := by
  rcases scanOldest_spec t.slots 0 0 (UInt64.ofNat (2 ^ 64 - 1)) with ⟨hr, hle⟩ | hfound
  · have hlen : 0 < t.slots.length := t.length_slots ▸ hcap
    have hr : t.oldestSlot = 0 := hr
    rcases hfirst : t.slots[0] with - | ⟨l, e, time⟩
    · exact absurd hfirst (hfull _ (getElem_mem hlen))
    · refine ⟨l, e, time, ?_, fun i l' e' time' hi => ⟨?_, fun hlt => ?_⟩⟩
      · rw [hr, getElem?_eq_getElem hlen, hfirst]
      · have hmax : time ≤ UInt64.ofNat (2 ^ 64 - 1) := by
          rw [UInt64.le_iff_toNat_le]
          have := time.toNat_lt
          simp
          omega
        exact UInt64.le_trans hmax (hle i l' e' time' hi)
      · rw [hr] at hlt
        exact absurd hlt (Nat.not_lt_zero i)
  · obtain ⟨j, l, e, time, hr, hj, -, hle⟩ := hfound
    have hr : t.oldestSlot = j := hr.trans (Nat.zero_add j)
    exact ⟨l, e, time, by rw [hr, hj], fun i l' e' time' hi => hr ▸ hle i l' e' time' hi⟩

theorem Inverse.admit_cases (h : t.Inverse) {evicted : Option (ℕ × ℕ)}
    (ha : t.admitKey layer expert = some (t', slot, evicted)) :
    t' = t.place slot layer expert evicted ∧ ∃ entry, t.slots[slot]? = some entry
      ∧ ((∃ time, t.keyToSlot (layer, expert) = some slot ∧ entry = some (layer, expert, time)
          ∧ evicted = none)
        ∨ t.keyToSlot (layer, expert) = none ∧ entry = none ∧ evicted = none
        ∨ ∃ l e time, t.keyToSlot (layer, expert) = none ∧ entry = some (l, e, time)
          ∧ evicted = some (l, e)
          ∧ ∀ (i : ℕ) l' e' time', t.slots[i]? = some (some (l', e', time')) →
            time ≤ time' ∧ (i < slot → time < time')) := by
  unfold LruResidencyTracker.admitKey at ha
  rcases h.lookup_cases layer expert with ⟨hkey, hl⟩ | ⟨slot₀, time, hkey, htime, hl⟩
  · rw [hl] at ha
    dsimp only at ha
    rcases hfree : t.slots.findIdx? Option.isNone with - | free
    · have hfull : ∀ entry ∈ t.slots, entry ≠ none := fun entry hmem heq => by
        simpa [heq] using findIdx?_eq_none_iff.mp hfree entry hmem
      rw [hfree] at ha
      obtain ⟨entry, hentry, heq⟩ := map_eq_some_iff.mp ha
      have hcap : 0 < t.capacity := by
        have hlt := (List.getElem?_eq_some_iff.mp hentry).1
        rw [t.length_slots] at hlt
        omega
      obtain ⟨l, e, time, hold, hle⟩ := oldestSlot_spec hfull hcap
      rw [hold, Option.some.injEq] at hentry
      subst hentry
      cases heq
      exact ⟨rfl, _, hold, .inr (.inr ⟨l, e, time, hkey, rfl, rfl, hle⟩)⟩
    · rw [hfree] at ha
      cases ha
      obtain ⟨hlt, hnone, -⟩ := findIdx?_eq_some_iff_getElem.mp hfree
      refine ⟨rfl, none, ?_, .inr (.inl ⟨hkey, rfl, rfl⟩)⟩
      rw [getElem?_eq_getElem hlt, isNone_iff_eq_none.mp hnone]
  · rw [hl] at ha
    cases ha
    exact ⟨rfl, _, htime, .inl ⟨time, hkey, rfl, rfl⟩⟩

theorem Inverse.admit_isSome (h : t.Inverse) (hcap : 0 < t.capacity) (layer expert : ℕ) :
    (t.admitKey layer expert).isSome := by
  unfold LruResidencyTracker.admitKey
  rcases h.lookup_cases layer expert with ⟨-, hl⟩ | ⟨slot₀, time, -, -, hl⟩
  · rw [hl]
    dsimp only
    rcases hfree : t.slots.findIdx? Option.isNone with - | free
    · have hfull : ∀ entry ∈ t.slots, entry ≠ none := fun entry hmem heq => by
        simpa [heq] using findIdx?_eq_none_iff.mp hfree entry hmem
      obtain ⟨l, e, time, hold, -⟩ := oldestSlot_spec hfull hcap
      simp [hold]
    · rfl
  · rw [hl]
    rfl

theorem Inverse.admitKey (h : t.Inverse) {evicted : Option (ℕ × ℕ)}
    (ha : t.admitKey layer expert = some (t', slot, evicted)) : t'.Inverse := by
  obtain ⟨rfl, entry, hslot, hit | free | full⟩ := h.admit_cases ha
  · obtain ⟨time, hkey, rfl, rfl⟩ := hit
    refine h.place hslot (fun slot' heq => Option.some.inj (heq.symm.trans hkey)) fun key hne =>
      iff_of_false (fun ⟨time', heq⟩ => hne ?_) (some_ne_none key).symm
    simp only [Option.some.injEq, Prod.mk.injEq] at heq
    exact Prod.ext heq.1.symm heq.2.1.symm
  · obtain ⟨hkey, rfl, rfl⟩ := free
    exact h.place hslot (fun slot' heq => by simp [hkey] at heq) fun key _ => by simp
  · obtain ⟨l, e, time, hkey, rfl, rfl, -⟩ := full
    refine h.place hslot (fun slot' heq => by simp [hkey] at heq) fun key _ => ?_
    simp [Prod.ext_iff]

theorem forgetKeys_eq_some (popped : List (Option (ℕ × ℕ × UInt64)))
    (keyToSlot : ℕ × ℕ → Option ℕ) (key : ℕ × ℕ) (slot : ℕ) :
    forgetKeys popped keyToSlot key = some slot
      ↔ (¬ ∃ time, some (key.1, key.2, time) ∈ popped) ∧ keyToSlot key = some slot := by
  unfold forgetKeys
  induction popped with
  | nil => simp
  | cons entry popped ih =>
    rw [foldr_cons]
    rcases entry with - | ⟨l, e, time⟩
    · simpa using ih
    · dsimp only
      rw [Function.update_apply]
      by_cases hk : key = (l, e)
      · subst hk
        simp
      · have hne : ∀ time', ¬ (some (key.1, key.2, time') = some (l, e, time)) := by
          intro time' heq
          simp only [Option.some.injEq, Prod.mk.injEq] at heq
          exact hk (Prod.ext heq.1 heq.2.1)
        rw [if_neg hk, ih]
        simp only [mem_cons, hne, false_or]

theorem slots_resize (newCapacity : ℕ) (entry : ℕ × ℕ × UInt64) :
    (t.resize newCapacity).slots[slot]? = some (some entry)
      ↔ slot < newCapacity ∧ t.slots[slot]? = some (some entry) := by
  unfold LruResidencyTracker.resize
  dsimp only
  by_cases hlt : slot < (t.slots.take newCapacity).length
  · have := length_take_le newCapacity t.slots
    rw [getElem?_append_left hlt, getElem?_take]
    have hn : slot < newCapacity := by omega
    simp [hn]
  · rw [getElem?_append_right (not_lt.mp hlt), getElem?_replicate]
    rw [length_take] at hlt
    refine iff_of_false (fun hin => ?_) fun ⟨hn, hin⟩ => ?_
    · split_ifs at hin
      simp at hin
    · have := (List.getElem?_eq_some_iff.mp hin).1
      omega

theorem Inverse.resize (h : t.Inverse) (newCapacity : ℕ) : (t.resize newCapacity).Inverse := by
  intro key slot
  simp only [slots_resize, exists_and_left]
  unfold LruResidencyTracker.resize
  dsimp only
  rw [forgetKeys_eq_some, h key slot]
  refine and_congr_left fun hin => ⟨fun hdrop => ?_, fun hn => ?_⟩
  · by_contra hn
    obtain ⟨time, ht⟩ := hin
    refine hdrop ⟨time, mem_iff_getElem?.mpr ⟨slot - newCapacity, ?_⟩⟩
    rw [getElem?_drop, Nat.add_sub_cancel' (not_lt.mp hn), ht]
  · rintro ⟨time, hmem⟩
    obtain ⟨j, hj⟩ := mem_iff_getElem?.mp hmem
    rw [getElem?_drop] at hj
    have hat := (h key (newCapacity + j)).mpr ⟨time, hj⟩
    have := Option.some.inj (((h key slot).mpr hin).symm.trans hat)
    omega

end LruResidencyTracker

inductive ResidencyCall
  | touch (layer expert : ℕ)
  | admitKey (layer expert : ℕ)
  | resize (newCapacity : ℕ)

structure Residency where
  tracker : LruResidencyTracker
  ticks : ℕ
  last : ℕ × ℕ → ℕ

namespace Residency

def new (capacity : ℕ) : Residency where
  tracker := .new capacity
  ticks := 0
  last _ := 0

variable (s : Residency)

def used (t : LruResidencyTracker) (layer expert : ℕ) : Residency where
  tracker := t
  ticks := s.ticks + 1
  last := update s.last (layer, expert) (s.ticks + 1)

def step : ResidencyCall → Option Residency
  | .touch layer expert => (s.tracker.lookup layer expert).map fun r =>
    match r with
    | (t, some _) => s.used t layer expert
    | (t, none) => { s with tracker := t }
  | .admitKey layer expert => (s.tracker.admitKey layer expert).map fun r => s.used r.1 layer expert
  | .resize newCapacity => some { s with tracker := s.tracker.resize newCapacity }

def Resident (key : ℕ × ℕ) : Prop := ∃ slot, s.tracker.keyToSlot key = some slot

/-- The resident key whose last use is oldest has the least time, and the lowest slot among those
with that time. -/
def OldestLeads : Prop :=
  ∀ key slot, s.tracker.keyToSlot key = some slot →
    (∀ key', s.Resident key' → s.last key ≤ s.last key') →
    ∀ key' slot', s.tracker.keyToSlot key' = some slot' → key' ≠ key →
      s.last key % 2 ^ 64 < s.last key' % 2 ^ 64
        ∨ s.last key % 2 ^ 64 = s.last key' % 2 ^ 64 ∧ slot < slot'

variable {s} {s' : Residency} {call : ResidencyCall} {layer expert : ℕ}

/-- The tracker's times are the numbers of the uses modulo 2⁶⁴. -/
structure Stamped (s : Residency) : Prop where
  inverse : s.tracker.Inverse
  clock : s.tracker.clock = UInt64.ofNat s.ticks
  le_ticks : ∀ key, s.last key ≤ s.ticks
  time : ∀ (slot : ℕ) (key : ℕ × ℕ) (time : UInt64),
    s.tracker.slots[slot]? = some (some (key.1, key.2, time)) → time = UInt64.ofNat (s.last key)
  distinct : ∀ key key', s.Resident key → s.Resident key' → s.last key = s.last key' → key = key'

theorem stamped_new (capacity : ℕ) : (new capacity).Stamped where
  inverse := LruResidencyTracker.inverse_new capacity
  clock := rfl
  le_ticks _ := le_rfl
  time slot key time h := by simp [new, LruResidencyTracker.new, getElem?_replicate] at h
  distinct key _ h _ := absurd h.choose_spec (some_ne_none _).symm

theorem Stamped.admitted (h : s.Stamped) {t : LruResidencyTracker} {slot : ℕ}
    {evicted : Option (ℕ × ℕ)} (ha : s.tracker.admitKey layer expert = some (t, slot, evicted)) :
    (s.used t layer expert).Stamped := by
  have hinv := h.inverse.admitKey ha
  obtain ⟨rfl, entry, hslot, hcase⟩ := h.inverse.admit_cases ha
  have hlt := (List.getElem?_eq_some_iff.mp hslot).1
  have hclock : s.tracker.clock + 1 = UInt64.ofNat (s.ticks + 1) := by
    rw [h.clock, UInt64.ofNat_add]
    rfl
  -- another resident key was resident before, and keeps its number
  have hother : ∀ key, key ≠ (layer, expert) →
      (s.used (s.tracker.place slot layer expert evicted) layer expert).Resident key →
      s.Resident key := by
    rintro key hne ⟨slot', hin⟩
    dsimp only [used] at hin
    rw [LruResidencyTracker.keyToSlot_place, if_neg hne] at hin
    split_ifs at hin
    exact ⟨slot', hin⟩
  refine ⟨hinv, hclock, fun key => ?_, fun slot' key time hin => ?_, fun key key' hk hk' heq => ?_⟩
  · dsimp only [used]
    rw [Function.update_apply]
    split_ifs
    · exact le_rfl
    · exact (h.le_ticks key).trans (Nat.le_succ _)
  · dsimp only [used] at hin ⊢
    rw [LruResidencyTracker.slots_place hlt] at hin
    split_ifs at hin with hs
    · simp only [Option.some.injEq, Prod.mk.injEq] at hin
      obtain ⟨rfl, rfl, rfl⟩ := hin
      rw [update_self, hclock]
    · have hne : key ≠ (layer, expert) := by
        rintro rfl
        have hat := (h.inverse (layer, expert) slot').mpr ⟨time, hin⟩
        obtain ⟨-, hkey, -⟩ | ⟨hkey, -⟩ | ⟨-, -, -, hkey, -⟩ := hcase
        · exact hs (Option.some.inj (hkey.symm.trans hat))
        · simp [hkey] at hat
        · simp [hkey] at hat
      rw [update_of_ne hne]
      exact h.time slot' key time hin
  · dsimp only [used] at heq
    rw [Function.update_apply, Function.update_apply] at heq
    by_cases hne : key = (layer, expert) <;> by_cases hne' : key' = (layer, expert)
    · exact hne.trans hne'.symm
    · rw [if_pos hne, if_neg hne'] at heq
      have := h.le_ticks key'
      omega
    · rw [if_neg hne, if_pos hne'] at heq
      have := h.le_ticks key
      omega
    · rw [if_neg hne, if_neg hne'] at heq
      exact h.distinct key key' (hother key hne hk) (hother key' hne' hk') heq

theorem Stamped.resized (h : s.Stamped) (newCapacity : ℕ) :
    { s with tracker := s.tracker.resize newCapacity }.Stamped := by
  have hinv := h.inverse.resize newCapacity
  have hres : ∀ key, { s with tracker := s.tracker.resize newCapacity }.Resident key →
      s.Resident key := by
    rintro key ⟨slot, hin⟩
    obtain ⟨time, ht⟩ := (hinv key slot).mp hin
    exact ⟨slot, (h.inverse key slot).mpr
      ⟨time, ((LruResidencyTracker.slots_resize newCapacity _).mp ht).2⟩⟩
  exact ⟨hinv, h.clock, h.le_ticks,
    fun slot key time hin =>
      h.time slot key time ((LruResidencyTracker.slots_resize newCapacity _).mp hin).2,
    fun key key' hk hk' heq => h.distinct key key' (hres key hk) (hres key' hk') heq⟩

theorem Stamped.step (h : s.Stamped) (hs : s.step call = some s') : s'.Stamped := by
  cases call with
  | touch layer expert =>
    rcases h.inverse.lookup_cases layer expert with ⟨-, heq⟩ | ⟨slot, time, -, -, heq⟩
    · rw [Residency.step, heq] at hs
      cases hs
      exact h
    · -- a hit is what an admission does then
      have ha : s.tracker.admitKey layer expert
          = some (s.tracker.place slot layer expert none, slot, none) := by
        rw [LruResidencyTracker.admitKey, heq]
      rw [Residency.step, heq] at hs
      cases hs
      exact h.admitted ha
  | admitKey layer expert =>
    obtain ⟨⟨t, slot, evicted⟩, ha, rfl⟩ := map_eq_some_iff.mp hs
    exact h.admitted ha
  | resize newCapacity =>
    cases hs
    exact h.resized newCapacity

theorem Stamped.toNat_time (h : s.Stamped) {slot : ℕ} {key : ℕ × ℕ} {time : UInt64}
    (hin : s.tracker.slots[slot]? = some (some (key.1, key.2, time))) :
    time.toNat = s.last key % 2 ^ 64 := by
  rw [h.time slot key time hin, UInt64.toNat_ofNat']

theorem Stamped.evicted_iff (h : s.Stamped) {t : LruResidencyTracker} {slot : ℕ}
    {evicted : Option (ℕ × ℕ)} (ha : s.tracker.admitKey layer expert = some (t, slot, evicted))
    (key : ℕ × ℕ) : evicted = some key ↔ s.Resident key ∧ t.keyToSlot key = none := by
  obtain ⟨rfl, entry, hslot, hcase⟩ := h.inverse.admit_cases ha
  rw [LruResidencyTracker.keyToSlot_place]
  constructor
  · rintro rfl
    obtain ⟨-, -, -, hnone⟩ | ⟨-, -, hnone⟩ | ⟨l, e, time, hkey, rfl, hev, -⟩ := hcase
    · exact absurd hnone (some_ne_none key)
    · exact absurd hnone (some_ne_none key)
    · cases hev
      have hres := (h.inverse (l, e) slot).mpr ⟨time, hslot⟩
      have hne : (l, e) ≠ (layer, expert) := fun heq => by
        rw [heq, hkey] at hres
        cases hres
      exact ⟨⟨slot, hres⟩, by rw [if_neg hne, if_pos rfl]⟩
  · rintro ⟨⟨slot', hres⟩, hgone⟩
    split_ifs at hgone with hk hev
    · exact hev
    · exact absurd (hres.symm.trans hgone) (some_ne_none slot')

/-- The evicted key is the one used longest ago exactly when that key has the least time. -/
theorem Stamped.evicts_oldest_iff (h : s.Stamped) {t : LruResidencyTracker} {slot : ℕ}
    {key : ℕ × ℕ} (ha : s.tracker.admitKey layer expert = some (t, slot, some key)) :
    (∀ key', s.Resident key' → key' ≠ key → s.last key < s.last key') ↔ s.OldestLeads := by
  obtain ⟨rfl, entry, hslot, ⟨-, -, -, hev⟩ | ⟨-, -, hev⟩ | ⟨l, e, time, -, rfl, hev, hleast⟩⟩ :=
    h.inverse.admit_cases ha
  · exact absurd hev (some_ne_none key)
  · exact absurd hev (some_ne_none key)
  cases hev
  have hkey := (h.inverse (l, e) slot).mpr ⟨time, hslot⟩
  have htime : time.toNat = s.last (l, e) % 2 ^ 64 := h.toNat_time hslot
  constructor
  · intro holdest k s₀ hk hmin k' slot' hk' hne
    -- the key used longest ago is the evicted one
    obtain rfl : k = (l, e) := by
      by_contra hne
      have h1 := holdest k ⟨s₀, hk⟩ hne
      have h2 := hmin (l, e) ⟨slot, hkey⟩
      omega
    obtain rfl : s₀ = slot := Option.some.inj (hk.symm.trans hkey)
    obtain ⟨time', htime'⟩ := (h.inverse k' slot').mp hk'
    obtain ⟨hle, hbefore⟩ := hleast slot' _ _ _ htime'
    rw [UInt64.le_iff_toNat_le, htime, h.toNat_time htime'] at hle
    rw [UInt64.lt_iff_toNat_lt, htime, h.toNat_time htime'] at hbefore
    have hslots : s₀ ≠ slot' := by
      rintro rfl
      rw [hslot] at htime'
      simp only [Option.some.injEq, Prod.mk.injEq] at htime'
      exact hne (Prod.ext htime'.1.symm htime'.2.1.symm)
    omega
  · intro hlead key' hres' hne
    obtain ⟨k, ⟨s₀, hk⟩, hmin⟩ :=
      (measure s.last).wf.has_min {key | s.Resident key} ⟨(l, e), slot, hkey⟩
    have hmin : ∀ key', s.Resident key' → s.last k ≤ s.last key' := fun key' hres =>
      not_lt.mp (hmin key' hres)
    by_cases hkev : k = (l, e)
    · subst hkev
      have hdistinct : s.last (l, e) ≠ s.last key' := fun heq =>
        hne (h.distinct (l, e) key' ⟨slot, hkey⟩ hres' heq).symm
      have := hmin key' hres'
      omega
    · -- its time would be less than that of the evicted key
      have hfirst := hlead k s₀ hk hmin (l, e) slot hkey (Ne.symm hkev)
      obtain ⟨time₀, htime₀⟩ := (h.inverse k s₀).mp hk
      obtain ⟨hle, hbefore⟩ := hleast s₀ _ _ _ htime₀
      rw [UInt64.le_iff_toNat_le, htime, h.toNat_time htime₀] at hle
      rw [UInt64.lt_iff_toNat_lt, htime, h.toNat_time htime₀] at hbefore
      omega

/-- The map and the slots stay inverse to each other; an admission evicts at most one key, and the
one used longest ago exactly when that key has the least time. -/
theorem residency_of_reach {capacity : ℕ} (hr : Reach step (fun _ _ => True) (new capacity) s) :
    s.tracker.Inverse
      ∧ (∀ keys : List (ℕ × ℕ), keys.Nodup → (∀ key ∈ keys, s.Resident key) →
        keys.length ≤ s.tracker.capacity)
      ∧ (0 < s.tracker.capacity → ∀ layer expert, (s.tracker.admitKey layer expert).isSome)
      ∧ ∀ layer expert t slot evicted, s.tracker.admitKey layer expert = some (t, slot, evicted) →
        (∀ slot', (∃ time, t.slots[slot']? = some (some (layer, expert, time))) ↔ slot' = slot)
        ∧ (∀ key, evicted = some key ↔ s.Resident key ∧ t.keyToSlot key = none)
        ∧ ∀ key, evicted = some key →
          ((∀ key', s.Resident key' → key' ≠ key → s.last key < s.last key') ↔ s.OldestLeads) := by
  have h : s.Stamped :=
    hr.invariant (stamped_new capacity) fun _ _ _ h _ hs => h.step hs
  refine ⟨h.inverse, fun keys hnd hres => h.inverse.length_le hnd fun key hkey =>
    isSome_iff_exists.mpr (hres key hkey), fun hcap => h.inverse.admit_isSome hcap,
    fun layer expert t slot evicted ha => ⟨fun slot' => ?_, h.evicted_iff ha, ?_⟩⟩
  · have hat : t.keyToSlot (layer, expert) = some slot := by
      obtain ⟨rfl, -⟩ := h.inverse.admit_cases ha
      exact update_self _ _ _
    rw [← h.inverse.admitKey ha (layer, expert) slot', hat]
    exact ⟨fun heq => (Option.some.inj heq).symm, fun heq => congrArg some heq.symm⟩
  · rintro key rfl
    exact h.evicts_oldest_iff ha

/-- Two slots: the first key is used once more, so that the second one gives way. -/
def secondOldest : List ResidencyCall := [.admitKey 0 0, .admitKey 0 1, .touch 0 0]

theorem residency_secondOldest :
    ∃ s, Reach step (fun _ _ => True) (new 2) s
      ∧ ∃ t, s.tracker.admitKey 0 2 = some (t, 1, some (0, 1))
        ∧ (∀ slot', (∃ time, t.slots[slot']? = some (some (0, 2, time))) ↔ slot' = 1)
        ∧ ((∀ key', s.Resident key' → key' ≠ (0, 1) → s.last (0, 1) < s.last key')
          ↔ s.OldestLeads) := by
  have hex : ((Steps.exec step (fun _ _ => True) (new 2) secondOldest).bind fun s =>
      (s.tracker.admitKey 0 2).map fun r => r.2) = some (1, some (0, 1)) := by decide
  obtain ⟨s, hs, hadmit⟩ := bind_eq_some_iff.mp hex
  obtain ⟨⟨t, slot, evicted⟩, ha, heq⟩ := map_eq_some_iff.mp hadmit
  obtain ⟨rfl, rfl⟩ : slot = 1 ∧ evicted = some (0, 1) := by simpa using heq
  have hr := reach_of_exec hs
  obtain ⟨hone, -, holdest⟩ := (residency_of_reach hr).2.2.2 0 2 t 1 _ ha
  exact ⟨s, hr, t, ha, hone, holdest (0, 1) rfl⟩

/-- Two slots, and the first key touched `n` times after the second was admitted. -/
def touched (n : ℕ) : Residency where
  tracker :=
    { capacity := 2
      slots := [some (0, 0, UInt64.ofNat (n + 3)), some (0, 1, 2)]
      keyToSlot := update (update (fun _ => none) (0, 0) (some 0)) (0, 1) (some 1)
      clock := UInt64.ofNat (n + 3)
      length_slots := rfl }
  ticks := n + 3
  last := update (update (fun _ => 0) (0, 1) 2) (0, 0) (n + 3)

theorem reach_touched (n : ℕ) : Reach step (fun _ _ => True) (new 2) (touched n) := by
  induction n with
  | zero =>
    have hlast : update (update (update (fun _ => 0) (0, 0) 1) (0, 1) 2) (0, 0) 3
        = (touched 0).last := by
      have hne : ((0, 0) : ℕ × ℕ) ≠ (0, 1) := by decide
      rw [Function.update_comm hne, Function.update_idem]
      rfl
    have hex : Steps.exec step (fun _ _ => True) (new 2) secondOldest
        = some { touched 0 with
          last := update (update (update (fun _ => 0) (0, 0) 1) (0, 1) 2) (0, 0) 3 } := rfl
    rw [hlast] at hex
    exact reach_of_exec hex
  | succ n ih =>
    refine ih.next (.touch 0 0) trivial ?_
    have hlast : update (touched n).last (0, 0) (n + 4) = (touched (n + 1)).last :=
      Function.update_idem _ _ _
    have hclock : (touched n).tracker.clock + 1 = (touched (n + 1)).tracker.clock := by
      simp only [touched, ← UInt64.ofNat_one, ← UInt64.ofNat_add]
    have hstep : (touched n).step (.touch 0 0) = some
        { tracker := { (touched n).tracker with
            slots := [some (0, 0, (touched n).tracker.clock + 1), some (0, 1, 2)]
            clock := (touched n).tracker.clock + 1
            length_slots := rfl }
          ticks := n + 4
          last := update (touched n).last (0, 0) (n + 4) } := rfl
    rw [hstep, hlast, hclock]
    rfl

/-- Touched until the clock has wrapped, the first key has the least time: it is evicted, though it
was used last. -/
theorem newest_evicted :
    ∃ s, Reach step (fun _ _ => True) (new 2) s ∧ s.Resident (0, 1)
      ∧ s.last (0, 1) < s.last (0, 0)
      ∧ ∃ t, s.tracker.admitKey 0 2 = some (t, 0, some (0, 0)) :=
  ⟨touched (2 ^ 64 - 3), reach_touched _, ⟨1, rfl⟩, by decide, _, rfl⟩

end Residency

end Grim.Memory
