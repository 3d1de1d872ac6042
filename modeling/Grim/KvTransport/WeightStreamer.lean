import Grim.KvTransport.Spill
import Grim.Lib.Slice
import Grim.Lib.Steps

/-!
# Units of a weights file in host RAM

`NvmeWeightStreamer` keeps the units it read last, and `EmbeddingSpillManager` looks rows up in
them.  A unit is read whole, so the rows of a unit that the file ends in are never found.  Nothing
writes the bandwidth that a prefetch looks at.
-/

namespace Grim.KvTransport

open LittleEndian Slice List Option
open Function (update update_self update_of_ne)

structure WeightsFile where
  path : String
  bytes : List UInt8
  short : bytes.length < 2 ^ 63

/-- `none` is a vector larger than `isize::MAX` bytes, which panics. -/
def readLayerWeights (file : WeightsFile) (layerId layerElems layerBytes : ℕ) :
    Option (Except String (List UInt32)) :=
  let offset := layerId * layerBytes
  if 2 ^ 64 ≤ offset then
    some (.error s!"offset overflow calculating layer {layerId} * {layerBytes}")
  else if 2 ^ 64 ≤ offset + layerBytes then
    some (.error s!"offset + layer_bytes overflow calculating layer {layerId}")
  else if file.bytes.length < offset + layerBytes then
    some (.error (s!"NVMe weights file {file.path} too short for layer {layerId}: have " ++
      s!"{file.bytes.length} bytes, need {layerBytes} at offset {offset}"))
  else if 2 ^ 61 ≤ layerElems then none
  else some (.ok (unwords (slice file.bytes offset layerBytes)))

structure NvmeWeightStreamer where
  weights : WeightsFile
  lruCapacityLayers : ℕ
  unitElems : ℕ
  hostWeightCache : List (ℕ × List UInt32)
  lruOrder : List ℕ
  unitTierMap : ℕ → Option CacheTier

namespace NvmeWeightStreamer

def new (weights : WeightsFile) (lruCapacityLayers unitElems : ℕ) : NvmeWeightStreamer where
  weights := weights
  lruCapacityLayers := lruCapacityLayers
  unitElems := unitElems
  hostWeightCache := []
  lruOrder := []
  unitTierMap _ := none

variable (s : NvmeWeightStreamer)

def cached : List ℕ := s.hostWeightCache.map Prod.fst

/-- Make room for one more unit: the unit used longest ago goes. -/
def evictLru : NvmeWeightStreamer :=
  match s.lruOrder with
  | [] => s
  | evicted :: order =>
    if s.lruCapacityLayers ≤ s.hostWeightCache.length then
      { s with
        hostWeightCache := s.hostWeightCache.filter fun e => e.1 ≠ evicted
        lruOrder := order
        unitTierMap := update s.unitTierMap evicted (some .nvMeWeightStream) }
    else s

def load (layerId : ℕ) (weights : List UInt32) : NvmeWeightStreamer :=
  { s with
    hostWeightCache := s.hostWeightCache ++ [(layerId, weights)]
    lruOrder := s.lruOrder ++ [layerId]
    unitTierMap := update s.unitTierMap layerId (some .hostRam) }

def touch (layerId : ℕ) : NvmeWeightStreamer :=
  { s with
    lruOrder := s.lruOrder.erase layerId ++ [layerId]
    unitTierMap := update s.unitTierMap layerId (some .hostRam) }

/-- `io` says whether the file can be opened and read. -/
def prefetchLayerAsync (io : Except String Unit) (layerId : ℕ) :
    Option (NvmeWeightStreamer × Except String Unit) :=
  match io with
  | .error e => some (s, .error e)
  | .ok () =>
    (readLayerWeights s.weights layerId s.unitElems (s.unitElems * 4 % 2 ^ 64)).map fun
      | .error e => (s, .error e)
      | .ok weights =>
        if layerId ∈ s.cached then (s.touch layerId, .ok ())
        else (s.evictLru.load layerId weights, .ok ())

def getUnitTier (unitId : ℕ) : Option CacheTier := s.unitTierMap unitId

def retrieveUnit (unitId : ℕ) : Option (List UInt32) :=
  (s.hostWeightCache.find? fun e => e.1 = unitId).map Prod.snd

end NvmeWeightStreamer

structure EmbeddingSpillManager where
  streamer : NvmeWeightStreamer
  rowsPerUnit : ℕ
  hiddenDim : ℕ

namespace EmbeddingSpillManager

variable (m : EmbeddingSpillManager)

def lookup (io : Except String Unit) (tokenId : UInt32) :
    Option (EmbeddingSpillManager × Except String (List UInt32)) :=
  let unitId := tokenId.toNat / m.rowsPerUnit
  let rowWithinUnit := tokenId.toNat % m.rowsPerUnit
  (m.streamer.prefetchLayerAsync io unitId).map fun
    | (streamer, .error e) => ({ m with streamer }, .error e)
    | (streamer, .ok ()) =>
      match streamer.retrieveUnit unitId with
      | none => ({ m with streamer }, .error
          s!"EmbeddingSpillManager: unit {unitId} missing from cache after prefetch")
      | some unitData =>
        let start := rowWithinUnit * m.hiddenDim
        if unitData.length < start + m.hiddenDim then
          ({ m with streamer }, .error
            (s!"EmbeddingSpillManager: token {tokenId} row [{start}..{start + m.hiddenDim}] " ++
              s!"out of bounds for unit {unitId} len {unitData.length}"))
        else ({ m with streamer }, .ok (slice unitData start m.hiddenDim))

def getUnitTierForToken (tokenId : UInt32) : Option CacheTier :=
  m.streamer.getUnitTier (tokenId.toNat / m.rowsPerUnit)

end EmbeddingSpillManager

namespace NvmeWeightStreamer

variable {s s' : NvmeWeightStreamer} {id : ℕ}

def unitOf (s : NvmeWeightStreamer) (id : ℕ) : List UInt32 :=
  unwords (slice s.weights.bytes (id * (s.unitElems * 4)) (s.unitElems * 4))

/-- The order lists the cached units, of which there are no more than the capacity allows; these
alone are in host RAM, and they are the file's. -/
structure Exact (s : NvmeWeightStreamer) : Prop where
  perm : s.lruOrder.Perm s.cached
  nodup : s.cached.Nodup
  bound : s.hostWeightCache.length ≤ max 1 s.lruCapacityLayers
  hostRam : ∀ id, s.getUnitTier id = some .hostRam ↔ id ∈ s.cached
  data : ∀ id w, (id, w) ∈ s.hostWeightCache → w = s.unitOf id

theorem exact_new (weights : WeightsFile) (capacity elems : ℕ) :
    (new weights capacity elems).Exact := by
  refine ⟨.refl _, nodup_nil, Nat.zero_le _, fun id => ?_, fun id w h => ?_⟩
  · simp [new, getUnitTier, cached]
  · simp [new] at h

theorem Exact.touch (h : s.Exact) (hid : id ∈ s.cached) : (s.touch id).Exact := by
  have horder : id ∈ s.lruOrder := h.perm.mem_iff.mpr hid
  refine ⟨?_, h.nodup, h.bound, fun id' => ?_, h.data⟩
  · have hback := (perm_append_singleton id (s.lruOrder.erase id)).trans
      (perm_cons_erase horder).symm
    exact hback.trans h.perm
  · show update s.unitTierMap id (some .hostRam) id' = some .hostRam ↔ id' ∈ s.cached
    by_cases hne : id' = id
    · subst hne
      simp [hid]
    · rw [update_of_ne hne]
      exact h.hostRam id'

theorem cached_filter (hn : s.cached.Nodup) (id : ℕ) :
    (s.hostWeightCache.filter fun e => e.1 ≠ id).map Prod.fst = s.cached.erase id := by
  rw [hn.erase_eq_filter, cached, List.filter_map]
  congr 1
  refine filter_congr fun e _ => ?_
  by_cases he : e.1 = id <;> simp [he]

/-- Behind an eviction there is room for one unit. -/
theorem Exact.evictLru (h : s.Exact) : s.evictLru.Exact
    ∧ s.evictLru.hostWeightCache.length + 1 ≤ max 1 s.lruCapacityLayers := by
  have hlen : s.hostWeightCache.length = s.lruOrder.length := by
    rw [h.perm.length_eq, cached, length_map]
  unfold NvmeWeightStreamer.evictLru
  split
  · rename_i horder
    refine ⟨h, ?_⟩
    rw [hlen, horder]
    exact le_max_left _ _
  rename_i evicted order horder
  split_ifs with hfull
  swap
  · exact ⟨h, (Nat.succ_le_of_lt (Nat.not_le.mp hfull)).trans (le_max_right _ _)⟩
  have hmem : evicted ∈ s.cached := h.perm.mem_iff.mp (by simp [horder])
  have hcached := cached_filter h.nodup evicted
  have hless : (s.hostWeightCache.filter fun e => e.1 ≠ evicted).length + 1
      = s.hostWeightCache.length := by
    have herase := congrArg List.length hcached
    rw [length_map, length_erase_of_mem hmem, cached, length_map] at herase
    have hpos := length_pos_of_mem hmem
    rw [cached, length_map] at hpos
    omega
  refine ⟨⟨?_, ?_, ?_, fun id => ?_, fun id w hw => ?_⟩, ?_⟩
  · have herase := h.perm.erase evicted
    rw [horder, erase_cons_head, ← hcached] at herase
    exact herase
  · have herase := h.nodup.erase evicted
    rw [← hcached] at herase
    exact herase
  · have hbound := h.bound
    dsimp only
    omega
  · show update s.unitTierMap evicted (some .nvMeWeightStream) id = some .hostRam
      ↔ id ∈ (s.hostWeightCache.filter fun e => e.1 ≠ evicted).map Prod.fst
    rw [hcached, h.nodup.mem_erase_iff]
    by_cases hne : id = evicted
    · subst hne
      simp
    · rw [update_of_ne hne]
      exact (h.hostRam id).trans (by simp [hne])
  · exact h.data id w (mem_of_mem_filter hw)
  · exact hless.le.trans h.bound

theorem Exact.load (h : s.Exact) (hid : id ∉ s.cached)
    (hroom : s.hostWeightCache.length + 1 ≤ max 1 s.lruCapacityLayers) :
    (s.load id (s.unitOf id)).Exact := by
  have hcached : (s.load id (s.unitOf id)).cached = s.cached ++ [id] := map_append
  refine ⟨?_, ?_, ?_, fun id' => ?_, fun id' w hw => ?_⟩
  · rw [hcached]
    exact h.perm.append_right [id]
  · rw [hcached, nodup_append]
    refine ⟨h.nodup, nodup_singleton id, fun a ha b hb => ?_⟩
    rw [mem_singleton.mp hb]
    exact fun heq => hid (heq ▸ ha)
  · show (s.hostWeightCache ++ [(id, s.unitOf id)]).length ≤ _
    rw [length_append]
    exact hroom
  · show update s.unitTierMap id (some .hostRam) id' = some .hostRam ↔ id' ∈ _
    rw [hcached, mem_append, mem_singleton]
    by_cases hne : id' = id
    · subst hne
      simp
    · rw [update_of_ne hne, or_iff_left hne]
      exact h.hostRam id'
  · rcases mem_append.mp hw with hw | hw
    · exact h.data id' w hw
    · cases mem_singleton.mp hw
      rfl

theorem Exact.retrieveUnit (h : s.Exact) (hid : id ∈ s.cached) :
    s.retrieveUnit id = some (s.unitOf id) := by
  rcases hfind : s.hostWeightCache.find? fun e => e.1 = id with - | ⟨id', w⟩
  · obtain ⟨e, he, rfl⟩ := List.mem_map.mp hid
    simpa using find?_eq_none.mp hfind e he
  · have hkey : id' = id := by simpa using find?_some hfind
    subst hkey
    rw [NvmeWeightStreamer.retrieveUnit, hfind, map_some,
      h.data id' w (mem_of_find?_eq_some hfind)]

structure SameFile (s s' : NvmeWeightStreamer) : Prop where
  weights : s'.weights = s.weights
  capacity : s'.lruCapacityLayers = s.lruCapacityLayers
  elems : s'.unitElems = s.unitElems

theorem SameFile.unitOf (h : SameFile s s') (id : ℕ) : s'.unitOf id = s.unitOf id := by
  unfold NvmeWeightStreamer.unitOf
  rw [h.weights, h.elems]

theorem sameFile_evictLru : SameFile s s.evictLru := by
  unfold evictLru
  split
  · exact ⟨rfl, rfl, rfl⟩
  · split_ifs <;> exact ⟨rfl, rfl, rfl⟩

def UnitStored (s : NvmeWeightStreamer) (id : ℕ) : Prop :=
  (id + 1) * (s.unitElems * 4) ≤ s.weights.bytes.length

theorem readLayerWeights_of_stored (hstored : s.UnitStored id) (hpos : 0 < s.unitElems) :
    readLayerWeights s.weights id s.unitElems (s.unitElems * 4 % 2 ^ 64)
      = some (.ok (s.unitOf id)) := by
  have hshort := s.weights.short
  have hunit : (id + 1) * (s.unitElems * 4) ≤ s.weights.bytes.length := hstored
  have hsucc : (id + 1) * (s.unitElems * 4) = id * (s.unitElems * 4) + s.unitElems * 4 := by ring
  have hmod : s.unitElems * 4 % 2 ^ 64 = s.unitElems * 4 := Nat.mod_eq_of_lt (by omega)
  rw [readLayerWeights, hmod, if_neg (by omega), if_neg (by omega), if_neg (by omega),
    if_neg (by omega)]
  rfl

theorem readLayerWeights_ok {w : List UInt32}
    (h : readLayerWeights s.weights id s.unitElems (s.unitElems * 4 % 2 ^ 64) = some (.ok w)) :
    s.UnitStored id ∧ w = s.unitOf id := by
  unfold readLayerWeights at h
  dsimp only at h
  split_ifs at h with h₁ h₂ h₃ h₄
  · cases h
  · cases h
  · cases h
  · have hmod : s.unitElems * 4 % 2 ^ 64 = s.unitElems * 4 := Nat.mod_eq_of_lt (by omega)
    rw [hmod] at h h₃
    have hsucc : (id + 1) * (s.unitElems * 4) = id * (s.unitElems * 4) + s.unitElems * 4 := by ring
    refine ⟨?_, (Except.ok.inj (Option.some.inj h)).symm⟩
    unfold UnitStored
    omega

theorem prefetch_cases {io res : Except String Unit}
    (h : s.prefetchLayerAsync io id = some (s', res)) :
    (s' = s ∧ res ≠ .ok ()) ∨ (s.UnitStored id ∧ res = .ok ()
      ∧ (id ∈ s.cached ∧ s' = s.touch id
        ∨ id ∉ s.cached ∧ s' = s.evictLru.load id (s.unitOf id))) := by
  unfold prefetchLayerAsync at h
  split at h
  · cases h
    exact .inl ⟨rfl, by simp⟩
  obtain ⟨read, hread, h⟩ := map_eq_some_iff.mp h
  rcases read with e | w
  · cases h
    exact .inl ⟨rfl, by simp⟩
  obtain ⟨hstored, rfl⟩ := readLayerWeights_ok hread
  dsimp only at h
  split_ifs at h with hmem <;> cases h
  · exact .inr ⟨hstored, rfl, .inl ⟨hmem, rfl⟩⟩
  · exact .inr ⟨hstored, rfl, .inr ⟨hmem, rfl⟩⟩

theorem prefetch_of_stored (hstored : s.UnitStored id) (hpos : 0 < s.unitElems) :
    ∃ s', s.prefetchLayerAsync (.ok ()) id = some (s', .ok ()) := by
  unfold prefetchLayerAsync
  dsimp only
  rw [readLayerWeights_of_stored hstored hpos, map_some]
  dsimp only
  split_ifs <;> exact ⟨_, rfl⟩

theorem sameFile_prefetch {io res : Except String Unit}
    (h : s.prefetchLayerAsync io id = some (s', res)) : SameFile s s' := by
  rcases prefetch_cases h with ⟨rfl, -⟩ | ⟨-, -, ⟨-, rfl⟩ | ⟨-, rfl⟩⟩
  · exact ⟨rfl, rfl, rfl⟩
  · exact ⟨rfl, rfl, rfl⟩
  · exact ⟨sameFile_evictLru.weights, sameFile_evictLru.capacity, sameFile_evictLru.elems⟩

theorem cached_evictLru : s.evictLru.cached ⊆ s.cached := by
  unfold evictLru
  split
  · exact List.Subset.refl _
  · split_ifs
    · exact map_subset _ (filter_subset_self _)
    · exact List.Subset.refl _

theorem Exact.prefetch {io res : Except String Unit} (h : s.Exact)
    (hp : s.prefetchLayerAsync io id = some (s', res)) :
    s'.Exact ∧ (res = .ok () → id ∈ s'.cached) := by
  rcases prefetch_cases hp with ⟨rfl, hres⟩ | ⟨-, -, ⟨hmem, rfl⟩ | ⟨hmem, rfl⟩⟩
  · exact ⟨h, fun hok => absurd hok hres⟩
  · exact ⟨h.touch hmem, fun _ => hmem⟩
  · obtain ⟨hexact, hroom⟩ := h.evictLru
    have hnew : id ∉ s.evictLru.cached := fun hold => hmem (cached_evictLru hold)
    rw [← sameFile_evictLru.capacity] at hroom
    rw [← sameFile_evictLru.unitOf]
    refine ⟨hexact.load hnew hroom, fun _ => ?_⟩
    show id ∈ (s.evictLru.hostWeightCache ++ [_]).map Prod.fst
    simp

end NvmeWeightStreamer

structure SpilledTable where
  weights : WeightsFile
  lruCapacityUnits : ℕ
  rowsPerUnit : ℕ
  hiddenDim : ℕ
  rows_pos : 0 < rowsPerUnit
  hidden_pos : 0 < hiddenDim
  elems_lt : rowsPerUnit * hiddenDim < 2 ^ 64

namespace SpilledTable

variable (t : SpilledTable)

def manager : EmbeddingSpillManager where
  streamer := .new t.weights t.lruCapacityUnits (t.rowsPerUnit * t.hiddenDim)
  rowsPerUnit := t.rowsPerUnit
  hiddenDim := t.hiddenDim

def row (token : UInt32) : List UInt32 :=
  unwords (slice t.weights.bytes (token.toNat * (t.hiddenDim * 4)) (t.hiddenDim * 4))

def RowStored (token : UInt32) : Prop :=
  (token.toNat + 1) * (t.hiddenDim * 4) ≤ t.weights.bytes.length

instance (token : UInt32) : Decidable (t.RowStored token) := inferInstanceAs (Decidable (_ ≤ _))

def UnitStored (token : UInt32) : Prop :=
  (token.toNat / t.rowsPerUnit + 1) * (t.rowsPerUnit * t.hiddenDim * 4) ≤ t.weights.bytes.length

instance (token : UInt32) : Decidable (t.UnitStored token) := inferInstanceAs (Decidable (_ ≤ _))

structure Serves (m : EmbeddingSpillManager) : Prop where
  exact : m.streamer.Exact
  weights : m.streamer.weights = t.weights
  elems : m.streamer.unitElems = t.rowsPerUnit * t.hiddenDim
  rowsPerUnit : m.rowsPerUnit = t.rowsPerUnit
  hiddenDim : m.hiddenDim = t.hiddenDim

theorem serves_manager : t.Serves t.manager :=
  ⟨NvmeWeightStreamer.exact_new _ _ _, rfl, rfl, rfl, rfl⟩

end SpilledTable

namespace SpilledTable

variable {t : SpilledTable} {m m' : EmbeddingSpillManager} {token : UInt32}

theorem elems_pos : 0 < t.rowsPerUnit * t.hiddenDim := Nat.mul_pos t.rows_pos t.hidden_pos

theorem row_end_le (n : ℕ) :
    (n % t.rowsPerUnit) * t.hiddenDim + t.hiddenDim ≤ t.rowsPerUnit * t.hiddenDim := by
  rw [← Nat.succ_mul]
  exact Nat.mul_le_mul_right _ (Nat.mod_lt _ t.rows_pos)

theorem Serves.unitStored_iff (h : t.Serves m) :
    m.streamer.UnitStored (token.toNat / m.rowsPerUnit) ↔ t.UnitStored token := by
  unfold NvmeWeightStreamer.UnitStored UnitStored
  rw [h.weights, h.elems, h.rowsPerUnit]

theorem slice_unitOf (h : t.Serves m) (token : UInt32) :
    slice (m.streamer.unitOf (token.toNat / t.rowsPerUnit))
      (token.toNat % t.rowsPerUnit * t.hiddenDim) t.hiddenDim = t.row token := by
  have hwithin := t.row_end_le token.toNat
  have hsplit : token.toNat / t.rowsPerUnit * (t.rowsPerUnit * t.hiddenDim * 4)
      + token.toNat % t.rowsPerUnit * t.hiddenDim * 4 = token.toNat * (t.hiddenDim * 4) := by
    have hdiv := Nat.div_add_mod token.toNat t.rowsPerUnit
    nth_rewrite 3 [← hdiv]
    ring
  rw [NvmeWeightStreamer.unitOf, h.weights, h.elems, slice, drop_unwords, take_unwords]
  change unwords (slice (slice _ _ _) _ _) = _
  rw [slice_slice (by omega), hsplit]
  rfl

theorem length_unitOf (h : t.Serves m) (hstored : t.UnitStored token) :
    (m.streamer.unitOf (token.toNat / t.rowsPerUnit)).length = t.rowsPerUnit * t.hiddenDim := by
  have hfile : (token.toNat / t.rowsPerUnit + 1) * (t.rowsPerUnit * t.hiddenDim * 4)
    ≤ t.weights.bytes.length := hstored
  rw [Nat.succ_mul] at hfile
  rw [NvmeWeightStreamer.unitOf, h.weights, h.elems, length_unwords, length_slice]
  omega

theorem serves_of_prefetch (h : t.Serves m) {s : NvmeWeightStreamer} {id : ℕ}
    {io res : Except String Unit}
    (hp : m.streamer.prefetchLayerAsync io id = some (s, res)) :
    t.Serves { m with streamer := s } := by
  have hsame := NvmeWeightStreamer.sameFile_prefetch hp
  exact ⟨(h.exact.prefetch hp).1, hsame.weights.trans h.weights, hsame.elems.trans h.elems,
    h.rowsPerUnit, h.hiddenDim⟩

theorem Serves.lookup (h : t.Serves m) {io : Except String Unit}
    {res : Except String (List UInt32)} (hl : m.lookup io token = some (m', res)) :
    t.Serves m' ∧ ∀ row, res = .ok row → t.UnitStored token ∧ row = t.row token := by
  obtain ⟨⟨s, outcome⟩, hp, hl⟩ := map_eq_some_iff.mp hl
  have hserves := serves_of_prefetch h hp
  rcases outcome with e | u
  · cases hl
    exact ⟨hserves, fun row hrow => by cases hrow⟩
  have hmem := (h.exact.prefetch hp).2 rfl
  have hstored : t.UnitStored token := by
    rcases NvmeWeightStreamer.prefetch_cases hp with ⟨-, hres⟩ | ⟨hstored, -⟩
    · exact absurd rfl hres
    · exact h.unitStored_iff.mp hstored
  have hunit := hserves.exact.retrieveUnit hmem
  have hslice := slice_unitOf hserves token
  dsimp only at hl hunit hslice
  rw [hunit] at hl
  simp only [h.rowsPerUnit, h.hiddenDim] at hl hserves
  split_ifs at hl <;> cases hl
  · exact ⟨hserves, fun row hrow => by cases hrow⟩
  · refine ⟨hserves, fun row hrow => ⟨hstored, ?_⟩⟩
    rw [← hslice, ← Except.ok.inj hrow]

/-- The row of the token is looked up while the file can be read. -/
def LooksUp (t : SpilledTable) (m : EmbeddingSpillManager) (token : UInt32) : Prop :=
  ∃ m', m.lookup (.ok ()) token = some (m', .ok (t.row token))

theorem Serves.looksUp_iff (h : t.Serves m) : t.LooksUp m token ↔ t.UnitStored token := by
  constructor
  · rintro ⟨m', hl⟩
    exact ((h.lookup hl).2 _ rfl).1
  intro hstored
  have hpos : 0 < m.streamer.unitElems := h.elems ▸ t.elems_pos
  obtain ⟨s, hp⟩ := NvmeWeightStreamer.prefetch_of_stored (h.unitStored_iff.mpr hstored) hpos
  have hserves := serves_of_prefetch h hp
  have hunit := hserves.exact.retrieveUnit ((h.exact.prefetch hp).2 rfl)
  have hslice := slice_unitOf hserves token
  have hlen := length_unitOf hserves hstored
  have hwithin := t.row_end_le token.toNat
  dsimp only at hunit hslice hlen
  rw [h.rowsPerUnit] at hp hunit
  refine ⟨{ m with streamer := s }, ?_⟩
  unfold EmbeddingSpillManager.lookup
  dsimp only
  rw [h.rowsPerUnit, hp, map_some]
  dsimp only
  rw [hunit]
  simp only [h.hiddenDim, hlen, if_neg (Nat.not_lt.mpr hwithin), hslice]

end SpilledTable

def NvmeWeightStreamer.step (s : NvmeWeightStreamer) (call : Except String Unit × ℕ) :
    Option NvmeWeightStreamer := (s.prefetchLayerAsync call.1 call.2).map Prod.fst

def EmbeddingSpillManager.step (m : EmbeddingSpillManager) (call : Except String Unit × UInt32) :
    Option EmbeddingSpillManager := (m.lookup call.1 call.2).map Prod.fst

/-- In every state of every run the cache is exact, what is looked up is the row stored, and a row
that is stored is found just when the file has all of its unit. -/
theorem bounded_lookups_exact (weights : WeightsFile) (capacity elems : ℕ) (t : SpilledTable) :
    (∀ s, Steps.Reach NvmeWeightStreamer.step (fun _ _ => True) (.new weights capacity elems) s →
      s.Exact ∧ ∀ id w, s.retrieveUnit id = some w → w = s.unitOf id)
    ∧ ∀ m, Steps.Reach EmbeddingSpillManager.step (fun _ _ => True) t.manager m →
      m.streamer.Exact
      ∧ (∀ io token m' row, m.lookup io token = some (m', .ok row) → row = t.row token)
      ∧ ∀ token, t.RowStored token → (t.LooksUp m token ↔ t.UnitStored token) := by
  constructor
  · intro s hs
    have hexact : s.Exact := by
      refine hs.invariant (NvmeWeightStreamer.exact_new _ _ _) fun s call s' h _ hstep => ?_
      obtain ⟨⟨s', res⟩, hp, rfl⟩ := map_eq_some_iff.mp hstep
      exact (h.prefetch hp).1
    refine ⟨hexact, fun id w hw => ?_⟩
    obtain ⟨e, he, rfl⟩ := map_eq_some_iff.mp hw
    have hkey : e.1 = id := by simpa using find?_some he
    rw [← hkey]
    exact hexact.data e.1 e.2 (mem_of_find?_eq_some he)
  · intro m hm
    have hserves : t.Serves m := by
      refine hm.invariant t.serves_manager fun m call m' h _ hstep => ?_
      obtain ⟨⟨m', res⟩, hl, rfl⟩ := map_eq_some_iff.mp hstep
      exact (h.lookup hl).1
    exact ⟨hserves.exact, fun io token m' row hl => ((hserves.lookup hl).2 row rfl).2,
      fun token _ => hserves.looksUp_iff⟩

/-- A table of `n` rows of one number, two to a unit, with room for one unit. -/
def SpilledTable.pairs (n : ℕ) (hn : n < 2 ^ 32) : SpilledTable where
  weights :=
    { path := "\"table.f32\""
      bytes := words ((List.range n).map UInt32.ofNat)
      short := by
        rw [length_words, length_map, length_range]
        omega }
  lruCapacityUnits := 1
  rowsPerUnit := 2
  hiddenDim := 1
  rows_pos := by decide
  hidden_pos := by decide
  elems_lt := by decide

/-- Rows of two units, the first one read again after it went. -/
theorem bounded_lookups_exact_pairs :
    ∃ m, m.streamer.Exact ∧ (SpilledTable.pairs 4 (by decide)).LooksUp m 3 := by
  let t := SpilledTable.pairs 4 (by decide)
  have hsome : (Steps.exec EmbeddingSpillManager.step (fun _ _ => True) t.manager
      [(.ok (), 1), (.ok (), 2), (.ok (), 0)]).isSome = true := by decide +kernel
  obtain ⟨m, hm⟩ := isSome_iff_exists.mp hsome
  have h := (bounded_lookups_exact t.weights 1 2 t).2 m (Steps.reach_of_exec hm)
  exact ⟨m, h.1, (h.2.2 3 (by decide +kernel)).mpr (by decide +kernel)⟩

/-- The third row is in the file, and its unit is not. -/
theorem last_row_lost : ¬ ∀ (t : SpilledTable) m,
    Steps.Reach EmbeddingSpillManager.step (fun _ _ => True) t.manager m →
      ∀ token, t.RowStored token → t.LooksUp m token := by
  intro hall
  let t := SpilledTable.pairs 3 (by decide)
  obtain ⟨m', hl⟩ := hall t t.manager .start 2 (by decide +kernel)
  have hfails : (t.manager.lookup (.ok ()) 2).map (fun r => r.2.toOption) = some none := by
    decide +kernel
  rw [hl] at hfails
  simp [Except.toOption] at hfails

end Grim.KvTransport
