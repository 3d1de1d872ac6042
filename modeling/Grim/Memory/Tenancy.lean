import Grim.Memory.Promotions
import Grim.Memory.Runs

/-!
# No stale copy comes back, if no write meets one

Runs of a pool and of its caches.  `lastWrite` and `lastDemotion` are the calls that last wrote the
block and last copied it to the spill manager, on the clock of the history's `lastAlloc`.  The calls
of a cache are taken apart where they take the lock of the pool.
-/

namespace Grim.Memory

open KvTransport
open Function (update)

/-- The calls on the pool, and what the calls of the `i`-th cache do between two locks. -/
inductive Use
  | pool (call : Call)
  | insertPrefixAt (tokens : List UInt32) (blocks : List ℕ) (skipBlocks : ℕ) (now : ℕ → ℕ)
  | demoteBlock (id : ℕ) (io : Except String Unit)
  | flushDirtyToHost (order : List ℕ)
  | resetPrefixCache (now : ℕ)
  | markDirty (id : ℕ)
  | setReceived (id : ℕ) (received : Bool)
  | writeKeys (id : ℕ) (keys : List UInt32) (numTokens : ℕ)
  | writeValues (id : ℕ) (values : List UInt32)
  | tryWriteLayerKeys (id layer : ℕ) (keys : List UInt32) (numTokens : ℕ)
  | tryWriteLayerValues (id layer : ℕ) (values : List UInt32)
  | tryWriteLayerPacked (id layer : ℕ) (format : UInt16) (bytes : List UInt8) (numTokens : ℕ)
  | newCache (i numHeads headDim pageSize : ℕ)
  | count (i committed tentative : ℕ)
  | growPages (i layer seq stride : ℕ)
  | reserve (i : ℕ) (now : ℕ → ℕ) (io : Except String Unit)
  | hydrate (i layer stride : ℕ)
  | writeToken (i layer stride : ℕ) (k v : List UInt32) (t seq : ℕ)
      (quantize : List UInt32 → Option (UInt16 × List UInt8))
  | checkAndRepromoteBlocks (i stride : ℕ)
  | dropBlock (i : ℕ) (io : Except String Unit)
  | seedPrefix (i : ℕ) (blocks : List ℕ)

structure Tenancy where
  history : History
  caches : ℕ → PagedKvCache
  lastWrite : ℕ → ℕ
  lastDemotion : ℕ → ℕ

/-- The blocks that a call of the pool copies to the spill manager. -/
def Call.demotes (p : KvBlockPool) : Call → List ℕ
  | .alloc now io => p.allocDemotes now io
  | .free id forceTier io => p.freeDemotes id forceTier io
  | .demoteColdPrefix now _ => p.coldDemotes now
  | _ => []

def PagedKvCache.target (c : PagedKvCache) (layer : ℕ) : Option ℕ :=
  c.layerCommittedTokens[layer]?.bind fun pos => c.table[pos / c.pageSize]?

def KvBlockPool.SameContent (p q : KvBlockPool) (b : ℕ) : Prop :=
  (q.blocks b).keyData = (p.blocks b).keyData ∧ (q.blocks b).valueData = (p.blocks b).valueData
    ∧ (q.blocks b).layerKeys = (p.blocks b).layerKeys
    ∧ (q.blocks b).layerValues = (p.blocks b).layerValues

namespace Tenancy

def new (c : Setup) (blockElems : Option ℕ) (layerGeoms : ℕ → Option ℕ) : Tenancy :=
  let c := { c with spill := blockElems.map LocalSpillManager.new }
  { history := { History.new c with pool := { c.pool with layerGeoms := layerGeoms } }
    caches := fun _ => .new c.pool c.numHeads c.headDim blockSize
    lastWrite := fun _ => 0
    lastDemotion := fun _ => 0 }

variable (s : Tenancy)

abbrev pool : KvBlockPool := s.history.pool

def put (o : Option KvBlockPool) : Option (History × (ℕ → PagedKvCache)) :=
  o.map fun p => (s.history.next p, s.caches)

/-- The `i`-th cache and the pool after a call. -/
def putCache (i : ℕ) (o : Option (PagedKvCache × KvBlockPool)) :
    Option (History × (ℕ → PagedKvCache)) :=
  o.map fun (c, p) => (s.history.next p, update s.caches i c)

def run : Use → Option (History × (ℕ → PagedKvCache))
  | .pool call => (s.history.step call).map fun h => (h, s.caches)
  | .insertPrefixAt tokens blocks skipBlocks now =>
    s.put (s.pool.insertPrefixWithRecurrentStateAt tokens blocks skipBlocks now)
  | .demoteBlock id io => s.put ((s.pool.demotePrefixBlock id io).map (·.1))
  | .flushDirtyToHost order => s.put (some (s.pool.flushDirtyToHost order).1)
  | .resetPrefixCache now => s.put (some (s.pool.resetPrefixCache now).1)
  | .markDirty id => s.put (some (s.pool.markDirty id))
  | .setReceived id received => s.put (some (s.pool.setReceived id received))
  | .writeKeys id keys numTokens => s.put (s.pool.writeKeys id keys numTokens)
  | .writeValues id values => s.put (s.pool.writeValues id values)
  | .tryWriteLayerKeys id layer keys numTokens =>
    s.put ((s.pool.tryWriteLayerKeys id layer keys numTokens).map (·.1))
  | .tryWriteLayerValues id layer values =>
    s.put ((s.pool.tryWriteLayerValues id layer values).map (·.1))
  | .tryWriteLayerPacked id layer format bytes numTokens =>
    s.put (some (s.pool.tryWriteLayerPacked id layer format bytes numTokens).1)
  | .newCache i numHeads headDim pageSize =>
    s.putCache i (some (.new s.pool numHeads headDim pageSize, s.pool))
  | .count i committed tentative =>
    s.putCache i (some ({ s.caches i with
      committedTokens := committed
      tentativeLen := tentative }, s.pool))
  | .growPages i layer seq stride =>
    s.putCache i (some ((s.caches i).growPages layer seq stride, s.pool))
  | .reserve i now io => (s.pool.alloc now io).map fun (p, res) =>
      (s.history.allocated p res, match res with
        | .ok id => update s.caches i
            { s.caches i with table := (s.caches i).table ++ [id] }
        | .error _ => s.caches)
  | .hydrate i layer stride =>
    s.putCache i (((s.caches i).hydrateSeededLayerFromPool s.pool layer stride).map
      fun c => (c, s.pool))
  | .writeToken i layer stride k v t seq quantize =>
    s.putCache i (((s.caches i).writeToken layer stride k v t seq quantize s.pool).map
      fun (c, p, _) => (c, p))
  | .checkAndRepromoteBlocks i stride =>
    s.putCache i (((s.caches i).checkAndRepromoteBlocks stride s.pool).map
      fun (c, p, _) => (c, p))
  | .dropBlock i io =>
    match (s.caches i).table.getLast? with
    | none => s.put (some s.pool)
    | some pid => (s.history.step (.free pid false io)).map fun h =>
        (h, update s.caches i { s.caches i with table := (s.caches i).table.dropLast })
  | .seedPrefix i blocks =>
    let (c, p) := (s.caches i).seedPrefix blocks s.pool
    some ({ s.history.next p with held := fun b => s.history.held b + blocks.count b },
      update s.caches i c)

def demotes : Use → List ℕ
  | .pool call => call.demotes s.pool
  | .demoteBlock id _ => s.pool.prefixDemotes id
  | .flushDirtyToHost order => s.pool.flushDemotes order
  | .reserve _ now io => s.pool.allocDemotes now io
  | .dropBlock i io =>
    match (s.caches i).table.getLast? with
    | none => []
    | some pid => s.pool.freeDemotes pid false io
  | _ => []

def writes : Use → List ℕ
  | .writeKeys id _ _ | .writeValues id _ => [id]
  | .tryWriteLayerKeys id layer row _ | .tryWriteLayerValues id layer row =>
    if id < s.pool.numBlocks ∧ row.length ≤ s.pool.layerElem layer then [id] else []
  | .tryWriteLayerPacked id _ _ _ _ => if id < s.pool.numBlocks then [id] else []
  | .writeToken i layer _ _ _ _ _ _ => ((s.caches i).target layer).toList
  | _ => []

def step (use : Use) : Option Tenancy :=
  (s.run use).map fun (h, caches) =>
    { history := h
      caches := caches
      lastWrite := fun b => if b ∈ s.writes use then h.calls else s.lastWrite b
      lastDemotion := fun b => if b ∈ s.demotes use then h.calls else s.lastDemotion b }

/-- Written since it was last handed out and since it was last demoted. -/
def Written (b : ℕ) : Prop :=
  s.history.lastAlloc b < s.lastWrite b ∧ s.lastDemotion b < s.lastWrite b

/-- No promotion changes a block that its owner has written since the last demotion, in the pool or
in the pages of the cache that promotes. -/
def NoResurrection : Prop :=
  ∀ b, s.Written b →
    (∀ id p res, s.pool.promoteToGpu id = some (p, res) → s.pool.SameContent p b)
      ∧ (∀ tokens p res, s.pool.matchPrefixPromoting tokens = some (p, res) →
        s.pool.SameContent p b)
      ∧ ∀ i stride c p res, (s.caches i).checkAndRepromoteBlocks stride s.pool = some (c, p, res) →
        s.pool.SameContent p b ∧ (s.caches i).SamePages c ((s.caches i).pageSize * stride) b

/-- The spill manager has no copy of the block's size of a block that the call writes. -/
def WritesFresh (use : Use) : Prop := ∀ b ∈ s.writes use, s.pool.copyFor b = none

instance (use : Use) : Decidable (s.WritesFresh use) := by
  unfold WritesFresh
  infer_instance

variable {s} {s' : Tenancy} {use : Use} {h : History} {caches : ℕ → PagedKvCache} {b : ℕ}

theorem put_some {o : Option KvBlockPool} (hr : s.put o = some (h, caches)) :
    ∃ p, o = some p ∧ h = s.history.next p ∧ caches = s.caches := by
  obtain ⟨p, hp, hq⟩ := Option.map_eq_some_iff.mp hr
  cases hq
  exact ⟨p, hp, rfl, rfl⟩

theorem putCache_some {i : ℕ} {o : Option (PagedKvCache × KvBlockPool)}
    (hr : s.putCache i o = some (h, caches)) :
    ∃ c p, o = some (c, p) ∧ h = s.history.next p ∧ caches = update s.caches i c := by
  obtain ⟨⟨c, p⟩, hp, hq⟩ := Option.map_eq_some_iff.mp hr
  cases hq
  exact ⟨c, p, hp, rfl, rfl⟩

def Ticks (h h' : History) : Prop :=
  h'.calls = h.calls + 1 ∧ ∀ b, h'.lastAlloc b = h.lastAlloc b ∨ h'.lastAlloc b = h'.calls

theorem next_ticks {h : History} {p : KvBlockPool} : Ticks h (h.next p) :=
  ⟨rfl, fun _ => .inl rfl⟩

theorem allocated_ticks {h : History} {p : KvBlockPool} {res : Except String ℕ} :
    Ticks h (h.allocated p res) := by
  rcases res with e | id
  · exact next_ticks
  · refine ⟨rfl, fun b => ?_⟩
    by_cases hb : b = id <;> simp [History.allocated, History.next, hb]

open KvBlockPool in
theorem history_step {h h' : History} {call : Call} (hs : h.step call = some h') :
    Ticks h h' ∧ Demotes h.pool h'.pool (call.demotes h.pool) := by
  cases call with
  | alloc now io =>
    obtain ⟨⟨p, res⟩, hp, rfl⟩ := Option.map_eq_some_iff.mp hs
    refine ⟨allocated_ticks, ?_⟩
    rw [History.allocated_pool]
    exact alloc_demotes hp
  | addRef tokens id =>
    cases hs
    exact ⟨⟨rfl, fun _ => .inl rfl⟩, .of_same ⟨rfl, rfl, rfl, rfl, rfl⟩⟩
  | free id forceTier io =>
    obtain ⟨p, hp, rfl⟩ := Option.map_eq_some_iff.mp hs
    exact ⟨⟨rfl, fun _ => .inl rfl⟩, freeWithTier_demotes hp⟩
  | insertPrefix tokens blocks now =>
    obtain ⟨p, hp, rfl⟩ := Option.map_eq_some_iff.mp hs
    obtain ⟨t, -, rfl⟩ := Option.map_eq_some_iff.mp hp
    exact ⟨⟨rfl, fun _ => .inl rfl⟩, .of_same ⟨rfl, rfl, rfl, rfl, rfl⟩⟩
  | removePrefix blocks =>
    cases hs
    exact ⟨next_ticks, .of_same ⟨rfl, rfl, rfl, rfl, rfl⟩⟩
  | pinBlocks blocks secs now =>
    cases hs
    exact ⟨next_ticks, .of_same ⟨rfl, rfl, rfl, rfl, rfl⟩⟩
  | demoteColdPrefix now io =>
    obtain ⟨⟨p, res⟩, hp, rfl⟩ := Option.map_eq_some_iff.mp hs
    exact ⟨next_ticks, demoteColdPrefix_demotes hp⟩
  | promoteToGpu id =>
    obtain ⟨⟨p, res⟩, hp, rfl⟩ := Option.map_eq_some_iff.mp hs
    exact ⟨next_ticks, promoteToGpu_demotes hp⟩
  | matchPrefixPromoting tokens =>
    obtain ⟨⟨p, res⟩, hp, rfl⟩ := Option.map_eq_some_iff.mp hs
    exact ⟨next_ticks, (matchPrefixPromoting_demotes hp).1⟩
  | resizeCapacity n =>
    cases hs
    exact ⟨next_ticks, resizeCapacity_demotes⟩

open KvBlockPool PagedKvCache in
theorem run_step (hr : s.run use = some (h, caches)) :
    Ticks s.history h ∧ Demotes s.pool h.pool (s.demotes use) := by
  -- the calls that leave the caches, and the calls of a cache
  have hput : ∀ {o ids}, s.put o = some (h, caches) →
      (∀ p, o = some p → Demotes s.pool p ids) → Ticks s.history h ∧ Demotes s.pool h.pool ids := by
    intro o ids hr hd
    obtain ⟨p, hp, rfl, -⟩ := put_some hr
    exact ⟨next_ticks, hd p hp⟩
  have hputCache : ∀ {i o ids}, s.putCache i o = some (h, caches) →
      (∀ c p, o = some (c, p) → Demotes s.pool p ids) →
      Ticks s.history h ∧ Demotes s.pool h.pool ids := by
    intro i o ids hr hd
    obtain ⟨c, p, hp, rfl, -⟩ := putCache_some hr
    exact ⟨next_ticks, hd c p hp⟩
  cases use with
  | pool call =>
    obtain ⟨h', hh, hq⟩ := Option.map_eq_some_iff.mp hr
    cases hq
    exact history_step hh
  | insertPrefixAt tokens blocks skipBlocks now =>
    refine hput hr fun p hp => ?_
    obtain ⟨t, -, rfl⟩ := Option.map_eq_some_iff.mp hp
    split
    · split <;> exact .of_same ⟨rfl, rfl, rfl, rfl, rfl⟩
    · exact .of_same ⟨rfl, rfl, rfl, rfl, rfl⟩
  | demoteBlock id io =>
    refine hput hr fun p hp => ?_
    obtain ⟨⟨p', d⟩, hp', rfl⟩ := Option.map_eq_some_iff.mp hp
    exact demotePrefixBlock_demotes hp'
  | flushDirtyToHost order =>
    refine hput hr fun p hp => ?_
    cases hp
    exact flushDirtyToHost_demotes
  | resetPrefixCache now =>
    refine hput hr fun p hp => ?_
    cases hp
    exact resetPrefixCache_demotes
  | markDirty id =>
    refine hput hr fun p hp => ?_
    cases hp
    exact markDirty_demotes
  | setReceived id received =>
    refine hput hr fun p hp => ?_
    cases hp
    exact setReceived_demotes
  | writeKeys id keys n => exact hput hr fun p hp => writeKeys_demotes hp
  | writeValues id values => exact hput hr fun p hp => writeValues_demotes hp
  | tryWriteLayerKeys id layer keys n =>
    refine hput hr fun p hp => ?_
    obtain ⟨⟨p', res⟩, hp', rfl⟩ := Option.map_eq_some_iff.mp hp
    exact tryWriteLayerKeys_demotes hp'
  | tryWriteLayerValues id layer values =>
    refine hput hr fun p hp => ?_
    obtain ⟨⟨p', res⟩, hp', rfl⟩ := Option.map_eq_some_iff.mp hp
    exact tryWriteLayerValues_demotes hp'
  | tryWriteLayerPacked id layer format bytes n =>
    refine hput hr fun p hp => ?_
    cases hp
    exact tryWriteLayerPacked_alike.1.demotes tryWriteLayerPacked_alike.2
  | newCache i numHeads headDim pageSize =>
    refine hputCache hr fun c p hp => ?_
    cases hp
    exact .refl _
  | count i committed tentative =>
    refine hputCache hr fun c p hp => ?_
    cases hp
    exact .refl _
  | growPages i layer seq stride =>
    refine hputCache hr fun c p hp => ?_
    cases hp
    exact .refl _
  | reserve i now io =>
    obtain ⟨⟨p, res⟩, hp, hq⟩ := Option.map_eq_some_iff.mp hr
    cases hq
    refine ⟨allocated_ticks, ?_⟩
    rw [History.allocated_pool]
    exact alloc_demotes hp
  | hydrate i layer stride =>
    refine hputCache hr fun c p hp => ?_
    obtain ⟨c', -, hq⟩ := Option.map_eq_some_iff.mp hp
    cases hq
    exact .refl _
  | writeToken i layer stride k v t seq quantize =>
    refine hputCache hr fun c p hp => ?_
    obtain ⟨⟨c', p', res⟩, hp', hq⟩ := Option.map_eq_some_iff.mp hp
    cases hq
    exact writeToken_demotes hp'
  | checkAndRepromoteBlocks i stride =>
    refine hputCache hr fun c p hp => ?_
    obtain ⟨⟨c', p', res⟩, hp', hq⟩ := Option.map_eq_some_iff.mp hp
    cases hq
    exact (checkAndRepromoteBlocks_demotes hp').1
  | dropBlock i io =>
    simp only [run] at hr
    simp only [demotes]
    split at hr
    · refine hput hr fun p hp => ?_
      cases hp
      exact .refl _
    · obtain ⟨h', hh, hq⟩ := Option.map_eq_some_iff.mp hr
      cases hq
      exact history_step hh
  | seedPrefix i blocks =>
    cases hr
    exact ⟨⟨rfl, fun _ => .inl rfl⟩, addRefs_demotes⟩

/-- A block that its owner has written since the last demotion has no copy of its size. -/
structure Inv (s : Tenancy) : Prop where
  own : s.pool.OwnFiles
  sized : s.pool.Sized
  clock : ∀ b, s.lastWrite b ≤ s.history.calls
  fresh : ∀ b, s.Written b → s.pool.copyFor b = none

theorem inv_new (c : Setup) (blockElems : Option ℕ) (layerGeoms : ℕ → Option ℕ) :
    (new c blockElems layerGeoms).Inv where
  own := by
    intro m hm b
    obtain ⟨n, -, rfl⟩ := Option.map_eq_some_iff.mp hm
    exact (LocalSpillManager.History.inv_new n b).1
  sized := by
    intro b
    simp [new, History.new, Setup.pool, KvBlockPool.new, KvBlock.fresh, KvBlockPool.blockElem]
  clock := fun _ => le_rfl
  fresh := fun _ hw => absurd hw.1 (lt_irrefl _)

theorem Inv.step (hi : s.Inv) (hok : s.WritesFresh use) (hs : s.step use = some s') : s'.Inv := by
  obtain ⟨⟨h, caches⟩, hr, rfl⟩ := Option.map_eq_some_iff.mp hs
  obtain ⟨⟨hcalls, halloc⟩, hd⟩ := run_step hr
  refine ⟨hd.own hi.own, hd.sized hi.sized, ?_, ?_⟩
  · intro b
    have := hi.clock b
    dsimp only
    split_ifs <;> omega
  · rintro b ⟨ha, hm⟩
    dsimp only at ha hm
    by_cases hb : b ∈ s.demotes use
    · -- demoted by this call, so not written since
      have := hi.clock b
      rw [if_pos hb] at hm
      split_ifs at hm <;> omega
    · refine hd.copy hi.own hi.sized b hb ?_
      rw [if_neg hb] at hm
      by_cases hw : b ∈ s.writes use
      · exact hok b hw
      · rw [if_neg hw] at ha hm
        refine hi.fresh b ⟨?_, hm⟩
        have := hi.clock b
        rcases halloc b with h | h <;> omega

theorem Inv.noResurrection (hi : s.Inv) : s.NoResurrection := by
  intro b hw
  have hc := hi.fresh b hw
  have hsame : ∀ {p : KvBlockPool}, p.blocks b = s.pool.blocks b → s.pool.SameContent p b := by
    intro p hp
    unfold KvBlockPool.SameContent
    rw [hp]
    exact ⟨rfl, rfl, rfl, rfl⟩
  refine ⟨?_, ?_, ?_⟩
  · intro id p res h
    exact hsame (KvBlockPool.promoteToGpu_keeps hi.sized hc h)
  · intro tokens p res h
    exact hsame ((KvBlockPool.matchPrefixPromoting_demotes h).2 hi.own hi.sized b hc)
  · intro i stride c p res h
    obtain ⟨hblock, hpages⟩ :=
      (PagedKvCache.checkAndRepromoteBlocks_demotes h).2 hi.own hi.sized b hc
    exact ⟨hsame hblock, hpages⟩

/-- Where no write goes to a block that the spill manager has a copy of, no promotion ever puts an
older copy over what a block's owner wrote. -/
theorem no_stale_copy (c : Setup) (blockElems : Option ℕ) (layerGeoms : ℕ → Option ℕ)
    (s : Tenancy) (hr : Steps.Reach step WritesFresh (new c blockElems layerGeoms) s) :
    s.NoResurrection :=
  (hr.invariant (inv_new c blockElems layerGeoms)
    fun _ _ _ hi hok hs => hi.step hok hs).noResurrection

/-- What an append of one token to layer 0 does with cache `i`, up to its promotions. -/
def token (i : ℕ) (x : UInt32) : List Use :=
  [.growPages i 0 1 1, .reserve i (fun _ => 0) (.ok ()), .hydrate i 0 1, .count i 1 0,
    .writeToken i 0 1 [x] [x] 0 1 fun _ => none]

/-- The first sequence's block goes to the spill manager, and the second one has another. -/
theorem no_stale_copy_two : ∃ s,
    Steps.Reach step WritesFresh (new (.tiny 2 none) (some 16) fun _ => none) s
      ∧ s.Written 1 ∧ (s.pool.copyFor 0).isSome ∧ s.NoResurrection := by
  have hrun : (Steps.exec step WritesFresh (new (.tiny 2 none) (some 16) fun _ => none)
      (token 0 7 ++ [.checkAndRepromoteBlocks 0 1, .dropBlock 0 (.ok ())] ++ token 1 9)).map
      (fun s => (s.history.lastAlloc 1, s.lastWrite 1, s.lastDemotion 1,
        (s.pool.copyFor 0).isSome)) = some (9, 12, 0, true) := by decide +kernel
  obtain ⟨s, hs, hf⟩ := Option.map_eq_some_iff.mp hrun
  have hr := Steps.reach_of_exec hs
  obtain ⟨ha, hw, hd, hc⟩ : s.history.lastAlloc 1 = 9 ∧ s.lastWrite 1 = 12 ∧ s.lastDemotion 1 = 0
      ∧ (s.pool.copyFor 0).isSome := by simpa using hf
  exact ⟨s, hr, ⟨by omega, by omega⟩, hc, no_stale_copy _ _ _ s hr⟩

/-- With one block the second sequence gets the first one's, and loses its token to the copy. -/
theorem stale_copy_restored : ¬ ∀ (c : Setup) (blockElems : Option ℕ) (layerGeoms : ℕ → Option ℕ)
    (s : Tenancy), Steps.Reach step (fun _ _ => True) (new c blockElems layerGeoms) s →
      s.NoResurrection := by
  intro hall
  have hrun : (Steps.exec step (fun _ _ => True) (new (.tiny 1 none) (some 16) fun _ => none)
      (token 0 7 ++ [.checkAndRepromoteBlocks 0 1, .dropBlock 0 (.ok ())] ++ token 1 9)).map
      (fun s => (s.history.lastAlloc 0, s.lastWrite 0, s.lastDemotion 0,
        (s.pool.blocks 0).keyData.headD 0,
        ((s.caches 1).checkAndRepromoteBlocks 1 s.pool).map
          fun r => (r.2.1.blocks 0).keyData.headD 0))
      = some (9, 12, 7, 9, some 7) := by decide +kernel
  obtain ⟨s, hs, hf⟩ := Option.map_eq_some_iff.mp hrun
  obtain ⟨ha, hw, hd, hold, hnew⟩ : s.history.lastAlloc 0 = 9 ∧ s.lastWrite 0 = 12
      ∧ s.lastDemotion 0 = 7 ∧ (s.pool.blocks 0).keyData.headD 0 = 9
      ∧ ((s.caches 1).checkAndRepromoteBlocks 1 s.pool).map
          (fun r => (r.2.1.blocks 0).keyData.headD 0) = some 7 := by
    simpa only [Prod.mk.injEq] using hf
  obtain ⟨⟨c, p, res⟩, hcheck, hnew⟩ := Option.map_eq_some_iff.mp hnew
  have hno := hall _ _ _ s (Steps.reach_of_exec hs) 0 ⟨by omega, by omega⟩
  have hsame := hno.2.2 1 1 c p res hcheck
  have hnew : (p.blocks 0).keyData.headD 0 = 7 := hnew
  rw [hsame.1.1, hold] at hnew
  exact absurd hnew (by decide)

end Tenancy

end Grim.Memory
