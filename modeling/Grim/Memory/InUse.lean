import Grim.Memory.Draws
import Grim.Memory.Evictions
import Grim.Memory.Sharing
import Grim.Memory.Tenancy

/-!
# The tree of a pool in use

Every call of a pool, and every call of a cache on it, keeps the attached nodes a tree.
-/

namespace Grim.Memory

namespace KvBlockPool

variable {p q : KvBlockPool}

theorem alloc_parented (hp : p.prefixTree.Parented) {now : ℕ → ℕ} {io : Except String Unit}
    {res : Except String ℕ} (h : p.alloc now io = some (q, res)) : q.prefixTree.Parented := by
  obtain ⟨t, ht, hq⟩ := alloc_prefixTree h
  have hevict : t.Parented := by
    rcases ht with rfl | rfl
    · exact hp
    · exact @RadixTree.Parented.step _ _ hp (.evictColdestChain now) rfl
  rcases hq with hq | ⟨id, hq⟩ <;> rw [hq]
  · exact hevict
  · exact RadixTree.remove_shape.parented hevict

theorem insertAt_parented (hp : p.prefixTree.Parented) {tokens : List UInt32} {blocks : List ℕ}
    {skipBlocks : ℕ} {now : ℕ → ℕ} {t t' : RadixTree}
    (ht : p.prefixTree.insertAt tokens blocks skipBlocks now = some t) (hs : t.SameShape t') :
    t'.Parented :=
  hs.parented (@RadixTree.Parented.step _ _ hp (.insertAt tokens blocks skipBlocks now) ht)

theorem history_parented {h h' : History} {call : Call} (hp : h.pool.prefixTree.Parented)
    (hs : h.step call = some h') : h'.pool.prefixTree.Parented := by
  rcases step_tree hs with ⟨-, hshape | ⟨now, io, res, hq⟩⟩ | ⟨tokens, blocks, now, t, -, ht,
    hshape⟩
  · exact hshape.parented hp
  · exact alloc_parented hp hq
  · exact insertAt_parented hp ht hshape

theorem tryWriteLayer_prefixTree {fn : String} {first : KvBlock → Option KvBlock}
    {layers : KvBlock → List (List UInt32)} {setLayers : KvBlock → List (List UInt32) → KvBlock}
    {id layer : ℕ} {row : List UInt32} {res : Except String Unit}
    (h : p.tryWriteLayer fn first layers setLayers id layer row = some (q, res)) :
    q.prefixTree = p.prefixTree := by
  simp only [tryWriteLayer] at h
  split at h
  · cases h
    rfl
  · split at h
    · cases h
      rfl
    · obtain ⟨b, -, hq⟩ := Option.map_eq_some_iff.mp h
      cases hq
      rfl

theorem addRefs_prefixTree {blocks : List ℕ} : ∀ {p : KvBlockPool},
    (blocks.foldl (fun p b => p.addRef b) p).prefixTree = p.prefixTree := by
  induction blocks with
  | nil => exact fun {_} => rfl
  | cons bid blocks ih => exact fun {p} => ih (p := p.addRef bid)

end KvBlockPool

namespace Tenancy

variable {s s' : Tenancy} {use : Use} {h : History} {caches : ℕ → PagedKvCache}

open KvBlockPool PagedKvCache in
theorem run_parented (hp : s.pool.prefixTree.Parented) (hr : s.run use = some (h, caches)) :
    h.pool.prefixTree.Parented := by
  -- most calls leave the tree alone
  have hput : ∀ {o}, s.put o = some (h, caches) →
      (∀ p, o = some p → p.prefixTree = s.pool.prefixTree) → h.pool.prefixTree.Parented := by
    intro o hr ht
    obtain ⟨p, hq, rfl, -⟩ := put_some hr
    exact ht p hq ▸ hp
  have hputCache : ∀ {i o}, s.putCache i o = some (h, caches) →
      (∀ c p, o = some (c, p) → p.prefixTree = s.pool.prefixTree) → h.pool.prefixTree.Parented := by
    intro i o hr ht
    obtain ⟨c, p, hq, rfl, -⟩ := putCache_some hr
    exact ht c p hq ▸ hp
  cases use with
  | pool call =>
    obtain ⟨h', hh, hq⟩ := Option.map_eq_some_iff.mp hr
    cases hq
    exact history_parented hp hh
  | insertPrefixAt tokens blocks skipBlocks now =>
    obtain ⟨p, hq, rfl, -⟩ := put_some hr
    obtain ⟨t, ht, hshape⟩ := insertPrefixWithRecurrentStateAt_tree hq
    exact insertAt_parented hp ht hshape
  | demoteBlock id io =>
    refine hput hr fun p hq => ?_
    obtain ⟨⟨p', d⟩, hq', rfl⟩ := Option.map_eq_some_iff.mp hq
    exact (demotePrefixBlock_books hq').2
  | flushDirtyToHost order =>
    refine hput hr fun p hq => ?_
    cases hq
    unfold flushDirtyToHost
    split <;> rfl
  | resetPrefixCache now =>
    obtain ⟨p, hq, rfl, -⟩ := put_some hr
    cases hq
    exact RadixTree.parented_new blockSize now
  | markDirty id =>
    refine hput hr fun p hq => ?_
    cases hq
    unfold markDirty
    split_ifs <;> rfl
  | setReceived id received =>
    refine hput hr fun p hq => ?_
    cases hq
    unfold setReceived
    split_ifs <;> rfl
  | writeKeys id keys n =>
    refine hput hr fun p hq => ?_
    unfold writeKeys at hq
    split_ifs at hq
    obtain ⟨data, -, rfl⟩ := Option.map_eq_some_iff.mp hq
    rfl
  | writeValues id values =>
    refine hput hr fun p hq => ?_
    unfold writeValues at hq
    split_ifs at hq
    obtain ⟨data, -, rfl⟩ := Option.map_eq_some_iff.mp hq
    rfl
  | tryWriteLayerKeys id layer keys n =>
    refine hput hr fun p hq => ?_
    obtain ⟨⟨p', res⟩, hq', rfl⟩ := Option.map_eq_some_iff.mp hq
    exact tryWriteLayer_prefixTree hq'
  | tryWriteLayerValues id layer values =>
    refine hput hr fun p hq => ?_
    obtain ⟨⟨p', res⟩, hq', rfl⟩ := Option.map_eq_some_iff.mp hq
    exact tryWriteLayer_prefixTree hq'
  | tryWriteLayerPacked id layer format bytes n =>
    refine hput hr fun p hq => ?_
    cases hq
    unfold tryWriteLayerPacked
    split_ifs <;> rfl
  | newCache i numHeads headDim pageSize =>
    refine hputCache hr fun c p hq => ?_
    cases hq
    rfl
  | count i committed tentative =>
    refine hputCache hr fun c p hq => ?_
    cases hq
    rfl
  | growPages i layer seq stride =>
    refine hputCache hr fun c p hq => ?_
    cases hq
    rfl
  | reserve i now io =>
    obtain ⟨⟨p, res⟩, hq, heq⟩ := Option.map_eq_some_iff.mp hr
    cases heq
    rw [History.allocated_pool]
    exact alloc_parented hp hq
  | hydrate i layer stride =>
    refine hputCache hr fun c p hq => ?_
    obtain ⟨c', -, heq⟩ := Option.map_eq_some_iff.mp hq
    cases heq
    rfl
  | writeToken i layer stride k v t seq quantize =>
    refine hputCache hr fun c p hq => ?_
    obtain ⟨⟨c', p', res⟩, hq', heq⟩ := Option.map_eq_some_iff.mp hq
    cases heq
    obtain ⟨⟨ids, hd, -⟩, -⟩ := (writeToken_extends (L := 0) hq').1
    exact hd.tree
  | checkAndRepromoteBlocks i stride =>
    refine hputCache hr fun c p hq => ?_
    obtain ⟨⟨c', p', res⟩, hq', heq⟩ := Option.map_eq_some_iff.mp hq
    cases heq
    exact (checkAndRepromoteBlocks_plan hq').2.tree
  | dropBlock i io =>
    simp only [run] at hr
    split at hr
    · refine hput hr fun p hq => ?_
      cases hq
      rfl
    · obtain ⟨h', hh, heq⟩ := Option.map_eq_some_iff.mp hr
      cases heq
      exact history_parented hp hh
  | seedPrefix i blocks =>
    cases hr
    show (blocks.foldl (fun p b => p.addRef b) s.pool).prefixTree.Parented
    rwa [addRefs_prefixTree]

theorem reach_parented (c : Setup) (blockElems : Option ℕ) (layerGeoms : ℕ → Option ℕ)
    (hr : Steps.Reach step (fun _ _ => True) (new c blockElems layerGeoms) s) :
    s.pool.prefixTree.Parented := by
  refine hr.invariant (I := fun s => s.pool.prefixTree.Parented)
    (RadixTree.parented_new blockSize c.now) fun _ _ _ hp _ hs => ?_
  obtain ⟨⟨h, caches⟩, hrun, rfl⟩ := Option.map_eq_some_iff.mp hs
  exact run_parented hp hrun

end Tenancy

end Grim.Memory
