import Grim.Memory.Links
import Grim.Memory.Books
import Grim.Memory.PagedRows

/-!
# What an append draws from the pool

While every node of the tree is claimed and every unreferenced page is on the GPU (`Quiet`), an
allocation takes the first free page or fails.  An append then draws the pages its table lacks and
moves the cursor of its layer; the rest of the cache's plan stays.
-/

namespace Grim.Memory

open KvTransport Slice List Option
open Function (update update_self update_of_ne)

namespace KvBlockPool

variable {p q : KvBlockPool}

structure Quiet (p : KvBlockPool) : Prop where
  nodup : p.freeList.Nodup
  free_ref : ∀ b ∈ p.freeList, p.refCounts b = none
  onGpu : ∀ b, p.refCounts b = none → (p.blocks b).location = .gpu
  claimed : ∀ n < p.prefixTree.size, n ≠ p.prefixTree.root → 0 < (p.prefixTree.nodes n).refCount

/-- `q` is `p` with the first pages `ids` taken off the free list, and contents that may differ. -/
structure Draws (p q : KvBlockPool) (ids : List ℕ) : Prop where
  tree : q.prefixTree = p.prefixTree
  free : p.freeList = ids ++ q.freeList
  refs : ∀ b, q.refCounts b = none ↔ p.refCounts b = none ∧ b ∉ ids
  onGpu : ∀ b, (p.blocks b).location = .gpu → (q.blocks b).location = .gpu

theorem Draws.refl (p : KvBlockPool) : Draws p p [] :=
  ⟨rfl, rfl, fun b => by simp, fun _ h => h⟩

theorem Draws.trans {r : KvBlockPool} {ids ids' : List ℕ} (h : Draws p q ids)
    (h' : Draws q r ids') : Draws p r (ids ++ ids') := by
  refine ⟨h'.tree.trans h.tree, ?_, ?_, fun b hb => h'.onGpu b (h.onGpu b hb)⟩
  · rw [h.free, h'.free, append_assoc]
  · intro b
    rw [h'.refs, h.refs, mem_append, not_or, and_assoc]

/-- Books and tree are the same, contents may differ, and what is on the GPU stays there. -/
structure Rewrites (p q : KvBlockPool) : Prop where
  books : SameBooks p q
  tree : q.prefixTree = p.prefixTree
  onGpu : ∀ b, (p.blocks b).location = .gpu → (q.blocks b).location = .gpu

theorem Rewrites.refl (p : KvBlockPool) : Rewrites p p := ⟨.rfl, rfl, fun _ h => h⟩

theorem Rewrites.trans {r : KvBlockPool} (h : Rewrites p q) (h' : Rewrites q r) : Rewrites p r :=
  ⟨h.books.trans h'.books, h'.tree.trans h.tree, fun b hb => h'.onGpu b (h.onGpu b hb)⟩

theorem Rewrites.draws (h : Rewrites p q) : Draws p q [] := by
  obtain ⟨⟨hf, -, hr⟩, ht, hg⟩ := h
  exact ⟨ht, by rw [hf, nil_append], fun b => by simp [hr], hg⟩

theorem Quiet.draws (h : p.Quiet) {ids : List ℕ} (hd : Draws p q ids) : q.Quiet := by
  have hnodup := h.nodup
  rw [hd.free, nodup_append] at hnodup
  refine ⟨hnodup.2.1, ?_, ?_, ?_⟩
  · intro b hb
    refine (hd.refs b).mpr ⟨h.free_ref b ?_, ?_⟩
    · rw [hd.free]
      exact mem_append_right _ hb
    · intro hmem
      exact hnodup.2.2 b hmem b hb rfl
  · intro b hb
    exact hd.onGpu b (h.onGpu b ((hd.refs b).mp hb).1)
  · rw [hd.tree]
    exact h.claimed

theorem Quiet.coldest (h : p.Quiet) (now : ℕ → ℕ) : p.prefixTree.coldest now = none := by
  rcases hc : p.prefixTree.coldest now with - | idx
  · rfl
  · obtain ⟨hev, hlt⟩ := RadixTree.coldest_evictable hc
    simp only [RadixTree.evictable, Bool.and_eq_true, decide_eq_true_eq] at hev
    have := h.claimed idx hlt hev.1.1.1.1
    omega

theorem Quiet.evictFor (h : p.Quiet) {now : ℕ → ℕ} {io : Except String Unit}
    (hq : p.evictFor now io = some q) : q = p := by
  unfold KvBlockPool.evictFor at hq
  split_ifs at hq
  · have hchain : p.prefixTree.evictColdestChain now = (p.prefixTree, []) := by
      unfold RadixTree.evictColdestChain
      rw [h.coldest]
    simp only [KvBlockPool.evictCold, hchain, map_some, Option.some.injEq] at hq
    exact hq.symm
  · exact (Option.some.inj hq).symm

theorem Quiet.reclaimFor (h : p.Quiet) (now : ℕ → ℕ) : p.reclaimFor now = p := by
  unfold KvBlockPool.reclaimFor
  split_ifs
  · rcases @reclaimSpilledColdest_books p now with heq | ⟨id, hid, -⟩
    · exact heq
    · obtain ⟨-, hnone, hloc⟩ := spilledColdest_some hid
      exact absurd (h.onGpu id hnone) hloc
  · rfl

theorem Quiet.alloc (h : p.Quiet) {now : ℕ → ℕ} {io : Except String Unit} {res : Except String ℕ}
    (hq : p.alloc now io = some (q, res)) :
    (∃ e, res = .error e ∧ Draws p q []) ∨ ∃ id, res = .ok id ∧ Draws p q [id] := by
  obtain ⟨r, hr, hq⟩ := map_eq_some_iff.mp hq
  rw [h.evictFor hr, h.reclaimFor] at hq
  unfold KvBlockPool.popFree at hq
  split at hq
  · cases hq
    exact .inl ⟨_, rfl, .refl p⟩
  · rename_i id rest hfree
    cases hq
    refine .inr ⟨id, rfl, rfl, hfree, ?_, fun _ hb => hb⟩
    intro b
    by_cases hb : b = id <;> simp [hb]

theorem modify_rewrites (id : ℕ) {f : KvBlock → KvBlock} (hf : ∀ b, (f b).location = b.location) :
    Rewrites p (p.modify id f) := by
  refine ⟨.rfl, rfl, ?_⟩
  intro b hb
  by_cases hbid : b = id
  · subst hbid
    simpa [KvBlockPool.modify, hf] using hb
  · simpa [KvBlockPool.modify, hbid] using hb

section Store

variable {id layer within n : ℕ} {k v : List UInt32}
  {quantize : List UInt32 → Option (UInt16 × List UInt8)}

theorem storeFirst_rewrites (h : p.storeFirst id within k v n = some q) : Rewrites p q := by
  simp only [storeFirst] at h
  split_ifs at h
  · obtain ⟨keys, -, h⟩ := bind_eq_some_iff.mp h
    obtain ⟨values, -, rfl⟩ := map_eq_some_iff.mp h
    exact modify_rewrites id fun _ => rfl
  · cases h
    exact .refl p

theorem storeLayer_rewrites (h : p.storeLayer id layer within k v = some q) : Rewrites p q := by
  simp only [storeLayer] at h
  split_ifs at h
  · obtain ⟨keys, -, h⟩ := bind_eq_some_iff.mp h
    obtain ⟨values, -, rfl⟩ := map_eq_some_iff.mp h
    refine Rewrites.trans ?_ (modify_rewrites id fun _ => rfl)
    exact modify_rewrites id fun _ => rfl
  · cases h
    exact modify_rewrites id fun _ => rfl

theorem storePacked_rewrites : Rewrites p (p.storePacked id layer quantize) := by
  rcases p.storePacked_cases id layer quantize with heq | ⟨format, bytes, n, heq⟩ <;> rw [heq]
  · exact .refl p
  · unfold tryWriteLayerPacked
    split_ifs
    · exact .refl p
    · have hd : Rewrites p (p.modify id fun b => { b with
          layerPacked := (b.layerPacked ++
            List.replicate (layer + 1 - b.layerPacked.length) none).set layer
              (some (.packed format bytes))
          numTokens := min n blockSize
          received := true }) := modify_rewrites id fun _ => rfl
      exact ⟨hd.books, hd.tree, hd.onGpu⟩

theorem storeToken_rewrites (h : p.storeToken id layer within k v n quantize = some q) :
    Rewrites p q := by
  unfold storeToken at h
  split at h
  · cases h
  · obtain ⟨r, hr, rfl⟩ := map_eq_some_iff.mp h
    refine Rewrites.trans ?_ storePacked_rewrites
    split at hr
    · exact storeFirst_rewrites hr
    · exact storeLayer_rewrites hr

end Store

theorem install_onGpu {id : ℕ} {k v : List UInt32}
    {res : Except String (Option (List UInt32 × List UInt32))}
    (h : p.install id k v = some (q, res)) :
    ∀ b, (p.blocks b).location = .gpu → (q.blocks b).location = .gpu := by
  simp only [install] at h
  split_ifs at h
  · cases h
    exact fun _ hb => hb
  · cases h
    intro b hb
    by_cases hbid : b = id
    · subst hbid
      simp [KvBlockPool.modify]
    · simpa [KvBlockPool.modify, hbid] using hb

theorem promoteToGpu_rewrites {id : ℕ} {res : Except String (Option (List UInt32 × List UInt32))}
    (h : p.promoteToGpu id = some (q, res)) : Rewrites p q := by
  refine ⟨(promoteToGpu_books h).1, (promoteToGpu_books h).2, ?_⟩
  unfold promoteToGpu at h
  split at h
  · cases h
    exact fun _ hb => hb
  · simp only [] at h
    split at h
    · cases h
      exact fun _ hb => hb
    · cases h
      exact fun _ hb => hb
    · split_ifs at h
      have hq := install_onGpu h
      exact hq
    · split at h
      · cases h
        exact fun _ hb => hb
      · split at h
        · cases h
          exact fun _ hb => hb
        · split_ifs at h
          have hq := install_onGpu h
          exact hq

theorem promoteAll_rewrites {blocks : List ℕ} : ∀ {p q : KvBlockPool} {b : Bool},
    promoteAll blocks p = some (q, b) → Rewrites p q := by
  induction blocks with
  | nil =>
    intro p q b h
    cases h
    exact .refl p
  | cons bid blocks ih =>
    intro p q b h
    unfold promoteAll at h
    split_ifs at h
    · exact ih h
    · obtain ⟨⟨r, copy⟩, hr, h⟩ := bind_eq_some_iff.mp h
      obtain ⟨⟨r', b'⟩, hr', hq⟩ := map_eq_some_iff.mp h
      cases hq
      exact (promoteToGpu_rewrites hr).trans (ih hr')

end KvBlockPool

open KvBlockPool

namespace PagedKvCache

variable {c c' : PagedKvCache} {p p' : KvBlockPool} {L l : ℕ} {res : Except String Unit}

/-- What every part of an append does, also one that fails: the table grows by the pages drawn, the
count of the tokens does not go back, and the cache has at most `L` layers. -/
structure Extends (L : ℕ) (c c' : PagedKvCache) (p p' : KvBlockPool) : Prop where
  draws : ∃ ids, Draws p p' ids ∧ c'.table = c.table ++ ids
  page : c'.pageSize = c.pageSize
  committed : c.committedTokens ≤ c'.committedTokens
  cursors : c.layerCommittedTokens.length = c.kPages.length →
    c'.layerCommittedTokens.length = c'.kPages.length
  layers : c.kPages.length ≤ L → c'.kPages.length ≤ L

theorem Extends.refl (L : ℕ) (c : PagedKvCache) (p : KvBlockPool) : Extends L c c p p :=
  ⟨⟨[], .refl p, by simp⟩, rfl, le_refl _, id, id⟩

theorem Extends.trans {c'' : PagedKvCache} {p'' : KvBlockPool} (h : Extends L c c' p p')
    (h' : Extends L c' c'' p' p'') : Extends L c c'' p p'' := by
  obtain ⟨ids, hd, ht⟩ := h.draws
  obtain ⟨ids', hd', ht'⟩ := h'.draws
  refine ⟨⟨ids ++ ids', hd.trans hd', ?_⟩, h'.page.trans h.page, h.committed.trans h'.committed,
    fun hn => h'.cursors (h.cursors hn), fun hn => h'.layers (h.layers hn)⟩
  rw [ht', ht, append_assoc]

theorem Extends.quiet (h : Extends L c c' p p') (hq : p.Quiet) : p'.Quiet := by
  obtain ⟨ids, hd, -⟩ := h.draws
  exact hq.draws hd

structure SamePlan (c c' : PagedKvCache) : Prop where
  table : c'.table = c.table
  page : c'.pageSize = c.pageSize
  committed : c'.committedTokens = c.committedTokens
  cursors : c'.layerCommittedTokens = c.layerCommittedTokens
  count : c'.kPages.length = c.kPages.length
  tentative : c'.tentativeLen = c.tentativeLen

theorem SamePlan.refl (c : PagedKvCache) : SamePlan c c := ⟨rfl, rfl, rfl, rfl, rfl, rfl⟩

theorem SamePlan.trans {c'' : PagedKvCache} (h : SamePlan c c') (h' : SamePlan c' c'') :
    SamePlan c c'' :=
  ⟨h'.table.trans h.table, h'.page.trans h.page, h'.committed.trans h.committed,
    h'.cursors.trans h.cursors, h'.count.trans h.count, h'.tentative.trans h.tentative⟩

theorem SamePlan.extends (h : SamePlan c c') (hd : Rewrites p p') : Extends L c c' p p' := by
  refine ⟨⟨[], hd.draws, ?_⟩, h.page, h.committed.ge, ?_, ?_⟩
  · rw [h.table, append_nil]
  · rw [h.cursors, h.count]
    exact id
  · rw [h.count]
    exact id

theorem copySeeded_plan {layer elems : ℕ} : ∀ {seeded : List ℕ} {c : PagedKvCache},
    copySeeded p layer elems seeded c = some c' → SamePlan c c'
  | [], c, h => by
    cases h
    exact .refl _
  | bid :: seeded, c, h => by
    unfold copySeeded at h
    split at h
    · obtain ⟨k, -, h⟩ := bind_eq_some_iff.mp h
      obtain ⟨v, -, h⟩ := bind_eq_some_iff.mp h
      have hc := copySeeded_plan h
      exact ⟨hc.table, hc.page, hc.committed, hc.cursors, hc.count.trans length_set,
        hc.tentative⟩
    · exact copySeeded_plan h

theorem hydrateSeededLayerFromPool_plan {stride : ℕ}
    (h : c.hydrateSeededLayerFromPool p l stride = some c') : SamePlan c c' := by
  unfold hydrateSeededLayerFromPool at h
  split_ifs at h
  · cases h
    exact .refl c
  · have hc := copySeeded_plan h
    exact ⟨hc.table, hc.page, hc.committed, hc.cursors, hc.count, hc.tentative⟩

theorem copyPromoted_plan {bid elems : ℕ} {k v : List UInt32} : ∀ {n : ℕ} {c' : PagedKvCache},
    copyPromoted p bid elems k v n c = some c' → SamePlan c c'
  | 0, c', h => by
    cases h
    exact .refl c
  | n + 1, c', h => by
    unfold copyPromoted at h
    obtain ⟨c₁, h₁, h⟩ := bind_eq_some_iff.mp h
    refine (copyPromoted_plan h₁).trans ?_
    have hput : ∀ {kRow vRow : List UInt32},
        ((write (c₁.kPages.getD n []) (bid * elems) kRow).bind fun kPage =>
          (write (c₁.vPages.getD n []) (bid * elems) vRow).map fun vPage =>
            { c₁ with kPages := c₁.kPages.set n kPage, vPages := c₁.vPages.set n vPage }) = some c'
          → SamePlan c₁ c' := by
      intro kRow vRow h
      obtain ⟨kPage, -, h⟩ := bind_eq_some_iff.mp h
      obtain ⟨vPage, -, rfl⟩ := map_eq_some_iff.mp h
      exact ⟨rfl, rfl, rfl, rfl, length_set, rfl⟩
    simp only [] at h
    split at h
    · split at h
      · exact hput h
      · split at h
        · split at h
          · cases h
          · exact hput h
        · cases h
          exact .refl _
    · cases h
      exact .refl _

theorem repromote_plan {elems : ℕ} : ∀ {blocks : List ℕ} {c : PagedKvCache} {p : KvBlockPool},
    repromote elems blocks c p = some (c', p', res) → SamePlan c c' ∧ Rewrites p p'
  | [], c, p, h => by
    cases h
    exact ⟨.refl _, .refl _⟩
  | bid :: blocks, c, p, h => by
    unfold repromote at h
    obtain ⟨⟨q, copy⟩, hq, h⟩ := bind_eq_some_iff.mp h
    have hd := promoteToGpu_rewrites hq
    dsimp only at h
    split at h
    · cases h
      exact ⟨.refl _, hd⟩
    · obtain ⟨h1, h2⟩ := repromote_plan h
      exact ⟨h1, hd.trans h2⟩
    · obtain ⟨c₁, hc₁, h⟩ := bind_eq_some_iff.mp h
      obtain ⟨h1, h2⟩ := repromote_plan h
      exact ⟨(copyPromoted_plan hc₁).trans h1, hd.trans h2⟩

theorem checkAndRepromoteBlocks_plan {stride : ℕ}
    (h : c.checkAndRepromoteBlocks stride p = some (c', p', res)) :
    SamePlan c c' ∧ Rewrites p p' := by
  unfold checkAndRepromoteBlocks at h
  split at h
  · cases h
    exact ⟨.refl c, .refl p⟩
  · exact repromote_plan h

theorem reserve_extends {env : Env} : ∀ {n k : ℕ} {c : PagedKvCache} {p : KvBlockPool}, p.Quiet →
    reserve env n k c p = some (c', p', res) →
      Extends L c c' p p' ∧ c'.layerCommittedTokens = c.layerCommittedTokens
        ∧ c'.committedTokens = c.committedTokens ∧ c'.kPages = c.kPages
        ∧ (res = .ok () → c'.table.length = c.table.length + n)
  | 0, k, c, p, _, h => by
    cases h
    exact ⟨.refl L _ _, rfl, rfl, rfl, fun _ => rfl⟩
  | n + 1, k, c, p, hquiet, h => by
    unfold reserve at h
    obtain ⟨⟨q, id⟩, hq, h⟩ := bind_eq_some_iff.mp h
    rcases hquiet.alloc hq with ⟨e, he, hd⟩ | ⟨id', he, hd⟩
    · obtain rfl : id = .error e := he
      cases h
      exact ⟨⟨⟨[], hd, (append_nil _).symm⟩, rfl, le_refl _, id, id⟩, rfl, rfl, rfl,
        fun he => by cases he⟩
    · obtain rfl : id = .ok id' := he
      obtain ⟨h1, h2, h3, h4, h5⟩ := reserve_extends (hquiet.draws hd) h
      have h0 : Extends L c { c with table := c.table ++ [id'] } p q :=
        ⟨⟨[id'], hd, rfl⟩, rfl, le_refl _, fun hn => hn, fun hn => hn⟩
      refine ⟨h0.trans h1, h2, h3, h4, ?_⟩
      · intro hok
        rw [h5 hok, length_append, length_singleton]
        omega

theorem writeToken_rewrites {stride t seq : ℕ} {k v : List UInt32}
    {quantize : List UInt32 → Option (UInt16 × List UInt8)}
    (h : c.writeToken l stride k v t seq quantize p = some (c', p', res)) :
    Rewrites p p' ∧ c'.table = c.table ∧ c'.committedTokens = c.committedTokens
      ∧ c'.tentativeLen = c.tentativeLen := by
  rcases writeToken_cases h with ⟨rfl, rfl, -⟩
    | ⟨pos, kPage, vPage, physical, kPage', vPage', -, -, -, -, -, -, -, -, hq, rfl, -⟩
  · exact ⟨.refl _, rfl, rfl, rfl⟩
  · exact ⟨storeToken_rewrites hq, rfl, rfl, rfl⟩

theorem writeToken_extends {stride t seq : ℕ} {k v : List UInt32}
    {quantize : List UInt32 → Option (UInt16 × List UInt8)}
    (h : c.writeToken l stride k v t seq quantize p = some (c', p', res)) :
    Extends L c c' p p' ∧ c'.committedTokens = c.committedTokens ∧ c'.table = c.table
      ∧ (res = .ok () → ∃ pos, c.layerCommittedTokens[l]? = some pos
        ∧ c'.layerCommittedTokens = c.layerCommittedTokens.set l (pos + 1)) := by
  rcases writeToken_cases h with ⟨rfl, rfl, e, rfl⟩
    | ⟨pos, kPage, vPage, physical, kPage', vPage', hpos, -, -, -, -, -, -, -, hq, rfl, rfl⟩
  · exact ⟨.refl L _ _, rfl, rfl, fun he => by cases he⟩
  · have hdraws : Draws p p' [] := (storeToken_rewrites hq).draws
    refine ⟨⟨⟨[], hdraws, (append_nil _).symm⟩, rfl, le_refl _, ?_, ?_⟩, rfl, rfl,
      fun _ => ⟨pos, hpos, rfl⟩⟩
    · rw [length_set, length_set]
      exact id
    · rw [length_set]
      exact id

theorem appendSlot_extends {env : Env} {k : ℕ} (hquiet : p.Quiet)
    (h : c.appendSlot env k p = some (c', p', res)) :
    Extends L c c' p p' ∧ c'.committedTokens = c.committedTokens + 1
      ∧ c'.layerCommittedTokens = c.layerCommittedTokens
      ∧ (res = .ok () → c'.table.length ≤ max c.table.length (blocksFor c'.committedTokens)) := by
  have h0 : Extends L c { c with committedTokens := c.committedTokens + 1 } p p :=
    ⟨⟨[], .refl p, (append_nil _).symm⟩, rfl, Nat.le_succ _, fun hn => hn, fun hn => hn⟩
  unfold appendSlot at h
  simp only [] at h
  split_ifs at h
  · rename_i hlt
    obtain ⟨h1, h2, h3, -, h4⟩ := reserve_extends hquiet h
    refine ⟨h0.trans h1, h3, h2, fun hok => ?_⟩
    have h4 : c'.table.length = c.table.length + 1 := h4 hok
    have h3 : c'.committedTokens = c.committedTokens + 1 := h3
    rw [h4, h3]
    exact le_max_of_le_right hlt
  · cases h
    exact ⟨h0, rfl, rfl, fun _ => le_max_left _ _⟩

theorem blocksFor_mono {m n : ℕ} (h : m ≤ n) : blocksFor m ≤ blocksFor n :=
  Nat.div_le_div_right (by omega)

theorem Outcome.andThen_cases {o : Outcome} {f : PagedKvCache → KvBlockPool → Outcome}
    (h : o.andThen f = some (c', p', res)) :
    (∃ c p, o = some (c, p, .ok ()) ∧ f c p = some (c', p', res))
      ∨ o = some (c', p', res) ∧ res ≠ .ok () := by
  unfold Outcome.andThen at h
  split at h
  · exact .inl ⟨_, _, rfl, h⟩
  · rename_i hno
    refine .inr ⟨h, ?_⟩
    rintro rfl
    exact hno _ _ h

/-- The writes of a chunk move the cursor of their layer behind it, and for the first layer count
its tokens; where one fails the count has moved already. -/
theorem writeTokens_extends {env : Env} {reserved stride : ℕ} {k v : List UInt32} (n : ℕ) :
    ∀ {t : ℕ} {c : PagedKvCache} {p : KvBlockPool}, p.Quiet →
      writeTokens env reserved l stride k v n t c p = some (c', p', res) →
      Extends L c c' p p'
        ∧ (res = .ok () → c'.committedTokens = c.committedTokens + (if l = 0 then n else 0)
          ∧ c'.table.length ≤ max c.table.length (blocksFor c'.committedTokens)
          ∧ ∀ pos, c.layerCommittedTokens[l]? = some pos →
            c'.layerCommittedTokens = c.layerCommittedTokens.set l (pos + n))
        ∧ (res ≠ .ok () → l = 0 → c.committedTokens < c'.committedTokens) := by
  induction n with
  | zero =>
    intro t c p _ h
    cases h
    refine ⟨.refl L _ _, fun _ => ⟨by simp, le_max_left _ _, ?_⟩, fun hne => absurd rfl hne⟩
    intro pos hpos
    obtain ⟨hlt, rfl⟩ := List.getElem?_eq_some_iff.mp hpos
    exact (set_getElem_self hlt).symm
  | succ n ih =>
    intro t c p hquiet h
    unfold writeTokens at h
    -- the slot of the token, which only the first layer takes
    have hslot : ∀ {c₁ : PagedKvCache} {p₁ : KvBlockPool} {res₁ : Except String Unit},
        (if l = 0 then c.appendSlot env (reserved + t) p else some (c, p, .ok ()))
            = some (c₁, p₁, res₁) →
          Extends L c c₁ p p₁ ∧ c₁.committedTokens = c.committedTokens + (if l = 0 then 1 else 0)
            ∧ c₁.layerCommittedTokens = c.layerCommittedTokens
            ∧ (res₁ = .ok () →
              c₁.table.length ≤ max c.table.length (blocksFor c₁.committedTokens)) := by
      intro c₁ p₁ res₁ h
      split_ifs at h ⊢
      · exact appendSlot_extends hquiet h
      · cases h
        exact ⟨.refl L _ _, rfl, rfl, fun _ => le_max_left _ _⟩
    rcases Outcome.andThen_cases h with ⟨c₂, p₂, htoken, hrest⟩ | ⟨htoken, hne⟩
    · obtain ⟨c₁, p₁, h₁, hwrite⟩ := Outcome.andThen_ok htoken
      obtain ⟨he₁, hcount₁, hcur₁, hroom₁⟩ := hslot h₁
      obtain ⟨he₂, hcount₂, htable₂, hcur₂⟩ := writeToken_extends hwrite
      have he := he₁.trans he₂
      obtain ⟨he₃, hok, herr⟩ := ih (he.quiet hquiet) hrest
      refine ⟨he.trans he₃, ?_, ?_⟩
      · intro hres
        obtain ⟨hcount, hroom, hcur⟩ := hok hres
        refine ⟨?_, ?_, ?_⟩
        · rw [hcount, hcount₂, hcount₁]
          split_ifs <;> omega
        · have hroom₁ := hroom₁ rfl
          have hmono := blocksFor_mono (hcount₂.symm.le.trans he₃.committed)
          rw [htable₂] at hroom
          omega
        · intro pos hpos
          obtain ⟨pos', hpos', hset⟩ := hcur₂ rfl
          rw [hcur₁] at hpos' hset
          obtain rfl : pos = pos' := by
            rw [hpos] at hpos'
            exact Option.some.inj hpos'
          have hlt := (List.getElem?_eq_some_iff.mp hpos).1
          rw [hcur (pos + 1) (by rw [hset, getElem?_set_self hlt]), hset, set_set]
          congr 1
          omega
      · intro hne hl
        have hlt := herr hne hl
        rw [hcount₂, hcount₁, if_pos hl] at hlt
        omega
    · rcases Outcome.andThen_cases htoken with ⟨c₁, p₁, h₁, hwrite⟩ | ⟨h₁, -⟩
      · obtain ⟨he₁, hcount₁, -⟩ := hslot h₁
        obtain ⟨he₂, hcount₂, -⟩ := writeToken_extends hwrite
        refine ⟨he₁.trans he₂, fun hok => absurd hok hne, fun _ hl => ?_⟩
        rw [hcount₂, hcount₁, if_pos hl]
        omega
      · obtain ⟨he₁, hcount₁, -⟩ := hslot h₁
        refine ⟨he₁, fun hok => absurd hok hne, fun _ hl => ?_⟩
        rw [hcount₁, if_pos hl]
        omega

theorem growPages_extends {n stride : ℕ} (hl : l < L) :
    Extends L c (c.growPages l n stride) p p := by
  refine ⟨⟨[], .refl p, (append_nil _).symm⟩, rfl, le_refl _, ?_, ?_⟩
  · intro hn
    simp [growPages, hn]
  · intro hn
    rw [growPages_count]
    omega

/-- An append of `n` tokens to layer `l`, where it succeeds and where it fails. -/
theorem appendKvLayer_extends {env : Env} {k v : Tensor} {n stride : ℕ} (hquiet : p.Quiet)
    (hl : l < L) (hk : k.seqStride = (n, stride)) (hn : 0 < n) (hs : 0 < stride)
    (h : c.appendKvLayer env l k v p = some (c', p', res)) :
    Extends L c c' p p'
      ∧ (res = .ok () → c'.committedTokens = c.committedTokens + (if l = 0 then n else 0)
        ∧ (l = 0 → blocksFor c'.committedTokens ≤ c'.table.length)
        ∧ c'.table.length ≤ max c.table.length (blocksFor c'.committedTokens)
        ∧ ∀ pos, (c.growPages l n stride).layerCommittedTokens[l]? = some pos →
          c'.layerCommittedTokens = (c.growPages l n stride).layerCommittedTokens.set l (pos + n))
      ∧ (res ≠ .ok () → l = 0 → c.committedTokens < c'.committedTokens
        ∨ c'.committedTokens = c.committedTokens
          ∧ c'.layerCommittedTokens = (c.growPages l n stride).layerCommittedTokens) := by
  unfold appendKvLayer at h
  rw [hk] at h
  simp only [] at h
  rw [if_neg (by omega)] at h
  have he₀ : Extends L c (c.growPages l n stride) p p := growPages_extends hl
  have hlack : (c.growPages l n stride).lacking n = c.lacking n := rfl
  rw [hlack] at h
  generalize hg : c.growPages l n stride = g at h he₀ ⊢
  have hgc : g.committedTokens = c.committedTokens := by rw [← hg]; rfl
  have hgt : g.table = c.table := by rw [← hg]; rfl
  rcases Outcome.andThen_cases h with ⟨c₁, p₁, hres, h⟩ | ⟨hres, hne⟩
  · obtain ⟨he₁, hcur₁, hcount₁, -, htable₁⟩ := reserve_extends hquiet hres
    have htable₁ := htable₁ rfl
    split at h
    · cases h
    rename_i c₂ hhyd
    have hplan := hydrateSeededLayerFromPool_plan hhyd
    have he₂ : Extends L g c₂ p p₁ := he₁.trans (hplan.extends (.refl p₁))
    rcases Outcome.andThen_cases h with ⟨c₃, p₃, hwrite, hcheck⟩ | ⟨hwrite, hne⟩
    · obtain ⟨he₃, hok, -⟩ := writeTokens_extends n (he₂.quiet hquiet) hwrite
      obtain ⟨hcount, hroom, hcur⟩ := hok rfl
      obtain ⟨hplan', hd⟩ := checkAndRepromoteBlocks_plan hcheck
      rw [hplan.committed, hcount₁, hgc] at hcount
      rw [hplan.table, htable₁, hgt] at hroom
      rw [hplan.cursors, hcur₁] at hcur
      rw [hplan'.committed, hplan'.table, hplan'.cursors]
      refine ⟨he₀.trans (he₂.trans (he₃.trans (hplan'.extends hd))), ?_, ?_⟩
      · refine fun _ => ⟨hcount, ?_, ?_, hcur⟩
        · intro hl0
          obtain ⟨ids, -, ht⟩ := he₃.draws
          rw [if_pos hl0] at htable₁ hcount
          rw [ht, hcount, length_append, hplan.table, htable₁, hgt]
          unfold lacking
          omega
        · have hmono : c.table.length + (if l = 0 then c.lacking n else 0)
              ≤ max c.table.length (blocksFor c₃.committedTokens) := by
            unfold lacking
            rw [hcount]
            split_ifs <;> omega
          omega
      · intro _ hl0
        rw [hcount, if_pos hl0]
        omega
    · obtain ⟨he₃, -, herr⟩ := writeTokens_extends n (he₂.quiet hquiet) hwrite
      refine ⟨he₀.trans (he₂.trans he₃), fun hok => absurd hok hne, fun _ hl0 => .inl ?_⟩
      have := herr hne hl0
      rw [hplan.committed, hcount₁, hgc] at this
      exact this
  · obtain ⟨he₁, hcur₁, hcount₁, -⟩ := reserve_extends hquiet hres
    exact ⟨he₀.trans he₁, fun hok => absurd hok hne, fun _ _ => .inr ⟨hcount₁.trans hgc, hcur₁⟩⟩

end PagedKvCache

end Grim.Memory
