import Grim.Memory.SharedTail

/-!
# Shares in a tidy run

The callers keep to what they hold, an eviction takes no block in use, and the tree maps each page
once: then the pool keeps free, referenced and mapped blocks apart, also when its capacity changes,
and a share hands out blocks of its own as long as its own tail spares the hit.
-/

namespace Grim.Memory

open List

namespace KvBlockPool

variable {p : KvBlockPool}

structure MapsWithin (p : KvBlockPool) : Prop where
  free : ∀ b ∈ p.freeList, p.prefixTree.blockToNode b = none
  lt : ∀ b, p.prefixTree.blockToNode b ≠ none → b < p.numBlocks

theorem MapsWithin.shrink (n : ℕ) :
    ∀ {p : KvBlockPool}, p.MapsWithin → (p.shrink n).MapsWithin := by
  induction n with
  | zero => exact fun h => h
  | succ n ih =>
    intro p h
    unfold KvBlockPool.shrink
    split_ifs with hlast
    · refine ih ⟨fun b hb => h.free b (mem_of_mem_erase hb), fun b hb => ?_⟩
      have hlt := h.lt b hb
      have hne : b ≠ p.numBlocks - 1 := by
        rintro rfl
        exact hb (h.free _ hlast)
      show b < p.numBlocks - 1
      omega
    · exact h

theorem MapsWithin.resizeCapacity (h : p.MapsWithin) (newCapacity : ℕ) :
    (p.resizeCapacity newCapacity).MapsWithin := by
  unfold KvBlockPool.resizeCapacity
  split_ifs with hgrow
  · refine ⟨fun b hb => ?_, fun b hb => (h.lt b hb).trans hgrow⟩
    rcases mem_append.mp hb with hb | hb
    · exact h.free b hb
    · by_contra hmapped
      have hlt := h.lt b hmapped
      have hge := (mem_range'_1.mp hb).1
      omega
  · exact h.shrink _

end KvBlockPool

namespace History

open TableRun (plainEnv)

variable {h h' : History} {call : Call}

/-- The last resort takes no mapped page, a registration gives new nodes to new pages only, and no
call shares a page. -/
def Tidies (h : History) (call : Call) : Prop :=
  h.Unshared call ∧ match call with
    | .alloc now io => h.pool.ReclaimsUnmapped now io
    | .insertPrefix tokens blocks _ => h.pool.RegistersNew tokens blocks
    | _ => True

instance : Decidable (h.Tidies call) :=
  match call with
  | .alloc now io => inferInstanceAs (Decidable (_ ∧ h.pool.ReclaimsUnmapped now io))
  | .insertPrefix tokens blocks _ =>
    inferInstanceAs (Decidable (_ ∧ h.pool.RegistersNew tokens blocks))
  | .addRef .. | .free .. | .removePrefix .. | .pinBlocks .. | .demoteColdPrefix ..
  | .promoteToGpu .. | .matchPrefixPromoting .. | .resizeCapacity .. =>
    inferInstanceAs (Decidable (_ ∧ True))

structure Tidy (h : History) : Prop where
  booked : h.Booked
  current : h.Current
  lt : ∀ b, h.pool.prefixTree.blockToNode b ≠ none → b < h.pool.numBlocks
  blockSize : h.pool.prefixTree.blockSize = Memory.blockSize

theorem blockSize_step (hl : h.pool.prefixTree.Linked) (hs : h.step call = some h') :
    h'.pool.prefixTree.blockSize = h.pool.prefixTree.blockSize := by
  obtain ⟨-, hshape | ⟨now, io, res, halloc⟩⟩ | ⟨tokens, blocks, now, t, -, hinsert, hshape⟩ :=
    KvBlockPool.step_tree hs
  · exact hshape.blockSize
  · exact (KvBlockPool.alloc_narrowed halloc).blockSize
  · exact hshape.blockSize.trans (hl.rooted.insertAt hinsert).blockSize

theorem mapped_step (hl : h.pool.prefixTree.Linked) (hok : h.Tidies call)
    (hs : h.step call = some h') {b : ℕ} (hb : h'.pool.prefixTree.blockToNode b ≠ none) :
    h.pool.prefixTree.blockToNode b ≠ none ∨ 0 < h.held b := by
  obtain ⟨-, hshape | ⟨now, io, res, halloc⟩⟩ | ⟨tokens, blocks, now, t, rfl, hinsert, hshape⟩ :=
    KvBlockPool.step_tree hs
  · exact .inl (hshape.blockToNode ▸ hb)
  · exact .inl fun hnone => hb ((KvBlockPool.alloc_unmapped hl halloc).2 b hnone)
  · obtain ⟨⟨hheld, -⟩, hnodup, hnew⟩ := hok
    have hreg := hl.insert hnodup (fun b hb => (hnew b hb).1) hinsert
    obtain ⟨n, hn⟩ := Option.ne_none_iff_exists'.mp hb
    have hn : t.blockToNode b = some n := hshape.blockToNode ▸ hn
    rcases hreg.mapped b n hn with hold | ⟨hmem, -⟩
    · refine .inl ?_
      rw [hold]
      exact Option.some_ne_none n
    · exact .inr (hheld b (mem_of_mem_drop hmem))

theorem numBlocks_step (hcall : ∀ n, call ≠ .resizeCapacity n) (hs : h.step call = some h') :
    h'.pool.numBlocks = h.pool.numBlocks := by
  cases call with
  | alloc now io =>
    obtain ⟨⟨p, res⟩, hp, rfl⟩ := Option.map_eq_some_iff.mp hs
    rw [allocated_pool]
    exact KvBlockPool.alloc_numBlocks hp
  | free id forceTier io =>
    obtain ⟨p, hp, rfl⟩ := Option.map_eq_some_iff.mp hs
    exact KvBlockPool.freeWithTier_numBlocks hp
  | insertPrefix tokens blocks now =>
    obtain ⟨p, hp, rfl⟩ := Option.map_eq_some_iff.mp hs
    exact (KvBlockPool.insertPrefix_books hp).2.1
  | addRef tokens id =>
    cases hs
    rfl
  | removePrefix | pinBlocks | demoteColdPrefix | promoteToGpu | matchPrefixPromoting =>
    obtain ⟨p, rfl, hp, -⟩ := step_steady hs trivial
    exact hp.2.1
  | resizeCapacity n => exact absurd rfl (hcall n)

theorem Tidy.step (ht : h.Tidy) (hok : h.Tidies call) (hs : h.step call = some h') : h'.Tidy := by
  have hbooked := ht.booked.step hok.1 hs
  have hsize := (blockSize_step ht.current.cached.linked hs).trans ht.blockSize
  by_cases hcall : ∃ n, call = .resizeCapacity n
  · obtain ⟨n, rfl⟩ := hcall
    cases hs
    have hmaps : (h.pool.resizeCapacity n).MapsWithin :=
      KvBlockPool.MapsWithin.resizeCapacity ⟨ht.current.cached.free, ht.lt⟩ n
    have htree : (h.pool.resizeCapacity n).prefixTree = h.pool.prefixTree :=
      KvBlockPool.resizeCapacity_prefixTree
    refine ⟨hbooked, ht.current.next ⟨?_, hmaps.free⟩ ?_, hmaps.lt, hsize⟩
    · rw [htree]
      exact ht.current.cached.linked
    · intro b n hb
      exact htree ▸ hb
  · have hcall : ∀ n, call ≠ .resizeCapacity n := fun n hn => hcall ⟨n, hn⟩
    have hunmaps : h.Unmaps call := by
      refine ⟨⟨hok.1.1, ?_⟩, hok.2⟩
      cases call with
      | resizeCapacity n => exact absurd rfl (hcall n)
      | _ => trivial
    refine ⟨hbooked, ht.current.step hunmaps hs, fun b hb => ?_, hsize⟩
    rw [numBlocks_step hcall hs]
    rcases mapped_step ht.current.cached.linked hok hs hb with hold | hheld
    · exact ht.lt b hold
    · exact ht.booked.exclusive.lt_of_referenced (ht.booked.held b ▸ hheld)

theorem tidy_new (c : Setup) : (new c).Tidy where
  booked := booked_new c
  current := current_new c
  lt _ hb := absurd rfl hb
  blockSize := rfl

theorem Tidy.apart (ht : h.Tidy) (tokens : List UInt32) :
    h.pool.Apart tokens (h.pool.matchPrefix tokens).1 [] where
  linked := ht.current.cached.linked
  nodup := ht.booked.exclusive.nodup
  matched_free b hb hfree :=
    ht.current.cached.linked.matchPrefix_mapped hb (ht.current.cached.free b hfree)
  fresh_free _ hb := absurd hb (not_mem_nil)
  refs _ hb := absurd hb (not_mem_nil)
  fresh_nodup := nodup_nil
  new _ hb := absurd hb (not_mem_nil)
  hit := rfl

/-- In every state that tidy calls reach, a share hands out distinct blocks in use, with the
matched ones as they were, exactly when no allocation of the tail evicts or reclaims one of them. -/
theorem share_apart_iff (c : Setup) (h : History) (hr : Steps.Reach step Tidies (new c) h)
    {env : Env} {tokens : List UInt32} {q : KvBlockPool} {blocks : List ℕ} {n : ℕ}
    (hs : h.pool.findOrSharePrefixTokens env tokens = some (q, .ok (blocks, n))) :
    h.pool.SharesApart env tokens q blocks n
      ↔ KvBlockPool.TailSpares env (h.pool.matchPrefix tokens).1 (h.pool.tailLength tokens) 0 []
        h.pool := by
  have ht : h.Tidy := hr.invariant (tidy_new c) fun _ _ _ ht hok hs => ht.step hok hs
  exact (ht.apart tokens).shares_iff ht.blockSize hs

/-- The first block is found, and the second is free. -/
theorem share_apart_iff_two : ∃ h q,
    Steps.Reach step Tidies (new (.tiny 2 none)) h
      ∧ h.pool.findOrSharePrefixTokens plainEnv (List.replicate 32 7) = some (q, .ok ([0, 1], 16))
      ∧ (h.pool.SharesApart plainEnv (List.replicate 32 7) q [0, 1] 16
        ↔ KvBlockPool.TailSpares plainEnv (h.pool.matchPrefix (List.replicate 32 7)).1
          (h.pool.tailLength (List.replicate 32 7)) 0 [] h.pool) := by
  obtain ⟨h, hrun⟩ : ∃ h, Steps.exec step Tidies (new (.tiny 2 none))
      [.alloc id (.ok ()), .insertPrefix (List.replicate 16 7) [0] id] = some h := ⟨_, rfl⟩
  have hr := Steps.reach_of_exec hrun
  obtain ⟨q, hq⟩ : ∃ q, h.pool.findOrSharePrefixTokens plainEnv (List.replicate 32 7)
      = some (q, .ok ([0, 1], 16)) := by
    obtain rfl := Option.some.inj hrun
    exact ⟨_, rfl⟩
  exact ⟨h, q, hr, hq, share_apart_iff _ h hr hq⟩

/-- The matched block, which nobody holds, is evicted for the tail and handed out twice. -/
theorem matched_block_reused : ¬ ∀ (c : Setup) (h : History), Steps.Reach step Tidies (new c) h →
    ∀ (env : Env) (tokens : List UInt32) (q : KvBlockPool) (blocks : List ℕ) (n : ℕ),
      h.pool.findOrSharePrefixTokens env tokens = some (q, .ok (blocks, n)) →
        h.pool.SharesApart env tokens q blocks n := by
  intro hall
  obtain ⟨h, hrun⟩ : ∃ h, Steps.exec step Tidies (new (.tiny 2 none))
      [.alloc id (.ok ()), .insertPrefix (List.replicate 16 7) [0] id, .removePrefix [0],
        .free 0 false (.ok ()), .alloc id (.ok ())] = some h := ⟨_, rfl⟩
  have hr := Steps.reach_of_exec hrun
  obtain ⟨q, hq⟩ : ∃ q, h.pool.findOrSharePrefixTokens plainEnv (List.replicate 32 7)
      = some (q, .ok ([0, 0], 16)) := by
    obtain rfl := Option.some.inj hrun
    exact ⟨_, rfl⟩
  have hshares := hall _ h hr plainEnv (List.replicate 32 7) q _ _ hq
  exact absurd hshares.distinct (by decide)

end History

end Grim.Memory
