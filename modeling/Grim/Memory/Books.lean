import Grim.Memory.Pool

/-!
# The books of the pool

What each call of the pool does to the free list, the references, the capacity and the tree.
Most calls change at most the tree (`SameBooks`); an eviction, a reclaim, a release and a resize
are described by what they push.
-/

namespace Grim.Memory

open KvTransport
open Function (update)

namespace KvBlockPool

variable {p q : KvBlockPool}

def SameBooks (p q : KvBlockPool) : Prop :=
  q.freeList = p.freeList ∧ q.numBlocks = p.numBlocks ∧ q.refCounts = p.refCounts

theorem SameBooks.rfl : SameBooks p p := ⟨Eq.refl _, Eq.refl _, Eq.refl _⟩

theorem SameBooks.trans {r : KvBlockPool} (h : SameBooks p q) (h' : SameBooks q r) :
    SameBooks p r :=
  ⟨h'.1.trans h.1, h'.2.1.trans h.2.1, h'.2.2.trans h.2.2⟩

theorem insertPrefix_books {tokens : List UInt32} {blocks : List ℕ} {now : ℕ → ℕ}
    (h : p.insertPrefix tokens blocks now = some q) : SameBooks p q := by
  obtain ⟨t, -, rfl⟩ := Option.map_eq_some_iff.mp h
  exact .rfl

theorem demotePrefixBlock_books {id : ℕ} {io : Except String Unit} {b : Bool}
    (h : p.demotePrefixBlock id io = some (q, b)) :
    SameBooks p q ∧ q.prefixTree = p.prefixTree := by
  unfold demotePrefixBlock at h
  split at h
  · cases h
    exact ⟨.rfl, rfl⟩
  · split_ifs at h
    split at h
    · cases h
      exact ⟨.rfl, rfl⟩
    · split at h <;> cases h <;> exact ⟨.rfl, rfl⟩

theorem demoteColdPrefix_books {now : ℕ → ℕ} {io : Except String Unit} {b : Option ℕ}
    (h : p.demoteColdPrefix now io = some (q, b)) :
    SameBooks p q ∧ q.prefixTree = p.prefixTree := by
  unfold demoteColdPrefix at h
  split at h
  · cases h
    exact ⟨.rfl, rfl⟩
  · obtain ⟨⟨r, d⟩, hr, hq⟩ := Option.map_eq_some_iff.mp h
    cases hq
    exact demotePrefixBlock_books hr

theorem install_books {id : ℕ} {k v : List UInt32}
    {res : Except String (Option (List UInt32 × List UInt32))}
    (h : p.install id k v = some (q, res)) : SameBooks p q ∧ q.prefixTree = p.prefixTree := by
  simp only [install] at h
  split_ifs at h <;> cases h <;> exact ⟨.rfl, rfl⟩

theorem promoteToGpu_books {id : ℕ}
    {res : Except String (Option (List UInt32 × List UInt32))}
    (h : p.promoteToGpu id = some (q, res)) : SameBooks p q ∧ q.prefixTree = p.prefixTree := by
  unfold promoteToGpu at h
  split at h
  · cases h
    exact ⟨.rfl, rfl⟩
  · simp only [] at h
    split at h
    · cases h
      exact ⟨.rfl, rfl⟩
    · cases h
      exact ⟨.rfl, rfl⟩
    · split_ifs at h
      have hq := install_books h
      exact hq
    · split at h
      · cases h
        exact ⟨.rfl, rfl⟩
      · split at h
        · cases h
          exact ⟨.rfl, rfl⟩
        · split_ifs at h
          have hq := install_books h
          exact hq

theorem promoteAll_books {blocks : List ℕ} : ∀ {p q : KvBlockPool} {b : Bool},
    promoteAll blocks p = some (q, b) → SameBooks p q ∧ q.prefixTree = p.prefixTree := by
  induction blocks with
  | nil =>
    intro p q b h
    cases h
    exact ⟨.rfl, rfl⟩
  | cons bid blocks ih =>
    intro p q b h
    unfold promoteAll at h
    split_ifs at h
    · exact ih h
    · obtain ⟨⟨r, copy⟩, hr, h⟩ := Option.bind_eq_some_iff.mp h
      obtain ⟨⟨r', b'⟩, hr', hq⟩ := Option.map_eq_some_iff.mp h
      cases hq
      obtain ⟨h1, h2⟩ := promoteToGpu_books hr
      obtain ⟨h3, h4⟩ := ih hr'
      exact ⟨h1.trans h3, h4.trans h2⟩

theorem matchPrefixPromoting_books {tokens : List UInt32} {blocks : List ℕ} {n : ℕ}
    {b : Bool} (h : p.matchPrefixPromoting tokens = some (q, blocks, n, b)) :
    SameBooks p q ∧ q.prefixTree = p.prefixTree ∧ blocks = (p.matchPrefix tokens).1 := by
  obtain ⟨⟨r, d⟩, hr, hq⟩ := Option.map_eq_some_iff.mp h
  cases hq
  exact ⟨(promoteAll_books hr).1, (promoteAll_books hr).2, rfl⟩

/-- The references without those to `chain`. -/
def dropRefs (chain : List ℕ) (refs : ℕ → Option ℕ) (b : ℕ) : Option ℕ :=
  if b ∈ chain then none else refs b

theorem dropRefs_eq {chain : List ℕ} {refs : ℕ → Option ℕ}
    (h : ∀ b ∈ chain, refs b = none) : dropRefs chain refs = refs := by
  funext b
  unfold dropRefs
  split_ifs with hb
  · exact (h b hb).symm
  · rfl

theorem freeAncestors_books {chain : List ℕ} : ∀ {p q : KvBlockPool},
    freeAncestors chain p = some q →
      q.freeList = p.freeList ++ chain ∧ q.numBlocks = p.numBlocks
        ∧ q.refCounts = dropRefs chain p.refCounts ∧ q.prefixTree = p.prefixTree
        ∧ q.spill = p.spill ∧ ∀ b ∈ chain, b < p.numBlocks := by
  induction chain with
  | nil =>
    intro p q h
    cases h
    simpa using (dropRefs_eq (by simp)).symm
  | cons a chain ih =>
    intro p q h
    unfold freeAncestors at h
    split_ifs at h with ha
    obtain ⟨h1, h2, h3, h4, h5, h6⟩ := ih h
    refine ⟨?_, h2, ?_, h4, h5, ?_⟩
    · rw [h1]
      simp [recycle, countDemoted]
    · rw [h3]
      funext b
      by_cases hb : b = a <;> simp [dropRefs, update, hb]
    · intro b hb
      rcases List.mem_cons.mp hb with rfl | hb
      · exact Nat.lt_of_not_le ha
      · exact h6 b hb

theorem evictLeaf_books {id : ℕ} {io : Except String Unit}
    (h : p.evictLeaf id io = some q) :
    (q.freeList = p.freeList ∨ q.freeList = p.freeList ++ [id]) ∧ q.numBlocks = p.numBlocks
      ∧ q.refCounts = update p.refCounts id none ∧ q.prefixTree = p.prefixTree
      ∧ id < p.numBlocks := by
  unfold evictLeaf at h
  split_ifs at h with hid
  split at h
  · cases h
    exact ⟨.inr rfl, rfl, rfl, rfl, by omega⟩
  · split at h <;> cases h
    · exact ⟨.inl rfl, rfl, rfl, rfl, by omega⟩
    · exact ⟨.inr rfl, rfl, rfl, rfl, by omega⟩

theorem evictCold_books {now : ℕ → ℕ} {io : Except String Unit} {b : Bool}
    (h : p.evictCold now io = some (q, b)) :
    q.prefixTree = (p.prefixTree.evictColdestChain now).1 ∧ q.numBlocks = p.numBlocks
      ∧ (q.freeList = p.freeList ∧ q.refCounts = p.refCounts
        ∨ ∃ leaf ancestors, (p.prefixTree.evictColdestChain now).2 = leaf :: ancestors
          ∧ p.blockRefCount leaf = 0 ∧ (∀ b ∈ leaf :: ancestors, b < p.numBlocks)
          ∧ q.refCounts = dropRefs (leaf :: ancestors) p.refCounts
          ∧ (q.freeList = p.freeList ++ ancestors
            ∨ q.freeList = p.freeList ++ ancestors ++ [leaf])) := by
  simp only [evictCold] at h
  split at h
  · cases h
    exact ⟨rfl, rfl, .inl ⟨rfl, rfl⟩⟩
  · rename_i leaf ancestors hchain
    split_ifs at h with href
    · cases h
      exact ⟨rfl, rfl, .inl ⟨rfl, rfl⟩⟩
    · obtain ⟨r, hr, h⟩ := Option.bind_eq_some_iff.mp h
      obtain ⟨r', hr', hq⟩ := Option.map_eq_some_iff.mp h
      cases hq
      obtain ⟨h1, h2, h3, h4, -, h5⟩ := freeAncestors_books hr
      obtain ⟨h6, h7, h8, h9, h10⟩ := evictLeaf_books hr'
      have hleaf : p.blockRefCount leaf = 0 := Nat.eq_zero_of_not_pos href
      refine ⟨h9.trans h4, h7.trans h2, .inr ⟨leaf, ancestors, hchain, hleaf, ?_, ?_, ?_⟩⟩
      · intro b hb
        rcases List.mem_cons.mp hb with rfl | hb
        · exact h2 ▸ h10
        · exact h5 b hb
      · rw [h8, h3]
        funext b
        by_cases hb : b = leaf <;> simp [dropRefs, update, hb]
      · rw [← h1]
        exact h6

theorem spilledColdest_some {now : ℕ → ℕ} {id : ℕ} (h : p.spilledColdest now = some id) :
    id < p.numBlocks ∧ p.refCounts id = none ∧ (p.blocks id).location ≠ .gpu := by
  have hp := List.find?_some h
  have hm := List.mem_of_find?_eq_some h
  simp only [Bool.and_eq_true, Option.isNone_iff_eq_none, decide_eq_true_eq, ne_eq] at hp
  exact ⟨List.mem_range.mp hm, hp.1.2, hp.1.1⟩

theorem reclaimSpilledColdest_books {now : ℕ → ℕ} :
    (p.reclaimSpilledColdest now).1 = p
      ∨ ∃ id, p.spilledColdest now = some id ∧ id < p.numBlocks ∧ p.refCounts id = none
        ∧ (p.reclaimSpilledColdest now).1.freeList = p.freeList ++ [id]
        ∧ (p.reclaimSpilledColdest now).1.numBlocks = p.numBlocks
        ∧ (p.reclaimSpilledColdest now).1.refCounts = p.refCounts
        ∧ (p.reclaimSpilledColdest now).1.prefixTree = p.prefixTree.remove [id] := by
  unfold reclaimSpilledColdest
  split
  · exact .inl rfl
  · rename_i id hid
    obtain ⟨hlt, href, -⟩ := spilledColdest_some hid
    refine .inr ⟨id, hid, hlt, href, rfl, rfl, ?_, rfl⟩
    funext b
    by_cases hb : b = id <;> simp [update, hb, href]

theorem dropInPlace_books {id : ℕ} (h : p.dropInPlace id = some q) :
    q.numBlocks = p.numBlocks ∧ q.refCounts = p.refCounts ∧ q.prefixTree = p.prefixTree
      ∧ (q.freeList = p.freeList
        ∨ q.freeList = p.freeList ++ [id] ∧ id < p.numBlocks
          ∧ p.prefixTree.containsBlock id = false) := by
  unfold dropInPlace at h
  split_ifs at h with hmap hid
  · cases h
    exact ⟨rfl, rfl, rfl, .inl rfl⟩
  · cases h
    exact ⟨rfl, rfl, rfl, .inr ⟨rfl, Nat.lt_of_not_le hid, by simpa using hmap⟩⟩

theorem release_books {id : ℕ} {io : Except String Unit} (h : p.release id io = some q) :
    q.numBlocks = p.numBlocks ∧ q.refCounts = p.refCounts ∧ q.prefixTree = p.prefixTree
      ∧ (q.freeList = p.freeList
        ∨ q.freeList = p.freeList ++ [id] ∧ id < p.numBlocks
          ∧ p.prefixTree.containsBlock id = false
          ∧ ∀ s, p.spill = some s → (p.demoteFreed s id io).2 = false) := by
  unfold release at h
  split at h
  · rename_i hs
    obtain ⟨h1, h2, h3, h4⟩ := dropInPlace_books h
    refine ⟨h1, h2, h3, h4.imp_right ?_⟩
    rintro ⟨h5, h6, h7⟩
    exact ⟨h5, h6, h7, by simp [hs]⟩
  · rename_i s hs
    split_ifs at h with hid
    split at h
    · cases h
      exact ⟨rfl, rfl, rfl, .inl rfl⟩
    · rename_i s' hdem
      obtain ⟨h1, h2, h3, h4⟩ := dropInPlace_books h
      refine ⟨h1, h2, h3, h4.imp_right ?_⟩
      rintro ⟨h5, h6, h7⟩
      refine ⟨h5, h6, h7, ?_⟩
      intro s₀ hs₀
      rw [hs, Option.some.injEq] at hs₀
      rw [← hs₀, hdem]

end KvBlockPool

end Grim.Memory
