import Grim.Memory.Links
import Grim.Memory.Runs

/-!
# Every page is accounted for

A page is free, referenced, mapped by the prefix tree, or spilled.  Two calls lose one: an
eviction that detaches a chain and then finds its leaf in use drops the ancestors, and a promotion
brings an unreferenced page back to the GPU without freeing it.
-/

namespace Grim.Memory

open KvTransport
open Function (update update_self update_of_ne)

namespace RadixTree

variable {t t' : RadixTree}

theorem insertFrom_containsBlock {tokens : List UInt32} {skipBlocks : ℕ} {now : ℕ → ℕ}
    {blocks : List ℕ} {b : ℕ} : ∀ {i node offset : ℕ} {t : RadixTree}, t.containsBlock b →
    insertFrom tokens skipBlocks now blocks i node offset t = some t' → t'.containsBlock b := by
  induction blocks with
  | nil =>
    intro i node offset t hb h
    cases h
    exact hb
  | cons bid blocks ih =>
    intro i node offset t hb h
    unfold insertFrom at h
    split at h
    · cases h
    simp only [] at h
    split at h
    · split_ifs at h
      · exact ih hb h
      · refine ih ?_ h
        exact hb
    · refine ih ?_ h
      unfold containsBlock at hb ⊢
      rw [addNode_blockToNode]
      by_cases hbb : b = bid
      · simp [hbb]
      · simpa [hbb] using hb

theorem evictColdestChain_containsBlock {now : ℕ → ℕ} {b : ℕ} (hb : t.containsBlock b) :
    (t.evictColdestChain now).1.containsBlock b ∨ b ∈ (t.evictColdestChain now).2 := by
  unfold evictColdestChain
  split
  · exact .inl hb
  · exact (prune_containsBlock (List.mem_singleton_self _)).2 b hb

end RadixTree

namespace KvBlockPool

variable {p q : KvBlockPool}

/-- Block `b` is free, referenced, mapped, or spilled. -/
def AccountedFor (p : KvBlockPool) (b : ℕ) : Prop :=
  b ∈ p.freeList ∨ 0 < p.blockRefCount b ∨ p.prefixTree.containsBlock b
    ∨ (p.blocks b).location ≠ .gpu

instance (b : ℕ) : Decidable (p.AccountedFor b) := by
  unfold AccountedFor
  infer_instance

def strandedAncestors (p : KvBlockPool) (now : ℕ → ℕ) : List ℕ :=
  match (p.prefixTree.evictColdestChain now).2 with
  | leaf :: ancestors => if 0 < p.blockRefCount leaf then ancestors else []
  | [] => []

/-- The eviction of an allocation finds the leaf of its chain unused, or drops no page that nothing
else holds. -/
def EvictsWhole (p : KvBlockPool) (now : ℕ → ℕ) : Prop :=
  ∀ a ∈ p.strandedAncestors now, a < p.numBlocks →
    0 < p.blockRefCount a ∨ (p.blocks a).location ≠ .gpu

instance (now : ℕ → ℕ) : Decidable (p.EvictsWhole now) := by
  unfold EvictsWhole
  infer_instance

def HasCopy (p : KvBlockPool) (id : ℕ) : Prop :=
  match p.spill with
  | none => False
  | some s => match (s.promote id).2 with
    | .ok (some _) => True
    | _ => False

instance (id : ℕ) : Decidable (p.HasCopy id) :=
  decidable_of_iff ((match p.spill with
    | none => false
    | some s => match (s.promote id).2 with
      | .ok (some _) => true
      | _ => false : Bool) = true) <| by
    unfold HasCopy
    split
    · simp
    · split <;> simp

theorem AccountedFor.of_books {b : ℕ} (h : p.AccountedFor b) (hs : SameBooks p q)
    (ht : p.prefixTree.containsBlock b → q.prefixTree.containsBlock b)
    (hl : (p.blocks b).location ≠ .gpu → (q.blocks b).location ≠ .gpu) : q.AccountedFor b := by
  obtain ⟨hf, -, hr⟩ := hs
  unfold AccountedFor blockRefCount at *
  rw [hf, hr]
  exact h.imp_right (Or.imp_right (Or.imp ht hl))

theorem insertPrefix_accounted {tokens : List UInt32} {blocks : List ℕ} {now : ℕ → ℕ} {b : ℕ}
    (h : p.AccountedFor b) (hq : p.insertPrefix tokens blocks now = some q) : q.AccountedFor b := by
  refine h.of_books (insertPrefix_books hq) ?_ ?_ <;>
    obtain ⟨t, ht, rfl⟩ := Option.map_eq_some_iff.mp hq
  · intro hb
    have hs : t.SameShape (t.touch tokens fun k => now (blocks.length + k)) :=
      RadixTree.touchNodes_shape
    unfold RadixTree.containsBlock
    dsimp only
    rw [hs.blockToNode]
    exact RadixTree.insertFrom_containsBlock hb ht
  · exact id

theorem demotePrefixBlock_location {id b : ℕ} {io : Except String Unit} {d : Bool}
    (h : (p.blocks b).location ≠ .gpu) (hq : p.demotePrefixBlock id io = some (q, d)) :
    (q.blocks b).location ≠ .gpu := by
  have hset : ∀ (r : KvBlockPool) (tier : CacheTier), tier ≠ .gpu → r.blocks = p.blocks →
      ((r.modify id fun b => { b with location := tier }).blocks b).location ≠ .gpu := by
    intro r tier htier hr
    by_cases hb : b = id
    · subst hb
      simpa [modify] using htier
    · simpa [modify, hb, hr] using h
  unfold demotePrefixBlock at hq
  split at hq
  · cases hq
    exact h
  · split_ifs at hq
    split at hq
    · cases hq
      exact h
    · split at hq <;> cases hq
      · exact hset _ _ (by decide) rfl
      · exact hset _ _ (by decide) rfl

theorem demoteColdPrefix_accounted {now : ℕ → ℕ} {io : Except String Unit} {b : ℕ} {r : Option ℕ}
    (h : p.AccountedFor b) (hq : p.demoteColdPrefix now io = some (q, r)) : q.AccountedFor b := by
  obtain ⟨hs, ht⟩ := demoteColdPrefix_books hq
  refine h.of_books hs (fun hm => by rwa [ht]) fun hl => ?_
  unfold demoteColdPrefix at hq
  split at hq
  · cases hq
    exact hl
  · obtain ⟨⟨r', d⟩, hr, hq⟩ := Option.map_eq_some_iff.mp hq
    cases hq
    exact demotePrefixBlock_location hl hr

theorem install_location {id b : ℕ} {k v : List UInt32}
    {res : Except String (Option (List UInt32 × List UInt32))}
    (h : p.install id k v = some (q, res)) (hb : b ≠ id) :
    (q.blocks b).location = (p.blocks b).location := by
  simp only [install] at h
  split_ifs at h <;> cases h
  · rfl
  · simp [modify, hb]

theorem promoteToGpu_location {id b : ℕ}
    {res : Except String (Option (List UInt32 × List UInt32))}
    (h : p.promoteToGpu id = some (q, res)) (hb : b ≠ id ∨ ¬ p.HasCopy id) :
    (q.blocks b).location = (p.blocks b).location := by
  unfold promoteToGpu at h
  unfold HasCopy at hb
  rcases hs : p.spill with - | s
  · rw [hs] at h
    cases h
    rfl
  · rw [hs] at h hb
    dsimp only at h hb
    rcases hr : s.promote id with ⟨s', read⟩
    rw [hr] at h hb
    dsimp only at h hb
    split at h
    · cases h
      rfl
    · cases h
      rfl
    · have hb := hb.resolve_right (by simp)
      split_ifs at h
      have hq := install_location h hb
      exact hq
    · have hb := hb.resolve_right (by simp)
      split at h
      · cases h
        rfl
      · split at h
        · cases h
          rfl
        · split_ifs at h
          have hq := install_location h hb
          exact hq

theorem promoteToGpu_accounted {id b : ℕ}
    {res : Except String (Option (List UInt32 × List UInt32))} (h : p.AccountedFor b)
    (hkept : b = id → p.HasCopy id →
      b ∈ p.freeList ∨ 0 < p.blockRefCount b ∨ p.prefixTree.containsBlock b)
    (hq : p.promoteToGpu id = some (q, res)) : q.AccountedFor b := by
  obtain ⟨hs, ht⟩ := promoteToGpu_books hq
  by_cases hid : b = id ∧ p.HasCopy id
  · have hk := hkept hid.1 hid.2
    obtain ⟨hf, -, hr⟩ := hs
    unfold AccountedFor blockRefCount at *
    rw [hf, hr, ht]
    exact hk.imp_right (Or.imp_right .inl)
  · refine h.of_books hs (fun hm => by rwa [ht]) fun hl => ?_
    rwa [promoteToGpu_location hq (not_and_or.mp hid)]

theorem recycle_accounted {id b : ℕ} (h : b = id ∨ p.AccountedFor b) :
    ((p.recycle id).modify id fun b => { b with location := .gpu }).AccountedFor b := by
  by_cases hb : b = id
  · subst hb
    exact .inl (by simp [recycle, modify])
  · have h := h.resolve_left hb
    unfold AccountedFor blockRefCount at *
    refine h.imp ?_ (Or.imp_right (Or.imp_right ?_))
    · intro hf
      simp [recycle, modify, hf]
    · intro hl
      simpa [recycle, modify, hb] using hl

theorem dropInPlace_accounted {id b : ℕ} (h : b = id ∨ p.AccountedFor b)
    (hq : p.dropInPlace id = some q) : q.AccountedFor b := by
  unfold dropInPlace at hq
  split_ifs at hq with hmap
  · cases hq
    rcases h with rfl | h
    · exact .inr (.inr (.inl hmap))
    · exact h
  · cases hq
    exact recycle_accounted h

theorem release_accounted {id b : ℕ} {io : Except String Unit} (h : b = id ∨ p.AccountedFor b)
    (hq : p.release id io = some q) : q.AccountedFor b := by
  unfold release at hq
  split at hq
  · exact dropInPlace_accounted h hq
  · split_ifs at hq
    split at hq
    · cases hq
      by_cases hb : b = id
      · subst hb
        exact .inr (.inr (.inr (by simp [markDemoted, countDemoted, modify])))
      · have h := h.resolve_left hb
        unfold AccountedFor blockRefCount at *
        refine h.imp_right (Or.imp_right (Or.imp_right fun hl => ?_))
        simpa [markDemoted, countDemoted, modify, hb] using hl
    · refine dropInPlace_accounted ?_ hq
      exact h

theorem freeWithTier_numBlocks {id : ℕ} {forceTier : Bool} {io : Except String Unit}
    (hq : p.freeWithTier id forceTier io = some q) : q.numBlocks = p.numBlocks := by
  unfold freeWithTier at hq
  split at hq
  · split at hq
    · exact (release_books hq).1
    · cases hq
      rfl
  · split at hq
    · cases hq
      rfl
    · exact (release_books hq).1

theorem free_accounted {id b : ℕ} {io : Except String Unit} (h : p.AccountedFor b)
    (hq : p.freeWithTier id false io = some q) : q.AccountedFor b := by
  unfold freeWithTier at hq
  rcases hcnt : p.refCounts id with - | cnt
  · rw [hcnt] at hq
    cases hq
    exact h
  · rw [hcnt] at hq
    dsimp only at hq
    by_cases hmany : 1 < cnt ∧ ¬ false = true
    · rw [if_pos hmany] at hq
      cases hq
      by_cases hb : b = id
      · subst hb
        refine .inr (.inl ?_)
        unfold blockRefCount
        simp
        omega
      · unfold AccountedFor blockRefCount at *
        simpa [hb] using h
    · rw [if_neg hmany] at hq
      refine release_accounted ?_ hq
      by_cases hb : b = id
      · exact .inl hb
      · refine .inr ?_
        unfold AccountedFor blockRefCount at *
        simpa [hb] using h

theorem freeAncestors_accounted {chain : List ℕ} {b : ℕ} : ∀ {p q : KvBlockPool},
    b ∈ chain ∨ p.AccountedFor b → freeAncestors chain p = some q → q.AccountedFor b := by
  induction chain with
  | nil =>
    intro p q h hq
    cases hq
    exact h.resolve_left (by simp)
  | cons a chain ih =>
    intro p q h hq
    unfold freeAncestors at hq
    split_ifs at hq
    refine ih ?_ hq
    by_cases hba : b = a
    · subst hba
      exact .inr (.inl (by simp [recycle, countDemoted]))
    · rcases h with h | h
      · exact .inl ((List.mem_cons.mp h).resolve_left hba)
      · refine .inr ?_
        unfold AccountedFor blockRefCount at *
        refine h.imp ?_ (Or.imp ?_ (Or.imp_right ?_))
        · intro hf
          simp [recycle, countDemoted, hf]
        · intro hr
          simpa [recycle, countDemoted, hba] using hr
        · intro hl
          simpa [recycle, countDemoted, modify, hba] using hl

theorem evictLeaf_accounted {id b : ℕ} {io : Except String Unit} (h : b = id ∨ p.AccountedFor b)
    (hq : p.evictLeaf id io = some q) : q.AccountedFor b := by
  have hpush : ∀ r : KvBlockPool, (b = id ∨ r.AccountedFor b) →
      AccountedFor { r.recycle id with refCounts := update r.refCounts id none } b := by
    intro r hr
    by_cases hb : b = id
    · subst hb
      exact .inl (by simp [recycle])
    · have hr := hr.resolve_left hb
      unfold AccountedFor blockRefCount at *
      refine hr.imp ?_ (Or.imp ?_ (Or.imp_right ?_))
      · intro hf
        simp [recycle, hf]
      · intro hc
        simpa [hb] using hc
      · intro hl
        simpa [recycle, modify, hb] using hl
  unfold evictLeaf at hq
  split_ifs at hq
  split at hq
  · cases hq
    exact hpush p h
  · split at hq
    · cases hq
      by_cases hb : b = id
      · subst hb
        exact .inr (.inr (.inr (by simp [markDemoted, countDemoted, modify])))
      · have h := h.resolve_left hb
        unfold AccountedFor blockRefCount at *
        refine h.imp_right (Or.imp ?_ (Or.imp_right ?_))
        · intro hc
          simpa [hb] using hc
        · intro hl
          simpa [markDemoted, countDemoted, modify, hb] using hl
    · cases hq
      exact hpush _ h

theorem evictCold_accounted {now : ℕ → ℕ} {io : Except String Unit} {b : ℕ} {d : Bool}
    (hwhole : p.EvictsWhole now) (hb : b < p.numBlocks) (h : p.AccountedFor b)
    (hq : p.evictCold now io = some (q, d)) : q.AccountedFor b := by
  -- a block of the chain, or one that keeps what it had
  have hkept : b ∈ (p.prefixTree.evictColdestChain now).2
      ∨ AccountedFor { p with prefixTree := (p.prefixTree.evictColdestChain now).1 } b := by
    by_cases hmem : b ∈ (p.prefixTree.evictColdestChain now).2
    · exact .inl hmem
    · refine .inr ?_
      rcases h with h | h | h | h
      · exact .inl h
      · exact .inr (.inl h)
      · have := (RadixTree.evictColdestChain_containsBlock h).resolve_right hmem
        exact .inr (.inr (.inl this))
      · exact .inr (.inr (.inr h))
  unfold EvictsWhole strandedAncestors at hwhole
  simp only [evictCold] at hq
  split at hq
  · rename_i hchain
    cases hq
    rw [hchain] at hkept
    exact hkept.resolve_left (by simp)
  · rename_i leaf ancestors hchain
    rw [hchain] at hkept hwhole
    dsimp only at hwhole
    split_ifs at hq with href
    · cases hq
      have href : 0 < p.blockRefCount leaf := href
      rw [if_pos href] at hwhole
      rcases hkept with hmem | hkept
      · rcases List.mem_cons.mp hmem with rfl | hmem
        · exact .inr (.inl href)
        · rcases hwhole b hmem hb with hr | hl
          · exact .inr (.inl hr)
          · exact .inr (.inr (.inr hl))
      · exact hkept
    · obtain ⟨r, hr, hq⟩ := Option.bind_eq_some_iff.mp hq
      obtain ⟨r', hr', hq⟩ := Option.map_eq_some_iff.mp hq
      cases hq
      refine evictLeaf_accounted ?_ hr'
      by_cases hbl : b = leaf
      · exact .inl hbl
      · refine .inr (freeAncestors_accounted ?_ hr)
        exact hkept.imp_left fun hm => (List.mem_cons.mp hm).resolve_left hbl

theorem evictFor_accounted {now : ℕ → ℕ} {io : Except String Unit}
    (hwhole : p.freeList = [] → p.EvictsWhole now) (hq : p.evictFor now io = some q) :
    q.numBlocks = p.numBlocks ∧ ∀ b < p.numBlocks, p.AccountedFor b → q.AccountedFor b := by
  unfold evictFor at hq
  split_ifs at hq with hempty
  · obtain ⟨⟨q', d⟩, hq', rfl⟩ := Option.map_eq_some_iff.mp hq
    exact ⟨(evictCold_books hq').2.1,
      fun b hb h => evictCold_accounted (hwhole hempty) hb h hq'⟩
  · cases hq
    exact ⟨rfl, fun _ _ h => h⟩

theorem reclaimFor_accounted {b : ℕ} (now : ℕ → ℕ) (h : p.AccountedFor b) :
    (p.reclaimFor now).AccountedFor b := by
  unfold reclaimFor
  split_ifs
  · unfold reclaimSpilledColdest
    split
    · exact h
    · rename_i id hid
      have hs : p.prefixTree.SameShape (p.prefixTree.remove [id]) := RadixTree.remove_shape
      by_cases hb : b = id
      · exact .inl (by simp [hb])
      · unfold AccountedFor blockRefCount RadixTree.containsBlock at *
        dsimp only
        rw [hs.blockToNode]
        refine h.imp ?_ (Or.imp ?_ (Or.imp_right ?_))
        · intro hf
          simp [hf]
        · intro hc
          simpa [hb] using hc
        · intro hl
          simpa [modify, hb] using hl
  · exact h

theorem reclaimFor_numBlocks (now : ℕ → ℕ) : (p.reclaimFor now).numBlocks = p.numBlocks := by
  unfold reclaimFor reclaimSpilledColdest
  split_ifs
  · split <;> rfl
  · rfl

theorem popFree_accounted {b : ℕ} (h : p.AccountedFor b) : p.popFree.1.AccountedFor b := by
  unfold popFree
  split
  · exact h
  · rename_i id rest hfree
    by_cases hb : b = id
    · exact .inr (.inl (by simp [blockRefCount, hb]))
    · unfold AccountedFor blockRefCount at *
      rw [hfree] at h
      refine h.imp ?_ (Or.imp_left ?_)
      · intro hf
        exact (List.mem_cons.mp hf).resolve_left hb
      · intro hc
        simpa [hb] using hc

theorem popFree_numBlocks : p.popFree.1.numBlocks = p.numBlocks := by
  unfold popFree
  split <;> rfl

theorem alloc_numBlocks {now : ℕ → ℕ} {io : Except String Unit} {res : Except String ℕ}
    (hq : p.alloc now io = some (q, res)) : q.numBlocks = p.numBlocks := by
  obtain ⟨r, hr, hq⟩ := Option.map_eq_some_iff.mp hq
  obtain rfl : (r.reclaimFor fun k => now (p.prefixTree.size + k)).popFree.1 = q :=
    congrArg Prod.fst hq
  refine popFree_numBlocks.trans ((reclaimFor_numBlocks _).trans ?_)
  unfold evictFor at hr
  split_ifs at hr
  · obtain ⟨⟨r', b⟩, hcold, rfl⟩ := Option.map_eq_some_iff.mp hr
    exact (evictCold_books hcold).2.1
  · cases hr
    rfl

theorem alloc_accounted {now : ℕ → ℕ} {io : Except String Unit} {res : Except String ℕ}
    (hwhole : p.freeList = [] → p.EvictsWhole now) (hq : p.alloc now io = some (q, res)) :
    q.numBlocks = p.numBlocks ∧ ∀ b < p.numBlocks, p.AccountedFor b → q.AccountedFor b := by
  obtain ⟨r, hr, hq⟩ := Option.map_eq_some_iff.mp hq
  obtain rfl : (r.reclaimFor fun k => now (p.prefixTree.size + k)).popFree.1 = q :=
    congrArg Prod.fst hq
  obtain ⟨hnum, hacc⟩ := evictFor_accounted hwhole hr
  refine ⟨popFree_numBlocks.trans ((reclaimFor_numBlocks _).trans hnum), fun b hb h => ?_⟩
  exact popFree_accounted (reclaimFor_accounted _ (hacc b hb h))

end KvBlockPool

namespace History

variable {h h' : History} {call : Call}

def NoLeak (h : History) : Prop := ∀ b < h.pool.numBlocks, h.pool.AccountedFor b

def Balanced (h : History) (call : Call) : Prop :=
  h.Contract call ∧ match call with
    | .alloc _ _ | .insertPrefix _ _ _ | .removePrefix _ | .demoteColdPrefix _ _
    | .promoteToGpu _ => True
    | .free _ forceTier _ => forceTier = false
    | _ => False

instance : Decidable (h.Balanced call) :=
  match call with
  | .free _ forceTier _ => inferInstanceAs (Decidable (_ ∧ forceTier = false))
  | .alloc .. | .insertPrefix .. | .removePrefix .. | .demoteColdPrefix .. | .promoteToGpu .. =>
    inferInstanceAs (Decidable (_ ∧ True))
  | .addRef .. | .pinBlocks .. | .matchPrefixPromoting .. | .resizeCapacity .. =>
    inferInstanceAs (Decidable (_ ∧ False))

/-- An eviction strands no ancestor, and a promoted page has a use. -/
def StrandsNothing (h : History) (call : Call) : Prop :=
  h.Balanced call ∧ match call with
    | .alloc now _ => h.pool.freeList = [] → h.pool.EvictsWhole now
    | .promoteToGpu id => h.pool.HasCopy id →
      id ∈ h.pool.freeList ∨ 0 < h.pool.blockRefCount id ∨ h.pool.prefixTree.containsBlock id
    | _ => True

instance : Decidable (h.StrandsNothing call) :=
  match call with
  | .alloc now _ =>
    inferInstanceAs (Decidable (_ ∧ (h.pool.freeList = [] → h.pool.EvictsWhole now)))
  | .promoteToGpu id => inferInstanceAs (Decidable (_ ∧ (h.pool.HasCopy id →
      id ∈ h.pool.freeList ∨ 0 < h.pool.blockRefCount id ∨ h.pool.prefixTree.containsBlock id)))
  | .addRef .. | .free .. | .insertPrefix .. | .removePrefix .. | .pinBlocks ..
  | .demoteColdPrefix .. | .matchPrefixPromoting .. | .resizeCapacity .. =>
    inferInstanceAs (Decidable (_ ∧ True))

theorem NoLeak.step (hl : h.NoLeak) (hok : h.StrandsNothing call) (hs : h.step call = some h') :
    h'.NoLeak := by
  obtain ⟨⟨-, hbal⟩, hok⟩ := hok
  cases call with
  | alloc now io =>
    obtain ⟨⟨p, res⟩, hp, rfl⟩ := Option.map_eq_some_iff.mp hs
    obtain ⟨hnum, hacc⟩ := KvBlockPool.alloc_accounted hok hp
    intro b hb
    rw [allocated_pool] at hb ⊢
    rw [hnum] at hb
    exact hacc b hb (hl b hb)
  | free id forceTier io =>
    obtain rfl : forceTier = false := hbal
    obtain ⟨p, hp, rfl⟩ := Option.map_eq_some_iff.mp hs
    intro b hb
    have hb : b < p.numBlocks := hb
    rw [KvBlockPool.freeWithTier_numBlocks hp] at hb
    exact KvBlockPool.free_accounted (hl b hb) hp
  | insertPrefix tokens blocks now =>
    obtain ⟨p, hp, rfl⟩ := Option.map_eq_some_iff.mp hs
    intro b hb
    have hb : b < p.numBlocks := hb
    rw [(KvBlockPool.insertPrefix_books hp).2.1] at hb
    exact KvBlockPool.insertPrefix_accounted (hl b hb) hp
  | removePrefix blocks =>
    cases hs
    intro b hb
    refine (hl b hb).of_books .rfl ?_ id
    have hsh : h.pool.prefixTree.SameShape (RadixTree.remove blocks h.pool.prefixTree) :=
      RadixTree.remove_shape
    unfold RadixTree.containsBlock
    show _ → ((RadixTree.remove blocks h.pool.prefixTree).blockToNode b).isSome
    rw [hsh.blockToNode]
    exact id
  | demoteColdPrefix now io =>
    obtain ⟨⟨p, r⟩, hp, rfl⟩ := Option.map_eq_some_iff.mp hs
    intro b hb
    have hb : b < p.numBlocks := hb
    rw [(KvBlockPool.demoteColdPrefix_books hp).1.2.1] at hb
    exact KvBlockPool.demoteColdPrefix_accounted (hl b hb) hp
  | promoteToGpu id =>
    obtain ⟨⟨p, r⟩, hp, rfl⟩ := Option.map_eq_some_iff.mp hs
    intro b hb
    have hb : b < p.numBlocks := hb
    rw [(KvBlockPool.promoteToGpu_books hp).1.2.1] at hb
    refine KvBlockPool.promoteToGpu_accounted (hl b hb) ?_ hp
    rintro rfl
    exact hok
  | _ => exact absurd hbal id

theorem noLeak_new (c : Setup) : (new c).NoLeak :=
  fun _ hb => .inl (List.mem_range.mpr hb)

/-- In a run whose evictions strand no ancestor and whose promotions are of pages in use, no page
is lost. -/
theorem reach_noLeak (c : Setup) (h : History)
    (hr : Steps.Reach step StrandsNothing (new c) h) : h.NoLeak :=
  hr.invariant (noLeak_new c) fun _ _ _ hl hok hs => hl.step hok hs

/-- A prefix of two blocks is cached, evicted, and its pages are handed out again. -/
theorem reach_noLeak_evicted : ∃ h, Steps.Reach step StrandsNothing (new (.tiny 2 none)) h
    ∧ h.pool.freeList = [1] ∧ h.NoLeak := by
  obtain ⟨h, hrun⟩ : ∃ h, Steps.exec step StrandsNothing (new (.tiny 2 none))
      [.alloc id (.ok ()), .alloc id (.ok ()), .insertPrefix (List.replicate 32 7) [0, 1] id,
        .removePrefix [0, 1], .free 0 false (.ok ()), .free 1 false (.ok ()),
        .alloc id (.ok ())] = some h := ⟨_, rfl⟩
  have hr := Steps.reach_of_exec hrun
  refine ⟨h, hr, ?_, reach_noLeak _ h hr⟩
  obtain rfl := Option.some.inj hrun
  rfl

/-- The owner of block 1 still holds it when an allocation evicts the prefix of blocks 0 and 1:
block 0 is detached, and nothing frees it. -/
theorem eviction_leaks_ancestor : ¬ ∀ (c : Setup) (h : History),
    Steps.Reach step Balanced (new c) h → h.NoLeak := by
  intro hall
  obtain ⟨h, hrun⟩ : ∃ h, Steps.exec step Balanced (new (.tiny 2 none))
      [.alloc id (.ok ()), .alloc id (.ok ()), .insertPrefix (List.replicate 32 7) [0, 1] id,
        .removePrefix [0, 1], .free 0 false (.ok ()), .alloc id (.ok ())] = some h := ⟨_, rfl⟩
  have hleak := hall _ h (Steps.reach_of_exec hrun) 0
  obtain rfl := Option.some.inj hrun
  exact absurd (hleak (by decide)) (by decide)

end History

end Grim.Memory
