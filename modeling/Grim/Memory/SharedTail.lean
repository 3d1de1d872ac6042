import Grim.Memory.PrefixShare
import Grim.Memory.Recycled
import Grim.Memory.Sharing

/-!
# The blocks of a shared prefix

The matched blocks have no reference of the call while the tail is allocated, so an allocation can
evict one of them or reclaim its page.  While none does, the blocks handed out are apart: distinct,
in use, and the matched ones still those of the tree.
-/

namespace Grim.Memory

open List Option
open Function (update update_self update_of_ne)

namespace RadixTree

variable {t t' : RadixTree} {tokens : List UInt32}

theorem matchPrefix_getElem? (i : ℕ) : (t.matchPrefix tokens).1[i]?
    = if i < tokens.length / t.blockSize then t.blockAt (t.blockKeys tokens (i + 1)) else none := by
  have hmap : (t.matchPrefix tokens).1[i]?
      = (t.matched tokens)[i]?.map fun idx => (t.nodes idx).blockId := getElem?_map
  rw [hmap]
  split_ifs with hi
  · rw [matched_getElem? hi, blockAt]
  · rw [getElem?_eq_none (matched_length.trans (not_lt.mp hi)), map_none]

theorem SameShape.matchPrefix (h : SameShape t t') :
    (t'.matchPrefix tokens).1 = (t.matchPrefix tokens).1 := by
  refine ext_getElem? fun i => ?_
  rw [matchPrefix_getElem?, matchPrefix_getElem?, h.blockSize, h.blockKeys, h.blockAt]

theorem blockKeys_ne_nil {n : ℕ} : t.blockKeys tokens (n + 1) ≠ [] := by
  intro hnil
  have hlen := congrArg List.length hnil
  rw [blockKeys_length] at hlen
  exact absurd hlen (Nat.succ_ne_zero n)

theorem Linked.evict_matchPrefix (h : t.Linked) (now : ℕ → ℕ)
    (hother : ∀ b ∈ (t.matchPrefix tokens).1, b ∉ (t.evictColdestChain now).2) :
    ((t.evictColdestChain now).1.matchPrefix tokens).1 = (t.matchPrefix tokens).1 := by
  have hsize := (evictColdestChain_narrowed t now).blockSize
  refine ext_getElem? fun i => ?_
  have hmem : ∀ b, (t.matchPrefix tokens).1[i]? = some b → b ∉ (t.evictColdestChain now).2 :=
    fun b hb => hother b (mem_of_getElem? hb)
  rw [matchPrefix_getElem?] at hmem
  rw [matchPrefix_getElem?, matchPrefix_getElem?, hsize, blockKeys_congr hsize]
  split_ifs with hi
  · rw [if_pos hi] at hmem
    refine Option.ext fun b => ?_
    rw [h.evictColdestChain_blockAt now blockKeys_ne_nil b]
    exact and_iff_left_of_imp (hmem b)
  · rfl

theorem Linked.matchPrefix_mapped (h : t.Linked) {b : ℕ} (hb : b ∈ (t.matchPrefix tokens).1) :
    t.blockToNode b ≠ none := by
  obtain ⟨c, hc, rfl⟩ := List.mem_map.mp (show b ∈ (t.matched tokens).map _ from hb)
  have hm : t.blockToNode (t.nodes c).blockId = some c := h.matched_mapped c hc
  rw [hm]
  exact some_ne_none c

theorem Linked.matchPrefix_nodup (h : t.Linked) : (t.matchPrefix tokens).1.Nodup := by
  show ((t.matched tokens).map fun idx => (t.nodes idx).blockId).Nodup
  refine List.Nodup.map_on ?_ ?_
  · intro m hm n hn heq
    exact (h.matched_mapped m hm).inj (h.matched_mapped n hn) heq
  · rw [nodup_iff_getElem?_ne_getElem?]
    intro i j hij hj heq
    have hlt := hj.trans_le matched_length
    rw [matched_getElem? (hij.trans hlt), matched_getElem? hlt] at heq
    obtain ⟨c, hc⟩ : ∃ c, t.find t.root (t.blockKeys tokens (j + 1)) = some c := by
      rw [← matched_getElem? hlt]
      exact ⟨_, getElem?_eq_getElem hj⟩
    have hkeys := congrArg List.length (h.rooted.inj _ _ c (heq.trans hc) hc)
    rw [blockKeys_length, blockKeys_length] at hkeys
    omega

theorem Linked.prune_nodup {idx : ℕ} : ∀ {fuel n : ℕ} {t : RadixTree} {detached : List ℕ},
    t.Linked → (n = t.root ∨ t.Mapped n) → (∀ b ∈ detached, t.blockToNode b = none) →
    detached.Nodup → (RadixTree.prune idx fuel n t detached).2.Nodup := by
  intro fuel
  induction fuel with
  | zero => exact fun _ _ _ hnodup => hnodup
  | succ fuel ih =>
    intro n t detached h hn hdet hnodup
    unfold RadixTree.prune
    by_cases hc : n ≠ t.root ∧ (t.nodes n).children = []
    · have hm := hn.resolve_left hc.1
      obtain ⟨p, hp, hne⟩ := h.parent hm
      obtain ⟨hu, hl, hroot⟩ := h.unlink hm hc.2 hp hne
      rw [if_pos hc, hp]
      refine ih hl hroot (fun b => hu.unmapped_detached hdet) ?_
      split_ifs
      · refine nodup_append.mpr ⟨hnodup, nodup_singleton _, ?_⟩
        intro a ha b hb hab
        have hnone := hdet a ha
        rw [hab, mem_singleton.mp hb, hm] at hnone
        cases hnone
      · exact hnodup
    · rw [if_neg hc]
      exact hnodup

theorem Linked.chain_nodup (h : t.Linked) (now : ℕ → ℕ) : (t.evictColdestChain now).2.Nodup := by
  obtain heq | ⟨idx, p, -, -, -, hu, hl, hproot, heq⟩ := h.evict_cases now <;> rw [heq]
  · exact nodup_nil
  · refine hl.prune_nodup hproot ?_ (nodup_singleton _)
    intro b hb
    exact hu.unmapped (.inr (mem_singleton.mp hb))

end RadixTree

namespace KvBlockPool

variable {p q r : KvBlockPool} {env : Env} {tokens : List UInt32} {matched fresh : List ℕ}
  {k id : ℕ}

/-- The `k`-th allocation unlinks no matched block, evicts no block it got before, and reclaims no
matched one. -/
structure Spares (p : KvBlockPool) (env : Env) (k : ℕ) (matched fresh : List ℕ) : Prop where
  unlinks : p.freeList = [] →
    ∀ b ∈ (p.prefixTree.evictColdestChain (env.now k)).2, b ∉ matched
  evicts : p.freeList = [] →
    (∀ leaf ∈ (p.prefixTree.evictColdestChain (env.now k)).2.head?, p.blockRefCount leaf = 0) →
    ∀ b ∈ (p.prefixTree.evictColdestChain (env.now k)).2, b ∉ fresh
  reclaims : ∀ q ∈ p.evictFor (env.now k) (env.io k), q.freeList = [] →
    ∀ b ∈ q.spilledColdest fun i => env.now k (p.prefixTree.size + i), b ∉ matched

/-- What holds while the tail is allocated: the free blocks, the matched ones and those got so far
are apart, and the tree still matches the same. -/
structure Apart (p : KvBlockPool) (tokens : List UInt32) (matched fresh : List ℕ) : Prop where
  linked : p.prefixTree.Linked
  nodup : p.freeList.Nodup
  matched_free : ∀ b ∈ matched, b ∉ p.freeList
  fresh_free : ∀ b ∈ fresh, b ∉ p.freeList
  refs : ∀ b ∈ fresh, 0 < p.blockRefCount b
  fresh_nodup : fresh.Nodup
  new : ∀ b ∈ fresh, b ∉ matched
  hit : (p.matchPrefix tokens).1 = matched

theorem Apart.evictFor (h : p.Apart tokens matched fresh) (hs : p.Spares env k matched fresh)
    (hr : p.evictFor (env.now k) (env.io k) = some r) : r.Apart tokens matched fresh := by
  unfold KvBlockPool.evictFor at hr
  split_ifs at hr with hempty
  · obtain ⟨⟨r', x⟩, hcold, rfl⟩ := map_eq_some_iff.mp hr
    obtain ⟨htree, -, hbooks⟩ := evictCold_books hcold
    have hunlinks := hs.unlinks hempty
    have hlinked : r'.prefixTree.Linked := by
      rw [htree]
      exact (h.linked.evictColdestChain _).linked
    have hhit : (r'.matchPrefix tokens).1 = matched := by
      rw [matchPrefix, htree, h.linked.evict_matchPrefix, ← h.hit]
      · rfl
      · intro b hb hchain
        exact hunlinks b hchain (h.hit ▸ hb)
    rcases hbooks with ⟨hf, href⟩ | ⟨leaf, ancestors, hchain, hleaf, -, href, hf⟩
    · refine ⟨hlinked, hf ▸ h.nodup, hf ▸ h.matched_free, hf ▸ h.fresh_free, fun b hb => ?_,
        h.fresh_nodup, h.new, hhit⟩
      rw [blockRefCount, href]
      exact h.refs b hb
    · have hevicts := hs.evicts hempty
      have hnodup := h.linked.chain_nodup (env.now k)
      rw [hchain] at hevicts hunlinks hnodup
      have hevicts : ∀ b ∈ leaf :: ancestors, b ∉ fresh := hevicts (by simpa using hleaf)
      have hmem : ∀ b ∈ r'.freeList, b ∈ leaf :: ancestors := by
        intro b hb
        rcases hf with hf | hf <;> rw [hf, hempty] at hb <;> simp at hb ⊢ <;> tauto
      refine ⟨hlinked, ?_, fun b hb hfree => hunlinks b (hmem b hfree) hb,
        fun b hb hfree => hevicts b (hmem b hfree) hb, fun b hb => ?_, h.fresh_nodup, h.new, hhit⟩
      · obtain ⟨hnot, hanc⟩ := nodup_cons.mp hnodup
        rcases hf with hf | hf <;> rw [hf, hempty]
        · exact hanc
        · exact ((perm_append_singleton leaf ancestors).nodup_iff).mpr hnodup
      · have hnot : b ∉ leaf :: ancestors := fun hc => hevicts b hc hb
        rw [blockRefCount, href, dropRefs, if_neg hnot]
        exact h.refs b hb
  · cases hr
    exact h

theorem Apart.reclaimFor (h : p.Apart tokens matched fresh) {now : ℕ → ℕ}
    (hs : p.freeList = [] → ∀ b ∈ p.spilledColdest now, b ∉ matched) :
    (p.reclaimFor now).Apart tokens matched fresh := by
  unfold KvBlockPool.reclaimFor
  split_ifs with hempty
  · rcases @reclaimSpilledColdest_books p now with heq | ⟨id, hid, -, hnone, hf, -, href, htree⟩
    · rw [heq]
      exact h
    · have hshape : p.prefixTree.SameShape (p.reclaimSpilledColdest now).1.prefixTree := by
        rw [htree]
        exact RadixTree.remove_shape
      rw [hempty, nil_append] at hf
      refine ⟨hshape.linked h.linked, hf ▸ nodup_singleton id, ?_, ?_, ?_, h.fresh_nodup,
        h.new, hshape.matchPrefix.trans h.hit⟩
      · intro b hb hfree
        rw [hf, mem_singleton] at hfree
        exact hs hempty id hid (hfree ▸ hb)
      · intro b hb hfree
        rw [hf, mem_singleton] at hfree
        have hpos := h.refs b hb
        rw [hfree, blockRefCount, hnone] at hpos
        exact absurd hpos (Nat.lt_irrefl 0)
      · intro b hb
        rw [blockRefCount, href]
        exact h.refs b hb
  · exact h

theorem Apart.popFree (h : p.Apart tokens matched fresh) (hq : p.popFree = (q, .ok id)) :
    q.Apart tokens matched (fresh ++ [id]) := by
  unfold KvBlockPool.popFree at hq
  split at hq
  · cases hq
  rename_i a rest hfree
  cases hq
  have hnodup := h.nodup
  rw [hfree, nodup_cons] at hnodup
  have hid : id ∈ p.freeList := hfree ▸ .head _
  have hmem : ∀ b ∈ rest, b ∈ p.freeList := fun b hb => hfree ▸ .tail _ hb
  refine ⟨h.linked, hnodup.2, fun b hb hrest => h.matched_free b hb (hmem b hrest), ?_, ?_, ?_, ?_,
    h.hit⟩
  · intro b hb hrest
    rcases mem_append.mp hb with hb | hb
    · exact h.fresh_free b hb (hmem b hrest)
    · exact hnodup.1 (mem_singleton.mp hb ▸ hrest)
  · intro b hb
    by_cases hbid : b = id
    · subst hbid
      simp [blockRefCount]
    · have hb : b ∈ fresh := by simpa [hbid] using hb
      have hpos := h.refs b hb
      simpa [blockRefCount, hbid] using hpos
  · refine nodup_append.mpr ⟨h.fresh_nodup, nodup_singleton id, ?_⟩
    rintro b hb _ hid' rfl
    exact h.fresh_free b hb (mem_singleton.mp hid' ▸ hid)
  · intro b hb hm
    rcases mem_append.mp hb with hb | hb
    · exact h.new b hb hm
    · exact h.matched_free b hm (mem_singleton.mp hb ▸ hid)

theorem Apart.alloc (h : p.Apart tokens matched fresh) (hs : p.Spares env k matched fresh)
    (hq : p.alloc (env.now k) (env.io k) = some (q, .ok id)) :
    q.Apart tokens matched (fresh ++ [id]) := by
  obtain ⟨r, hr, hq⟩ := map_eq_some_iff.mp hq
  exact ((h.evictFor hs hr).reclaimFor (hs.reclaims r hr)).popFree hq

theorem alloc_unmapped {res : Except String ℕ} (hl : p.prefixTree.Linked) {now : ℕ → ℕ}
    {io : Except String Unit} (hq : p.alloc now io = some (q, res)) :
    q.prefixTree.Linked
      ∧ ∀ b, p.prefixTree.blockToNode b = none → q.prefixTree.blockToNode b = none := by
  obtain ⟨t, ht, hq⟩ := alloc_prefixTree hq
  have hevict : t.Linked ∧ ∀ b, p.prefixTree.blockToNode b = none → t.blockToNode b = none := by
    rcases ht with rfl | rfl
    · exact ⟨hl, fun _ hb => hb⟩
    · have he := hl.evictColdestChain now
      refine ⟨he.linked, fun b hb => ?_⟩
      refine eq_none_iff_forall_ne_some.mpr fun n hn => ?_
      rw [he.mapped b n hn] at hb
      cases hb
  rcases hq with hq | ⟨id, hq⟩
  · rw [hq]
    exact hevict
  · have hshape : t.SameShape (t.remove [id]) := RadixTree.remove_shape
    rw [hq, hshape.blockToNode]
    exact ⟨hshape.linked hevict.1, hevict.2⟩

theorem allocTail_unmapped : ∀ {n k : ℕ} {p : KvBlockPool} {ids : List ℕ}
    {res : Except String Unit}, p.prefixTree.Linked → allocTail env n k p = some (r, ids, res) →
      r.prefixTree.Linked
        ∧ ∀ b, p.prefixTree.blockToNode b = none → r.prefixTree.blockToNode b = none
  | 0, _, _, _, _, hl, h => by
    cases h
    exact ⟨hl, fun _ hb => hb⟩
  | n + 1, k, p, ids, res, hl, h => by
    unfold allocTail at h
    obtain ⟨⟨q, id⟩, hq, h⟩ := bind_eq_some_iff.mp h
    obtain ⟨hql, hqnone⟩ := alloc_unmapped hl hq
    rcases id with e | id
    · cases h
      exact ⟨hql, hqnone⟩
    · obtain ⟨⟨r', ids', res'⟩, hrest, heq⟩ := map_eq_some_iff.mp h
      cases heq
      obtain ⟨hrl, hrnone⟩ := allocTail_unmapped hql hrest
      exact ⟨hrl, fun b hb => hrnone b (hqnone b hb)⟩

theorem reclaimFor_shape {now : ℕ → ℕ} :
    p.prefixTree.SameShape (p.reclaimFor now).prefixTree := by
  unfold KvBlockPool.reclaimFor
  split_ifs
  · rcases @reclaimSpilledColdest_books p now with heq | ⟨id, -, -, -, -, -, -, htree⟩
    · rw [heq]
      exact .refl _
    · rw [htree]
      exact RadixTree.remove_shape
  · exact .refl _

theorem popFree_prefixTree : p.popFree.1.prefixTree = p.prefixTree := by
  unfold KvBlockPool.popFree
  split <;> rfl

theorem alloc_unlinks {res : Except String ℕ} (hl : p.prefixTree.Linked) {now : ℕ → ℕ}
    {io : Except String Unit} (hempty : p.freeList = []) (hq : p.alloc now io = some (q, res))
    {b : ℕ} (hb : b ∈ (p.prefixTree.evictColdestChain now).2) :
    q.prefixTree.blockToNode b = none := by
  obtain ⟨p₁, hp₁, hpop⟩ := map_eq_some_iff.mp hq
  have htree : p₁.prefixTree = (p.prefixTree.evictColdestChain now).1 := by
    rw [KvBlockPool.evictFor, if_pos hempty] at hp₁
    obtain ⟨⟨r, x⟩, hcold, rfl⟩ := map_eq_some_iff.mp hp₁
    exact (evictCold_books hcold).1
  have hq : q.prefixTree = (p₁.reclaimFor fun k => now (p.prefixTree.size + k)).prefixTree :=
    (congrArg (·.1.prefixTree) hpop).symm.trans popFree_prefixTree
  rw [hq, reclaimFor_shape.blockToNode, htree]
  exact (hl.evictColdestChain now).chain b hb

theorem evictCold_frees {now : ℕ → ℕ} {io : Except String Unit} {x : Bool} {leaf : ℕ}
    {ancestors : List ℕ} (h : p.evictCold now io = some (q, x))
    (hchain : (p.prefixTree.evictColdestChain now).2 = leaf :: ancestors)
    (hleaf : p.blockRefCount leaf = 0) :
    ∀ b ∈ ancestors, b ∈ q.freeList ∧ q.blockRefCount b = 0 := by
  simp only [evictCold, hchain] at h
  split_ifs at h with hheld
  · exact absurd hleaf (Nat.ne_of_gt (show 0 < p.blockRefCount leaf from hheld))
  obtain ⟨r, hr, h⟩ := bind_eq_some_iff.mp h
  obtain ⟨r', hr', heq⟩ := map_eq_some_iff.mp h
  cases heq
  obtain ⟨hfree, -, href, -⟩ := freeAncestors_books hr
  obtain ⟨hfree', -, href', -⟩ := evictLeaf_books hr'
  intro b hb
  constructor
  · rcases hfree' with hf | hf <;> rw [hf, hfree] <;> simp [hb]
  · rw [blockRefCount, href', href]
    by_cases hbl : b = leaf <;> simp [hbl, dropRefs, hb]

theorem alloc_of_free {now : ℕ → ℕ} {io : Except String Unit} (hne : p.freeList ≠ []) :
    p.alloc now io = some p.popFree := by
  rw [KvBlockPool.alloc, KvBlockPool.evictFor, if_neg hne]
  simp only [map_some, KvBlockPool.reclaimFor, if_neg hne]

theorem popFree_of_free {b : ℕ} (hb : b ∈ p.freeList) (hq : p.popFree = (q, .ok id)) :
    b = id ∨ b ∈ q.freeList ∧ q.blockRefCount b = p.blockRefCount b := by
  unfold KvBlockPool.popFree at hq
  split at hq
  · cases hq
  rename_i a rest hfree
  cases hq
  rw [hfree] at hb
  by_cases hbid : b = id
  · exact .inl hbid
  · refine .inr ⟨(mem_cons.mp hb).resolve_left hbid, ?_⟩
    simp [blockRefCount, hbid]

theorem allocTail_of_free {b : ℕ} : ∀ {n k : ℕ} {p : KvBlockPool} {ids : List ℕ},
    b ∈ p.freeList → allocTail env n k p = some (r, ids, .ok ()) →
      b ∈ ids ∨ r.blockRefCount b = p.blockRefCount b
  | 0, _, _, _, _, h => by
    cases h
    exact .inr rfl
  | n + 1, k, p, ids, hb, h => by
    unfold allocTail at h
    rw [alloc_of_free (ne_nil_of_mem hb)] at h
    obtain ⟨⟨q, res⟩, hq, h⟩ := bind_eq_some_iff.mp h
    have hq : p.popFree = (q, res) := Option.some.inj hq
    rcases res with e | id
    · cases h
    · obtain ⟨⟨r', ids', res'⟩, hrest, heq⟩ := map_eq_some_iff.mp h
      cases heq
      rcases popFree_of_free hb hq with rfl | ⟨hbq, hcount⟩
      · exact .inl (.head _)
      · exact (allocTail_of_free hbq hrest).imp (.tail _) fun heq => heq.trans hcount

/-- The blocks got from the `k`-th allocation on are apart from those before, and in use at the
end, with the hit as it was. -/
structure KeptApart (r : KvBlockPool) (tokens : List UInt32) (matched fresh : List ℕ) : Prop where
  nodup : fresh.Nodup
  new : ∀ b ∈ fresh, b ∉ matched
  refs : ∀ b ∈ fresh, 0 < r.blockRefCount b
  hit : (r.matchPrefix tokens).1 = matched

theorem Apart.spares {n : ℕ} {ids : List ℕ} (h : p.Apart tokens matched fresh)
    (hq : p.alloc (env.now k) (env.io k) = some (q, .ok id))
    (htail : allocTail env n (k + 1) q = some (r, ids, .ok ()))
    (hend : r.KeptApart tokens matched (fresh ++ id :: ids)) : p.Spares env k matched fresh := by
  obtain ⟨p₁, hp₁, hpop⟩ := map_eq_some_iff.mp hq
  obtain ⟨hql, hqnone⟩ := alloc_unmapped h.linked hq
  obtain ⟨hrl, hrnone⟩ := allocTail_unmapped hql htail
  constructor
  · intro hempty b hb hm
    have hmapped := hrl.matchPrefix_mapped (hend.hit ▸ hm)
    exact hmapped (hrnone b (alloc_unlinks h.linked hempty hq hb))
  · intro hempty hleaf b hb hfresh
    have hpos := h.refs b hfresh
    have hfree : b ∈ p₁.freeList ∧ p₁.blockRefCount b = 0 := by
      rw [KvBlockPool.evictFor, if_pos hempty] at hp₁
      obtain ⟨⟨p₂, x⟩, hcold, rfl⟩ := map_eq_some_iff.mp hp₁
      rcases hchain : (p.prefixTree.evictColdestChain (env.now k)).2 with - | ⟨leaf, ancestors⟩
      · rw [hchain] at hb
        cases hb
      · rw [hchain] at hb hleaf
        have hzero : p.blockRefCount leaf = 0 := hleaf leaf rfl
        rcases mem_cons.mp hb with rfl | hb
        · omega
        · exact evictCold_frees hcold hchain hzero b hb
    rw [KvBlockPool.reclaimFor, if_neg (ne_nil_of_mem hfree.1)] at hpop
    obtain ⟨-, -, hdisjoint⟩ := nodup_append.mp hend.nodup
    rcases popFree_of_free hfree.1 hpop with rfl | ⟨hbq, hcount⟩
    · exact hdisjoint b hfresh b (.head _) rfl
    · rcases allocTail_of_free hbq htail with hids | hcount'
      · exact hdisjoint b hfresh b (.tail _ hids) rfl
      · have := hend.refs b (mem_append_left _ hfresh)
        omega
  · intro q' hq' hempty b hb hm
    obtain rfl : p₁ = q' := Option.some.inj (hp₁.symm.trans hq')
    have hid : b = id := by
      rw [KvBlockPool.reclaimFor, if_pos hempty, reclaimSpilledColdest, mem_def.mp hb] at hpop
      unfold KvBlockPool.popFree at hpop
      simp only [hempty, nil_append] at hpop
      cases hpop
      rfl
    exact hend.new b (by simp [hid]) hm

/-- Each allocation of the tail spares the matched blocks and those got before it. -/
def TailSpares (env : Env) (matched : List ℕ) : ℕ → ℕ → List ℕ → KvBlockPool → Prop
  | 0, _, _, _ => True
  | n + 1, k, fresh, p => p.Spares env k matched fresh ∧
    ∀ q id, p.alloc (env.now k) (env.io k) = some (q, .ok id) →
      TailSpares env matched n (k + 1) (fresh ++ [id]) q

theorem allocTail_cons {n : ℕ} {ids : List ℕ}
    (h : allocTail env (n + 1) k p = some (r, ids, .ok ())) :
    ∃ q id ids', p.alloc (env.now k) (env.io k) = some (q, .ok id) ∧ ids = id :: ids'
      ∧ allocTail env n (k + 1) q = some (r, ids', .ok ()) := by
  unfold allocTail at h
  obtain ⟨⟨q, id⟩, hq, h⟩ := bind_eq_some_iff.mp h
  rcases id with e | id
  · cases h
  · obtain ⟨⟨r', ids', res⟩, hrest, heq⟩ := map_eq_some_iff.mp h
    cases heq
    exact ⟨q, id, ids', hq, rfl, hrest⟩

theorem Apart.tail : ∀ {n k : ℕ} {p : KvBlockPool} {fresh ids : List ℕ},
    p.Apart tokens matched fresh → allocTail env n k p = some (r, ids, .ok ()) →
    TailSpares env matched n k fresh p → r.Apart tokens matched (fresh ++ ids)
  | 0, _, _, fresh, _, h, htail, _ => by
    cases htail
    rwa [append_nil]
  | n + 1, k, p, fresh, ids, h, htail, hs => by
    obtain ⟨q, id, ids', hq, rfl, hrest⟩ := allocTail_cons htail
    have hr := (h.alloc hs.1 hq).tail hrest (hs.2 q id hq)
    rwa [append_assoc] at hr

theorem Apart.tailSpares : ∀ {n k : ℕ} {p : KvBlockPool} {fresh ids : List ℕ},
    p.Apart tokens matched fresh → allocTail env n k p = some (r, ids, .ok ()) →
    r.KeptApart tokens matched (fresh ++ ids) → TailSpares env matched n k fresh p
  | 0, _, _, _, _, _, _, _ => trivial
  | n + 1, k, p, fresh, ids, h, htail, hend => by
    obtain ⟨q, id, ids', hq, rfl, hrest⟩ := allocTail_cons htail
    have hs := h.spares hq hrest hend
    refine ⟨hs, fun q' id' hq' => ?_⟩
    rw [hq] at hq'
    cases hq'
    refine (h.alloc hs hq).tailSpares hrest ?_
    rwa [append_assoc]

/-- The blocks handed out are distinct and referenced, the first of them are the matched ones, and
none of these was evicted or got for the tail. -/
structure SharesApart (p : KvBlockPool) (env : Env) (tokens : List UInt32) (q : KvBlockPool)
    (blocks : List ℕ) (n : ℕ) : Prop where
  distinct : blocks.Nodup
  referenced : ∀ b ∈ blocks, 0 < q.blockRefCount b
  matched : blocks.take (n / blockSize) = (p.matchPrefix tokens).1
  kept : ∀ r ids, p.allocTail env (p.tailLength tokens) 0 = some (r, ids, .ok ()) →
    (r.matchPrefix tokens).1 = (p.matchPrefix tokens).1
      ∧ ∀ b ∈ (p.matchPrefix tokens).1, b ∉ r.freeList ∧ b ∉ ids

theorem share_ok {blocks : List ℕ} {n : ℕ}
    (h : p.findOrSharePrefixTokens env tokens = some (q, .ok (blocks, n))) :
    ∃ r ids, p.allocTail env (p.tailLength tokens) 0 = some (r, ids, .ok ())
      ∧ blocks = (p.matchPrefix tokens).1 ++ ids ∧ n = (p.matchPrefix tokens).2
      ∧ ∀ b, q.blockRefCount b = r.blockRefCount b + (p.matchPrefix tokens).1.count b := by
  obtain ⟨⟨r, ids, res⟩, htail, h⟩ := bind_eq_some_iff.mp h
  rcases res with e | ⟨⟩
  · cases h
  · obtain ⟨q', hinsert, heq⟩ := map_eq_some_iff.mp h
    cases heq
    refine ⟨r, ids, htail, rfl, rfl, fun b => ?_⟩
    rw [← blockRefCount_foldl_addRef, blockRefCount, blockRefCount,
      (insertPrefix_books hinsert).2.2]

theorem Apart.shares_iff {blocks : List ℕ} {n : ℕ} (hsize : p.prefixTree.blockSize = blockSize)
    (hp : p.Apart tokens (p.matchPrefix tokens).1 [])
    (h : p.findOrSharePrefixTokens env tokens = some (q, .ok (blocks, n))) :
    p.SharesApart env tokens q blocks n
      ↔ TailSpares env (p.matchPrefix tokens).1 (p.tailLength tokens) 0 [] p := by
  obtain ⟨r, ids, htail, rfl, rfl, hcount⟩ := share_ok h
  have htake : (p.matchPrefix tokens).2 / blockSize = (p.matchPrefix tokens).1.length := by
    unfold KvBlockPool.matchPrefix
    rw [p.prefixTree.matchPrefix_snd, hsize, Nat.mul_div_cancel _ (by decide)]
  constructor
  · intro hs
    obtain ⟨hhit, hkept⟩ := hs.kept r ids htail
    obtain ⟨-, hids, hdisjoint⟩ := nodup_append.mp hs.distinct
    refine hp.tailSpares htail ⟨hids, fun b hb hm => hdisjoint b hm b hb rfl, fun b hb => ?_, hhit⟩
    have hpos := hs.referenced b (mem_append_right _ hb)
    have hnot : b ∉ (p.matchPrefix tokens).1 := fun hm => hdisjoint b hm b hb rfl
    rwa [hcount, count_eq_zero_of_not_mem hnot, Nat.add_zero] at hpos
  · intro hs
    have hr : r.Apart tokens (p.matchPrefix tokens).1 ids := hp.tail htail hs
    refine ⟨?_, fun b hb => ?_, ?_, fun r' ids' htail' => ?_⟩
    · refine nodup_append.mpr ⟨hp.linked.matchPrefix_nodup, hr.fresh_nodup, ?_⟩
      rintro a ha b hb rfl
      exact hr.new a hb ha
    · rw [hcount]
      rcases mem_append.mp hb with hb | hb
      · have := count_pos_iff.mpr hb
        omega
      · have := hr.refs b hb
        omega
    · rw [htake, take_left]
    · rw [htail] at htail'
      cases htail'
      exact ⟨hr.hit, fun b hb => ⟨hr.matched_free b hb, fun hids => hr.new b hids hb⟩⟩

end KvBlockPool

end Grim.Memory
