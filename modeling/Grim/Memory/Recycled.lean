import Grim.Memory.Links
import Grim.Memory.Runs

/-!
# A hit never names a recycled page

A page leaves the pool unmapped: an eviction unlinks what it frees, and a release keeps a page the
tree maps.  Only the last resort of `alloc` takes a page without unlinking it: `remove` drops a
reference and leaves the node.
-/

namespace Grim.Memory

open KvTransport List Option
open Function (update update_self update_of_ne)

namespace KvBlockPool

variable {p q : KvBlockPool}

/-- The links of the tree are in order, and no free page is mapped. -/
structure Cached (p : KvBlockPool) : Prop where
  linked : p.prefixTree.Linked
  free : ∀ b ∈ p.freeList, p.prefixTree.blockToNode b = none

theorem Cached.of_shape (h : p.Cached) (hf : q.freeList = p.freeList)
    (hs : p.prefixTree.SameShape q.prefixTree) : q.Cached := by
  refine ⟨hs.linked h.linked, ?_⟩
  rw [hf, hs.blockToNode]
  exact h.free

/-- Where the eviction leaves the free list empty, the spilled page that the last resort takes is
not mapped by the tree. -/
def ReclaimsUnmapped (p : KvBlockPool) (now : ℕ → ℕ) (io : Except String Unit) : Prop :=
  match p.evictFor now io with
  | none => True
  | some q => q.freeList = [] →
    match q.spilledColdest fun k => now (p.prefixTree.size + k) with
    | none => True
    | some id => q.prefixTree.blockToNode id = none

instance (now : ℕ → ℕ) (io : Except String Unit) : Decidable (p.ReclaimsUnmapped now io) := by
  unfold ReclaimsUnmapped
  split
  · infer_instance
  · split <;> infer_instance

theorem Cached.evictFor (h : p.Cached) {now : ℕ → ℕ} {io : Except String Unit}
    (hq : p.evictFor now io = some q) :
    q.Cached ∧ q.prefixTree.size = p.prefixTree.size
      ∧ ∀ b n, q.prefixTree.blockToNode b = some n → p.prefixTree.blockToNode b = some n := by
  unfold KvBlockPool.evictFor at hq
  split_ifs at hq
  · obtain ⟨⟨r, b⟩, hr, rfl⟩ := map_eq_some_iff.mp hq
    obtain ⟨htree, -, hbooks⟩ := evictCold_books hr
    obtain ⟨hl, hsize, hmap, hchain⟩ := h.linked.evictColdestChain now
    rw [← htree] at hl hsize hmap hchain
    have hold : ∀ b ∈ p.freeList, r.prefixTree.blockToNode b = none := by
      intro b hb
      refine eq_none_iff_forall_ne_some.mpr ?_
      intro n hn
      have := hmap b n hn
      rw [h.free b hb] at this
      cases this
    refine ⟨⟨hl, ?_⟩, hsize, hmap⟩
    intro b hb
    rcases hbooks with ⟨hf, -⟩ | ⟨leaf, ancestors, hc, -, -, -, hf⟩
    · exact hold b (hf ▸ hb)
    · rw [hc] at hchain
      have hb : b ∈ p.freeList ∨ b ∈ leaf :: ancestors := by
        rcases hf with hf | hf
        · rw [hf, mem_append] at hb
          exact hb.imp_right (.tail _)
        · rw [hf, mem_append, mem_append, mem_singleton] at hb
          rcases hb with (hb | hb) | rfl
          · exact .inl hb
          · exact .inr (.tail _ hb)
          · exact .inr (.head _)
      exact hb.elim (hold b) (hchain b)
  · cases hq
    exact ⟨h, rfl, fun _ _ hb => hb⟩

theorem Cached.reclaimFor (h : p.Cached) {now : ℕ → ℕ}
    (hok : p.freeList = [] → ∀ id, p.spilledColdest now = some id →
      p.prefixTree.blockToNode id = none) :
    (p.reclaimFor now).Cached ∧ p.prefixTree.SameShape (p.reclaimFor now).prefixTree := by
  unfold KvBlockPool.reclaimFor
  split_ifs with hempty
  · rcases @reclaimSpilledColdest_books p now with
      heq | ⟨id, hid, -, -, hf, -, -, ht⟩
    · rw [heq]
      exact ⟨h, .refl _⟩
    · have hs : p.prefixTree.SameShape (p.reclaimSpilledColdest now).1.prefixTree := by
        rw [ht]
        exact RadixTree.remove_shape
      refine ⟨⟨hs.linked h.linked, ?_⟩, hs⟩
      intro b hb
      rw [hf, mem_append, mem_singleton] at hb
      rw [hs.blockToNode]
      rcases hb with hb | rfl
      · exact h.free b hb
      · exact hok hempty b hid
  · exact ⟨h, .refl _⟩

theorem Cached.popFree (h : p.Cached) :
    p.popFree.1.Cached ∧ p.popFree.1.prefixTree = p.prefixTree
      ∧ ∀ id, p.popFree.2 = .ok id → p.prefixTree.blockToNode id = none := by
  unfold KvBlockPool.popFree
  split
  · refine ⟨h, rfl, ?_⟩
    rintro id ⟨⟩
  · rename_i a rest hfree
    have hmem : ∀ b ∈ a :: rest, p.prefixTree.blockToNode b = none := hfree ▸ h.free
    refine ⟨⟨h.linked, fun b hb => hmem b (.tail _ hb)⟩, rfl, ?_⟩
    rintro id ⟨⟩
    exact hmem a (.head _)

theorem Cached.alloc (h : p.Cached) {now : ℕ → ℕ} {io : Except String Unit}
    {res : Except String ℕ} (hok : p.ReclaimsUnmapped now io)
    (hq : p.alloc now io = some (q, res)) :
    q.Cached ∧ (∀ b n, q.prefixTree.blockToNode b = some n → p.prefixTree.blockToNode b = some n)
      ∧ ∀ id, res = .ok id → q.prefixTree.blockToNode id = none := by
  obtain ⟨r, hr, hq⟩ := map_eq_some_iff.mp hq
  unfold ReclaimsUnmapped at hok
  rw [hr] at hok
  obtain ⟨hrc, -, hrm⟩ := h.evictFor hr
  have hrecl : r.freeList = [] → ∀ id,
      (r.spilledColdest fun k => now (p.prefixTree.size + k)) = some id →
      r.prefixTree.blockToNode id = none := by
    intro hempty id hid
    have := hok hempty
    rw [hid] at this
    exact this
  obtain ⟨hsc, hss⟩ := hrc.reclaimFor hrecl
  obtain ⟨hpc, hpt, hpn⟩ := hsc.popFree
  rw [hq] at hpc hpt hpn
  refine ⟨hpc, ?_, ?_⟩
  · intro b n hb
    rw [hpt, hss.blockToNode] at hb
    exact hrm b n hb
  · intro id hid
    rw [hpt]
    exact hpn id hid

theorem Cached.release (h : p.Cached) {id : ℕ} {io : Except String Unit}
    (hq : p.release id io = some q) : q.Cached ∧ q.prefixTree = p.prefixTree := by
  obtain ⟨-, -, ht, hf⟩ := release_books hq
  refine ⟨⟨ht ▸ h.linked, ?_⟩, ht⟩
  rw [ht]
  rcases hf with hf | ⟨hf, -, hmap, -⟩
  · rw [hf]
    exact h.free
  · intro b hb
    rw [hf, mem_append, mem_singleton] at hb
    rcases hb with hb | rfl
    · exact h.free b hb
    · simpa [RadixTree.containsBlock] using hmap

theorem Cached.freeWithTier (h : p.Cached) {id : ℕ} {forceTier : Bool} {io : Except String Unit}
    (hq : p.freeWithTier id forceTier io = some q) :
    q.Cached ∧ q.prefixTree = p.prefixTree := by
  unfold KvBlockPool.freeWithTier at hq
  split at hq
  · split_ifs at hq
    · exact h.release hq
    · cases hq
      exact ⟨h, rfl⟩
  · rename_i cnt hcnt
    split_ifs at hq
    · cases hq
      exact ⟨⟨h.linked, h.free⟩, rfl⟩
    · have hc : { p with refCounts := update p.refCounts id (oneLess cnt) }.Cached :=
        ⟨h.linked, h.free⟩
      exact hc.release hq

/-- The blocks that a registration gives new nodes are distinct and neither mapped already nor
free. -/
def RegistersNew (p : KvBlockPool) (tokens : List UInt32) (blocks : List ℕ) : Prop :=
  let new := p.prefixTree.unregistered tokens blocks p.prefixTree.root 0
  new.Nodup ∧ ∀ b ∈ new, p.prefixTree.blockToNode b = none ∧ b ∉ p.freeList

instance (tokens : List UInt32) (blocks : List ℕ) : Decidable (p.RegistersNew tokens blocks) := by
  unfold RegistersNew
  infer_instance

theorem Cached.insertPrefix (h : p.Cached) {tokens : List UInt32} {blocks : List ℕ} {now : ℕ → ℕ}
    (hok : p.RegistersNew tokens blocks) (hq : p.insertPrefix tokens blocks now = some q) :
    q.Cached ∧ p.prefixTree.size ≤ q.prefixTree.size
      ∧ ∀ b n, q.prefixTree.blockToNode b = some n →
        p.prefixTree.blockToNode b = some n ∨ p.prefixTree.size ≤ n := by
  obtain ⟨t, ht, rfl⟩ := map_eq_some_iff.mp hq
  obtain ⟨hnodup, hnew⟩ := hok
  obtain ⟨hl, hsize, hmap⟩ := h.linked.insert hnodup (fun b hb => (hnew b hb).1) ht
  have hs : t.SameShape (t.touch tokens fun k => now (blocks.length + k)) :=
    RadixTree.touchNodes_shape
  refine ⟨⟨hs.linked hl, ?_⟩, ?_, ?_⟩
  · intro b hb
    rw [hs.blockToNode]
    refine eq_none_iff_forall_ne_some.mpr ?_
    intro n hn
    rcases hmap b n hn with hold | ⟨hmem, -⟩
    · have := h.free b hb
      rw [hold] at this
      cases this
    · exact (hnew b hmem).2 hb
  · rw [hs.size]
    exact hsize
  · intro b n hb
    rw [hs.blockToNode] at hb
    exact (hmap b n hb).imp_right And.right

end KvBlockPool

namespace History

variable {h h' : History} {call : Call}

def CacheCall (h : History) (call : Call) : Prop :=
  h.Contract call ∧ match call with
    | .resizeCapacity _ => False
    | _ => True

instance : Decidable (h.CacheCall call) :=
  match call with
  | .resizeCapacity .. => inferInstanceAs (Decidable (_ ∧ False))
  | .alloc .. | .addRef .. | .free .. | .insertPrefix .. | .removePrefix .. | .pinBlocks ..
  | .demoteColdPrefix .. | .promoteToGpu .. | .matchPrefixPromoting .. =>
    inferInstanceAs (Decidable (_ ∧ True))

/-- The last resort takes no mapped page, and a registration gives new nodes to new pages only. -/
def Unmaps (h : History) (call : Call) : Prop :=
  h.CacheCall call ∧ match call with
    | .alloc now io => h.pool.ReclaimsUnmapped now io
    | .insertPrefix tokens blocks _ => h.pool.RegistersNew tokens blocks
    | _ => True

instance : Decidable (h.Unmaps call) :=
  match call with
  | .alloc now io => inferInstanceAs (Decidable (_ ∧ h.pool.ReclaimsUnmapped now io))
  | .insertPrefix tokens blocks _ =>
    inferInstanceAs (Decidable (_ ∧ h.pool.RegistersNew tokens blocks))
  | .addRef .. | .free .. | .removePrefix .. | .pinBlocks .. | .demoteColdPrefix ..
  | .promoteToGpu .. | .matchPrefixPromoting .. | .resizeCapacity .. =>
    inferInstanceAs (Decidable (_ ∧ True))

/-- `blocks` are the pages of the nodes matched for `tokens`, none of them free, and none handed
out by `alloc` since its node was registered. -/
def FreshHit (h : History) (tokens : List UInt32) (blocks : List ℕ) : Prop :=
  List.Forall₂ (fun n b => b = (h.pool.prefixTree.nodes n).blockId ∧ b ∉ h.pool.freeList
    ∧ h.lastAlloc b < h.registered n) (h.pool.prefixTree.matched tokens) blocks

def FreshHits (h : History) : Prop :=
  ∀ tokens, h.FreshHit tokens (h.pool.matchPrefix tokens).1
    ∧ ∀ p blocks n promoted, h.pool.matchPrefixPromoting tokens = some (p, blocks, n, promoted) →
      h.FreshHit tokens blocks ∧ p.freeList = h.pool.freeList

structure Current (h : History) : Prop where
  cached : h.pool.Cached
  since : ∀ b n, h.pool.prefixTree.blockToNode b = some n → h.lastAlloc b < h.registered n
  calls : ∀ b, h.lastAlloc b ≤ h.calls

theorem Current.next (hc : h.Current) {p : KvBlockPool} (hp : p.Cached)
    (hmap : ∀ b n, p.prefixTree.blockToNode b = some n →
      h.pool.prefixTree.blockToNode b = some n) : (h.next p).Current := by
  refine ⟨hp, fun b n hb => hc.since b n (hmap b n hb), ?_⟩
  intro b
  have := hc.calls b
  show h.lastAlloc b ≤ h.calls + 1
  omega

theorem Current.alloc (hc : h.Current) {now : ℕ → ℕ} {io : Except String Unit}
    (hok : h.pool.ReclaimsUnmapped now io) (hs : h.step (.alloc now io) = some h') :
    h'.Current := by
  obtain ⟨⟨p, res⟩, hp, rfl⟩ := map_eq_some_iff.mp hs
  obtain ⟨hpc, hmap, hid⟩ := hc.cached.alloc hok hp
  cases res with
  | error e => exact hc.next hpc hmap
  | ok id =>
    refine ⟨hpc, ?_, ?_⟩
    · intro b n hb
      have hbn : p.prefixTree.blockToNode b = some n := hb
      have hne : b ≠ id := by
        rintro rfl
        have hnone := hid b rfl
        rw [hbn] at hnone
        cases hnone
      show update h.lastAlloc id (h.calls + 1) b < h.registered n
      rw [update_of_ne hne]
      exact hc.since b n (hmap b n hbn)
    · intro b
      show update h.lastAlloc id (h.calls + 1) b ≤ h.calls + 1
      by_cases hb : b = id
      · rw [hb, update_self]
      · have := hc.calls b
        rw [update_of_ne hb]
        omega

theorem Current.insertPrefix (hc : h.Current) {tokens : List UInt32} {blocks : List ℕ}
    {now : ℕ → ℕ} (hok : h.pool.RegistersNew tokens blocks)
    (hs : h.step (.insertPrefix tokens blocks now) = some h') : h'.Current := by
  obtain ⟨p, hp, rfl⟩ := map_eq_some_iff.mp hs
  obtain ⟨hpc, hsize, hmap⟩ := hc.cached.insertPrefix hok hp
  refine ⟨hpc, ?_, ?_⟩
  · intro b n hb
    show h.lastAlloc b < if n < h.pool.prefixTree.size then h.registered n else h.calls + 1
    have hcalls := hc.calls b
    rcases hmap b n hb with hold | hnew
    · rw [if_pos (hc.cached.linked.mapped b n hold).2.2.1]
      exact hc.since b n hold
    · rw [if_neg (by omega)]
      omega
  · intro b
    have := hc.calls b
    show h.lastAlloc b ≤ h.calls + 1
    omega

theorem Current.step (hc : h.Current) (hok : h.Unmaps call) (hs : h.step call = some h') :
    h'.Current := by
  obtain ⟨⟨-, hcall⟩, hok⟩ := hok
  have shape : ∀ {p : KvBlockPool}, p.freeList = h.pool.freeList →
      h.pool.prefixTree.SameShape p.prefixTree → (h.next p).Current :=
    fun hf hp => hc.next (hc.cached.of_shape hf hp) fun b n hb => hp.blockToNode ▸ hb
  cases call with
  | alloc now io => exact hc.alloc hok hs
  | addRef tokens id =>
    cases hs
    have hn : (h.next (h.pool.addRef id)).Current := shape rfl (.refl _)
    exact ⟨hn.cached, hn.since, hn.calls⟩
  | free id forceTier io =>
    obtain ⟨p, hp, rfl⟩ := map_eq_some_iff.mp hs
    obtain ⟨hpc, ht⟩ := hc.cached.freeWithTier hp
    have hn := hc.next hpc fun b n hb => ht ▸ hb
    exact ⟨hn.cached, hn.since, hn.calls⟩
  | insertPrefix tokens blocks now => exact hc.insertPrefix hok hs
  | removePrefix | pinBlocks | demoteColdPrefix | promoteToGpu | matchPrefixPromoting =>
    obtain ⟨p, rfl, hp, hshape⟩ := step_steady hs trivial
    exact shape hp.1 hshape
  | resizeCapacity newCapacity => exact hcall.elim

theorem current_new (c : Setup) : (new c).Current where
  cached := ⟨RadixTree.linked_new _ _, fun _ _ => rfl⟩
  since _ _ hb := by cases hb
  calls _ := le_refl 0

theorem Current.freshHit (hc : h.Current) (tokens : List UInt32) :
    h.FreshHit tokens (h.pool.matchPrefix tokens).1 := by
  show List.Forall₂ _ (h.pool.prefixTree.matched tokens)
    ((h.pool.prefixTree.matched tokens).map fun idx => (h.pool.prefixTree.nodes idx).blockId)
  rw [List.forall₂_map_right_iff, List.forall₂_same]
  intro n hn
  have hm : h.pool.prefixTree.blockToNode (h.pool.prefixTree.nodes n).blockId = some n :=
    hc.cached.linked.matched_mapped n hn
  refine ⟨rfl, ?_, hc.since _ n hm⟩
  intro hfree
  rw [hc.cached.free _ hfree] at hm
  cases hm

/-- No lookup returns a free page, or one handed out again since it was registered. -/
theorem hit_not_recycled (c : Setup) (h : History)
    (hr : Steps.Reach step Unmaps (new c) h) : h.FreshHits := by
  have hc : h.Current := hr.invariant (current_new c) fun _ _ _ hc hok hs => hc.step hok hs
  intro tokens
  refine ⟨hc.freshHit tokens, ?_⟩
  intro p blocks n promoted hp
  obtain ⟨⟨hf, -⟩, -, hblocks⟩ := KvBlockPool.matchPrefixPromoting_books hp
  rw [hblocks]
  exact ⟨hc.freshHit tokens, hf⟩

/-- The cached page is demoted and evicted, and then reclaimed. -/
theorem hit_not_recycled_reclaimed :
    ∃ h, Steps.Reach step Unmaps (new (.tiny 1 (some (.new 16)))) h
      ∧ h.lastAlloc 0 = 5 ∧ h.FreshHits := by
  obtain ⟨h, hrun⟩ : ∃ h, Steps.exec step Unmaps (new (.tiny 1 (some (.new 16))))
      [.alloc id (.ok ()), .insertPrefix (List.replicate 16 7) [0] id, .removePrefix [0],
        .free 0 false (.ok ()), .alloc id (.ok ())] = some h := ⟨_, rfl⟩
  have hr := Steps.reach_of_exec hrun
  refine ⟨h, hr, ?_, hit_not_recycled _ h hr⟩
  obtain rfl := Option.some.inj hrun
  rfl

/-- The last resort hands out a page that the tree, which still counts a reference to its node,
goes on matching. -/
theorem reclaimed_page_matched : ¬ ∀ (c : Setup) (h : History),
    Steps.Reach step CacheCall (new c) h → h.FreshHits := by
  intro hall
  obtain ⟨h, hrun⟩ : ∃ h, Steps.exec step CacheCall (new (.tiny 1 (some (.new 16))))
      [.alloc id (.ok ()), .insertPrefix (List.replicate 16 7) [0] id, .free 0 false (.ok ()),
        .alloc id (.ok ())] = some h := ⟨_, rfl⟩
  have hit := (hall _ h (Steps.reach_of_exec hrun) (List.replicate 16 7)).1
  obtain rfl := Option.some.inj hrun
  have hmatched : List.Forall₂ _ [1] [0] := hit
  have hlt : (4 : ℕ) < 2 := (List.forall₂_cons.mp hmatched).1.2.2
  omega

end History

end Grim.Memory
