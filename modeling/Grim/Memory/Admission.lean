import Grim.Memory.Idle
import Grim.Memory.InUse

/-!
# What admission counts on

`allocatable_blocks` adds the free pages, the cold nodes of the tree and the spilled pages.  The
sum is right where each page is counted once and an eviction gets at every cold node
(`CountedOnce`).  A spilled page may be mapped: its reclaim leaves a cold node that yields nothing,
and for each of these a spilled page is in store.
-/

namespace Grim.Memory

open KvTransport List Option
open Function (update update_self update_of_ne)

namespace KvBlockPool

variable {p q : KvBlockPool} {now₀ : ℕ} {now : ℕ → ℕ}

/-- The unreferenced pages off the GPU that no pin holds at `now₀`. -/
def spilledPages (p : KvBlockPool) (now₀ : ℕ) : Finset ℕ :=
  (Finset.range p.numBlocks).filter fun id =>
    (p.blocks id).location ≠ .gpu ∧ p.refCounts id = none ∧ p.prefixTree.isPinned id now₀ = false

/-- The idle nodes whose eviction yields a page: in range, in use by nobody, and neither free nor
spilled. -/
def yielding (p : KvBlockPool) (now₀ : ℕ) : Finset ℕ :=
  (p.prefixTree.idle now₀).filter fun n => (p.prefixTree.nodes n).blockId < p.numBlocks
    ∧ p.blockRefCount (p.prefixTree.nodes n).blockId = 0
    ∧ (p.prefixTree.nodes n).blockId ∉ p.freeList
    ∧ (p.prefixTree.nodes n).blockId ∉ p.spilledPages now₀

/-- The mapped nodes that are counted themselves, or whose pages are as spilled ones. -/
def countedNodes (p : KvBlockPool) (now₀ : ℕ) : Finset ℕ :=
  (Finset.range p.prefixTree.size).filter fun n => p.prefixTree.Mapped n
    ∧ (n ∈ p.prefixTree.idle now₀ ∨ (p.prefixTree.nodes n).blockId ∈ p.spilledPages now₀)

/-- No page is counted twice, and the evictions reach what is counted: below an idle node are idle
nodes only, and the nodes above those counted are mapped. -/
structure CountedOnce (p : KvBlockPool) (now₀ : ℕ) : Prop where
  free : ∀ id ∈ p.freeList, id ∉ p.spilledPages now₀
  cold : p.prefixTree.idle now₀ ⊆ p.yielding now₀
  below : ∀ n ∈ p.prefixTree.idle now₀, ∀ kc ∈ (p.prefixTree.nodes n).children,
    kc.2 ∈ p.prefixTree.idle now₀
  above : ∀ n ∈ p.countedNodes now₀, ∀ a ∈ p.prefixTree.ancestors n,
    p.prefixTree.Mapped a ∧ (p.prefixTree.nodes a).blockId < p.numBlocks

/-- The calls of `alloc`, each with its clock and the outcome of its file write, all succeed. -/
def allocAll : List ((ℕ → ℕ) × Except String Unit) → KvBlockPool → Bool
  | [], _ => true
  | (now, io) :: calls, p =>
    match p.alloc now io with
    | some (p, .ok _) => allocAll calls p
    | _ => false

/-- As many allocations as `allocatable_blocks` says succeed, one after the other, as long as no
pin expires. -/
def AllocatesCounted (p : KvBlockPool) (now : ℕ → ℕ) : Prop :=
  p.prefixTree.PinsLast (now 0) now → ∀ calls : List ((ℕ → ℕ) × Except String Unit),
    (∀ call ∈ calls, p.prefixTree.PinsLast (now 0) call.1) →
    calls.length = (p.allocatableBlocks now).2 → allocAll calls (p.allocatableBlocks now).1

def strays (p : KvBlockPool) : Finset ℕ :=
  (Finset.range p.numBlocks).filter fun id =>
    (p.blocks id).location ≠ .gpu ∧ p.refCounts id = none
      ∧ p.prefixTree.containsBlock id = false ∧ id ∉ p.freeList

def unlisted (p : KvBlockPool) (now₀ : ℕ) : Finset ℕ :=
  (p.spilledPages now₀).filter (· ∉ p.freeList)

def supply (p : KvBlockPool) (now₀ : ℕ) : ℕ :=
  p.freeList.length + (p.yielding now₀).card + (p.unlisted now₀).card

/-- What an allocation needs of the nodes it gets at, and keeps: of the idle nodes that yield
nothing, as left by the reclaims, the pages are in use, and each has a stray page to make up for
it. -/
structure Drawable (p : KvBlockPool) (now₀ : ℕ) : Prop where
  below : ∀ n ∈ p.yielding now₀, ∀ kc ∈ (p.prefixTree.nodes n).children, kc.2 ∈ p.yielding now₀
  above : ∀ n ∈ p.countedNodes now₀, ∀ a ∈ p.prefixTree.ancestors n,
    p.prefixTree.Mapped a ∧ (p.prefixTree.nodes a).blockId < p.numBlocks
  spent : ∀ n ∈ p.prefixTree.idle now₀, n ∉ p.yielding now₀ →
    0 < p.blockRefCount (p.prefixTree.nodes n).blockId
  few : (p.yielding now₀).Nonempty →
    (p.prefixTree.idle now₀ \ p.yielding now₀).card ≤ p.strays.card

def Spare (p : KvBlockPool) (now₀ : ℕ) : Prop :=
  (p.yielding now₀).Nonempty →
    (p.prefixTree.idle now₀ \ p.yielding now₀).card < p.strays.card

theorem mem_yielding {n : ℕ} : n ∈ p.yielding now₀ ↔ n ∈ p.prefixTree.idle now₀
    ∧ (p.prefixTree.nodes n).blockId < p.numBlocks
    ∧ p.blockRefCount (p.prefixTree.nodes n).blockId = 0
    ∧ (p.prefixTree.nodes n).blockId ∉ p.freeList
    ∧ (p.prefixTree.nodes n).blockId ∉ p.spilledPages now₀ := by
  rw [yielding, Finset.mem_filter]

theorem mem_countedNodes {n : ℕ} : n ∈ p.countedNodes now₀ ↔ n < p.prefixTree.size
    ∧ p.prefixTree.Mapped n
    ∧ (n ∈ p.prefixTree.idle now₀ ∨ (p.prefixTree.nodes n).blockId ∈ p.spilledPages now₀) := by
  rw [countedNodes, Finset.mem_filter, Finset.mem_range]

theorem mem_unlisted {id : ℕ} :
    id ∈ p.unlisted now₀ ↔ id ∈ p.spilledPages now₀ ∧ id ∉ p.freeList := by
  rw [unlisted, Finset.mem_filter]

theorem mem_strays {id : ℕ} : id ∈ p.strays ↔ id < p.numBlocks ∧ (p.blocks id).location ≠ .gpu
    ∧ p.refCounts id = none ∧ p.prefixTree.containsBlock id = false ∧ id ∉ p.freeList := by
  rw [strays, Finset.mem_filter, Finset.mem_range]

theorem mem_spilledPages {id : ℕ} : id ∈ p.spilledPages now₀ ↔ id < p.numBlocks
    ∧ (p.blocks id).location ≠ .gpu ∧ p.refCounts id = none
    ∧ p.prefixTree.isPinned id now₀ = false := by
  rw [spilledPages, Finset.mem_filter, Finset.mem_range]

theorem isPinned_unmapped {id : ℕ} (h : p.prefixTree.containsBlock id = false) :
    p.prefixTree.isPinned id now₀ = false := by
  unfold RadixTree.containsBlock at h
  unfold RadixTree.isPinned
  rw [isSome_eq_false_iff, isNone_iff_eq_none] at h
  rw [h]
  rfl

theorem freeAncestors_some {chain : List ℕ} : ∀ {p : KvBlockPool}, (∀ b ∈ chain, b < p.numBlocks) →
    ∃ q, freeAncestors chain p = some q ∧ ∀ b, (q.blocks b).location = (p.blocks b).location := by
  induction chain with
  | nil => exact fun {p} _ => ⟨p, rfl, fun _ => rfl⟩
  | cons a chain ih =>
    intro p hlt
    obtain ⟨q, hq, hloc⟩ := ih (p := { (p.recycle a).countDemoted with
      refCounts := update p.refCounts a none }) fun b hb => hlt b (mem_cons_of_mem _ hb)
    refine ⟨q, ?_, fun b => ?_⟩
    · unfold freeAncestors
      rwa [if_neg (Nat.not_le.mpr (hlt a mem_cons_self))]
    · rw [hloc b]
      by_cases hb : b = a <;> simp [countDemoted, recycle, modify, KvBlock.zeroed, update, hb]

theorem evictLeaf_some {id : ℕ} (io : Except String Unit) (hlt : id < p.numBlocks) :
    ∃ q, p.evictLeaf id io = some q
      ∧ (∀ b, b ≠ id → (q.blocks b).location = (p.blocks b).location)
      ∧ (q.freeList = p.freeList ++ [id]
        ∨ q.freeList = p.freeList ∧ (q.blocks id).location ≠ .gpu) := by
  unfold evictLeaf
  rw [if_neg (Nat.not_le.mpr hlt)]
  rcases hs : p.spill with - | s
  · exact ⟨_, rfl, fun b hb => congrArg _ (update_of_ne hb ..), .inl rfl⟩
  · rcases hd : p.demoteEvicted s id io with ⟨s', - | -⟩
    · simp only [hd]
      exact ⟨_, rfl, fun b hb => congrArg _ (update_of_ne hb ..), .inl rfl⟩
    · simp only [hd]
      refine ⟨_, rfl, fun b hb => congrArg _ (update_of_ne hb ..), .inr ⟨rfl, ?_⟩⟩
      simp [markDemoted, countDemoted, modify]

theorem evictCold_some {leaf : ℕ} {ancestors : List ℕ} (io : Except String Unit)
    (hchain : (p.prefixTree.evictColdestChain now).2 = leaf :: ancestors)
    (href : p.blockRefCount leaf = 0) (hlt : ∀ b ∈ leaf :: ancestors, b < p.numBlocks) :
    ∃ q, p.evictCold now io = some (q, true)
      ∧ q.prefixTree = (p.prefixTree.evictColdestChain now).1 ∧ q.numBlocks = p.numBlocks
      ∧ q.refCounts = dropRefs (leaf :: ancestors) p.refCounts
      ∧ (∀ b, b ≠ leaf → (q.blocks b).location = (p.blocks b).location)
      ∧ (q.freeList = p.freeList ++ ancestors ++ [leaf]
        ∨ q.freeList = p.freeList ++ ancestors ∧ (q.blocks leaf).location ≠ .gpu) := by
  obtain ⟨r, hr, hloc⟩ := freeAncestors_some
    (p := { p with prefixTree := (p.prefixTree.evictColdestChain now).1 })
    fun b hb => hlt b (mem_cons_of_mem _ hb)
  obtain ⟨h1, h2, h3, h4, -, -⟩ := freeAncestors_books hr
  obtain ⟨q, hq, hloc', hfree⟩ := evictLeaf_some io
    (show leaf < r.numBlocks from h2 ▸ hlt leaf mem_cons_self)
  obtain ⟨-, h5, h6, h7, -⟩ := evictLeaf_books hq
  refine ⟨q, ?_, h7.trans h4, h5.trans h2, ?_, fun b hb => (hloc' b hb).trans (hloc b), ?_⟩
  · simp only [evictCold, hchain]
    have hzero : ¬ 0 < ({ p with prefixTree := (p.prefixTree.evictColdestChain now).1 } :
        KvBlockPool).blockRefCount leaf := by
      show ¬ 0 < p.blockRefCount leaf
      omega
    rw [if_neg hzero, hr, bind_some, hq, map_some]
  · rw [h6, h3]
    funext b
    by_cases hb : b = leaf <;> simp [dropRefs, update, hb]
  · rw [h1] at hfree
    exact hfree

/-- `q` is `p`, which has no free page, after the eviction of the mapped chain of `leaf`; of the
pages off the chain nothing changes, and none becomes free. -/
structure Evicts (p q : KvBlockPool) (now : ℕ → ℕ) (leaf : ℕ) : Prop where
  parented : p.prefixTree.Parented
  coldest : p.prefixTree.coldest now = some leaf
  mapped : ∀ n ∈ leaf :: p.prefixTree.soleAncestors leaf, p.prefixTree.Mapped n
  tree : q.prefixTree = (p.prefixTree.evictColdestChain now).1
  numBlocks : q.numBlocks = p.numBlocks
  free : p.freeList = []
  same : ∀ b ∉ (p.prefixTree.evictColdestChain now).2, q.refCounts b = p.refCounts b
    ∧ (q.blocks b).location = (p.blocks b).location ∧ b ∉ q.freeList

namespace Evicts

variable {leaf : ℕ} (he : Evicts p q now leaf)

include he

theorem pruned : RadixTree.Pruned p.prefixTree q.prefixTree :=
  he.tree ▸ RadixTree.evictColdestChain_pruned p.prefixTree now

theorem parented' : q.prefixTree.Parented := he.tree ▸ (he.parented.evict he.coldest).1

theorem idle {n : ℕ} : n ∈ q.prefixTree.idle now₀ ↔
    n ∈ p.prefixTree.idle now₀ ∧ n ∉ leaf :: p.prefixTree.soleAncestors leaf := by
  rw [he.tree]
  exact RadixTree.evict_idle he.parented he.coldest he.mapped n

theorem attached {n : ℕ} (hn : q.prefixTree.Attached n) :
    n ∉ leaf :: p.prefixTree.soleAncestors leaf := by
  rw [he.tree] at hn
  exact (((he.parented.evict he.coldest).2.1 n).mp hn).2

theorem mem_chain {b : ℕ} : b ∈ (p.prefixTree.evictColdestChain now).2 ↔
    ∃ n ∈ leaf :: p.prefixTree.soleAncestors leaf, (p.prefixTree.nodes n).blockId = b := by
  rw [(he.parented.evict he.coldest).2.2, List.mem_map]

theorem chain_node {n : ℕ} (hm : p.prefixTree.Mapped n)
    (hn : (p.prefixTree.nodes n).blockId ∈ (p.prefixTree.evictColdestChain now).2) :
    n ∈ leaf :: p.prefixTree.soleAncestors leaf := by
  obtain ⟨m, hin, heq⟩ := he.mem_chain.mp hn
  exact (he.mapped m hin).inj hm heq ▸ hin

theorem chain_contains {b : ℕ} (hb : b ∈ (p.prefixTree.evictColdestChain now).2) :
    p.prefixTree.containsBlock b := by
  obtain ⟨n, hn, rfl⟩ := he.mem_chain.mp hb
  exact isSome_of_eq_some (he.mapped n hn)

theorem contains (now₀ : ℕ) {b : ℕ} (hb : q.prefixTree.containsBlock b) :
    b ∉ (p.prefixTree.evictColdestChain now).2 ∧ p.prefixTree.containsBlock b
      ∧ q.prefixTree.isPinned b now₀ = p.prefixTree.isPinned b now₀ := by
  rw [he.tree] at hb ⊢
  exact RadixTree.evict_contains he.parented he.coldest he.mapped now₀ hb

theorem leaf_chain :
    (p.prefixTree.nodes leaf).blockId ∈ (p.prefixTree.evictColdestChain now).2 :=
  he.mem_chain.mpr ⟨leaf, mem_cons_self, rfl⟩

theorem chain_unmapped {b : ℕ} (hb : b ∈ (p.prefixTree.evictColdestChain now).2) :
    q.prefixTree.containsBlock b = false :=
  Bool.eq_false_iff.mpr fun hc => (he.contains 0 hc).1 hb

theorem isPinned {b : ℕ} (hb : b ∉ (p.prefixTree.evictColdestChain now).2) :
    q.prefixTree.isPinned b now₀ = p.prefixTree.isPinned b now₀ := by
  cases hq : q.prefixTree.containsBlock b with
  | true => exact (he.contains now₀ hq).2.2
  | false =>
    have hp : p.prefixTree.containsBlock b = false := by
      by_contra hc
      rw [Bool.not_eq_false] at hc
      rcases @RadixTree.evictColdestChain_containsBlock _ now _ hc with hkept | hchain
      · rw [← he.tree, hq] at hkept
        cases hkept
      · exact hb hchain
    rw [isPinned_unmapped hq, isPinned_unmapped hp]

theorem spilledPages {b : ℕ} (hb : b ∉ (p.prefixTree.evictColdestChain now).2) :
    b ∈ q.spilledPages now₀ ↔ b ∈ p.spilledPages now₀ := by
  obtain ⟨hrefs, hloc, -⟩ := he.same b hb
  rw [mem_spilledPages, mem_spilledPages, he.numBlocks, hrefs, hloc, he.isPinned hb]

theorem page_off {n : ℕ} (hm : p.prefixTree.Mapped n)
    (hn : n ∉ leaf :: p.prefixTree.soleAncestors leaf) :
    (p.prefixTree.nodes n).blockId ∉ (p.prefixTree.evictColdestChain now).2 :=
  fun hin => hn (he.chain_node hm hin)

theorem yielding {n : ℕ} : n ∈ q.yielding now₀ ↔
    n ∈ p.yielding now₀ ∧ n ∉ leaf :: p.prefixTree.soleAncestors leaf := by
  rw [mem_yielding, mem_yielding, he.idle, he.pruned.blockId]
  by_cases hidle : n ∈ p.prefixTree.idle now₀ ∧ n ∉ leaf :: p.prefixTree.soleAncestors leaf
  · have hoff := he.page_off (RadixTree.mem_idle.mp hidle.1).2.2.1 hidle.2
    obtain ⟨hrefs, -, hfree⟩ := he.same _ hoff
    rw [he.numBlocks, blockRefCount, blockRefCount, hrefs, he.spilledPages hoff, he.free]
    simp [hidle, hfree]
  · tauto

theorem strays : p.strays ⊆ q.strays := by
  intro id hid
  obtain ⟨h1, h2, h3, h4, -⟩ := mem_strays.mp hid
  have hoff : id ∉ (p.prefixTree.evictColdestChain now).2 := by
    intro hin
    rw [he.chain_contains hin] at h4
    cases h4
  obtain ⟨hrefs, hloc, hfree⟩ := he.same id hoff
  have hunmapped : q.prefixTree.containsBlock id = false := by
    refine Bool.eq_false_iff.mpr fun hc => ?_
    have hwas := (he.contains 0 hc).2.1
    rw [hwas] at h4
    cases h4
  exact mem_strays.mpr ⟨he.numBlocks ▸ h1, hloc ▸ h2, hrefs ▸ h3, hunmapped, hfree⟩

theorem idle_sdiff (now₀ : ℕ) : q.prefixTree.idle now₀ \ q.yielding now₀
    ⊆ (p.prefixTree.idle now₀ \ p.yielding now₀).filter
      (· ∉ leaf :: p.prefixTree.soleAncestors leaf) := by
  intro n hn
  obtain ⟨hidle, hnot⟩ := Finset.mem_sdiff.mp hn
  obtain ⟨hidle, hoff⟩ := he.idle.mp hidle
  rw [he.yielding, not_and_not_right] at hnot
  exact Finset.mem_filter.mpr
    ⟨Finset.mem_sdiff.mpr ⟨hidle, fun hy => hoff (hnot hy)⟩, hoff⟩

theorem drawable (hd : p.Drawable now₀) : q.Drawable now₀ := by
  constructor
  · intro n hn kc hkc
    have hoff := he.attached ⟨n, kc.1, hkc⟩
    obtain ⟨children, hsub, heq⟩ := he.pruned.nodes n
    rw [heq] at hkc
    exact he.yielding.mpr ⟨hd.below n (he.yielding.mp hn).1 kc (hsub hkc), hoff⟩
  · intro n hn a ha
    obtain ⟨hlt, hmapped, hcounted⟩ := mem_countedNodes.mp hn
    have hattached := (he.parented'.mapped _ _ hmapped).2
    have hout := he.attached (he.parented'.ancestors_attached hattached a ha)
    rw [RadixTree.ancestors, he.pruned.ancestorsFrom] at ha
    have hwas : n ∈ p.countedNodes now₀ := by
      refine mem_countedNodes.mpr ⟨he.pruned.size ▸ hlt, he.pruned.mapped hmapped, ?_⟩
      rw [he.idle, he.pruned.blockId,
        he.spilledPages (he.page_off (he.pruned.mapped hmapped) (he.attached hattached))]
          at hcounted
      exact hcounted.imp And.left id
    obtain ⟨h1, h2⟩ := hd.above n hwas a ha
    rw [he.pruned.blockId, he.numBlocks, he.tree]
    exact ⟨(RadixTree.evict_mapped he.parented he.coldest he.mapped a).mpr ⟨h1, hout⟩, h2⟩
  · intro n hidle hnot
    have hmem := Finset.mem_filter.mp (he.idle_sdiff now₀ (Finset.mem_sdiff.mpr ⟨hidle, hnot⟩))
    obtain ⟨hwas, hwasnot⟩ := Finset.mem_sdiff.mp hmem.1
    have hoff := he.page_off (RadixTree.mem_idle.mp hwas).2.2.1 hmem.2
    rw [he.pruned.blockId, blockRefCount, (he.same _ hoff).1]
    exact hd.spent n hwas hwasnot
  · rintro ⟨n, hn⟩
    have hfew := hd.few ⟨n, (he.yielding.mp hn).1⟩
    have hle := Finset.card_le_card (he.idle_sdiff now₀)
    exact (hle.trans (Finset.card_filter_le _ _)).trans (hfew.trans (Finset.card_le_card he.strays))

end Evicts

def detached (p : KvBlockPool) (now : ℕ → ℕ) : KvBlockPool :=
  { p with prefixTree := (p.prefixTree.evictColdestChain now).1 }

/-- The eviction of a node whose page is in use frees nothing, and takes no node that would yield
a page. -/
theorem Drawable.evict_spent (hd : p.Drawable now₀) (io : Except String Unit)
    (hp : p.prefixTree.Parented) (hs : p.prefixTree.Steady now₀ now) (hfree : p.freeList = [])
    {leaf : ℕ} (hleaf : p.prefixTree.coldest now = some leaf) (hnot : leaf ∉ p.yielding now₀) :
    p.evictCold now io = some (p.detached now, false) ∧ Evicts p (p.detached now) now leaf
      ∧ p.supply now₀ ≤ (p.detached now).supply now₀ ∧ (p.detached now).Spare now₀ := by
  obtain ⟨hidle, -⟩ := hs.coldest_idle hleaf
  obtain ⟨hlt, -, hmapped, -⟩ := RadixTree.mem_idle.mp hidle
  have href := hd.spent leaf hidle hnot
  have hchain := (hp.evict hleaf).2.2
  have he : Evicts p (p.detached now) now leaf := by
    refine ⟨hp, hleaf, fun n hn => ?_, rfl, rfl, hfree, fun b _ => ⟨rfl, rfl, ?_⟩⟩
    · rcases mem_cons.mp hn with rfl | hn
      · exact hmapped
      · exact (hd.above leaf (mem_countedNodes.mpr ⟨hlt, hmapped, .inl hidle⟩) n
          (RadixTree.soleAncestorsFrom_subset hn)).1
    · show b ∉ p.freeList
      rw [hfree]
      exact not_mem_nil
  have hoff : ∀ n ∈ p.yielding now₀, n ∉ leaf :: p.prefixTree.soleAncestors leaf := by
    intro n hn hin
    rcases mem_cons.mp hin with rfl | hin
    · exact hnot hn
    · exact hnot (hp.below_ancestor hd.below hn (hp.mapped _ _ hmapped).2
        (RadixTree.soleAncestorsFrom_subset hin))
  refine ⟨?_, he, ?_, ?_⟩
  · rw [map_cons] at hchain
    simp only [KvBlockPool.evictCold, hchain]
    exact if_pos href
  · have hyield : p.yielding now₀ ⊆ (p.detached now).yielding now₀ :=
      fun n hn => he.yielding.mpr ⟨hn, hoff n hn⟩
    have hspill : p.unlisted now₀ ⊆ (p.detached now).unlisted now₀ := by
      intro id hid
      obtain ⟨hid, hnf⟩ := mem_unlisted.mp hid
      refine mem_unlisted.mpr ⟨?_, hnf⟩
      by_cases hin : id ∈ (p.prefixTree.evictColdestChain now).2
      · obtain ⟨h1, h2, h3, -⟩ := mem_spilledPages.mp hid
        exact mem_spilledPages.mpr ⟨h1, h2, h3, isPinned_unmapped (he.chain_unmapped hin)⟩
      · exact (he.spilledPages hin).mpr hid
    have h1 := Finset.card_le_card hyield
    have h2 := Finset.card_le_card hspill
    unfold supply
    show p.freeList.length + _ + _ ≤ p.freeList.length + _ + _
    omega
  · rintro ⟨n, hn⟩
    have hfew := hd.few ⟨n, (he.yielding.mp hn).1⟩
    have hless : ((p.detached now).prefixTree.idle now₀ \ (p.detached now).yielding now₀).card
        < (p.prefixTree.idle now₀ \ p.yielding now₀).card := by
      refine (Finset.card_le_card (he.idle_sdiff now₀)).trans_lt (Finset.card_lt_card ?_)
      exact Finset.filter_ssubset.mpr ⟨leaf, Finset.mem_sdiff.mpr ⟨hidle, hnot⟩, by simp⟩
    exact hless.trans_le (hfew.trans (Finset.card_le_card he.strays))

theorem strays_subset (now₀ : ℕ) : p.strays ⊆ p.unlisted now₀ := by
  intro id hid
  obtain ⟨h1, h2, h3, h4, h5⟩ := mem_strays.mp hid
  exact mem_unlisted.mpr ⟨mem_spilledPages.mpr ⟨h1, h2, h3, isPinned_unmapped h4⟩, h5⟩

/-- The pages of an evicted chain become free or, the leaf's, spilled: as many as were counted for
its nodes and its spilled pages. -/
theorem Evicts.supply {leaf : ℕ} (he : Evicts p q now leaf) (hyield : leaf ∈ p.yielding now₀)
    (hnone : q.refCounts (p.prefixTree.nodes leaf).blockId = none)
    (hfree : q.freeList = (p.prefixTree.soleAncestors leaf).map
        (fun n => (p.prefixTree.nodes n).blockId) ++ [(p.prefixTree.nodes leaf).blockId]
      ∨ q.freeList = (p.prefixTree.soleAncestors leaf).map
        (fun n => (p.prefixTree.nodes n).blockId)
          ∧ (q.blocks (p.prefixTree.nodes leaf).blockId).location ≠ .gpu) :
    p.supply now₀ ≤ q.supply now₀
      ∧ (q.freeList ≠ [] ∨ (p.prefixTree.nodes leaf).blockId ∈ q.strays \ p.strays) := by
  obtain ⟨hidle, hlt, -, -, hunspilled⟩ := mem_yielding.mp hyield
  have hmapped := he.mapped leaf mem_cons_self
  set above := p.prefixTree.soleAncestors leaf with habove
  set page := fun n => (p.prefixTree.nodes n).blockId with hpage
  have hnodes : p.yielding now₀ ⊆
      insert leaf (q.yielding now₀ ∪ above.toFinset.filter (· ∈ p.yielding now₀)) := by
    intro n hn
    rw [Finset.mem_insert, Finset.mem_union, Finset.mem_filter, List.mem_toFinset, he.yielding]
    by_cases hin : n ∈ leaf :: above
    · exact (mem_cons.mp hin).imp_right fun h => .inr ⟨h, hn⟩
    · exact .inr (.inl ⟨hn, hin⟩)
  have hpages : p.unlisted now₀ ⊆ (q.unlisted now₀).erase (page leaf)
      ∪ (above.toFinset.filter (page · ∈ p.spilledPages now₀)).image page := by
    intro id hid
    have hid := (mem_unlisted.mp hid).1
    rw [Finset.mem_union, Finset.mem_erase, mem_unlisted, Finset.mem_image]
    by_cases hin : id ∈ (p.prefixTree.evictColdestChain now).2
    · obtain ⟨n, hn, rfl⟩ := he.mem_chain.mp hin
      rcases mem_cons.mp hn with rfl | hn
      · exact absurd hid hunspilled
      · exact .inr ⟨n, Finset.mem_filter.mpr ⟨List.mem_toFinset.mpr hn, hid⟩, rfl⟩
    · refine .inl ⟨?_, (he.spilledPages hin).mpr hid, (he.same id hin).2.2⟩
      rintro rfl
      exact hin he.leaf_chain
  -- an ancestor counts as a node or for its spilled page, not for both
  have hthere : (above.toFinset.filter (· ∈ p.yielding now₀)).card
      + (above.toFinset.filter (page · ∈ p.spilledPages now₀)).card ≤ above.length := by
    rw [← Finset.card_union_of_disjoint]
    · exact (Finset.card_le_card (Finset.union_subset (Finset.filter_subset _ _)
        (Finset.filter_subset _ _))).trans (toFinset_card_le _)
    · exact Finset.disjoint_filter.mpr fun n _ hn => (mem_yielding.mp hn).2.2.2.2
  have h1 := (Finset.card_le_card hnodes).trans (Finset.card_insert_le _ _)
  have h2 := Finset.card_union_le (q.yielding now₀) (above.toFinset.filter (· ∈ p.yielding now₀))
  have h3 := (Finset.card_le_card hpages).trans (Finset.card_union_le _ _)
  have h4 := Finset.card_image_le (s := above.toFinset.filter (page · ∈ p.spilledPages now₀))
    (f := page)
  unfold KvBlockPool.supply
  rw [he.free, length_nil]
  rcases hfree with hf | ⟨hf, hloc⟩
  · have h5 := Finset.card_le_card (Finset.erase_subset (page leaf) (q.unlisted now₀))
    refine ⟨?_, .inl (by simp [hf])⟩
    rw [hf, length_append, length_map, length_singleton]
    omega
  · have hstray : page leaf ∈ q.strays := by
      refine mem_strays.mpr ⟨he.numBlocks ▸ hlt, hloc, hnone, he.chain_unmapped he.leaf_chain, ?_⟩
      rw [hf]
      intro hin
      obtain ⟨a, ha, heq⟩ := List.mem_map.mp hin
      obtain rfl := (he.mapped a (mem_cons_of_mem _ ha)).inj hmapped heq
      exact lt_irrefl _ (he.parented.soleAncestors_lt (he.parented.mapped _ _ hmapped).2 a ha)
    have h5 := Finset.card_erase_add_one (strays_subset now₀ hstray)
    refine ⟨?_, .inr (Finset.mem_sdiff.mpr ⟨hstray, fun hin => ?_⟩)⟩
    · rw [hf, length_map]
      omega
    · have hno := (mem_strays.mp hin).2.2.2.1
      rw [he.chain_contains he.leaf_chain] at hno
      cases hno

/-- The eviction of a node that yields a page frees the pages of its ancestors and frees or spills
its own. -/
theorem Drawable.evict_yielding (hd : p.Drawable now₀) (io : Except String Unit)
    (hp : p.prefixTree.Parented) (hfree : p.freeList = [])
    {leaf : ℕ} (hleaf : p.prefixTree.coldest now = some leaf) (hyield : leaf ∈ p.yielding now₀) :
    ∃ q, p.evictCold now io = some (q, true) ∧ Evicts p q now leaf
      ∧ p.supply now₀ ≤ q.supply now₀
      ∧ (q.freeList ≠ [] ∨ (q.unlisted now₀).Nonempty ∧ q.Spare now₀) := by
  obtain ⟨hidle, hlt, href, -, -⟩ := mem_yielding.mp hyield
  obtain ⟨hsize, -, hmapped, -⟩ := RadixTree.mem_idle.mp hidle
  have hchain := (hp.evict hleaf).2.2
  rw [map_cons] at hchain
  have habove : ∀ a ∈ p.prefixTree.soleAncestors leaf,
      p.prefixTree.Mapped a ∧ (p.prefixTree.nodes a).blockId < p.numBlocks :=
    fun a ha => hd.above leaf (mem_countedNodes.mpr ⟨hsize, hmapped, .inl hidle⟩) a
      (RadixTree.soleAncestorsFrom_subset ha)
  obtain ⟨q, hq, htree, hnum, hrefs, hloc, hfreed⟩ := evictCold_some io hchain href <| by
    intro b hb
    rcases mem_cons.mp hb with rfl | hb
    · exact hlt
    · obtain ⟨a, ha, rfl⟩ := List.mem_map.mp hb
      exact (habove a ha).2
  rw [hfree, nil_append] at hfreed
  rw [← hchain] at hrefs
  have habovemem : ∀ b ∈ (p.prefixTree.soleAncestors leaf).map
      (fun n => (p.prefixTree.nodes n).blockId), b ∈ (p.prefixTree.evictColdestChain now).2 :=
    fun b hb => hchain ▸ mem_cons_of_mem _ hb
  have hleafmem : (p.prefixTree.nodes leaf).blockId ∈ (p.prefixTree.evictColdestChain now).2 :=
    hchain ▸ mem_cons_self
  have he : Evicts p q now leaf := by
    refine ⟨hp, hleaf, fun n hn => ?_, htree, hnum, hfree, fun b hb => ⟨?_, hloc b ?_, ?_⟩⟩
    · rcases mem_cons.mp hn with rfl | hn
      · exact hmapped
      · exact (habove n hn).1
    · rw [hrefs, dropRefs, if_neg hb]
    · rintro rfl
      exact hb hleafmem
    · intro hin
      rcases hfreed with hf | ⟨hf, -⟩ <;> rw [hf] at hin
      · rcases mem_append.mp hin with hin | hin
        · exact hb (habovemem b hin)
        · exact hb (mem_singleton.mp hin ▸ hleafmem)
      · exact hb (habovemem b hin)
  have hnone : q.refCounts (p.prefixTree.nodes leaf).blockId = none := by
    rw [hrefs, dropRefs, if_pos hleafmem]
  obtain ⟨hle, hsome⟩ := he.supply hyield hnone hfreed
  refine ⟨q, hq, he, hle, hsome.imp_right fun hstray => ?_⟩
  obtain ⟨hin, hout⟩ := Finset.mem_sdiff.mp hstray
  refine ⟨⟨_, strays_subset now₀ hin⟩, fun _ => ?_⟩
  have hbefore := hd.few ⟨leaf, hyield⟩
  have hkept := (Finset.card_le_card (he.idle_sdiff now₀)).trans
    (Finset.card_filter_le _ _)
  have hmore := Finset.card_lt_card (Finset.ssubset_iff_subset_ne.mpr
    ⟨he.strays, fun heq => hout (heq ▸ hin)⟩)
  omega

/-- The eviction of an allocation leaves a free page or a spilled one, if a page can be drawn. -/
theorem Drawable.evictFor (hd : p.Drawable now₀) (io : Except String Unit)
    (hp : p.prefixTree.Parented)
    (hs : p.prefixTree.Steady now₀ now) (hpos : 0 < p.supply now₀) :
    ∃ q, p.evictFor now io = some q ∧ q.Drawable now₀ ∧ q.prefixTree.Parented
      ∧ RadixTree.Pruned p.prefixTree q.prefixTree ∧ p.supply now₀ ≤ q.supply now₀
      ∧ (q.freeList ≠ [] ∨ (q.unlisted now₀).Nonempty ∧ q.Spare now₀) := by
  by_cases hfree : p.freeList = []
  · rcases hleaf : p.prefixTree.coldest now with - | leaf
    · -- no node yields a page, so one is spilled
      have hsame : p.evictFor now io = some p := by
        rw [KvBlockPool.evictFor, if_pos hfree]
        simp only [KvBlockPool.evictCold, RadixTree.evictColdestChain, hleaf]
        rfl
      have hnone : p.yielding now₀ = ∅ := by
        by_contra hne
        have := hp.coldest_isSome hs (Finset.filter_subset _ _) hd.below
          (Finset.nonempty_iff_ne_empty.mpr hne)
        simp [hleaf] at this
      refine ⟨p, hsame, hd, hp, .refl _, le_refl _, .inr ⟨Finset.card_pos.mp ?_, ?_⟩⟩
      · unfold supply at hpos
        rwa [hfree, hnone, length_nil, Finset.card_empty, Nat.zero_add] at hpos
      · rintro ⟨n, hn⟩
        simp [hnone] at hn
    · by_cases hyield : leaf ∈ p.yielding now₀
      · obtain ⟨q, hq, he, hle, hsome⟩ := hd.evict_yielding io hp hfree hleaf hyield
        refine ⟨q, ?_, he.drawable hd, he.parented', he.pruned, hle, hsome⟩
        simp [KvBlockPool.evictFor, hfree, hq]
      · obtain ⟨hq, he, hle, hspare⟩ := hd.evict_spent io hp hs hfree hleaf hyield
        refine ⟨p.detached now, ?_, he.drawable hd, he.parented', he.pruned, hle, .inr ⟨?_, hspare⟩⟩
        · simp [KvBlockPool.evictFor, hfree, hq]
        · rcases Finset.eq_empty_or_nonempty ((p.detached now).yielding now₀) with hnone | hne
          · have hpos := hpos.trans_le hle
            have hempty : (p.detached now).freeList = [] := hfree
            unfold supply at hpos
            rw [hempty, hnone, length_nil, Finset.card_empty, Nat.zero_add] at hpos
            exact Finset.card_pos.mp hpos
          · obtain ⟨id, hid⟩ := Finset.card_pos.mp ((Nat.zero_le _).trans_lt (hspare hne))
            exact ⟨id, strays_subset now₀ hid⟩
  · exact ⟨p, by simp [KvBlockPool.evictFor, hfree], hd, hp, .refl _, le_refl _, .inl hfree⟩

/-- What the reclaim of the spilled page `id` and its allocation leave. -/
structure Reclaims (p q : KvBlockPool) (id : ℕ) : Prop where
  tree : q.prefixTree = p.prefixTree.remove [id]
  refs : q.refCounts = update p.refCounts id (some 1)
  numBlocks : q.numBlocks = p.numBlocks
  location : ∀ b, (q.blocks b).location = (p.blocks b).location
  free : p.freeList = [] ∧ q.freeList = []

theorem reclaims (hfree : p.freeList = []) {id : ℕ} (hid : p.spilledColdest now = some id) :
    ∃ q, (p.reclaimFor now).popFree = (q, .ok id) ∧ Reclaims p q id := by
  refine ⟨{ (p.reclaimSpilledColdest now).1 with
      freeList := [], refCounts := update p.refCounts id (some 1) }, ?_, ?_, rfl, ?_, fun b => ?_,
    hfree, rfl⟩
  · have hlist : (p.reclaimSpilledColdest now).1.freeList = [id] := by
      simp [reclaimSpilledColdest, hid, hfree]
    have hrefs : update (p.reclaimSpilledColdest now).1.refCounts id (some 1)
        = update p.refCounts id (some 1) := by
      simp [reclaimSpilledColdest, hid]
    rw [KvBlockPool.reclaimFor, if_pos hfree]
    simp only [KvBlockPool.popFree, hlist, hrefs]
  · simp only [reclaimSpilledColdest, hid]
  · simp only [reclaimSpilledColdest, hid]
    rfl
  · by_cases hb : b = id <;> simp [reclaimSpilledColdest, hid, modify, update, hb]

namespace Reclaims

variable {id : ℕ} (hr : Reclaims p q id)

include hr

theorem shape : p.prefixTree.SameShape q.prefixTree := hr.tree ▸ RadixTree.remove_shape

theorem spilledPages {b : ℕ} :
    b ∈ q.spilledPages now₀ ↔ b ∈ p.spilledPages now₀ ∧ b ≠ id := by
  have hpin : q.prefixTree.isPinned b now₀ = p.prefixTree.isPinned b now₀ := by
    unfold RadixTree.isPinned
    rw [hr.shape.blockToNode, hr.tree]
    congr 1
    exact funext fun n => RadixTree.remove_isPinned n now₀
  rw [mem_spilledPages, mem_spilledPages, hr.numBlocks, hr.location, hr.refs, hpin]
  by_cases hb : b = id
  · simp [hb]
  · rw [update_of_ne hb]
    simp [hb]

theorem idle {n : ℕ} (hn : p.prefixTree.blockToNode id ≠ some n) :
    n ∈ q.prefixTree.idle now₀ ↔ n ∈ p.prefixTree.idle now₀ :=
  hr.tree ▸ RadixTree.remove_idle hn

theorem page {n : ℕ} (hn : p.prefixTree.blockToNode id ≠ some n) (hm : p.prefixTree.Mapped n) :
    (p.prefixTree.nodes n).blockId ≠ id
      ∧ q.blockRefCount (p.prefixTree.nodes n).blockId
        = p.blockRefCount (p.prefixTree.nodes n).blockId := by
  have hne : (p.prefixTree.nodes n).blockId ≠ id := fun h => hn (h ▸ hm)
  exact ⟨hne, by rw [blockRefCount, blockRefCount, hr.refs, update_of_ne hne]⟩

theorem yielding (hp : p.prefixTree.Parented)
    (hspilled : id ∈ p.spilledPages now₀) : q.yielding now₀ = p.yielding now₀ := by
  ext n
  rw [mem_yielding, mem_yielding, hr.numBlocks, hr.shape.blockId, hr.free.1, hr.free.2,
    hr.spilledPages]
  by_cases hn : p.prefixTree.blockToNode id = some n
  · -- the page of this node is the one reclaimed, and in use now
    have hid := (hp.mapped _ _ hn).1
    refine iff_of_false (fun h => ?_) fun h => h.2.2.2.2 (hid ▸ hspilled)
    have hzero := h.2.2.1
    rw [hid, blockRefCount, hr.refs, update_self] at hzero
    cases hzero
  · rw [hr.idle hn]
    refine and_congr_right fun hidle => ?_
    obtain ⟨hne, href⟩ := hr.page hn (RadixTree.mem_idle.mp hidle).2.2.1
    simp [href, hne]

/-- A mapped page leaves an idle node more, an unmapped one a stray page less. -/
theorem few (now₀ : ℕ) :
    (q.prefixTree.idle now₀ \ p.yielding now₀).card + p.strays.card
      ≤ (p.prefixTree.idle now₀ \ p.yielding now₀).card + q.strays.card + 1 := by
  have hstray : ∀ b ≠ id, b ∈ p.strays → b ∈ q.strays := by
    intro b hb hin
    obtain ⟨h1, h2, h3, h4, -⟩ := mem_strays.mp hin
    refine mem_strays.mpr ⟨hr.numBlocks ▸ h1, hr.location b ▸ h2, ?_, ?_, by simp [hr.free.2]⟩
    · rw [hr.refs, update_of_ne hb]
      exact h3
    · rw [RadixTree.containsBlock, hr.shape.blockToNode]
      exact h4
  cases hnode : p.prefixTree.blockToNode id with
  | some n =>
    have hidle : q.prefixTree.idle now₀ \ p.yielding now₀
        ⊆ insert n (p.prefixTree.idle now₀ \ p.yielding now₀) := by
      intro m hm
      obtain ⟨hm, hnot⟩ := Finset.mem_sdiff.mp hm
      by_cases hmn : m = n
      · exact hmn ▸ Finset.mem_insert_self ..
      · refine Finset.mem_insert_of_mem (Finset.mem_sdiff.mpr ⟨(hr.idle ?_).mp hm, hnot⟩)
        rw [hnode]
        exact fun h => hmn (Option.some.inj h).symm
    have hstrays : p.strays ⊆ q.strays := by
      intro b hb
      refine hstray b ?_ hb
      rintro rfl
      have hun := (mem_strays.mp hb).2.2.2.1
      rw [RadixTree.containsBlock, hnode] at hun
      cases hun
    have h1 := (Finset.card_le_card hidle).trans (Finset.card_insert_le _ _)
    have h2 := Finset.card_le_card hstrays
    omega
  | none =>
    have hidle : q.prefixTree.idle now₀ = p.prefixTree.idle now₀ := by
      ext m
      exact hr.idle (by rw [hnode]; exact some_ne_none m |>.symm)
    have hstrays : p.strays ⊆ insert id q.strays := by
      intro b hb
      by_cases hbid : b = id
      · exact hbid ▸ Finset.mem_insert_self ..
      · exact Finset.mem_insert_of_mem (hstray b hbid hb)
    have h2 := (Finset.card_le_card hstrays).trans (Finset.card_insert_le _ _)
    rw [hidle]
    omega

theorem drawable (hp : p.prefixTree.Parented) (hd : p.Drawable now₀)
    (hspilled : id ∈ p.spilledPages now₀) (hspare : p.Spare now₀) : q.Drawable now₀ := by
  have hyield := hr.yielding hp hspilled
  constructor
  · rw [hyield]
    intro n hn
    rw [hr.shape.children]
    exact hd.below n hn
  · intro n hn a ha
    obtain ⟨hlt, hmapped, hcounted⟩ := mem_countedNodes.mp hn
    rw [hr.shape.size] at hlt
    rw [hr.shape.mapped] at hmapped
    rw [hr.shape.blockId, hr.spilledPages] at hcounted
    rw [hr.shape.ancestors] at ha
    rw [hr.shape.mapped, hr.shape.blockId, hr.numBlocks]
    refine hd.above n (mem_countedNodes.mpr ⟨hlt, hmapped, ?_⟩) a ha
    by_cases hnode : p.prefixTree.blockToNode id = some n
    · exact .inr ((hp.mapped _ _ hnode).1 ▸ hspilled)
    · exact hcounted.imp (hr.idle hnode).mp And.left
  · rw [hyield]
    intro n hidle hnot
    rw [hr.shape.blockId]
    by_cases hnode : p.prefixTree.blockToNode id = some n
    · rw [(hp.mapped _ _ hnode).1, blockRefCount, hr.refs, update_self]
      exact Nat.one_pos
    · rw [hr.idle hnode] at hidle
      rw [(hr.page hnode (RadixTree.mem_idle.mp hidle).2.2.1).2]
      exact hd.spent n hidle hnot
  · rw [hyield]
    intro hne
    have hmore := hspare hne
    have hfew := hr.few now₀
    omega

theorem supply (hp : p.prefixTree.Parented)
    (hspilled : id ∈ p.spilledPages now₀) : p.supply now₀ ≤ q.supply now₀ + 1 := by
  have hsub : p.unlisted now₀ ⊆ insert id (q.unlisted now₀) := by
    intro b hb
    obtain ⟨hb, -⟩ := mem_unlisted.mp hb
    by_cases hbid : b = id
    · exact hbid ▸ Finset.mem_insert_self ..
    · refine Finset.mem_insert_of_mem (mem_unlisted.mpr ⟨hr.spilledPages.mpr ⟨hb, hbid⟩, ?_⟩)
      simp [hr.free.2]
  have hcard := (Finset.card_le_card hsub).trans (Finset.card_insert_le _ _)
  unfold KvBlockPool.supply
  rw [hr.yielding hp hspilled, hr.free.1, hr.free.2]
  omega

end Reclaims

theorem Drawable.reclaim (hd : p.Drawable now₀) (hp : p.prefixTree.Parented)
    (hs : p.prefixTree.Steady now₀ now) (hfree : p.freeList = [])
    (hsome : (p.unlisted now₀).Nonempty) (hspare : p.Spare now₀) :
    ∃ q id, (p.reclaimFor now).popFree = (q, .ok id) ∧ q.Drawable now₀ ∧ q.prefixTree.Parented
      ∧ (∀ clock, p.prefixTree.Steady now₀ clock → q.prefixTree.Steady now₀ clock)
      ∧ p.supply now₀ ≤ q.supply now₀ + 1 := by
  have hsteady : ∀ b, p.prefixTree.isPinned b (now b) = p.prefixTree.isPinned b now₀ := by
    intro b
    unfold RadixTree.isPinned
    congr 1
    exact funext fun n => hs n b
  obtain ⟨spilled, hin⟩ := hsome
  obtain ⟨h1, h2, h3, h4⟩ := mem_spilledPages.mp (mem_unlisted.mp hin).1
  have hfind : (p.spilledColdest now).isSome := by
    refine find?_isSome.mpr ⟨spilled, mem_range.mpr h1, ?_⟩
    simp [h2, h3, hsteady, h4]
  obtain ⟨id, hid⟩ := isSome_iff_exists.mp hfind
  obtain ⟨hlt, href, hloc⟩ := spilledColdest_some hid
  have hpin : p.prefixTree.isPinned id now₀ = false := by
    have hfound := find?_some hid
    rw [hsteady] at hfound
    simp only [Bool.and_eq_true, Bool.not_eq_true'] at hfound
    exact hfound.2
  have hspilled := mem_spilledPages.mpr ⟨hlt, hloc, href, hpin⟩
  obtain ⟨q, hq, hr⟩ := reclaims hfree hid
  refine ⟨q, id, hq, hr.drawable hp hd hspilled hspare, hr.shape.parented hp,
    fun clock hc n k => ?_,
    hr.supply hp hspilled⟩
  rw [hr.tree, RadixTree.remove_isPinned, RadixTree.remove_isPinned]
  exact hc n k

theorem Drawable.popFree (hd : p.Drawable now₀) (hfree : p.freeList ≠ []) :
    ∃ q id, p.popFree = (q, .ok id) ∧ q.Drawable now₀ ∧ q.prefixTree = p.prefixTree
      ∧ p.supply now₀ ≤ q.supply now₀ + 1 := by
  obtain ⟨id, rest, hf⟩ := exists_cons_of_ne_nil hfree
  refine ⟨{ p with freeList := rest, refCounts := update p.refCounts id (some 1) }, id, ?_⟩
  generalize hq : ({ p with freeList := rest, refCounts := update p.refCounts id (some 1) } :
    KvBlockPool) = q
  have htree : q.prefixTree = p.prefixTree := hq ▸ rfl
  have hnum : q.numBlocks = p.numBlocks := hq ▸ rfl
  have hrefs : q.refCounts = update p.refCounts id (some 1) := hq ▸ rfl
  have hlist : q.freeList = rest := hq ▸ rfl
  have hspilled : ∀ b, b ∈ q.spilledPages now₀ ↔ b ∈ p.spilledPages now₀ ∧ b ≠ id := by
    intro b
    rw [mem_spilledPages, mem_spilledPages, hnum, htree, hrefs,
      show q.blocks = p.blocks from hq ▸ rfl]
    by_cases hb : b = id
    · simp [hb]
    · rw [update_of_ne hb]
      simp [hb]
  have href : ∀ b, 0 < p.blockRefCount b → 0 < q.blockRefCount b := by
    intro b hb
    unfold blockRefCount at hb ⊢
    rw [hrefs]
    by_cases hbid : b = id
    · simp [hbid]
    · rwa [update_of_ne hbid]
  have hyield : q.yielding now₀ = p.yielding now₀ := by
    ext n
    constructor
    · intro hn
      obtain ⟨hidle, -, hzero, -⟩ := mem_yielding.mp hn
      rw [htree] at hidle hzero
      by_contra hnot
      have hpos := href _ (hd.spent n hidle hnot)
      omega
    · intro hn
      obtain ⟨hidle, hlt, hzero, hnf, hns⟩ := mem_yielding.mp hn
      rw [hf, mem_cons, not_or] at hnf
      refine mem_yielding.mpr ⟨htree ▸ hidle, ?_, ?_, ?_, ?_⟩ <;> rw [htree]
      · exact hnum ▸ hlt
      · unfold blockRefCount at hzero ⊢
        rwa [hrefs, update_of_ne hnf.1]
      · rw [hlist]
        exact hnf.2
      · exact fun h => hns ((hspilled _).mp h).1
  have hstrays : p.strays ⊆ q.strays := by
    intro b hb
    obtain ⟨h1, h2, h3, h4, h5⟩ := mem_strays.mp hb
    rw [hf, mem_cons, not_or] at h5
    refine mem_strays.mpr ⟨hnum ▸ h1, ?_, ?_, htree ▸ h4, hlist ▸ h5.2⟩
    · exact hq ▸ h2
    · rw [hrefs, update_of_ne h5.1]
      exact h3
  refine ⟨?_, ⟨?_, ?_, ?_, ?_⟩, htree, ?_⟩
  · simp [KvBlockPool.popFree, hf, hq]
  · rw [hyield, htree]
    exact hd.below
  · rw [htree, hnum]
    intro n hn
    obtain ⟨hlt, hmapped, hcounted⟩ := mem_countedNodes.mp hn
    rw [htree] at hlt hmapped hcounted
    exact hd.above n (mem_countedNodes.mpr
      ⟨hlt, hmapped, hcounted.imp_right fun h => ((hspilled _).mp h).1⟩)
  · rw [hyield, htree]
    exact fun n hn hnot => href _ (hd.spent n hn hnot)
  · rw [hyield, htree]
    exact fun hne => (hd.few hne).trans (Finset.card_le_card hstrays)
  · have hsub : p.unlisted now₀ ⊆ q.unlisted now₀ := by
      intro b hb
      obtain ⟨hb, hnf⟩ := mem_unlisted.mp hb
      rw [hf, mem_cons, not_or] at hnf
      exact mem_unlisted.mpr ⟨(hspilled b).mpr ⟨hb, hnf.1⟩, hlist ▸ hnf.2⟩
    have hcard := Finset.card_le_card hsub
    unfold supply
    rw [hyield, hlist, hf, length_cons]
    omega

theorem Drawable.alloc (hd : p.Drawable now₀) (io : Except String Unit) (hp : p.prefixTree.Parented)
    (hs : p.prefixTree.Steady now₀ now) (hpos : 0 < p.supply now₀) :
    ∃ q id, p.alloc now io = some (q, .ok id) ∧ q.Drawable now₀ ∧ q.prefixTree.Parented
      ∧ (∀ clock, p.prefixTree.Steady now₀ clock → q.prefixTree.Steady now₀ clock)
      ∧ p.supply now₀ ≤ q.supply now₀ + 1 := by
  obtain ⟨q, hq, hd, hp', hpr, hle, hsome⟩ := hd.evictFor io hp hs hpos
  have hs' : q.prefixTree.Steady now₀ fun k => now (p.prefixTree.size + k) :=
    fun n k => hpr.steady hs n _
  by_cases hfree : q.freeList = []
  · obtain ⟨hspilled, hspare⟩ := hsome.resolve_left (not_not.mpr hfree)
    obtain ⟨r, id, hr, hd, hp'', hsteady, hle'⟩ := hd.reclaim hp' hs' hfree hspilled hspare
    refine ⟨r, id, ?_, hd, hp'', fun clock hc => hsteady clock (hpr.steady hc), by omega⟩
    rw [KvBlockPool.alloc, hq, map_some, hr]
  · obtain ⟨r, id, hr, hd, ht, hle'⟩ := hd.popFree hfree
    refine ⟨r, id, ?_, hd, ht ▸ hp', fun clock hc => ht ▸ hpr.steady hc, by omega⟩
    rw [KvBlockPool.alloc, hq, map_some, KvBlockPool.reclaimFor, if_neg hfree, hr]

theorem Drawable.allocAll {calls : List ((ℕ → ℕ) × Except String Unit)} : ∀ {p : KvBlockPool},
    p.Drawable now₀ → p.prefixTree.Parented →
    (∀ call ∈ calls, p.prefixTree.Steady now₀ call.1) → calls.length ≤ p.supply now₀ →
    allocAll calls p := by
  induction calls with
  | nil => exact fun _ _ _ _ => rfl
  | cons call calls ih =>
    intro p hd hp hs hle
    rw [length_cons] at hle
    obtain ⟨q, id, hq, hd', hp', hsteady, hle'⟩ := hd.alloc call.2 hp
      (hs call mem_cons_self) (by omega)
    simp only [KvBlockPool.allocAll, hq]
    exact ih hd' hp' (fun c hc => hsteady _ (hs c (mem_cons_of_mem _ hc))) (by omega)

theorem sweep_idle (t : RadixTree) : (t.sweepExpiredPins now₀).idle now₀ = t.idle now₀ := by
  have hshape : t.SameShape (t.sweepExpiredPins now₀) := RadixTree.sweepExpiredPins_shape
  have href : ∀ n, ((t.sweepExpiredPins now₀).nodes n).refCount = (t.nodes n).refCount := by
    intro n
    simp only [RadixTree.sweepExpiredPins]
    split_ifs <;> rfl
  ext n
  rw [RadixTree.mem_idle, RadixTree.mem_idle, hshape.size, hshape.root, hshape.mapped,
    RadixTree.Cold, RadixTree.Cold, href, RadixTree.sweepExpiredPins_isPinned]

theorem sweep_isPinned (t : RadixTree) (id : ℕ) :
    (t.sweepExpiredPins now₀).isPinned id now₀ = t.isPinned id now₀ := by
  unfold RadixTree.isPinned
  rw [RadixTree.sweepExpiredPins_shape.blockToNode]
  congr 1
  exact funext fun n => RadixTree.sweepExpiredPins_isPinned n

theorem CountedOnce.sweep (h : p.CountedOnce now₀) :
    ({ p with prefixTree := p.prefixTree.sweepExpiredPins now₀ } : KvBlockPool).CountedOnce
      now₀ := by
  generalize hq : ({ p with prefixTree := p.prefixTree.sweepExpiredPins now₀ } : KvBlockPool) = q
  have hshape : p.prefixTree.SameShape q.prefixTree := hq ▸ RadixTree.sweepExpiredPins_shape
  have hidle : q.prefixTree.idle now₀ = p.prefixTree.idle now₀ := hq ▸ sweep_idle p.prefixTree
  have hpages : q.spilledPages now₀ = p.spilledPages now₀ := by
    ext id
    rw [mem_spilledPages, mem_spilledPages, ← hq]
    dsimp only
    rw [sweep_isPinned]
  have hyield : q.yielding now₀ = p.yielding now₀ := by
    ext n
    rw [mem_yielding, mem_yielding, hidle, hshape.blockId, hpages, ← hq]
    rfl
  have hcounted : q.countedNodes now₀ = p.countedNodes now₀ := by
    ext n
    rw [mem_countedNodes, mem_countedNodes, hshape.size, hshape.mapped, hshape.blockId, hidle,
      hpages]
  refine ⟨?_, ?_, ?_, ?_⟩
  · rw [hpages, ← hq]
    exact h.free
  · rw [hidle, hyield]
    exact h.cold
  · rw [hidle]
    intro n hn
    rw [hshape.children]
    exact h.below n hn
  · rw [hcounted]
    intro n hn a ha
    rw [hshape.ancestors] at ha
    rw [hshape.mapped, hshape.blockId, ← hq]
    exact h.above n hn a ha

theorem CountedOnce.yielding (h : p.CountedOnce now₀) :
    p.yielding now₀ = p.prefixTree.idle now₀ :=
  (Finset.filter_subset _ _).antisymm h.cold

theorem CountedOnce.drawable (h : p.CountedOnce now₀) : p.Drawable now₀ where
  below := h.yielding.symm ▸ h.below
  above := h.above
  spent n hn hnot := absurd (h.cold hn) hnot
  few _ := by simp [h.yielding]

theorem CountedOnce.allocatableBlocks {now : ℕ → ℕ} (h : p.CountedOnce (now 0))
    (hs : (p.prefixTree.sweepExpiredPins (now 0)).Steady (now 0) now) :
    (p.allocatableBlocks now).2 = (p.allocatableBlocks now).1.supply (now 0) := by
  have hswept := h.sweep
  unfold KvBlockPool.allocatableBlocks supply
  dsimp only
  have hnodes : (p.prefixTree.sweepExpiredPins (now 0)).Steady (now 0) fun idx => now (idx + 1) :=
    fun n k => hs n _
  rw [hnodes.evictableLeaves, hswept.yielding]
  congr 2
  ext id
  have hpin : ∀ k, (p.prefixTree.sweepExpiredPins (now 0)).isPinned id (now k)
      = (p.prefixTree.sweepExpiredPins (now 0)).isPinned id (now 0) := by
    intro k
    unfold RadixTree.isPinned
    congr 1
    exact funext fun n => hs n k
  rw [mem_unlisted, mem_spilledPages, Finset.mem_filter, Finset.mem_range, hpin]
  constructor
  · intro hid
    exact ⟨hid, fun hf => hswept.free id hf (mem_spilledPages.mpr hid)⟩
  · exact And.left

theorem CountedOnce.allocates {now : ℕ → ℕ} (h : p.CountedOnce (now 0))
    (hp : p.prefixTree.Parented) : p.AllocatesCounted now := by
  intro hlast calls hcalls hlen
  have hs := hlast.steady
  rw [h.allocatableBlocks hs] at hlen
  exact h.sweep.drawable.allocAll (RadixTree.sweepExpiredPins_shape.parented hp)
    (fun call hc => (hcalls call hc).steady) hlen.le

end KvBlockPool

namespace Tenancy

def cachedPage : List Use :=
  [.pool (.alloc (fun _ => 0) (.ok ())),
    .pool (.insertPrefix (List.replicate 16 7) [0] fun _ => 0),
    .pool (.removePrefix [0]), .pool (.free 0 false (.ok ()))]

end Tenancy

end Grim.Memory
