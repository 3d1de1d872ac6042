import Grim.Memory.Runs

/-!
# A block has one owner

The free list has no block twice and none with a reference, and the references are those the
callers hold.  Only an eviction whose chain repeats a block or has an ancestor in use, a stale
match and a forced release of a shared block break this.
-/

namespace Grim.Memory

open List Option
open Function (update update_self update_of_ne)

namespace KvBlockPool

variable {p q : KvBlockPool}

/-- The free blocks are distinct, there, and without references. -/
structure Exclusive (p : KvBlockPool) : Prop where
  nodup : p.freeList.Nodup
  free_lt : ∀ b ∈ p.freeList, b < p.numBlocks
  free_ref : ∀ b ∈ p.freeList, p.refCounts b = none
  ref_pos : ∀ b n, p.refCounts b = some n → 0 < n
  ref_lt : ∀ b n, p.refCounts b = some n → b < p.numBlocks

theorem Exclusive.of_books (h : p.Exclusive) (hs : SameBooks p q) : q.Exclusive := by
  obtain ⟨h1, h2, h3⟩ := hs
  constructor
  · rw [h1]
    exact h.nodup
  · rw [h1, h2]
    exact h.free_lt
  · rw [h1, h3]
    exact h.free_ref
  · rw [h3]
    exact h.ref_pos
  · rw [h2, h3]
    exact h.ref_lt

theorem Exclusive.refCounts_none (h : p.Exclusive) {b : ℕ} (hb : p.blockRefCount b = 0) :
    p.refCounts b = none := by
  unfold blockRefCount at hb
  rcases hr : p.refCounts b with - | n
  · rfl
  · have := h.ref_pos b n hr
    rw [hr, getD_some] at hb
    omega

theorem Exclusive.push (h : p.Exclusive) {l : List ℕ} (hfree : q.freeList = p.freeList ++ l)
    (hnum : q.numBlocks = p.numBlocks) (href : q.refCounts = p.refCounts) (hl : l.Nodup)
    (hlt : ∀ b ∈ l, b < p.numBlocks) (hnone : ∀ b ∈ l, p.refCounts b = none)
    (hnew : ∀ b ∈ l, b ∉ p.freeList) : q.Exclusive := by
  constructor
  · rw [hfree, nodup_append]
    refine ⟨h.nodup, hl, ?_⟩
    rintro a ha b hb rfl
    exact hnew a hb ha
  · rw [hfree, hnum]
    intro b hb
    exact (mem_append.mp hb).elim (h.free_lt b) (hlt b)
  · rw [hfree, href]
    intro b hb
    exact (mem_append.mp hb).elim (h.free_ref b) (hnone b)
  · rw [href]
    exact h.ref_pos
  · rw [hnum, href]
    exact h.ref_lt

/-- The chain the eviction takes has no block twice and, where its leaf is free, no ancestor with
a reference. -/
def EvictsFree (p : KvBlockPool) (now : ℕ → ℕ) : Prop :=
  match (p.prefixTree.evictColdestChain now).2 with
  | [] => True
  | leaf :: ancestors => p.blockRefCount leaf = 0 →
      (leaf :: ancestors).Nodup ∧ ∀ b ∈ ancestors, p.blockRefCount b = 0

instance (now : ℕ → ℕ) : Decidable (p.EvictsFree now) := by
  unfold EvictsFree
  split <;> infer_instance

theorem Exclusive.evictFor (h : p.Exclusive) {now : ℕ → ℕ} {io : Except String Unit}
    (hev : p.freeList = [] → p.EvictsFree now) (hq : p.evictFor now io = some q) :
    q.Exclusive ∧ q.refCounts = p.refCounts := by
  unfold KvBlockPool.evictFor at hq
  split_ifs at hq with hempty
  · obtain ⟨⟨r, b⟩, hr, rfl⟩ := map_eq_some_iff.mp hq
    obtain ⟨-, hnum, ⟨hf, href⟩ | ⟨leaf, ancestors, hchain, hleaf, hlt, href, hf⟩⟩ :=
      evictCold_books hr
    · exact ⟨h.of_books ⟨hf, hnum, href⟩, href⟩
    · have hev := hev hempty
      rw [EvictsFree, hchain] at hev
      obtain ⟨hnodup, hanc⟩ := hev hleaf
      obtain ⟨hleafmem, hancnodup⟩ := nodup_cons.mp hnodup
      have hnone : ∀ b ∈ leaf :: ancestors, p.refCounts b = none := by
        intro b hb
        refine h.refCounts_none ?_
        rcases mem_cons.mp hb with rfl | hb
        · exact hleaf
        · exact hanc b hb
      rw [dropRefs_eq hnone] at href
      refine ⟨?_, href⟩
      rcases hf with hf | hf
      · exact h.push hf hnum href hancnodup (fun b hb => hlt b (.tail _ hb))
          (fun b hb => hnone b (.tail _ hb)) (by simp [hempty])
      · rw [append_assoc] at hf
        have hperm : (ancestors ++ [leaf]).Perm (leaf :: ancestors) :=
          perm_append_singleton leaf ancestors
        exact h.push hf hnum href (hperm.nodup_iff.mpr hnodup)
          (fun b hb => hlt b (hperm.mem_iff.mp hb)) (fun b hb => hnone b (hperm.mem_iff.mp hb))
          (by simp [hempty])
  · cases hq
    exact ⟨h, rfl⟩

theorem Exclusive.reclaimFor (h : p.Exclusive) (now : ℕ → ℕ) :
    (p.reclaimFor now).Exclusive ∧ (p.reclaimFor now).refCounts = p.refCounts := by
  unfold KvBlockPool.reclaimFor
  split_ifs with hempty
  · rcases @reclaimSpilledColdest_books p now with
      heq | ⟨id, -, hlt, hnone, hf, hnum, href, -⟩
    · rw [heq]
      exact ⟨h, rfl⟩
    · refine ⟨h.push hf hnum href (nodup_singleton id) ?_ ?_ (by simp [hempty]), href⟩ <;>
        simpa
  · exact ⟨h, rfl⟩

theorem Exclusive.popFree (h : p.Exclusive) {id : ℕ} (hq : p.popFree = (q, .ok id)) :
    q.Exclusive ∧ p.refCounts id = none ∧ q.refCounts = update p.refCounts id (some 1) := by
  unfold KvBlockPool.popFree at hq
  split at hq
  · cases hq
  · rename_i a rest hfree
    cases hq
    have hnodup := h.nodup
    rw [hfree, nodup_cons] at hnodup
    have hmem : ∀ b ∈ rest, b ∈ p.freeList := fun b hb => hfree ▸ .tail _ hb
    have hid : id ∈ p.freeList := hfree ▸ .head _
    refine ⟨⟨hnodup.2, fun b hb => h.free_lt b (hmem b hb), ?_, ?_, ?_⟩, h.free_ref id hid, rfl⟩
    · intro b hb
      have hne : b ≠ id := by
        rintro rfl
        exact hnodup.1 hb
      show update p.refCounts id (some 1) b = none
      rw [Function.update_of_ne hne]
      exact h.free_ref b (hmem b hb)
    · intro b n hb
      by_cases hbid : b = id
      · subst hbid
        have : some 1 = some n := by simpa using hb
        cases this
        omega
      · exact h.ref_pos b n (by simpa [hbid] using hb)
    · intro b n hb
      by_cases hbid : b = id
      · subst hbid
        exact h.free_lt b hid
      · exact h.ref_lt b n (by simpa [hbid] using hb)

theorem popFree_error {e : String} (hq : p.popFree = (q, .error e)) : q = p := by
  unfold popFree at hq
  split at hq <;> cases hq
  rfl

theorem Exclusive.alloc (h : p.Exclusive) {now : ℕ → ℕ} {io : Except String Unit}
    {res : Except String ℕ} (hev : p.freeList = [] → p.EvictsFree now)
    (hq : p.alloc now io = some (q, res)) :
    q.Exclusive ∧ (∀ e, res = .error e → q.refCounts = p.refCounts)
      ∧ ∀ id, res = .ok id → p.refCounts id = none
        ∧ q.refCounts = update p.refCounts id (some 1) := by
  obtain ⟨r, hr, hq⟩ := map_eq_some_iff.mp hq
  obtain ⟨hrx, hrr⟩ := h.evictFor hev hr
  obtain ⟨hsx, hsr⟩ := hrx.reclaimFor fun k => now (p.prefixTree.size + k)
  cases res with
  | error e =>
    rw [popFree_error hq]
    refine ⟨hsx, fun _ _ => hsr.trans hrr, ?_⟩
    rintro id ⟨⟩
  | ok id =>
    obtain ⟨hqx, hnone, href⟩ := hsx.popFree hq
    rw [hsr, hrr] at hnone href
    refine ⟨hqx, ?_, ?_⟩
    · rintro e ⟨⟩
    · rintro id' ⟨⟩
      exact ⟨hnone, href⟩

theorem Exclusive.updateRef (h : p.Exclusive) {id : ℕ} (hlt : id < p.numBlocks)
    (hfree : id ∉ p.freeList) {r : Option ℕ} (hr : ∀ n, r = some n → 0 < n) :
    { p with refCounts := update p.refCounts id r }.Exclusive := by
  constructor
  · exact h.nodup
  · exact h.free_lt
  · intro b hb
    have hne : b ≠ id := by
      rintro rfl
      exact hfree hb
    show update p.refCounts id r b = none
    rw [update_of_ne hne]
    exact h.free_ref b hb
  · intro b n hb
    by_cases hbid : b = id
    · subst hbid
      exact hr n (by simpa using hb)
    · exact h.ref_pos b n (by simpa [hbid] using hb)
  · intro b n hb
    by_cases hbid : b = id
    · subst hbid
      exact hlt
    · exact h.ref_lt b n (by simpa [hbid] using hb)

theorem Exclusive.notMem_free (h : p.Exclusive) {b n : ℕ} (hb : p.refCounts b = some n) :
    b ∉ p.freeList := by
  intro hmem
  have := h.free_ref b hmem
  rw [hb] at this
  cases this

theorem Exclusive.addRef (h : p.Exclusive) {id : ℕ} (hfree : id ∉ p.freeList)
    (hlt : id < p.numBlocks) : (p.addRef id).Exclusive :=
  h.updateRef hlt hfree fun n hn => by
    cases hn
    omega

theorem blockRefCount_addRef {id : ℕ} (b : ℕ) :
    (p.addRef id).blockRefCount b = update p.blockRefCount id (p.blockRefCount id + 1) b := by
  by_cases hb : b = id
  · subst hb
    simp [KvBlockPool.addRef, blockRefCount]
  · simp [KvBlockPool.addRef, blockRefCount, hb]

theorem blockRefCount_foldl_addRef {blocks : List ℕ} : ∀ {p : KvBlockPool} (b : ℕ),
    (blocks.foldl (fun p b => p.addRef b) p).blockRefCount b
      = p.blockRefCount b + blocks.count b := by
  induction blocks with
  | nil => exact fun _ => rfl
  | cons id blocks ih =>
    intro p b
    rw [foldl_cons, ih, blockRefCount_addRef, count_cons]
    by_cases hb : b = id
    · subst hb
      simp
      omega
    · simp [hb, Ne.symm hb]

/-- A release of `id` that does not free its page: the tree maps it, or its content goes to the
spill manager. -/
def keepsPage (p : KvBlockPool) (id : ℕ) (io : Except String Unit) : Bool :=
  p.prefixTree.containsBlock id || p.spill.any fun s => (p.demoteFreed s id io).2

theorem Exclusive.release (h : p.Exclusive) {id : ℕ} {io : Except String Unit}
    (hfree : id ∉ p.freeList) (hid : p.refCounts id = none ∨ p.keepsPage id io)
    (hq : p.release id io = some q) : q.Exclusive ∧ q.refCounts = p.refCounts := by
  obtain ⟨hnum, href, -, hf | ⟨hf, hlt, hmap, hdem⟩⟩ := release_books hq
  · exact ⟨h.of_books ⟨hf, hnum, href⟩, href⟩
  · rcases hid with hnone | hkeep
    · refine ⟨h.push hf hnum href (nodup_singleton id) ?_ ?_ ?_, href⟩ <;> simpa
    · unfold keepsPage at hkeep
      rw [hmap, Bool.false_or, Option.any_eq_true] at hkeep
      obtain ⟨s, hs, hd⟩ := hkeep
      rw [hdem s hs] at hd
      cases hd

/-- `free_with_tier` of a block with references takes one away. -/
theorem Exclusive.freeWithTier (h : p.Exclusive) {id : ℕ} {forceTier : Bool}
    {io : Except String Unit} (href : p.refCounts id ≠ none)
    (hok : forceTier → p.blockRefCount id ≤ 1 ∨ p.keepsPage id io)
    (hq : p.freeWithTier id forceTier io = some q) :
    q.Exclusive ∧ ∀ b, q.blockRefCount b =
      update p.blockRefCount id (p.blockRefCount id - 1) b := by
  unfold KvBlockPool.freeWithTier at hq
  split at hq
  · rename_i hnone
    exact absurd hnone href
  · rename_i cnt hcnt
    have hfree := h.notMem_free hcnt
    have hlt := h.ref_lt id cnt hcnt
    have hpos := h.ref_pos id cnt hcnt
    have hcount : p.blockRefCount id = cnt := by rw [blockRefCount, hcnt, getD_some]
    split_ifs at hq with hmore
    · cases hq
      refine ⟨h.updateRef hlt hfree ?_, ?_⟩
      · rintro n ⟨⟩
        omega
      · intro b
        by_cases hb : b = id
        · subst hb
          rw [update_self, hcount]
          simp [blockRefCount]
        · rw [update_of_ne hb]
          simp [blockRefCount, hb]
    · have hx : { p with refCounts := update p.refCounts id (oneLess cnt) }.Exclusive := by
        refine h.updateRef hlt hfree ?_
        intro n hn
        unfold oneLess at hn
        split_ifs at hn
        cases hn
        omega
      have hone : ¬ 1 < cnt → oneLess cnt = none := fun hle => if_pos (by omega)
      have hid : update p.refCounts id (oneLess cnt) id = none ∨ p.keepsPage id io = true := by
        rw [update_self]
        by_cases hforce : forceTier = true
        · rcases hok hforce with hle | hkeep
          · exact .inl (hone (by omega))
          · exact .inr hkeep
        · exact .inl (hone fun hlt => hmore ⟨hlt, hforce⟩)
      obtain ⟨hqx, hqr⟩ := hx.release hfree hid hq
      have hqr : q.refCounts = update p.refCounts id (oneLess cnt) := hqr
      refine ⟨hqx, ?_⟩
      intro b
      rw [blockRefCount, hqr]
      by_cases hb : b = id
      · rw [hb, update_self, update_self, hcount, oneLess]
        split_ifs with h0
        · rw [h0]
          rfl
        · rfl
      · rw [update_of_ne hb, update_of_ne hb]
        rfl

theorem Exclusive.shrink (n : ℕ) : ∀ {p : KvBlockPool}, p.Exclusive →
    (p.shrink n).Exclusive ∧ (p.shrink n).refCounts = p.refCounts := by
  induction n with
  | zero => exact fun h => ⟨h, rfl⟩
  | succ n ih =>
    intro p h
    unfold KvBlockPool.shrink
    split_ifs with hlast
    · refine ih ⟨h.nodup.erase _, ?_, ?_, h.ref_pos, ?_⟩
      · intro b hb
        obtain ⟨hne, hb⟩ := (h.nodup.mem_erase_iff).mp hb
        have := h.free_lt b hb
        show b < p.numBlocks - 1
        omega
      · intro b hb
        exact h.free_ref b (mem_of_mem_erase hb)
      · intro b m hb
        have hlt := h.ref_lt b m hb
        have hne : b ≠ p.numBlocks - 1 := by
          rintro rfl
          exact h.notMem_free hb hlast
        show b < p.numBlocks - 1
        omega
    · exact ⟨h, rfl⟩

theorem Exclusive.resizeCapacity (h : p.Exclusive) (newCapacity : ℕ) :
    (p.resizeCapacity newCapacity).Exclusive
      ∧ (p.resizeCapacity newCapacity).refCounts = p.refCounts := by
  unfold KvBlockPool.resizeCapacity
  split_ifs with hgrow
  · refine ⟨⟨?_, ?_, ?_, h.ref_pos, ?_⟩, rfl⟩
    · show (p.freeList ++ List.range' p.numBlocks (newCapacity - p.numBlocks)).Nodup
      rw [nodup_append]
      refine ⟨h.nodup, nodup_range', ?_⟩
      rintro a ha b hb rfl
      have hlt := h.free_lt a ha
      have := mem_range'_1.mp hb
      omega
    · intro b hb
      show b < newCapacity
      rcases mem_append.mp hb with hb | hb
      · have := h.free_lt b hb
        omega
      · have := mem_range'_1.mp hb
        omega
    · intro b hb
      rcases mem_append.mp hb with hb | hb
      · exact h.free_ref b hb
      · have hge := (mem_range'_1.mp hb).1
        refine eq_none_iff_forall_ne_some.mpr ?_
        intro n hn
        have := h.ref_lt b n hn
        omega
    · intro b n hb
      show b < newCapacity
      have := h.ref_lt b n hb
      omega
  · exact h.shrink _

theorem exclusive_pool (c : Setup) : c.pool.Exclusive where
  nodup := nodup_range
  free_lt b hb := mem_range.mp hb
  free_ref _ _ := rfl
  ref_pos _ _ hb := by cases hb
  ref_lt _ _ hb := by cases hb

end KvBlockPool

namespace History

variable {h h' : History} {call : Call}

/-- No block is free twice, and none was handed out while a caller held a reference to it. -/
def OneOwner (h : History) : Prop := h.pool.freeList.Nodup ∧ ∀ a ∈ h.allocs, a.2 = 0

/-- An allocation evicts only free chains, an adopted block is there and not free, and a forced
release of a shared block keeps the page. -/
def Unshared (h : History) (call : Call) : Prop :=
  h.Contract call ∧ match call with
    | .alloc now _ => h.pool.freeList = [] → h.pool.EvictsFree now
    | .addRef _ id => id ∉ h.pool.freeList ∧ id < h.pool.numBlocks
    | .free id forceTier io => forceTier → h.pool.blockRefCount id ≤ 1 ∨ h.pool.keepsPage id io
    | _ => True

instance : Decidable (h.Unshared call) :=
  match call with
  | .alloc now _ => inferInstanceAs (Decidable (_ ∧ (h.pool.freeList = [] → h.pool.EvictsFree now)))
  | .addRef _ id =>
    inferInstanceAs (Decidable (_ ∧ id ∉ h.pool.freeList ∧ id < h.pool.numBlocks))
  | .free id forceTier io => inferInstanceAs (Decidable
      (_ ∧ (forceTier → h.pool.blockRefCount id ≤ 1 ∨ h.pool.keepsPage id io)))
  | .insertPrefix .. | .removePrefix .. | .pinBlocks .. | .demoteColdPrefix .. | .promoteToGpu ..
  | .matchPrefixPromoting .. | .resizeCapacity .. => inferInstanceAs (Decidable (_ ∧ True))

/-- The references are those the callers hold, and `off b` more to each block. -/
structure Lent (h : History) (off : ℕ → ℕ) : Prop where
  exclusive : h.pool.Exclusive
  count : ∀ b, h.pool.blockRefCount b = h.held b + off b

variable {off : ℕ → ℕ}

theorem Lent.next (hl : h.Lent off) {p : KvBlockPool} (hp : p.Exclusive)
    (href : p.refCounts = h.pool.refCounts) : (h.next p).Lent off := by
  refine ⟨hp, ?_⟩
  intro b
  show p.blockRefCount b = h.held b + off b
  rw [← hl.count b, KvBlockPool.blockRefCount, KvBlockPool.blockRefCount, href]

theorem Lent.alloc (hl : h.Lent off) {now : ℕ → ℕ} {io : Except String Unit}
    (hev : h.pool.freeList = [] → h.pool.EvictsFree now)
    (hs : h.step (.alloc now io) = some h') : h'.Lent off := by
  obtain ⟨⟨p, res⟩, hp, rfl⟩ := map_eq_some_iff.mp hs
  obtain ⟨hx, herr, hok⟩ := hl.exclusive.alloc hev hp
  cases res with
  | error e => exact hl.next hx (herr e rfl)
  | ok id =>
    obtain ⟨hnone, href⟩ := hok id rfl
    have hzero : 0 = h.held id + off id := by
      rw [← hl.count, KvBlockPool.blockRefCount, hnone, getD_none]
    refine ⟨hx, ?_⟩
    intro b
    show p.blockRefCount b = update h.held id (h.held id + 1) b + off b
    rw [KvBlockPool.blockRefCount, href]
    by_cases hbid : b = id
    · subst hbid
      rw [update_self, update_self, getD_some]
      omega
    · rw [update_of_ne hbid, update_of_ne hbid, ← hl.count b, KvBlockPool.blockRefCount]

theorem Lent.addRef (hl : h.Lent off) {id : ℕ} (hfree : id ∉ h.pool.freeList)
    (hlt : id < h.pool.numBlocks) :
    Lent { h.next (h.pool.addRef id) with held := update h.held id (h.held id + 1) } off := by
  refine ⟨hl.exclusive.addRef hfree hlt, ?_⟩
  intro b
  show (h.pool.addRef id).blockRefCount b = update h.held id (h.held id + 1) b + off b
  rw [KvBlockPool.blockRefCount_addRef]
  by_cases hbid : b = id
  · have := hl.count id
    rw [hbid, update_self, update_self]
    omega
  · rw [update_of_ne hbid, update_of_ne hbid, hl.count b]

theorem Lent.step (hl : h.Lent off) (hok : h.Unshared call) (hs : h.step call = some h') :
    h'.Lent off := by
  obtain ⟨hcontract, hok⟩ := hok
  have hx := hl.exclusive
  have same : ∀ {p}, KvBlockPool.SameBooks h.pool p → (h.next p).Lent off :=
    fun hp => hl.next (hx.of_books hp) hp.2.2
  cases call with
  | alloc now io => exact hl.alloc hok hs
  | addRef tokens id =>
    cases hs
    exact hl.addRef hok.1 hok.2
  | free id forceTier io =>
    obtain ⟨p, hp, rfl⟩ := map_eq_some_iff.mp hs
    have hheld : 0 < h.held id := hcontract
    have hpos := hl.count id
    have href : h.pool.refCounts id ≠ none := by
      intro hnone
      rw [KvBlockPool.blockRefCount, hnone, getD_none] at hpos
      omega
    obtain ⟨hpx, hcount⟩ := hx.freeWithTier href hok hp
    refine ⟨hpx, ?_⟩
    intro b
    show p.blockRefCount b = update h.held id (h.held id - 1) b + off b
    rw [hcount b]
    by_cases hbid : b = id
    · rw [hbid, update_self, update_self]
      omega
    · rw [update_of_ne hbid, update_of_ne hbid, hl.count b]
  | insertPrefix tokens blocks now =>
    obtain ⟨p, hp, rfl⟩ := map_eq_some_iff.mp hs
    have hbk := same (KvBlockPool.insertPrefix_books hp)
    exact ⟨hbk.exclusive, hbk.count⟩
  | removePrefix | pinBlocks | demoteColdPrefix | promoteToGpu | matchPrefixPromoting =>
    obtain ⟨p, rfl, hp, -⟩ := step_steady hs trivial
    exact same hp
  | resizeCapacity newCapacity =>
    cases hs
    obtain ⟨hpx, href⟩ := hx.resizeCapacity newCapacity
    exact hl.next hpx href

theorem allocs_step (hs : h.step call = some h') :
    h'.allocs = h.allocs ∨ ∃ now io p id, call = .alloc now io
      ∧ h.pool.alloc now io = some (p, .ok id) ∧ h'.allocs = (id, h.held id) :: h.allocs := by
  cases call with
  | alloc now io =>
    obtain ⟨⟨p, e | id⟩, hp, rfl⟩ := map_eq_some_iff.mp hs
    · exact .inl rfl
    · exact .inr ⟨now, io, p, id, rfl, hp, rfl⟩
  | addRef | removePrefix | pinBlocks | resizeCapacity =>
    cases hs
    exact .inl rfl
  | free | insertPrefix | demoteColdPrefix | promoteToGpu | matchPrefixPromoting =>
    obtain ⟨-, -, rfl⟩ := map_eq_some_iff.mp hs
    exact .inl rfl

structure Booked (h : History) : Prop where
  exclusive : h.pool.Exclusive
  held : ∀ b, h.held b = h.pool.blockRefCount b
  allocs : ∀ a ∈ h.allocs, a.2 = 0

theorem Booked.lent (hb : h.Booked) : h.Lent fun _ => 0 :=
  ⟨hb.exclusive, fun b => (hb.held b).symm⟩

theorem Booked.step (hb : h.Booked) (hok : h.Unshared call) (hs : h.step call = some h') :
    h'.Booked := by
  obtain ⟨hx, hcount⟩ := hb.lent.step hok hs
  refine ⟨hx, fun b => (hcount b).symm, ?_⟩
  rcases allocs_step hs with heq | ⟨now, io, p, id, rfl, hp, heq⟩
  · rw [heq]
    exact hb.allocs
  · have hnone := ((hb.exclusive.alloc hok.2 hp).2.2 id rfl).1
    rw [heq]
    intro a ha
    rcases mem_cons.mp ha with rfl | ha
    · exact (hb.held id).trans (by rw [KvBlockPool.blockRefCount, hnone, getD_none])
    · exact hb.allocs a ha

theorem booked_new (c : Setup) : (new c).Booked where
  exclusive := KvBlockPool.exclusive_pool c
  held _ := rfl
  allocs := by simp [new]

/-- The free list has no block twice, and `alloc` hands out no block a caller still holds. -/
theorem alloc_exclusive (c : Setup) (h : History) (hr : Steps.Reach step Unshared (new c) h) :
    h.OneOwner := by
  have hb : h.Booked := hr.invariant (booked_new c) fun _ _ _ hb hok hs => hb.step hok hs
  exact ⟨hb.exclusive.nodup, hb.allocs⟩

/-- The only page is cached, evicted and handed out again. -/
theorem alloc_exclusive_evicted : ∃ h, Steps.Reach step Unshared (new (.tiny 1 none)) h
    ∧ h.allocs = [(0, 0), (0, 0)] ∧ h.OneOwner := by
  obtain ⟨h, hrun⟩ : ∃ h, Steps.exec step Unshared (new (.tiny 1 none))
      [.alloc id (.ok ()), .insertPrefix (List.replicate 16 7) [0] id, .removePrefix [0],
        .free 0 false (.ok ()), .alloc id (.ok ())] = some h := ⟨_, rfl⟩
  have hr := Steps.reach_of_exec hrun
  refine ⟨h, hr, ?_, alloc_exclusive _ h hr⟩
  obtain rfl := Option.some.inj hrun
  rfl

/-- The prefix of two blocks loses the reference to its leaf only, and the eviction takes the page
of the first block, which its owner still holds. -/
theorem eviction_frees_held_block : ¬ ∀ (c : Setup) (h : History),
    Steps.Reach step Contract (new c) h → h.OneOwner := by
  intro hall
  obtain ⟨h, hrun⟩ : ∃ h, Steps.exec step Contract (new (.tiny 2 none))
      [.alloc id (.ok ()), .alloc id (.ok ()), .insertPrefix (List.replicate 32 7) [0, 1] id,
        .removePrefix [1], .free 1 false (.ok ()), .alloc id (.ok ())] = some h := ⟨_, rfl⟩
  have howner := hall _ h (Steps.reach_of_exec hrun)
  obtain rfl := Option.some.inj hrun
  have hheld := howner.2 (0, 1) (by decide)
  cases hheld

end History

end Grim.Memory
