import Grim.Memory.Leased

/-!
# Growth of a cache that fails

An allocation that fails changes no count of references.  A call that takes several pages keeps
those it got before one of them failed, and two of the three calls have changed a counter by then.
-/

namespace Grim.Memory

open Function (update update_self update_of_ne)

namespace KvBlockPool

variable {p q : KvBlockPool} {env : Env} {now : ℕ → ℕ} {io : Except String Unit}

theorem popFree_error_free {e : String} (h : p.popFree = (q, .error e)) : p.freeList = [] := by
  unfold popFree at h
  split at h
  · assumption
  · cases h

theorem reclaimFor_refCounts : (p.reclaimFor now).refCounts = p.refCounts := by
  unfold reclaimFor
  split_ifs
  · rcases @reclaimSpilledColdest_books p now with heq | ⟨id, -, -, -, -, -, href, -⟩
    · rw [heq]
    · exact href
  · rfl

theorem reclaimFor_free (h : (p.reclaimFor now).freeList = []) : p.freeList = [] := by
  by_contra hne
  rw [reclaimFor, if_neg hne] at h
  exact hne h

theorem evictFor_counts (h : p.evictFor now io = some q) (hfree : q.freeList = []) (b : ℕ) :
    q.blockRefCount b = p.blockRefCount b := by
  unfold evictFor at h
  split_ifs at h
  · obtain ⟨⟨r, x⟩, hr, rfl⟩ := Option.map_eq_some_iff.mp h
    obtain ⟨-, -, ⟨-, href⟩ | ⟨leaf, ancestors, -, hleaf, -, href, hf⟩⟩ := evictCold_books hr
    · rw [blockRefCount, blockRefCount, href]
    · have hnil : ancestors = [] := by
        rw [hfree] at hf
        rcases hf with hf | hf
        · exact (List.append_eq_nil_iff.mp hf.symm).2
        · exact (List.append_eq_nil_iff.mp (List.append_eq_nil_iff.mp hf.symm).1).2
      subst hnil
      rw [blockRefCount, href]
      by_cases hb : b = leaf
      · subst hb
        simp [dropRefs, hleaf]
      · simp [dropRefs, hb, blockRefCount]
  · cases h
    rfl

theorem alloc_error {e : String} (h : p.alloc now io = some (q, .error e)) (b : ℕ) :
    q.blockRefCount b = p.blockRefCount b := by
  obtain ⟨r, hr, hq⟩ := Option.map_eq_some_iff.mp h
  have hfree := reclaimFor_free (popFree_error_free hq)
  rw [popFree_error hq, ← evictFor_counts hr hfree b, blockRefCount, reclaimFor_refCounts]
  rfl

/-- The `k`-th allocation of the call fails on the pool. -/
def Full (p : KvBlockPool) (env : Env) (k : ℕ) : Prop :=
  ∃ r ∈ p.alloc (env.now k) (env.io k), ∃ e, r.2 = .error e

/-- One of the `n` allocations from the `k`-th on fails. -/
def Exhausts (env : Env) : ℕ → ℕ → KvBlockPool → Prop
  | 0, _, _ => False
  | n + 1, k, p => p.Full env k ∨
    ∃ q id, p.alloc (env.now k) (env.io k) = some (q, .ok id) ∧ Exhausts env n (k + 1) q

end KvBlockPool

namespace PagedKvCache

open KvBlockPool

variable {c c' : PagedKvCache} {p p' : KvBlockPool} {env : Env}

theorem reserve_exhausts : ∀ {n k : ℕ} {c : PagedKvCache} {p : KvBlockPool}, Exhausts env n k p →
    ∃ ids q e, reserve env n k c p = some ({ c with table := c.table ++ ids }, q, .error e)
      ∧ (p.Full env k ∧ ids = [] ∧ (∀ b, q.blockRefCount b = p.blockRefCount b)
        ∨ ¬ p.Full env k ∧ ids ≠ [])
  | 0, _, _, _, h => h.elim
  | n + 1, k, c, p, .inl hfull => by
    obtain ⟨⟨q, res⟩, hq, e, rfl⟩ := id hfull
    refine ⟨[], q, e, ?_, .inl ⟨hfull, rfl, alloc_error hq⟩⟩
    rw [reserve, Option.mem_def.mp hq]
    simp
  | n + 1, k, c, p, .inr ⟨q, id, hq, hrest⟩ => by
    have hgot : ¬ p.Full env k := by
      rintro ⟨r, hr, e, hres⟩
      rw [Option.mem_def, hq] at hr
      cases hr
      cases hres
    obtain ⟨ids, q', e, hreserve, -⟩ :=
      reserve_exhausts (c := { c with table := c.table ++ [id] }) hrest
    refine ⟨id :: ids, q', e, ?_, .inr ⟨hgot, List.cons_ne_nil _ _⟩⟩
    rw [reserve, hq]
    dsimp only [Option.bind_some]
    rw [hreserve]
    simp

theorem exhausts_of_reserve {e : String} : ∀ {n k : ℕ} {c : PagedKvCache} {p : KvBlockPool},
    reserve env n k c p = some (c', p', .error e) → Exhausts env n k p
  | 0, _, _, _, h => by cases h
  | n + 1, k, c, p, h => by
    unfold reserve at h
    obtain ⟨⟨q, res⟩, hq, h⟩ := Option.bind_eq_some_iff.mp h
    rcases res with e' | id
    · exact .inl ⟨(q, .error e'), hq, e', rfl⟩
    · exact .inr ⟨q, id, hq, exhausts_of_reserve h⟩

/-- The lengths, the cursors, the table and the references are as before. -/
structure Unchanged (c c' : PagedKvCache) (p p' : KvBlockPool) : Prop where
  len : c'.len = c.len
  committed : c'.committedTokens = c.committedTokens
  tentative : c'.tentativeLen = c.tentativeLen
  cursors : c'.layerCommittedTokens = c.layerCommittedTokens
  table : c'.table = c.table
  references : ∀ b, p'.blockRefCount b = p.blockRefCount b

theorem not_unchanged_of_table {ids : List ℕ} (hne : ids ≠ []) (h : c'.table = c.table ++ ids) :
    ¬ Unchanged c c' p p' := by
  intro hu
  exact hne (List.append_right_eq_self.mp (h.symm.trans hu.table))

theorem appendSlot_changes {e : String} (h : c.appendSlot env 0 p = some (c', p', .error e)) :
    ¬ Unchanged c c' p p' := by
  intro hu
  have hcommitted : c'.committedTokens = c.committedTokens + 1 := by
    unfold appendSlot at h
    dsimp only at h
    split_ifs at h
    · obtain ⟨ids, rfl⟩ := reserve_table h
      rfl
    · cases h
  have := hu.committed
  omega

theorem tentativeAppend_unchanged_iff {e : String} {n : ℕ} (hn : n ≠ 0)
    (hx : Exhausts env (blocksFor (c.len + n) - c.table.length) 0 p)
    (h : c.tentativeAppend env n p = some (c', p', .error e)) :
    Unchanged c c' p p' ↔ p.Full env 0 := by
  obtain ⟨ids, q, e', hreserve, hcases⟩ := reserve_exhausts (c := c) hx
  rw [len] at hreserve
  rw [tentativeAppend, if_neg hn, hreserve] at h
  cases h
  rcases hcases with ⟨hfull, rfl, hcounts⟩ | ⟨hgot, hne⟩
  · refine iff_of_true ⟨rfl, rfl, rfl, rfl, ?_, hcounts⟩ hfull
    exact List.append_nil _
  · exact iff_of_false (not_unchanged_of_table hne rfl) hgot

theorem growPages_cursors_iff (n stride : ℕ) :
    (c.growPages 0 n stride).layerCommittedTokens = c.layerCommittedTokens ↔ c.kPages ≠ [] := by
  unfold growPages
  rcases hk : c.kPages with - | ⟨page, pages⟩ <;> simp

theorem appendKvLayer_unchanged_iff {e : String} {k v : Tensor}
    (hn : ¬ (k.seqStride.2 = 0 ∨ k.seqStride.1 = 0))
    (hx : Exhausts env (c.lacking k.seqStride.1) 0 p)
    (h : c.appendKvLayer env 0 k v p = some (c', p', .error e)) :
    Unchanged c c' p p' ↔ p.Full env 0 ∧ c.kPages ≠ [] := by
  obtain ⟨ids, q, e', hreserve, hcases⟩ :=
    reserve_exhausts (c := c.growPages 0 k.seqStride.1 k.seqStride.2) hx
  have hlack : (c.growPages 0 k.seqStride.1 k.seqStride.2).lacking k.seqStride.1
      = c.lacking k.seqStride.1 := rfl
  unfold appendKvLayer at h
  dsimp only at h
  rw [if_neg hn, if_pos rfl, hlack, hreserve] at h
  cases h
  rcases hcases with ⟨hfull, rfl, hcounts⟩ | ⟨hgot, hne⟩
  · rw [← growPages_cursors_iff k.seqStride.1 k.seqStride.2]
    refine ⟨fun hu => ⟨hfull, hu.cursors⟩, fun hk => ⟨rfl, rfl, rfl, hk.2, ?_, hcounts⟩⟩
    exact List.append_nil _
  · exact iff_of_false (not_unchanged_of_table hne rfl) fun hf => hgot hf.1

inductive Growth
  | appendSlot
  | tentativeAppend (n : ℕ)
  | appendKvLayer (layer : ℕ) (k v : Tensor)

namespace Growth

open TableRun (plainEnv)

variable (env : Env) (c : PagedKvCache) (p : KvBlockPool)

def run : Growth → Outcome
  | .appendSlot => c.appendSlot env 0 p
  | .tentativeAppend n => c.tentativeAppend env n p
  | .appendKvLayer layer k v => c.appendKvLayer env layer k v p

def takes : Growth → ℕ
  | .appendSlot => if c.table.length < blocksFor (c.committedTokens + 1) then 1 else 0
  | .tentativeAppend n => if n = 0 then 0 else blocksFor (c.len + n) - c.table.length
  | .appendKvLayer layer k _ =>
    if (k.seqStride.2 = 0 ∨ k.seqStride.1 = 0) ∨ layer ≠ 0 then 0 else c.lacking k.seqStride.1

/-- The first allocation fails already, before the call has changed a counter. -/
def FailsFirst : Growth → Prop
  | .appendSlot => False
  | .tentativeAppend _ => p.Full env 0
  | .appendKvLayer .. => p.Full env 0 ∧ c.kPages ≠ []

variable {env c p} {call : Growth} {e : String}

/-- A call that fails otherwise has got its pages, and takes no other. -/
theorem exhausts_or_reserved (h : call.run env c p = some (c', p', .error e)) :
    Exhausts env (call.takes c) 0 p
      ∨ ∃ ids q, handsOut env (call.takes c) 0 p = some (ids, q) ∧ Rewrites q p' := by
  cases call with
  | appendSlot =>
    unfold run PagedKvCache.appendSlot at h
    unfold takes
    dsimp only at h ⊢
    split_ifs at h ⊢
    · exact .inl (exhausts_of_reserve h)
    · cases h
  | tentativeAppend n =>
    unfold run PagedKvCache.tentativeAppend at h
    unfold takes
    dsimp only at h ⊢
    split_ifs at h ⊢
    · cases h
    · rcases Outcome.andThen_cases h with ⟨q, r, -, hrest⟩ | ⟨hreserve, -⟩
      · cases hrest
      · exact .inl (exhausts_of_reserve hreserve)
  | appendKvLayer layer k v =>
    by_cases hempty : k.seqStride.2 = 0 ∨ k.seqStride.1 = 0
    · unfold run PagedKvCache.appendKvLayer at h
      dsimp only at h
      rw [if_pos hempty] at h
      cases h
    · have htakes : takes c (.appendKvLayer layer k v)
          = if layer = 0 then c.lacking k.seqStride.1 else 0 := by
        unfold takes
        by_cases hl : layer = 0 <;> simp [hempty, hl]
      have hk : k.seqStride = (k.seqStride.1, k.seqStride.2) := rfl
      obtain ⟨hstride, hn⟩ := not_or.mp hempty
      rw [htakes]
      obtain ⟨e, -, hreserve⟩ | ⟨c₁, p₁, hreserve, hp, -⟩ :=
        appendKvLayer_reserved hk (Nat.pos_of_ne_zero hn) (Nat.pos_of_ne_zero hstride) h
      · exact .inl (exhausts_of_reserve hreserve)
      · obtain ⟨ids, hids, -⟩ := reserve_ok hreserve
        exact .inr ⟨ids, p₁, hids, hp⟩

/-- A call that fails because an allocation does leaves the cache as it was exactly when that is
its first allocation, and nothing was counted before. -/
theorem unchanged_iff (hx : Exhausts env (call.takes c) 0 p)
    (h : call.run env c p = some (c', p', .error e)) :
    Unchanged c c' p p' ↔ call.FailsFirst env c p := by
  cases call with
  | appendSlot => exact iff_of_false (appendSlot_changes h) id
  | tentativeAppend n =>
    unfold takes at hx
    dsimp only at hx
    split_ifs at hx with hn
    · exact False.elim hx
    · exact tentativeAppend_unchanged_iff hn hx h
  | appendKvLayer layer k v =>
    unfold takes at hx
    dsimp only at hx
    split_ifs at hx with hn
    · exact False.elim hx
    · obtain ⟨hempty, hl⟩ := not_or.mp hn
      obtain rfl := not_not.mp hl
      exact appendKvLayer_unchanged_iff hempty hx h

/-- The pool's only block is another's. -/
theorem unchanged_iff_taken : ∃ p c' p' e,
    (Setup.tiny 1 none).pool.alloc id (.ok ()) = some (p, .ok 0)
      ∧ run plainEnv (.new p 1 1 16) p (.tentativeAppend 20) = some (c', p', .error e)
      ∧ (Unchanged (.new p 1 1 16) c' p p'
        ↔ FailsFirst plainEnv (.new p 1 1 16) p (.tentativeAppend 20)) :=
  ⟨_, _, _, _, rfl, rfl, unchanged_iff (.inl ⟨_, rfl, _, rfl⟩) rfl⟩

/-- There `append_slot` fails, and has counted the token. -/
theorem failed_slot_counted : ¬ ∀ (call : Growth) (env : Env) (c c' : PagedKvCache)
    (p p' : KvBlockPool) (e : String), Exhausts env (call.takes c) 0 p →
      call.run env c p = some (c', p', .error e) → Unchanged c c' p p' := by
  intro hall
  have hu := hall .appendSlot plainEnv
    (.new (Setup.tiny 1 none).pool.popFree.1 1 1 16) _ (Setup.tiny 1 none).pool.popFree.1 _ _
    (.inl ⟨_, rfl, _, rfl⟩) rfl
  exact absurd hu.committed (by decide)

end Growth

end PagedKvCache

end Grim.Memory
