import Grim.Memory.FailedGrowth

/-!
# A prefix shared in one call

`find_or_share_prefix_tokens` looks the tokens up, allocates the blocks of the tail, and takes the
references to the matched blocks only then.  An allocation that fails leaves the call through `?`,
and the blocks of the tail it got are lost with it.
-/

namespace Grim.Memory

open Function (update update_self update_of_ne)

namespace KvBlockPool

variable {p q : KvBlockPool} {env : Env} {tokens : List UInt32} {e : String}

/-- The `n` blocks of the tail, or those before the allocation that fails. -/
def allocTail (env : Env) : ℕ → ℕ → KvBlockPool →
    Option (KvBlockPool × List ℕ × Except String Unit)
  | 0, _, p => some (p, [], .ok ())
  | n + 1, k, p =>
    (p.alloc (env.now k) (env.io k)).bind fun (p, id) =>
      match id with
      | .error e => some (p, [], .error e)
      | .ok id => (allocTail env n (k + 1) p).map fun (p, ids, res) => (p, id :: ids, res)

variable (p) in
def tailLength (tokens : List UInt32) : ℕ :=
  PagedKvCache.blocksFor tokens.length - (p.matchPrefix tokens).1.length

variable (p) in
def findOrSharePrefixTokens (env : Env) (tokens : List UInt32) :
    Option (KvBlockPool × Except String (List ℕ × ℕ)) :=
  let hit := p.matchPrefix tokens
  (p.allocTail env (p.tailLength tokens) 0).bind fun (q, fresh, res) =>
    match res with
    | .error e => some (q, .error e)
    | .ok () =>
      let all := hit.1 ++ fresh
      ((hit.1.foldl (fun q b => q.addRef b) q).insertPrefix tokens all
        (env.now (p.tailLength tokens))).map fun q => (q, .ok (all, hit.2))

variable (p) in
def tailBlocks (env : Env) (tokens : List UInt32) : List ℕ :=
  ((p.allocTail env (p.tailLength tokens) 0).map (·.2.1)).getD []

theorem popFree_count {id : ℕ} (h : p.popFree = (q, .ok id)) : q.blockRefCount id = 1 := by
  unfold popFree at h
  split at h
  · cases h
  · cases h
    simp [blockRefCount]

theorem alloc_count {now : ℕ → ℕ} {io : Except String Unit} {id : ℕ}
    (h : p.alloc now io = some (q, .ok id)) : q.blockRefCount id = 1 := by
  obtain ⟨r, -, hq⟩ := Option.map_eq_some_iff.mp h
  exact popFree_count hq

theorem not_full_of_ok {k id : ℕ} (h : p.alloc (env.now k) (env.io k) = some (q, .ok id)) :
    ¬ p.Full env k := by
  rintro ⟨r, hr, e, hres⟩
  rw [Option.mem_def, h] at hr
  cases hr
  cases hres

theorem allocTail_error : ∀ {n k : ℕ} {p : KvBlockPool} {ids : List ℕ},
    allocTail env n k p = some (q, ids, .error e) →
      p.Full env k ∧ ids = [] ∧ (∀ b, q.blockRefCount b = p.blockRefCount b)
        ∨ ¬ p.Full env k ∧ ∃ b ∈ ids, 0 < q.blockRefCount b
  | 0, _, _, _, h => by cases h
  | n + 1, k, p, ids, h => by
    unfold allocTail at h
    obtain ⟨⟨r, res⟩, hr, h⟩ := Option.bind_eq_some_iff.mp h
    rcases res with e' | id
    · cases h
      exact .inl ⟨⟨_, hr, e, rfl⟩, rfl, alloc_error hr⟩
    · obtain ⟨⟨q', ids', res⟩, hrest, heq⟩ := Option.map_eq_some_iff.mp h
      cases heq
      refine .inr ⟨not_full_of_ok hr, ?_⟩
      rcases allocTail_error hrest with ⟨-, rfl, hcounts⟩ | ⟨-, b, hb, hpos⟩
      · refine ⟨id, .head _, ?_⟩
        rw [hcounts id, alloc_count hr]
        exact Nat.one_pos
      · exact ⟨b, .tail _ hb, hpos⟩

/-- A share that fails leaves the references as they were, and none to a block it got, exactly
when it gets none. -/
theorem share_error_iff (h : p.findOrSharePrefixTokens env tokens = some (q, .error e)) :
    (∀ b, q.blockRefCount b = p.blockRefCount b)
      ∧ (∀ b ∈ p.tailBlocks env tokens, q.blockRefCount b = 0) ↔ p.Full env 0 := by
  obtain ⟨⟨r, ids, res⟩, htail, h⟩ := Option.bind_eq_some_iff.mp h
  have hids : p.tailBlocks env tokens = ids := by
    rw [tailBlocks, htail]
    rfl
  rcases res with e' | ⟨⟩
  · cases h
    rw [hids]
    rcases allocTail_error htail with ⟨hfull, rfl, hcounts⟩ | ⟨hgot, b, hb, hpos⟩
    · exact iff_of_true ⟨hcounts, by simp⟩ hfull
    · refine iff_of_false (fun hkept => ?_) hgot
      exact absurd (hkept.2 b hb) hpos.ne'
  · obtain ⟨_, _, heq⟩ := Option.map_eq_some_iff.mp h
    cases heq

theorem share_error_iff_taken : ∃ p q e,
    (Setup.tiny 1 none).pool.alloc id (.ok ()) = some (p, .ok 0)
      ∧ p.findOrSharePrefixTokens TableRun.plainEnv [7] = some (q, .error e)
      ∧ ((∀ b, q.blockRefCount b = p.blockRefCount b)
          ∧ (∀ b ∈ p.tailBlocks TableRun.plainEnv [7], q.blockRefCount b = 0)
        ↔ p.Full TableRun.plainEnv 0) :=
  ⟨_, _, _, rfl, rfl, share_error_iff rfl⟩

/-- Two blocks are needed of a new pool that has one: it stays taken. -/
theorem failed_share_leaks : ¬ ∀ (c : Setup) (env : Env) (tokens : List UInt32) (q : KvBlockPool)
    (e : String), c.pool.findOrSharePrefixTokens env tokens = some (q, .error e) →
      ∀ b, q.blockRefCount b = c.pool.blockRefCount b := by
  intro hall
  have hkept := hall (.tiny 1 none) TableRun.plainEnv (List.replicate 17 7) _ _ rfl 0
  exact absurd hkept (by decide)

end KvBlockPool

end Grim.Memory
