import Grim.Engine.Coverage

/-!
# What a pass does to the tree

A pass seeds its session with blocks that the tree has, and registers the blocks of its table; the
rest of what it does to the pool counts references or moves pages between the tiers.
-/

namespace Grim.Engine

open KvTransport Memory PagedKvCache List
open Function (update update_self update_of_ne)

variable {e e' : Engine} {w : ℕ → ℕ → ℕ → Option UInt32} {c : PagedKvCache} {p p' : KvBlockPool}
  {full : List UInt32} {id : ℕ}

theorem demotePrefixBlock_settles {bid : ℕ} {io : Except String Unit} {b : Bool}
    (href : p.refCounts bid ≠ none) (h : p.demotePrefixBlock bid io = some (p', b)) :
    Settles p p' := by
  have hon : ∀ (s : LocalSpillManager) (tier : CacheTier) (x : ℕ), p.refCounts x = none →
      (p.blocks x).location = .gpu →
      (({ p with spill := some s }.modify bid fun b =>
        { b with location := tier }).blocks x).location
        = .gpu := by
    intro s tier x hx hg
    have hne : x ≠ bid := by
      rintro rfl
      exact href hx
    simpa [KvBlockPool.modify, hne] using hg
  unfold KvBlockPool.demotePrefixBlock at h
  split at h
  · cases h
    exact .refl p
  · split_ifs at h
    split at h
    · cases h
      exact ⟨.refl _, rfl, fun _ => .rfl, fun _ _ hg => hg⟩
    · split at h <;> cases h
      · exact ⟨.refl _, rfl, fun _ => .rfl, hon _ _⟩
      · exact ⟨.refl _, rfl, fun _ => .rfl, hon _ _⟩

theorem demoteBlocks_settles {blocks : List ℕ} : ∀ {io : ℕ → Except String Unit}
    {p : KvBlockPool}, (∀ b ∈ blocks, p.refCounts b ≠ none) →
    demoteBlocks io blocks p = some p' → Settles p p' := by
  induction blocks with
  | nil =>
    intro io p _ h
    cases h
    exact .refl _
  | cons bid blocks ih =>
    intro io p href h
    unfold demoteBlocks at h
    obtain ⟨⟨q, b⟩, hq, h⟩ := Option.bind_eq_some_iff.mp h
    have hs := demotePrefixBlock_settles (href bid (.head _)) hq
    exact hs.trans (ih (fun x hx => (hs.refs x).not.mpr (href x (.tail _ hx))) h)

theorem addRefs_settles {blocks : List ℕ} : ∀ {p : KvBlockPool},
    (∀ b ∈ blocks, p.refCounts b ≠ none) → Settles p (blocks.foldl (fun p b => p.addRef b) p) := by
  induction blocks with
  | nil => exact fun {p} _ => .refl p
  | cons bid blocks ih =>
    intro p href
    have hs : Settles p (p.addRef bid) := by
      refine ⟨.refl _, rfl, fun b => ?_, fun _ _ hg => hg⟩
      by_cases hb : b = bid
      · subst hb
        simp [KvBlockPool.addRef, href b (.head _)]
      · simp [KvBlockPool.addRef, hb]
    rw [foldl_cons]
    exact hs.trans (ih fun x hx => (hs.refs x).not.mpr (href x (.tail _ hx)))

theorem matchPrefixPromoting_settles {tokens : List UInt32} {blocks : List ℕ} {n : ℕ} {b : Bool}
    (h : p.matchPrefixPromoting tokens = some (p', blocks, n, b)) :
    Settles p p' ∧ (blocks, n) = p.matchPrefix tokens := by
  obtain ⟨⟨r, d⟩, hr, hq⟩ := Option.map_eq_some_iff.mp h
  cases hq
  exact ⟨.of_draws (KvBlockPool.promoteAll_rewrites hr).draws, rfl⟩

theorem insertPrefix_settles {tokens : List UInt32} {blocks : List ℕ} {now : ℕ → ℕ}
    (hwalk : (p.prefixTree.walk tokens blocks.length p.prefixTree.root 0).length = blocks.length)
    (h : p.insertPrefix tokens blocks now = some p') : Settles p p' := by
  obtain ⟨t, ht, rfl⟩ := Option.map_eq_some_iff.mp h
  exact .of_tree ((RadixTree.insertFrom_retains hwalk ht).trans RadixTree.touchNodes_retains)

theorem insertRecurrent_tree {tokens : List UInt32} {blocks : List ℕ} {skip : ℕ} {now : ℕ → ℕ}
    (h : p.insertPrefixWithRecurrentStateAt tokens blocks skip now = some p') :
    ∃ t t', p.prefixTree.insertAt tokens blocks skip now = some t ∧ RadixTree.Retains t t'
      ∧ p' = { p with prefixTree := t' } := by
  obtain ⟨t, ht, h⟩ := Option.map_eq_some_iff.mp h
  simp only [] at h
  have htouch : RadixTree.Retains t (t.touch tokens fun k => now (blocks.length + k)) :=
    RadixTree.touchNodes_retains
  split at h
  · split at h <;> subst h
    · exact ⟨t, _, ht, htouch.trans RadixTree.attachRecurrentState_retains, rfl⟩
    · exact ⟨t, _, ht, htouch, rfl⟩
  · subst h
    exact ⟨t, _, ht, htouch, rfl⟩

/-- The blocks of a session at its progress may get nodes, where those without one are filled. -/
theorem Covered.register (h : Covered e w) (hc : e.sessions id = some c)
    (hfull : e.requestInputIds id = some full) (hat : AtProgress e id c) {skip : ℕ} {now : ℕ → ℕ}
    (hfills : c.table.length * blockSize ≤ c.committedTokens
      ∨ (e.pool.prefixTree.walk full c.table.length e.pool.prefixTree.root 0).length
        = c.table.length)
    (hp : e.pool.insertPrefixWithRecurrentStateAt full c.table skip now = some p') :
    Covered { e with pool := p' } w := by
  have hf := h.follows id c full hc hfull hat
  obtain ⟨t, t', ht, hret, rfl⟩ := insertRecurrent_tree hp
  have hclosed : ∀ j b, c.table[j]? = some b →
      (e.pool.prefixTree.walk full c.table.length e.pool.prefixTree.root 0).length ≤ j →
      (j + 1) * blockSize ≤ c.committedTokens := by
    intro j b hb hj
    have hlt := (List.getElem?_eq_some_iff.mp hb).1
    rcases hfills with hle | hwalk
    · refine le_trans (Nat.mul_le_mul_right _ ?_) hle
      exact hlt
    · omega
  have hrows : ∀ j b, c.table[j]? = some b →
      (e.pool.prefixTree.walk full c.table.length e.pool.prefixTree.root 0).length ≤ j →
      Rows w e.numLayers (e.pool.prefixTree.blockKey full
        (0 + j * e.pool.prefixTree.blockSize)) b := by
    intro j b hb hj
    rw [blockKey_eq h.keySize, Nat.zero_add, h.keySize]
    exact hf.filled j b hb (hclosed j b hb hj)
  obtain ⟨hg, hsize, hhas⟩ := h.grounded.insertFrom h.grounded.root_lt hrows ht
  have hnew : ∀ b, t'.HasBlock b → e.pool.prefixTree.HasBlock b
      ∨ ∃ j, c.table[j]? = some b ∧ (j + 1) * blockSize ≤ c.committedTokens := by
    intro b hb
    refine (hhas b ((hret.hasBlock b).mp hb)).imp_right ?_
    rintro ⟨j, hj, hle⟩
    exact ⟨j, hj, hclosed j b hj hle⟩
  refine ⟨h.layers_pos, hret.shape.blockSize.trans (hsize.trans h.keySize), h.nodup, h.free_ref,
    h.onGpu, hret.grounded hg, ?_, h.seated, ?_, h.apart⟩
  · intro b hb
    rcases hnew b hb with hold | ⟨j, hj, -⟩
    · exact h.tree_ref b hold
    · exact (h.seated id c hc).refs b (mem_of_getElem? hj)
  · intro id₁ c₁ full₁ hc₁ hfull₁ hat₁
    obtain ⟨h1, h2, h3, h4, h5, h6⟩ := h.follows id₁ c₁ full₁ hc₁ hfull₁ hat₁
    refine ⟨h1, h2, h3, h4, ?_, h6⟩
    intro i b hb hi hhas'
    rcases hnew b hhas' with hold | ⟨j, hj, hle⟩
    · exact h5 i b hb hi hold
    · by_cases hid : id₁ = id
      · subst hid
        obtain rfl : c = c₁ := Option.some.inj (hc.symm.trans hc₁)
        obtain rfl := h6 j i b hj hb hi
        omega
      · exact h.apart id₁ id c₁ c i b hid hc₁ hc (by rw [hfull₁]; simp) hat₁ hb hi
          (mem_of_getElem? hj)

/-- A session without blocks takes blocks that the tree has for its prompt. -/
theorem Covered.seed (h : Covered e w) (hc : e.sessions id = some c)
    (htable : c.table = []) {seeds : List ℕ}
    (hseeds : ∀ i b, seeds[i]? = some b → e.pool.prefixTree.HasBlock b
      ∧ ∀ full, e.requestInputIds id = some full →
        Rows w e.numLayers (keyOf (promptBlock full i)) b) :
    Covered { e with
      pool := (c.seedPrefix seeds e.pool).2
      sessions := update e.sessions id (some (c.seedPrefix seeds e.pool).1)
      prefillProgress := update e.prefillProgress id (some (seeds.length * blockSize)) } w := by
  have href : ∀ b ∈ seeds, e.pool.refCounts b ≠ none := by
    intro b hb
    obtain ⟨i, hi⟩ := getElem?_of_mem hb
    exact h.tree_ref b (hseeds i b hi).1
  have hs : Settles e.pool (c.seedPrefix seeds e.pool).2 := addRefs_settles href
  have hsettled := h.settle hs
  have hseed : (c.seedPrefix seeds e.pool).1.table = seeds := by
    show c.table ++ seeds = seeds
    rw [htable, nil_append]
  have hcommitted : (c.seedPrefix seeds e.pool).1.committedTokens = seeds.length * blockSize :=
    congrArg (fun l : List ℕ => l.length * blockSize) hseed
  have hcursors : (c.seedPrefix seeds e.pool).1.layerCommittedTokens
      = c.layerCommittedTokens.map fun _ => seeds.length * blockSize := by
    rw [← hcommitted]
    rfl
  -- the seeded blocks are full
  have hfull : ∀ i b, seeds[i]? = some b → (i + 1) * blockSize ≤ seeds.length * blockSize :=
    fun i b hb => Nat.mul_le_mul_right _ (List.getElem?_eq_some_iff.mp hb).1
  generalize (c.seedPrefix seeds e.pool).2 = p' at hs hsettled ⊢
  have hkp : (c.seedPrefix seeds e.pool).1.kPages = c.kPages := rfl
  generalize (c.seedPrefix seeds e.pool).1 = c' at hseed hcommitted hcursors hkp ⊢
  refine ⟨hsettled.layers_pos, hsettled.keySize, hsettled.nodup, hsettled.free_ref, hsettled.onGpu,
    hsettled.grounded, hsettled.tree_ref, ?_, ?_, ?_⟩
  · intro id₁ c₁ hc₁
    dsimp only at hc₁
    by_cases hid : id₁ = id
    · subst hid
      rw [update_self, Option.some.injEq] at hc₁
      subst hc₁
      obtain ⟨h1, h2, -⟩ := h.seated _ c hc
      refine ⟨?_, ?_, ?_⟩
      · rw [hcursors, hkp, length_map, h1]
      · rw [hkp]
        exact h2
      · rw [hseed]
        exact fun b hb => (hs.refs b).not.mpr (href b hb)
    · rw [update_of_ne hid] at hc₁
      exact hsettled.seated id₁ c₁ hc₁
  · intro id₁ c₁ full₁ hc₁ hfull₁ hat₁
    unfold AtProgress at hat₁
    dsimp only at hc₁ hat₁ hfull₁
    by_cases hid : id₁ = id
    · subst hid
      rw [update_self, Option.some.injEq] at hc₁
      subst hc₁
      refine ⟨?_, ?_, ?_, ?_, ?_, ?_⟩
      · intro l pos hl
        rw [hcursors, getElem?_map, Option.map_eq_some_iff] at hl
        obtain ⟨-, -, rfl⟩ := hl
        exact hcommitted.symm
      · rw [hcommitted, hseed]
        unfold blocksFor blockSize
        omega
      · intro i b hb _
        rw [hseed] at hb
        exact (hseeds i b hb).2 full₁ hfull₁
      · intro i b hb hi
        rw [hseed] at hb
        rw [hcommitted] at hi
        exact absurd (hfull i b hb) (by omega)
      · intro i b hb hi
        rw [hseed] at hb
        rw [hcommitted] at hi
        exact absurd (hfull i b hb) (by omega)
      · intro i j b _ hb hj
        rw [hseed] at hb
        rw [hcommitted] at hj
        exact absurd (hfull j b hb) (by omega)
    · rw [update_of_ne hid] at hc₁ hat₁
      exact hsettled.follows id₁ c₁ full₁ hc₁ hfull₁ hat₁
  · intro id₁ id₂ c₁ c₂ i b hne hc₁ hc₂ hids₁ hat₁ hb hi
    unfold AtProgress at hat₁
    dsimp only at hc₁ hc₂ hat₁ hids₁
    by_cases hid₁ : id₁ = id
    · subst hid₁
      rw [update_self, Option.some.injEq] at hc₁
      subst hc₁
      rw [hseed] at hb
      rw [hcommitted] at hi
      exact absurd (hfull i b hb) (by omega)
    · rw [update_of_ne hid₁] at hc₁ hat₁
      by_cases hid₂ : id₂ = id
      · subst hid₂
        rw [update_self, Option.some.injEq] at hc₂
        subst hc₂
        rw [hseed]
        intro hmem
        obtain ⟨j, hj⟩ := getElem?_of_mem hmem
        obtain ⟨full₁, hfull₁⟩ := Option.ne_none_iff_exists'.mp hids₁
        exact (h.follows id₁ c₁ full₁ hc₁ hfull₁ hat₁).fresh i b hb hi (hseeds j b hj).1
      · rw [update_of_ne hid₂] at hc₂
        exact h.apart id₁ id₂ c₁ c₂ i b hne hc₁ hc₂ hids₁ hat₁ hb hi

end Grim.Engine
