import Grim.Engine.Layers
import Grim.Engine.Passes
import Grim.Memory.Registry

/-!
# Which rows a session's blocks have

While a session stands at the tokens prefilled, its blocks have the rows of its prompt up to
there, in order; those the prompt goes on in are its own (`Follows`).  The tree and the other
sessions see no row that a pass writes.
-/

namespace Grim.Engine

open KvTransport Memory PagedKvCache List
open Function (update update_self update_of_ne)

section Rows

variable {table : List ℕ} {b j : ℕ}

theorem wroteRows_frame {tokens : List UInt32} : ∀ {pos : ℕ} {w : ℕ → ℕ → Option UInt32},
    (∀ i, pos ≤ i → i < pos + tokens.length → table[i / blockSize]? = some b →
      i % blockSize ≠ j) → wroteRows table pos tokens w b j = w b j := by
  induction tokens with
  | nil => exact fun _ => rfl
  | cons token tokens ih =>
    intro pos w h
    unfold wroteRows
    rw [ih fun i hi hlt => h i (by omega) (by rw [length_cons]; omega)]
    have hpos := h pos le_rfl (by rw [length_cons]; omega)
    rcases hb' : table[pos / blockSize]? with - | b'
    · rfl
    · by_cases hbb : b = b'
      · subst hbb
        simp only [update_self]
        rw [update_of_ne (hpos hb').symm]
      · simp only [update_of_ne hbb]

theorem wroteRows_at {tokens : List UInt32} {i : ℕ} : ∀ {pos : ℕ} {w : ℕ → ℕ → Option UInt32},
    i < tokens.length → table[(pos + i) / blockSize]? = some b →
    (∀ i', pos + i < i' → i' < pos + tokens.length → table[i' / blockSize]? = some b →
      i' % blockSize ≠ (pos + i) % blockSize) →
    wroteRows table pos tokens w b ((pos + i) % blockSize) = tokens[i]? := by
  induction tokens generalizing i with
  | nil =>
    intro pos w hi
    simp at hi
  | cons token tokens ih =>
    intro pos w hi hb hlast
    rw [length_cons] at hi hlast
    unfold wroteRows
    cases i with
    | zero =>
      simp only [Nat.add_zero] at hb hlast ⊢
      rw [wroteRows_frame fun i hi hlt => hlast i (by omega) (by omega), hb]
      simp
    | succ i =>
      rw [← Nat.add_assoc, Nat.add_right_comm] at hb hlast ⊢
      rw [ih (by omega) hb fun i' hi' hlt => hlast i' (by omega) (by omega),
        getElem?_cons_succ]

end Rows

variable {c c' : PagedKvCache} {chunk full : List UInt32} {w w' : ℕ → ℕ → ℕ → Option UInt32}
  {L : ℕ}

theorem wrote_same (h : ∀ (l pos : ℕ), c'.layerCommittedTokens[l]? = some pos →
    pos ≤ c.layerCommittedTokens[l]?.getD c.committedTokens) : wrote c c' chunk w = w := by
  funext l
  unfold wrote
  simp only []
  have hzero : c'.layerCommittedTokens[l]?.getD (c.layerCommittedTokens[l]?.getD c.committedTokens)
      - c.layerCommittedTokens[l]?.getD c.committedTokens = 0 := by
    rcases hc : c'.layerCommittedTokens[l]? with - | pos
    · exact Nat.sub_self _
    · exact Nat.sub_eq_zero_of_le (h l pos hc)
  rw [hzero, take_zero]
  rfl

theorem wrote_self : wrote c c chunk w = w :=
  wrote_same fun l pos hl => by rw [hl, Option.getD_some]

theorem wrote_layer {a pos l : ℕ} (hstart : c.layerCommittedTokens[l]?.getD c.committedTokens = a)
    (hstop : c'.layerCommittedTokens[l]? = some pos) :
    wrote c c' chunk w l = wroteRows c'.table a (chunk.take (pos - a)) (w l) := by
  unfold wrote
  simp only [hstart, hstop, Option.getD_some]

def keyOf (block : List UInt32) : TokenKey := (RadixTree.new blockSize 0).blockKey block 0

theorem blockKey_eq {t : RadixTree} (h : t.blockSize = blockSize) (tokens : List UInt32)
    (offset : ℕ) : t.blockKey tokens offset = keyOf ((tokens.drop offset).take blockSize) := by
  unfold keyOf RadixTree.blockKey
  rw [h, drop_zero]
  simp only [RadixTree.new]
  rw [take_take, min_self]

/-- Block `b` has the rows of a block with key `key` in the layers below `L`. -/
def Rows (w : ℕ → ℕ → ℕ → Option UInt32) (L : ℕ) (key : TokenKey) (b : ℕ) : Prop :=
  ∃ block : List UInt32, block.length = blockSize ∧ keyOf block = key
    ∧ ∀ l < L, ∀ j < blockSize, w l b j = block[j]?

theorem Rows.frame {key : TokenKey} {b : ℕ} (h : Rows w L key b)
    (hw : ∀ l < L, ∀ j < blockSize, w' l b j = w l b j) : Rows w' L key b := by
  obtain ⟨block, hlen, hkey, hrows⟩ := h
  exact ⟨block, hlen, hkey, fun l hl j hj => (hw l hl j hj).trans (hrows l hl j hj)⟩

/-- The `i`-th block of a prompt. -/
def promptBlock (full : List UInt32) (i : ℕ) : List UInt32 :=
  (full.drop (i * blockSize)).take blockSize

/-- The session's blocks have the prompt's rows up to the tokens committed.  A block that the
committed tokens do not fill has no node in `t` and stands in the table once. -/
structure Follows (t : RadixTree) (w : ℕ → ℕ → ℕ → Option UInt32) (L : ℕ) (full : List UInt32)
    (c : PagedKvCache) : Prop where
  cursor : ∀ (l pos : ℕ), c.layerCommittedTokens[l]? = some pos → pos = c.committedTokens
  room : blocksFor c.committedTokens ≤ c.table.length
  filled : ∀ i b, c.table[i]? = some b → (i + 1) * blockSize ≤ c.committedTokens →
    Rows w L (keyOf (promptBlock full i)) b
  rows : ∀ i b, c.table[i]? = some b → c.committedTokens < (i + 1) * blockSize →
    ∀ j < blockSize, i * blockSize + j < c.committedTokens → ∀ l < L,
      w l b j = full[i * blockSize + j]?
  fresh : ∀ i b, c.table[i]? = some b → c.committedTokens < (i + 1) * blockSize → ¬ t.HasBlock b
  once : ∀ (i j b : ℕ), c.table[i]? = some b → c.table[j]? = some b →
    c.committedTokens < (j + 1) * blockSize → i = j

/-- What every session keeps, also one that a failed pass left behind. -/
structure Seated (refs : ℕ → Option ℕ) (L : ℕ) (c : PagedKvCache) : Prop where
  cursors : c.layerCommittedTokens.length = c.kPages.length
  layers : c.kPages.length ≤ L
  refs : ∀ b ∈ c.table, refs b ≠ none

/-- The session of request `id` is at the tokens prefilled. -/
def AtProgress (e : Engine) (id : ℕ) (c : PagedKvCache) : Prop :=
  c.committedTokens = (e.prefillProgress id).getD 0

structure Covered (e : Engine) (w : ℕ → ℕ → ℕ → Option UInt32) : Prop where
  layers_pos : 0 < e.numLayers
  keySize : e.pool.prefixTree.blockSize = blockSize
  nodup : e.pool.freeList.Nodup
  free_ref : ∀ b ∈ e.pool.freeList, e.pool.refCounts b = none
  onGpu : ∀ b, e.pool.refCounts b = none → (e.pool.blocks b).location = .gpu
  grounded : e.pool.prefixTree.Grounded (Rows w e.numLayers)
  tree_ref : ∀ b, e.pool.prefixTree.HasBlock b → e.pool.refCounts b ≠ none
  seated : ∀ id c, e.sessions id = some c → Seated e.pool.refCounts e.numLayers c
  follows : ∀ id c full, e.sessions id = some c → e.requestInputIds id = some full →
    AtProgress e id c → Follows e.pool.prefixTree w e.numLayers full c
  apart : ∀ id id' c c' i b, id ≠ id' → e.sessions id = some c → e.sessions id' = some c' →
    e.requestInputIds id ≠ none → AtProgress e id c → c.table[i]? = some b →
    c.committedTokens < (i + 1) * blockSize → b ∉ c'.table

variable {e : Engine}

theorem Covered.congr {e' : Engine} (h : Covered e w) (hpool : e'.pool = e.pool)
    (hlayers : e'.numLayers = e.numLayers) (hids : e'.requestInputIds = e.requestInputIds)
    (hsessions : e'.sessions = e.sessions) (hprogress : e'.prefillProgress = e.prefillProgress) :
    Covered e' w := by
  cases e
  cases e'
  dsimp only at hpool hlayers hids hsessions hprogress
  subst hpool hlayers hids hsessions hprogress
  exact ⟨h.layers_pos, h.keySize, h.nodup, h.free_ref, h.onGpu, h.grounded, h.tree_ref, h.seated,
    h.follows, h.apart⟩

theorem Covered.quiet (h : Covered e w) : e.pool.Quiet :=
  ⟨h.nodup, h.free_ref, h.onGpu, h.grounded.claimed⟩

/-- The same nodes, free pages and sessions' references; no unreferenced page left the GPU. -/
structure Settles (p p' : KvBlockPool) : Prop where
  tree : RadixTree.Retains p.prefixTree p'.prefixTree
  free : p'.freeList = p.freeList
  refs : ∀ b, p'.refCounts b = none ↔ p.refCounts b = none
  onGpu : ∀ b, p.refCounts b = none → (p.blocks b).location = .gpu →
    (p'.blocks b).location = .gpu

theorem Settles.refl (p : KvBlockPool) : Settles p p :=
  ⟨.refl _, rfl, fun _ => .rfl, fun _ _ h => h⟩

theorem Settles.trans {p p' p'' : KvBlockPool} (h : Settles p p') (h' : Settles p' p'') :
    Settles p p'' where
  tree := h.tree.trans h'.tree
  free := h'.free.trans h.free
  refs b := (h'.refs b).trans (h.refs b)
  onGpu b hb hg := h'.onGpu b ((h.refs b).mpr hb) (h.onGpu b hb hg)

theorem Settles.of_draws {p p' : KvBlockPool} (h : p.Draws p' []) : Settles p p' := by
  refine ⟨?_, ?_, fun b => ?_, fun b _ hg => h.onGpu b hg⟩
  · rw [h.tree]
    exact .refl _
  · exact h.free.symm
  · rw [h.refs]
    simp

theorem Settles.of_tree {p : KvBlockPool} {t : RadixTree} (h : RadixTree.Retains p.prefixTree t) :
    Settles p { p with prefixTree := t } :=
  ⟨h, rfl, fun _ => .rfl, fun _ _ hg => hg⟩

variable {p' : KvBlockPool} {id : ℕ}

theorem Covered.settle (h : Covered e w) (hs : Settles e.pool p') :
    Covered { e with pool := p' } w where
  layers_pos := h.layers_pos
  keySize := hs.tree.shape.blockSize.trans h.keySize
  nodup := by
    rw [hs.free]
    exact h.nodup
  free_ref b hb := by
    rw [hs.free] at hb
    exact (hs.refs b).mpr (h.free_ref b hb)
  onGpu b hb := by
    have hb := (hs.refs b).mp hb
    exact hs.onGpu b hb (h.onGpu b hb)
  grounded := hs.tree.grounded h.grounded
  tree_ref b hb := by
    rw [hs.tree.hasBlock] at hb
    exact (hs.refs b).not.mpr (h.tree_ref b hb)
  seated id c hc := by
    obtain ⟨h1, h2, h3⟩ := h.seated id c hc
    exact ⟨h1, h2, fun b hb => (hs.refs b).not.mpr (h3 b hb)⟩
  follows id c full hc hfull hat := by
    obtain ⟨h1, h2, h3, h4, h5, h6⟩ := h.follows id c full hc hfull hat
    exact ⟨h1, h2, h3, h4, fun i b hb hlt => (hs.tree.hasBlock b).not.mpr (h5 i b hb hlt), h6⟩
  apart := h.apart

/-- The blocks that `c` goes on in, with the pages it drew: no node has them, no other session has
them, and each stands in the table once. -/
theorem Covered.open_block (h : Covered e w) (hc : e.sessions id = some c)
    (hfull : e.requestInputIds id = some full) (hat : AtProgress e id c) {ids : List ℕ}
    (hd : e.pool.Draws p' ids) (ht : c'.table = c.table ++ ids) {i b : ℕ}
    (hb : c'.table[i]? = some b) (hi : c.committedTokens < (i + 1) * blockSize) :
    ¬ e.pool.prefixTree.HasBlock b
      ∧ (∀ id' c₁, id' ≠ id → e.sessions id' = some c₁ → b ∉ c₁.table)
      ∧ ∀ j, c'.table[j]? = some b → j = i := by
  have hf := h.follows id c full hc hfull hat
  have hids : ∀ b ∈ ids, e.pool.refCounts b = none := fun b hb =>
    h.free_ref b (hd.free ▸ mem_append_left _ hb)
  have hnodup : ids.Nodup := by
    have := h.nodup
    rw [hd.free] at this
    exact (nodup_append.mp this).1
  rw [ht] at hb
  by_cases hlt : i < c.table.length
  · rw [getElem?_append_left hlt] at hb
    have href := (h.seated id c hc).refs b (mem_of_getElem? hb)
    refine ⟨hf.fresh i b hb hi, ?_, ?_⟩
    · intro id' c₁ hne hc₁
      exact h.apart id id' c c₁ i b hne.symm hc hc₁ (by rw [hfull]; simp) hat hb hi
    · intro j hj
      rw [ht] at hj
      by_cases hjlt : j < c.table.length
      · rw [getElem?_append_left hjlt] at hj
        exact hf.once j i b hj hb hi
      · rw [getElem?_append_right (by omega)] at hj
        exact absurd (hids b (mem_of_getElem? hj)) href
  · rw [getElem?_append_right (by omega)] at hb
    have hnone := hids b (mem_of_getElem? hb)
    refine ⟨fun hn => h.tree_ref b hn hnone, ?_, ?_⟩
    · intro id' c₁ _ hc₁ hmem
      exact (h.seated id' c₁ hc₁).refs b hmem hnone
    · intro j hj
      rw [ht] at hj
      by_cases hjlt : j < c.table.length
      · rw [getElem?_append_left hjlt] at hj
        exact absurd hnone ((h.seated id c hc).refs b (mem_of_getElem? hj))
      · rw [getElem?_append_right (by omega)] at hj
        have hj' := (List.getElem?_eq_some_iff.mp hj)
        have hb' := (List.getElem?_eq_some_iff.mp hb)
        have := hnodup.getElem_inj_iff.mp (hj'.2.trans hb'.2.symm)
        omega

/-- A session goes on in its own blocks and in new ones: nobody else sees the rows it writes
there. -/
theorem Covered.extend (h : Covered e w) (hc : e.sessions id = some c)
    (hfull : e.requestInputIds id = some full) (hat : AtProgress e id c)
    (hx : Extends e.numLayers c c' e.pool p')
    (hw : ∀ l b j, w' l b j = w l b j
      ∨ ∃ i, c'.table[i]? = some b ∧ c.committedTokens < (i + 1) * blockSize)
    {progress : Option ℕ}
    (hf : c'.committedTokens = progress.getD 0 →
      Follows e.pool.prefixTree w' e.numLayers full c') :
    Covered { e with
      pool := p'
      sessions := update e.sessions id (some c')
      prefillProgress := update e.prefillProgress id progress } w' := by
  obtain ⟨ids, hd, ht⟩ := hx.draws
  have hquiet := h.quiet.draws hd
  have hopen := fun {i b : ℕ} => h.open_block (i := i) (b := b) hc hfull hat hd ht
  -- blocks with a node and those of other sessions keep their rows
  have htree : ∀ b, e.pool.prefixTree.HasBlock b → ∀ l j, w' l b j = w l b j := by
    intro b hb l j
    rcases hw l b j with heq | ⟨i, hi, hlt⟩
    · exact heq
    · exact absurd hb (hopen hi hlt).1
  have hother : ∀ id' c₁ b, id' ≠ id → e.sessions id' = some c₁ → b ∈ c₁.table →
      ∀ l j, w' l b j = w l b j := by
    intro id' c₁ b hne hc₁ hb l j
    rcases hw l b j with heq | ⟨i, hi, hlt⟩
    · exact heq
    · exact absurd hb ((hopen hi hlt).2.1 id' c₁ hne hc₁)
  have hrefs : ∀ b, e.pool.refCounts b ≠ none → p'.refCounts b ≠ none := by
    intro b hb hb'
    exact hb ((hd.refs b).mp hb').1
  refine ⟨h.layers_pos, ?_, hquiet.nodup, hquiet.free_ref, hquiet.onGpu, ?_, ?_, ?_, ?_, ?_⟩
  · show p'.prefixTree.blockSize = _
    rw [hd.tree]
    exact h.keySize
  · show p'.prefixTree.Grounded _
    rw [hd.tree]
    exact h.grounded.mono fun k b hb hr => hr.frame fun l _ j _ => htree b hb l j
  · intro b hb
    have hb : p'.prefixTree.HasBlock b := hb
    rw [hd.tree] at hb
    exact hrefs b (h.tree_ref b hb)
  · intro id' c₁ hc₁
    dsimp only at hc₁
    by_cases hid : id' = id
    · subst hid
      rw [update_self, Option.some.injEq] at hc₁
      subst hc₁
      obtain ⟨h1, h2, h3⟩ := h.seated _ c hc
      refine ⟨hx.cursors h1, hx.layers h2, ?_⟩
      intro b hb
      rw [ht] at hb
      rcases mem_append.mp hb with hb | hb
      · exact hrefs b (h3 b hb)
      · exact fun hnone => ((hd.refs b).mp hnone).2 hb
    · rw [update_of_ne hid] at hc₁
      obtain ⟨h1, h2, h3⟩ := h.seated _ c₁ hc₁
      exact ⟨h1, h2, fun b hb => hrefs b (h3 b hb)⟩
  · intro id' c₁ full₁ hc₁ hfull₁ hat₁
    unfold AtProgress at hat₁
    dsimp only at hc₁ hat₁
    show Follows p'.prefixTree _ _ _ _
    rw [hd.tree]
    by_cases hid : id' = id
    · subst hid
      rw [update_self, Option.some.injEq] at hc₁
      rw [update_self] at hat₁
      subst hc₁
      obtain rfl : full = full₁ := Option.some.inj (hfull.symm.trans hfull₁)
      exact hf hat₁
    · rw [update_of_ne hid] at hc₁ hat₁
      obtain ⟨h1, h2, h3, h4, h5, h6⟩ := h.follows id' c₁ full₁ hc₁ hfull₁ hat₁
      have hkeep : ∀ i b, c₁.table[i]? = some b → ∀ l j, w' l b j = w l b j :=
        fun i b hb => hother id' c₁ b hid hc₁ (mem_of_getElem? hb)
      refine ⟨h1, h2, ?_, ?_, h5, h6⟩
      · exact fun i b hb hle => (h3 i b hb hle).frame fun l _ j _ => hkeep i b hb l j
      · exact fun i b hb hlt j hj hlt' l hl =>
          (hkeep i b hb l j).trans (h4 i b hb hlt j hj hlt' l hl)
  · intro id₁ id₂ c₁ c₂ i b hne hc₁ hc₂ hids₁ hat₁ hb hlt
    unfold AtProgress at hat₁
    dsimp only at hc₁ hc₂ hat₁
    by_cases hid₁ : id₁ = id
    · subst hid₁
      rw [update_self, Option.some.injEq] at hc₁
      rw [update_of_ne hne.symm] at hc₂
      subst hc₁
      exact (hopen hb (lt_of_le_of_lt hx.committed hlt)).2.1 id₂ c₂ hne.symm hc₂
    · rw [update_of_ne hid₁] at hc₁ hat₁
      by_cases hid₂ : id₂ = id
      · subst hid₂
        rw [update_self, Option.some.injEq] at hc₂
        subst hc₂
        rw [ht, mem_append]
        rintro (hmem | hmem)
        · exact h.apart id₁ id₂ c₁ c i b hne hc₁ hc hids₁ hat₁ hb hlt hmem
        · exact (h.seated id₁ c₁ hc₁).refs b (mem_of_getElem? hb)
            (h.free_ref b (hd.free ▸ mem_append_left _ hmem))
      · rw [update_of_ne hid₂] at hc₂
        exact h.apart id₁ id₂ c₁ c₂ i b hne hc₁ hc₂ hids₁ hat₁ hb hlt

section Forward

variable {f : Forward} {a t : ℕ}

theorem Follows.layered {tree : RadixTree} (hf : Follows tree w L full c) {refs : ℕ → Option ℕ}
    (hs : Seated refs L c) (n : ℕ) : Layered c.committedTokens n 0 c := by
  refine ⟨?_, (if_pos rfl).symm, hs.cursors, Nat.zero_le _⟩
  intro j pos hj
  rw [if_neg (Nat.not_lt_zero j)]
  exact hf.cursor j pos hj

theorem Follows.start {tree : RadixTree} (hf : Follows tree w L full c) (l : ℕ) :
    c.layerCommittedTokens[l]?.getD c.committedTokens = c.committedTokens := by
  rcases hl : c.layerCommittedTokens[l]? with - | pos
  · rfl
  · exact hf.cursor l pos hl

theorem Follows.wrote {tree : RadixTree} (hf : Follows tree w L full c) (l b j : ℕ) :
    Engine.wrote c c' chunk w l b j = w l b j
      ∨ ∃ i, c'.table[i]? = some b ∧ c.committedTokens < (i + 1) * blockSize := by
  unfold Engine.wrote
  simp only [hf.start l]
  by_cases hex : ∃ pos, c.committedTokens ≤ pos ∧ c'.table[pos / blockSize]? = some b
  · obtain ⟨pos, hle, hb⟩ := hex
    refine .inr ⟨pos / blockSize, hb, ?_⟩
    unfold blockSize
    omega
  · refine .inl (wroteRows_frame ?_)
    intro i hi _ hb
    exact absurd ⟨i, hi, hb⟩ hex

theorem blocksFor_lt {i m : ℕ} (h : i * blockSize < m) : i < blocksFor m := by
  unfold blocksFor
  unfold blockSize at h ⊢
  omega

theorem Follows.kept {tree : RadixTree} (hf : Follows tree w L full c) {ids : List ℕ}
    (ht : c'.table = c.table ++ ids) {i b : ℕ} (hi : i * blockSize < c.committedTokens)
    (hb : c'.table[i]? = some b) : c.table[i]? = some b := by
  have hlt := lt_of_lt_of_le (blocksFor_lt hi) hf.room
  rwa [ht, getElem?_append_left hlt] at hb

theorem Covered.forward_ok (h : Covered e w) (hc : e.sessions id = some c)
    (hfull : e.requestInputIds id = some full) (hat : AtProgress e id c)
    (ht : c.committedTokens < t) (hlen : t ≤ full.length)
    (hchunk : chunk = (full.drop c.committedTokens).take (t - c.committedTokens))
    (hrun : f.run chunk e.numLayers 0 c e.pool = some (c', p', .ok ())) :
    Covered { e with
        pool := p'
        sessions := update e.sessions id (some c')
        prefillProgress := update e.prefillProgress id (some t) } (Engine.wrote c c' chunk w)
      ∧ c'.committedTokens = t ∧ c'.table.length ≤ max c.table.length (blocksFor t)
      ∧ e.pool.prefixTree = p'.prefixTree := by
  have hf := h.follows id c full hc hfull hat
  have hclen : chunk.length = t - c.committedTokens := by
    rw [hchunk, length_take, length_drop]
    omega
  have hpos : 0 < t - c.committedTokens := by omega
  have hne : chunk ≠ [] := by
    rintro rfl
    exact absurd hclen.symm hpos.ne'
  have hend : c.committedTokens + (t - c.committedTokens) = t := by omega
  have hx := Forward.run_extends hne h.quiet (Nat.zero_add e.numLayers).le hrun
  obtain ⟨hlay, htable, hroom⟩ :=
    (hf.layered (h.seated id c hc) _).run_ok hclen hpos h.quiet hrun
  rw [hend] at htable hroom
  have hroom := hroom rfl h.layers_pos
  have hcommitted : c'.committedTokens = t := by
    rw [hlay.committed, if_neg (by have := h.layers_pos; omega), hend]
  obtain ⟨ids, hd, hids⟩ := hx.draws
  have hopen := fun {i b : ℕ} => h.open_block (i := i) (b := b) hc hfull hat hd hids
  have hlayers : c'.layerCommittedTokens.length = e.numLayers := by
    have h1 := hlay.count
    have h2 := hlay.layers
    have h3 := hx.layers (h.seated id c hc).layers
    omega
  have hcursor : ∀ (l pos : ℕ), c'.layerCommittedTokens[l]? = some pos → pos = t := by
    intro l pos hl
    have hlt := (List.getElem?_eq_some_iff.mp hl).1
    rw [hlay.cursor l pos hl, if_pos (by omega), hend]
  have hwrote : ∀ l < e.numLayers,
      Engine.wrote c c' chunk w l = wroteRows c'.table c.committedTokens chunk (w l) := by
    intro l hl
    have hlt : l < c'.layerCommittedTokens.length := by omega
    have hstop := getElem?_eq_getElem hlt
    rw [hcursor l _ hstop] at hstop
    rw [wrote_layer (hf.start l) hstop, take_of_length_le hclen.le]
  -- a row before the chunk stays, as the blocks from there on stand in the table once
  have hbefore : ∀ l < e.numLayers, ∀ i b, c'.table[i]? = some b → ∀ j < blockSize,
      i * blockSize + j < c.committedTokens → Engine.wrote c c' chunk w l b j = w l b j := by
    intro l hl i b hb j hj hlt
    rw [hwrote l hl]
    refine wroteRows_frame ?_
    intro q hq _ hb' hmod
    have hi := (hopen hb' (by unfold blockSize; omega)).2.2 i hb
    unfold blockSize at hi hj hlt hmod
    omega
  have hrow : ∀ l < e.numLayers, ∀ i b, c'.table[i]? = some b →
      c.committedTokens < (i + 1) * blockSize → ∀ j < blockSize, i * blockSize + j < t →
      Engine.wrote c c' chunk w l b j = full[i * blockSize + j]? := by
    intro l hl i b hb hi j hj hlt
    by_cases hold : i * blockSize + j < c.committedTokens
    · rw [hbefore l hl i b hb j hj hold]
      exact hf.rows i b (hf.kept hids (by omega) hb) hi j hj hold l hl
    · have hq : c.committedTokens + (i * blockSize + j - c.committedTokens)
          = i * blockSize + j := by omega
      have hdiv : (i * blockSize + j) / blockSize = i := by
        unfold blockSize at hj ⊢
        omega
      have hmod : (i * blockSize + j) % blockSize = j := by
        unfold blockSize at hj ⊢
        omega
      have hlast : ∀ q, c.committedTokens + (i * blockSize + j - c.committedTokens) < q →
          q < c.committedTokens + chunk.length → c'.table[q / blockSize]? = some b →
          q % blockSize
            ≠ (c.committedTokens + (i * blockSize + j - c.committedTokens)) % blockSize := by
        intro q hq' _ hb' heq
        rw [hq] at hq' heq
        have := (hopen hb' (by unfold blockSize at hold ⊢; omega)).2.2 i hb
        unfold blockSize at hq' heq hj this
        omega
      have hat : wroteRows c'.table c.committedTokens chunk (w l) b
          ((c.committedTokens + (i * blockSize + j - c.committedTokens)) % blockSize)
          = chunk[i * blockSize + j - c.committedTokens]? :=
        wroteRows_at (by omega) (by rw [hq, hdiv]; exact hb) hlast
      rw [hq, hmod] at hat
      rw [hwrote l hl, hat, hchunk, getElem?_take_of_lt (by omega), getElem?_drop, hq]
  refine ⟨h.extend hc hfull hat hx (hf.wrote) fun _ => ⟨?_, ?_, ?_, ?_, ?_, ?_⟩, hcommitted, htable,
    hd.tree.symm⟩
  · rw [hcommitted]
    exact hcursor
  · rw [hcommitted]
    exact hroom
  · intro i b hb hi
    rw [hcommitted] at hi
    by_cases hold : (i + 1) * blockSize ≤ c.committedTokens
    · have hi' : i * blockSize < c.committedTokens := by
        unfold blockSize at hold ⊢
        omega
      refine (hf.filled i b (hf.kept hids hi' hb) hold).frame ?_
      intro l hl j hj
      refine hbefore l hl i b hb j hj ?_
      unfold blockSize at hold hj ⊢
      omega
    · refine ⟨promptBlock full i, ?_, rfl, ?_⟩
      · unfold promptBlock
        rw [length_take, length_drop]
        unfold blockSize at hi ⊢
        omega
      · intro l hl j hj
        rw [hrow l hl i b hb (by omega) j hj (by unfold blockSize at hi hj ⊢; omega)]
        unfold promptBlock
        rw [getElem?_take_of_lt hj, getElem?_drop]
  · intro i b hb hi j hj hlt l hl
    rw [hcommitted] at hi hlt
    exact hrow l hl i b hb (by omega) j hj hlt
  · intro i b hb hi
    rw [hcommitted] at hi
    exact (hopen hb (by omega)).1
  · intro i j b hbi hbj hj
    rw [hcommitted] at hj
    exact (hopen hbj (by omega)).2.2 i hbi

theorem Covered.forward_error (h : Covered e w) (hc : e.sessions id = some c)
    (hfull : e.requestInputIds id = some full) (hat : AtProgress e id c) (hchunk : chunk ≠ [])
    {err : String} (hrun : f.run chunk e.numLayers 0 c e.pool = some (c', p', .error err)) :
    Covered { e with pool := p', sessions := update e.sessions id (some c') }
      (Engine.wrote c c' chunk w) := by
  have hf := h.follows id c full hc hfull hat
  have hx := Forward.run_extends hchunk h.quiet (Nat.zero_add e.numLayers).le hrun
  obtain ⟨ids, hd, hids⟩ := hx.draws
  have hopen := fun {i b : ℕ} => h.open_block (i := i) (b := b) hc hfull hat hd hids
  have hfollows : c'.committedTokens = (e.prefillProgress id).getD 0 →
      Follows e.pool.prefixTree (Engine.wrote c c' chunk w) e.numLayers full c' := by
    intro hprog
    have hsame : c'.committedTokens = c.committedTokens := hprog.trans hat.symm
    rcases (hf.layered (h.seated id c hc) _).run_error rfl (length_pos_iff.mpr hchunk) h.quiet
      hrun with hlt | ⟨-, hcursor⟩
    · omega
    · rw [wrote_same fun l pos hl => by rw [hf.start l, hcursor l pos hl]]
      refine ⟨?_, ?_, ?_, ?_, ?_, ?_⟩
      · rw [hsame]
        exact hcursor
      · rw [hsame, hids, length_append]
        exact Nat.le_add_right_of_le hf.room
      · intro i b hb hi
        rw [hsame] at hi
        refine hf.filled i b (hf.kept hids ?_ hb) hi
        unfold blockSize at hi ⊢
        omega
      · intro i b hb hi j hj hlt l hl
        rw [hsame] at hi hlt
        exact hf.rows i b (hf.kept hids (by omega) hb) hi j hj hlt l hl
      · intro i b hb hi
        rw [hsame] at hi
        exact (hopen hb hi).1
      · intro i j b hbi hbj hj
        rw [hsame] at hj
        exact (hopen hbj hj).2.2 i hbi
  have hcov := h.extend hc hfull hat hx hf.wrote hfollows
  rwa [Function.update_eq_self] at hcov

end Forward

end Grim.Engine
