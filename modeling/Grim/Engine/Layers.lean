import Grim.Engine.Prefill
import Grim.Memory.Draws

/-!
# What a forward pass does to its session

Before layer `l` of a pass over `n` tokens the cursors of the layers above stand behind the chunk
and the others at its begin (`Layered`).  A pass that went through moved all of them; one that
failed moved the count of the tokens with the first layer, or wrote nothing.
-/

namespace Grim.Engine

open Memory PagedKvCache List

variable {f : Forward} {chunk : List UInt32} {c c' : PagedKvCache} {p p' : KvBlockPool}
  {res : Except String Unit} {L a n l : ℕ}

theorem Forward.run_extends (hchunk : chunk ≠ []) {m : ℕ} : ∀ {l : ℕ} {c : PagedKvCache}
    {p : KvBlockPool}, p.Quiet → l + m ≤ L → f.run chunk m l c p = some (c', p', res) →
    Extends L c c' p p' := by
  induction m with
  | zero =>
    intro l c p _ _ h
    cases h
    exact .refl L _ _
  | succ m ih =>
    intro l c p hq hl h
    unfold Forward.run at h
    split_ifs at h
    · cases h
      exact .refl L _ _
    · have happend : ∀ {c₁ p₁ res₁}, c.appendKvLayer (f.env l) l (f.k l chunk) (f.v l chunk) p
          = some (c₁, p₁, res₁) → Extends L c c₁ p p₁ := fun h₁ =>
        (appendKvLayer_extends hq (by omega) (Prod.ext (f.fits l chunk).1 rfl)
          (length_pos_iff.mpr hchunk) (f.fits l chunk).2 h₁).1
      rcases Outcome.andThen_cases h with ⟨c₁, p₁, h₁, h⟩ | ⟨h₁, -⟩
      · have he := happend h₁
        exact he.trans (ih (he.quiet hq) (by omega) h)
      · exact happend h₁

/-- The cursors before layer `l` of a pass over the `n` tokens from `a` on. -/
structure Layered (a n l : ℕ) (c : PagedKvCache) : Prop where
  cursor : ∀ j pos, c.layerCommittedTokens[j]? = some pos → pos = if j < l then a + n else a
  committed : c.committedTokens = if l = 0 then a else a + n
  count : c.layerCommittedTokens.length = c.kPages.length
  layers : l ≤ c.kPages.length

theorem Layered.grow (h : Layered a n l c) (stride : ℕ) :
    (c.growPages l n stride).layerCommittedTokens[l]? = some a
      ∧ ∀ j pos, (c.growPages l n stride).layerCommittedTokens[j]? = some pos →
        pos = if j < l then a + n else a := by
  have hlayers := h.layers
  have hcount := h.count
  have hnew : (if l = 0 then c.committedTokens else c.committedTokens - n) = a := by
    rw [h.committed]
    split_ifs <;> omega
  have hgrow : (c.growPages l n stride).layerCommittedTokens = c.layerCommittedTokens
      ++ if c.kPages.length = l then [a] else [] := by
    unfold growPages
    simp only []
    congr 1
    split_ifs with hl
    · rw [hl, Nat.add_sub_cancel_left]
      simp [hnew]
    · rw [show l + 1 - c.kPages.length = 0 by omega]
      rfl
  have hget : ∀ j pos, (c.growPages l n stride).layerCommittedTokens[j]? = some pos →
      pos = if j < l then a + n else a := by
    intro j pos hj
    rw [hgrow] at hj
    by_cases hlt : j < c.layerCommittedTokens.length
    · rw [getElem?_append_left hlt] at hj
      exact h.cursor j pos hj
    · rw [getElem?_append_right (by omega)] at hj
      split_ifs at hj with hl
      · rw [getElem?_singleton] at hj
        split_ifs at hj
        rw [if_neg (by omega)]
        exact (Option.some.inj hj).symm
      · simp at hj
  refine ⟨?_, hget⟩
  have hlt : l < (c.growPages l n stride).layerCommittedTokens.length := by
    rw [hgrow, length_append]
    split_ifs
    · rw [length_singleton]
      omega
    · omega
  rw [getElem?_eq_getElem hlt]
  refine congrArg some ?_
  have := hget l _ (getElem?_eq_getElem hlt)
  rwa [if_neg (lt_irrefl l)] at this

theorem Layered.append (h : Layered a n l c) (hq : p.Quiet) {env : Env} {k v : Tensor}
    {stride : ℕ} (hk : k.seqStride = (n, stride)) (hn : 0 < n) (hs : 0 < stride)
    (happ : c.appendKvLayer env l k v p = some (c', p', .ok ())) :
    Layered a n (l + 1) c' ∧ c'.table.length ≤ max c.table.length (blocksFor (a + n))
      ∧ (l = 0 → blocksFor (a + n) ≤ c'.table.length) := by
  obtain ⟨hx, hok, -⟩ := appendKvLayer_extends hq (Nat.lt_succ_self l) hk hn hs happ
  obtain ⟨hcommitted, hroom, htable, hcursor⟩ := hok rfl
  obtain ⟨hat, hget⟩ := h.grow stride
  have hcursor := hcursor a hat
  have hend : c'.committedTokens = a + n := by
    rw [hcommitted, h.committed]
    split_ifs <;> omega
  have hlt := (List.getElem?_eq_some_iff.mp hat).1
  rw [hend] at htable hroom
  have hcount := hx.cursors h.count
  refine ⟨⟨?_, ?_, hcount, ?_⟩, htable, hroom⟩
  · intro j pos hj
    rw [hcursor, getElem?_set] at hj
    by_cases hjl : l = j
    · rw [if_pos hjl] at hj
      split_ifs at hj
      rw [if_pos (by omega)]
      exact (Option.some.inj hj).symm
    · rw [if_neg hjl] at hj
      rw [hget j pos hj]
      by_cases hj' : j < l
      · rw [if_pos hj', if_pos (by omega)]
      · rw [if_neg hj', if_neg (by omega)]
  · rw [hend, if_neg (Nat.succ_ne_zero l)]
  · rw [← hcount, hcursor, length_set]
    exact hlt

theorem Layered.run_ok (hchunk : chunk.length = n) (hn : 0 < n) {m : ℕ} : ∀ {l : ℕ}
    {c : PagedKvCache} {p : KvBlockPool}, Layered a n l c → p.Quiet →
    f.run chunk m l c p = some (c', p', .ok ()) →
    Layered a n (l + m) c' ∧ c'.table.length ≤ max c.table.length (blocksFor (a + n))
      ∧ (l = 0 → 0 < m → blocksFor (a + n) ≤ c'.table.length) := by
  induction m with
  | zero =>
    intro l c p h _ hrun
    unfold Forward.run at hrun
    split_ifs at hrun <;> cases hrun
    exact ⟨h, le_max_left _ _, fun _ hm => absurd hm (lt_irrefl 0)⟩
  | succ m ih =>
    intro l c p h hq hrun
    have hne : chunk ≠ [] := by
      rintro rfl
      exact absurd hchunk.symm hn.ne'
    unfold Forward.run at hrun
    split_ifs at hrun
    · cases hrun
    · obtain ⟨c₁, p₁, h₁, hrun⟩ := Outcome.andThen_ok hrun
      obtain ⟨hlen, hs⟩ := f.fits l chunk
      rw [hchunk] at hlen
      have hx := (appendKvLayer_extends hq (Nat.lt_succ_self l) (Prod.ext hlen rfl) hn hs h₁).1
      obtain ⟨h₂, htable, hroom⟩ := h.append hq (Prod.ext hlen rfl) hn hs h₁
      obtain ⟨h₃, htable', -⟩ := ih h₂ (hx.quiet hq) hrun
      have hrest := Forward.run_extends (L := l + 1 + m) hne (hx.quiet hq) le_rfl hrun
      obtain ⟨ids, -, ht⟩ := hrest.draws
      refine ⟨?_, by omega, ?_⟩
      · rw [Nat.add_succ, ← Nat.succ_add]
        exact h₃
      · intro hl _
        rw [ht, length_append]
        exact Nat.le_add_right_of_le (hroom hl)

theorem Layered.run_error (hchunk : chunk.length = n) (hn : 0 < n) {m : ℕ} {err : String}
    (h : Layered a n 0 c) (hq : p.Quiet) (hrun : f.run chunk m 0 c p = some (c', p', .error err)) :
    a < c'.committedTokens ∨ c'.committedTokens = a
      ∧ ∀ (j pos : ℕ), c'.layerCommittedTokens[j]? = some pos → pos = a := by
  have hne : chunk ≠ [] := by
    rintro rfl
    exact absurd hchunk.symm hn.ne'
  have hcommitted : c.committedTokens = a := by simpa using h.committed
  have hsame : c.committedTokens = a
      ∧ ∀ (j pos : ℕ), c.layerCommittedTokens[j]? = some pos → pos = a :=
    ⟨hcommitted, fun j pos hj => by simpa using h.cursor j pos hj⟩
  cases m with
  | zero =>
    unfold Forward.run at hrun
    split_ifs at hrun <;> cases hrun
    exact .inr hsame
  | succ m =>
    unfold Forward.run at hrun
    split_ifs at hrun
    · cases hrun
      exact .inr hsame
    · obtain ⟨hlen, hs⟩ := f.fits 0 chunk
      rw [hchunk] at hlen
      rcases Outcome.andThen_cases hrun with ⟨c₁, p₁, h₁, hrun⟩ | ⟨h₁, -⟩
      · -- the first layer counted the chunk, and what follows does not go back
        have hx := (appendKvLayer_extends hq Nat.one_pos (Prod.ext hlen rfl) hn hs h₁).1
        obtain ⟨h₂, -⟩ := h.append hq (Prod.ext hlen rfl) hn hs h₁
        have hrest := Forward.run_extends (L := 1 + m) hne (hx.quiet hq) (by omega) hrun
        have hle := hrest.committed
        rw [h₂.committed, if_neg (by omega)] at hle
        omega
      · obtain ⟨-, -, herr⟩ := appendKvLayer_extends hq Nat.one_pos (Prod.ext hlen rfl) hn hs h₁
        rcases herr (by simp) rfl with hlt | ⟨heq, hcur⟩
        · rw [hcommitted] at hlt
          exact .inl hlt
        · refine .inr ⟨heq.trans hcommitted, ?_⟩
          intro j pos hj
          rw [hcur] at hj
          simpa using (h.grow _).2 j pos hj

end Grim.Engine
