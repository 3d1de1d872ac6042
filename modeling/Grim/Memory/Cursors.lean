import Grim.Memory.Draws
import Grim.Memory.PagedList
import Grim.Memory.Writes

/-!
# Where the first layer writes next

An append moves the cursor of its own layer behind the rows it wrote; reservations and releases
leave the cursors alone.
-/

namespace Grim.Memory

open KvTransport

namespace PagedKvCache

variable {c c' : PagedKvCache} {p p' : KvBlockPool} {env : Env} {res : Except String Unit}
  {l n stride : ℕ}

def firstCursor (c : PagedKvCache) : Option ℕ := (c.growPages 0 1 1).layerCommittedTokens[0]?

theorem growPages_firstCursor :
    (c.growPages 0 n stride).layerCommittedTokens[0]? = c.firstCursor := by
  unfold firstCursor growPages
  simp only [Nat.zero_add]
  congr 2
  refine List.map_congr_left fun i hi => ?_
  obtain rfl : i = 0 := by
    have := List.mem_range'_1.1 hi
    omega
  rfl

theorem reserve_table : ∀ {n k : ℕ} {c : PagedKvCache} {p : KvBlockPool},
    reserve env n k c p = some (c', p', res) → ∃ ids, c' = { c with table := c.table ++ ids }
  | 0, _, c, _, h => by
    cases h
    exact ⟨[], by simp⟩
  | n + 1, k, c, p, h => by
    unfold reserve at h
    obtain ⟨⟨q, id⟩, -, h⟩ := Option.bind_eq_some_iff.1 h
    dsimp only at h
    split at h
    · cases h
      exact ⟨[], by simp⟩
    · rename_i id'
      obtain ⟨ids, rfl⟩ := reserve_table h
      exact ⟨id' :: ids, by simp⟩

theorem appendSlot_cursors {k : ℕ} (h : c.appendSlot env k p = some (c', p', res)) :
    c'.layerCommittedTokens = c.layerCommittedTokens := by
  unfold appendSlot at h
  dsimp only at h
  split_ifs at h
  · obtain ⟨ids, rfl⟩ := reserve_table h
    rfl
  · cases h
    rfl

theorem writeTokens_cursors {reserved : ℕ} {k v : List UInt32} : ∀ {n t : ℕ} {c : PagedKvCache}
    {p : KvBlockPool}, writeTokens env reserved l stride k v n t c p = some (c', p', .ok ()) →
      0 < n → ∃ pos, c.layerCommittedTokens[l]? = some pos ∧
        c'.layerCommittedTokens = c.layerCommittedTokens.set l (pos + n)
  | n + 1, t, c, p, h, _ => by
    unfold writeTokens at h
    obtain ⟨c₂, p₂, htoken, hrest⟩ := Outcome.andThen_ok h
    obtain ⟨c₁, p₁, hslot, hwrite⟩ := Outcome.andThen_ok htoken
    have hcur₁ : c₁.layerCommittedTokens = c.layerCommittedTokens := by
      split_ifs at hslot
      · exact appendSlot_cursors hslot
      · cases hslot
        rfl
    obtain ⟨-, -, -, hset⟩ := writeToken_extends (L := l) hwrite
    obtain ⟨pos, hpos, hcur₂⟩ := hset rfl
    rw [hcur₁] at hpos hcur₂
    refine ⟨pos, hpos, ?_⟩
    rcases Nat.eq_zero_or_pos n with rfl | hn
    · cases hrest
      exact hcur₂
    · obtain ⟨pos', hpos', hcur⟩ := writeTokens_cursors hrest hn
      have hlt := (List.getElem?_eq_some_iff.1 hpos).1
      rw [hcur₂, List.getElem?_set_self hlt, Option.some.injEq] at hpos'
      rw [hcur, hcur₂, List.set_set, ← hpos']
      congr 1
      omega

theorem appendKvLayer_cursors {k v : Tensor} (hk : k.seqStride = (n, stride)) (hn : 0 < n)
    (hs : 0 < stride) (h : c.appendKvLayer env l k v p = some (c', p', .ok ())) :
    ∃ pos, (c.growPages l n stride).layerCommittedTokens[l]? = some pos ∧
      c'.layerCommittedTokens = (c.growPages l n stride).layerCommittedTokens.set l (pos + n) := by
  unfold appendKvLayer at h
  rw [hk] at h
  dsimp only at h
  rw [if_neg (by omega)] at h
  obtain ⟨c₁, p₁, hreserve, h⟩ := Outcome.andThen_ok h
  obtain ⟨ids, rfl⟩ := reserve_table hreserve
  split at h
  · cases h
  · rename_i c₂ hhyd
    obtain ⟨c₃, p₃, hwrite, hcheck⟩ := Outcome.andThen_ok h
    obtain ⟨pos, hpos, hcur⟩ := writeTokens_cursors hwrite hn
    rw [(hydrateSeededLayerFromPool_plan hhyd).cursors] at hpos hcur
    rw [← (checkAndRepromoteBlocks_plan hcheck).1.cursors] at hcur
    exact ⟨pos, hpos, hcur⟩

theorem appendKvLayer_first {k v : Tensor} (hk : k.seqStride = (n, stride)) (hn : 0 < n)
    (hs : 0 < stride) (h : c.appendKvLayer env 0 k v p = some (c', p', .ok ())) :
    ∃ pos, c.firstCursor = some pos ∧ c'.layerCommittedTokens[0]? = some (pos + n) := by
  obtain ⟨pos, hpos, hcur⟩ := appendKvLayer_cursors hk hn hs h
  have hlt := (List.getElem?_eq_some_iff.1 hpos).1
  rw [growPages_firstCursor] at hpos
  exact ⟨pos, hpos, by rw [hcur, List.getElem?_set_self hlt]⟩

theorem appendKvLayer_other {k v : Tensor} {pos : ℕ} (hl : 0 < l) (hk : k.seqStride = (n, stride))
    (hn : 0 < n) (hs : 0 < stride) (h : c.appendKvLayer env l k v p = some (c', p', .ok ()))
    (hpos : c.layerCommittedTokens[0]? = some pos) : c'.layerCommittedTokens[0]? = some pos := by
  obtain ⟨pos', -, hcur⟩ := appendKvLayer_cursors hk hn hs h
  have hlt := (List.getElem?_eq_some_iff.1 hpos).1
  rw [hcur, List.getElem?_set_ne hl.ne', growPages]
  dsimp only
  rw [List.getElem?_append_left hlt, hpos]

theorem tentativeAppend_firstCursor (h : c.tentativeAppend env n p = some (c', p', .ok ())) :
    c'.firstCursor = c.firstCursor := by
  unfold tentativeAppend at h
  split_ifs at h
  · cases h
    rfl
  · obtain ⟨c₁, p₁, hreserve, hrest⟩ := Outcome.andThen_ok h
    obtain ⟨ids, rfl⟩ := reserve_table hreserve
    cases hrest
    rfl

theorem commit_cursors {io : ℕ → Except String Unit} {accepted : ℕ}
    (h : c.commit io accepted p = some (c', p')) :
    c'.layerCommittedTokens = c.layerCommittedTokens := by
  rw [Session.dropBlocks_table _ h]

end PagedKvCache

end Grim.Memory
