import Grim.Memory.Copies
import Grim.Memory.PagedRows

/-!
# Promotions and writes

A promotion puts nothing into a block without a copy, and no call but a demotion gives a block one:
not a promotion, a write or a change of the capacity.
-/

namespace Grim.Memory

open KvTransport LocalSpillManager
open Function (update update_self update_of_ne)

namespace KvBlockPool

variable {p q r : KvBlockPool} {s s' : LocalSpillManager} {id b : ℕ} {ids ids' : List ℕ}
  {io : Except String Unit}

section Promotion

variable {k v : List UInt32} {res : Except String (Option (List UInt32 × List UInt32))}

theorem install_alike (h : p.install id k v = some (q, res)) :
    Alike p q ∧ q.spill = p.spill ∧ ∀ b, b ≠ id → q.blocks b = p.blocks b := by
  simp only [install] at h
  split_ifs at h with hlen helem <;> cases h
  · exact ⟨⟨rfl, rfl, rfl, fun hz => hz⟩, rfl, fun _ _ => rfl⟩
  · have hlen : k.length = (p.blocks id).keyData.length
        ∧ v.length = (p.blocks id).valueData.length := by
      simpa using hlen
    refine ⟨⟨rfl, rfl, rfl, ?_⟩, rfl, fun b hb => by simp [modify, hb]⟩
    intro hz
    have hm : Alike p (p.modify id fun b => { b with
        keyData := k
        valueData := v
        numTokens := min (k.length / (p.numHeads * p.headDim)) blockSize
        received := true
        location := .gpu }) := modify_alike hlen
    exact hm.sized hz

theorem install_misfit (hz : p.Sized) (hmis : ¬ (k.length = p.blockElem ∧ v.length = p.blockElem))
    (h : p.install id k v = some (q, res)) : q = p ∧ ∀ copy, res ≠ .ok (some copy) := by
  obtain ⟨hk, hv⟩ := hz id
  have hlen : k.length ≠ (p.blocks id).keyData.length ∨ v.length ≠ (p.blocks id).valueData.length :=
    by rw [hk, hv]; tauto
  simp only [install, if_pos hlen] at h
  cases h
  exact ⟨rfl, by simp⟩

theorem promoteToGpu_none (hs : p.spill = none) (h : p.promoteToGpu id = some (q, res)) :
    q = p ∧ res = .ok none := by
  unfold promoteToGpu at h
  rw [hs] at h
  cases h
  exact ⟨rfl, rfl⟩

theorem promoteToGpu_some (hs : p.spill = some s) (h : p.promoteToGpu id = some (q, res)) :
    (q = { p with spill := some (s.promote id).1 } ∧ (∀ copy, res ≠ .ok (some copy)))
      ∨ ∃ copy k v, (s.promote id).2 = .ok (some copy) ∧ p.decoded copy = some (k, v)
        ∧ { p with spill := some (s.promote id).1 }.install id k v = some (q, res) := by
  unfold promoteToGpu at h
  rw [hs] at h
  dsimp only at h
  split at h
  · cases h
    exact .inl ⟨rfl, by simp⟩
  · cases h
    exact .inl ⟨rfl, by simp⟩
  · rename_i k v hread
    split_ifs at h
    exact .inr ⟨_, k, v, hread, rfl, h⟩
  · rename_i blob hread
    split at h
    · cases h
      exact .inl ⟨rfl, by simp⟩
    · rename_i c hc
      split at h
      · cases h
        exact .inl ⟨rfl, by simp⟩
      · rename_i k v hd
        split_ifs at h
        refine .inr ⟨_, k, v, hread, ?_, h⟩
        simp [decoded, show p.compressor = some c from hc, hd, Except.toOption]

theorem promoteToGpu_alike (h : p.promoteToGpu id = some (q, res)) :
    Alike p q ∧ q.spill = p.spill.map (fun s => (s.promote id).1)
      ∧ ∀ b, b ≠ id → q.blocks b = p.blocks b := by
  rcases hs : p.spill with - | s
  · obtain ⟨rfl, -⟩ := promoteToGpu_none hs h
    exact ⟨⟨rfl, rfl, rfl, fun hz => hz⟩, hs, fun _ _ => rfl⟩
  · rcases promoteToGpu_some hs h with ⟨rfl, -⟩ | ⟨copy, k, v, -, -, hi⟩
    · exact ⟨spill_alike, rfl, fun _ _ => rfl⟩
    · obtain ⟨ha, hq, hb⟩ := install_alike hi
      exact ⟨spill_alike.trans ha, hq, hb⟩

theorem promoteToGpu_without_copy (hz : p.Sized) (hc : p.copyFor id = none)
    (h : p.promoteToGpu id = some (q, res)) :
    q.blocks = p.blocks ∧ ∀ copy, res ≠ .ok (some copy) := by
  rcases hs : p.spill with - | s
  · obtain ⟨rfl, rfl⟩ := promoteToGpu_none hs h
    exact ⟨rfl, by simp⟩
  · rcases promoteToGpu_some hs h with ⟨rfl, hr⟩ | ⟨copy, k, v, hread, hdec, hi⟩
    · exact ⟨rfl, hr⟩
    · have hmis : ¬ (k.length = p.blockElem ∧ v.length = p.blockElem) := by
        intro hfit
        simp [copyFor, hs, hread, hdec, hfit] at hc
      obtain ⟨rfl, hr⟩ := install_misfit (spill_alike.sized hz) hmis hi
      exact ⟨rfl, hr⟩

theorem promoteToGpu_reads {copy : Promotion} (hs : p.spill = some s) (hlt : id < p.numBlocks)
    (hread : (s.promote id).2 = .ok (some copy)) (hdec : p.decoded copy = some (k, v)) :
    p.promoteToGpu id = { p with spill := some (s.promote id).1 }.install id k v := by
  unfold promoteToGpu
  rw [hs]
  simp only [hread]
  rcases copy with blob | ⟨k', v'⟩
  · obtain ⟨c, hcomp, hd⟩ := Option.bind_eq_some_iff.mp hdec
    rcases hdq : c.dequantize blob with e | ⟨k', v'⟩
    · simp [hdq, Except.toOption] at hd
    · obtain ⟨rfl, rfl⟩ : k' = k ∧ v' = v := by simpa [hdq, Except.toOption] using hd
      rw [hcomp]
      simp only [hdq, if_neg (Nat.not_le.mpr hlt)]
  · obtain ⟨rfl, rfl⟩ : k' = k ∧ v' = v := by simpa [decoded] using hdec
    simp only [if_neg (Nat.not_le.mpr hlt)]

theorem install_fits (p : KvBlockPool) (id : ℕ) (hk : k.length = (p.blocks id).keyData.length)
    (hv : v.length = (p.blocks id).valueData.length) (helem : 0 < p.numHeads * p.headDim) :
    ∃ q, p.install id k v = some (q, .ok (some (k, v))) ∧ q.blocks id = { p.blocks id with
      keyData := k
      valueData := v
      numTokens := min (k.length / (p.numHeads * p.headDim)) blockSize
      received := true
      location := .gpu } := by
  have hfits : ¬ (k.length ≠ (p.blocks id).keyData.length
      ∨ v.length ≠ (p.blocks id).valueData.length) := by omega
  simp only [install, if_neg hfits, if_neg helem.ne']
  exact ⟨_, rfl, by simp [modify]⟩

theorem promoteToGpu_demotes (h : p.promoteToGpu id = some (q, res)) : Demotes p q [] := by
  obtain ⟨ha, hq, -⟩ := promoteToGpu_alike h
  rcases hs : p.spill with - | s <;> rw [hs] at hq
  · exact ha.demotes (hq.trans hs.symm)
  · have ht := ha.demotes_touches hs hq promote_touches
    refine ⟨ht.own, ht.sized, ?_⟩
    intro ho hz b _ hc
    by_cases hb : b = id
    · subst hb
      rw [ha.copyFor hs hq promote_twice, hc]
    · exact ht.copy ho hz b (by simpa using hb) hc

theorem promoteToGpu_keeps (hz : p.Sized) (hc : p.copyFor b = none)
    (h : p.promoteToGpu id = some (q, res)) : q.blocks b = p.blocks b := by
  by_cases hb : b = id
  · subst hb
    rw [(promoteToGpu_without_copy hz hc h).1]
  · exact (promoteToGpu_alike h).2.2 b hb

end Promotion

theorem promoteAll_demotes {blocks : List ℕ} : ∀ {p q : KvBlockPool} {d : Bool},
    promoteAll blocks p = some (q, d) → Demotes p q []
      ∧ (p.OwnFiles → p.Sized → ∀ b, p.copyFor b = none → q.blocks b = p.blocks b) := by
  induction blocks with
  | nil =>
    intro p q d h
    cases h
    exact ⟨.refl p, fun _ _ _ _ => rfl⟩
  | cons bid blocks ih =>
    intro p q d h
    unfold promoteAll at h
    split_ifs at h
    · exact ih h
    · obtain ⟨⟨r, copy⟩, hr, h⟩ := Option.bind_eq_some_iff.mp h
      obtain ⟨⟨r', d'⟩, hr', hq⟩ := Option.map_eq_some_iff.mp h
      cases hq
      obtain ⟨hd, hb⟩ := ih hr'
      have hd' := promoteToGpu_demotes hr
      refine ⟨hd'.trans hd, fun ho hz b hc => ?_⟩
      rw [hb (hd'.own ho) (hd'.sized hz) b (hd'.copy ho hz b (by simp) hc)]
      exact promoteToGpu_keeps hz hc hr

theorem matchPrefixPromoting_demotes {tokens : List UInt32} {res : List ℕ × ℕ × Bool}
    (h : p.matchPrefixPromoting tokens = some (q, res)) : Demotes p q []
      ∧ (p.OwnFiles → p.Sized → ∀ b, p.copyFor b = none → q.blocks b = p.blocks b) := by
  obtain ⟨⟨r, d⟩, hr, hq⟩ := Option.map_eq_some_iff.mp h
  cases hq
  exact promoteAll_demotes hr

/-- The blocks of a flush that it copies: those on the GPU, up to the first that fails. -/
def flushed (p : KvBlockPool) : List ℕ → LocalSpillManager → List ℕ
  | [], _ => []
  | id :: ids, s =>
    if id < p.numBlocks ∧ (p.blocks id).location = .gpu then
      match s.demoteToHost id (p.blocks id).keyData (p.blocks id).valueData with
      | (_, .error _) => []
      | (s, .ok ()) => id :: flushed p ids s
    else flushed p ids s

def flushDemotes (p : KvBlockPool) (order : List ℕ) : List ℕ :=
  match p.spill with
  | none => []
  | some s => p.flushed (p.drained order) s

theorem flushAll_touches : ∀ {s : LocalSpillManager},
    Touches s (p.flushAll ids s).1 (p.flushed ids s) := by
  induction ids with
  | nil => exact fun {s} => .refl s
  | cons id ids ih =>
    intro s
    unfold flushAll flushed
    split_ifs
    · have ht :
          Touches s (s.demoteToHost id (p.blocks id).keyData (p.blocks id).valueData).1 [id] :=
        run_touches (.demoteToHost id _ _)
      rcases hr : s.demoteToHost id (p.blocks id).keyData (p.blocks id).valueData with ⟨s', e | ⟨⟩⟩
      · rw [demoteToHost_error hr]
        exact .refl s
      · rw [hr] at ht
        exact (ht.mono (by simp)).trans (ih.mono (List.subset_cons_self _ _))
    · exact ih

theorem flushDirtyToHost_demotes {order : List ℕ} :
    Demotes p (p.flushDirtyToHost order).1 (p.flushDemotes order) := by
  unfold flushDirtyToHost flushDemotes
  rcases hs : p.spill with - | s
  · exact .of_same ⟨rfl, rfl, rfl, rfl, hs.symm⟩
  · exact Alike.demotes_touches ⟨rfl, rfl, rfl, fun hz => hz⟩ hs rfl flushAll_touches

theorem putDirty_alike {c : KvBlock} (hc : c.keyData.length = (p.blocks id).keyData.length
    ∧ c.valueData.length = (p.blocks id).valueData.length) : Alike p (p.putDirty id c) := by
  have h : Alike p (p.modify id fun _ => c) := modify_alike hc
  exact ⟨rfl, rfl, rfl, fun hz => h.sized hz⟩

theorem writeKeys_demotes {keys : List UInt32} {n : ℕ} (h : p.writeKeys id keys n = some q) :
    Demotes p q [] := by
  unfold writeKeys at h
  split_ifs at h
  obtain ⟨data, hd, rfl⟩ := Option.map_eq_some_iff.mp h
  refine Alike.demotes (putDirty_alike ?_) rfl
  exact ⟨Slice.length_write hd, rfl⟩

theorem writeValues_demotes {values : List UInt32} (h : p.writeValues id values = some q) :
    Demotes p q [] := by
  unfold writeValues at h
  split_ifs at h
  obtain ⟨data, hd, rfl⟩ := Option.map_eq_some_iff.mp h
  refine Alike.demotes (putDirty_alike ?_) rfl
  exact ⟨rfl, Slice.length_write hd⟩

theorem tryWriteLayer_demotes {fn : String} {first : KvBlock → Option KvBlock}
    {layers : KvBlock → List (List UInt32)} {setLayers : KvBlock → List (List UInt32) → KvBlock}
    {layer : ℕ} {row : List UInt32} {res : Except String Unit}
    (hfirst : ∀ c c', first c = some c' → c'.keyData.length = c.keyData.length
      ∧ c'.valueData.length = c.valueData.length)
    (hset : ∀ c l, (setLayers c l).keyData = c.keyData ∧ (setLayers c l).valueData = c.valueData)
    (h : p.tryWriteLayer fn first layers setLayers id layer row = some (q, res)) :
    Demotes p q [] := by
  simp only [tryWriteLayer] at h
  split_ifs at h
  · cases h
    exact .refl p
  · cases h
    exact .refl p
  · obtain ⟨c, hc, hq⟩ := Option.map_eq_some_iff.mp h
    cases hq
    exact (putDirty_alike (hfirst _ _ hc)).demotes rfl
  · obtain ⟨c, hc, hq⟩ := Option.map_eq_some_iff.mp h
    cases hq
    obtain ⟨data, -, rfl⟩ := Option.map_eq_some_iff.mp hc
    refine (putDirty_alike ?_).demotes rfl
    rw [(hset _ _).1, (hset _ _).2]
    exact ⟨rfl, rfl⟩

theorem tryWriteLayerKeys_demotes {layer n : ℕ} {keys : List UInt32} {res : Except String Unit}
    (h : p.tryWriteLayerKeys id layer keys n = some (q, res)) : Demotes p q [] := by
  unfold tryWriteLayerKeys at h
  refine tryWriteLayer_demotes ?_ ?_ h
  · intro c c' hc
    obtain ⟨data, hd, rfl⟩ := Option.map_eq_some_iff.mp hc
    exact ⟨Slice.length_write hd, rfl⟩
  · exact fun _ _ => ⟨rfl, rfl⟩

theorem tryWriteLayerValues_demotes {layer : ℕ} {values : List UInt32} {res : Except String Unit}
    (h : p.tryWriteLayerValues id layer values = some (q, res)) : Demotes p q [] := by
  unfold tryWriteLayerValues at h
  refine tryWriteLayer_demotes ?_ ?_ h
  · intro c c' hc
    obtain ⟨data, hd, rfl⟩ := Option.map_eq_some_iff.mp hc
    exact ⟨rfl, Slice.length_write hd⟩
  · exact fun _ _ => ⟨rfl, rfl⟩

theorem tryWriteLayerPacked_alike {layer n : ℕ} {format : UInt16} {bytes : List UInt8} :
    Alike p (p.tryWriteLayerPacked id layer format bytes n).1
      ∧ (p.tryWriteLayerPacked id layer format bytes n).1.spill = p.spill := by
  unfold tryWriteLayerPacked
  split_ifs
  · exact ⟨⟨rfl, rfl, rfl, fun hz => hz⟩, rfl⟩
  · refine ⟨⟨rfl, rfl, rfl, fun hz => ?_⟩, rfl⟩
    have h : Alike p (p.modify id fun b => { b with
        layerPacked := (b.layerPacked ++
          List.replicate (layer + 1 - b.layerPacked.length) none).set layer
            (some (.packed format bytes))
        numTokens := min n blockSize
        received := true }) := modify_alike ⟨rfl, rfl⟩
    exact h.sized hz

section Store

variable {layer within n : ℕ} {k v : List UInt32}
  {quantize : List UInt32 → Option (UInt16 × List UInt8)}

theorem storeFirst_alike (h : p.storeFirst id within k v n = some q) : Alike p q := by
  simp only [storeFirst] at h
  split_ifs at h
  · obtain ⟨keys, hk, h⟩ := Option.bind_eq_some_iff.mp h
    obtain ⟨values, hv, rfl⟩ := Option.map_eq_some_iff.mp h
    exact modify_alike ⟨Slice.length_write hk, Slice.length_write hv⟩
  · cases h
    exact ⟨rfl, rfl, rfl, fun hz => hz⟩

theorem storeLayer_alike (h : p.storeLayer id layer within k v = some q) : Alike p q := by
  have hgrown : Alike p (p.modify id fun b => { b with
      layerKeys := growLayers (blockSize * p.numHeads * p.headDim) layer b.layerKeys
      layerValues := growLayers (blockSize * p.numHeads * p.headDim) layer b.layerValues }) :=
    modify_alike ⟨rfl, rfl⟩
  simp only [storeLayer] at h
  split_ifs at h
  · obtain ⟨keys, -, h⟩ := Option.bind_eq_some_iff.mp h
    obtain ⟨values, -, rfl⟩ := Option.map_eq_some_iff.mp h
    exact hgrown.trans (modify_alike ⟨rfl, rfl⟩)
  · cases h
    exact hgrown

theorem storePacked_alike : Alike p (p.storePacked id layer quantize) := by
  rcases p.storePacked_cases id layer quantize with heq | ⟨format, bytes, n, heq⟩ <;> rw [heq]
  · exact ⟨rfl, rfl, rfl, fun hz => hz⟩
  · exact tryWriteLayerPacked_alike.1

theorem storeToken_demotes (h : p.storeToken id layer within k v n quantize = some q) :
    Demotes p q [] := by
  have hspill := PagedKvCache.storeToken_spill h
  unfold storeToken at h
  split at h
  · cases h
  · obtain ⟨r, hr, rfl⟩ := Option.map_eq_some_iff.mp h
    refine Alike.demotes ?_ hspill
    refine Alike.trans ?_ storePacked_alike
    split at hr
    · exact storeFirst_alike hr
    · exact storeLayer_alike hr

end Store

theorem setReceived_demotes {received : Bool} : Demotes p (p.setReceived id received) [] := by
  unfold setReceived
  split
  · exact (modify_alike ⟨rfl, rfl⟩).demotes rfl
  · exact .refl p

theorem markDirty_demotes : Demotes p (p.markDirty id) [] := by
  unfold markDirty
  split_ifs
  · exact .of_same ⟨rfl, rfl, rfl, rfl, rfl⟩
  · exact .refl p

theorem shrink_demotes {n : ℕ} : ∀ {p : KvBlockPool}, Demotes p (shrink n p) [] := by
  induction n with
  | zero => exact fun {p} => .refl p
  | succ n ih =>
    intro p
    unfold shrink
    split_ifs
    · have hpop : Demotes p { p with
          freeList := p.freeList.erase (p.numBlocks - 1)
          numBlocks := p.numBlocks - 1 } [] := .of_same ⟨rfl, rfl, rfl, rfl, rfl⟩
      exact hpop.trans ih
    · exact .refl p

theorem resizeCapacity_demotes {newCapacity : ℕ} :
    Demotes p (p.resizeCapacity newCapacity) [] := by
  unfold resizeCapacity
  split_ifs
  · refine Alike.demotes ⟨rfl, rfl, rfl, fun hz b => ?_⟩ rfl
    dsimp only
    split_ifs
    · exact hz b
    · simp [KvBlock.fresh, blockElem]
  · exact shrink_demotes

theorem addRefs_demotes {blocks : List ℕ} : ∀ {p : KvBlockPool},
    Demotes p (blocks.foldl (fun p b => p.addRef b) p) [] := by
  induction blocks with
  | nil => exact fun {p} => .refl p
  | cons bid blocks ih =>
    intro p
    have href : Demotes p (p.addRef bid) [] := .of_same ⟨rfl, rfl, rfl, rfl, rfl⟩
    exact href.trans ih

theorem resetPrefixCache_demotes {now : ℕ} : Demotes p (p.resetPrefixCache now).1 [] := by
  refine Alike.demotes ⟨rfl, rfl, rfl, fun hz b => ?_⟩ rfl
  dsimp only [resetPrefixCache]
  split_ifs
  · exact hz b
  · exact hz b

end KvBlockPool

open KvBlockPool Slice

namespace PagedKvCache

variable {c c' c'' : PagedKvCache} {p q : KvBlockPool} {b bid elems : ℕ} {res : Except String Unit}

/-- Block `b` of `elems` numbers has the same content in every layer. -/
def SamePages (c c' : PagedKvCache) (elems b : ℕ) : Prop :=
  ∀ l, slice (c'.kPages.getD l []) (b * elems) elems = slice (c.kPages.getD l []) (b * elems) elems
    ∧ slice (c'.vPages.getD l []) (b * elems) elems = slice (c.vPages.getD l []) (b * elems) elems

theorem SamePages.refl (c : PagedKvCache) (elems b : ℕ) : SamePages c c elems b :=
  fun _ => ⟨rfl, rfl⟩

theorem SamePages.trans (h : SamePages c c' elems b) (h' : SamePages c' c'' elems b) :
    SamePages c c'' elems b :=
  fun l => ⟨(h' l).1.trans (h l).1, (h' l).2.trans (h l).2⟩

theorem slice_set_write {pages : List (List UInt32)} {l : ℕ} {row page : List UInt32}
    (hb : b ≠ bid) (hlen : row.length ≤ elems)
    (h : write (pages.getD l []) (bid * elems) row = some page) (j : ℕ) :
    slice ((pages.set l page).getD j []) (b * elems) elems
      = slice (pages.getD j []) (b * elems) elems := by
  have hd : b * elems + elems ≤ bid * elems ∨ bid * elems + row.length ≤ b * elems := by
    rcases Nat.lt_or_gt_of_ne hb with hlt | hlt
    · left
      have := Nat.mul_le_mul_right elems (Nat.succ_le_of_lt hlt)
      rwa [Nat.succ_mul] at this
    · right
      have := Nat.mul_le_mul_right elems (Nat.succ_le_of_lt hlt)
      rw [Nat.succ_mul] at this
      omega
  by_cases hj : j = l
  · subst hj
    by_cases hlt : j < pages.length
    · have hset : (pages.set j page).getD j [] = page := by simp [hlt]
      rw [hset]
      exact slice_write_of_disjoint h hd
    · rw [List.set_eq_of_length_le (by omega)]
  · have hset : (pages.set l page).getD j [] = pages.getD j [] := by
      simp [List.getElem?_set_ne (Ne.symm hj)]
    rw [hset]

theorem copyPromoted_pages {k v : List UInt32} (hb : b ≠ bid) : ∀ {n : ℕ} {c' : PagedKvCache},
    copyPromoted p bid elems k v n c = some c' → SamePages c c' elems b := by
  intro n
  induction n with
  | zero =>
    intro c' h
    cases h
    exact .refl c elems b
  | succ l ih =>
    intro c' h
    obtain ⟨d, hd, h⟩ := Option.bind_eq_some_iff.mp h
    refine (ih hd).trans ?_
    have hput : ∀ {kRow vRow : List UInt32}, kRow.length ≤ elems → vRow.length ≤ elems →
        ((write (d.kPages.getD l []) (bid * elems) kRow).bind fun kPage =>
          (write (d.vPages.getD l []) (bid * elems) vRow).map fun vPage =>
            { d with kPages := d.kPages.set l kPage, vPages := d.vPages.set l vPage }) = some c' →
        SamePages d c' elems b := by
      intro kRow vRow hk hv h
      obtain ⟨kPage, hkp, h⟩ := Option.bind_eq_some_iff.mp h
      obtain ⟨vPage, hvp, rfl⟩ := Option.map_eq_some_iff.mp h
      exact fun j => ⟨slice_set_write hb hk hkp j, slice_set_write hb hv hvp j⟩
    have htake : ∀ xs : List UInt32, (xs.take elems).length ≤ elems := fun xs => by simp
    dsimp only at h
    split at h
    · split at h
      · exact hput (htake _) (htake _) h
      · split at h
        · split at h
          · cases h
          · exact hput (htake _) (htake _) h
        · cases h
          exact .refl _ elems b
    · cases h
      exact .refl _ elems b

theorem repromote_demotes {blocks : List ℕ} : ∀ {c : PagedKvCache} {p : KvBlockPool},
    repromote elems blocks c p = some (c', q, res) → Demotes p q []
      ∧ (p.OwnFiles → p.Sized → ∀ b, p.copyFor b = none →
        q.blocks b = p.blocks b ∧ SamePages c c' elems b) := by
  induction blocks with
  | nil =>
    intro c p h
    cases h
    exact ⟨.refl _, fun _ _ b _ => ⟨rfl, .refl _ elems b⟩⟩
  | cons bid blocks ih =>
    intro c p h
    obtain ⟨⟨r, copy⟩, hr, h⟩ := Option.bind_eq_some_iff.mp h
    have hd := promoteToGpu_demotes hr
    -- what the rest of the blocks keeps, from the pages `d` that this one leaves
    have hrest : ∀ {d : PagedKvCache}, repromote elems blocks d r = some (c', q, res) →
        (p.Sized → ∀ b, p.copyFor b = none → SamePages c d elems b) → Demotes p q []
          ∧ (p.OwnFiles → p.Sized → ∀ b, p.copyFor b = none →
            q.blocks b = p.blocks b ∧ SamePages c c' elems b) := by
      intro d h hpages
      obtain ⟨hd', hb⟩ := ih h
      refine ⟨hd.trans hd', fun ho hz b hc => ?_⟩
      obtain ⟨hblock, hp⟩ := hb (hd.own ho) (hd.sized hz) b (hd.copy ho hz b (by simp) hc)
      exact ⟨hblock.trans (promoteToGpu_keeps hz hc hr), (hpages hz b hc).trans hp⟩
    dsimp only at h
    split at h
    · cases h
      exact ⟨hd, fun _ hz b hc => ⟨promoteToGpu_keeps hz hc hr, .refl _ elems b⟩⟩
    · exact hrest h fun _ b _ => .refl c elems b
    · obtain ⟨d, hcopy, h⟩ := Option.bind_eq_some_iff.mp h
      refine hrest h fun hz b hc => copyPromoted_pages ?_ hcopy
      rintro rfl
      exact (promoteToGpu_without_copy hz hc hr).2 _ rfl

theorem checkAndRepromoteBlocks_demotes {stride : ℕ}
    (h : c.checkAndRepromoteBlocks stride p = some (c', q, res)) : Demotes p q []
      ∧ (p.OwnFiles → p.Sized → ∀ b, p.copyFor b = none →
        q.blocks b = p.blocks b ∧ SamePages c c' (c.pageSize * stride) b) := by
  unfold checkAndRepromoteBlocks at h
  split at h
  · cases h
    exact ⟨.refl p, fun _ _ b _ => ⟨rfl, .refl c _ b⟩⟩
  · exact repromote_demotes h

theorem writeToken_demotes {layer stride t seq : ℕ} {k v : List UInt32}
    {quantize : List UInt32 → Option (UInt16 × List UInt8)}
    (h : c.writeToken layer stride k v t seq quantize p = some (c', q, res)) : Demotes p q [] := by
  rcases writeToken_cases h with ⟨-, rfl, -⟩
    | ⟨pos, kPage, vPage, physical, kPage', vPage', -, -, -, -, -, -, -, -, hq, -, -⟩
  · exact .refl _
  · exact storeToken_demotes hq

end PagedKvCache

end Grim.Memory
