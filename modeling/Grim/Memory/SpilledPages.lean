import Grim.KvQuant.Block
import Grim.Memory.Promotions

/-!
# A spilled page comes back only if it was full

A raw copy is the whole page, and the promotion counts the tokens by its length; a compressed copy
has only the valid rows, and the promotion wants the whole page.  Neither knows how many tokens
the page had.
-/

namespace Grim.Memory

open KvTransport LocalSpillManager List
open Function (update update_self)

namespace KvBlockPool

variable {p q r : KvBlockPool} {s s' : LocalSpillManager} {id n : ℕ} {io : Except String Unit}
  {k v : List UInt32}

/-- The compressor gives back up to a page of tokens of `elem` numbers. -/
def Lossless (c : KvCompressor) (elem : ℕ) : Prop :=
  ∀ rows ≤ blockSize, ∀ k v : List UInt32, k.length = rows * elem → v.length = rows * elem →
    ∃ blob, c.compress rows k v = .ok blob ∧ blob ≠ [] ∧ c.dequantize blob = .ok (k, v)

/-- The page holds tokens, and the pool spills its pages raw or through a lossless compressor. -/
structure Spills (p : KvBlockPool) (s : LocalSpillManager) (id : ℕ) : Prop where
  spill : p.spill = some s
  blockElems : s.blockElems = p.blockElem
  lt : id < p.numBlocks
  elem_pos : 0 < p.tokenElem
  keys : (p.blocks id).keyData.length = p.blockElem
  values : (p.blocks id).valueData.length = p.blockElem
  tokens_pos : 1 ≤ (p.blocks id).numTokens
  tokens_le : (p.blocks id).numTokens ≤ blockSize
  unpacked : p.packedPool = true →
    ∀ format bytes, (p.blocks id).layerPacked.head? ≠ some (some (.packed format bytes))
  lossless : ∀ c ∈ p.compressor, Lossless c p.tokenElem

theorem blockElem_eq (p : KvBlockPool) : p.blockElem = blockSize * p.tokenElem := mul_assoc _ _ _

/-- The first `rows` rows of the page. -/
def rowsOf (p : KvBlockPool) (id rows : ℕ) : List UInt32 × List UInt32 :=
  ((p.blocks id).keyData.take (rows * p.tokenElem),
    (p.blocks id).valueData.take (rows * p.tokenElem))

def spilledRows (p : KvBlockPool) (id : ℕ) : ℕ :=
  if p.compressor.isSome then (p.blocks id).numTokens else blockSize

theorem demotePackedCopy_none (h : p.Spills s id) :
    p.demotePackedCopy s id io = (s, false) := by
  unfold demotePackedCopy
  split
  · rename_i hpool hhead
    exact absurd hhead (h.unpacked hpool _ _)
  · rfl

theorem demoteRawCopy_full (io : Except String Unit) (h : p.Spills s id) :
    ∃ s', p.demoteRawCopy s id io = (s', true) ∧
    RawAt s' id (p.blocks id).keyData (p.blocks id).valueData ∧ s'.blockElems = s.blockElems ∧
    (NoCompressed s' id ↔ NoCompressed s id) := by
  have hfit : ¬ ((p.blocks id).keyData.length ≠ s.blockElems ∨
      (p.blocks id).valueData.length ≠ s.blockElems) := by
    rw [h.keys, h.values, h.blockElems]
    simp
  simp only [demoteRawCopy, demoteToHost, if_neg hfit, demoteToNvme, update_self]
  rcases io with e | ⟨⟩
  · exact ⟨_, rfl, .inl ⟨by simp, by simp⟩, rfl, Iff.rfl⟩
  · exact ⟨_, rfl, .inr ⟨by simp, by simp, by simp, by simp⟩, rfl, Iff.rfl⟩

theorem compressBlock_lossless {c : KvCompressor} (h : p.Spills s id)
    (hc : p.compressor = some c) : ∃ blob, p.compressBlock id = some blob ∧ blob ≠ [] ∧
      c.dequantize blob = .ok (p.rowsOf id (p.blocks id).numTokens) := by
  have hrows : min (max (p.blocks id).numTokens 1) blockSize = (p.blocks id).numTokens := by
    have := h.tokens_pos
    have := h.tokens_le
    omega
  have hle : (p.blocks id).numTokens * p.tokenElem ≤ p.blockElem := by
    rw [blockElem_eq]
    exact Nat.mul_le_mul_right _ h.tokens_le
  have hlen : ∀ data : List UInt32, data.length = p.blockElem →
      (data.take ((p.blocks id).numTokens * p.tokenElem)).length =
        (p.blocks id).numTokens * p.tokenElem := by
    intro data hdata
    rw [length_take, hdata, min_eq_left hle]
  obtain ⟨blob, hcompress, hne, hback⟩ := h.lossless c hc _ h.tokens_le _ _
    (hlen _ h.keys) (hlen _ h.values)
  refine ⟨blob, ?_, hne, hback⟩
  have htokens : (p.blocks id).numTokens ≠ 0 := Nat.one_le_iff_ne_zero.1 h.tokens_pos
  simp only [tokenElem] at hcompress
  simp only [compressBlock, hc, if_neg htokens, hrows, hcompress, Except.toOption]

theorem demoteCompressedCopy_valid {c : KvCompressor} (io : Except String Unit) (h : p.Spills s id)
    (hc : p.compressor = some c) : ∃ s' blob, p.demoteCompressedCopy s id io = (s', true) ∧
      blob ≠ [] ∧ CompressedAt s' id blob ∧
      c.dequantize blob = .ok (p.rowsOf id (p.blocks id).numTokens) := by
  obtain ⟨blob, hblob, hne, hback⟩ := compressBlock_lossless h hc
  have hempty : ¬ blob.isEmpty = true := by simpa using hne
  simp only [demoteCompressedCopy, hblob, demoteCompressed, if_neg hempty,
    demoteCompressedToNvme, update_self]
  rcases io with e | ⟨⟩
  · exact ⟨_, blob, rfl, hne, .inl ⟨by simp, by simp⟩, hback⟩
  · exact ⟨_, blob, rfl, hne, .inr ⟨by simp, by simp, by simp, by simp⟩, hback⟩

/-- What a promotion of the block reads in `s`, for pages like those of `p`. -/
def Reads (p : KvBlockPool) (s : LocalSpillManager) (id rows : ℕ) : Prop :=
  ∃ copy, (s.promote id).2 = .ok (some copy) ∧ p.decoded copy = some (p.rowsOf id rows)

theorem promote_rawAt (hk : k.length = s.blockElems) (hv : v.length = s.blockElems)
    (hraw : RawAt s id k v) (hnone : NoCompressed s id) :
    (s.promote id).2 = .ok (some (.raw k v)) := by
  rw [promote_of_noCompressed hnone, (retrieve_rawAt hk hv hraw).1]
  rfl

theorem promote_compressedAt {blob : List UInt8} (hne : blob ≠ []) (h : CompressedAt s id blob) :
    (s.promote id).2 = .ok (some (.compressed blob)) := by
  have hread := (retrieveCompressed_compressedAt hne h).1
  unfold promote
  split
  · rename_i heq
    rw [heq] at hread
    cases hread
  · rename_i heq
    rw [heq] at hread
    cases hread
    rfl
  · rename_i heq
    rw [heq] at hread
    cases hread

theorem promote_leftover (h : ¬ NoCompressed s id) :
    (∃ e, (s.promote id).2 = .error e) ∨ ∃ blob, (s.promote id).2 =
      .ok (some (.compressed blob)) := by
  have hread : (s.retrieveCompressed id).2 ≠ .ok none := by
    unfold retrieveCompressed
    rcases hh : s.compressedHost id with - | blob
    · rcases hn : s.nvmeCompressed id with - | path
      · exact absurd ⟨hh, hn⟩ h
      · dsimp only
        split
        · simp
        · split_ifs <;> simp
    · simp
  unfold promote
  split
  · exact .inl ⟨_, rfl⟩
  · exact .inr ⟨_, rfl⟩
  · rename_i heq
    rw [heq] at hread
    exact absurd rfl hread

/-- Where no compressor is attached, no compressed copy is left of the block. -/
def NoLeftover (p : KvBlockPool) (s : LocalSpillManager) (id : ℕ) : Prop :=
  p.compressor = none → NoCompressed s id

theorem demoteFreed_spills (io : Except String Unit) (h : p.Spills s id) :
    ∃ s', p.demoteFreed s id io = (s', true) ∧
    (p.NoLeftover s' id ↔ p.NoLeftover s id) ∧
    ∀ s'', Same s' s'' id → p.NoLeftover s id → p.Reads s'' id (p.spilledRows id) := by
  unfold demoteFreed demoteEvicted
  rw [demotePackedCopy_none h]
  rcases hc : p.compressor with _ | c
  · obtain ⟨s', hdemote, hraw, helems, hnone⟩ := demoteRawCopy_full io h
    have hskip : p.demoteCompressedCopy s id io = (s, false) := by
      simp only [demoteCompressedCopy, compressBlock, hc]
    refine ⟨s', by simp only [hskip, hdemote], by simp only [NoLeftover, hnone], ?_⟩
    intro s'' hsame hleft
    have hraw' : RawAt s'' id (p.blocks id).keyData (p.blocks id).valueData := by
      simpa only [RawAt, hsame.blockTiers, hsame.hostRamCache, hsame.nvmeCache, hsame.rawFile]
        using hraw
    have hnone' : NoCompressed s'' id := by
      simpa only [NoCompressed, hsame.compressedHost, hsame.nvmeCompressed] using
        hnone.2 (hleft hc)
    have helems' : s''.blockElems = p.blockElem := by
      rw [hsame.blockElems, helems, h.blockElems]
    have hrows : p.rowsOf id (p.spilledRows id) =
        ((p.blocks id).keyData, (p.blocks id).valueData) := by
      rw [rowsOf, spilledRows, hc, Option.isSome_none, if_neg Bool.false_ne_true, ← blockElem_eq,
        take_of_length_le h.keys.le, take_of_length_le h.values.le]
    exact ⟨_, promote_rawAt (h.keys.trans helems'.symm) (h.values.trans helems'.symm) hraw' hnone',
      by rw [hrows]; rfl⟩
  · obtain ⟨s', blob, hdemote, hne, hat, hback⟩ := demoteCompressedCopy_valid io h hc
    refine ⟨s', by simp only [hdemote], by simp [NoLeftover, hc], ?_⟩
    intro s'' hsame _
    have hat' : CompressedAt s'' id blob := by
      simpa only [CompressedAt, hsame.blockTiers, hsame.compressedHost, hsame.nvmeCompressed,
        hsame.compressedFile] using hat
    refine ⟨_, promote_compressedAt hne hat', ?_⟩
    rw [decoded, hc, Option.bind_some, hback, spilledRows, hc, Option.isSome_some, if_pos rfl]
    rfl

/-- The page of the block and its copies are as they were, and are read in the same way. -/
structure Kept (q r : KvBlockPool) (id : ℕ) : Prop where
  compressor : r.compressor = q.compressor
  numHeads : r.numHeads = q.numHeads
  headDim : r.headDim = q.headDim
  lt : id < q.numBlocks → id < r.numBlocks
  block : r.blocks id = q.blocks id
  copies : ∀ s ∈ q.spill, ∃ s' ∈ r.spill, Same s s' id

theorem Kept.refl (p : KvBlockPool) (id : ℕ) : Kept p p id :=
  ⟨rfl, rfl, rfl, fun h => h, rfl, fun s hs => ⟨s, hs, .refl s id⟩⟩

theorem release_demoted (hs : p.spill = some s) (hlt : id < p.numBlocks)
    (hdemote : p.demoteFreed s id io = (s', true)) :
    p.release id io = some (({ p with spill := some s' } : KvBlockPool).markDemoted id) := by
  unfold release
  rw [hs]
  simp only [if_neg (not_le.2 hlt), hdemote]

theorem freeWithTier_released {forceTier : Bool} (h : p.Spills s id)
    (hlast : forceTier = true ∨ p.refCounts id = some 1)
    (hdemote : p.demoteFreed s id io = (s', true)) : ∃ refs, p.freeWithTier id forceTier io =
      some (({ p with refCounts := refs, spill := some s' } : KvBlockPool).markDemoted id) := by
  have hrelease : ∀ refs, ({ p with refCounts := refs } : KvBlockPool).release id io =
      some (({ p with refCounts := refs, spill := some s' } : KvBlockPool).markDemoted id) :=
    fun refs => release_demoted (p := { p with refCounts := refs }) h.spill h.lt hdemote
  unfold freeWithTier
  rcases hcnt : p.refCounts id with _ | cnt <;> dsimp only
  · have hforce : forceTier = true := by simpa [hcnt] using hlast
    rw [if_pos hforce]
    exact ⟨p.refCounts, hrelease p.refCounts⟩
  · rw [if_neg]
    · exact ⟨_, hrelease _⟩
    · rintro ⟨hlt, hforce⟩
      rcases hlast with hf | hone
      · exact hforce hf
      · rw [hcnt] at hone
        cases hone
        omega

theorem Spills.freed (h : p.Spills s id) {forceTier : Bool} (io : Except String Unit)
    (hlast : forceTier = true ∨ p.refCounts id = some 1) :
    ∃ q, p.freeWithTier id forceTier io = some q := by
  obtain ⟨s', hdemote, -⟩ := demoteFreed_spills io h
  obtain ⟨refs, hq⟩ := freeWithTier_released h hlast hdemote
  exact ⟨_, hq⟩

theorem freeWithTier_spills {forceTier : Bool} (h : p.Spills s id)
    (hlast : forceTier = true ∨ p.refCounts id = some 1)
    (hfree : p.freeWithTier id forceTier io = some q) :
    ∃ s', q.spill = some s' ∧ q.compressor = p.compressor ∧ q.numHeads = p.numHeads ∧
      q.headDim = p.headDim ∧ q.numBlocks = p.numBlocks ∧
      q.blocks id = { p.blocks id with location := .hostRam } ∧
      (p.NoLeftover s' id ↔ p.NoLeftover s id) ∧
      ∀ s'', Same s' s'' id → p.NoLeftover s id → p.Reads s'' id (p.spilledRows id) := by
  obtain ⟨s', hdemote, hleft, hreads⟩ := demoteFreed_spills io h
  obtain ⟨refs, hq⟩ := freeWithTier_released h hlast hdemote
  obtain rfl := Option.some.inj (hfree.symm.trans hq)
  exact ⟨s', rfl, rfl, rfl, rfl, rfl, by simp [markDemoted, countDemoted, modify], hleft, hreads⟩

/-- The block has the tokens it had in `p`, and their rows in every layer. -/
structure Restored (p q : KvBlockPool) (id : ℕ) : Prop where
  numTokens : (q.blocks id).numTokens = (p.blocks id).numTokens
  rows : q.rowsOf id (p.blocks id).numTokens = p.rowsOf id (p.blocks id).numTokens
  layerKeys : (q.blocks id).layerKeys = (p.blocks id).layerKeys
  layerValues : (q.blocks id).layerValues = (p.blocks id).layerValues

/-- A promotion in `r` succeeds and restores the block as it was in `p`. -/
def RestoredIn (p r : KvBlockPool) (id : ℕ) : Prop :=
  ∃ q copy, r.promoteToGpu id = some (q, .ok (some copy)) ∧ Restored p q id

theorem length_rowsOf (h : p.Spills s id) {rows : ℕ} (hrows : rows ≤ blockSize) :
    (p.rowsOf id rows).1.length = rows * p.tokenElem ∧
      (p.rowsOf id rows).2.length = rows * p.tokenElem := by
  have hle : rows * p.tokenElem ≤ p.blockElem := by
    rw [blockElem_eq]
    exact Nat.mul_le_mul_right _ hrows
  simp only [rowsOf, length_take, h.keys, h.values, min_eq_left hle, and_self]

theorem install_misses {copy : List UInt32 × List UInt32}
    (hk : k.length ≠ (p.blocks id).keyData.length) :
      p.install id k v ≠ some (q, .ok (some copy)) := by
  simp [install, hk]

/-- In `r` the block waits for its promotion, with the page it had in `p`. -/
structure Waits (p r : KvBlockPool) (s : LocalSpillManager) (id : ℕ) : Prop where
  compressor : r.compressor = p.compressor
  numHeads : r.numHeads = p.numHeads
  headDim : r.headDim = p.headDim
  lt : id < r.numBlocks
  block : r.blocks id = { p.blocks id with location := .hostRam }
  spill : r.spill = some s

namespace Waits

variable (hw : p.Waits r s' id) (h : p.Spills s id)

include hw

theorem tokenElem : r.tokenElem = p.tokenElem := by
  rw [KvBlockPool.tokenElem, KvBlockPool.tokenElem, hw.numHeads, hw.headDim]

theorem promoteToGpu (hreads : p.Reads s' id n) : r.promoteToGpu id =
    { r with spill := some (s'.promote id).1 }.install id (p.rowsOf id n).1 (p.rowsOf id n).2 := by
  obtain ⟨copy, hread, hdec⟩ := hreads
  refine promoteToGpu_reads hw.spill hw.lt hread ?_
  unfold decoded at hdec ⊢
  rwa [hw.compressor]

include h

theorem full (hreads : p.Reads s' id blockSize) : ∃ q copy,
    r.promoteToGpu id = some (q, .ok (some copy)) ∧ q.tokenElem = p.tokenElem ∧
      q.blocks id = { p.blocks id with
        numTokens := blockSize
        received := true
        location := .gpu } := by
  obtain ⟨hlenK, hlenV⟩ := length_rowsOf h le_rfl
  have hpage : p.rowsOf id blockSize = ((p.blocks id).keyData, (p.blocks id).valueData) := by
    rw [rowsOf, ← blockElem_eq, take_of_length_le h.keys.le, take_of_length_le h.values.le]
  have helem : 0 < r.numHeads * r.headDim := by
    have := h.elem_pos
    rwa [← hw.tokenElem] at this
  have hk : (p.blocks id).keyData.length = (r.blocks id).keyData.length := by rw [hw.block]
  have hv : (p.blocks id).valueData.length = (r.blocks id).valueData.length := by rw [hw.block]
  obtain ⟨q, hq, hblock⟩ := install_fits { r with spill := some (s'.promote id).1 } id hk hv helem
  refine ⟨q, _, by rw [hw.promoteToGpu hreads, hpage, hq], ?_, ?_⟩
  · obtain ⟨halike, -, -⟩ := install_alike hq
    rw [← hw.tokenElem, KvBlockPool.tokenElem, KvBlockPool.tokenElem, halike.numHeads,
      halike.headDim]
  · have htokens : (p.blocks id).keyData.length / (r.numHeads * r.headDim) = blockSize := by
      rw [h.keys, blockElem_eq, ← hw.tokenElem]
      exact Nat.mul_div_cancel _ helem
    rw [hblock]
    dsimp only
    rw [hw.block, htokens, min_self]

theorem short (hreads : p.Reads s' id n) (hn : n < blockSize) (q : KvBlockPool)
    (copy : List UInt32 × List UInt32) : r.promoteToGpu id ≠ some (q, .ok (some copy)) := by
  rw [hw.promoteToGpu hreads]
  refine install_misses ?_
  dsimp only
  rw [(length_rowsOf h hn.le).1, hw.block, h.keys, blockElem_eq]
  exact (Nat.mul_lt_mul_of_pos_right hn h.elem_pos).ne

omit h in
theorem leftover (hcomp : p.compressor = none) (hleft : ¬ NoCompressed s' id) (q : KvBlockPool)
    (copy : List UInt32 × List UInt32) : r.promoteToGpu id ≠ some (q, .ok (some copy)) := by
  intro hq
  rcases promoteToGpu_some hw.spill hq with ⟨-, hres⟩ | ⟨copy', k, v, hread, hdec, -⟩
  · exact hres copy rfl
  · rcases promote_leftover hleft with ⟨e, he⟩ | ⟨blob, hblob⟩
    · rw [he] at hread
      cases hread
    · rw [hblob] at hread
      cases hread
      rw [decoded, hw.compressor, hcomp] at hdec
      cases hdec

end Waits

theorem Spills.spilledRows_eq (h : p.Spills s id) : p.spilledRows id = blockSize ∨
    p.spilledRows id = (p.blocks id).numTokens ∧ (p.blocks id).numTokens < blockSize := by
  have hle := h.tokens_le
  unfold spilledRows
  split_ifs
  · rcases hle.lt_or_eq with hlt | heq
    · exact .inr ⟨rfl, hlt⟩
    · exact .inl heq
  · exact .inl rfl

/-- A block that is freed to the spill manager comes back, whenever its copies and its page are left
alone, exactly when it was full and no compressed copy hides the raw one. -/
theorem restoredIn_iff {forceTier : Bool} (h : p.Spills s id)
    (hlast : forceTier = true ∨ p.refCounts id = some 1)
    (hfree : p.freeWithTier id forceTier io = some q) (hkept : Kept q r id) :
    RestoredIn p r id ↔ (p.blocks id).numTokens = blockSize ∧ p.NoLeftover s id := by
  obtain ⟨s', hspill, hcomp, hheads, hdim, hnum, hblock, hleft, hreads⟩ :=
    freeWithTier_spills h hlast hfree
  obtain ⟨s'', hspill', hsame⟩ := hkept.copies s' hspill
  have hw : p.Waits r s'' id :=
    ⟨hkept.compressor.trans hcomp, hkept.numHeads.trans hheads, hkept.headDim.trans hdim,
      hkept.lt (hnum ▸ h.lt), hkept.block.trans hblock, hspill'⟩
  by_cases hno : p.NoLeftover s id
  · rw [and_iff_left hno]
    have hreads' := hreads s'' hsame hno
    rcases h.spilledRows_eq with hrows | ⟨hrows, hlt⟩
    · rw [hrows] at hreads'
      obtain ⟨q', copy, hq', helem, hblock'⟩ := hw.full h hreads'
      constructor
      · rintro ⟨q'', copy', hq'', hrest⟩
        have hsame' : q'' = q' := by
          rw [hq', Option.some.injEq, Prod.mk.injEq] at hq''
          exact hq''.1.symm
        rw [← hrest.numTokens, hsame', hblock']
      · intro hn
        refine ⟨q', copy, hq', ?_, ?_, ?_, ?_⟩
        · rw [hblock', hn]
        · simp only [rowsOf, hblock', helem]
        · rw [hblock']
        · rw [hblock']
    · refine ⟨?_, fun hn => absurd hn hlt.ne⟩
      rintro ⟨q', copy, hq', -⟩
      rw [hrows] at hreads'
      exact absurd hq' (hw.short h hreads' hlt q' copy)
  · refine ⟨?_, fun hboth => absurd hboth.2 hno⟩
    rintro ⟨q', copy, hq', -⟩
    have hnone : p.compressor = none := by
      by_contra hsome
      exact hno fun hcontra => absurd hcontra hsome
    have hleft' : ¬ NoCompressed s'' id := by
      intro hnc
      refine hno (hleft.1 fun _ => ?_)
      simpa only [NoCompressed, hsame.compressedHost, hsame.nvmeCompressed] using hnc
    exact absurd hq' (hw.leftover hnone hleft' q' copy)

open KvQuant

def identityCompressor (numKvHeads headDim : ℕ) : KvCompressor where
  compress := fun rows k v =>
    .ok (IdentityCompressor.compress rows numKvHeads headDim k v).toBytes
  dequantize := fun blob =>
    (CompressedKvBlock.fromBytes blob).map IdentityCompressor.dequantizeForAttention

theorem identityCompressor_lossless {numKvHeads headDim : ℕ} (hheads : numKvHeads < 2 ^ 32)
    (hdim : headDim < 2 ^ 32) (helem : numKvHeads * headDim < 2 ^ 26) :
    Lossless (identityCompressor numKvHeads headDim) (numKvHeads * headDim) := by
  intro rows hrows k v hk hv
  have hle : rows * (numKvHeads * headDim) ≤ blockSize * (numKvHeads * headDim) :=
    Nat.mul_le_mul_right _ hrows
  have hpage : blockSize = 16 := rfl
  rw [hpage] at hrows hle
  have hfits : (IdentityCompressor.compress rows numKvHeads headDim k v).FitsU32 :=
    IdentityCompressor.compress_fits (by omega) hheads hdim (by omega) (by omega)
  refine ⟨_, rfl, ?_, IdentityCompressor.dequantize_compress hfits⟩
  simp [CompressedKvBlock.toBytes, magic]

/-- A pool of one page, with a spill manager, and these rows of one number in the page. -/
def onePage (compressor : Option KvCompressor) (rows : List UInt32) : KvBlockPool :=
  { ((new 1 1 1 false 0).attachSpill (.new blockSize)).popFree.1.modify 0 fun b =>
      { b with
        keyData := rows ++ List.replicate (blockSize - rows.length) 0
        valueData := rows ++ List.replicate (blockSize - rows.length) 0
        numTokens := rows.length } with compressor }

theorem onePage_spills {compressor : Option KvCompressor} {rows : List UInt32}
    (hpos : 1 ≤ rows.length) (hle : rows.length ≤ blockSize)
    (hlossless : ∀ c ∈ compressor, Lossless c 1) :
    (onePage compressor rows).Spills (.new blockSize) 0 := by
  have hlen : (rows ++ List.replicate (blockSize - rows.length) (0 : UInt32)).length =
      blockSize := by
    rw [length_append, length_replicate]
    omega
  exact ⟨rfl, rfl, Nat.one_pos, Nat.one_pos, hlen, hlen, hpos, hle, nofun, hlossless⟩

def fullPage : KvBlockPool := onePage (some (identityCompressor 1 1)) (List.replicate 16 0x3F800000)

theorem restoredIn_fullPage : ∃ q, fullPage.freeWithTier 0 false (.ok ()) = some q ∧
    RestoredIn fullPage q 0 := by
  have hspills : fullPage.Spills (.new blockSize) 0 := by
    refine onePage_spills (by decide) (by decide) ?_
    rintro c ⟨⟩
    exact identityCompressor_lossless (by decide) (by decide) (by decide)
  obtain ⟨q, hq⟩ := hspills.freed (.ok ()) (.inr rfl)
  exact ⟨q, hq, (restoredIn_iff hspills (.inr rfl) hq (.refl q 0)).2 ⟨rfl, nofun⟩⟩

/-- One token in a raw page: the promotion counts 16. -/
theorem not_restoredIn_partialPage : (onePage none [0x3F800000]).Spills (.new blockSize) 0 ∧
    (onePage none [0x3F800000]).refCounts 0 = some 1 ∧
    ∃ q, (onePage none [0x3F800000]).freeWithTier 0 false (.ok ()) = some q ∧
      ¬ RestoredIn (onePage none [0x3F800000]) q 0 := by
  refine ⟨onePage_spills (by decide) (by decide) nofun, rfl, _, rfl, ?_⟩
  rintro ⟨q, copy, hq, hrest⟩
  have htokens := congrArg (Option.map fun x => (x.1.blocks 0).numTokens) hq
  rw [Option.map_some, hrest.numTokens] at htokens
  exact absurd htokens (by decide +kernel)

end KvBlockPool

end Grim.Memory
