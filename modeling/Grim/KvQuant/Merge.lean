import Grim.KvQuant.Block
import Grim.Lib.Cursor
import Grim.Lib.FloatNat

/-!
# Merging the modalities

Three blocks are merged into one: their streams one behind the other, and their lengths as floats in
front of the value metadata.  Splitting reads the lengths back.  Sums of `usize` fault on overflow
in a build with overflow checks, and wrap in one without.
-/

namespace Grim.KvQuant

open Checked FloatFormat Slice List

variable {checks : Bool}

def addUsize (checks : Bool) (a b : ℕ) : Checked String ℕ :=
  if a + b < 2 ^ 64 then pure (a + b)
  else if checks then fault
  else pure ((a + b) % 2 ^ 64)

/-- `xs.iter().sum()` -/
def sumUsize (checks : Bool) (xs : List ℕ) : Checked String ℕ := xs.foldlM (addUsize checks) 0

/-- `n as f32` -/
def asF32 (n : ℕ) : UInt32 := f32OfInt n

/-- `3.0` -/
def three : UInt32 := 0x40400000

def hdr : ℕ := 16

/-- `xs[start..stop]` -/
def window {α : Type} (xs : List α) (start stop : ℕ) : Checked String (List α) :=
  if start ≤ stop ∧ stop ≤ xs.length then pure (slice xs start (stop - start)) else fault

/-- What is counted of a block, or its place in the merged block. -/
structure Sizes where
  numTokens : ℕ
  keyMeta : ℕ
  keyBits : ℕ
  valueBits : ℕ
  valueMeta : ℕ

def CompressedKvBlock.sizes (b : CompressedKvBlock) : Sizes where
  numTokens := b.numTokens
  keyMeta := b.keyMeta.length
  keyBits := b.keyBits.length
  valueBits := b.valueBits.length
  valueMeta := b.valueMeta.length

def Sizes.toList (n : Sizes) : List ℕ :=
  [n.numTokens, n.keyMeta, n.keyBits, n.valueBits, n.valueMeta]

def boundaries (text audio visual : Sizes) : List ℕ :=
  [text.numTokens, audio.numTokens, visual.numTokens, text.keyMeta, audio.keyMeta, visual.keyMeta,
    text.keyBits, audio.keyBits, visual.keyBits, text.valueBits, audio.valueBits, visual.valueBits,
    text.valueMeta, audio.valueMeta, visual.valueMeta]

def mergeAcrossModalities (checks : Bool) (text audio visual : CompressedKvBlock) :
    Checked String CompressedKvBlock := do
  let tokens ← addUsize checks text.numTokens audio.numTokens
  let totalTokens ← addUsize checks tokens visual.numTokens
  pure
    { keyBits := text.keyBits ++ audio.keyBits ++ visual.keyBits
      keyMeta := text.keyMeta ++ audio.keyMeta ++ visual.keyMeta
      valueBits := text.valueBits ++ audio.valueBits ++ visual.valueBits
      valueMeta := three :: (boundaries text.sizes audio.sizes visual.sizes).map asF32 ++
        (text.valueMeta ++ audio.valueMeta ++ visual.valueMeta)
      numTokens := totalTokens
      numKvHeads := text.numKvHeads
      headDim := text.headDim
      modality := .text
      channelAlloc := none }

def notMerged : String :=
  "split_merged_block: value_meta does not carry a 3-sub-block merge header"

def nonIntegral : String := "split_merged_block: non-integral boundary"

def badBoundaries : String :=
  "split_merged_block: header boundaries do not sum to payload lengths"

def badTokens : String :=
  "split_merged_block: sub-block token counts do not sum to the merged count"

def asUsize (v : UInt32) : Checked String ℕ :=
  if f32Lt v 0 || !f32Eq (f32Fract v) 0 then throw nonIntegral else pure (f32ToU64 v).toNat

/-- A turn of the loop: the block of these sizes at the offsets, and the offsets behind it. -/
def takeSub (checks : Bool) (merged : CompressedKvBlock) (off n : Sizes) (modality : KvModality) :
    Checked String (CompressedKvBlock × Sizes) := do
  let kbOff ← addUsize checks off.keyBits n.keyBits
  let keyBits ← window merged.keyBits off.keyBits kbOff
  let kmOff ← addUsize checks off.keyMeta n.keyMeta
  let keyMeta ← window merged.keyMeta off.keyMeta kmOff
  let vbOff ← addUsize checks off.valueBits n.valueBits
  let valueBits ← window merged.valueBits off.valueBits vbOff
  let vmOff ← addUsize checks off.valueMeta n.valueMeta
  let valueMeta ← window merged.valueMeta off.valueMeta vmOff
  let ntOff ← addUsize checks off.numTokens n.numTokens
  pure
    ({ keyBits, keyMeta, valueBits, valueMeta
       numTokens := n.numTokens
       numKvHeads := merged.numKvHeads
       headDim := merged.headDim
       modality
       channelAlloc := none },
      ⟨ntOff, kmOff, kbOff, vbOff, vmOff⟩)

/-- The sizes of the three blocks, behind one another in the boundaries. -/
def sizesAt (h : List ℕ) (i : ℕ) : Sizes :=
  ⟨h.getD i 0, h.getD (3 + i) 0, h.getD (6 + i) 0, h.getD (9 + i) 0, h.getD (12 + i) 0⟩

def takeSubs (checks : Bool) (merged : CompressedKvBlock) (text audio visual : Sizes) :
    Checked String (CompressedKvBlock × CompressedKvBlock × CompressedKvBlock) := do
  let totalKm ← sumUsize checks [text.keyMeta, audio.keyMeta, visual.keyMeta]
  let totalKb ← sumUsize checks [text.keyBits, audio.keyBits, visual.keyBits]
  let totalVb ← sumUsize checks [text.valueBits, audio.valueBits, visual.valueBits]
  let totalVm ← sumUsize checks [text.valueMeta, audio.valueMeta, visual.valueMeta]
  if merged.keyMeta.length ≠ totalKm ∨ merged.keyBits.length ≠ totalKb ∨
      merged.valueBits.length ≠ totalVb then throw badBoundaries
  else
    let vmEnd ← addUsize checks hdr totalVm
    if merged.valueMeta.length ≠ vmEnd then throw badBoundaries
    else
      let (textKv, off) ← takeSub checks merged ⟨0, 0, 0, 0, hdr⟩ text .text
      let (audioKv, off) ← takeSub checks merged off audio .audio
      let (visualKv, off) ← takeSub checks merged off visual .visual
      if off.numTokens ≠ merged.numTokens then throw badTokens
      else pure (textKv, audioKv, visualKv)

def splitMergedBlock (checks : Bool) (merged : CompressedKvBlock) :
    Checked String (CompressedKvBlock × CompressedKvBlock × CompressedKvBlock) :=
  if merged.valueMeta.length < hdr || !f32Eq (merged.valueMeta.getD 0 0) three then throw notMerged
  else do
    let h ← (slice merged.valueMeta 1 15).mapM asUsize
    takeSubs checks merged (sizesAt h 0) (sizesAt h 1) (sizesAt h 2)

variable {a b c n start stop : ℕ} {α : Type} {xs ys pre mid post : List α}

theorem addUsize_eq (h : checks = true → a + b < 2 ^ 64) :
    addUsize checks a b = pure ((a + b) % 2 ^ 64) := by
  rw [addUsize]
  split_ifs with hlt hchecks
  · rw [Nat.mod_eq_of_lt hlt]
  · exact absurd (h hchecks) hlt
  · rfl

theorem addUsize_of_lt (h : a + b < 2 ^ 64) : addUsize checks a b = pure (a + b) := if_pos h

theorem addUsize_ok (h : (addUsize checks a b).run = some (.ok c)) :
    c = (a + b) % 2 ^ 64 ∧ (checks = true → a + b < 2 ^ 64) := by
  rw [addUsize] at h
  split_ifs at h with hlt hchecks
  · obtain rfl := Except.ok.inj (Option.some.inj h)
    exact ⟨(Nat.mod_eq_of_lt hlt).symm, fun _ => hlt⟩
  · cases h
  · obtain rfl := Except.ok.inj (Option.some.inj h)
    exact ⟨rfl, fun h => absurd h hchecks⟩

theorem sumUsize_of_lt (h : a + b + c < 2 ^ 64) :
    sumUsize checks [a, b, c] = pure (a + b + c) := by
  have hfold : sumUsize checks [a, b, c] = addUsize checks 0 a >>= fun s =>
      addUsize checks s b >>= fun s => addUsize checks s c >>= pure := rfl
  rw [hfold, addUsize_of_lt (by omega), pure_bind, addUsize_of_lt (by omega), pure_bind,
    addUsize_of_lt (by omega), pure_bind, Nat.zero_add]

theorem window_ok (ha : a < 2 ^ 64) (hn : n < 2 ^ 64)
    (hadd : (addUsize checks a n).run = some (.ok stop))
    (h : (window xs a stop).run = some (.ok ys)) : ys.length = n ∧ stop < 2 ^ 64 := by
  obtain ⟨hstop, -⟩ := addUsize_ok hadd
  have hlt : stop < 2 ^ 64 := hstop ▸ Nat.mod_lt _ (by decide)
  rw [window] at h
  split_ifs at h with hrange
  · obtain rfl := Except.ok.inj (Option.some.inj h)
    refine ⟨?_, hlt⟩
    rw [length_slice]
    omega
  · cases h

theorem window_append :
    window (pre ++ mid ++ post) pre.length (pre.length + mid.length) = pure mid := by
  rw [window, if_pos ⟨by omega, by simp⟩, Nat.add_sub_cancel_left, slice_append rfl rfl]

def Sizes.Words (n : Sizes) : Prop := ∀ k ∈ n.toList, k < 2 ^ 64

theorem takeSub_ok {merged sub : CompressedKvBlock} {off off' n : Sizes} {m : KvModality}
    (hoff : off.Words) (hn : n.Words)
    (h : (takeSub checks merged off n m).run = some (.ok (sub, off'))) :
    sub.sizes = n ∧ sub.channelAlloc = none ∧ off'.Words := by
  simp only [Sizes.Words, Sizes.toList, forall_mem_cons] at hoff hn
  obtain ⟨kbOff, hkb, h⟩ := run_bind_ok.1 h
  obtain ⟨keyBits, hkeyBits, h⟩ := run_bind_ok.1 h
  obtain ⟨kmOff, hkm, h⟩ := run_bind_ok.1 h
  obtain ⟨keyMeta, hkeyMeta, h⟩ := run_bind_ok.1 h
  obtain ⟨vbOff, hvb, h⟩ := run_bind_ok.1 h
  obtain ⟨valueBits, hvalueBits, h⟩ := run_bind_ok.1 h
  obtain ⟨vmOff, hvm, h⟩ := run_bind_ok.1 h
  obtain ⟨valueMeta, hvalueMeta, h⟩ := run_bind_ok.1 h
  obtain ⟨ntOff, hnt, h⟩ := run_bind_ok.1 h
  obtain ⟨rfl, rfl⟩ := Prod.mk.inj (Except.ok.inj (Option.some.inj h))
  obtain ⟨hkbLen, hkbOff⟩ := window_ok hoff.2.2.1 hn.2.2.1 hkb hkeyBits
  obtain ⟨hkmLen, hkmOff⟩ := window_ok hoff.2.1 hn.2.1 hkm hkeyMeta
  obtain ⟨hvbLen, hvbOff⟩ := window_ok hoff.2.2.2.1 hn.2.2.2.1 hvb hvalueBits
  obtain ⟨hvmLen, hvmOff⟩ := window_ok hoff.2.2.2.2.1 hn.2.2.2.2.1 hvm hvalueMeta
  have hntOff : ntOff < 2 ^ 64 := (addUsize_ok hnt).1 ▸ Nat.mod_lt _ (by decide)
  refine ⟨?_, rfl, ?_⟩
  · rw [CompressedKvBlock.sizes]
    simp only [hkbLen, hkmLen, hvbLen, hvmLen]
  · simp only [Sizes.Words, Sizes.toList, forall_mem_cons]
    exact ⟨hntOff, hkmOff, hkbOff, hvbOff, hvmOff, by simp⟩

theorem takeSub_append {merged sub : CompressedKvBlock} {off : Sizes} {nt' : ℕ}
    (kb kb' vb vb' : List UInt8) (km km' vm vm' : List UInt32)
    (hoff : off = ⟨off.numTokens, km.length, kb.length, vb.length, vm.length⟩)
    (hkb : merged.keyBits = kb ++ sub.keyBits ++ kb')
    (hkm : merged.keyMeta = km ++ sub.keyMeta ++ km')
    (hvb : merged.valueBits = vb ++ sub.valueBits ++ vb')
    (hvm : merged.valueMeta = vm ++ sub.valueMeta ++ vm')
    (hfits : ∀ n ∈ merged.sizes.toList.tail, n < 2 ^ 64)
    (hnt : addUsize checks off.numTokens sub.numTokens = pure nt')
    (hheads : merged.numKvHeads = sub.numKvHeads) (hdim : merged.headDim = sub.headDim)
    (halloc : sub.channelAlloc = none) :
    takeSub checks merged off sub.sizes sub.modality =
      pure (sub, ⟨nt', (km ++ sub.keyMeta).length, (kb ++ sub.keyBits).length,
        (vb ++ sub.valueBits).length, (vm ++ sub.valueMeta).length⟩) := by
  simp only [CompressedKvBlock.sizes, Sizes.toList, tail_cons, forall_mem_cons, hkb, hkm,
    hvb, hvm, length_append] at hfits
  obtain ⟨hkmFits, hkbFits, hvbFits, hvmFits, -⟩ := hfits
  rw [hoff]
  simp only [takeSub, CompressedKvBlock.sizes, hkb, hkm, hvb, hvm, hnt, window_append, pure_bind,
    length_append, hheads, hdim, ← halloc,
    addUsize_of_lt (by omega : kb.length + sub.keyBits.length < 2 ^ 64),
    addUsize_of_lt (by omega : km.length + sub.keyMeta.length < 2 ^ 64),
    addUsize_of_lt (by omega : vb.length + sub.valueBits.length < 2 ^ 64),
    addUsize_of_lt (by omega : vm.length + sub.valueMeta.length < 2 ^ 64)]

theorem takeSubs_ok {merged text audio visual : CompressedKvBlock} {t a v : Sizes} (ht : t.Words)
    (ha : a.Words) (hv : v.Words)
    (h : (takeSubs checks merged t a v).run = some (.ok (text, audio, visual))) :
    (text.sizes = t ∧ text.channelAlloc = none) ∧ (audio.sizes = a ∧ audio.channelAlloc = none) ∧
      visual.sizes = v ∧ visual.channelAlloc = none := by
  obtain ⟨totalKm, -, h⟩ := run_bind_ok.1 h
  obtain ⟨totalKb, -, h⟩ := run_bind_ok.1 h
  obtain ⟨totalVb, -, h⟩ := run_bind_ok.1 h
  obtain ⟨totalVm, -, h⟩ := run_bind_ok.1 h
  split_ifs at h with hlens
  · cases h
  · obtain ⟨vmEnd, -, h⟩ := run_bind_ok.1 h
    split_ifs at h with hend
    · cases h
    · have hzero : (⟨0, 0, 0, 0, hdr⟩ : Sizes).Words := by
        change ∀ k ∈ [0, 0, 0, 0, 16], k < 2 ^ 64
        decide
      obtain ⟨⟨textKv, off⟩, htext, h⟩ := run_bind_ok.1 h
      obtain ⟨hsizes, halloc, hoff⟩ := takeSub_ok hzero ht htext
      obtain ⟨⟨audioKv, off'⟩, haudio, h⟩ := run_bind_ok.1 h
      obtain ⟨hsizes', halloc', hoff'⟩ := takeSub_ok hoff ha haudio
      obtain ⟨⟨visualKv, off''⟩, hvisual, h⟩ := run_bind_ok.1 h
      obtain ⟨hsizes'', halloc'', -⟩ := takeSub_ok hoff' hv hvisual
      dsimp only at h
      split_ifs at h with htokens
      · cases h
      · cases h
        exact ⟨⟨hsizes, halloc⟩, ⟨hsizes', halloc'⟩, hsizes'', halloc''⟩

theorem boundaries_sizesAt {h : List ℕ} (hlen : h.length = 15) :
    boundaries (sizesAt h 0) (sizesAt h 1) (sizesAt h 2) = h := by
  refine ext_getElem hlen.symm fun i hi hi' => ?_
  have hget : (boundaries (sizesAt h 0) (sizesAt h 1) (sizesAt h 2))[i] = h.getD i 0 := by
    change i < 15 at hi
    interval_cases i <;> rfl
  rw [hget, getD_eq_getElem _ _ hi']

theorem forall_boundaries {t a v : Sizes} {P : ℕ → Prop} : (∀ n ∈ boundaries t a v, P n) ↔
    (∀ n ∈ t.toList, P n) ∧ (∀ n ∈ a.toList, P n) ∧ ∀ n ∈ v.toList, P n := by
  simp only [boundaries, Sizes.toList, forall_mem_cons]
  tauto

theorem asUsize_ok {v : UInt32} (h : (asUsize v).run = some (.ok n)) : (f32ToU64 v).toNat = n := by
  rw [asUsize] at h
  split_ifs at h
  · cases h
  · exact Except.ok.inj (Option.some.inj h)

theorem splitMergedBlock_ok {merged text audio visual : CompressedKvBlock}
    (h : (splitMergedBlock checks merged).run = some (.ok (text, audio, visual))) :
    List.Forall₂ (fun v n => (asUsize v).run = some (.ok n)) (slice merged.valueMeta 1 15)
      (boundaries text.sizes audio.sizes visual.sizes) ∧
    text.channelAlloc = none ∧ audio.channelAlloc = none ∧ visual.channelAlloc = none := by
  rw [splitMergedBlock] at h
  split_ifs at h with hheader
  · cases h
  · obtain ⟨hs, hread, h⟩ := run_bind_ok.1 h
    have hread := run_mapM_ok.1 hread
    have hlen : hs.length = 15 := by
      have hdrLe : 16 ≤ merged.valueMeta.length := by
        by_contra hlt
        exact hheader (by rw [decide_eq_true (show _ < hdr from not_le.1 hlt), Bool.true_or])
      rw [← hread.length_eq, length_slice]
      omega
    have hall := boundaries_sizesAt hlen
    have hwords : ∀ n ∈ hs, n < 2 ^ 64 := fun n hn => by
      obtain ⟨i, hi, rfl⟩ := mem_iff_getElem.1 hn
      have hget := asUsize_ok (hread.get (hread.length_eq ▸ hi) hi)
      rw [get_eq_getElem, get_eq_getElem] at hget
      rw [← hget]
      exact UInt64.toNat_lt _
    rw [← hall, forall_boundaries] at hwords
    obtain ⟨⟨ht, hta⟩, ⟨ha, haa⟩, hv, hva⟩ := takeSubs_ok hwords.1 hwords.2.1 hwords.2.2 h
    refine ⟨?_, hta, haa, hva⟩
    rw [ht, ha, hv, hall]
    exact hread

/-- The three blocks that are merged, of the same heads and in memory together. -/
structure Parts where
  text : CompressedKvBlock
  audio : CompressedKvBlock
  visual : CompressedKvBlock
  modality : text.modality = .text ∧ audio.modality = .audio ∧ visual.modality = .visual
  numKvHeads : text.numKvHeads = audio.numKvHeads ∧ text.numKvHeads = visual.numKvHeads
  headDim : text.headDim = audio.headDim ∧ text.headDim = visual.headDim
  words : ∀ b ∈ [text, audio, visual], b.numTokens < 2 ^ 64
  fits : ([text, audio, visual].map fun b => b.sizes.toList.tail.sum).sum < 2 ^ 63

namespace Parts

variable (p : Parts)

theorem lt_of_mem (hn : n ∈ boundaries p.text.sizes p.audio.sizes p.visual.sizes) : n < 2 ^ 64 := by
  have hfits := p.fits
  have hwords := p.words
  simp only [forall_mem_cons, CompressedKvBlock.sizes, Sizes.toList, tail_cons,
    map_cons, map_nil, sum_cons, sum_nil] at hfits hwords
  have hall : ∀ n ∈ boundaries p.text.sizes p.audio.sizes p.visual.sizes, n < 2 ^ 64 := by
    rw [forall_boundaries]
    simp only [CompressedKvBlock.sizes, Sizes.toList, forall_mem_cons]
    refine ⟨⟨hwords.1, ?_⟩, ⟨hwords.2.1, ?_⟩, hwords.2.2.1, ?_⟩
    all_goals exact ⟨by omega, by omega, by omega, by omega, by simp⟩
  exact hall n hn

theorem not_short (rest : List UInt32) :
    ¬(decide ((three :: (boundaries p.text.sizes p.audio.sizes p.visual.sizes).map asF32 ++
      rest).length < hdr) || !f32Eq ((three :: (boundaries p.text.sizes p.audio.sizes
        p.visual.sizes).map asF32 ++ rest).getD 0 0) three) = true := by
  have hthree : f32Eq three three = true := by decide +kernel
  rw [cons_append, getD_cons_zero, hthree]
  simp [boundaries, hdr]

end Parts

/-- The number comes back from `f32`; the last word does, as what is above it is cut to it. -/
def Survives (n : ℕ) : Prop := Short n ∨ n = 2 ^ 64 - 1

theorem asUsize_asF32 (hn : n < 2 ^ 64) (h : Survives n) : asUsize (asF32 n) = pure n := by
  rcases h with h | rfl
  · rw [asUsize, asF32, f32OfInt_nonneg hn h, f32Fract_f32OfInt hn h, f32ToU64_f32OfInt hn h]
    rfl
  · have hlast : (asUsize (asF32 (2 ^ 64 - 1))).run = some (.ok (2 ^ 64 - 1)) := by
      decide +kernel
    exact hlast

theorem survives_of_asUsize (h : (asUsize (asF32 n)).run = some (.ok n)) : Survives n := by
  have hback := asUsize_ok h
  have hshort := short_f32ToU64 (f32OfInt n)
  rw [← asF32, hback] at hshort
  exact hshort

theorem takeSubs_append {merged : CompressedKvBlock} {pre : List UInt32} {p : Parts} {ta : ℕ}
    (hkb : merged.keyBits = p.text.keyBits ++ p.audio.keyBits ++ p.visual.keyBits)
    (hkm : merged.keyMeta = p.text.keyMeta ++ p.audio.keyMeta ++ p.visual.keyMeta)
    (hvb : merged.valueBits = p.text.valueBits ++ p.audio.valueBits ++ p.visual.valueBits)
    (hvm : merged.valueMeta =
      pre ++ (p.text.valueMeta ++ p.audio.valueMeta ++ p.visual.valueMeta))
    (hpre : pre.length = hdr) (hheads : merged.numKvHeads = p.text.numKvHeads)
    (hdim : merged.headDim = p.text.headDim)
    (halloc : ∀ b ∈ [p.text, p.audio, p.visual], b.channelAlloc = none)
    (hta : addUsize checks p.text.numTokens p.audio.numTokens = pure ta)
    (htav : addUsize checks ta p.visual.numTokens = pure merged.numTokens) :
    takeSubs checks merged p.text.sizes p.audio.sizes p.visual.sizes =
      pure (p.text, p.audio, p.visual) := by
  have hfits := p.fits
  simp only [CompressedKvBlock.sizes, Sizes.toList, tail_cons, map_cons, map_nil,
    sum_cons, sum_nil] at hfits
  have hmerged : ∀ n ∈ merged.sizes.toList.tail, n < 2 ^ 64 := by
    simp only [CompressedKvBlock.sizes, Sizes.toList, tail_cons, forall_mem_cons, hkb,
      hkm, hvb, hvm, length_append, hpre, hdr]
    refine ⟨by omega, by omega, by omega, by omega, by simp⟩
  have hwords := p.words p.text mem_cons_self
  simp only [forall_mem_cons] at halloc
  obtain ⟨haText, haAudio, haVisual, -⟩ := halloc
  have htext : takeSub checks merged ⟨0, 0, 0, 0, hdr⟩ p.text.sizes p.text.modality = _ :=
    takeSub_append [] (p.audio.keyBits ++ p.visual.keyBits) []
      (p.audio.valueBits ++ p.visual.valueBits) [] (p.audio.keyMeta ++ p.visual.keyMeta) pre
      (p.audio.valueMeta ++ p.visual.valueMeta) (by rw [hpre]; rfl) (by rw [hkb]; simp)
      (by rw [hkm]; simp) (by rw [hvb]; simp) (by rw [hvm]; simp) hmerged
      (addUsize_of_lt (by rwa [Nat.zero_add])) hheads hdim haText
  have haudio : takeSub checks merged ⟨0 + p.text.numTokens, _, _, _, _⟩ p.audio.sizes
      p.audio.modality = _ :=
    takeSub_append p.text.keyBits p.visual.keyBits p.text.valueBits p.visual.valueBits
      p.text.keyMeta p.visual.keyMeta (pre ++ p.text.valueMeta) p.visual.valueMeta rfl hkb hkm hvb
      (by rw [hvm]; simp) hmerged (by rw [Nat.zero_add]; exact hta)
      (hheads.trans p.numKvHeads.1) (hdim.trans p.headDim.1) haAudio
  have hvisual : takeSub checks merged ⟨ta, _, _, _, _⟩ p.visual.sizes p.visual.modality = _ :=
    takeSub_append (p.text.keyBits ++ p.audio.keyBits) [] (p.text.valueBits ++ p.audio.valueBits)
      [] (p.text.keyMeta ++ p.audio.keyMeta) [] (pre ++ p.text.valueMeta ++ p.audio.valueMeta) []
      rfl (by rw [hkb]; simp) (by rw [hkm]; simp) (by rw [hvb]; simp) (by rw [hvm]; simp) hmerged
      htav (hheads.trans p.numKvHeads.2) (hdim.trans p.headDim.2) haVisual
  rw [p.modality.1] at htext
  rw [p.modality.2.1] at haudio
  rw [p.modality.2.2] at hvisual
  have hsum : ∀ f : Sizes → ℕ, f p.text.sizes + f p.audio.sizes + f p.visual.sizes < 2 ^ 63 →
      sumUsize checks [f p.text.sizes, f p.audio.sizes, f p.visual.sizes] =
        pure (f p.text.sizes + f p.audio.sizes + f p.visual.sizes) :=
    fun f hf => sumUsize_of_lt (by omega)
  rw [takeSubs, hsum Sizes.keyMeta (by simp only [CompressedKvBlock.sizes]; omega),
    hsum Sizes.keyBits (by simp only [CompressedKvBlock.sizes]; omega),
    hsum Sizes.valueBits (by simp only [CompressedKvBlock.sizes]; omega),
    hsum Sizes.valueMeta (by simp only [CompressedKvBlock.sizes]; omega)]
  simp only [pure_bind]
  rw [if_neg (by simp only [hkb, hkm, hvb, CompressedKvBlock.sizes, length_append]; omega),
    addUsize_of_lt (by simp only [CompressedKvBlock.sizes, hdr]; omega), pure_bind,
    if_neg (by simp only [hvm, hpre, CompressedKvBlock.sizes, length_append]; omega)]
  simp only [htext, pure_bind, nil_append, haudio, hvisual]
  rw [if_neg (fun h => h rfl)]

/-- Splitting gives the merged blocks back just when none has a channel allocation and every count
comes back from `f32`; with overflow checks the tokens must not overflow either. -/
theorem split_merge_iff (checks : Bool) (p : Parts) :
    (mergeAcrossModalities checks p.text p.audio p.visual >>= splitMergedBlock checks).run =
        some (.ok (p.text, p.audio, p.visual)) ↔
      (∀ b ∈ [p.text, p.audio, p.visual],
        b.channelAlloc = none ∧ ∀ n ∈ b.sizes.toList, Survives n) ∧
      (checks = true →
        p.text.numTokens + p.audio.numTokens + p.visual.numTokens < 2 ^ 64) := by
  constructor
  · intro h
    obtain ⟨merged, hmerge, hsplit⟩ := run_bind_ok.1 h
    obtain ⟨ta, hta, hmerge⟩ := run_bind_ok.1 hmerge
    obtain ⟨tav, htav, hmerge⟩ := run_bind_ok.1 hmerge
    obtain ⟨hread, haText, haAudio, haVisual⟩ := splitMergedBlock_ok hsplit
    obtain rfl := Except.ok.inj (Option.some.inj hmerge)
    have hread : List.Forall₂ (fun v n => (asUsize v).run = some (.ok n))
        ((boundaries p.text.sizes p.audio.sizes p.visual.sizes).map asF32)
        (boundaries p.text.sizes p.audio.sizes p.visual.sizes) := hread
    rw [List.forall₂_map_left_iff, List.forall₂_same] at hread
    obtain ⟨hText, hAudio, hVisual⟩ :=
      forall_boundaries.1 fun n hn => survives_of_asUsize (hread n hn)
    refine ⟨?_, fun hchecks => ?_⟩
    · simp only [forall_mem_cons]
      exact ⟨⟨haText, hText⟩, ⟨haAudio, hAudio⟩, ⟨haVisual, hVisual⟩, by simp⟩
    · obtain ⟨hsum, hlt⟩ := addUsize_ok hta
      have hlt := hlt hchecks
      rw [Nat.mod_eq_of_lt hlt] at hsum
      exact hsum ▸ (addUsize_ok htav).2 hchecks
  · rintro ⟨hkept, htokens⟩
    have hta := addUsize_eq fun h => (by have := htokens h; omega :
      p.text.numTokens + p.audio.numTokens < 2 ^ 64)
    have htav := addUsize_eq fun h => (by have := htokens h; omega :
      (p.text.numTokens + p.audio.numTokens) % 2 ^ 64 + p.visual.numTokens < 2 ^ 64)
    have hmerge : (mergeAcrossModalities checks p.text p.audio p.visual).run = some (.ok _) :=
      run_bind_ok.2 ⟨_, congrArg ExceptT.run hta, run_bind_ok.2 ⟨_, congrArg ExceptT.run htav, rfl⟩⟩
    simp only [forall_mem_cons] at hkept
    obtain ⟨⟨haText, hText⟩, ⟨haAudio, hAudio⟩, ⟨haVisual, hVisual⟩, -⟩ := hkept
    have hsurvives := forall_boundaries.2 ⟨hText, hAudio, hVisual⟩
    have hread := run_mapM_ok.2 (List.forall₂_map_left_iff.2 (List.forall₂_same.2 fun n hn =>
      congrArg ExceptT.run (asUsize_asF32 (p.lt_of_mem hn) (hsurvives n hn))))
    refine run_bind_ok.2 ⟨_, hmerge, ?_⟩
    rw [splitMergedBlock, if_neg (p.not_short _)]
    refine run_bind_ok.2 ⟨_, hread, ?_⟩
    exact congrArg ExceptT.run (takeSubs_append rfl rfl rfl rfl rfl rfl rfl
      (by simp only [forall_mem_cons]; exact ⟨haText, haAudio, haVisual, by simp⟩) hta htav)

/-- A text block of one token whose keys have three bits, and two blocks of no tokens. -/
def allocated : Parts where
  text := ⟨[39], [0x3F3504F3], [31, 0], [0x3F800000, 0], 1, 1, 2, .text,
    some ⟨1, 2, 32, [[3]], [[5]]⟩⟩
  audio := ⟨[], [], [], [], 0, 1, 2, .audio, none⟩
  visual := ⟨[], [], [], [], 0, 1, 2, .visual, none⟩
  modality := ⟨rfl, rfl, rfl⟩
  numKvHeads := ⟨rfl, rfl⟩
  headDim := ⟨rfl, rfl⟩
  words := by decide
  fits := by decide

/-- The allocation of the text block is lost. -/
theorem merge_drops_allocation : ¬∀ (checks : Bool) (p : Parts),
    (mergeAcrossModalities checks p.text p.audio p.visual >>= splitMergedBlock checks).run =
      some (.ok (p.text, p.audio, p.visual)) := by
  intro h
  exact absurd (h true allocated) (by decide +kernel)

end Grim.KvQuant
