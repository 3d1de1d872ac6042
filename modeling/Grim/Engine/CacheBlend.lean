import Grim.Lib.Tiling

/-!
# The plan of a stitched prompt

`planStitchedPrompt` walks over the hashes of a prompt's chunks: a chunk the lookup knows becomes a
cached segment, and the chunks between two of these one range to compute.  The positions are
`usize`, with products and sums that wrap.
-/

namespace Grim.Engine

open Tiling List

/-- Arithmetic of a `usize` in a release build. -/
def wrapUsize (n : ℕ) : ℕ := n % 2 ^ 64

structure CachedSegment where
  promptStart : ℕ
  tokenLen : ℕ
  blockIds : List ℕ
  chunkHash : UInt64
deriving DecidableEq, Repr

structure StitchedPromptLayout where
  totalTokens : ℕ
  cachedSegments : List CachedSegment
  computeRanges : List (ℕ × ℕ)
  cachedTokenCount : ℕ
deriving DecidableEq, Repr

structure Stitching where
  cachedSegments : List CachedSegment
  computeRanges : List (ℕ × ℕ)
  currentComputeStart : Option ℕ
  cachedTokens : ℕ

namespace Stitching

def new : Stitching := ⟨[], [], none, 0⟩

/-- A range that is still open ends at `stop`. -/
def close (s : Stitching) (stop : ℕ) : List (ℕ × ℕ) :=
  match s.currentComputeStart with
  | some start => s.computeRanges ++ [(start, stop)]
  | none => s.computeRanges

/-- One round of the loop, for the chunk `i`. -/
def step (tokensPerChunk : ℕ) (lookup : UInt64 → Option (List ℕ)) (s : Stitching)
    (chunk : UInt64 × ℕ) : Stitching :=
  let promptOffset := wrapUsize (chunk.2 * tokensPerChunk)
  match lookup chunk.1 with
  | some blocks =>
    { cachedSegments := s.cachedSegments ++ [⟨promptOffset, tokensPerChunk, blocks, chunk.1⟩]
      computeRanges := s.close promptOffset
      currentComputeStart := none
      cachedTokens := wrapUsize (s.cachedTokens + tokensPerChunk) }
  | none => { s with currentComputeStart := s.currentComputeStart <|> some promptOffset }

end Stitching

def stitch (hashes : List UInt64) (tokensPerChunk : ℕ) (lookup : UInt64 → Option (List ℕ)) :
    Stitching :=
  hashes.zipIdx.foldl (Stitching.step tokensPerChunk lookup) Stitching.new

/-- `CacheBlendEngine::plan_stitched_prompt` -/
def planStitchedPrompt (hashes : List UInt64) (tokensPerChunk : ℕ)
    (lookup : UInt64 → Option (List ℕ)) : StitchedPromptLayout :=
  let totalTokens := wrapUsize (hashes.length * tokensPerChunk)
  let s := stitch hashes tokensPerChunk lookup
  { totalTokens := totalTokens
    cachedSegments := s.cachedSegments
    computeRanges := s.close totalTokens
    cachedTokenCount := s.cachedTokens }

namespace CachedSegment

def extent (x : CachedSegment) : ℕ × ℕ := (x.promptStart, x.promptStart + x.tokenLen)

end CachedSegment

/-- What a plan is for: the segments and the ranges tile the prompt, each segment is what the
lookup knows of the chunk at its place, and the count is that of the tokens in segments. -/
structure StitchedPromptLayout.Stitches (hashes : List UInt64) (tokensPerChunk : ℕ)
    (lookup : UInt64 → Option (List ℕ)) (plan : StitchedPromptLayout) : Prop where
  tiles : Tiled (hashes.length * tokensPerChunk) (plan.cachedSegments.map CachedSegment.extent)
    plan.computeRanges
  known : ∀ x ∈ plan.cachedSegments, lookup x.chunkHash = some x.blockIds ∧
    ∃ i, hashes[i]? = some x.chunkHash ∧ x.promptStart = i * tokensPerChunk ∧
      x.tokenLen = tokensPerChunk
  count : plan.cachedTokenCount = (plan.cachedSegments.map CachedSegment.tokenLen).sum

variable {hashes : List UInt64} {h : UInt64} {c : ℕ} {lookup : UInt64 → Option (List ℕ)}

theorem wrapUsize_of_lt {n : ℕ} (h : n < 2 ^ 64) : wrapUsize n = n := Nat.mod_eq_of_lt h

theorem wrapUsize_lt (n : ℕ) : wrapUsize n < 2 ^ 64 := Nat.mod_lt _ (by norm_num)

theorem stitch_concat : stitch (hashes ++ [h]) c lookup
    = (stitch hashes c lookup).step c lookup (h, hashes.length) := by
  simp [stitch, zipIdx_append, foldl_append]

namespace Stitching

/-- What holds after the chunks `hashes`, with the open range closed where they end. -/
structure Laid (hashes : List UInt64) (c : ℕ) (lookup : UInt64 → Option (List ℕ))
    (s : Stitching) : Prop where
  tiles : Tiled (hashes.length * c) (s.cachedSegments.map CachedSegment.extent)
    (s.close (hashes.length * c))
  known : ∀ x ∈ s.cachedSegments, lookup x.chunkHash = some x.blockIds ∧
    ∃ i, hashes[i]? = some x.chunkHash ∧ x.promptStart = i * c ∧ x.tokenLen = c
  ranges : ∀ y ∈ s.close (hashes.length * c), y.1 < y.2

variable {s : Stitching}

theorem Laid.segments (hl : s.Laid hashes c lookup) (hc : 0 < c) :
    ∀ x ∈ s.cachedSegments.map CachedSegment.extent, x.1 < x.2 := by
  intro x hx
  obtain ⟨y, hy, rfl⟩ := mem_map.1 hx
  obtain ⟨-, i, -, -, hlen⟩ := hl.known y hy
  show y.promptStart < y.promptStart + y.tokenLen
  omega

theorem Laid.known_concat (hl : s.Laid hashes c lookup) : ∀ x ∈ s.cachedSegments,
    lookup x.chunkHash = some x.blockIds ∧
      ∃ i, (hashes ++ [h])[i]? = some x.chunkHash ∧ x.promptStart = i * c ∧ x.tokenLen = c := by
  intro x hx
  obtain ⟨hlook, i, hi, hstart, hlen⟩ := hl.known x hx
  have hlt := (List.getElem?_eq_some_iff.1 hi).1
  exact ⟨hlook, i, by rw [getElem?_append_left hlt, hi], hstart, hlen⟩

theorem laid_new : new.Laid [] c lookup :=
  ⟨by simpa [new, close] using tiled_nil, by simp [new], by simp [new, close]⟩

theorem Laid.hit (hl : s.Laid hashes c lookup) (hc : 0 < c) {blocks : List ℕ}
    (hlook : lookup h = some blocks) (hfit : hashes.length * c < 2 ^ 64) :
    (s.step c lookup (h, hashes.length)).Laid (hashes ++ [h]) c lookup := by
  have hlen : (hashes ++ [h]).length * c = hashes.length * c + c := by
    rw [length_append, length_singleton]
    ring
  have hpush := hl.tiles.push (Nat.le_add_right _ c) (hl.segments hc) hl.ranges
  simp only [step, hlook, wrapUsize_of_lt hfit]
  refine ⟨?_, fun x hx => ?_, hl.ranges⟩
  · rw [hlen]
    simpa [close, CachedSegment.extent] using hpush
  · rcases mem_append.1 hx with hx | hx
    · exact hl.known_concat x hx
    · rw [mem_singleton.1 hx]
      exact ⟨hlook, hashes.length, by simp, rfl, rfl⟩

theorem Laid.miss (hl : s.Laid hashes c lookup) (hc : 0 < c) (hlook : lookup h = none)
    (hfit : hashes.length * c < 2 ^ 64) :
    (s.step c lookup (h, hashes.length)).Laid (hashes ++ [h]) c lookup := by
  have hlen : (hashes ++ [h]).length * c = hashes.length * c + c := by
    rw [length_append, length_singleton]
    ring
  simp only [step, hlook, wrapUsize_of_lt hfit]
  cases hopen : s.currentComputeStart with
  | none =>
    have hclose : s.close (hashes.length * c) = s.computeRanges := by simp only [close, hopen]
    have hpush := hl.tiles.swap.push (Nat.le_add_right _ c) hl.ranges (hl.segments hc)
    have hold := hl.ranges
    rw [hclose] at hpush hold
    refine ⟨?_, hl.known_concat, ?_⟩
    · rw [hlen]
      exact hpush.swap
    · intro y hy
      rw [hlen] at hy
      rcases mem_append.1 hy with hy | hy
      · exact hold y hy
      · rw [mem_singleton.1 hy]
        exact Nat.lt_add_of_pos_right hc
  | some start =>
    have hclose : s.close (hashes.length * c) = s.computeRanges ++
        [(start, hashes.length * c)] := by
      simp only [close, hopen]
    have hold := hl.ranges
    have htiles := hl.tiles
    rw [hclose] at hold htiles
    have hstart : start < hashes.length * c := hold (start, _) (by simp)
    refine ⟨?_, hl.known_concat, ?_⟩
    · rw [hlen]
      exact htiles.extend hstart (Nat.le_add_right _ c) (hl.segments hc)
    · intro y hy
      rw [hlen] at hy
      rcases mem_append.1 hy with hy | hy
      · exact hold y (mem_append_left _ hy)
      · rw [mem_singleton.1 hy]
        exact hstart.trans_le (Nat.le_add_right _ c)

theorem Laid.step (hl : s.Laid hashes c lookup) (hc : 0 < c)
    (hfit : hashes.length * c < 2 ^ 64) :
    (s.step c lookup (h, hashes.length)).Laid (hashes ++ [h]) c lookup := by
  cases hlook : lookup h with
  | some blocks => exact hl.hit hc hlook hfit
  | none => exact hl.miss hc hlook hfit

theorem laid_stitch (hc : 0 < c) : ∀ {hashes : List UInt64},
    (hashes.length - 1) * c < 2 ^ 64 → (stitch hashes c lookup).Laid hashes c lookup := by
  intro hashes
  induction hashes using List.reverseRecOn with
  | nil => exact fun _ => laid_new
  | append_singleton hashes h ih =>
    intro hfit
    rw [length_append, length_singleton, Nat.add_sub_cancel] at hfit
    rw [stitch_concat]
    exact (ih ((Nat.mul_le_mul_right c (Nat.sub_le _ 1)).trans_lt hfit)).step hc hfit

theorem cachedTokens_stitch (c : ℕ) (lookup : UInt64 → Option (List ℕ)) :
    ∀ hashes : List UInt64, (stitch hashes c lookup).cachedTokens
        = wrapUsize (hashes.countP (fun h => (lookup h).isSome) * c)
      ∧ (stitch hashes c lookup).cachedSegments.map CachedSegment.tokenLen
        = List.replicate (hashes.countP (fun h => (lookup h).isSome)) c := by
  intro hashes
  induction hashes using List.reverseRecOn with
  | nil => simp [stitch, new, wrapUsize]
  | append_singleton hashes h ih =>
    obtain ⟨htokens, hlens⟩ := ih
    rw [stitch_concat, countP_append, countP_singleton]
    cases hlook : lookup h with
    | none =>
      simp only [step, hlook, Option.isSome_none, Bool.false_eq_true, ↓reduceIte, add_zero]
      exact ⟨htokens, hlens⟩
    | some blocks =>
      simp only [step, hlook, Option.isSome_some, ↓reduceIte, map_append, htokens, hlens]
      refine ⟨?_, replicate_succ'.symm⟩
      unfold wrapUsize
      rw [Nat.mod_add_mod, Nat.succ_mul]

theorem currentComputeStart_stitch : ∀ hashes : List UInt64,
    (stitch hashes c lookup).currentComputeStart.isSome
      = (hashes.getLast?.any fun h => (lookup h).isNone) := by
  intro hashes
  induction hashes using List.reverseRecOn with
  | nil => rfl
  | append_singleton hashes h ih =>
    rw [stitch_concat, getLast?_concat]
    cases hlook : lookup h with
    | none => cases (stitch hashes c lookup).currentComputeStart <;> simp [step, hlook]
    | some blocks => simp [step, hlook]

theorem close_eq_of_closed {s : Stitching} (h : s.currentComputeStart.isSome = false) (m n : ℕ) :
    s.close m = s.close n := by
  rw [Option.isSome_eq_false_iff, Option.isNone_iff_eq_none] at h
  simp only [close, h]

theorem computeRanges_lt : ∀ hashes : List UInt64,
    (∀ y ∈ (stitch hashes c lookup).computeRanges, y.2 < 2 ^ 64) := by
  intro hashes
  induction hashes using List.reverseRecOn with
  | nil => exact fun y hy => absurd hy (not_mem_nil)
  | append_singleton hashes h ih =>
    rw [stitch_concat]
    cases hlook : lookup h with
    | none => simpa only [step, hlook] using ih
    | some blocks =>
      simp only [step, hlook, close]
      split
      · intro y hy
        rcases mem_append.1 hy with hy | hy
        · exact ih y hy
        · rw [mem_singleton.1 hy]
          exact wrapUsize_lt _
      · exact ih

theorem cachedSegments_lt : ∀ hashes : List UInt64,
    (∀ x ∈ (stitch hashes c lookup).cachedSegments, x.promptStart < 2 ^ 64) := by
  intro hashes
  induction hashes using List.reverseRecOn with
  | nil => exact fun x hx => absurd hx (not_mem_nil)
  | append_singleton hashes h ih =>
    rw [stitch_concat]
    cases hlook : lookup h with
    | none => simpa only [step, hlook] using ih
    | some blocks =>
      simp only [step, hlook]
      intro x hx
      rcases mem_append.1 hx with hx | hx
      · exact ih x hx
      · rw [mem_singleton.1 hx]
        exact wrapUsize_lt _

end Stitching

/-- The positions of the plan fit: the offset of the last chunk, the count of the cached tokens,
and the end of the prompt where a range ends there. -/
def PlanFits (hashes : List UInt64) (c : ℕ) (lookup : UInt64 → Option (List ℕ)) : Prop :=
  (hashes.length - 1) * c < 2 ^ 64
    ∧ hashes.countP (fun h => (lookup h).isSome) * c < 2 ^ 64
    ∧ ((hashes.getLast?.any fun h => (lookup h).isNone) = true → hashes.length * c < 2 ^ 64)

theorem stitches_of_planFits (hc : 0 < c) (hfits : PlanFits hashes c lookup) :
    (planStitchedPrompt hashes c lookup).Stitches hashes c lookup := by
  obtain ⟨hoffsets, hcount, hend⟩ := hfits
  have hlaid : (stitch hashes c lookup).Laid hashes c lookup := Stitching.laid_stitch hc hoffsets
  obtain ⟨htokens, hlens⟩ := Stitching.cachedTokens_stitch c lookup hashes
  have hclose : (planStitchedPrompt hashes c lookup).computeRanges
      = (stitch hashes c lookup).close (hashes.length * c) := by
    show (stitch hashes c lookup).close (wrapUsize (hashes.length * c)) = _
    cases hlast : (hashes.getLast?.any fun h => (lookup h).isNone) with
    | false =>
      refine Stitching.close_eq_of_closed ?_ _ _
      rw [Stitching.currentComputeStart_stitch, hlast]
    | true => rw [wrapUsize_of_lt (hend hlast)]
  refine ⟨?_, hlaid.known, ?_⟩
  · rw [hclose]
    exact hlaid.tiles
  · show (stitch hashes c lookup).cachedTokens = _
    rw [htokens, wrapUsize_of_lt hcount]
    show _ = ((stitch hashes c lookup).cachedSegments.map CachedSegment.tokenLen).sum
    rw [hlens, sum_replicate, smul_eq_mul]

theorem last_known (hc : 0 < c) (hne : hashes ≠ []) (hbig : 2 ^ 64 ≤ hashes.length * c)
    (hplan : (planStitchedPrompt hashes c lookup).Stitches hashes c lookup) :
    ∃ x ∈ (planStitchedPrompt hashes c lookup).cachedSegments,
      hashes[hashes.length - 1]? = some x.chunkHash ∧ x.promptStart = (hashes.length - 1) * c := by
  have hpos : 0 < hashes.length := length_pos_iff.2 hne
  have hprod : hashes.length * c = (hashes.length - 1) * c + c := by
    conv_lhs => rw [show hashes.length = hashes.length - 1 + 1 by omega]
    ring
  rcases (hplan.tiles.exact (hashes.length * c - 1)).2 (by omega) with hcover | hcover
  · obtain ⟨y, hy, -, hlt⟩ := hcover
    obtain ⟨x, hx, rfl⟩ := mem_map.1 hy
    obtain ⟨-, i, hi, hstart, hlen⟩ := hplan.known x hx
    have hle : i < hashes.length := (List.getElem?_eq_some_iff.1 hi).1
    have hreach : hashes.length * c - 1 < x.promptStart + x.tokenLen := hlt
    have hlast : i = hashes.length - 1 := by
      by_contra hne'
      have hi' : (i + 1) * c ≤ (hashes.length - 1) * c := Nat.mul_le_mul_right c (by omega)
      rw [Nat.succ_mul] at hi'
      omega
    exact ⟨x, hx, hlast ▸ hi, hlast ▸ hstart⟩
  · obtain ⟨y, hy, -, hlt⟩ := hcover
    have hend : y.2 < 2 ^ 64 := by
      have hy : y ∈ (stitch hashes c lookup).close (wrapUsize (hashes.length * c)) := hy
      unfold Stitching.close at hy
      split at hy
      · rcases mem_append.1 hy with hy | hy
        · exact Stitching.computeRanges_lt hashes y hy
        · rw [mem_singleton.1 hy]
          exact wrapUsize_lt _
      · exact Stitching.computeRanges_lt hashes y hy
    omega

/-- The segments and ranges tile the prompt exactly when the positions fit a `usize`. -/
theorem planStitchedPrompt_stitches_iff (hashes : List UInt64) (c : ℕ)
    (lookup : UInt64 → Option (List ℕ)) (hc : 0 < c) :
    (planStitchedPrompt hashes c lookup).Stitches hashes c lookup ↔ PlanFits hashes c lookup := by
  refine ⟨fun hplan => ⟨?_, ?_, ?_⟩, stitches_of_planFits hc⟩
  · by_contra hbig
    have hprod : (hashes.length - 1) * c ≤ hashes.length * c :=
      Nat.mul_le_mul_right c (Nat.sub_le _ 1)
    have hne : hashes ≠ [] := by
      rintro rfl
      simp at hbig
    obtain ⟨x, hx, -, hstart⟩ := last_known hc hne (by omega) hplan
    have hlt := Stitching.cachedSegments_lt hashes x hx
    omega
  · have hcount : (stitch hashes c lookup).cachedTokens
        = ((stitch hashes c lookup).cachedSegments.map CachedSegment.tokenLen).sum := hplan.count
    obtain ⟨htokens, hlens⟩ := Stitching.cachedTokens_stitch c lookup hashes
    rw [htokens, hlens, sum_replicate, smul_eq_mul] at hcount
    exact hcount ▸ wrapUsize_lt _
  · intro hlast
    by_contra hbig
    have hne : hashes ≠ [] := by
      rintro rfl
      simp at hlast
    obtain ⟨x, hx, hhash, -⟩ := last_known hc hne (by omega) hplan
    rw [getLast?_eq_getElem?, hhash, Option.any_some, (hplan.known x hx).1] at hlast
    simp at hlast

theorem planStitchedPrompt_stitches_iff_two : 0 < 64 ∧
    ((planStitchedPrompt [1, 2] 64 fun h => if h = 1 then some [3] else none).Stitches [1, 2] 64
      (fun h => if h = 1 then some [3] else none) ↔
        PlanFits [1, 2] 64 fun h => if h = 1 then some [3] else none) :=
  ⟨by decide, planStitchedPrompt_stitches_iff _ _ _ (by decide)⟩

/-- Two chunks of `2 ^ 63` tokens, of which the cache has neither: the range to compute is empty. -/
theorem planStitchedPrompt_wraps : ¬ (planStitchedPrompt [1, 2] (2 ^ 63) fun _ => none).Stitches
    [1, 2] (2 ^ 63) fun _ => none := by
  intro hplan
  have hcover := (hplan.tiles.exact 0).2 (by decide)
  revert hcover
  simp [planStitchedPrompt, stitch, Stitching.step, Stitching.close, Stitching.new, wrapUsize,
    Covers]

end Grim.Engine
