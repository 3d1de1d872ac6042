import Grim.KvQuant.Block
import Grim.Lib.Ranking
import Mathlib.Data.List.GetD

/-!
# Evicting blocks by salience

Every block has a salience, a weighted sum of three scores where a score that is missing counts as
zero.  The blocks of the greatest saliences are kept and the others emptied.  Scores and weights are
rational numbers.
-/

namespace Grim.KvQuant

open Ranking List

structure SalienceScores where
  attention : List ℚ
  audioEnergy : List ℚ
  motionMagnitude : List ℚ

structure KvOmniEvictor where
  /-- `config.modality_weights` -/
  modalityWeights : KvModality → Option ℚ

def markStale (b : CompressedKvBlock) : CompressedKvBlock :=
  { b with keyBits := [], valueBits := [], keyMeta := [], valueMeta := [], numTokens := 0 }

def topIndices (salience : List ℚ) (totalBudget : ℕ) : List ℕ :=
  let indexed := salience.zipIdx.insertionSort fun a b => b.1 ≤ a.1
  (indexed.take (min totalBudget indexed.length)).map Prod.snd

namespace KvOmniEvictor

variable (e : KvOmniEvictor)

def modalityWeightsVec : KvModality → ℚ
  | .text => (e.modalityWeights .text).getD 1
  | .audio => (e.modalityWeights .audio).getD (8 / 10)
  | .visual => (e.modalityWeights .visual).getD (6 / 10)

def salienceAt (s : SalienceScores) (i : ℕ) : ℚ :=
  s.attention.getD i 0 * e.modalityWeightsVec .text +
    s.audioEnergy.getD i 0 * e.modalityWeightsVec .audio +
    s.motionMagnitude.getD i 0 * e.modalityWeightsVec .visual

def computeCrossModalSalience (s : SalienceScores) : List ℚ :=
  (List.range (max (max s.attention.length s.audioEnergy.length) s.motionMagnitude.length)).map
    (e.salienceAt s)

/-- Evicting, where `mark` is what is done to a block that is not kept. -/
def evictWith {β : Type} (mark : β → β) (blocks : List β) (s : SalienceScores)
    (totalBudget : ℕ) : List β × List ℕ :=
  if blocks.isEmpty || totalBudget = 0 then (blocks, [])
  else
    let preserved := topIndices (e.computeCrossModalSalience s) totalBudget
    (blocks.mapIdx fun i b => if i ∈ preserved then b else mark b, preserved)

def evict : List CompressedKvBlock → SalienceScores → ℕ → List CompressedKvBlock × List ℕ :=
  e.evictWith markStale

/-- The blocks that are marked stale, by the same steps over flags. -/
def marks (blocks : List CompressedKvBlock) (s : SalienceScores) (totalBudget : ℕ) : List Bool :=
  (e.evictWith (fun _ => true) (blocks.map fun _ => false) s totalBudget).1

structure KeepsBest (blocks : List CompressedKvBlock) (s : SalienceScores) (totalBudget : ℕ) :
    Prop where
  within : (e.marks blocks s totalBudget).count false ≤ totalBudget
  nodup : (e.evict blocks s totalBudget).2.Nodup
  exact : ∀ i : ℕ, i ∈ (e.evict blocks s totalBudget).2 ↔
    (e.marks blocks s totalBudget)[i]? = some false
  unchanged : ∀ i : ℕ, (e.marks blocks s totalBudget)[i]? = some false →
    (e.evict blocks s totalBudget).1[i]? = blocks[i]?
  emptied : ∀ i : ℕ, (e.marks blocks s totalBudget)[i]? = some true →
    (e.evict blocks s totalBudget).1[i]? = blocks[i]?.map markStale
  best : ∀ i j : ℕ, (e.marks blocks s totalBudget)[i]? = some true →
    (e.marks blocks s totalBudget)[j]? = some false → e.salienceAt s i ≤ e.salienceAt s j

def scored (s : SalienceScores) : ℕ := (e.computeCrossModalSalience s).length

def rank (s : SalienceScores) (i : ℕ) : ℕ :=
  (List.range (e.scored s)).countP fun j => Ahead (e.salienceAt s) j i

/-- A score that no block has is not among the best, and a block that has none is not better than
one of the best. -/
structure Matched (blocks : List CompressedKvBlock) (s : SalienceScores) (totalBudget : ℕ) :
    Prop where
  budget : 0 < totalBudget
  beyond : ∀ i < e.scored s, blocks.length ≤ i → totalBudget ≤ e.rank s i
  missing : e.scored s < blocks.length →
    ∀ i < e.scored s, e.rank s i < totalBudget → 0 ≤ e.salienceAt s i

variable {e} {blocks : List CompressedKvBlock} {s : SalienceScores} {totalBudget i : ℕ}

theorem topIndices_map (f : ℕ → ℚ) (n k : ℕ) :
    topIndices ((List.range n).map f) k = (ranking f n).take k := by
  have hpair : ((List.range n).map f).zipIdx = (List.range n).map fun i => (f i, i) := by
    refine ext_getElem (by simp) fun i hi hi' => ?_
    simp
  have hsort : (((List.range n).map f).zipIdx.insertionSort fun a b => b.1 ≤ a.1) =
      (ranking f n).map fun i => (f i, i) := by
    rw [hpair, ranking]
    exact (map_insertionSort (fun i j => f j ≤ f i) (fun a b : ℚ × ℕ => b.1 ≤ a.1)
      (fun i => (f i, i)) _ fun i _ j _ => Iff.rfl).symm
  simp only [topIndices, hsort, length_map, length_ranking, ← map_take, map_map]
  rw [Function.comp_def, map_id', ← take_take]
  rw [take_of_length_le (length_ranking f n).le]

theorem mem_kept : i ∈ topIndices (e.computeCrossModalSalience s) totalBudget ↔
    i < e.scored s ∧ e.rank s i < totalBudget := by
  rw [rank, scored, computeCrossModalSalience, topIndices_map, length_map, length_range]
  exact mem_take_ranking

theorem nodup_kept (e : KvOmniEvictor) (s : SalienceScores) (totalBudget : ℕ) :
    (topIndices (e.computeCrossModalSalience s) totalBudget).Nodup := by
  rw [computeCrossModalSalience, topIndices_map]
  exact (nodup_ranking _ _).sublist (take_sublist _ _)

theorem length_kept_le (e : KvOmniEvictor) (s : SalienceScores) (totalBudget : ℕ) :
    (topIndices (e.computeCrossModalSalience s) totalBudget).length ≤ totalBudget := by
  rw [computeCrossModalSalience, topIndices_map, length_take]
  exact Nat.min_le_left _ _

theorem kept_best {j : ℕ} (hi : i < e.scored s)
    (hni : i ∉ topIndices (e.computeCrossModalSalience s) totalBudget)
    (hj : j ∈ topIndices (e.computeCrossModalSalience s) totalBudget) :
    e.salienceAt s i ≤ e.salienceAt s j := by
  rw [scored, computeCrossModalSalience, length_map, length_range] at hi
  rw [computeCrossModalSalience, topIndices_map] at hni hj
  exact le_of_mem_take hi hni hj

theorem salienceAt_of_le (hi : e.scored s ≤ i) : e.salienceAt s i = 0 := by
  rw [scored, computeCrossModalSalience, length_map, length_range] at hi
  rw [salienceAt, getD_eq_default _ _ (by omega), getD_eq_default _ _ (by omega),
    getD_eq_default _ _ (by omega)]
  ring

section Evicting

variable {β : Type} {mark : β → β} {bs : List β}

theorem evictWith_skips (h : bs = [] ∨ totalBudget = 0) :
    e.evictWith mark bs s totalBudget = (bs, []) := by
  rw [evictWith, if_pos]
  rcases h with rfl | rfl <;> simp

theorem evictWith_evicts (hne : bs ≠ []) (hbudget : 0 < totalBudget) :
    e.evictWith mark bs s totalBudget =
      (bs.mapIdx fun i b =>
        if i ∈ topIndices (e.computeCrossModalSalience s) totalBudget then b else mark b,
        topIndices (e.computeCrossModalSalience s) totalBudget) := by
  rw [evictWith, if_neg]
  simp [hne, hbudget.ne']

end Evicting

theorem getElem?_marks (hne : blocks ≠ []) (hbudget : 0 < totalBudget) (i : ℕ) :
    (e.marks blocks s totalBudget)[i]? = if i < blocks.length then
      some (decide (i ∉ topIndices (e.computeCrossModalSalience s) totalBudget)) else none := by
  rw [marks, evictWith_evicts (by simpa using hne) hbudget, getElem?_mapIdx,
    getElem?_map]
  by_cases hi : i < blocks.length
  · rw [if_pos hi, getElem?_eq_getElem hi]
    simp only [Option.map_some]
    split_ifs with hmem <;> simp [hmem]
  · rw [if_neg hi, getElem?_eq_none (by omega)]
    rfl

theorem count_marks_le (hne : blocks ≠ []) (hbudget : 0 < totalBudget) :
    (e.marks blocks s totalBudget).count false ≤ totalBudget := by
  set kept := topIndices (e.computeCrossModalSalience s) totalBudget with hkept
  have hmarks : e.marks blocks s totalBudget =
      (List.range blocks.length).map fun i => decide (i ∉ kept) := by
    refine ext_getElem? fun i => ?_
    rw [getElem?_marks hne hbudget, getElem?_map]
    split_ifs with hi
    · rw [getElem?_range hi]
      rfl
    · rw [getElem?_eq_none (by simpa using hi)]
      rfl
  have hsub : (List.range blocks.length).filter (fun i => decide (i ∈ kept)) ⊆ kept :=
    fun i hi => of_decide_eq_true (mem_filter.1 hi).2
  have hle := (subperm_of_subset (nodup_range.filter _) hsub).length_le
  rw [hmarks, List.count, countP_map, countP_eq_length_filter]
  refine le_trans (le_of_eq ?_) (hle.trans (length_kept_le e s totalBudget))
  congr 2
  funext i
  by_cases hi : i ∈ kept <;> simp [hi]

theorem keepsBest_nil : e.KeepsBest [] s totalBudget := by
  have hmarks : e.marks [] s totalBudget = [] := by
    rw [marks, map_nil, evictWith_skips (.inl rfl)]
  have hevict : e.evict [] s totalBudget = ([], []) := by rw [evict, evictWith_skips (.inl rfl)]
  constructor <;> simp [hmarks, hevict]

theorem not_keepsBest_zero (hne : blocks ≠ []) : ¬e.KeepsBest blocks s 0 := by
  intro h
  have hwithin := h.within
  rw [marks, evictWith_skips (.inr rfl), map_const', count_replicate_self] at hwithin
  exact hne (length_eq_zero_iff.1 (Nat.le_zero.1 hwithin))

theorem keepsBest_of_matched (hne : blocks ≠ []) (h : e.Matched blocks s totalBudget) :
    e.KeepsBest blocks s totalBudget := by
  have hmarks := getElem?_marks (e := e) (s := s) hne h.budget
  have hevict : e.evict blocks s totalBudget = _ := evictWith_evicts hne h.budget
  have hvalid : ∀ i ∈ topIndices (e.computeCrossModalSalience s) totalBudget,
      i < blocks.length := fun i hi => by
    obtain ⟨hscored, hrank⟩ := mem_kept.1 hi
    by_contra hge
    exact absurd (h.beyond i hscored (not_lt.1 hge)) (not_le.2 hrank)
  have hkept : ∀ i : ℕ, (e.marks blocks s totalBudget)[i]? = some false ↔
      i ∈ topIndices (e.computeCrossModalSalience s) totalBudget := fun i => by
    rw [hmarks]
    constructor
    · intro hi
      split_ifs at hi with hlt
      simpa using hi
    · intro hi
      rw [if_pos (hvalid i hi)]
      simpa using hi
  have hmarked : ∀ i : ℕ, (e.marks blocks s totalBudget)[i]? = some true ↔
      i < blocks.length ∧ i ∉ topIndices (e.computeCrossModalSalience s) totalBudget := fun i => by
    rw [hmarks]
    split_ifs with hlt <;> simp [hlt]
  refine ⟨count_marks_le hne h.budget, ?_, fun i => ?_, fun i hi => ?_, fun i hi => ?_,
    fun i j hi hj => ?_⟩
  · rw [hevict]
    exact nodup_kept e s totalBudget
  · rw [hevict]
    exact (hkept i).symm
  · rw [hkept] at hi
    rw [hevict, getElem?_mapIdx]
    simp [hi]
  · obtain ⟨hlt, hi⟩ := (hmarked i).1 hi
    rw [hevict, getElem?_mapIdx]
    simp [hi]
  · obtain ⟨hlt, hi⟩ := (hmarked i).1 hi
    rw [hkept] at hj
    rcases lt_or_ge i (e.scored s) with hscored | hscored
    · exact kept_best hscored hi hj
    · rw [salienceAt_of_le hscored]
      obtain ⟨hscored', hrank⟩ := mem_kept.1 hj
      exact h.missing (hscored.trans_lt hlt) j hscored' hrank

theorem matched_of_keepsBest (hne : blocks ≠ []) (h : e.KeepsBest blocks s totalBudget) :
    e.Matched blocks s totalBudget := by
  have hbudget : 0 < totalBudget := by
    rcases Nat.eq_zero_or_pos totalBudget with rfl | hpos
    · exact absurd h (not_keepsBest_zero hne)
    · exact hpos
  have hmarks := getElem?_marks (e := e) (s := s) hne hbudget
  have hevict : e.evict blocks s totalBudget = _ := evictWith_evicts hne hbudget
  have hexact := h.exact
  rw [hevict] at hexact
  refine ⟨hbudget, fun i hi hlen => ?_, fun hfewer i hi hrank => ?_⟩
  · by_contra hrank
    have hkept := (hexact i).1 (mem_kept.2 ⟨hi, not_le.1 hrank⟩)
    rw [hmarks, if_neg (not_lt.2 hlen)] at hkept
    cases hkept
  · have hkept := (hexact i).1 (mem_kept.2 ⟨hi, hrank⟩)
    have hmarked : (e.marks blocks s totalBudget)[e.scored s]? = some true := by
      have hout : e.scored s ∉ topIndices (e.computeCrossModalSalience s) totalBudget :=
        fun hmem => lt_irrefl _ (mem_kept.1 hmem).1
      rw [hmarks, if_pos hfewer, decide_eq_true hout]
    rw [← salienceAt_of_le (e := e) (s := s) le_rfl]
    exact h.best _ _ hmarked hkept

/-- The best blocks are kept just when there are none, or there is a budget and the scores match
the blocks. -/
theorem evict_keepsBest_iff (e : KvOmniEvictor) (blocks : List CompressedKvBlock)
    (s : SalienceScores) (totalBudget : ℕ) :
    e.KeepsBest blocks s totalBudget ↔ blocks = [] ∨ e.Matched blocks s totalBudget := by
  constructor
  · intro h
    by_cases hne : blocks = []
    · exact .inl hne
    · exact .inr (matched_of_keepsBest hne h)
  · rintro (rfl | h)
    · exact keepsBest_nil
    · by_cases hne : blocks = []
      · exact hne ▸ keepsBest_nil
      · exact keepsBest_of_matched hne h

/-- One block and two scores: the one index that is kept is no block's, and the block is emptied. -/
theorem evict_keeps_missing_block : ¬∀ (e : KvOmniEvictor) (blocks : List CompressedKvBlock)
    (s : SalienceScores) (totalBudget : ℕ), e.KeepsBest blocks s totalBudget := by
  intro h
  have hexact := (h ⟨fun _ => none⟩ [⟨[1], [0], [2], [0, 0], 1, 1, 1, .text, none⟩]
    ⟨[1, 2], [], []⟩ 1).exact 1
  revert hexact
  decide +kernel

end KvOmniEvictor

end Grim.KvQuant
