import Grim.Lib.Nucleus
import Grim.Sampling.Histogram

/-!
# Sampling a token

Logits are penalised and scaled, the greatest are selected, and one of them is drawn by their
probabilities.  `sampleLogits` sorts, `sampleLogitsWithState` selects by a histogram into buffers
that are kept between calls.  The arithmetic is exact and `exp` any increasing positive function.
-/

namespace Grim.Sampling

open Ranking Nucleus List

variable {K : Type*} [Field K] [LinearOrder K]

def penalize (repeatPenalty x : K) : K := if x < 0 then x * repeatPenalty else x / repeatPenalty

def penalizeUnseen (repeatPenalty : K) : List UInt32 → List UInt32 → List K → List K
  | _, [], out => out
  | seen, tok :: history, out =>
    if tok ∈ seen then penalizeUnseen repeatPenalty seen history out
    else penalizeUnseen repeatPenalty (tok :: seen) history
      (out.modify tok.toNat (penalize repeatPenalty))

def applyRepeatPenalty (logits : List K) (repeatPenalty : K) (history : List UInt32) : List K :=
  if repeatPenalty ≤ 1 ∨ history = [] then logits
  else penalizeUnseen repeatPenalty [] history logits

theorem length_penalizeUnseen (repeatPenalty : K) : ∀ (history seen : List UInt32)
    (logits : List K), (penalizeUnseen repeatPenalty seen history logits).length = logits.length
  | [], _, _ => rfl
  | tok :: history, seen, logits => by
    rw [penalizeUnseen]
    split_ifs
    · exact length_penalizeUnseen repeatPenalty history seen logits
    · rw [length_penalizeUnseen, length_modify]

@[simp] theorem length_applyRepeatPenalty (logits : List K) (repeatPenalty : K)
    (history : List UInt32) :
    (applyRepeatPenalty logits repeatPenalty history).length = logits.length := by
  rw [applyRepeatPenalty]
  split_ifs
  · rfl
  · exact length_penalizeUnseen _ _ _ _

section Scaling

variable [IsStrictOrderedRing K] {temperature : K}

theorem penalize_div (ht : 0 < temperature) (repeatPenalty x : K) :
    penalize repeatPenalty (x / temperature) = penalize repeatPenalty x / temperature := by
  have hneg : x / temperature < 0 ↔ x < 0 := by rw [div_lt_iff₀ ht, zero_mul]
  rw [penalize, penalize]
  by_cases hx : x < 0
  · rw [if_pos hx, if_pos (hneg.2 hx), div_mul_eq_mul_div]
  · rw [if_neg hx, if_neg fun h => hx (hneg.1 h), div_right_comm]

theorem penalizeUnseen_map_div (ht : 0 < temperature) (repeatPenalty : K) :
    ∀ (history seen : List UInt32) (logits : List K),
      penalizeUnseen repeatPenalty seen history (logits.map (· / temperature)) =
        (penalizeUnseen repeatPenalty seen history logits).map (· / temperature)
  | [], _, _ => rfl
  | tok :: history, seen, logits => by
    rw [penalizeUnseen, penalizeUnseen]
    split_ifs
    · exact penalizeUnseen_map_div ht repeatPenalty history seen logits
    · have hmodify : (logits.map (· / temperature)).modify tok.toNat (penalize repeatPenalty) =
          (logits.modify tok.toNat (penalize repeatPenalty)).map (· / temperature) := by
        refine ext_getElem (by simp) fun i _ _ => ?_
        rw [getElem_map, getElem_modify, getElem_modify, getElem_map]
        split_ifs
        · exact penalize_div ht _ _
        · rfl
      rw [hmodify]
      exact penalizeUnseen_map_div ht repeatPenalty history _ _

theorem applyRepeatPenalty_map_div (ht : 0 < temperature) (logits : List K) (repeatPenalty : K)
    (history : List UInt32) :
    applyRepeatPenalty (logits.map (· / temperature)) repeatPenalty history =
      (applyRepeatPenalty logits repeatPenalty history).map (· / temperature) := by
  rw [applyRepeatPenalty, applyRepeatPenalty]
  split_ifs
  · rfl
  · exact penalizeUnseen_map_div ht repeatPenalty history [] logits

end Scaling

/-- The index of the first maximum: the last one from the end on. -/
def argmaxFirst {α : Type*} [LinearOrder α] (v : List α) : UInt32 :=
  match v.zipIdx.reverse with
  | [] => 0
  | p :: ps => UInt32.ofNat (ps.foldl (fun best q => if q.1 < best.1 then best else q) p).2

def cumulative (cdf : List (ℕ × K)) : K := (cdf.getLast?.map Prod.snd).getD 0

/-- `rng() as f64 / u32::MAX as f64` -/
def drawShare (rng : UInt32) : K := rng.toNat / (2 ^ 32 - 1)

/-- The first entry that the draw does not exceed, else the last. -/
def drawFrom (rng : UInt32) (cdf : List (ℕ × K)) : UInt32 :=
  UInt32.ofNat ((pick (drawShare rng * cumulative cdf) cdf).getD
    ((cdf.getLast?.map Prod.fst).getD 0))

/-- The entries until the mass reaches `topP`. -/
def fillCdf (topP : K) : K → List (ℕ × K) → List (ℕ × K)
  | _, [] => []
  | c, p :: ps => (p.1, c + p.2) :: if topP ≤ c + p.2 then [] else fillCdf topP (c + p.2) ps

omit [LinearOrder K] in
theorem cumulative_sums (ps : List (ℕ × K)) : cumulative (sums 0 ps) = total ps := by
  rw [cumulative, getLast_sums, zero_add]

theorem drawFrom_sums {topP : K} {rng : UInt32} {ps : List (ℕ × K)} {i : ℕ}
    (h : draw topP (drawShare rng) ps = some i) :
    drawFrom rng (sums 0 (kept topP ps)) = UInt32.ofNat i := by
  rw [drawFrom, cumulative_sums]
  rw [draw] at h
  rw [h, Option.getD_some]

theorem fillCdf_eq (topP : K) : ∀ (ps : List (ℕ × K)) (c : K),
    fillCdf topP c ps = sums c (ps.take (reach topP c ps))
  | [], _ => rfl
  | p :: ps, c => by
    rw [fillCdf, reach]
    split_ifs with hle
    · rfl
    · rw [take_succ_cons, sums, fillCdf_eq topP ps]

def scaledLogits (logits : List K) (temperature repeatPenalty : K) (history : List UInt32) :
    List K := (applyRepeatPenalty logits repeatPenalty history).map (· / temperature)

@[simp] theorem length_scaledLogits (logits : List K) (temperature repeatPenalty : K)
    (history : List UInt32) :
    (scaledLogits logits temperature repeatPenalty history).length = logits.length := by
  rw [scaledLogits, length_map, length_applyRepeatPenalty]

theorem scaledLogits_ne_nil {logits : List K} (hne : logits ≠ []) (temperature repeatPenalty : K)
    (history : List UInt32) : scaledLogits logits temperature repeatPenalty history ≠ [] := by
  rwa [← length_pos_iff, length_scaledLogits, length_pos_iff]

/-- `topK`, unless it is zero or leaves nothing out. -/
def effectiveTopK (topK n : ℕ) : ℕ := if 0 < topK ∧ topK < n then topK else n

theorem effectiveTopK_le (topK n : ℕ) : effectiveTopK topK n ≤ n := by
  rw [effectiveTopK]
  split_ifs <;> omega

theorem effectiveTopK_pos {topK n : ℕ} (hn : 0 < n) : 0 < effectiveTopK topK n := by
  rw [effectiveTopK]
  split_ifs <;> omega

/-- The logits with all but the `topK` greatest masked out. -/
def mask (scaled : List K) (topK : ℕ) : List (WithBot K) :=
  let m : List (WithBot K) := scaled.map WithBot.some
  if 0 < topK ∧ topK < scaled.length then
    ((ranking (logitAt scaled) scaled.length).drop topK).foldl (fun m i => m.set i ⊥) m
  else m

variable (exp : K → K)

def sampleLogits (logits : List K) (temperature topP : K) (topK : UInt32) (repeatPenalty : K)
    (history : List UInt32) (rng : UInt32) : UInt32 :=
  if temperature ≤ 0 then argmaxFirst (applyRepeatPenalty logits repeatPenalty history)
  else
    let scaled := scaledLogits logits temperature repeatPenalty history
    let masked := mask scaled topK.toNat
    let maxLogit := masked.foldl max ⊥
    let exps := masked.map fun x => (x.map fun x => exp (x - maxLogit.unbotD 0)).unbotD 0
    if exps.sum ≤ 0 ∨ maxLogit = ⊥ then argmaxFirst masked
    else
      let probs := exps.map (· / exps.sum)
      let order := ranking (logitAt probs) probs.length
      let cutoff := keptLength topP (order.map fun i => (i, logitAt probs i))
      let cdf := sums 0 ((order.take cutoff).map fun i => (i, logitAt probs i))
      if cumulative cdf ≤ 0 then argmaxFirst logits else drawFrom rng cdf

def weight (key : ℕ → K) (l : List ℕ) (i : ℕ) : K := exp (key i - (maxAt key l).unbotD 0)

/-- The indices of the `topK` greatest logits, or of all of them. -/
def topLogits (scaled : List K) (topK : ℕ) : List ℕ :=
  (ranking (logitAt scaled) scaled.length).take (effectiveTopK topK scaled.length)

theorem length_foldl_set {α : Type*} (a : α) : ∀ (l : List ℕ) (m : List α),
    (l.foldl (fun m i => m.set i a) m).length = m.length
  | [], _ => rfl
  | i :: l, m => by rw [foldl_cons, length_foldl_set a l, length_set]

theorem getElem?_foldl_set {α : Type*} (a : α) : ∀ (l : List ℕ) (m : List α) (j : ℕ),
    (l.foldl (fun m i => m.set i a) m)[j]? = if j ∈ l then m[j]?.map fun _ => a else m[j]?
  | [], _, _ => rfl
  | i :: l, m, j => by
    rw [foldl_cons, getElem?_foldl_set a l, getElem?_set']
    by_cases hij : i = j
    · subst hij
      rcases m[i]? with _ | x <;> simp
    · rw [if_neg hij]
      simp only [mem_cons, Ne.symm hij, false_or]

theorem length_mask (scaled : List K) (topK : ℕ) : (mask scaled topK).length = scaled.length := by
  rw [mask]
  split_ifs
  · rw [length_foldl_set, length_map]
  · rw [length_map]

theorem mask_eq (scaled : List K) (topK : ℕ) : mask scaled topK =
    (List.range scaled.length).map fun i =>
      if i ∈ topLogits scaled topK then ↑(logitAt scaled i) else ⊥ := by
  refine ext_getElem? fun j => ?_
  by_cases hj : j < scaled.length
  · have hat : scaled[j]? = some (logitAt scaled j) := by
      rw [getElem?_eq_getElem hj, logitAt, getD_eq_getElem _ _ hj]
    rw [mask, topLogits, effectiveTopK, getElem?_map, getElem?_range hj, Option.map_some]
    by_cases htop : 0 < topK ∧ topK < scaled.length
    · rw [if_pos htop, if_pos htop, getElem?_foldl_set, getElem?_map, hat]
      by_cases htake : j ∈ (ranking (logitAt scaled) scaled.length).take topK
      · rw [if_pos htake, if_neg fun hdrop => (mem_drop_ranking hj).1 hdrop htake]
        rfl
      · rw [if_neg htake, if_pos ((mem_drop_ranking hj).2 htake)]
        rfl
    · have hall : j ∈ (ranking (logitAt scaled) scaled.length).take scaled.length := by
        rw [take_of_length_le (by rw [length_ranking]), mem_ranking]
        exact hj
      rw [if_neg htop, if_neg htop, if_pos hall, getElem?_map, hat]
      rfl
  · have hlen : (mask scaled topK).length = scaled.length := length_mask scaled topK
    rw [getElem?_eq_none (by omega), getElem?_eq_none (by simp; omega)]

theorem mem_topLogits {scaled : List K} {topK i : ℕ} (h : i ∈ topLogits scaled topK) :
    i < scaled.length := mem_ranking.1 (mem_of_mem_take h)

theorem nodup_topLogits (scaled : List K) (topK : ℕ) : (topLogits scaled topK).Nodup :=
  (nodup_ranking _ _).sublist (take_sublist _ _)

@[simp] theorem length_topLogits (scaled : List K) (topK : ℕ) :
    (topLogits scaled topK).length = effectiveTopK topK scaled.length := by
  rw [topLogits, length_take, length_ranking, Nat.min_eq_left (effectiveTopK_le _ _)]

theorem topLogits_ne_nil {scaled : List K} (hne : scaled ≠ []) (topK : ℕ) :
    topLogits scaled topK ≠ [] := by
  refine ne_nil_of_length_pos ?_
  rw [length_topLogits]
  exact effectiveTopK_pos (length_pos_iff.2 hne)

theorem foldl_mask (scaled : List K) (topK : ℕ) : (mask scaled topK).foldl max ⊥ =
    maxAt (logitAt scaled) (topLogits scaled topK) := by
  refine eq_of_forall_ge_iff fun x => ?_
  have hfold : (mask scaled topK).foldl max ⊥ ≤ x ↔ (⊥ : WithBot K) ≤ x ∧ ∀ y ∈ mask scaled topK,
      y ≤ x := foldl_max_le_iff id _ _
  rw [hfold, maxAt_le_iff, mask_eq, forall_mem_map, and_iff_right bot_le]
  constructor
  · intro h i hi
    have hle := h i (mem_range.2 (mem_topLogits hi))
    rwa [if_pos hi] at hle
  · intro h i _
    split_ifs with hi
    · exact h i hi
    · exact bot_le

omit [LinearOrder K] in
theorem sum_map_ite {l : List ℕ} {n : ℕ} (hnodup : l.Nodup) (hlt : ∀ i ∈ l, i < n) (f : ℕ → K) :
    ((List.range n).map fun i => if i ∈ l then f i else 0).sum = (l.map f).sum := by
  have hperm : l.Perm ((List.range n).filter (· ∈ l)) :=
    (perm_ext_iff_of_nodup hnodup (nodup_range.filter _)).2 fun i => by
      simpa using hlt i
  rw [(hperm.map f).sum_eq]
  generalize List.range n = r
  induction r with
  | nil => rfl
  | cons i r ih =>
    rw [map_cons, sum_cons, ih, filter_cons]
    by_cases hi : i ∈ l <;> simp [hi]

def prob (scaled : List K) (topK i : ℕ) : K :=
  if i ∈ topLogits scaled topK then
    weight exp (logitAt scaled) (topLogits scaled topK) i /
      ((topLogits scaled topK).map (weight exp (logitAt scaled) (topLogits scaled topK))).sum
  else 0

theorem map_mask (scaled : List K) (topK : ℕ) :
    (mask scaled topK).map (fun x => (x.map fun x =>
      exp (x - ((mask scaled topK).foldl max ⊥).unbotD 0)).unbotD 0) =
        (List.range scaled.length).map fun i => if i ∈ topLogits scaled topK then
          weight exp (logitAt scaled) (topLogits scaled topK) i else 0 := by
  rw [foldl_mask, mask_eq, map_map]
  refine map_congr_left fun i _ => ?_
  rw [Function.comp_apply]
  split_ifs <;> rfl

theorem map_div_eq (scaled : List K) (topK : ℕ) :
    ((List.range scaled.length).map fun i => if i ∈ topLogits scaled topK then
      weight exp (logitAt scaled) (topLogits scaled topK) i else 0).map
        (· / ((topLogits scaled topK).map
          (weight exp (logitAt scaled) (topLogits scaled topK))).sum) =
      (List.range scaled.length).map (prob exp scaled topK) := by
  rw [map_map]
  refine map_congr_left fun i _ => ?_
  rw [Function.comp_apply, prob]
  split_ifs
  · rfl
  · exact zero_div _

theorem logitAt_probs (scaled : List K) (topK : ℕ) :
    logitAt ((List.range scaled.length).map (prob exp scaled topK)) = prob exp scaled topK := by
  funext i
  by_cases hi : i < scaled.length
  · rw [logitAt, getD_eq_getElem _ _ (by simpa using hi), getElem_map, getElem_range]
  · rw [logitAt, getD_eq_default _ _ (by simpa using hi), prob, if_neg]
    exact fun htop => hi (mem_topLogits htop)

section Sorted

variable {exp} [IsStrictOrderedRing K] {scaled : List K} {topK : ℕ}

theorem weight_sum_pos (hpos : ∀ x, 0 < exp x) (hne : scaled ≠ []) (topK : ℕ) :
    0 < ((topLogits scaled topK).map (weight exp (logitAt scaled) (topLogits scaled topK))).sum :=
  sum_pos (topLogits_ne_nil hne topK) fun _ _ => hpos _

theorem prob_lt (hpos : ∀ x, 0 < exp x) (hmono : StrictMono exp) (hne : scaled ≠ []) {i j : ℕ}
    (hi : i ∈ topLogits scaled topK) (hlt : logitAt scaled j < logitAt scaled i) :
    prob exp scaled topK j < prob exp scaled topK i := by
  have hsum := weight_sum_pos hpos hne topK
  rw [prob, prob, if_pos hi]
  split_ifs with hj
  · exact div_lt_div_of_pos_right (hmono (sub_lt_sub_right hlt _)) hsum
  · exact div_pos (hpos _) hsum

theorem ranking_prob (hpos : ∀ x, 0 < exp x) (hmono : StrictMono exp) (hne : scaled ≠ []) :
    ranking (prob exp scaled topK) scaled.length = topLogits scaled topK ++
      (List.range scaled.length).filter (· ∉ topLogits scaled topK) := by
  have htop : (topLogits scaled topK).Pairwise (Ahead (logitAt scaled)) :=
    (pairwise_ranking _ _).sublist (take_sublist _ _)
  refine eq_of_pairwise (pairwise_ranking _ _) (pairwise_append.2 ⟨?_, ?_, ?_⟩) fun i => ?_
  · refine List.Pairwise.imp_of_mem (fun {i j} hi hj hij => ?_) htop
    rcases hij with hlt | ⟨heq, hlt⟩
    · exact .inl (prob_lt hpos hmono hne hi hlt)
    · refine .inr ⟨?_, hlt⟩
      rw [prob, prob, if_pos hi, if_pos hj, weight, weight, heq]
  · refine List.Pairwise.imp_of_mem (fun {i j} hi hj hij => .inr ⟨?_, hij⟩)
      (pairwise_lt_range.filter _)
    rw [prob, prob, if_neg (of_decide_eq_true (mem_filter.1 hi).2),
      if_neg (of_decide_eq_true (mem_filter.1 hj).2)]
  · intro i hi j hj
    refine .inl ?_
    rw [prob, prob, if_neg (of_decide_eq_true (mem_filter.1 hj).2), if_pos hi]
    exact div_pos (hpos _) (weight_sum_pos hpos hne topK)
  · rw [mem_ranking, mem_append, mem_filter, mem_range, decide_eq_true_eq]
    constructor
    · intro hi
      by_cases htop : i ∈ topLogits scaled topK
      · exact .inl htop
      · exact .inr ⟨hi, htop⟩
    · rintro (htop | ⟨hi, -⟩)
      · exact mem_topLogits htop
      · exact hi

theorem map_ranking_prob (hpos : ∀ x, 0 < exp x) (hmono : StrictMono exp) (hne : scaled ≠ [])
    (topK : ℕ) :
    ∃ rest : List (ℕ × K), (∀ q ∈ rest, q.2 = 0) ∧
      (ranking (prob exp scaled topK) scaled.length).map (fun i => (i, prob exp scaled topK i)) =
        shares (weight exp (logitAt scaled) (topLogits scaled topK)) (topLogits scaled topK) ++
          rest := by
  refine ⟨((List.range scaled.length).filter (· ∉ topLogits scaled topK)).map
    (fun i => (i, prob exp scaled topK i)), ?_, ?_⟩
  · intro q hq
    obtain ⟨i, hi, rfl⟩ := mem_map.1 hq
    exact if_neg (of_decide_eq_true (mem_filter.1 hi).2)
  · rw [ranking_prob hpos hmono hne, map_append, shares]
    refine congrArg (· ++ _) (map_congr_left fun i hi => ?_)
    rw [prob, if_pos hi]

theorem drawShare_le_one (rng : UInt32) : (drawShare rng : K) ≤ 1 := by
  have hlt : rng.toNat ≤ 2 ^ 32 - 1 := Nat.le_sub_one_of_lt rng.toNat_lt
  have hcast : (rng.toNat : K) ≤ 2 ^ 32 - 1 := by
    have hcast : (rng.toNat : K) ≤ ((2 ^ 32 - 1 : ℕ) : K) := Nat.cast_le.2 hlt
    norm_num at hcast ⊢
    exact hcast
  rw [drawShare]
  exact div_le_one_of_le₀ hcast (by norm_num)

theorem sampleLogits_eq (hpos : ∀ x, 0 < exp x) (hmono : StrictMono exp) {logits : List K}
    (hne : logits ≠ []) {temperature : K} (ht : 0 < temperature) {topP repeatPenalty : K}
    {topK rng : UInt32} {history : List UInt32} {i : ℕ}
    (hscaled : scaledLogits logits temperature repeatPenalty history = scaled)
    (hdraw : draw topP (drawShare rng)
      (shares (weight exp (logitAt scaled) (topLogits scaled topK.toNat))
        (topLogits scaled topK.toNat)) = some i) :
    sampleLogits exp logits temperature topP topK repeatPenalty history rng = UInt32.ofNat i := by
  have hnes : scaled ≠ [] := hscaled ▸ scaledLogits_ne_nil hne temperature repeatPenalty history
  have hP := topLogits_ne_nil hnes topK.toNat
  have hsum := weight_sum_pos hpos hnes topK.toNat
  have hsums := sum_map_ite (nodup_topLogits scaled topK.toNat) (fun _ => mem_topLogits)
    (weight exp (logitAt scaled) (topLogits scaled topK.toNat))
  obtain ⟨rest, hrest, hps⟩ := map_ranking_prob hpos hmono hnes topK.toNat
  have hshares := shares_pos (c := topLogits scaled topK.toNat)
    (w := weight exp (logitAt scaled) (topLogits scaled topK.toNat)) fun _ _ => hpos _
  have hnil := shares_ne_nil (w := weight exp (logitAt scaled) (topLogits scaled topK.toNat)) hP
  have htotal := total_shares (w := weight exp (logitAt scaled) (topLogits scaled topK.toNat)) hP
    fun _ _ => hpos _
  have hkept := (kept_append (t := topP) hnil htotal hrest).1
  have hall := draw_append (t := topP) hnil hshares htotal hrest (drawShare_le_one rng)
  rw [sampleLogits, if_neg (not_le.2 ht), hscaled]
  dsimp only
  rw [map_mask, hsums, map_div_eq, logitAt_probs, foldl_mask, length_map, length_range,
    if_neg (not_or.2 ⟨not_le.2 hsum, maxAt_ne_bot hP⟩), map_take, hps, ← kept,
    cumulative_sums, hkept, if_neg (not_le.2 (total_kept_pos hnil hshares))]
  exact drawFrom_sums (hall.trans hdraw)

end Sorted

/-- The buffers; every index of `idx_buf` is one of its places. -/
structure SamplerState (K : Type*) where
  logitsBuf : List K
  expBuf : List K
  idxBuf : List ℕ
  cdfBuf : List (ℕ × K)
  idx_lt : ∀ i ∈ idxBuf, i < idxBuf.length

def SamplerState.withCapacity (K : Type*) (vocabSize : ℕ) : SamplerState K where
  logitsBuf := []
  expBuf := []
  idxBuf := List.range vocabSize
  cdfBuf := []
  idx_lt i hi := by rwa [length_range, ← mem_range]

/-- Drawing from the indices that are selected: the token, `exp_buf` and `cdf_buf`. -/
def drawSelected (logits logitsBuf : List K) (topP : K) (rng : UInt32) (selected : List ℕ) :
    UInt32 × List K × List (ℕ × K) :=
  let maxLogit : WithBot K := selected.foldl
    (fun m i => if m < ↑(logitAt logitsBuf i) then ↑(logitAt logitsBuf i) else m) ⊥
  let expBuf := selected.map fun i => exp (logitAt logitsBuf i - maxLogit.unbotD 0)
  if expBuf.sum ≤ 0 ∨ maxLogit = ⊥ then (argmaxFirst logitsBuf, expBuf, [])
  else
    let probs := (selected.zip expBuf).map fun p => (p.1, p.2 / expBuf.sum)
    let cdfBuf := if topP < 1 then fillCdf topP 0 probs else sums 0 probs
    (if cumulative cdfBuf ≤ 0 then argmaxFirst logits else drawFrom rng cdfBuf, expBuf, cdfBuf)

section Drawn

variable {exp}

variable [IsStrictOrderedRing K] {l : List ℕ}

theorem drawSelected_eq (hpos : ∀ x, 0 < exp x) (hne : l ≠ []) (logits logitsBuf : List K)
    (topP : K) (rng : UInt32) : drawSelected exp logits logitsBuf topP rng l =
      (drawFrom rng (sums 0 (kept topP (shares (weight exp (logitAt logitsBuf) l) l))),
        l.map (weight exp (logitAt logitsBuf) l),
        sums 0 (kept topP (shares (weight exp (logitAt logitsBuf) l) l))) := by
  have hsum := sum_pos (w := weight exp (logitAt logitsBuf) l) hne fun _ _ => hpos _
  have hshares := shares_pos (w := weight exp (logitAt logitsBuf) l) fun i (_ : i ∈ l) => hpos _
  have hnil := shares_ne_nil (w := weight exp (logitAt logitsBuf) l) hne
  have hcdf : (if topP < 1 then fillCdf topP 0 (shares (weight exp (logitAt logitsBuf) l) l)
      else sums 0 (shares (weight exp (logitAt logitsBuf) l) l)) =
        sums 0 (kept topP (shares (weight exp (logitAt logitsBuf) l) l)) := by
    rw [kept, keptLength]
    by_cases hlt : topP < 1
    · rw [if_pos hlt, if_neg (not_le.2 hlt), fillCdf_eq,
        Nat.max_eq_left (one_le_reach (length_pos_iff.2 hnil))]
    · rw [if_neg hlt, if_pos (not_lt.1 hlt), take_length]
  have hprobs : (l.zip (l.map (weight exp (logitAt logitsBuf) l))).map (fun p =>
      (p.1, p.2 / (l.map (weight exp (logitAt logitsBuf) l)).sum)) =
        shares (weight exp (logitAt logitsBuf) l) l := by
    have hzip := zip_map' (f := id) (g := weight exp (logitAt logitsBuf) l) (l := l)
    rw [map_id] at hzip
    rw [hzip, map_map]
    rfl
  have hexp : (l.map fun i => exp (logitAt logitsBuf i -
      (maxAt (logitAt logitsBuf) l).unbotD 0)) = l.map (weight exp (logitAt logitsBuf) l) := rfl
  rw [drawSelected]
  dsimp only
  rw [foldl_lt_eq_maxAt, hexp, if_neg (not_or.2 ⟨not_le.2 hsum, maxAt_ne_bot hne⟩), hprobs, hcdf,
    cumulative_sums, if_neg (not_le.2 (total_kept_pos hnil hshares))]

end Drawn

variable [FloorRing K]

def select (logitsBuf : List K) (idxBuf : List ℕ) (topK : ℕ) : ℕ × List ℕ :=
  let n := logitsBuf.length
  if topK < n then histogramTopK logitsBuf (if idxBuf.length < n then List.range n else idxBuf) topK
  else (0, if idxBuf.length ≠ n then List.range n else idxBuf)

theorem histogramTopK_lt {logits : List K} {idxBuf : List ℕ} (hn : logits.length ≤ idxBuf.length)
    (h : ∀ i ∈ idxBuf, i < idxBuf.length) (k : ℕ) :
    ∀ i ∈ (histogramTopK logits idxBuf k).2, i < (histogramTopK logits idxBuf k).2.length := by
  rw [histogramTopK]
  split
  · exact h
  · rename_i ib _
    have hlen : (collected logits ib).length ≤ logits.length := by
      rw [length_collected, ← countFrom_zero]
      exact countFrom_anti (Nat.zero_le _)
    intro i hi
    rw [length_append, length_drop]
    rcases mem_append.1 hi with hi | hi
    · have hlt := (mem_collected.1 hi).1
      omega
    · have hlt := h i (mem_of_mem_drop hi)
      omega

theorem select_lt (logitsBuf : List K) {idxBuf : List ℕ} (h : ∀ i ∈ idxBuf, i < idxBuf.length)
    (topK : ℕ) :
    ∀ i ∈ (select logitsBuf idxBuf topK).2, i < (select logitsBuf idxBuf topK).2.length := by
  have hrange : ∀ i ∈ List.range logitsBuf.length, i < (List.range logitsBuf.length).length := by
    intro i hi
    rwa [length_range, ← mem_range]
  rw [select]
  split_ifs with htop hlen hlen
  · exact histogramTopK_lt length_range.ge hrange topK
  · exact histogramTopK_lt (not_lt.1 hlen) h topK
  · exact hrange
  · exact h

/-- `idx_buf[topk_start..topk_end]` -/
def selected (logitsBuf : List K) (idxBuf : List ℕ) (topK : ℕ) : List ℕ :=
  let start := (select logitsBuf idxBuf topK).1
  ((select logitsBuf idxBuf topK).2.drop start).take (min (start + topK) logitsBuf.length - start)

def sampleLogitsWithState (logits : List K) (temperature topP : K) (topK : UInt32)
    (repeatPenalty : K) (history : List UInt32) (rng : UInt32) (state : SamplerState K) :
    UInt32 × SamplerState K :=
  if temperature ≤ 0 then (argmaxFirst (applyRepeatPenalty logits repeatPenalty history), state)
  else
    let logitsBuf := applyRepeatPenalty (logits.map (· / temperature)) repeatPenalty history
    let topK := effectiveTopK topK.toNat logitsBuf.length
    let drawn := drawSelected exp logits logitsBuf topP rng (selected logitsBuf state.idxBuf topK)
    (drawn.1, ⟨logitsBuf, drawn.2.1, (select logitsBuf state.idxBuf topK).2, drawn.2.2,
      select_lt logitsBuf state.idx_lt topK⟩)

/-- When the buffers select the greatest logits: below `topK` by the buckets, and otherwise by what
the earlier calls have left in the index buffer. -/
def Selects (idxBuf : List ℕ) (scaled : List K) (topK : ℕ) : Prop :=
  if 0 < topK ∧ topK < scaled.length then Separated scaled topK
  else (if idxBuf.length = scaled.length then idxBuf else List.range scaled.length).Pairwise
    (Ahead (logitAt scaled))

section Buffered

variable {scaled : List K} {idxBuf : List ℕ} {topK : ℕ}

theorem selected_of_lt (idxBuf : List ℕ) (hpos : 0 < topK) (hlt : topK < scaled.length) :
    ∃ ib, countFrom scaled (ib + 1) < topK ∧ topK ≤ countFrom scaled ib ∧
      selected scaled idxBuf topK =
        (collected scaled ib).drop ((collected scaled ib).length - topK) := by
  obtain ⟨ib, habove, hle, heq⟩ := histogramTopK_eq hpos hlt.le
    (if idxBuf.length < scaled.length then List.range scaled.length else idxBuf)
  refine ⟨ib, habove, hle, ?_⟩
  have hlen : (collected scaled ib).length ≤ scaled.length := by
    rw [length_collected, ← countFrom_zero]
    exact countFrom_anti (Nat.zero_le _)
  rw [← length_collected] at hle
  have htake : min ((collected scaled ib).length - topK + topK) scaled.length -
      ((collected scaled ib).length - topK) = topK := by omega
  rw [selected, select, if_pos hlt, heq]
  dsimp only
  rw [htake, drop_append_of_le_length (Nat.sub_le _ _), take_append_of_le_length,
    take_of_length_le]
  · rw [length_drop]
    omega
  · rw [length_drop]
    omega

theorem selected_of_eq : selected scaled idxBuf scaled.length =
    if idxBuf.length = scaled.length then idxBuf else List.range scaled.length := by
  rw [selected, select, if_neg (lt_irrefl _)]
  dsimp only
  rw [drop_zero, Nat.zero_add, Nat.min_self, Nat.sub_zero]
  by_cases heq : idxBuf.length = scaled.length
  · rw [if_neg (not_not.2 heq), if_pos heq, take_of_length_le heq.le]
  · rw [if_pos heq, if_neg heq, take_of_length_le length_range.le]

theorem length_selected (scaled : List K) (idxBuf : List ℕ) (topK : ℕ) :
    (selected scaled idxBuf (effectiveTopK topK scaled.length)).length =
      effectiveTopK topK scaled.length := by
  rw [effectiveTopK]
  split_ifs with htop
  · obtain ⟨ib, -, hle, heq⟩ := selected_of_lt idxBuf htop.1 htop.2
    rw [heq, length_drop, length_collected]
    omega
  · rw [selected_of_eq]
    split_ifs with heq
    · exact heq
    · exact length_range

theorem selected_lt (h : ∀ i ∈ idxBuf, i < idxBuf.length) (scaled : List K) (topK : ℕ) :
    ∀ i ∈ selected scaled idxBuf (effectiveTopK topK scaled.length), i < scaled.length := by
  intro i hi
  rw [effectiveTopK] at hi
  split_ifs at hi with htop
  · obtain ⟨ib, -, -, heq⟩ := selected_of_lt idxBuf htop.1 htop.2
    rw [heq] at hi
    exact (mem_collected.1 (mem_of_mem_drop hi)).1
  · rw [selected_of_eq] at hi
    split_ifs at hi with heq
    · exact heq ▸ h i hi
    · exact mem_range.1 hi

variable [IsStrictOrderedRing K]

theorem selected_eq_iff (h : ∀ i ∈ idxBuf, i < idxBuf.length) :
    selected scaled idxBuf (effectiveTopK topK scaled.length) = topLogits scaled topK ↔
      Selects idxBuf scaled topK := by
  rw [topLogits, Selects]
  by_cases htop : 0 < topK ∧ topK < scaled.length
  · obtain ⟨ib, hlt, hle, heq⟩ := selected_of_lt idxBuf htop.1 htop.2
    rw [if_pos htop, effectiveTopK, if_pos htop, heq]
    exact drop_collected_eq_iff hlt hle htop.1 htop.2.le
  · rw [if_neg htop, effectiveTopK, if_neg htop, selected_of_eq, take_of_length_le
      (length_ranking _ _).le]
    constructor
    · intro heq
      rw [heq]
      exact pairwise_ranking _ _
    · intro hsorted
      have hlen := length_selected scaled idxBuf topK
      have hlt := selected_lt h scaled topK
      rw [effectiveTopK, if_neg htop, selected_of_eq] at hlen hlt
      have hsub := (nodup_of_pairwise hsorted).subperm fun i hi => mem_range.2 (hlt i hi)
      have hperm := hsub.perm_of_length_le (by rw [hlen, length_range])
      refine eq_of_pairwise hsorted (pairwise_ranking _ _) fun i => ?_
      rw [hperm.mem_iff, mem_ranking, mem_range]

end Buffered

section Agree

/-- The samplers return the same tokens, and what is drawn from are the greatest logits, as few as
reach `topP`. -/
structure Agrees (logits : List K) (temperature : K) (topK : UInt32) (repeatPenalty : K)
    (history : List UInt32) (state : SamplerState K) : Prop where
  token : ∀ topP rng,
    (sampleLogitsWithState exp logits temperature topP topK repeatPenalty history rng state).1 =
      sampleLogits exp logits temperature topP topK repeatPenalty history rng
  mem : ∀ topP rng, ∃ i ∈ (sampleLogitsWithState exp logits temperature topP topK repeatPenalty
      history rng state).2.cdfBuf.map Prod.fst,
    (sampleLogitsWithState exp logits temperature topP topK repeatPenalty history rng state).1 =
      UInt32.ofNat i
  nucleus : ∀ topP rng, ∀ top, topLogits (scaledLogits logits temperature repeatPenalty history)
      topK.toNat = top →
    IsNucleus (weight exp (logitAt (scaledLogits logits temperature repeatPenalty history)) top)
      topP top ((sampleLogitsWithState exp logits temperature topP topK repeatPenalty history rng
        state).2.cdfBuf.map Prod.fst)

variable {exp} [IsStrictOrderedRing K] {logits scaled : List K} {temperature repeatPenalty : K}
variable {topK : UInt32} {history : List UInt32} {state : SamplerState K} {l : List ℕ}

theorem sampleLogitsWithState_eq (hpos : ∀ x, 0 < exp x) (ht : 0 < temperature)
    (hscaled : scaledLogits logits temperature repeatPenalty history = scaled)
    (hl : selected scaled state.idxBuf (effectiveTopK topK.toNat scaled.length) = l)
    (hne : l ≠ []) (topP : K) (rng : UInt32) :
    (sampleLogitsWithState exp logits temperature topP topK repeatPenalty history rng
        state).2.cdfBuf = sums 0 (kept topP (shares (weight exp (logitAt scaled) l) l)) ∧
      ∃ i, draw topP (drawShare rng) (shares (weight exp (logitAt scaled) l) l) = some i ∧
        (sampleLogitsWithState exp logits temperature topP topK repeatPenalty history rng
          state).1 = UInt32.ofNat i := by
  have hshares := shares_pos (w := weight exp (logitAt scaled) l) fun i (_ : i ∈ l) => hpos _
  have hnil := shares_ne_nil (w := weight exp (logitAt scaled) l) hne
  obtain ⟨i, hi⟩ := Option.isSome_iff_exists.1
    (isSome_draw (t := topP) hnil hshares (drawShare_le_one rng))
  have hdrawn := drawSelected_eq hpos hne logits scaled topP rng
  rw [sampleLogitsWithState, if_neg (not_le.2 ht)]
  have hbuf : applyRepeatPenalty (logits.map (· / temperature)) repeatPenalty history = scaled :=
    (applyRepeatPenalty_map_div ht _ _ _).trans hscaled
  constructor
  · dsimp only
    rw [hbuf, hl, hdrawn]
  · refine ⟨i, hi, ?_⟩
    dsimp only
    rw [hbuf, hl, hdrawn]
    exact drawFrom_sums hi

theorem agrees_of_selects (hpos : ∀ x, 0 < exp x) (hmono : StrictMono exp) (hne : logits ≠ [])
    (ht : 0 < temperature)
    (hscaled : scaledLogits logits temperature repeatPenalty history = scaled)
    (h : Selects state.idxBuf scaled topK.toNat) :
    Agrees exp logits temperature topK repeatPenalty history state := by
  have hnes : scaled ≠ [] := hscaled ▸ scaledLogits_ne_nil hne temperature repeatPenalty history
  have hP := topLogits_ne_nil hnes topK.toNat
  have hstate := sampleLogitsWithState_eq hpos ht hscaled
    ((selected_eq_iff state.idx_lt).2 h) hP
  refine ⟨fun topP rng => ?_, fun topP rng => ?_, fun topP rng top htop => ?_⟩
  · obtain ⟨-, i, hdraw, htoken⟩ := hstate topP rng
    rw [htoken, sampleLogits_eq hpos hmono hne ht hscaled hdraw]
  · obtain ⟨hcdf, i, hdraw, htoken⟩ := hstate topP rng
    rw [hcdf, map_fst_sums]
    exact ⟨i, mem_kept_of_draw hdraw, htoken⟩
  · obtain ⟨hcdf, -⟩ := hstate topP rng
    rw [hscaled] at htop ⊢
    subst htop
    rw [hcdf, map_fst_sums]
    exact isNucleus_kept hP (fun _ _ => hpos _) topP

theorem Agrees.selects (h : Agrees exp logits temperature topK repeatPenalty history state)
    (hpos : ∀ x, 0 < exp x) (hne : logits ≠ []) (ht : 0 < temperature)
    (hscaled : scaledLogits logits temperature repeatPenalty history = scaled) :
    Selects state.idxBuf scaled topK.toNat := by
  have hnes : scaled ≠ [] := hscaled ▸ scaledLogits_ne_nil hne temperature repeatPenalty history
  obtain ⟨l, hl⟩ : ∃ l, selected scaled state.idxBuf (effectiveTopK topK.toNat scaled.length) = l :=
    ⟨_, rfl⟩
  have hlen := length_selected scaled state.idxBuf topK.toNat
  rw [hl] at hlen
  have hnel : l ≠ [] := by
    rw [← length_pos_iff, hlen]
    exact effectiveTopK_pos (length_pos_iff.2 hnes)
  obtain ⟨hcdf, -⟩ := sampleLogitsWithState_eq hpos ht hscaled hl hnel 1 0
  have hprefix := (h.nucleus 1 0 _ rfl).isPrefix
  rw [hcdf, map_fst_sums, kept, keptLength, if_pos le_rfl, take_length, map_fst_shares,
    hscaled] at hprefix
  rw [← selected_eq_iff state.idx_lt, hl]
  exact hprefix.eq_of_length (by rw [hlen, length_topLogits])

/-- The tokens tell what is selected, too, as long as indices fit in them. -/
theorem selects_of_tokens (hpos : ∀ x, 0 < exp x) (hmono : StrictMono exp) (hne : logits ≠ [])
    (ht : 0 < temperature)
    (hscaled : scaledLogits logits temperature repeatPenalty history = scaled)
    (hfit : logits.length ≤ 2 ^ 32)
    (h : ∀ topP rng,
      (sampleLogitsWithState exp logits temperature topP topK repeatPenalty history rng state).1 =
        sampleLogits exp logits temperature topP topK repeatPenalty history rng) :
    Selects state.idxBuf scaled topK.toNat := by
  have hnes : scaled ≠ [] := hscaled ▸ scaledLogits_ne_nil hne temperature repeatPenalty history
  have hlens : scaled.length = logits.length := hscaled ▸ length_scaledLogits _ _ _ _
  obtain ⟨l, hl⟩ : ∃ l, selected scaled state.idxBuf (effectiveTopK topK.toNat scaled.length) = l :=
    ⟨_, rfl⟩
  have hlen := length_selected scaled state.idxBuf topK.toNat
  have hlt := selected_lt state.idx_lt scaled topK.toNat
  rw [hl] at hlen hlt
  have hnel : l ≠ [] := by
    rw [← length_pos_iff, hlen]
    exact effectiveTopK_pos (length_pos_iff.2 hnes)
  have hP := topLogits_ne_nil hnes topK.toNat
  have hone : (drawShare 4294967295 : K) = 1 := by
    have hmax : (4294967295 : UInt32).toNat = 4294967295 := rfl
    rw [drawShare, hmax]
    norm_num
  have hdraws : ∀ t < 1, draw t 1
      (shares (weight exp (logitAt scaled) (topLogits scaled topK.toNat))
        (topLogits scaled topK.toNat)) = draw t 1 (shares (weight exp (logitAt scaled) l) l) := by
    intro t _
    obtain ⟨-, i, hi, hstate⟩ := sampleLogitsWithState_eq hpos ht hscaled hl hnel t 4294967295
    obtain ⟨j, hj⟩ := Option.isSome_iff_exists.1 (isSome_draw (t := t)
      (shares_ne_nil (w := weight exp (logitAt scaled) (topLogits scaled topK.toNat)) hP)
      (shares_pos fun _ _ => hpos _) (drawShare_le_one 4294967295))
    have hsame := h t 4294967295
    rw [hstate, sampleLogits_eq hpos hmono hne ht hscaled hj] at hsame
    have hi' := mem_of_draw hi
    have hj' := mem_of_draw hj
    rw [map_fst_shares] at hi' hj'
    have hilt := hlt i hi'
    have hjlt := mem_topLogits hj'
    have hij : i = j := by
      have hnat := congrArg UInt32.toNat hsame
      rwa [UInt32.toNat_ofNat', UInt32.toNat_ofNat', Nat.mod_eq_of_lt (by omega),
        Nat.mod_eq_of_lt (by omega)] at hnat
    rw [hone] at hi hj
    rw [hi, hj, hij]
  rw [← selected_eq_iff state.idx_lt, hl]
  have hweight : l.Perm (topLogits scaled topK.toNat) → ∀ i ∈ topLogits scaled topK.toNat,
      weight exp (logitAt scaled) l i =
        weight exp (logitAt scaled) (topLogits scaled topK.toNat) i := by
    intro hperm i _
    rw [weight, weight, maxAt_congr fun _ => hperm.mem_iff]
  exact eq_of_draws (nodup_topLogits scaled topK.toNat) (by rw [hlen, length_topLogits])
    (fun _ _ => hpos _) (fun _ _ => hpos _) hweight hdraws

/-- The sampler with buffers agrees with the sampler that sorts exactly when the greatest logits
fill whole buckets that are in order, or, without a selection, when the index buffer is sorted. -/
theorem samplers_agree_iff (hpos : ∀ x, 0 < exp x) (hmono : StrictMono exp) (hne : logits ≠ [])
    (ht : 0 < temperature) (topK : UInt32) (repeatPenalty : K) (history : List UInt32)
    (state : SamplerState K) :
    (Agrees exp logits temperature topK repeatPenalty history state ↔
      Selects state.idxBuf (scaledLogits logits temperature repeatPenalty history) topK.toNat) ∧
    (logits.length ≤ 2 ^ 32 → (∀ topP rng,
      (sampleLogitsWithState exp logits temperature topP topK repeatPenalty history rng state).1 =
        sampleLogits exp logits temperature topP topK repeatPenalty history rng) →
      Selects state.idxBuf (scaledLogits logits temperature repeatPenalty history) topK.toNat) :=
  ⟨⟨fun h => h.selects hpos hne ht rfl, agrees_of_selects hpos hmono hne ht rfl⟩,
    fun hfit h => selects_of_tokens hpos hmono hne ht rfl hfit h⟩

def growth (x : ℚ) : ℚ := if x < 0 then 1 / (1 - x) else 1 + x

theorem growth_pos (x : ℚ) : 0 < growth x := by
  rw [growth]
  split_ifs with hx
  · exact one_div_pos.2 (by linarith)
  · linarith

theorem growth_strictMono : StrictMono growth := by
  intro x y hxy
  rw [growth, growth]
  split_ifs with hx hy hy
  · exact one_div_lt_one_div_of_lt (by linarith) (by linarith)
  · have hlt : 1 / (1 - x) < 1 := by
      rw [div_lt_one (by linarith)]
      linarith
    linarith
  · exact absurd hxy (not_lt.2 (by linarith))
  · linarith

theorem samplers_agree_iff_sample :
    Agrees growth [0, 5] 1 1 1 [] (SamplerState.withCapacity ℚ 2) := by
  refine (samplers_agree_iff growth_pos growth_strictMono (by decide) one_pos 1 1 []
    (SamplerState.withCapacity ℚ 2)).1.2 ?_
  rw [Selects, if_pos (by decide +kernel)]
  refine ⟨96, by decide +kernel, fun i j hij hj hb => ?_⟩
  have hj : j < 2 := hj
  obtain rfl : i = 0 := by omega
  exact absurd hb (by decide +kernel)

/-- Two logits of one bucket: the lower one is sampled when only the greatest should be. -/
theorem sampleLogitsWithState_takes_lower :
    ¬Agrees growth [0, 1 / 10] 1 1 1 [] (SamplerState.withCapacity ℚ 2) := by
  intro h
  have htoken := h.token 1 0
  revert htoken
  decide +kernel

end Agree

end Grim.Sampling
