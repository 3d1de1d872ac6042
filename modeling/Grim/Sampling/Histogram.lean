import Grim.Lib.Ranking
import Mathlib.Algebra.Order.Floor.Ring
import Mathlib.Data.List.GetD

/-!
# Selecting the greatest logits by a histogram

Logits are counted in 128 buckets over `[-10, 10]`.  Indices are written bucket by bucket, from the
highest on, until there are `k`; only the lowest of these buckets is sorted, and the selection ends
where the written indices end.  Logits are numbers of an ordered field.
-/

namespace Grim.Sampling

open Ranking List

variable {K : Type*} [Field K] [LinearOrder K] [FloorRing K]
variable {logits : List K} {idxBuf : List ℕ} {i j k ib b : ℕ}

/-- `as i32`, towards zero and saturating. -/
def toI32 (x : K) : ℤ := max (-2 ^ 31) (min (if 0 ≤ x then ⌊x⌋ else ⌈x⌉) (2 ^ 31 - 1))

def nbuckets : ℕ := 128

def bucketLow : K := -10

def bucketHigh : K := 10

def bucketScale : K := nbuckets / (bucketHigh - bucketLow)

def bucketInter : K := -bucketLow * bucketScale

def bucketOf (logit : K) : ℕ :=
  (max 0 (min (toI32 (bucketScale * logit + bucketInter)) (nbuckets - 1))).toNat

def logitAt (logits : List K) (i : ℕ) : K := logits.getD i 0

def bucketAt (logits : List K) (i : ℕ) : ℕ := bucketOf (logitAt logits i)

def histo (logits : List K) (b : ℕ) : ℕ := logits.countP fun logit => bucketOf logit = b

/-- The bucket below `b` with which there are `k`, where `nhave` are in `b` and above. -/
def findBucket (histo : ℕ → ℕ) (k : ℕ) : ℕ → ℕ → Option ℕ
  | 0, _ => none
  | b + 1, nhave =>
    if k ≤ nhave + histo b then some b else findBucket histo k b (nhave + histo b)

def inBucket (logits : List K) (b : ℕ) : List ℕ :=
  (List.range logits.length).filter fun i => bucketAt logits i = b

def aboveBucket (logits : List K) (ib : ℕ) : List ℕ :=
  (List.range' (ib + 1) (nbuckets - (ib + 1))).reverse.flatMap (inBucket logits)

def sortedBucket (logits : List K) (ib : ℕ) : List ℕ :=
  (inBucket logits ib).insertionSort fun i j => logitAt logits j ≤ logitAt logits i

def collected (logits : List K) (ib : ℕ) : List ℕ := aboveBucket logits ib ++ sortedBucket logits ib

def histogramTopK (logits : List K) (idxBuf : List ℕ) (k : ℕ) : ℕ × List ℕ :=
  match findBucket (histo logits) k nbuckets 0 with
  | none => (0, idxBuf)
  | some ib =>
    let pos := (collected logits ib).length
    (if pos ≤ k then 0 else pos - k, collected logits ib ++ idxBuf.drop pos)

theorem toI32_mono : Monotone (toI32 : K → ℤ) := by
  intro x y hxy
  have htrunc : (if 0 ≤ x then ⌊x⌋ else ⌈x⌉) ≤ if 0 ≤ y then ⌊y⌋ else ⌈y⌉ := by
    split_ifs with hx hy hy
    · exact Int.floor_mono hxy
    · exact absurd (hx.trans hxy) hy
    · exact (Int.ceil_le.2 (by simpa using (not_le.1 hx).le)).trans (Int.floor_nonneg.2 hy)
    · exact Int.ceil_mono hxy
  exact max_le_max le_rfl (min_le_min htrunc le_rfl)

theorem bucketOf_lt (x : K) : bucketOf x < nbuckets := by
  rw [bucketOf, nbuckets]
  omega

/-- How many logits are in bucket `b` and above. -/
def countFrom (logits : List K) (b : ℕ) : ℕ :=
  (List.range logits.length).countP fun i => b ≤ bucketAt logits i

theorem countFrom_anti {c : ℕ} (h : b ≤ c) : countFrom logits c ≤ countFrom logits b :=
  countP_mono_left fun _ _ hc => decide_eq_true (h.trans (of_decide_eq_true hc))

theorem countFrom_zero : countFrom logits 0 = logits.length := by
  rw [countFrom, countP_eq_length.2 fun _ _ => decide_eq_true (Nat.zero_le _),
    length_range]

theorem countFrom_nbuckets : countFrom logits nbuckets = 0 := by
  rw [countFrom, countP_eq_zero]
  exact fun i _ h => absurd (of_decide_eq_true h) (not_le.2 (bucketOf_lt _))

theorem length_inBucket : (inBucket logits b).length = histo logits b := by
  have hlogits : logits = (List.range logits.length).map (logitAt logits) := by
    refine ext_getElem (by simp) fun i h _ => ?_
    rw [getElem_map, getElem_range, logitAt, getD_eq_getElem _ _ h]
  conv_rhs => rw [histo, hlogits, countP_map]
  rw [inBucket, ← countP_eq_length_filter]
  rfl

theorem countFrom_succ : countFrom logits b = countFrom logits (b + 1) + histo logits b := by
  rw [← length_inBucket, inBucket, ← countP_eq_length_filter, countFrom, countFrom]
  induction List.range logits.length with
  | nil => rfl
  | cons i l ih =>
    simp only [countP_cons, decide_eq_true_eq, ih]
    split_ifs <;> omega

theorem findBucket_eq (hk : k ≤ countFrom logits 0) : ∀ b : ℕ, countFrom logits b < k →
    ∃ ib < b, findBucket (histo logits) k b (countFrom logits b) = some ib ∧
      countFrom logits (ib + 1) < k ∧ k ≤ countFrom logits ib
  | 0, hlt => absurd hk (not_le.2 hlt)
  | b + 1, hlt => by
    rw [findBucket, ← countFrom_succ]
    split_ifs with hle
    · exact ⟨b, Nat.lt_succ_self b, rfl, hlt, hle⟩
    · obtain ⟨ib, hib, hfind⟩ := findBucket_eq hk b (not_le.1 hle)
      exact ⟨ib, hib.trans (Nat.lt_succ_self b), hfind⟩

@[simp] theorem mem_inBucket :
    i ∈ inBucket logits b ↔ i < logits.length ∧ bucketAt logits i = b := by
  simp [inBucket]

@[simp] theorem mem_aboveBucket :
    i ∈ aboveBucket logits ib ↔ i < logits.length ∧ ib < bucketAt logits i := by
  simp only [aboveBucket, mem_flatMap, mem_reverse, mem_range'_1, mem_inBucket]
  constructor
  · rintro ⟨b, ⟨hb, -⟩, hi, rfl⟩
    exact ⟨hi, hb⟩
  · rintro ⟨hi, hb⟩
    have hlt : bucketAt logits i < nbuckets := bucketOf_lt _
    exact ⟨_, ⟨hb, by omega⟩, hi, rfl⟩

@[simp] theorem mem_sortedBucket :
    i ∈ sortedBucket logits ib ↔ i < logits.length ∧ bucketAt logits i = ib := by
  rw [sortedBucket, mem_insertionSort, mem_inBucket]

theorem pairwise_inBucket : (inBucket logits b).Pairwise (· < ·) := pairwise_lt_range.filter _

theorem pairwise_sortedBucket : (sortedBucket logits ib).Pairwise (Ahead (logitAt logits)) :=
  pairwise_insertionSort pairwise_inBucket

theorem pairwise_aboveBucket : (aboveBucket logits ib).Pairwise (Ahead (bucketAt logits)) := by
  rw [aboveBucket, pairwise_flatMap]
  constructor
  · intro b _
    refine List.Pairwise.imp_of_mem (fun hi hj hlt => .inr ⟨?_, hlt⟩) pairwise_inBucket
    rw [(mem_inBucket.1 hi).2, (mem_inBucket.1 hj).2]
  · rw [pairwise_reverse]
    refine List.Pairwise.imp (fun hlt i hi j hj => .inl ?_) pairwise_lt_range'
    rwa [(mem_inBucket.1 hi).2, (mem_inBucket.1 hj).2]

theorem length_aboveBucket : (aboveBucket logits ib).length = countFrom logits (ib + 1) := by
  rw [countFrom, countP_eq_length_filter]
  refine ((perm_ext_iff_of_nodup (nodup_of_pairwise pairwise_aboveBucket)
    (nodup_range.filter _)).2 fun i => ?_).length_eq
  rw [mem_aboveBucket, mem_filter, mem_range, decide_eq_true_eq]
  rfl

theorem mem_collected : i ∈ collected logits ib ↔ i < logits.length ∧ ib ≤ bucketAt logits i := by
  rw [collected, mem_append, mem_aboveBucket, mem_sortedBucket, ← and_or_left,
    le_iff_lt_or_eq, eq_comm (a := ib)]

theorem length_collected : (collected logits ib).length = countFrom logits ib := by
  rw [collected, length_append, length_aboveBucket, sortedBucket, length_insertionSort,
    length_inBucket, ← countFrom_succ]

theorem nodup_collected : (collected logits ib).Nodup := by
  rw [collected, nodup_append]
  refine ⟨nodup_of_pairwise pairwise_aboveBucket, nodup_of_pairwise pairwise_sortedBucket, ?_⟩
  rintro i hi j hj rfl
  exact absurd (mem_sortedBucket.1 hj).2 (mem_aboveBucket.1 hi).2.ne'

theorem histogramTopK_eq (hpos : 0 < k) (hk : k ≤ logits.length) (idxBuf : List ℕ) :
    ∃ ib, countFrom logits (ib + 1) < k ∧ k ≤ countFrom logits ib ∧
      histogramTopK logits idxBuf k = ((collected logits ib).length - k,
        collected logits ib ++ idxBuf.drop (collected logits ib).length) := by
  have hnone : countFrom logits nbuckets < k := by rwa [countFrom_nbuckets]
  have hall : k ≤ countFrom logits 0 := by rwa [countFrom_zero]
  obtain ⟨ib, -, hfind, hlt, hle⟩ := findBucket_eq hall nbuckets hnone
  refine ⟨ib, hlt, hle, ?_⟩
  rw [countFrom_nbuckets] at hfind
  rw [histogramTopK, hfind]
  have hstart : (if (collected logits ib).length ≤ k then 0 else (collected logits ib).length - k) =
      (collected logits ib).length - k := by
    split_ifs <;> omega
  exact Prod.ext hstart rfl

/-- The logits that are selected are those of whole buckets, and within each bucket but the lowest
the greater ones come first. -/
def Separated (logits : List K) (k : ℕ) : Prop :=
  ∃ b, countFrom logits b = k ∧ ∀ i j : ℕ, i < j → j < logits.length → b < bucketAt logits i →
    bucketAt logits i = bucketAt logits j → logitAt logits j ≤ logitAt logits i

theorem le_of_pairwise_collected (h : (collected logits ib).Pairwise (Ahead (logitAt logits)))
    (hij : i < j) (hj : j < logits.length) (hib : ib < bucketAt logits i)
    (heq : bucketAt logits i = bucketAt logits j) : logitAt logits j ≤ logitAt logits i := by
  rw [collected, pairwise_append] at h
  have hboth := h.1.and pairwise_aboveBucket
  have hi : i ∈ aboveBucket logits ib := mem_aboveBucket.2 ⟨hij.trans hj, hib⟩
  have hj : j ∈ aboveBucket logits ib := mem_aboveBucket.2 ⟨hj, heq ▸ hib⟩
  have hor : (aboveBucket logits ib).Pairwise fun i j =>
      (Ahead (logitAt logits) i j ∧ Ahead (bucketAt logits) i j) ∨
        (Ahead (logitAt logits) j i ∧ Ahead (bucketAt logits) j i) := hboth.imp .inl
  have hsymm : Std.Symm fun i j => (Ahead (logitAt logits) i j ∧ Ahead (bucketAt logits) i j) ∨
      (Ahead (logitAt logits) j i ∧ Ahead (bucketAt logits) j i) := ⟨fun _ _ hor => hor.symm⟩
  rcases hor.forall hi hj hij.ne with ⟨hahead, -⟩ | ⟨-, hlt | ⟨-, hlt⟩⟩
  · exact hahead.le
  · exact absurd heq hlt.ne
  · exact absurd hij hlt.asymm

variable [IsStrictOrderedRing K]

theorem bucketOf_mono : Monotone (bucketOf : K → ℕ) := by
  intro x y hxy
  have hscale : (0 : K) ≤ bucketScale := by norm_num [bucketScale, nbuckets, bucketHigh, bucketLow]
  refine Int.toNat_le_toNat (max_le_max le_rfl (min_le_min (toI32_mono ?_) le_rfl))
  gcongr

theorem lt_of_bucketAt_lt (h : bucketAt logits i < bucketAt logits j) :
    logitAt logits i < logitAt logits j := bucketOf_mono.reflect_lt h

theorem bucketAt_le_of_ahead (h : Ahead (logitAt logits) i j) :
    bucketAt logits j ≤ bucketAt logits i := bucketOf_mono h.le

theorem mem_take_of_countFrom_lt (hi : i < logits.length)
    (h : countFrom logits (bucketAt logits i) < k) :
    i ∈ (ranking (logitAt logits) logits.length).take k := by
  refine mem_take_ranking.2 ⟨hi, (countP_mono_left fun j _ hj => ?_).trans_lt h⟩
  exact decide_eq_true (bucketAt_le_of_ahead (of_decide_eq_true hj))

theorem take_subset_collected (h : k ≤ countFrom logits ib) :
    (ranking (logitAt logits) logits.length).take k ⊆ collected logits ib := by
  intro i hi
  obtain ⟨hlt, hcount⟩ := mem_take_ranking.1 hi
  refine mem_collected.2 ⟨hlt, not_lt.1 fun hbucket => absurd hcount (not_lt.2 (h.trans ?_))⟩
  refine countP_mono_left fun j _ hj => decide_eq_true (.inl ?_)
  exact lt_of_bucketAt_lt (hbucket.trans_le (of_decide_eq_true hj))

theorem head_collected_mem (hlt : countFrom logits (ib + 1) < k) (hpos : 0 < k) {l : List ℕ}
    (h : collected logits ib = i :: l) :
    i ∈ (ranking (logitAt logits) logits.length).take k := by
  have hi : i ∈ collected logits ib := h ▸ mem_cons_self
  obtain ⟨hi, hge⟩ := mem_collected.1 hi
  rcases hge.lt_or_eq with habove | heq
  · exact mem_take_of_countFrom_lt hi ((countFrom_anti habove).trans_lt hlt)
  · -- nothing is above the bucket that is sorted, whose first index is ahead of all others
    have hnil : aboveBucket logits ib = [] := by
      rw [collected] at h
      rcases habove : aboveBucket logits ib with _ | ⟨j, above⟩
      · rfl
      · rw [habove, cons_append, List.cons.injEq] at h
        have hj : j ∈ aboveBucket logits ib := habove ▸ mem_cons_self
        rw [h.1] at hj
        exact absurd heq (mem_aboveBucket.1 hj).2.ne
    rw [collected, hnil, nil_append] at h
    have hsorted : (sortedBucket logits ib).Pairwise (Ahead (logitAt logits)) :=
      pairwise_sortedBucket
    rw [h, pairwise_cons] at hsorted
    refine mem_take_ranking.2 ⟨hi, lt_of_eq_of_lt (countP_eq_zero.2 fun j hj hji => ?_) hpos⟩
    have hji := of_decide_eq_true hji
    have hge := bucketAt_le_of_ahead hji
    have hj : j ∈ sortedBucket logits ib := by
      refine mem_sortedBucket.2 ⟨mem_range.1 hj, ?_⟩
      by_contra hne
      have habove : j ∈ aboveBucket logits ib :=
        mem_aboveBucket.2 ⟨mem_range.1 hj, by omega⟩
      rw [hnil] at habove
      exact not_mem_nil habove
    rw [h, mem_cons] at hj
    rcases hj with rfl | hj
    · exact Ahead.irrefl _ _ hji
    · exact hji.asymm (hsorted.1 j hj)

theorem pairwise_collected (h : ∀ i j : ℕ, i < j → j < logits.length → ib < bucketAt logits i →
    bucketAt logits i = bucketAt logits j → logitAt logits j ≤ logitAt logits i) :
    (collected logits ib).Pairwise (Ahead (logitAt logits)) := by
  rw [collected, pairwise_append]
  refine ⟨List.Pairwise.imp_of_mem (fun {i j} hi hj hij => ?_) pairwise_aboveBucket,
    pairwise_sortedBucket, fun i hi j hj => .inl (lt_of_bucketAt_lt ?_)⟩
  · rcases hij with hlt | ⟨heq, hlt⟩
    · exact .inl (lt_of_bucketAt_lt hlt)
    · have hle := h i j hlt (mem_aboveBucket.1 hj).1 (mem_aboveBucket.1 hi).2 heq
      rcases hle.lt_or_eq with hlt' | heq'
      · exact .inl hlt'
      · exact .inr ⟨heq'.symm, hlt⟩
  · rw [(mem_sortedBucket.1 hj).2]
    exact (mem_aboveBucket.1 hi).2

/-- The selection is that of the greatest logits, in order, exactly when they are separated. -/
theorem drop_collected_eq_iff (hlt : countFrom logits (ib + 1) < k) (hle : k ≤ countFrom logits ib)
    (hpos : 0 < k) (hk : k ≤ logits.length) :
    (collected logits ib).drop ((collected logits ib).length - k) =
      (ranking (logitAt logits) logits.length).take k ↔ Separated logits k := by
  have hpairwise := (pairwise_ranking (logitAt logits) logits.length).sublist (take_sublist k _)
  constructor
  · intro heq
    have hlen : (collected logits ib).length = k := by
      rcases hcol : collected logits ib with _ | ⟨i, l⟩
      · rw [← length_collected, hcol, length_nil] at hle
        omega
      · have hmem := head_collected_mem hlt hpos hcol
        have hnodup : (collected logits ib).Nodup := nodup_collected
        rw [← length_collected, hcol, length_cons] at hle
        rw [hcol, nodup_cons] at hnodup
        rw [← heq, hcol] at hmem
        by_contra hne
        rw [length_cons] at hne hmem
        have hdrop : l.length + 1 - k = (l.length - k) + 1 := by omega
        rw [hdrop, drop_succ_cons] at hmem
        exact hnodup.1 (mem_of_mem_drop hmem)
    rw [hlen, Nat.sub_self, drop_zero] at heq
    rw [← heq] at hpairwise
    exact ⟨ib, length_collected.symm.trans hlen, fun i j hij hj hib hbucket =>
      le_of_pairwise_collected hpairwise hij hj hib hbucket⟩
  · rintro ⟨b, hb, hordered⟩
    have hbib : b ≤ ib := not_lt.1 fun hib =>
      absurd hlt (not_lt.2 (hb.symm.le.trans (countFrom_anti hib)))
    have hlen : (collected logits ib).length = k := by
      rw [length_collected]
      exact le_antisymm (hb ▸ countFrom_anti hbib) hle
    have hnodup := nodup_of_pairwise hpairwise
    have htake : ((ranking (logitAt logits) logits.length).take k).length = k := by
      rw [length_take, length_ranking, Nat.min_eq_left hk]
    have hperm : ((ranking (logitAt logits) logits.length).take k).Perm (collected logits ib) :=
      (hnodup.subperm (take_subset_collected hle)).perm_of_length_le (by rw [hlen, htake])
    rw [hlen, Nat.sub_self, drop_zero]
    refine eq_of_pairwise (pairwise_collected fun i j hij hj hib => ?_) hpairwise
      fun i => hperm.mem_iff.symm
    exact hordered i j hij hj (hbib.trans_lt hib)

end Grim.Sampling
