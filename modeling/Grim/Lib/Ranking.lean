import Mathlib.Data.List.Sort
import Mathlib.Tactic

/-!
# Ranking by a key

Indices are sorted by their keys, the greatest first, and equal keys stay in order.  An index is
among the first `k` when fewer than `k` are ahead of it.
-/

namespace Ranking

open List

variable {K : Type*} [LinearOrder K] {key : ℕ → K} {i j n k : ℕ} {l : List ℕ}

def Ahead (key : ℕ → K) (i j : ℕ) : Prop := key j < key i ∨ key i = key j ∧ i < j

instance (key : ℕ → K) : DecidableRel (Ahead key) := fun _ _ =>
  inferInstanceAs (Decidable (_ ∨ _ ∧ _))

theorem Ahead.trans (hij : Ahead key i j) (hjk : Ahead key j k) : Ahead key i k := by
  rcases hij with hlt | ⟨heq, hlt⟩
  · rcases hjk with hlt' | ⟨heq', -⟩
    · exact .inl (hlt'.trans hlt)
    · exact .inl (heq' ▸ hlt)
  · rcases hjk with hlt' | ⟨heq', hlt'⟩
    · exact .inl (heq ▸ hlt')
    · exact .inr ⟨heq.trans heq', hlt.trans hlt'⟩

theorem Ahead.irrefl (key : ℕ → K) (i : ℕ) : ¬Ahead key i i := by
  rintro (hlt | ⟨-, hlt⟩)
  · exact lt_irrefl _ hlt
  · exact lt_irrefl _ hlt

theorem Ahead.asymm (hij : Ahead key i j) : ¬Ahead key j i :=
  fun hji => Ahead.irrefl key i (hij.trans hji)

theorem Ahead.le (h : Ahead key i j) : key j ≤ key i := by
  rcases h with hlt | ⟨heq, -⟩
  · exact hlt.le
  · exact heq.ge

theorem ahead_or_ahead (key : ℕ → K) (hne : i ≠ j) : Ahead key i j ∨ Ahead key j i := by
  rcases lt_trichotomy (key i) (key j) with hlt | heq | hlt
  · exact .inr (.inl hlt)
  · rcases lt_or_gt_of_ne hne with hlt | hlt
    · exact .inl (.inr ⟨heq, hlt⟩)
    · exact .inr (.inr ⟨heq.symm, hlt⟩)
  · exact .inl (.inl hlt)

/-- The indices below `n`, sorted. -/
def ranking (key : ℕ → K) (n : ℕ) : List ℕ := (List.range n).insertionSort fun i j => key j ≤ key i

theorem ranking_perm (key : ℕ → K) (n : ℕ) : (ranking key n).Perm (List.range n) :=
  perm_insertionSort _ _

@[simp] theorem mem_ranking : i ∈ ranking key n ↔ i < n := by
  rw [(ranking_perm key n).mem_iff, mem_range]

@[simp] theorem length_ranking (key : ℕ → K) (n : ℕ) : (ranking key n).length = n := by
  rw [(ranking_perm key n).length_eq, length_range]

theorem nodup_ranking (key : ℕ → K) (n : ℕ) : (ranking key n).Nodup :=
  (ranking_perm key n).nodup_iff.2 nodup_range

theorem pairwise_orderedInsert : ∀ {l : List ℕ}, l.Pairwise (Ahead key) → (∀ j ∈ l, i < j) →
    (l.orderedInsert (fun i j => key j ≤ key i) i).Pairwise (Ahead key)
  | [], _, _ => pairwise_singleton _ _
  | j :: l, h, hlt => by
    obtain ⟨hj, hl⟩ := pairwise_cons.1 h
    obtain ⟨hij, hil⟩ := forall_mem_cons.1 hlt
    rw [orderedInsert_cons]
    split_ifs with hle
    · have hahead : Ahead key i j := by
        rcases hle.lt_or_eq with hlt | heq
        · exact .inl hlt
        · exact .inr ⟨heq.symm, hij⟩
      exact pairwise_cons.2
        ⟨forall_mem_cons.2 ⟨hahead, fun k hk => hahead.trans (hj k hk)⟩, h⟩
    · refine pairwise_cons.2 ⟨fun k hk => ?_, pairwise_orderedInsert hl hil⟩
      rcases (mem_orderedInsert _).1 hk with rfl | hk
      · exact .inl (not_le.1 hle)
      · exact hj k hk

theorem pairwise_insertionSort : ∀ {l : List ℕ}, l.Pairwise (· < ·) →
    (l.insertionSort fun i j => key j ≤ key i).Pairwise (Ahead key)
  | [], _ => .nil
  | i :: l, h => by
    obtain ⟨hi, hl⟩ := pairwise_cons.1 h
    rw [insertionSort_cons]
    exact pairwise_orderedInsert (pairwise_insertionSort hl)
      fun j hj => hi j ((mem_insertionSort _).1 hj)

theorem pairwise_ranking (key : ℕ → K) (n : ℕ) : (ranking key n).Pairwise (Ahead key) :=
  pairwise_insertionSort pairwise_lt_range

theorem Ahead.ne (h : Ahead key i j) : i ≠ j := by
  rintro rfl
  exact Ahead.irrefl key i h

theorem nodup_of_pairwise (h : l.Pairwise (Ahead key)) : l.Nodup :=
  List.Pairwise.imp Ahead.ne h

theorem eq_of_pairwise {l l' : List ℕ} (h : l.Pairwise (Ahead key)) (h' : l'.Pairwise (Ahead key))
    (hmem : ∀ i, i ∈ l ↔ i ∈ l') : l = l' := by
  have hperm : l.Perm l' :=
    (perm_ext_iff_of_nodup (nodup_of_pairwise h) (nodup_of_pairwise h')).2 hmem
  exact hperm.eq_of_pairwise (fun i j _ _ hij hji => absurd hji hij.asymm) h h'

theorem mem_take_iff : ∀ {l : List ℕ} {k : ℕ}, l.Pairwise (Ahead key) →
    (i ∈ l.take k ↔ i ∈ l ∧ l.countP (fun j => Ahead key j i) < k)
  | [], k, _ => by simp
  | j :: l, 0, _ => by simp
  | j :: l, k + 1, h => by
    obtain ⟨hj, hl⟩ := pairwise_cons.1 h
    rw [take_succ_cons, mem_cons, mem_take_iff hl, mem_cons, countP_cons]
    by_cases hi : i = j
    · subst hi
      have hnone : l.countP (fun j => Ahead key j i) = 0 := by
        rw [countP_eq_zero]
        intro m hm
        exact fun hahead => (hj m hm).asymm (of_decide_eq_true hahead)
      simp [hnone, Ahead.irrefl]
    · constructor
      · rintro (heq | ⟨hmem, hcount⟩)
        · exact absurd heq hi
        · rw [if_pos (decide_eq_true (hj i hmem))]
          exact ⟨.inr hmem, by omega⟩
      · rintro ⟨heq | hmem, hcount⟩
        · exact absurd heq hi
        · rw [if_pos (decide_eq_true (hj i hmem))] at hcount
          exact .inr ⟨hmem, by omega⟩

theorem mem_take_ranking : i ∈ (ranking key n).take k ↔
    i < n ∧ (List.range n).countP (fun j => Ahead key j i) < k := by
  rw [mem_take_iff (pairwise_ranking key n), mem_ranking, (ranking_perm key n).countP_eq]

theorem mem_drop_ranking (hi : i < n) :
    i ∈ (ranking key n).drop k ↔ i ∉ (ranking key n).take k := by
  have hnodup := nodup_ranking key n
  have hmem : i ∈ ranking key n := mem_ranking.2 hi
  rw [← take_append_drop k (ranking key n)] at hnodup hmem
  constructor
  · intro hdrop htake
    exact (nodup_append.1 hnodup).2.2 i htake i hdrop rfl
  · exact (mem_append.1 hmem).resolve_left

theorem le_of_mem_take (hi : i < n) (hni : i ∉ (ranking key n).take k)
    (hj : j ∈ (ranking key n).take k) : key i ≤ key j := by
  have hdrop := (mem_drop_ranking hi).2 hni
  have hsorted := pairwise_ranking key n
  rw [← take_append_drop k (ranking key n), pairwise_append] at hsorted
  exact (hsorted.2.2 j hj i hdrop).le

theorem take_two_ranking (hi : i < n) (hj : j < n) (hij : Ahead key i j)
    (hrest : ∀ k < n, k ≠ i → k ≠ j → Ahead key j k) : (ranking key n).take 2 = [i, j] := by
  set others := (List.range n).filter fun k => k ≠ i ∧ k ≠ j
  have hmem : ∀ k, k ∈ others.insertionSort (fun i j => key j ≤ key i) ↔
      k < n ∧ k ≠ i ∧ k ≠ j := fun k => by
    rw [mem_insertionSort, mem_filter, mem_range, decide_eq_true_eq]
  have hsorted : (i :: j :: others.insertionSort fun i j => key j ≤ key i).Pairwise
      (Ahead key) := by
    have hothers : others.Pairwise (· < ·) := pairwise_lt_range.filter _
    have hj' : ∀ k ∈ others.insertionSort (fun i j => key j ≤ key i), Ahead key j k :=
        fun k hk => by
      obtain ⟨hk, hki, hkj⟩ := (hmem k).1 hk
      exact hrest k hk hki hkj
    refine pairwise_cons.2 ⟨forall_mem_cons.2 ⟨hij, fun k hk => hij.trans (hj' k hk)⟩, ?_⟩
    exact pairwise_cons.2 ⟨hj', pairwise_insertionSort hothers⟩
  have hall : ranking key n = i :: j :: others.insertionSort fun i j => key j ≤ key i := by
    refine eq_of_pairwise (pairwise_ranking key n) hsorted fun k => ?_
    rw [mem_ranking, mem_cons, mem_cons, hmem]
    constructor
    · intro hk
      by_cases hki : k = i
      · exact .inl hki
      · by_cases hkj : k = j
        · exact .inr (.inl hkj)
        · exact .inr (.inr ⟨hk, hki, hkj⟩)
    · rintro (rfl | rfl | ⟨hk, -, -⟩)
      · exact hi
      · exact hj
      · exact hk
  rw [hall]
  rfl

theorem not_mem_take_two (hi : i < n) (hj : j < n) (hne : i ≠ j) {m : ℕ} (him : Ahead key i m)
    (hjm : Ahead key j m) : m ∉ (ranking key n).take 2 := by
  intro hmem
  have hcount := (mem_take_ranking.1 hmem).2
  have hsub : [i, j] ⊆ (List.range n).filter fun k => Ahead key k m := by
    intro k hk
    rw [mem_filter, mem_range, decide_eq_true_eq]
    rcases mem_pair.1 hk with rfl | rfl
    · exact ⟨hi, him⟩
    · exact ⟨hj, hjm⟩
  have hnodup : [i, j].Nodup := by simpa using hne
  have hlen := (hnodup.subperm hsub).length_le
  rw [countP_eq_length_filter] at hcount
  exact absurd hlen (by simpa using hcount)

def maxAt (key : ℕ → K) (l : List ℕ) : WithBot K := l.foldl (fun m i => max m ↑(key i)) ⊥

theorem foldl_max_le_iff {α : Type*} (f : α → WithBot K) {x : WithBot K} :
    ∀ (l : List α) (m : WithBot K), l.foldl (fun m i => max m (f i)) m ≤ x ↔
      m ≤ x ∧ ∀ i ∈ l, f i ≤ x
  | [], m => by simp
  | i :: l, m => by
    rw [foldl_cons, foldl_max_le_iff f l, max_le_iff, forall_mem_cons, and_assoc]

theorem maxAt_le_iff {key : ℕ → K} {l : List ℕ} {x : WithBot K} :
    maxAt key l ≤ x ↔ ∀ i ∈ l, (key i : WithBot K) ≤ x := by
  rw [maxAt, foldl_max_le_iff]
  exact and_iff_right bot_le

theorem maxAt_ne_bot {key : ℕ → K} {l : List ℕ} (hne : l ≠ []) : maxAt key l ≠ ⊥ := by
  intro hbot
  obtain ⟨i, hi⟩ := exists_mem_of_ne_nil l hne
  exact WithBot.coe_ne_bot (le_bot_iff.1 (maxAt_le_iff.1 hbot.le i hi))

theorem maxAt_congr {key : ℕ → K} {l l' : List ℕ} (h : ∀ i, i ∈ l ↔ i ∈ l') :
    maxAt key l = maxAt key l' :=
  eq_of_forall_ge_iff fun x => by simp only [maxAt_le_iff, h]

theorem foldl_lt_eq_maxAt (key : ℕ → K) (l : List ℕ) :
    l.foldl (fun m i => if m < ↑(key i) then ↑(key i) else m) ⊥ = maxAt key l := by
  have hmax : (fun (m : WithBot K) i => if m < ↑(key i) then ↑(key i) else m) =
      fun m i => max m ↑(key i) := by
    funext m i
    rw [max_def_lt]
  rw [maxAt, hmax]

end Ranking
