import Mathlib.Algebra.Order.Field.Basic
import Mathlib.Tactic

/-!
# Drawing by running sums

Items have weights that sum up to one.  The first of them whose weights reach a threshold are kept,
and one is drawn by a share of their sum: the first whose running sum is not below it.  What has no
weight is not drawn.  Which item comes last of those that are kept depends on the threshold, so the
draws tell the items and their order.
-/

namespace Nucleus

open List

variable {ι K : Type*} [Field K] {s : K} {ps qs : List (ι × K)}

def total (ps : List (ι × K)) : K := (ps.map Prod.snd).sum

/-- The items with their running sums, from `s` on. -/
def sums : K → List (ι × K) → List (ι × K)
  | _, [] => []
  | s, p :: ps => (p.1, s + p.2) :: sums (s + p.2) ps

@[simp] theorem total_nil : total ([] : List (ι × K)) = 0 := rfl

@[simp] theorem total_cons (p : ι × K) (ps : List (ι × K)) : total (p :: ps) = p.2 + total ps := rfl

@[simp] theorem total_append (ps qs : List (ι × K)) : total (ps ++ qs) = total ps + total qs := by
  rw [total, map_append, sum_append]
  rfl

theorem sums_append : ∀ (ps qs : List (ι × K)) (s : K),
    sums s (ps ++ qs) = sums s ps ++ sums (s + total ps) qs
  | [], qs, s => by rw [total_nil, add_zero]; rfl
  | p :: ps, qs, s => by
    rw [cons_append, sums, sums_append ps qs, total_cons, ← add_assoc]
    rfl

@[simp] theorem map_fst_sums : ∀ (ps : List (ι × K)) (s : K),
    (sums s ps).map Prod.fst = ps.map Prod.fst
  | [], _ => rfl
  | p :: ps, s => congrArg (p.1 :: ·) (map_fst_sums ps (s + p.2))

theorem getLast_sums : ∀ (ps : List (ι × K)) (s : K),
    ((sums s ps).getLast?.map Prod.snd).getD s = s + total ps
  | [], s => (add_zero s).symm
  | p :: ps, s => by
    rw [sums, getLast?_cons, Option.map_some, Option.getD_some, total_cons, ← add_assoc,
      ← getLast_sums ps (s + p.2)]
    rcases (sums (s + p.2) ps).getLast? with _ | q <;> rfl

def shares (w : ι → K) (c : List ι) : List (ι × K) := c.map fun i => (i, w i / (c.map w).sum)

variable {w w' : ι → K} {c d : List ι} {i : ι} {j : ℕ}

theorem map_fst_shares (w : ι → K) (c : List ι) : (shares w c).map Prod.fst = c := by
  rw [shares, map_map]
  exact map_id' c

@[simp] theorem length_shares (w : ι → K) (c : List ι) : (shares w c).length = c.length :=
  length_map ..

theorem take_shares_congr (hsum : (d.map w').sum = (c.map w).sum) (hw : ∀ i ∈ c, w' i = w i)
    (hj : d.take j = c.take j) : (shares w' d).take j = (shares w c).take j := by
  rw [shares, shares, ← map_take, ← map_take, hj, hsum]
  refine map_congr_left fun i hi => ?_
  rw [hw i (mem_of_mem_take hi)]

theorem shares_ne_nil (hne : c ≠ []) : shares w c ≠ [] := fun hnil => hne (map_eq_nil_iff.1 hnil)

theorem total_map (f : ι → K) (c : List ι) : total (c.map fun i => (i, f i)) = (c.map f).sum := by
  rw [total, map_map]
  rfl

def mass (w : ι → K) (c l : List ι) : K := (l.map w).sum / (c.map w).sum

theorem total_take_shares (w : ι → K) (c : List ι) (k : ℕ) :
    total ((shares w c).take k) = mass w c (c.take k) := by
  have hdiv : ((c.take k).map fun i => w i / (c.map w).sum) =
      (c.take k).map fun i => w i * (c.map w).sum⁻¹ := by
    simp only [div_eq_mul_inv]
  rw [shares, ← map_take, total_map, hdiv, sum_map_mul_right, mass, div_eq_mul_inv]

variable [LinearOrder K] {t u : K}

/-- The first of the items, as few as reach the threshold, and all of them when none do. -/
structure IsNucleus (w : ι → K) (t : K) (c l : List ι) : Prop where
  isPrefix : l <+: c
  ne_nil : l ≠ []
  reaches : l = c ∨ t ≤ mass w c l
  least : ∀ l', l' <+: c → l' ≠ [] → t ≤ mass w c l' → l.length ≤ l'.length

/-- The items until the running sum reaches `t`. -/
def reach (t : K) : K → List (ι × K) → ℕ
  | _, [] => 0
  | s, p :: ps => if t ≤ s + p.2 then 1 else reach t (s + p.2) ps + 1

def keptLength (t : K) (ps : List (ι × K)) : ℕ := if 1 ≤ t then ps.length else max (reach t 0 ps) 1

def kept (t : K) (ps : List (ι × K)) : List (ι × K) := ps.take (keptLength t ps)

def pick (c : K) (cdf : List (ι × K)) : Option ι := (cdf.find? fun p => c ≤ p.2).map Prod.fst

def draw (t u : K) (ps : List (ι × K)) : Option ι :=
  pick (u * total (kept t ps)) (sums 0 (kept t ps))

theorem mem_kept_of_draw {i : ι} (h : draw t u ps = some i) : i ∈ (kept t ps).map Prod.fst := by
  obtain ⟨q, hq, rfl⟩ := Option.map_eq_some_iff.1 h
  have hmem := mem_map_of_mem (f := Prod.fst) (mem_of_find?_eq_some hq)
  rwa [map_fst_sums] at hmem

theorem mem_of_draw {i : ι} (h : draw t u ps = some i) : i ∈ ps.map Prod.fst :=
  map_subset _ (take_subset _ _) (mem_kept_of_draw h)

theorem isSome_pick {c : K} (hne : ps ≠ []) (hc : c ≤ s + total ps) :
    (pick c (sums s ps)).isSome := by
  rw [pick, Option.isSome_map, find?_isSome]
  obtain ⟨qs, q, rfl⟩ : ∃ qs q, ps = qs ++ [q] :=
    ⟨ps.dropLast, ps.getLast hne, (dropLast_append_getLast hne).symm⟩
  rw [total_append, total_cons, total_nil, add_zero, ← add_assoc] at hc
  refine ⟨(q.1, s + total qs + q.2), ?_, decide_eq_true hc⟩
  rw [sums_append]
  exact mem_append_right _ mem_cons_self

theorem pick_append {c : K} (hne : ps ≠ []) (hc : c ≤ s + total ps) :
    pick c (sums s (ps ++ qs)) = pick c (sums s ps) := by
  obtain ⟨i, hi⟩ := Option.isSome_iff_exists.1 (isSome_pick hne hc)
  rw [sums_append, pick, find?_append]
  obtain ⟨q, hq, rfl⟩ := Option.map_eq_some_iff.1 hi
  rw [pick, hq]
  rfl

theorem reach_append (qs : List (ι × K)) :
    ∀ {ps : List (ι × K)} {s : K}, ps ≠ [] → t ≤ s + total ps →
    reach t s (ps ++ qs) = reach t s ps ∧ reach t s ps ≤ ps.length
  | [], _, hne, _ => absurd rfl hne
  | p :: ps, s, _, h => by
    rw [total_cons, ← add_assoc] at h
    rw [cons_append, reach, reach, length_cons]
    split_ifs with hreach
    · exact ⟨rfl, by omega⟩
    · have hne : ps ≠ [] := by
        rintro rfl
        rw [total_nil, add_zero] at h
        exact hreach h
      obtain ⟨heq, hle⟩ := reach_append qs hne h
      exact ⟨congrArg (· + 1) heq, by omega⟩

theorem one_le_reach (h : 0 < ps.length) : 1 ≤ reach t s ps := by
  rcases ps with _ | ⟨p, ps⟩
  · exact absurd h (lt_irrefl 0)
  · rw [reach]
    split_ifs <;> omega

theorem le_of_reach_lt : ∀ {ps : List (ι × K)} {s : K}, reach t s ps < ps.length →
    t ≤ s + total (ps.take (reach t s ps))
  | [], _, h => absurd h (Nat.not_lt_zero _)
  | p :: ps, s, h => by
    rw [reach] at h ⊢
    split_ifs at h ⊢ with hle
    · rwa [take_succ_cons, take_zero, total_cons, total_nil, add_zero]
    · rw [take_succ_cons, total_cons, ← add_assoc]
      exact le_of_reach_lt (Nat.lt_of_succ_lt_succ h)

theorem lt_of_lt_reach : ∀ {ps : List (ι × K)} {s : K} {j : ℕ}, 0 < j → j < reach t s ps →
    s + total (ps.take j) < t
  | [], _, _, _, h => absurd h (Nat.not_lt_zero _)
  | p :: ps, s, j + 1, _, h => by
    rw [reach] at h
    split_ifs at h with hle
    · omega
    · rw [take_succ_cons, total_cons, ← add_assoc]
      rcases j with _ | j
      · rw [take_zero, total_nil, add_zero]
        exact not_le.1 hle
      · exact lt_of_lt_reach (Nat.succ_pos j) (Nat.lt_of_succ_lt_succ h)

theorem kept_ne_nil (hne : ps ≠ []) : kept t ps ≠ [] := by
  have hlen : 0 < ps.length := length_pos_iff.2 hne
  intro hnil
  rcases take_eq_nil_iff.1 hnil with hzero | hnil
  · rw [keptLength] at hzero
    split_ifs at hzero <;> omega
  · exact hne hnil

theorem kept_append (hne : ps ≠ []) (htotal : total ps = 1) (hzero : ∀ q ∈ qs, q.2 = 0) :
    total (kept t (ps ++ qs)) = total (kept t ps) ∧ ∃ l, kept t (ps ++ qs) = kept t ps ++ l := by
  by_cases ht : 1 ≤ t
  · have hall : ∀ ps : List (ι × K), kept t ps = ps := fun ps => by
      rw [kept, keptLength, if_pos ht, take_length]
    have hqs : total qs = 0 := by
      refine sum_eq_zero fun x hx => ?_
      obtain ⟨q, hq, rfl⟩ := mem_map.1 hx
      exact hzero q hq
    rw [hall, hall, total_append, hqs, add_zero]
    exact ⟨rfl, qs, rfl⟩
  · have hreach : t ≤ 0 + total ps := by
      rw [htotal, zero_add]
      exact (not_le.1 ht).le
    obtain ⟨heq, hle⟩ := reach_append qs hne hreach
    have hlen : 1 ≤ ps.length := length_pos_iff.2 hne
    have hkept : kept t (ps ++ qs) = kept t ps := by
      rw [kept, kept, keptLength, keptLength, if_neg ht, if_neg ht, heq,
        take_append_of_le_length (by omega)]
    exact ⟨congrArg total hkept, [], hkept.trans (append_nil _).symm⟩

variable [IsStrictOrderedRing K]

theorem total_nonneg (h : ∀ p ∈ ps, 0 ≤ p.2) : 0 ≤ total ps :=
  sum_nonneg fun _ hx => by
    obtain ⟨p, hp, rfl⟩ := mem_map.1 hx
    exact h p hp

theorem total_pos (hne : ps ≠ []) (h : ∀ p ∈ ps, 0 < p.2) : 0 < total ps := by
  rcases ps with _ | ⟨p, ps⟩
  · exact absurd rfl hne
  · obtain ⟨hp, hps⟩ := forall_mem_cons.1 h
    rw [total_cons]
    exact add_pos_of_pos_of_nonneg hp (total_nonneg fun q hq => (hps q hq).le)

theorem total_kept_pos (hne : ps ≠ []) (h : ∀ p ∈ ps, 0 < p.2) : 0 < total (kept t ps) :=
  total_pos (kept_ne_nil hne) fun p hp => h p (mem_of_mem_take hp)

theorem isSome_draw (hne : ps ≠ []) (h : ∀ p ∈ ps, 0 < p.2) (hu : u ≤ 1) :
    (draw t u ps).isSome := by
  refine isSome_pick (kept_ne_nil hne) ?_
  rw [zero_add]
  exact mul_le_of_le_one_left (total_kept_pos hne h).le hu

theorem draw_append (hne : ps ≠ []) (h : ∀ p ∈ ps, 0 < p.2) (htotal : total ps = 1)
    (hzero : ∀ q ∈ qs, q.2 = 0) (hu : u ≤ 1) : draw t u (ps ++ qs) = draw t u ps := by
  obtain ⟨hkept, l, hl⟩ := kept_append (t := t) hne htotal hzero
  rw [draw, draw, hkept, hl]
  refine pick_append (kept_ne_nil hne) ?_
  rw [zero_add]
  exact mul_le_of_le_one_left (total_kept_pos hne h).le hu

theorem le_of_mem_sums : ∀ {ps : List (ι × K)} {s : K}, (∀ p ∈ ps, 0 ≤ p.2) →
    ∀ q ∈ sums s ps, q.2 ≤ s + total ps
  | [], _, _ => by simp [sums]
  | p :: ps, s, h => by
    obtain ⟨-, hps⟩ := forall_mem_cons.1 h
    rw [sums, forall_mem_cons, total_cons, ← add_assoc]
    exact ⟨le_add_of_nonneg_right (total_nonneg hps), le_of_mem_sums hps⟩

theorem reach_eq : ∀ {ps : List (ι × K)} {s : K} {j : ℕ}, (∀ p ∈ ps, 0 ≤ p.2) → j < ps.length →
    s + total (ps.take j) < t → t ≤ s + total (ps.take (j + 1)) → reach t s ps = j + 1
  | [], _, _, _, hj, _, _ => absurd hj (Nat.not_lt_zero _)
  | p :: ps, s, 0, _, _, _, hle => by
    rw [take_succ_cons, take_zero, total_cons, total_nil, add_zero] at hle
    rw [reach, if_pos hle]
  | p :: ps, s, j + 1, h, hj, hlt, hle => by
    obtain ⟨-, hps⟩ := forall_mem_cons.1 h
    rw [take_succ_cons, total_cons, ← add_assoc] at hlt hle
    have hnot : ¬t ≤ s + p.2 := fun hreach =>
      absurd (hlt.trans_le hreach) (not_lt.2 (le_add_of_nonneg_right
        (total_nonneg fun q hq => hps q (mem_of_mem_take hq))))
    rw [reach, if_neg hnot, reach_eq hps (Nat.lt_of_succ_lt_succ hj) hlt hle]

theorem draw_at (h : ∀ p ∈ ps, 0 < p.2) (hj : j < ps.length) (hlt : total (ps.take j) < t)
    (hle : t ≤ total (ps.take (j + 1))) (ht : t < 1) : draw t 1 ps = some ps[j].1 := by
  have hreach : reach t 0 ps = j + 1 :=
    reach_eq (fun p hp => (h p hp).le) hj (by rwa [zero_add]) (by rwa [zero_add])
  have hkept : kept t ps = ps.take j ++ [ps[j]] := by
    rw [kept, keptLength, if_neg (not_le.2 ht), hreach, Nat.max_eq_left (by omega),
      take_succ_eq_append_getElem hj]
  have hsum : total (ps.take j ++ [ps[j]]) = total (ps.take j) + ps[j].2 := by
    rw [total_append, total_cons, total_nil, add_zero]
  have hnone : (sums 0 (ps.take j)).find? (fun p => 1 * total (ps.take j ++ [ps[j]]) ≤ p.2) =
      none := by
    rw [find?_eq_none]
    intro q hq hge
    have hqle := le_of_mem_sums (fun p hp => (h p (mem_of_mem_take hp)).le) q hq
    have hge := of_decide_eq_true hge
    rw [one_mul, hsum] at hge
    rw [zero_add] at hqle
    have hpos := h ps[j] (getElem_mem hj)
    linarith
  rw [draw, hkept, pick, sums_append, find?_append, hnone, Option.none_or, sums, sums,
    find?_cons_of_pos]
  · rfl
  · rw [one_mul, hsum, zero_add]
    exact decide_eq_true le_rfl

theorem sum_pos (hne : c ≠ []) (h : ∀ i ∈ c, 0 < w i) : 0 < (c.map w).sum := by
  rw [← total_map]
  refine total_pos (fun hnil => hne (map_eq_nil_iff.1 hnil)) fun p hp => ?_
  obtain ⟨i, hi, rfl⟩ := mem_map.1 hp
  exact h i hi

theorem total_drop_pos (h : ∀ p ∈ ps, 0 < p.2) (hj : j < ps.length) : 0 < total (ps.drop j) :=
  total_pos (fun hnil => by rw [drop_eq_nil_iff] at hnil; omega)
    fun p hp => h p (mem_of_mem_drop hp)

theorem shares_pos (h : ∀ i ∈ c, 0 < w i) : ∀ p ∈ shares w c, 0 < p.2 := by
  intro p hp
  obtain ⟨i, hi, rfl⟩ := mem_map.1 hp
  exact div_pos (h i hi) (sum_pos (ne_nil_of_mem hi) h)

theorem total_shares (hne : c ≠ []) (h : ∀ i ∈ c, 0 < w i) : total (shares w c) = 1 := by
  have hsum := sum_pos hne h
  have hdiv : (c.map fun i => w i / (c.map w).sum) = c.map fun i => w i * (c.map w).sum⁻¹ := by
    simp only [div_eq_mul_inv]
  rw [shares, total_map, hdiv, sum_map_mul_right, mul_inv_cancel₀ hsum.ne']

theorem isNucleus_kept (hne : c ≠ []) (h : ∀ i ∈ c, 0 < w i) (t : K) :
    IsNucleus w t c ((kept t (shares w c)).map Prod.fst) := by
  have hlen : 0 < c.length := length_pos_iff.2 hne
  have hkept : (kept t (shares w c)).map Prod.fst = c.take (keptLength t (shares w c)) := by
    rw [kept, map_take, map_fst_shares]
  rw [hkept]
  refine ⟨List.take_prefix _ _, ?_, ?_, fun l hl hlne hle => ?_⟩
  · rw [← hkept, Ne, map_eq_nil_iff]
    exact kept_ne_nil (shares_ne_nil hne)
  · by_cases ht : 1 ≤ t
    · rw [keptLength, if_pos ht, length_shares, take_length]
      exact .inl rfl
    · rw [keptLength, if_neg ht]
      by_cases hreach : reach t 0 (shares w c) < c.length
      · have hle := le_of_reach_lt ((length_shares w c).symm ▸ hreach)
        rw [zero_add, total_take_shares] at hle
        have hone : 1 ≤ reach t 0 (shares w c) := one_le_reach (by rwa [length_shares])
        rw [Nat.max_eq_left hone]
        exact .inr hle
      · rw [take_of_length_le (by omega)]
        exact .inl rfl
  · have hl := prefix_iff_eq_take.1 hl
    have hlpos := length_pos_iff.2 hlne
    rw [hl, ← total_take_shares] at hle
    rw [length_take, min_le_iff]
    by_contra hlt
    obtain ⟨hlt, hlt'⟩ := not_or.1 hlt
    rw [keptLength] at hlt
    split_ifs at hlt with ht
    · have hrest := total_drop_pos (shares_pos h) (j := l.length) (by rw [length_shares]; omega)
      have hall := congrArg total (take_append_drop l.length (shares w c))
      rw [total_append, total_shares hne h] at hall
      linarith
    · have hbelow : 0 + total ((shares w c).take l.length) < t :=
        lt_of_lt_reach hlpos (by omega)
      rw [zero_add] at hbelow
      exact absurd hle (not_le.2 hbelow)

theorem exists_threshold (h : ∀ p ∈ ps, 0 < p.2) (htotal : total ps = 1) (hj : j < ps.length)
    {x : K} (hx : 0 < x) : ∃ t < 1, total (ps.take j) < t ∧ t ≤ total (ps.take (j + 1)) ∧
      t ≤ total (ps.take j) + x := by
  have hpos := h ps[j] (getElem_mem hj)
  have hnext : total (ps.take (j + 1)) = total (ps.take j) + ps[j].2 := by
    rw [take_succ_eq_append_getElem hj, total_append, total_cons, total_nil, add_zero]
  have hle : total (ps.take (j + 1)) ≤ 1 := by
    have hall := congrArg total (take_append_drop (j + 1) ps)
    rw [total_append, htotal] at hall
    rw [← hall]
    exact le_add_of_nonneg_right (total_nonneg fun p hp => (h p (mem_of_mem_drop hp)).le)
  have hmin : 0 < min ps[j].2 x := lt_min hpos hx
  have hleft := min_le_left ps[j].2 x
  have hright := min_le_right ps[j].2 x
  refine ⟨total (ps.take j) + min ps[j].2 x / 2, ?_, ?_, ?_, ?_⟩ <;> linarith

theorem draw_shares (h : ∀ i ∈ c, 0 < w i) (hj : j < c.length)
    (hlt : total ((shares w c).take j) < t) (hle : t ≤ total ((shares w c).take (j + 1)))
    (ht : t < 1) : draw t 1 (shares w c) = some (c.get ⟨j, hj⟩) := by
  rw [draw_at (shares_pos h) ((length_shares w c).symm ▸ hj) hlt hle ht]
  simp [shares]

theorem mem_of_draws (hw : ∀ i ∈ c, 0 < w i) (hdraw : ∀ t < 1, draw t 1 (shares w c) = draw t 1 qs)
    (hi : i ∈ c) : i ∈ qs.map Prod.fst := by
  obtain ⟨j, hj, rfl⟩ := mem_iff_getElem.1 hi
  obtain ⟨t, ht, hlt, hle, -⟩ := exists_threshold (shares_pos hw)
    (total_shares (ne_nil_of_mem hi) hw) ((length_shares w c).symm ▸ hj) one_pos
  have hat := draw_shares hw hj hlt hle ht
  rw [hdraw t ht] at hat
  exact mem_of_draw hat

theorem eq_of_draws (hnodup : c.Nodup) (hlen : d.length = c.length) (hw : ∀ i ∈ c, 0 < w i)
    (hw' : ∀ i ∈ d, 0 < w' i) (hsame : d.Perm c → ∀ i ∈ c, w' i = w i)
    (hdraw : ∀ t < 1, draw t 1 (shares w c) = draw t 1 (shares w' d)) : d = c := by
  have hcd : c ⊆ d := fun i hi => by
    have hmem := mem_of_draws hw hdraw hi
    rwa [map_fst_shares] at hmem
  have hperm : d.Perm c := ((hnodup.subperm hcd).perm_of_length_le hlen.le).symm
  have hsame := hsame hperm
  have hsum : (d.map w').sum = (c.map w).sum := by
    rw [(hperm.map w').sum_eq, map_congr_left hsame]
  have htake : ∀ j ≤ c.length, d.take j = c.take j := by
    intro j
    induction j with
    | zero => exact fun _ => rfl
    | succ j ih =>
      intro hj
      have hjc : j < c.length := hj
      have hjd : j < d.length := hlen ▸ hj
      have heq := take_shares_congr hsum hsame (ih hjc.le)
      have hjd' : j < (shares w' d).length := (length_shares w' d).symm ▸ hjd
      have hx := shares_pos hw' _ (getElem_mem hjd')
      obtain ⟨t, ht, hlt, hle, hle'⟩ := exists_threshold (shares_pos hw)
        (total_shares (ne_nil_of_length_pos (by omega)) hw)
        ((length_shares w c).symm ▸ hjc) hx
      rw [← heq] at hle'
      have hnext : total ((shares w' d).take j) + (shares w' d)[j].2 =
          total ((shares w' d).take (j + 1)) := by
        rw [take_succ_eq_append_getElem hjd', total_append, total_cons, total_nil, add_zero]
      have hat := draw_shares hw hjc hlt hle ht
      rw [hdraw t ht, draw_shares hw' hjd (heq ▸ hlt) (hnext ▸ hle') ht, get_eq_getElem,
        get_eq_getElem] at hat
      rw [take_succ_eq_append_getElem hjd, take_succ_eq_append_getElem hjc, ih hjc.le,
        Option.some.inj hat]
  have hall := htake c.length le_rfl
  rwa [take_length, ← hlen, take_length] at hall

end Nucleus
