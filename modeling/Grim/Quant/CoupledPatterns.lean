import Grim.Quant.GreyTiles

/-!
# Patterns shared by a tile

Sixteen rows and two groups share one pattern.  `coupled_patterns_2_4` takes the first of the six
patterns that drops the least, but looks at none that drops nothing: at the right edge, where a
group has one or two columns left, the pattern that keeps them all is passed over.

A weight is a rational, and `none` is a panic.
-/

namespace Grim.Quant

open Sweep List

def patterns24 : List (ℕ × ℕ) := [(0, 1), (0, 2), (0, 3), (1, 2), (1, 3), (2, 3)]

/-- `if k < cols { if s != cand[0] && s != cand[1] { .. } }` -/
def dropSlot (weights : List ℚ) (cols row gb : ℕ) (cand : ℕ × ℕ) (acc : ℚ × Bool) (s : ℕ) :
    Option (ℚ × Bool) :=
  let k := gb + s
  if k < cols then
    if s ≠ cand.1 ∧ s ≠ cand.2 then do
      let v ← weights[row * cols + k]?
      pure (acc.1 + v * v, true)
    else some acc
  else some acc

/-- What the pattern `cand` drops of a class, and whether it drops anything. -/
def classCost (weights : List ℚ) (rows cols t w p : ℕ) (cand : ℕ × ℕ) : Option (ℚ × Bool) :=
  (List.range 16).foldlM
    (fun acc r =>
      let row := 16 * t + r
      if rows ≤ row then some acc
      else
        [p, p + 4].foldlM
          (fun acc g =>
            let gb := 32 * w + 4 * g
            (List.range 4).foldlM (dropSlot weights cols row gb cand) acc)
          acc)
    (0, false)

structure Best where
  pattern : ℕ × ℕ
  /-- `f32::INFINITY` is `none`. -/
  cost : Option ℚ

/-- `if any && cost < best_cost { .. }` -/
def Best.consider (best : Best) (cand : ℕ × ℕ) (cost : ℚ) (any : Bool) : Best :=
  if any && best.cost.all (cost < ·) then ⟨cand, some cost⟩ else best

def chooseBest (weights : List ℚ) (rows cols t w p : ℕ) : Option Best :=
  patterns24.foldlM
    (fun best cand => do
      let (cost, any) ← classCost weights rows cols t w p cand
      pure (Best.consider best cand cost any))
    ⟨(0, 1), none⟩

def classPattern (weights : List ℚ) (rows cols t w p : ℕ) : Option (UInt8 × UInt8) := do
  let best ← chooseBest weights rows cols t w p
  pure (UInt8.ofNat best.pattern.1, UInt8.ofNat best.pattern.2)

def coupledPatterns24 (weights : List ℚ) (rows cols : ℕ) :
    Option (Except String (List (UInt8 × UInt8))) :=
  if rows = 0 ∨ cols = 0 then some (.error "need nonzero rows and cols")
  else if weights.length < rows * cols then some (.error "weights shorter than rows*cols")
  else
    ((List.range (nTiles rows)).foldlM
      (fun out t => (List.range (nWindows cols)).foldlM
        (fun out w => (List.range 4).foldlM
          (fun out p => do
            let pat ← classPattern weights rows cols t w p
            pure (out ++ [pat]))
          out)
        out)
      []).map .ok

/-- The rows of tile `t`. -/
def tileRows (rows t : ℕ) : Finset ℕ := (Finset.range rows).filter (· / 16 = t)

/-- The columns of window `w` and class `p` that a pattern drops. -/
def droppedColumns (cols w p : ℕ) (cand : ℕ × ℕ) : Finset ℕ :=
  (Finset.range cols).filter fun c =>
    c / 32 = w ∧ c / 4 % 4 = p ∧ c % 4 ≠ cand.1 ∧ c % 4 ≠ cand.2

/-- The squares of the weights a pattern drops of a tile, a window and a class. -/
def droppedWeight (weights : List ℚ) (rows cols t w p : ℕ) (cand : ℕ × ℕ) : ℚ :=
  ∑ r ∈ tileRows rows t, ∑ c ∈ droppedColumns cols w p cand,
    weights.getD (r * cols + c) 0 ^ 2

section Costs

variable {weights : List ℚ} {rows cols t w p row gb s : ℕ} {cand : ℕ × ℕ}

theorem foldlM_costs {ι : Type} {f : ℚ × Bool → ι → Option (ℚ × Bool)} {x : ι → ℚ} {b : ι → Bool} :
    ∀ {is : List ι} {acc : ℚ × Bool},
      (∀ i ∈ is, ∀ acc, f acc i = some (acc.1 + x i, acc.2 || b i)) →
        is.foldlM f acc = some (acc.1 + (is.map x).sum, acc.2 || is.any b)
  | [], acc, _ => by
    simp
  | i :: is, acc, h => by
    rw [foldlM_cons, h i mem_cons_self, Option.bind_eq_bind, Option.bind_some,
      foldlM_costs fun j hj => h j (mem_cons_of_mem i hj), map_cons, sum_cons,
      any_cons, add_assoc, Bool.or_assoc]

def Drops (cols : ℕ) (cand : ℕ × ℕ) (c : ℕ) : Prop := c < cols ∧ c % 4 ≠ cand.1 ∧ c % 4 ≠ cand.2

instance (cols : ℕ) (cand : ℕ × ℕ) : DecidablePred (Drops cols cand) := fun _ =>
  inferInstanceAs (Decidable (_ ∧ _))

def square (weights : List ℚ) (cols r c : ℕ) : ℚ := weights.getD (r * cols + c) 0 ^ 2

theorem square_nonneg (weights : List ℚ) (cols r c : ℕ) : 0 ≤ square weights cols r c :=
  sq_nonneg _

def dropCost (weights : List ℚ) (cols row : ℕ) (cand : ℕ × ℕ) (c : ℕ) : ℚ :=
  if Drops cols cand c then square weights cols row c else 0

theorem dropSlot_eq (hlen : rows * cols ≤ weights.length) (hrow : row < rows) (hgb : gb % 4 = 0)
    (hs : s < 4) (acc : ℚ × Bool) :
    dropSlot weights cols row gb cand acc s =
      some (acc.1 + dropCost weights cols row cand (gb + s),
        acc.2 || decide (Drops cols cand (gb + s))) := by
  have hslot : (gb + s) % 4 = s := by omega
  simp only [dropSlot, dropCost, Drops, hslot]
  by_cases hk : gb + s < cols
  · by_cases hdrop : s ≠ cand.1 ∧ s ≠ cand.2
    · have hlt := lt_of_lt_of_le (cell_lt hrow hk) hlen
      have hget : weights[row * cols + (gb + s)]? =
          some (weights.getD (row * cols + (gb + s)) 0) := by
        rw [getD_eq_getElem?_getD, getElem?_eq_getElem hlt]
        rfl
      rw [if_pos hk, if_pos hdrop, if_pos ⟨hk, hdrop⟩, hget, decide_eq_true ⟨hk, hdrop⟩,
        Bool.or_true,
        square, sq]
      rfl
    · rw [if_pos hk, if_neg hdrop, if_neg fun h => hdrop h.2, decide_eq_false fun h => hdrop h.2,
        add_zero, Bool.or_false]
  · rw [if_neg hk, if_neg fun h => hk h.1, decide_eq_false fun h => hk h.1, add_zero,
      Bool.or_false]

def classColumns (w p : ℕ) : List ℕ :=
  [p, p + 4].flatMap fun g => (List.range 4).map fun s => 32 * w + 4 * g + s

theorem mem_classColumns (hp : p < 4) {c : ℕ} :
    c ∈ classColumns w p ↔ c / 32 = w ∧ c / 4 % 4 = p := by
  simp only [classColumns, mem_flatMap, mem_cons, not_mem_nil, or_false,
    mem_map, mem_range]
  constructor
  · rintro ⟨g, rfl | rfl, s, hs, rfl⟩ <;> omega
  · rintro ⟨rfl, rfl⟩
    exact ⟨c / 4 % 8, by omega, c % 4, by omega, by omega⟩

theorem nodup_classColumns : (classColumns w p).Nodup := by
  simp only [classColumns, flatMap_cons, flatMap_nil, append_nil, nodup_append]
  refine ⟨?_, ?_, fun c hc c' hc' => ?_⟩
  · exact nodup_range.map fun s s' h => by simpa using h
  · exact nodup_range.map fun s s' h => by simpa using h
  · obtain ⟨s, hs, rfl⟩ := mem_map.1 hc
    obtain ⟨s', hs', rfl⟩ := mem_map.1 hc'
    rw [mem_range] at hs hs'
    omega

def rowCost (weights : List ℚ) (cols w p : ℕ) (cand : ℕ × ℕ) (row : ℕ) : ℚ :=
  ∑ c ∈ droppedColumns cols w p cand, square weights cols row c

theorem droppedColumns_eq (hp : p < 4) : droppedColumns cols w p cand =
    (classColumns w p).toFinset.filter (Drops cols cand) := by
  ext c
  simp only [droppedColumns, Finset.mem_filter, Finset.mem_range, mem_toFinset,
    mem_classColumns hp, Drops]
  tauto

theorem foldlM_row (hlen : rows * cols ≤ weights.length) (hrow : row < rows) (hp : p < 4)
    (acc : ℚ × Bool) :
    [p, p + 4].foldlM
      (fun acc g => (List.range 4).foldlM (dropSlot weights cols row (32 * w + 4 * g) cand) acc)
      acc = some (acc.1 + rowCost weights cols w p cand row,
        acc.2 || decide (droppedColumns cols w p cand).Nonempty) := by
  have hgroup : ∀ g (acc : ℚ × Bool),
      (List.range 4).foldlM (dropSlot weights cols row (32 * w + 4 * g) cand) acc =
        some (acc.1 + ((List.range 4).map fun s =>
            dropCost weights cols row cand (32 * w + 4 * g + s)).sum,
          acc.2 || (List.range 4).any fun s => decide (Drops cols cand (32 * w + 4 * g + s))) :=
    fun g acc => foldlM_costs fun s hs acc =>
      dropSlot_eq hlen hrow (by omega) (mem_range.1 hs) acc
  refine (foldlM_costs fun g _ acc => hgroup g acc).trans ?_
  have hsum : ∀ F : ℕ → ℚ, ([p, p + 4].map fun g =>
      ((List.range 4).map fun s => F (32 * w + 4 * g + s)).sum).sum =
        ∑ c ∈ (classColumns w p).toFinset, F c := fun F => by
    rw [sum_toFinset F nodup_classColumns, classColumns, map_flatMap, List.flatMap,
      sum_flatten, map_map]
    simp only [map_map, Function.comp_def]
  have hany : ∀ b : ℕ → Bool, ([p, p + 4].any fun g =>
      (List.range 4).any fun s => b (32 * w + 4 * g + s)) = (classColumns w p).any b := fun b => by
    rw [classColumns, any_flatMap]
    simp only [any_map, Function.comp_def]
  have hnonempty : (classColumns w p).any (fun c => decide (Drops cols cand c)) =
      decide (droppedColumns cols w p cand).Nonempty := by
    rw [Bool.eq_iff_iff, droppedColumns_eq hp]
    simp [Finset.Nonempty]
  rw [hsum, hany fun c => decide (Drops cols cand c), hnonempty, rowCost, droppedColumns_eq hp,
    Finset.sum_filter]
  rfl

theorem tileRows_eq : tileRows rows t =
    (((List.range 16).map (16 * t + ·)).toFinset).filter (· < rows) := by
  ext r
  simp only [tileRows, Finset.mem_filter, Finset.mem_range, mem_toFinset, mem_map,
    mem_range]
  constructor
  · rintro ⟨hr, rfl⟩
    exact ⟨⟨r % 16, by omega, by omega⟩, hr⟩
  · rintro ⟨⟨i, hi, rfl⟩, hr⟩
    exact ⟨hr, by omega⟩

theorem classCost_eq (hlen : rows * cols ≤ weights.length) (ht : t < nTiles rows) (hp : p < 4) :
    classCost weights rows cols t w p cand = some (droppedWeight weights rows cols t w p cand,
      decide (droppedColumns cols w p cand).Nonempty) := by
  have hrow : ∀ (r : ℕ) (acc : ℚ × Bool),
      (if rows ≤ 16 * t + r then some acc
        else [p, p + 4].foldlM
          (fun acc g => (List.range 4).foldlM
            (dropSlot weights cols (16 * t + r) (32 * w + 4 * g) cand) acc) acc) =
        some (acc.1 + (if 16 * t + r < rows then rowCost weights cols w p cand (16 * t + r) else 0),
          acc.2 || (decide (16 * t + r < rows) &&
            decide (droppedColumns cols w p cand).Nonempty)) := fun r acc => by
    by_cases hr : 16 * t + r < rows
    · rw [if_neg (not_le.2 hr), if_pos hr, decide_eq_true hr, Bool.true_and,
        foldlM_row hlen hr hp]
    · rw [if_pos (not_lt.1 hr), if_neg hr, decide_eq_false hr, Bool.false_and, Bool.or_false,
        add_zero]
  refine (foldlM_costs fun r _ acc => hrow r acc).trans ?_
  have hsum : ((List.range 16).map fun r =>
      if 16 * t + r < rows then rowCost weights cols w p cand (16 * t + r) else 0).sum =
        droppedWeight weights rows cols t w p cand := by
    have hnodup : ((List.range 16).map (16 * t + ·)).Nodup :=
      nodup_range.map fun r r' h => by simpa using h
    have hlist := sum_toFinset
      (fun row => if row < rows then rowCost weights cols w p cand row else 0) hnodup
    rw [map_map] at hlist
    rw [droppedWeight, tileRows_eq, Finset.sum_filter]
    exact hlist.symm
  have hany : ((List.range 16).any fun r => decide (16 * t + r < rows) &&
      decide (droppedColumns cols w p cand).Nonempty) =
        decide (droppedColumns cols w p cand).Nonempty := by
    have hfirst : 16 * t + 0 < rows := by
      rw [nTiles] at ht
      omega
    rw [Bool.eq_iff_iff]
    simp only [any_eq_true, mem_range, Bool.and_eq_true, decide_eq_true_eq]
    constructor
    · rintro ⟨_, _, _, hsome⟩
      exact hsome
    · intro hsome
      exact ⟨0, by decide, hfirst, hsome⟩
  rw [hsum, hany, zero_add, Bool.false_or]

end Costs

section Selection

variable {cost : ℕ × ℕ → ℚ} {any : ℕ × ℕ → Bool} {seen : List (ℕ × ℕ)} {best : Best}

/-- Of the candidates seen none has dropped anything, or the cheapest that has stands here. -/
def Best.Least (cost : ℕ × ℕ → ℚ) (any : ℕ × ℕ → Bool) (seen : List (ℕ × ℕ)) (best : Best) :
    Prop :=
  (best = ⟨(0, 1), none⟩ ∧ ∀ cand ∈ seen, any cand = false) ∨
    (best.pattern ∈ seen ∧ any best.pattern = true ∧ best.cost = some (cost best.pattern) ∧
      ∀ cand ∈ seen, any cand = true → cost best.pattern ≤ cost cand)

theorem Best.Least.consider (h : best.Least cost any seen) (cand : ℕ × ℕ) :
    (best.consider cand (cost cand) (any cand)).Least cost any (seen ++ [cand]) := by
  have hsplit : ∀ {P : ℕ × ℕ → Prop}, (∀ c ∈ seen, P c) → P cand → ∀ c ∈ seen ++ [cand], P c :=
    fun hseen hcand c hc => (mem_append.1 hc).elim (hseen c) fun h1 =>
      mem_singleton.1 h1 ▸ hcand
  rcases hany : any cand with _ | _
  · -- a candidate that drops nothing is passed over
    have hsame : best.consider cand (cost cand) false = best := if_neg (by simp)
    rw [hsame]
    rcases h with ⟨rfl, hnone⟩ | ⟨hmem, hlive, hcost, hleast⟩
    · exact .inl ⟨rfl, hsplit hnone hany⟩
    · exact .inr ⟨mem_append_left _ hmem, hlive, hcost,
        hsplit hleast fun htrue => absurd (hany.symm.trans htrue) (by simp)⟩
  · rcases h with ⟨rfl, hnone⟩ | ⟨hmem, hlive, hcost, hleast⟩
    · refine .inr ⟨by simp [Best.consider], hany, rfl, hsplit (fun c hc htrue => ?_) fun _ =>
        le_rfl⟩
      exact absurd ((hnone c hc).symm.trans htrue) (by simp)
    · by_cases hlt : cost cand < cost best.pattern
      · have htaken : best.consider cand (cost cand) true = ⟨cand, some (cost cand)⟩ :=
          if_pos (by simpa [hcost] using hlt)
        rw [htaken]
        exact .inr ⟨mem_append_right _ (mem_singleton_self cand), hany, rfl,
          hsplit (fun c hc htrue => hlt.le.trans (hleast c hc htrue)) fun _ => le_rfl⟩
      · have hkept : best.consider cand (cost cand) true = best :=
          if_neg (by simpa [hcost] using hlt)
        rw [hkept]
        exact .inr ⟨mem_append_left _ hmem, hlive, hcost,
          hsplit hleast fun _ => not_lt.1 hlt⟩

theorem Best.Least.run {f : ℕ × ℕ → Option (ℚ × Bool)} :
    ∀ {cands seen : List (ℕ × ℕ)} {best : Best},
    (∀ cand ∈ cands, f cand = some (cost cand, any cand)) → best.Least cost any seen →
      ∃ best', cands.foldlM
          (fun best cand => do
            let (cost, any) ← f cand
            pure (Best.consider best cand cost any))
          best = some best' ∧ best'.Least cost any (seen ++ cands)
  | [], seen, best, _, h => ⟨best, rfl, by rwa [append_nil]⟩
  | cand :: cands, seen, best, hf, h => by
    obtain ⟨best', hrun, hleast⟩ := Best.Least.run
      (fun c hc => hf c (mem_cons_of_mem cand hc)) (h.consider cand)
    refine ⟨best', ?_, by rwa [append_cons]⟩
    rw [foldlM_cons, hf cand mem_cons_self]
    exact hrun

end Selection

section Optimality

variable {weights : List ℚ} {rows cols t w p : ℕ} {cand : ℕ × ℕ}

/-- The class's first group has no column or three at least, or a column of it that is `0` in all
rows of the tile. -/
def Settled (weights : List ℚ) (rows cols t w p : ℕ) : Prop :=
  cols ≤ 32 * w + 4 * p ∨ 32 * w + 4 * p + 3 ≤ cols ∨
    ∃ c, 32 * w + 4 * p ≤ c ∧ c < cols ∧ ∀ r ∈ tileRows rows t, weights.getD (r * cols + c) 0 = 0

theorem droppedWeight_nonneg : 0 ≤ droppedWeight weights rows cols t w p cand :=
  Finset.sum_nonneg fun r _ => Finset.sum_nonneg fun c _ => square_nonneg weights cols r c

theorem droppedWeight_eq_zero : droppedWeight weights rows cols t w p cand = 0 ↔
    ∀ c ∈ droppedColumns cols w p cand, ∀ r ∈ tileRows rows t,
      weights.getD (r * cols + c) 0 = 0 := by
  change ∑ r ∈ tileRows rows t, ∑ c ∈ droppedColumns cols w p cand, square weights cols r c = 0 ↔ _
  rw [Finset.sum_eq_zero_iff_of_nonneg fun r _ =>
    Finset.sum_nonneg fun c _ => square_nonneg weights cols r c]
  constructor
  · intro h c hc r hr
    have hrow := (Finset.sum_eq_zero_iff_of_nonneg fun c _ => square_nonneg weights cols r c).1
      (h r hr) c hc
    exact pow_eq_zero_iff two_ne_zero |>.1 hrow
  · intro h r hr
    refine Finset.sum_eq_zero fun c hc => ?_
    rw [square, h c hc r hr, sq, mul_zero]

theorem mem_droppedColumns (hp : p < 4) {i : ℕ} (hi : i < 4) :
    32 * w + 4 * p + i ∈ droppedColumns cols w p cand ↔
      32 * w + 4 * p + i < cols ∧ i ≠ cand.1 ∧ i ≠ cand.2 := by
  have hwindow : (32 * w + 4 * p + i) / 32 = w := by omega
  have hclass : (32 * w + 4 * p + i) / 4 % 4 = p := by omega
  have hslot : (32 * w + 4 * p + i) % 4 = i := by omega
  simp only [droppedColumns, Finset.mem_filter, Finset.mem_range, hwindow, hclass, hslot,
    true_and]

theorem slot_of_dropped (hp : p < 4) (hfew : cols < 32 * w + 4 * p + 3) {c : ℕ}
    (hc : c ∈ droppedColumns cols w p cand) : c = 32 * w + 4 * p ∨ c = 32 * w + 4 * p + 1 := by
  simp only [droppedColumns, Finset.mem_filter, Finset.mem_range] at hc
  omega

theorem droppedColumns_nonempty (hp : p < 4) (hthree : 32 * w + 4 * p + 3 ≤ cols)
    (hcand : cand ∈ patterns24) : (droppedColumns cols w p cand).Nonempty := by
  have hslot : ∃ i < 3, i ≠ cand.1 ∧ i ≠ cand.2 := by
    revert cand
    decide
  obtain ⟨i, hi, hne⟩ := hslot
  exact ⟨_, (mem_droppedColumns hp (by omega)).2 ⟨by omega, hne⟩⟩

theorem droppedColumns_first (hp : p < 4) (hfew : cols < 32 * w + 4 * p + 3) :
    droppedColumns cols w p (0, 1) = ∅ := by
  refine Finset.eq_empty_of_forall_notMem fun c hc => ?_
  rcases slot_of_dropped hp hfew hc with rfl | rfl
  · exact ((mem_droppedColumns hp (show 0 < 4 by decide)).1 hc).2.1 rfl
  · exact ((mem_droppedColumns hp (show 1 < 4 by decide)).1 hc).2.2 rfl

theorem exists_droppedColumns_eq (hp : p < 4) (hfew : cols < 32 * w + 4 * p + 3) {c : ℕ}
    (hle : 32 * w + 4 * p ≤ c) (hlt : c < cols) :
    ∃ cand ∈ patterns24, droppedColumns cols w p cand = {c} := by
  have honly : ∀ {cand : ℕ × ℕ} {i j : ℕ}, i < 2 → i ≠ cand.1 → i ≠ cand.2 → i ≠ j →
      (j = cand.1 ∨ j = cand.2) → i + j = 1 → 32 * w + 4 * p + i < cols →
        droppedColumns cols w p cand = {32 * w + 4 * p + i} := by
    intro cand i j hi hne hne' hij hj hsum hin
    ext c'
    rw [Finset.mem_singleton]
    constructor
    · intro hc'
      have hkept : c' ≠ 32 * w + 4 * p + j := by
        rintro rfl
        have hdrop := (mem_droppedColumns hp (by omega)).1 hc'
        exact hj.elim hdrop.2.1 hdrop.2.2
      have := slot_of_dropped hp hfew hc'
      omega
    · rintro rfl
      exact (mem_droppedColumns hp (by omega)).2 ⟨hin, hne, hne'⟩
  rcases (show c = 32 * w + 4 * p + 0 ∨ c = 32 * w + 4 * p + 1 by omega) with rfl | rfl
  · exact ⟨(1, 2), by decide, @honly (1, 2) 0 1 (by decide) (by decide) (by decide) (by decide)
      (.inl rfl) rfl hlt⟩
  · exact ⟨(0, 2), by decide, @honly (0, 2) 1 0 (by decide) (by decide) (by decide) (by decide)
      (.inl rfl) rfl hlt⟩

theorem chooseBest_spec (hlen : rows * cols ≤ weights.length) (ht : t < nTiles rows) (hp : p < 4) :
    ∃ best, chooseBest weights rows cols t w p = some best ∧
      best.Least (droppedWeight weights rows cols t w p)
        (fun cand => decide (droppedColumns cols w p cand).Nonempty) patterns24 := by
  obtain ⟨best, hrun, hleast⟩ := Best.Least.run (fun cand _ => classCost_eq hlen ht hp)
    (.inl ⟨rfl, fun _ h => absurd h not_mem_nil⟩)
  exact ⟨best, hrun, hleast⟩

theorem Best.Least.mem_patterns24 {cost : ℕ × ℕ → ℚ} {any : ℕ × ℕ → Bool} {best : Best}
    (h : best.Least cost any patterns24) : best.pattern ∈ patterns24 := by
  rcases h with ⟨rfl, -⟩ | ⟨hmem, -⟩
  · decide
  · exact hmem

theorem optimal_iff (hp : p < 4) {best : Best}
    (h : best.Least (droppedWeight weights rows cols t w p)
      (fun cand => decide (droppedColumns cols w p cand).Nonempty) patterns24) :
    (∀ cand ∈ patterns24, droppedWeight weights rows cols t w p best.pattern ≤
      droppedWeight weights rows cols t w p cand) ↔ Settled weights rows cols t w p := by
  have hempty : ∀ {cand}, droppedColumns cols w p cand = ∅ →
      droppedWeight weights rows cols t w p cand = 0 := fun {cand} hnone =>
    droppedWeight_eq_zero.2 fun c hc => by simp [hnone] at hc
  rcases h with ⟨rfl, hnone⟩ | ⟨hmem, hlive, -, hleast⟩
  · -- no pattern drops anything: the class has no columns
    have hzero : ∀ cand ∈ patterns24, droppedWeight weights rows cols t w p cand = 0 :=
      fun cand hcand => hempty (Finset.not_nonempty_iff_eq_empty.1
        (of_decide_eq_false (hnone cand hcand)))
    have hnocolumn : cols ≤ 32 * w + 4 * p := by
      by_contra hlt
      exact of_decide_eq_false (hnone (2, 3) (by decide))
        ⟨_, (mem_droppedColumns hp (show 0 < 4 by decide)).2 ⟨by omega, by decide, by decide⟩⟩
    refine ⟨fun _ => .inl hnocolumn, fun _ cand hcand => ?_⟩
    exact (hzero (0, 1) (by decide)).trans_le droppedWeight_nonneg
  · obtain ⟨c, hc⟩ := of_decide_eq_true hlive
    have hin : 32 * w + 4 * p ≤ c ∧ c < cols := by
      simp only [droppedColumns, Finset.mem_filter, Finset.mem_range] at hc
      omega
    rcases Nat.lt_or_ge cols (32 * w + 4 * p + 3) with hfew | hthree
    · constructor
      · intro hopt
        have hzero : droppedWeight weights rows cols t w p best.pattern = 0 :=
          le_antisymm ((hopt (0, 1) (by decide)).trans_eq (hempty (droppedColumns_first hp hfew)))
            droppedWeight_nonneg
        exact .inr (.inr ⟨c, hin.1, hin.2, droppedWeight_eq_zero.1 hzero c hc⟩)
      · rintro (hnone | hthree | ⟨c, hle, hlt, hcolumn⟩) cand hcand
        · omega
        · omega
        · -- the pattern that drops the column of zeros alone costs nothing
          obtain ⟨free, hfree, hcolumns⟩ := exists_droppedColumns_eq hp hfew hle hlt
          have hcost : droppedWeight weights rows cols t w p free = 0 := by
            refine droppedWeight_eq_zero.2 fun c' hc' => ?_
            rw [hcolumns, Finset.mem_singleton] at hc'
            rwa [hc']
          have hmin := hleast free hfree (by simp [hcolumns])
          exact (hmin.trans_eq hcost).trans droppedWeight_nonneg
    · exact ⟨fun _ => .inr (.inl hthree), fun _ cand hcand => hleast cand hcand
        (decide_eq_true (droppedColumns_nonempty hp hthree hcand))⟩

/-- The patterns of the classes, a tile and a window behind the other. -/
def patternTable (chosen : ℕ → ℕ → ℕ → UInt8 × UInt8) (rows cols : ℕ) : List (UInt8 × UInt8) :=
  (List.range (nTiles rows)).flatMap fun t => (List.range (nWindows cols)).flatMap fun w =>
    (List.range 4).flatMap fun p => [chosen t w p]

theorem length_patternTable (chosen : ℕ → ℕ → ℕ → UInt8 × UInt8) :
    (patternTable chosen rows cols).length = nTiles rows * nWindows cols * 4 := by
  have hclass : ∀ t w, ((List.range 4).flatMap fun p => [chosen t w p]).length = 4 := fun t w => rfl
  rw [patternTable, length_flatMap_range fun t => length_flatMap_range (hclass t) _, Nat.mul_assoc]

theorem getElem?_patternTable (chosen : ℕ → ℕ → ℕ → UInt8 × UInt8) (ht : t < nTiles rows)
    (hw : w < nWindows cols) (hp : p < 4) :
    (patternTable chosen rows cols)[(t * nWindows cols + w) * 4 + p]? = some (chosen t w p) := by
  have hplace : (t * nWindows cols + w) * 4 + p =
      t * (nWindows cols * 4) + (w * 4 + (p * 1 + 0)) := by ring
  have hclass : ∀ t w, ((List.range 4).flatMap fun p => [chosen t w p]).length = 4 := fun t w => rfl
  rw [hplace, patternTable,
    getElem?_flatMap_range (fun t => length_flatMap_range (hclass t) _)
      (cell_lt hw (show p * 1 + 0 < 4 by omega)) ht,
    getElem?_flatMap_range (hclass t) (show p * 1 + 0 < 4 by omega) hw,
    getElem?_flatMap_range (f := fun p => [chosen t w p]) (fun _ => rfl) Nat.one_pos hp]
  rfl

def chosenPattern (weights : List ℚ) (rows cols t w p : ℕ) : UInt8 × UInt8 :=
  (classPattern weights rows cols t w p).getD (0, 1)

theorem chosenPattern_spec (hlen : rows * cols ≤ weights.length) (ht : t < nTiles rows)
    (hp : p < 4) :
    classPattern weights rows cols t w p = some (chosenPattern weights rows cols t w p) ∧
      ∃ best : Best, best.Least (droppedWeight weights rows cols t w p)
          (fun cand => decide (droppedColumns cols w p cand).Nonempty) patterns24 ∧
        ((chosenPattern weights rows cols t w p).1.toNat,
          (chosenPattern weights rows cols t w p).2.toNat) = best.pattern := by
  obtain ⟨best, hbest, hleast⟩ := chooseBest_spec hlen ht hp
  have hclass : classPattern weights rows cols t w p =
      some (UInt8.ofNat best.pattern.1, UInt8.ofNat best.pattern.2) := by
    rw [classPattern, hbest]
    rfl
  have hbyte : ∀ pat ∈ patterns24, ((UInt8.ofNat pat.1).toNat, (UInt8.ofNat pat.2).toNat) =
      pat := by
    decide
  rw [chosenPattern, hclass]
  exact ⟨rfl, best, hleast, hbyte _ hleast.mem_patterns24⟩

theorem coupledPatterns24_eq (hrows : 0 < rows) (hcols : 0 < cols)
    (hlen : rows * cols ≤ weights.length) :
    coupledPatterns24 weights rows cols =
      some (.ok (patternTable (chosenPattern weights rows cols) rows cols)) := by
  rw [coupledPatterns24, if_neg (by omega), if_neg (not_lt.2 hlen)]
  have hclass : ∀ t < nTiles rows, ∀ w, ∀ p < 4, ∀ out : List (UInt8 × UInt8),
      (classPattern weights rows cols t w p >>= fun pat => pure (out ++ [pat])) =
        some (out ++ [chosenPattern weights rows cols t w p]) := fun t ht w p hp out => by
    rw [(chosenPattern_spec hlen ht hp).1]
    rfl
  rw [foldlM_pieces fun t ht out => foldlM_pieces fun w _ out => foldlM_pieces fun p hp out =>
    hclass t (mem_range.1 ht) w p (mem_range.1 hp) out]
  rfl

/-- Every class is given one of the six patterns.  Each drops the least of the six exactly where
every class is settled. -/
theorem coupledPatterns24_least_iff (hrows : 0 < rows) (hcols : 0 < cols)
    (hlen : rows * cols ≤ weights.length) :
    (∃ out, coupledPatterns24 weights rows cols = some (.ok out) ∧
      out.length = nTiles rows * nWindows cols * 4 ∧
      ∀ t < nTiles rows, ∀ w < nWindows cols, ∀ p < 4, ∃ pat,
        out[(t * nWindows cols + w) * 4 + p]? = some pat ∧
        (pat.1.toNat, pat.2.toNat) ∈ patterns24 ∧
        ∀ cand ∈ patterns24,
          droppedWeight weights rows cols t w p (pat.1.toNat, pat.2.toNat) ≤
            droppedWeight weights rows cols t w p cand) ↔
    ∀ t < nTiles rows, ∀ w < nWindows cols, ∀ p < 4, Settled weights rows cols t w p := by
  have hrun := coupledPatterns24_eq hrows hcols hlen
  constructor
  · rintro ⟨out, hout, -, hall⟩ t ht w hw p hp
    obtain rfl := Except.ok.inj (Option.some.inj (hrun.symm.trans hout))
    obtain ⟨pat, hpat, -, hopt⟩ := hall t ht w hw p hp
    obtain rfl := Option.some.inj ((getElem?_patternTable _ ht hw hp).symm.trans hpat)
    obtain ⟨-, best, hleast, hbest⟩ := chosenPattern_spec hlen ht hp
    rw [hbest] at hopt
    exact (optimal_iff hp hleast).1 hopt
  · intro hsettled
    refine ⟨_, hrun, length_patternTable _, fun t ht w hw p hp =>
      ⟨_, getElem?_patternTable _ ht hw hp, ?_⟩⟩
    obtain ⟨-, best, hleast, hbest⟩ := chosenPattern_spec hlen ht hp
    rw [hbest]
    exact ⟨hleast.mem_patterns24, (optimal_iff hp hleast).2 (hsettled t ht w hw p hp)⟩

/-- Two rows of four weights, two of which are as great as two others. -/
theorem coupledPatterns24_least_iff_eight :
    ∃ out, coupledPatterns24 [1, -2, 3, 0, -1, 2, 1 / 2, -5] 2 4 = some (.ok out) ∧
      out.length = nTiles 2 * nWindows 4 * 4 ∧
      ∀ t < nTiles 2, ∀ w < nWindows 4, ∀ p < 4, ∃ pat,
        out[(t * nWindows 4 + w) * 4 + p]? = some pat ∧
        (pat.1.toNat, pat.2.toNat) ∈ patterns24 ∧
        ∀ cand ∈ patterns24,
          droppedWeight [1, -2, 3, 0, -1, 2, 1 / 2, -5] 2 4 t w p (pat.1.toNat, pat.2.toNat) ≤
            droppedWeight [1, -2, 3, 0, -1, 2, 1 / 2, -5] 2 4 t w p cand := by
  refine (coupledPatterns24_least_iff (by decide) (by decide) (by decide)).2
    fun t ht w hw p hp => ?_
  rw [nWindows] at hw
  rcases Nat.eq_zero_or_pos p with rfl | hpos
  · exact .inr (.inl (by omega))
  · exact .inl (by omega)

/-- A matrix of one weight loses it. -/
theorem single_weight_dropped :
    ¬ ∀ (weights : List ℚ) (rows cols : ℕ), 0 < rows → 0 < cols →
      rows * cols ≤ weights.length → ∃ out, coupledPatterns24 weights rows cols = some (.ok out) ∧
        ∀ t < nTiles rows, ∀ w < nWindows cols, ∀ p < 4, ∃ pat,
          out[(t * nWindows cols + w) * 4 + p]? = some pat ∧
          ∀ cand ∈ patterns24,
            droppedWeight weights rows cols t w p (pat.1.toNat, pat.2.toNat) ≤
              droppedWeight weights rows cols t w p cand := by
  intro h
  obtain ⟨out, hout, hall⟩ := h [1] 1 1 (by decide) (by decide) (by decide)
  have hrun : coupledPatterns24 [1] 1 1 = some (.ok [(1, 2), (0, 1), (0, 1), (0, 1)]) := by
    decide +kernel
  obtain rfl := Except.ok.inj (Option.some.inj (hrun.symm.trans hout))
  obtain ⟨pat, hpat, hopt⟩ := hall 0 (by decide) 0 (by decide) 0 (by decide)
  obtain rfl := Option.some.inj hpat
  exact absurd (hopt (0, 1) (by decide)) (by decide +kernel)

end Optimality

end Grim.Quant
