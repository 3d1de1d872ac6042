import Grim.KvQuant.LloydMax
import Grim.Lib.Climb

/-!
# Allocating bits to the channels

Every group of channels starts at the default width.  The groups then climb tiers of doubled widths,
the most important first and as often as the budget lets one climb.  Scores and budget are rational
numbers, and the loop takes fuel.
-/

namespace Grim.KvQuant

open List

structure SingleSideAllocation where
  numKvHeads : ℕ
  headDim : ℕ
  groupSize : ℕ
  bits : List (List ℕ)
  defaultBits : ℕ
deriving DecidableEq

/-- The tiers above `last`, each twice the one before it and the last of them `8`. -/
def tiersAbove : ℕ → ℕ → List ℕ
  | 0, _ => []
  | n + 1, last => if last < 8 then min (last * 2) 8 :: tiersAbove n (min (last * 2) 8) else []

def tiers (defaultBits : ℕ) : List ℕ := defaultBits :: tiersAbove 8 defaultBits

def entry {α : Type} (d : α) (m : List (List α)) (p : ℕ × ℕ) : α := (m.getD p.1 []).getD p.2 d

def setEntry {α : Type} (m : List (List α)) (p : ℕ × ℕ) (v : α) : List (List α) :=
  m.modify p.1 fun row => row.set p.2 v

def cells (heads groups : ℕ) : List (ℕ × ℕ) :=
  (List.range heads).flatMap fun h => (List.range groups).map fun g => (h, g)

/-- The more important group first, then the earlier head, then the earlier group. -/
def Precedes (scores : List (List ℚ)) (a b : ℕ × ℕ) : Prop :=
  entry 0 scores b < entry 0 scores a ∨
    entry 0 scores a = entry 0 scores b ∧ (a.1 < b.1 ∨ a.1 = b.1 ∧ a.2 ≤ b.2)

instance (scores : List (List ℚ)) : DecidableRel (Precedes scores) := fun _ _ =>
  inferInstanceAs (Decidable (_ ∨ _ ∧ (_ ∨ _ ∧ _)))

/-- The variables of the loop; `idx` has a tier for each place in the order. -/
structure Climbing where
  bits : List (List ℕ)
  idx : List ℕ
  spent : ℚ
  upgradedAny : Bool

namespace Climbing

variable (ts : List ℕ) (limit : ℚ)

def turn (s : Climbing) (p : (ℕ × ℕ) × ℕ) : Climbing :=
  let curTier := s.idx.getD p.2 0
  if ts.length ≤ curTier + 1 then s
  else
    let cost : ℚ := (ts.getD (curTier + 1) 0 - ts.getD curTier 0 : ℕ)
    if limit < s.spent + cost then s
    else
      { bits := setEntry s.bits p.1 (ts.getD (curTier + 1) 0)
        idx := s.idx.set p.2 (curTier + 1)
        spent := s.spent + cost
        upgradedAny := true }

def pass (order : List (ℕ × ℕ)) (s : Climbing) : Climbing :=
  order.zipIdx.foldl (turn ts limit) { s with upgradedAny := false }

def loop (order : List (ℕ × ℕ)) : ℕ → Climbing → Option Climbing
  | 0, _ => none
  | n + 1, s =>
    let next := pass ts limit order s
    if next.upgradedAny then loop order n next else some next

end Climbing

/-- `1e-6` -/
def slack : ℚ := 1 / 1000000

/-- `budget_avg_bits.max(default_bits).min(8.0)` for each group. -/
def totalBudget (heads groups defaultBits : ℕ) (budgetAvgBits : ℚ) : ℚ :=
  min (max budgetAvgBits defaultBits) 8 * (groups * heads : ℕ)

def start (heads groups defaultBits : ℕ) (order : List (ℕ × ℕ)) : Climbing where
  bits := List.replicate heads (List.replicate groups defaultBits)
  idx := order.map fun _ => 0
  spent := defaultBits * (groups * heads : ℕ)
  upgradedAny := false

def emptyScores : String := "allocate_channel_bits: empty scores"

def raggedScores : String := "allocate_channel_bits: ragged or empty score rows"

def allocateChannelBits (fuel : ℕ) (scores : List (List ℚ)) (defaultBits : ℕ) (budgetAvgBits : ℚ) :
    Option (Except String SingleSideAllocation) :=
  let heads := scores.length
  let groups := (scores.headD []).length
  if heads = 0 then some (.error emptyScores)
  else if groups = 0 ∨ scores.any fun row => row.length ≠ groups then some (.error raggedScores)
  else if defaultBits = 0 ∨ 8 < defaultBits then
    some (.error s!"default_bits {defaultBits} out of range 1..=8")
  else
    let order := (cells heads groups).insertionSort (Precedes scores)
    let limit := totalBudget heads groups defaultBits budgetAvgBits + slack
    ((start heads groups defaultBits order).loop (tiers defaultBits) limit order fuel).map fun s =>
      .ok
      { numKvHeads := heads
        headDim := groups * channelGroupSize
        groupSize := channelGroupSize
        bits := s.bits
        defaultBits }

variable {d i j : ℕ}

theorem tiers_spec (hd : 1 ≤ d) (hd' : d ≤ 8) : ∀ i < (tiers d).length,
    (d ≤ (tiers d).getD i 0 ∧ (tiers d).getD i 0 ≤ 8) ∧
      (∀ j ≤ i, (tiers d).getD j 0 ≤ (tiers d).getD i 0) ∧
      (i + 1 < (tiers d).length ∧ (tiers d).getD (i + 1) 0 = min ((tiers d).getD i 0 * 2) 8 ∨
        (tiers d).length = i + 1 ∧ (tiers d).getD i 0 = 8) := by
  interval_cases d <;> decide

structure Width where
  val : ℕ
  pos : 1 ≤ val
  le : val ≤ 8

namespace Width

variable (d : Width)

def tier (i : ℕ) : ℕ := (tiers d.val).getD i 0

theorem tier_le_succ (h : ¬(tiers d.val).length ≤ i + 1) : d.tier i ≤ d.tier (i + 1) :=
  ((tiers_spec d.pos d.le (i + 1) (not_le.1 h)).2.1 i (Nat.le_succ i))

def costs : Climb.Tiers ℚ where
  cost i := if (tiers d.val).length ≤ i + 1 then none else some (d.tier (i + 1) - d.tier i : ℕ)
  top := (tiers d.val).length - 1
  pos i c h := by
    split_ifs at h with htop
    · exact Option.some.inj h ▸ Nat.cast_nonneg _
  below i c h := by
    split_ifs at h with htop
    · omega

theorem tier_succ {c : ℚ} (h : d.costs.cost i = some c) :
    (d.tier (i + 1) : ℚ) = d.tier i + c := by
  simp only [costs] at h
  split_ifs at h with htop
  rw [← Option.some.inj h, Nat.cast_sub (d.tier_le_succ htop)]
  ring

theorem lt_length (h : i ≤ d.costs.top) : i < (tiers d.val).length := by
  have hpos : 0 < (tiers d.val).length := by simp [tiers]
  simp only [costs] at h
  omega

theorem stuck_iff {limit spent : ℚ} (hi : i ≤ d.costs.top)
    (h : Climb.Stuck d.costs limit i spent) (hlt : d.tier i < 8) :
    limit < spent + ((min (d.tier i * 2) 8 : ℕ) - d.tier i : ℚ) := by
  obtain ⟨-, -, ⟨hnext, hval⟩ | ⟨-, hval⟩⟩ := tiers_spec d.pos d.le i (d.lt_length hi)
  · have hcost := h (d.tier (i + 1) - d.tier i : ℕ) (if_neg (not_le.2 hnext))
    have hval : d.tier (i + 1) = min (d.tier i * 2) 8 := hval
    rw [Nat.cast_sub (d.tier_le_succ (not_le.2 hnext)), hval] at hcost
    exact hcost
  · exact absurd hval hlt.ne

end Width

section Matrix

variable {α : Type} {m : List (List α)} {heads groups : ℕ} {a v : α} {p q : ℕ × ℕ}

structure Shape (heads groups : ℕ) (m : List (List α)) : Prop where
  length : m.length = heads
  rows : ∀ row ∈ m, row.length = groups

theorem mem_cells : p ∈ cells heads groups ↔ p.1 < heads ∧ p.2 < groups := by
  rcases p with ⟨h, g⟩
  simp [cells]

theorem nodup_cells (heads groups : ℕ) : (cells heads groups).Nodup := by
  rw [cells, nodup_flatMap]
  refine ⟨fun h _ => nodup_range.map fun g g' heq => (Prod.mk.inj heq).2, ?_⟩
  refine nodup_range.imp fun {h h'} hne => ?_
  rw [Function.onFun, disjoint_left]
  intro p hp hp'
  obtain ⟨g, -, rfl⟩ := mem_map.1 hp
  obtain ⟨g', -, heq⟩ := mem_map.1 hp'
  exact hne (Prod.mk.inj heq).1.symm

theorem Shape.setEntry (hm : Shape heads groups m) : Shape heads groups (setEntry m p v) := by
  refine ⟨by rw [KvQuant.setEntry, length_modify, hm.length], fun row hrow => ?_⟩
  obtain ⟨k, hk, rfl⟩ := mem_iff_getElem.1 hrow
  rw [KvQuant.setEntry, length_modify] at hk
  simp only [KvQuant.setEntry, getElem_modify]
  split_ifs
  · rw [length_set]
    exact hm.rows _ (getElem_mem hk)
  · exact hm.rows _ (getElem_mem hk)

theorem entry_setEntry (hm : Shape heads groups m) (hp : p ∈ cells heads groups) (q : ℕ × ℕ) :
    entry a (setEntry m p v) q = if q = p then v else entry a m q := by
  obtain ⟨hp1, hp2⟩ := mem_cells.1 hp
  rcases p with ⟨h, g⟩
  rcases q with ⟨h', g'⟩
  simp only [entry, setEntry, getD_eq_getElem?_getD, getElem?_modify, Prod.mk.injEq]
  by_cases hh : h = h'
  · subst hh
    have hlen : h < m.length := hm.length ▸ hp1
    have hrow := hm.rows _ (getElem_mem hlen)
    rw [getElem?_eq_getElem hlen]
    by_cases hg : g = g'
    · subst hg
      simp [hrow, hp2]
    · simp [Ne.symm hg, hg]
  · simp [Ne.symm hh, hh]

theorem flatten_eq (hm : Shape heads groups m) :
    m.flatten = (cells heads groups).map (entry a m) := by
  have hrow : ∀ row ∈ m, row = (List.range groups).map fun g => row.getD g a := fun row hmem => by
    rw [← hm.rows row hmem]
    exact ext_getElem (by simp) fun k hk hk' => by simp [hk]
  have hrows : m = (List.range heads).map fun h => m.getD h [] := by
    rw [← hm.length]
    exact ext_getElem (by simp) fun k hk hk' => by simp [hk]
  have hmem : ∀ h ∈ List.range heads, m.getD h [] ∈ m := fun h hh => by
    have hlen : h < m.length := hm.length ▸ mem_range.1 hh
    rw [getD_eq_getElem _ _ hlen]
    exact getElem_mem hlen
  calc m.flatten = ((List.range heads).map fun h => m.getD h []).flatten := by rw [← hrows]
    _ = (List.range heads).flatMap fun h => m.getD h [] := (flatMap_def ..).symm
    _ = (List.range heads).flatMap fun h => (List.range groups).map fun g => entry a m (h, g) :=
      flatMap_congr fun h hh => hrow _ (hmem h hh)
    _ = (cells heads groups).map (entry a m) := by
      rw [cells, map_flatMap]
      simp only [map_map, Function.comp_def]

end Matrix

namespace Climbing

variable {d : Width} {limit : ℚ} {heads groups : ℕ} {order : List (ℕ × ℕ)} {s : Climbing}

/-- The matrix has the widths of the tiers on which the groups of the order stand. -/
structure Holds (d : Width) (heads groups : ℕ) (order : List (ℕ × ℕ)) (s : Climbing) : Prop where
  shape : Shape heads groups s.bits
  widths : List.Forall₂ (fun p i => entry 0 s.bits p = d.tier i) order s.idx

theorem turn_cases (d : Width) (limit : ℚ) (s : Climbing) (p : ℕ × ℕ) (pos : ℕ) :
    s.turn (tiers d.val) limit (p, pos) = s ∧
        Climb.one d.costs limit (s.idx.getD pos 0) s.spent = (s.idx.getD pos 0, s.spent) ∨
      ∃ spent, Climb.one d.costs limit (s.idx.getD pos 0) s.spent =
          (s.idx.getD pos 0 + 1, spent) ∧
        s.turn (tiers d.val) limit (p, pos) =
          { bits := setEntry s.bits p (d.tier (s.idx.getD pos 0 + 1))
            idx := s.idx.set pos (s.idx.getD pos 0 + 1)
            spent, upgradedAny := true } := by
  set i := s.idx.getD pos 0 with hi
  rw [turn, Climb.one, ← hi]
  by_cases htop : (tiers d.val).length ≤ i + 1
  · have hcost : d.costs.cost i = none := if_pos htop
    rw [if_pos htop, hcost]
    exact .inl ⟨rfl, rfl⟩
  · have hcost : d.costs.cost i = some (d.tier (i + 1) - d.tier i : ℕ) := if_neg htop
    rw [if_neg htop, hcost]
    by_cases hlimit : limit < s.spent + (d.tier (i + 1) - d.tier i : ℕ)
    · exact .inl ⟨if_pos hlimit, if_pos hlimit⟩
    · exact .inr ⟨_, if_neg hlimit, if_neg hlimit⟩

theorem Holds.turn (hnodup : order.Nodup) (horder : ∀ p ∈ order, p ∈ cells heads groups)
    (h : Holds d heads groups order s) {p : ℕ × ℕ} {pos : ℕ} (hp : (p, pos) ∈ order.zipIdx) :
    Holds d heads groups order (s.turn (tiers d.val) limit (p, pos)) := by
  rcases turn_cases d limit s p pos with ⟨hturn, -⟩ | ⟨spent, -, hturn⟩
  · rwa [hturn]
  · rw [hturn]
    obtain ⟨hpos, hget⟩ := mk_mem_zipIdx_iff_getElem?.1 hp |> List.getElem?_eq_some_iff.1
    have hcell := horder p (hget ▸ getElem_mem hpos)
    refine ⟨h.shape.setEntry, ?_⟩
    have hwidths := h.widths
    rw [List.forall₂_iff_get] at hwidths ⊢
    refine ⟨by rw [length_set]; exact hwidths.1, fun k hk hk' => ?_⟩
    rw [length_set] at hk'
    have hk₀ := hwidths.2 k hk hk'
    simp only [get_eq_getElem] at hk₀ ⊢
    rw [entry_setEntry h.shape hcell, getElem_set]
    by_cases hkp : pos = k
    · subst hkp
      rw [if_pos hget, if_pos rfl]
    · rw [if_neg, if_neg hkp, hk₀]
      intro heq
      exact hkp ((hnodup.getElem_inj_iff).1 (hget.trans heq.symm))

theorem Holds.foldl (hnodup : order.Nodup) (horder : ∀ p ∈ order, p ∈ cells heads groups) :
    ∀ {ps : List ((ℕ × ℕ) × ℕ)} {s : Climbing}, (∀ p ∈ ps, p ∈ order.zipIdx) →
      Holds d heads groups order s →
        Holds d heads groups order (ps.foldl (Climbing.turn (tiers d.val) limit) s)
  | [], _, _, h => h
  | p :: ps, s, hps, h => by
    obtain ⟨hp, hrest⟩ := forall_mem_cons.1 hps
    rw [foldl_cons]
    exact Holds.foldl hnodup horder hrest (h.turn hnodup horder hp)

/-- The turns from the place `k` on are those of a pass over the tiers from there on. -/
theorem foldl_turn : ∀ {ps : List (ℕ × ℕ)} {s : Climbing} (done is : List ℕ),
    s.idx = done ++ is → is.length = ps.length →
      ∃ s', (ps.zipIdx done.length).foldl (turn (tiers d.val) limit) s = s' ∧
        s'.idx = done ++ (Climb.pass d.costs limit is s.spent).1 ∧
        s'.spent = (Climb.pass d.costs limit is s.spent).2 ∧
        (s'.upgradedAny = true ↔
          s.upgradedAny = true ∨ (Climb.pass d.costs limit is s.spent).1 ≠ is)
  | [], s, done, is, hidx, hlen => by
    obtain rfl := length_eq_zero_iff.1 hlen
    exact ⟨s, rfl, hidx, rfl, by simp [Climb.pass]⟩
  | p :: ps, s, done, [], hidx, hlen => by simp at hlen
  | p :: ps, s, done, i :: is, hidx, hlen => by
    have hget : s.idx.getD done.length 0 = i := by
      rw [hidx, getD_append_right _ _ _ _ le_rfl, Nat.sub_self, getD_cons_zero]
    have hnext : ∀ j, (done ++ [j]).length = done.length + 1 := fun j => by simp
    rw [zipIdx_cons, foldl_cons, Climb.pass]
    rcases turn_cases d limit s p done.length with ⟨hturn, hone⟩ | ⟨spent, hone, hturn⟩
    · rw [hget] at hone
      obtain ⟨s', hrun, hidx', hspent, hup⟩ := foldl_turn (done ++ [i]) is
        (by rw [hidx, append_assoc]; rfl) (Nat.succ.inj hlen)
      refine ⟨s', by rw [hturn, ← hrun, hnext], ?_⟩
      rw [hone]
      refine ⟨by rw [hidx', append_assoc]; rfl, hspent, ?_⟩
      rw [hup]
      simp
    · rw [hget] at hone hturn
      have hset : s.idx.set done.length (i + 1) = (done ++ [i + 1]) ++ is := by
        rw [hidx, set_append_right _ _ le_rfl, Nat.sub_self, append_assoc]
        rfl
      obtain ⟨s', hrun, hidx', hspent, hup⟩ := foldl_turn
        (s := s.turn (tiers d.val) limit (p, done.length)) (done ++ [i + 1]) is
        (by rw [hturn]; exact hset) (Nat.succ.inj hlen)
      refine ⟨s', by rw [← hrun, hnext], ?_⟩
      rw [hone]
      rw [hturn] at hidx' hspent hup
      refine ⟨by rw [hidx', append_assoc]; rfl, hspent, ?_⟩
      rw [hup]
      simp

theorem Holds.pass (hnodup : order.Nodup) (horder : ∀ p ∈ order, p ∈ cells heads groups)
    (h : Holds d heads groups order s) : ∃ s', s.pass (tiers d.val) limit order = s' ∧
      Holds d heads groups order s' ∧ s'.idx = (Climb.pass d.costs limit s.idx s.spent).1 ∧
      s'.spent = (Climb.pass d.costs limit s.idx s.spent).2 ∧
      (s'.upgradedAny = true ↔ (Climb.pass d.costs limit s.idx s.spent).1 ≠ s.idx) := by
  have hstart : Holds d heads groups order { s with upgradedAny := false } := ⟨h.shape, h.widths⟩
  obtain ⟨s', hrun, hidx, hspent, hup⟩ := foldl_turn
    (s := { s with upgradedAny := false }) [] s.idx rfl h.widths.length_eq.symm
  refine ⟨s', hrun, ?_, hidx, hspent, by rw [hup]; simp⟩
  rw [← hrun]
  exact hstart.foldl hnodup horder fun p hp => hp

theorem Holds.loop (hnodup : order.Nodup) (horder : ∀ p ∈ order, p ∈ cells heads groups) :
    ∀ (n : ℕ) {s : Climbing}, Holds d heads groups order s →
      (s.loop (tiers d.val) limit order n).map (fun s => (s.idx, s.spent)) =
          Climb.loop d.costs limit n s.idx s.spent ∧
        ∀ s', s.loop (tiers d.val) limit order n = some s' → Holds d heads groups order s'
  | 0, _, _ => ⟨rfl, fun _ h => by cases h⟩
  | n + 1, s, h => by
    obtain ⟨next, hpass, hholds, hidx, hspent, hup⟩ :
        ∃ next, s.pass (tiers d.val) limit order = next ∧ _ := h.pass hnodup horder
    rw [Climbing.loop, Climb.loop, hpass]
    by_cases hsame : (Climb.pass d.costs limit s.idx s.spent).1 = s.idx
    · have hup : next.upgradedAny ≠ true := fun hany => hup.1 hany hsame
      rw [if_neg hup, if_pos hsame, Option.map_some, hidx, hspent]
      exact ⟨rfl, fun s' hs' => Option.some.inj hs' ▸ hholds⟩
    · rw [if_pos (hup.2 hsame), if_neg hsame, ← hidx, ← hspent]
      exact hholds.loop hnodup horder n

end Climbing

section Order

variable {scores : List (List ℚ)} {a b c : ℕ × ℕ}

theorem Precedes.trans (hab : Precedes scores a b) (hbc : Precedes scores b c) :
    Precedes scores a c := by
  rcases hab with hlt | ⟨heq, hab⟩
  · rcases hbc with hlt' | ⟨heq', -⟩
    · exact .inl (hlt'.trans hlt)
    · exact .inl (heq' ▸ hlt)
  · rcases hbc with hlt' | ⟨heq', hbc⟩
    · exact .inl (heq ▸ hlt')
    · exact .inr ⟨heq.trans heq', by omega⟩

theorem Precedes.antisymm (hab : Precedes scores a b) (hba : Precedes scores b a) : a = b := by
  rcases hab with hlt | ⟨heq, hab⟩
  · rcases hba with hlt' | ⟨heq', -⟩
    · exact absurd hlt' hlt.asymm
    · exact absurd heq' hlt.ne
  · rcases hba with hlt' | ⟨-, hba⟩
    · exact absurd heq hlt'.ne
    · exact Prod.ext (by omega) (by omega)

theorem Precedes.total (a b : ℕ × ℕ) : Precedes scores a b ∨ Precedes scores b a := by
  rcases lt_trichotomy (entry 0 scores a) (entry 0 scores b) with hlt | heq | hlt
  · exact .inr (.inl hlt)
  · by_cases hab : a.1 < b.1 ∨ a.1 = b.1 ∧ a.2 ≤ b.2
    · exact .inl (.inr ⟨heq, hab⟩)
    · exact .inr (.inr ⟨heq.symm, by omega⟩)
  · exact .inl (.inl hlt)

instance : Std.Total (Precedes scores) := ⟨Precedes.total⟩

instance : IsTrans (ℕ × ℕ) (Precedes scores) := ⟨fun _ _ _ => Precedes.trans⟩

end Order

/-- Budget, order and maximality of an allocation to the groups of the heads. -/
structure Respects (scores : List (List ℚ)) (groups defaultBits : ℕ) (budgetAvgBits : ℚ)
    (bits : List (List ℕ)) : Prop where
  shape : Shape scores.length groups bits
  floor : ∀ p ∈ cells scores.length groups, defaultBits ≤ entry 0 bits p ∧ entry 0 bits p ≤ 8
  budget : (bits.flatten.sum : ℚ) ≤
    max (defaultBits : ℚ) (min 8 budgetAvgBits) * (groups * scores.length : ℕ) + slack
  ordered : ∀ p ∈ cells scores.length groups, ∀ q ∈ cells scores.length groups,
    Precedes scores p q → entry 0 bits q ≤ entry 0 bits p
  maximal : ∀ p ∈ cells scores.length groups, entry 0 bits p < 8 →
    max (defaultBits : ℚ) (min 8 budgetAvgBits) * (groups * scores.length : ℕ) + slack <
      (bits.flatten.sum : ℚ) + ((min (entry 0 bits p * 2) 8 : ℕ) - entry 0 bits p : ℚ)

/-- What the loop leaves of the start has the widths of tiers that are settled. -/
theorem respects_of_settled {scores : List (List ℚ)} {groups : ℕ} {d : Width} {budget spent : ℚ}
    {order : List (ℕ × ℕ)} {s : Climbing} {is : List ℕ}
    (horder : order.Perm (cells scores.length groups)) (hsorted : order.Pairwise (Precedes scores))
    (hholds : s.Holds d scores.length groups order)
    (hstart : spent = (is.map fun i => (d.tier i : ℚ)).sum)
    (h : Climb.Settled d.costs (totalBudget scores.length groups d.val budget + slack)
      (fun i => (d.tier i : ℚ)) is spent s.idx s.spent) :
    Respects scores groups d.val budget s.bits := by
  have hwidths := List.forall₂_iff_get.1 hholds.widths
  have hcell : ∀ p ∈ cells scores.length groups, ∃ k, ∃ hk : k < order.length,
      ∃ hk' : k < s.idx.length, order[k] = p ∧ entry 0 s.bits p = d.tier s.idx[k] := fun p hp => by
    obtain ⟨k, hk, rfl⟩ := mem_iff_getElem.1 (horder.mem_iff.2 hp)
    have hk' := hwidths.1 ▸ hk
    exact ⟨k, hk, hk', rfl, hwidths.2 k hk hk'⟩
  have htop : ∀ {k} (hk : k < s.idx.length), s.idx[k] ≤ d.costs.top :=
    fun hk => h.le_top _ (getElem_mem hk)
  have hsum : (s.bits.flatten.sum : ℚ) = s.spent := by
    have hperm : (s.bits.flatten).Perm (s.idx.map d.tier) := by
      have hmap : order.map (entry 0 s.bits) = s.idx.map d.tier := by
        rw [← List.forall₂_eq_eq_eq, List.forall₂_map_left_iff, List.forall₂_map_right_iff]
        exact hholds.widths
      rw [flatten_eq (a := 0) hholds.shape, ← hmap]
      exact (horder.map _).symm
    have hpaid := h.paid
    rw [← hstart, add_comm, add_left_cancel_iff] at hpaid
    rw [hpaid, hperm.sum_eq, Nat.cast_list_sum, map_map]
    rfl
  have hbudget : totalBudget scores.length groups d.val budget =
      max (d.val : ℚ) (min 8 budget) * (groups * scores.length : ℕ) := by
    have hle : (d.val : ℚ) ≤ 8 := by exact_mod_cast d.le
    rw [totalBudget, max_comm, min_comm, min_max_distrib_left, min_eq_right hle]
  rw [hbudget] at h
  refine ⟨hholds.shape, fun p hp => ?_, hsum ▸ h.kept, fun p hp q hq hpq => ?_,
    fun p hp hlt => ?_⟩
  · obtain ⟨k, hk, hk', -, hentry⟩ := hcell p hp
    rw [hentry]
    exact (tiers_spec d.pos d.le _ (d.lt_length (htop hk'))).1
  · obtain ⟨k, hk, hk', rfl, hentry⟩ := hcell p hp
    obtain ⟨l, hl, hl', rfl, hentry'⟩ := hcell q hq
    rw [hentry, hentry']
    rcases lt_trichotomy k l with hlt | rfl | hgt
    · exact (tiers_spec d.pos d.le _ (d.lt_length (htop hk'))).2.1 _
        (pairwise_iff_getElem.1 h.ordered k l hk' hl' hlt)
    · exact le_rfl
    · have hqp := pairwise_iff_getElem.1 hsorted l k hl hk hgt
      have hsame := hpq.antisymm hqp
      rw [← hentry, ← hentry', hsame]
  · obtain ⟨k, hk, hk', -, hentry⟩ := hcell p hp
    rw [hsum, hentry]
    exact d.stuck_iff (htop hk') (h.stuck _ (getElem_mem hk')) (hentry ▸ hlt)

theorem loop_mono {ts : List ℕ} {limit : ℚ} {order : List (ℕ × ℕ)} :
    ∀ (n : ℕ) {s s' : Climbing}, s.loop ts limit order n = some s' →
      s.loop ts limit order (n + 1) = some s'
  | 0, _, _, h => by cases h
  | n + 1, s, s', h => by
    rw [Climbing.loop] at h ⊢
    split_ifs at h ⊢ with hup
    · exact loop_mono n h
    · exact h

section Start

variable {heads groups : ℕ} {d : Width} {order : List (ℕ × ℕ)}

theorem holds_start (horder : ∀ p ∈ order, p ∈ cells heads groups) :
    (start heads groups d.val order).Holds d heads groups order := by
  refine ⟨⟨length_replicate, fun row hrow => ?_⟩, ?_⟩
  · rw [eq_of_mem_replicate hrow, length_replicate]
  · rw [start, List.forall₂_map_right_iff, List.forall₂_same]
    intro p hp
    obtain ⟨hp1, hp2⟩ := mem_cells.1 (horder p hp)
    have hrow : (List.replicate heads (List.replicate groups d.val)).getD p.1 [] =
        List.replicate groups d.val := by
      rw [getD_eq_getElem _ _ (by rwa [length_replicate]), getElem_replicate]
    rw [entry, hrow, getD_eq_getElem _ _ (by rwa [length_replicate]),
      getElem_replicate]
    rfl

theorem spent_start (hlen : order.length = groups * heads) (budget : ℚ) :
    (start heads groups d.val order).spent =
        ((start heads groups d.val order).idx.map fun i => (d.tier i : ℚ)).sum ∧
      (start heads groups d.val order).spent ≤ totalBudget heads groups d.val budget + slack := by
  constructor
  · have hconst : ((order.map fun _ => 0).map fun i => (d.tier i : ℚ)) =
        List.replicate order.length (d.val : ℚ) := by
      rw [map_map]
      exact map_const' ..
    rw [start, hconst, sum_replicate, hlen, nsmul_eq_mul, mul_comm]
  · have hd : (d.val : ℚ) ≤ min (max budget d.val) 8 :=
      le_min (le_max_right _ _) (by exact_mod_cast d.le)
    have hmul := mul_le_mul_of_nonneg_right hd (Nat.cast_nonneg (α := ℚ) (groups * heads))
    have hslack : 0 ≤ slack := by norm_num [slack]
    exact hmul.trans (le_add_of_nonneg_right hslack)

end Start

/-- The allocator returns, and what it returns respects the budget and the order of the scores, with
no group left that a tier more would still fit. -/
theorem allocateChannelBits_respects {scores : List (List ℚ)} {groups defaultBits : ℕ}
    (budgetAvgBits : ℚ) (hne : scores ≠ []) (hgroups : 0 < groups)
    (hrows : ∀ row ∈ scores, row.length = groups) (hpos : 1 ≤ defaultBits)
    (hle : defaultBits ≤ 8) : ∃ alloc,
      Fuel.Gives (fun n => allocateChannelBits n scores defaultBits budgetAvgBits)
        (some (.ok alloc)) ∧
      Respects scores groups defaultBits budgetAvgBits alloc.bits := by
  have hhead : (scores.headD []).length = groups := by
    rcases scores with _ | ⟨row, rows⟩
    · exact absurd rfl hne
    · exact hrows row mem_cons_self
  have hheads : scores.length ≠ 0 := fun h => hne (length_eq_zero_iff.1 h)
  have hany : ¬(groups = 0 ∨ (scores.any fun row => row.length ≠ groups) = true) := by
    rintro (hzero | hany)
    · omega
    · obtain ⟨row, hrow, hlen⟩ := any_eq_true.1 hany
      exact of_decide_eq_true hlen (hrows row hrow)
  obtain ⟨d, rfl⟩ : ∃ d : Width, d.val = defaultBits := ⟨⟨defaultBits, hpos, hle⟩, rfl⟩
  set order := (cells scores.length groups).insertionSort (Precedes scores) with horder
  set limit := totalBudget scores.length groups d.val budgetAvgBits + slack with hlimit
  have hperm : order.Perm (cells scores.length groups) := perm_insertionSort _ _
  have hnodup : order.Nodup := hperm.nodup_iff.2 (nodup_cells _ _)
  have hmem : ∀ p ∈ order, p ∈ cells scores.length groups := fun p => hperm.mem_iff.1
  have hlen : order.length = groups * scores.length := by
    rw [hperm.length_eq, cells]
    simp [mul_comm]
  have hzero : ∀ i ∈ (start scores.length groups d.val order).idx, i = 0 := fun i hi => by
    obtain ⟨p, -, rfl⟩ := mem_map.1 hi
    rfl
  have htop : ∀ i ∈ (start scores.length groups d.val order).idx, i ≤ d.costs.top :=
    fun i hi => hzero i hi ▸ Nat.zero_le _
  obtain ⟨hstart, hkept⟩ : _ ∧ (start scores.length groups d.val order).spent ≤ limit :=
    spent_start hlen budgetAvgBits
  obtain ⟨n, hn⟩ : ∃ n, n = order.length * d.costs.top + 1 := ⟨_, rfl⟩
  obtain ⟨hloop, hholds⟩ :=
    ((holds_start hmem).loop hnodup hmem n : _ = Climb.loop d.costs limit n _ _ ∧ _)
  have hsome : (Climb.loop d.costs limit n _ _).isSome :=
    Climb.isSome_loop n (start scores.length groups d.val order).spent htop (by
      rw [hn, start, length_map]
      omega)
  obtain ⟨⟨is, spent⟩, his⟩ := Option.isSome_iff_exists.1 hsome
  rw [his] at hloop
  obtain ⟨s, hs, hpair⟩ := Option.map_eq_some_iff.1 hloop
  obtain ⟨rfl, rfl⟩ := Prod.mk.inj hpair
  have hvalue : ∀ m, allocateChannelBits m scores d.val budgetAvgBits = _ := fun m => by
    rw [allocateChannelBits, hhead, if_neg hheads, if_neg hany, if_neg (by omega)]
  have hgives := Fuel.gives_of_mono (fun m s' => loop_mono m) hs
  have hsorted : (start scores.length groups d.val order).idx.Pairwise fun i j => j ≤ i :=
    pairwise_map.2 (pairwise_of_forall fun _ _ => le_rfl)
  have hsettled : Climb.Settled d.costs limit (fun i => (d.tier i : ℚ)) _ _ _ _ :=
    Climb.settled_loop (fun i c => d.tier_succ) n htop hkept hsorted his
  refine ⟨⟨scores.length, groups * channelGroupSize, channelGroupSize, s.bits, d.val⟩, ?_,
    respects_of_settled hperm (pairwise_insertionSort _ _) (hholds s hs) hstart hsettled⟩
  simp only [hvalue]
  exact hgives.map _

/-- Two heads of two groups, three bits and a budget of five. -/
theorem allocateChannelBits_respects_sample : ∃ alloc,
    Fuel.Gives (fun n => allocateChannelBits n [[3, 1], [5, 2]] 3 5) (some (.ok alloc)) ∧
      Respects [[3, 1], [5, 2]] 2 3 5 alloc.bits :=
  allocateChannelBits_respects 5 (cons_ne_nil _ _) (by decide) (by decide) (by decide)
    (by decide)

end Grim.KvQuant
