import Mathlib.Tactic

/-!
# Verifying a tree of candidate paths

`verify_medusa_tree_candidates` takes the flags of all nodes in one list, path after path, and looks
for those of path `i` from `i * len` on, where `len` is that path's own length.  For paths of one
length this is where they stand.
-/

namespace Grim.Engine

open List

structure SpeculativeStats where
  totalAcceptedTokens : ℕ
  totalDraftTokens : ℕ
  numTargetForwardPasses : ℕ

/-- The tokens of a path up to the first whose flag, counted from `matchIdx` on, is not set. -/
def currentAccepted (targetTokenMatches : List Bool) : ℕ → List UInt32 → List UInt32
  | _, [] => []
  | matchIdx, token :: path =>
    if targetTokenMatches.getD matchIdx false then
      token :: currentAccepted targetTokenMatches (matchIdx + 1) path
    else []

def longer (longest current : List UInt32) : List UInt32 :=
  if longest.length < current.length then current else longest

def longestAccepted (treePaths : List (List UInt32)) (targetTokenMatches : List Bool) :
    List UInt32 :=
  treePaths.zipIdx.foldl (fun longest p =>
    longer longest (currentAccepted targetTokenMatches (p.2 * p.1.length) p.1)) []

def verifyMedusaTreeCandidates (stats : SpeculativeStats) (treePaths : List (List UInt32))
    (targetTokenMatches : List Bool) : SpeculativeStats × List UInt32 :=
  let longest := longestAccepted treePaths targetTokenMatches
  ({ totalDraftTokens := stats.totalDraftTokens + (treePaths.map List.length).sum
     totalAcceptedTokens := stats.totalAcceptedTokens + longest.length
     numTargetForwardPasses := stats.numTargetForwardPasses + 1 }, longest)

/-- How many flags are set one after the other from `start` on, of `len` at most. -/
def run (flags : List Bool) (start : ℕ) : ℕ → ℕ
  | 0 => 0
  | len + 1 => if flags.getD start false then run flags (start + 1) len + 1 else 0

variable {flags : List Bool} {paths : List (List UInt32)} {path : List UInt32} {start len i k n : ℕ}

theorem run_le : ∀ {len start : ℕ}, run flags start len ≤ len
  | 0, _ => le_rfl
  | len + 1, start => by
    rw [run]
    split_ifs
    · exact Nat.succ_le_succ run_le
    · exact Nat.zero_le _

theorem le_run_iff {flags : List Bool} : ∀ {len n start : ℕ}, n ≤ len →
    (n ≤ run flags start len ↔ ∀ t < n, flags[start + t]? = some true)
  | _, 0, _, _ => by simp
  | 0, n + 1, _, h => absurd h (Nat.not_succ_le_zero n)
  | len + 1, n + 1, start, h => by
    have ih := @le_run_iff flags len n (start + 1) (Nat.le_of_succ_le_succ h)
    have hget : flags.getD start false = true ↔ flags[start]? = some true := by
      rw [getD_eq_getElem?_getD]
      cases flags[start]? <;> simp
    rw [run]
    split_ifs with hset
    · rw [Nat.succ_le_succ_iff, ih]
      refine ⟨fun hall t ht => ?_, fun hall t ht => ?_⟩
      · cases t with
        | zero => exact hget.mp hset
        | succ t =>
          have hnext := hall t (Nat.lt_of_succ_lt_succ ht)
          rwa [Nat.add_right_comm] at hnext
      · have hnext := hall (t + 1) (Nat.succ_lt_succ ht)
        rwa [← Nat.add_assoc, Nat.add_right_comm] at hnext
    · refine ⟨fun hle => absurd hle (Nat.not_succ_le_zero n), fun hall => absurd (hget.mpr ?_) hset⟩
      exact hall 0 (Nat.succ_pos n)

theorem currentAccepted_eq : ∀ {path : List UInt32} {start : ℕ},
    currentAccepted flags start path = path.take (run flags start path.length)
  | [], _ => rfl
  | token :: path, start => by
    rw [currentAccepted, length_cons, run]
    split_ifs
    · rw [currentAccepted_eq, take_succ_cons]
    · rfl

/-- Where the nodes of path `i` begin. -/
def offset (paths : List (List UInt32)) (i : ℕ) : ℕ := ((paths.take i).map List.length).sum

/-- The first `n` tokens of path `i` are what the target predicts at their own nodes. -/
def Agrees (flags : List Bool) (paths : List (List UInt32)) (i n : ℕ) : Prop :=
  ∀ t < n, flags[offset paths i + t]? = some true

structure LongestAgreeing (flags : List Bool) (paths : List (List UInt32))
    (accepted : List UInt32) : Prop where
  agrees : accepted ≠ [] → ∃ i path, paths[i]? = some path ∧ accepted <+: path
    ∧ Agrees flags paths i accepted.length
  longest : ∀ i path n, paths[i]? = some path → n ≤ path.length → Agrees flags paths i n →
    n ≤ accepted.length

def ownRun (flags : List Bool) (paths : List (List UInt32)) (i : ℕ) (path : List UInt32) : ℕ :=
  run flags (offset paths i) path.length

def readRun (flags : List Bool) (i : ℕ) (path : List UInt32) : ℕ :=
  run flags (i * path.length) path.length

/-- Path `k` is the first of those with the longest run where flags are looked for. -/
structure FirstLongest (flags : List Bool) (paths : List (List UInt32)) (k : ℕ)
    (path : List UInt32) : Prop where
  get : paths[k]? = some path
  before : ∀ i < k, ∀ p, paths[i]? = some p → readRun flags i p < readRun flags k path
  all : ∀ i p, paths[i]? = some p → readRun flags i p ≤ readRun flags k path

/-- The longest run that is looked at is no shorter than the paths' own, and the first path that has
it begins as one does whose own run is no shorter. -/
structure RunsMatch (flags : List Bool) (paths : List (List UInt32)) : Prop where
  reached : ∀ i path, paths[i]? = some path →
    ∃ k p, paths[k]? = some p ∧ ownRun flags paths i path ≤ readRun flags k p
  begins : ∀ k path, FirstLongest flags paths k path → ∃ i p, paths[i]? = some p
    ∧ readRun flags k path ≤ ownRun flags paths i p ∧ path.take (readRun flags k path) <+: p

theorem length_take_readRun : (path.take (readRun flags k path)).length = readRun flags k path :=
  length_take_of_le run_le

theorem longestAccepted_concat (init : List (List UInt32)) :
    longestAccepted (init ++ [path]) flags
      = longer (longestAccepted init flags) (path.take (readRun flags init.length path)) := by
  unfold longestAccepted
  rw [zipIdx_append, foldl_append, readRun, ← currentAccepted_eq]
  simp

theorem getElem?_concat_cases {init : List (List UInt32)} {p : List UInt32}
    (h : (init ++ [path])[i]? = some p) : init[i]? = some p ∨ i = init.length ∧ p = path := by
  rcases Nat.lt_trichotomy i init.length with hlt | rfl | hgt
  · rw [getElem?_append_left hlt] at h
    exact .inl h
  · rw [getElem?_concat_length] at h
    exact .inr ⟨rfl, (Option.some.inj h).symm⟩
  · rw [getElem?_eq_none (by simp; omega)] at h
    cases h

/-- What is accepted is the run that is looked at of the first path that has the longest. -/
theorem longestAccepted_eq (flags : List Bool) : ∀ paths : List (List UInt32), paths ≠ [] →
    ∃ k path, FirstLongest flags paths k path
      ∧ longestAccepted paths flags = path.take (readRun flags k path) := by
  intro paths
  induction paths using List.reverseRecOn with
  | nil => exact fun h => absurd rfl h
  | append_singleton init last ih =>
    intro _
    rw [longestAccepted_concat]
    rcases eq_or_ne init [] with rfl | hne
    · refine ⟨0, last, ⟨rfl, fun i hi => absurd hi (Nat.not_lt_zero i), fun i p hp => ?_⟩, ?_⟩
      · rcases getElem?_concat_cases hp with hp | ⟨rfl, rfl⟩
        · simp at hp
        · exact le_rfl
      · change longer [] _ = _
        rw [longer, length_nil]
        split_ifs with hpos
        · rfl
        · exact (eq_nil_of_length_eq_zero (Nat.eq_zero_of_not_pos hpos)).symm
    obtain ⟨k, path, hk, haccepted⟩ := ih hne
    have hklt : k < init.length := (List.getElem?_eq_some_iff.mp hk.get).1
    rw [haccepted, longer, length_take_readRun, length_take_readRun]
    split_ifs with hlonger
    · refine ⟨init.length, last, ⟨getElem?_concat_length, fun i hi p hp => ?_,
        fun i p hp => ?_⟩, rfl⟩
      · rw [getElem?_append_left hi] at hp
        exact lt_of_le_of_lt (hk.all i p hp) hlonger
      · rcases getElem?_concat_cases hp with hp | ⟨rfl, rfl⟩
        · exact (lt_of_le_of_lt (hk.all i p hp) hlonger).le
        · exact le_rfl
    · refine ⟨k, path, ⟨by rw [getElem?_append_left hklt, hk.get], fun i hi p hp => ?_,
        fun i p hp => ?_⟩, rfl⟩
      · rw [getElem?_append_left (hi.trans hklt)] at hp
        exact hk.before i hi p hp
      · rcases getElem?_concat_cases hp with hp | ⟨rfl, rfl⟩
        · exact hk.all i p hp
        · exact Nat.le_of_not_lt hlonger

theorem FirstLongest.unique {p : List UInt32} (h : FirstLongest flags paths k path)
    (h' : FirstLongest flags paths i p) : k = i ∧ path = p := by
  have hki : k = i := by
    rcases Nat.lt_trichotomy k i with hlt | heq | hgt
    · exact absurd (h'.before k hlt path h.get) (Nat.not_lt.mpr (h.all i p h'.get))
    · exact heq
    · exact absurd (h.before i hgt p h'.get) (Nat.not_lt.mpr (h'.all k path h.get))
  subst hki
  exact ⟨rfl, Option.some.inj (h.get.symm.trans h'.get)⟩

theorem agrees_iff (hn : n ≤ path.length) :
    Agrees flags paths i n ↔ n ≤ ownRun flags paths i path :=
  (le_run_iff hn).symm

/-- The longest agreeing path is accepted just when the runs that are looked at match the own. -/
theorem longestAgreeing_iff (stats : SpeculativeStats) (flags : List Bool)
    (paths : List (List UInt32)) :
    LongestAgreeing flags paths (verifyMedusaTreeCandidates stats paths flags).2
      ↔ RunsMatch flags paths := by
  change LongestAgreeing flags paths (longestAccepted paths flags) ↔ _
  rcases eq_or_ne paths [] with rfl | hne
  · exact ⟨fun _ => ⟨by simp, fun k path hk => by simpa using hk.get⟩,
      fun _ => ⟨fun h => absurd rfl h, by simp⟩⟩
  obtain ⟨k, path, hk, haccepted⟩ := longestAccepted_eq flags paths hne
  rw [haccepted]
  constructor
  · intro h
    refine ⟨fun i p hp => ⟨k, path, hk.get, ?_⟩, fun k' path' hk' => ?_⟩
    · have hle := h.longest i p (ownRun flags paths i p) hp run_le ((agrees_iff run_le).mpr le_rfl)
      rwa [length_take_readRun] at hle
    · obtain ⟨rfl, rfl⟩ := hk.unique hk'
      rcases Nat.eq_zero_or_pos (readRun flags k path) with hzero | hpos
      · rw [hzero]
        exact ⟨k, path, hk.get, Nat.zero_le _, nil_prefix⟩
      · have hsome : path.take (readRun flags k path) ≠ [] := by
          rw [← length_pos_iff, length_take_readRun]
          exact hpos
        obtain ⟨i, p, hp, hprefix, hagrees⟩ := h.agrees hsome
        have hle := hprefix.length_le
        rw [length_take_readRun] at hle hagrees
        exact ⟨i, p, hp, (agrees_iff hle).mp hagrees, hprefix⟩
  · intro h
    refine ⟨fun _ => ?_, fun i p n hp hn hagrees => ?_⟩
    · obtain ⟨i, p, hp, hle, hprefix⟩ := h.begins k path hk
      refine ⟨i, p, hp, hprefix, ?_⟩
      rw [length_take_readRun, agrees_iff (hle.trans run_le)]
      exact hle
    · obtain ⟨k', p', hp', hle⟩ := h.reached i p hp
      rw [length_take_readRun]
      exact (((agrees_iff hn).mp hagrees).trans hle).trans (hk.all k' p' hp')

/-- The flag of another node is taken for that of token 2, which the target does not predict. -/
theorem ragged_paths_misread : ¬ ∀ (stats : SpeculativeStats) (flags : List Bool)
    (paths : List (List UInt32)), flags.length = (paths.map List.length).sum →
      LongestAgreeing flags paths (verifyMedusaTreeCandidates stats paths flags).2 := by
  intro hall
  have h := hall ⟨0, 0, 0⟩ [false, false, true] [[1], [2, 3]] rfl
  have haccepted : (verifyMedusaTreeCandidates ⟨0, 0, 0⟩ [[1], [2, 3]] [false, false, true]).2
      = [2] := by decide
  rw [haccepted] at h
  obtain ⟨i, p, hp, -, hagrees⟩ := h.agrees (by decide)
  have hflag := hagrees 0 (by decide)
  match i with
  | 0 => exact absurd hflag (by decide)
  | 1 => exact absurd hflag (by decide)
  | i + 2 => simp at hp

end Grim.Engine
