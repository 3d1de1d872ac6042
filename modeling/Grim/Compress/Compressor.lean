import Grim.Compress.Sentences
import Grim.Lib.FloatNat

/-!
# Prompt compression

The first three and the last two sentences are kept, and those with the highest scores are added
while there is room.  The compressed prompt is an extract of the sentences (`compress_extract`),
whatever the scores are.
-/

namespace Grim.Compress

open FloatFormat Text Words List

def preserveFirst : ℕ := 3

def preserveLast : ℕ := 2

inductive CompressError where
  | emptyInput
  | invalidBudget
  deriving Repr, DecidableEq

def isCjk (c : Char) : Bool :=
  let n := c.toNat
  (0x4E00 ≤ n && n ≤ 0x9FFF) || (0x3400 ≤ n && n ≤ 0x4DBF) || (0xF900 ≤ n && n ≤ 0xFAFF)
    || (0x3040 ≤ n && n ≤ 0x309F) || (0x30A0 ≤ n && n ≤ 0x30FF) || (0xAC00 ≤ n && n ≤ 0xD7AF)

/-- `a.ceil()` -/
def f32Ceil (a : UInt32) : UInt32 :=
  let whole := f32Trunc a
  if f32Lt whole a then f32Op .add whole 0x3F800000 else whole

/-- Approximate token count for a sentence: 1.5 characters a token where they are CJK, else 4. -/
def approxTokenCount (text : List Char) : ℕ :=
  let cjkCount := text.countP isCjk
  let nonCjkCount := text.length - cjkCount
  let tokens := f32Op .add (f32Ceil (f32Op .div (f32OfInt cjkCount) 0x3FC00000))
    (f32Ceil (f32Op .div (f32OfInt nonCjkCount) 0x40800000))
  (f32ToU64 (f32Max tokens 0x3F800000)).toNat

/-- `a.partial_cmp(&b)` -/
def f32PartialCmp (a b : UInt32) : Option Ordering :=
  if (f32Unpacked a).isNaN || (f32Unpacked b).isNaN then none
  else some (if f32Lt a b then .lt else if f32Lt b a then .gt else .eq)

def byScore (scored : List (ℕ × UInt32)) : List (ℕ × UInt32) :=
  scored.mergeSort fun a b => ((f32PartialCmp b.2 a.2).getD .eq).isLE

/-- Is the sentence always preserved, of `n`? -/
def preserved (n i : ℕ) : Bool :=
  let first := min preserveFirst n
  let last := min preserveLast (n - first)
  i < first || n - last ≤ i

def preservedOf (n : ℕ) : List ℕ := (List.range n).filter (preserved n)

/-- Fill the remaining budget with the sentences still to come, the best first. -/
def fill (n : ℕ) (cost : ℕ → ℕ) (budget : ℕ) (selected : List ℕ) (tokenCount : ℕ) :
    List ℕ → List ℕ
  | [] => selected
  | idx :: rest =>
    if preserved n idx then fill n cost budget selected tokenCount rest
    else if budget < tokenCount + cost idx ∧ selected ≠ [] then selected
    else
      let selected := selected ++ [idx]
      let tokenCount := tokenCount + cost idx
      if budget ≤ tokenCount then selected else fill n cost budget selected tokenCount rest

/-- Compress `text` to about `budget` tokens of its sentences, which are scored by `score`. -/
def compress (budget : ℕ) (score : List (List Char) → ℕ → UInt32) (text : List Char) :
    Except CompressError (List Char) :=
  if trim text = [] then .error .emptyInput
  else if budget = 0 then .error .invalidBudget
  else
    let sentences := segmentSentences text
    if sentences.length ≤ 1 then .ok text
    else
      let n := sentences.length
      let cost := fun i => approxTokenCount (sentences.getD i [])
      let scored := byScore ((List.range n).map fun i => (i, score sentences i))
      let tokenCount := ((preservedOf n).map cost).sum
      let selected := fill n cost budget (preservedOf n) tokenCount (scored.map Prod.fst)
      .ok (List.intercalate [' ']
        ((selected.mergeSort (· ≤ ·)).map fun i => sentences.getD i []))

variable {n budget tokenCount : ℕ} {cost : ℕ → ℕ} {selected order : List ℕ} {text : List Char}

theorem fst_byScore (score : ℕ → UInt32) (n : ℕ) :
    ((byScore ((List.range n).map fun i => (i, score i))).map Prod.fst).Perm (List.range n) := by
  have hperm := (mergeSort_perm ((List.range n).map fun i => (i, score i))
    fun a b => ((f32PartialCmp b.2 a.2).getD .eq).isLE).map Prod.fst
  rwa [map_map, show Prod.fst ∘ (fun i => (i, score i)) = id from rfl, map_id] at hperm

theorem exists_fill (n : ℕ) (cost : ℕ → ℕ) (budget : ℕ) (order : List ℕ) (tokenCount : ℕ)
    (hne : selected ≠ []) : ∃ added,
    fill n cost budget selected tokenCount order = selected ++ added ∧
      added.Sublist (order.filter fun i => !preserved n i) ∧
      (added = [] ∨ tokenCount + (added.map cost).sum ≤ budget) := by
  induction order generalizing selected tokenCount with
  | nil => exact ⟨[], (append_nil selected).symm, nil_sublist _, .inl rfl⟩
  | cons idx rest ih =>
    rw [fill]
    dsimp only
    split_ifs with hpreserved hover hfull
    · rw [filter_cons_of_neg (by simp [hpreserved])]
      exact ih tokenCount hne
    · exact ⟨[], (append_nil selected).symm, nil_sublist _, .inl rfl⟩
    · have hroom : tokenCount + cost idx ≤ budget :=
        not_lt.1 fun h => hover ⟨h, hne⟩
      rw [filter_cons_of_pos (by simp [hpreserved])]
      exact ⟨[idx], rfl, (nil_sublist _).cons_cons idx, .inr hroom⟩
    · have hroom : tokenCount + cost idx ≤ budget :=
        not_lt.1 fun h => hover ⟨h, hne⟩
      obtain ⟨added, heq, hsub, htotal⟩ := ih (tokenCount + cost idx)
        (append_ne_nil_of_left_ne_nil hne [idx])
      rw [filter_cons_of_pos (by simp [hpreserved])]
      refine ⟨idx :: added, ?_, hsub.cons_cons idx, .inr ?_⟩
      · rw [heq, append_assoc, singleton_append]
      · rw [map_cons, sum_cons, ← add_assoc]
        rcases htotal with rfl | htotal
        · exact hroom
        · exact htotal

/-- The first three and the last two of `n`. -/
def IsEdge (n i : ℕ) : Prop := i < 3 ∨ n ≤ i + 2

instance (n i : ℕ) : Decidable (IsEdge n i) := inferInstanceAs (Decidable (_ ∨ _))

theorem preserved_iff {i : ℕ} (hi : i < n) : preserved n i ↔ IsEdge n i := by
  unfold preserved preserveFirst preserveLast IsEdge
  rw [Bool.or_eq_true, decide_eq_true_eq, decide_eq_true_eq]
  omega

theorem preservedOf_eq (n : ℕ) : preservedOf n = (List.range n).filter (IsEdge n ·) :=
  filter_congr fun _ hi => by
    rw [Bool.eq_iff_iff, preserved_iff (mem_range.1 hi), decide_eq_true_eq]

theorem preservedOf_ne_nil (h : 0 < n) : preservedOf n ≠ [] :=
  ne_nil_of_mem (mem_filter.2
    ⟨mem_range.2 h, (preserved_iff h).2 (.inl (by decide))⟩)

theorem selected_nodup {added : List ℕ} (horder : order.Nodup)
    (hsub : added.Sublist (order.filter fun i => !preserved n i)) :
    (preservedOf n ++ added).Nodup := by
  refine nodup_append.2 ⟨nodup_range.filter _, (horder.filter _).sublist hsub, ?_⟩
  rintro i hi j hj rfl
  have hpreserved := (mem_filter.1 hi).2
  have hother := (mem_filter.1 (hsub.subset hj)).2
  rw [hpreserved] at hother
  exact absurd hother (by decide)

theorem sorted_lt (h : selected.Nodup) : (selected.mergeSort (· ≤ ·)).Pairwise (· < ·) := by
  have hle : (selected.mergeSort (· ≤ ·)).Pairwise (· ≤ ·) :=
    (pairwise_mergeSort (fun a b c hab hbc => by simp only [decide_eq_true_eq] at *; omega)
      (fun a b => by simp only [Bool.or_eq_true, decide_eq_true_eq]; omega) selected).imp
        fun hab => of_decide_eq_true hab
  have hne : (selected.mergeSort (· ≤ ·)).Nodup := (mergeSort_perm _ _).nodup_iff.2 h
  exact hle.and hne |>.imp fun ⟨hab, hneq⟩ => lt_of_le_of_ne hab hneq

/-- Some of the sentences in their order, with the first three and the last two, and with no others
where these are over the budget. -/
structure Extract (sentences : List (List Char)) (budget : ℕ) (selected : List ℕ) : Prop where
  ordered : selected.Pairwise (· < ·)
  segmented : ∀ i ∈ selected, i < sentences.length
  edges : ∀ i < sentences.length, IsEdge sentences.length i → i ∈ selected
  withinBudget : budget < (selected.map fun i => approxTokenCount (sentences.getD i [])).sum →
    budget < (((List.range sentences.length).filter (IsEdge sentences.length ·)).map
      fun i => approxTokenCount (sentences.getD i [])).sum

theorem trim_ne_nil (h : 1 < (segmentSentences text).length) : trim text ≠ [] := by
  intro htrim
  rw [segmentSentences_eq, segmentFrom_white (fun c hc => absurd hc not_mem_nil)
    (trim_eq_nil_iff.1 htrim)] at h
  exact absurd h (by decide)

theorem compress_extract (score : List (List Char) → ℕ → UInt32) (hbudget : 0 < budget)
    (hmany : 1 < (segmentSentences text).length) :
    ∃ selected, Extract (segmentSentences text) budget selected ∧
      compress budget score text = .ok (List.intercalate [' ']
        (selected.map fun i => (segmentSentences text).getD i [])) := by
  set sentences := segmentSentences text with hsentences
  set cost := fun i => approxTokenCount (sentences.getD i []) with hcost
  set order := (byScore ((List.range sentences.length).map fun i =>
    (i, score sentences i))).map Prod.fst with horder
  obtain ⟨added, hfill, hsub, htotal⟩ := exists_fill sentences.length cost budget order
    ((preservedOf sentences.length).map cost).sum (preservedOf_ne_nil (Nat.zero_lt_of_lt hmany))
  have hrange : order.Perm (List.range sentences.length) := fst_byScore (score sentences) _
  have hperm := mergeSort_perm (preservedOf sentences.length ++ added) (· ≤ ·)
  refine ⟨(preservedOf sentences.length ++ added).mergeSort (· ≤ ·), ⟨?_, ?_, ?_, ?_⟩, ?_⟩
  · exact sorted_lt (selected_nodup (hrange.nodup_iff.2 nodup_range) hsub)
  · intro i hi
    rcases mem_append.1 (hperm.mem_iff.1 hi) with hi | hi
    · exact mem_range.1 (mem_filter.1 hi).1
    · exact mem_range.1 (hrange.mem_iff.1 (mem_filter.1 (hsub.subset hi)).1)
  · intro i hi hedge
    refine hperm.mem_iff.2 (mem_append_left added (mem_filter.2
      ⟨mem_range.2 hi, (preserved_iff hi).2 hedge⟩))
  · intro hover
    rw [(hperm.map cost).sum_eq, map_append, sum_append] at hover
    rw [← preservedOf_eq]
    rcases htotal with rfl | htotal
    · exact hover
    · exact absurd hover (not_lt.2 htotal)
  · rw [compress, if_neg (trim_ne_nil hmany), if_neg hbudget.ne', if_neg (not_le.2 hmany), ← hfill]

/-- A text becomes an extract of its sentences, in which nothing is lost and none is long. -/
structure Faithful (text : List Char) : Prop where
  extract : ∀ (budget : ℕ) (score : List (List Char) → ℕ → UInt32), 0 < budget →
    1 < (segmentSentences text).length →
      ∃ selected, Extract (segmentSentences text) budget selected ∧
        compress budget score text = .ok (List.intercalate [' ']
          (selected.map fun i => (segmentSentences text).getD i []))
  conserved : visible isWhitespace (segmentSentences text).flatten = visible isWhitespace text
  capped : ∀ sentence ∈ segmentSentences text, sentence.length ≤ 500

/-- Only the cap can fail, and it does exactly for a long run. -/
theorem faithful_iff_shortRuns (text : List Char) : Faithful text ↔ ShortRuns text := by
  refine ⟨fun h => (segmentSentences_le_iff text).1 h.capped, fun h => ?_⟩
  exact ⟨fun _ score hbudget hmany => compress_extract score hbudget hmany,
    visible_segmentSentences text, (segmentSentences_le_iff text).2 h⟩

/-- A word is not chopped. -/
theorem long_word_not_capped : ¬∀ text, Faithful text := by
  intro h
  have hshort := (segmentSentences_le_iff ("Short. ".toList ++ List.replicate 600 'a' ++
    ". End.".toList)).1 (h _).capped
  have hword : ∀ c ∈ List.replicate 600 'a', ¬isWhitespace c ∧ ¬AlwaysEnds c := by
    intro c hc
    obtain rfl := eq_of_mem_replicate hc
    exact ⟨by decide, fun hends => absurd hends.1 (by decide)⟩
  have hlen := hshort (List.replicate 600 'a')
    (infix_append_right.trans infix_append_left) (fun c hc => (hword c hc).1)
    fun c hc => (hword c (dropLast_subset _ hc)).2
  rw [length_replicate] at hlen
  exact absurd hlen (by decide)

end Grim.Compress
