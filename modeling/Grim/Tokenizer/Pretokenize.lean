import Grim.Lib.Chop
import Grim.Lib.Text

/-!
# Pre-tokenization

The scanner that cuts a text into words, numbers, runs of other characters and white space, before
the merges; and the cut into runs of newlines and of what is between them.  The Unicode classes
that the scanner asks for are parameters, but for white space.
-/

namespace Grim.Tokenizer

open Chop Text List

structure CharClasses where
  isAlphabetic : Char → Bool
  isNumeric : Char → Bool

/-- The characters at the front that `p` holds of. -/
def run (p : Char → Bool) (cs : List Char) : ℕ := (cs.takeWhile p).length

def contractions : List (List Char) :=
  ["'s".toList, "'t".toList, "'re".toList, "'ve".toList, "'m".toList, "'ll".toList, "'d".toList]

def contraction (cs : List Char) : Option ℕ :=
  (contractions.find? fun cand => cand.isPrefixOf cs).map List.length

variable (cls : CharClasses)

def isOther (c : Char) : Bool := !isWhitespace c && !cls.isAlphabetic c && !cls.isNumeric c

/-- The characters a piece that starts with `c` goes on with. -/
def sameAs (c : Char) : Char → Bool :=
  if cls.isAlphabetic c then cls.isAlphabetic
  else if cls.isNumeric c then cls.isNumeric
  else isOther cls

/-- White space: the whole run at the end of the text, else all of it but the last character. -/
def whitespaceLength (cs : List Char) : ℕ :=
  let j := run isWhitespace cs
  if j = cs.length then j else if 1 < j then j - 1 else j

def plainLength : List Char → ℕ
  | [] => 0
  | c :: cs =>
    if c = ' ' ∧ (cs.head?.any fun d => !isWhitespace d) then 1 + run (sameAs cls (cs.headD ' ')) cs
    else if isWhitespace c = false ∨ cls.isAlphabetic c ∨ cls.isNumeric c then
      run (sameAs cls c) (c :: cs)
    else whitespaceLength (c :: cs)

def pieceLength (cs : List Char) : ℕ :=
  if cs.head? = some '\'' then (contraction cs).getD (plainLength cls cs) else plainLength cls cs

def splitOnGpt2Pretokenize (text : List Char) : List (List Char) := chop (pieceLength cls) text

theorem run_le (p : Char → Bool) (cs : List Char) : run p cs ≤ cs.length :=
  (List.takeWhile_prefix p).length_le

theorem run_pos {p : Char → Bool} {c : Char} (h : p c = true) (cs : List Char) :
    0 < run p (c :: cs) := by
  rw [run, takeWhile_cons, if_pos h, length_cons]
  omega

theorem contraction_eq_some {cs : List Char} {n : ℕ} (h : contraction cs = some n) :
    0 < n ∧ n ≤ cs.length := by
  obtain ⟨cand, hfind, rfl⟩ := Option.map_eq_some_iff.1 h
  have hmem := mem_of_find?_eq_some hfind
  have hlong : ∀ cand ∈ contractions, 0 < cand.length := by decide
  have hpre : cand.isPrefixOf cs = true := by simpa using find?_some hfind
  exact ⟨hlong cand hmem, (List.isPrefixOf_iff_prefix.1 hpre).length_le⟩

variable {cls}

theorem sameAs_self {c : Char}
    (h : isWhitespace c = false ∨ cls.isAlphabetic c = true ∨ cls.isNumeric c = true) :
    sameAs cls c c = true := by
  rw [sameAs]
  split_ifs with hletter hnum
  · exact hletter
  · exact hnum
  · simp_all [isOther]

theorem whitespaceLength_bounds {c : Char} (h : isWhitespace c = true) (cs : List Char) :
    0 < whitespaceLength (c :: cs) ∧ whitespaceLength (c :: cs) ≤ (c :: cs).length := by
  have hpos := run_pos h cs
  have hle := run_le isWhitespace (c :: cs)
  rw [whitespaceLength]
  split_ifs <;> omega

theorem plainLength_bounds (c : Char) (cs : List Char) :
    0 < plainLength cls (c :: cs) ∧ plainLength cls (c :: cs) ≤ (c :: cs).length := by
  rw [plainLength]
  split_ifs with hspace hrun
  · have hle := run_le (sameAs cls (cs.headD ' ')) cs
    rw [length_cons]
    omega
  · exact ⟨run_pos (sameAs_self hrun) cs, run_le _ _⟩
  · simp only [not_or, Bool.not_eq_false] at hrun
    exact whitespaceLength_bounds hrun.1 cs

theorem pieceLength_progress : Progress (pieceLength cls) where
  pos := fun c cs => by
    rw [pieceLength]
    split_ifs
    · rcases hn : contraction (c :: cs) with _ | n
      · exact (plainLength_bounds c cs).1
      · exact (contraction_eq_some hn).1
    · exact (plainLength_bounds c cs).1
  le := fun cs => by
    have hplain : plainLength cls cs ≤ cs.length := by
      rcases cs with _ | ⟨c, cs⟩
      · exact le_rfl
      · exact (plainLength_bounds c cs).2
    rw [pieceLength]
    split_ifs
    · rcases hn : contraction cs with _ | n
      · exact hplain
      · exact (contraction_eq_some hn).2
    · exact hplain

theorem flatten_splitOnGpt2Pretokenize (text : List Char) :
    (splitOnGpt2Pretokenize cls text).flatten = text := flatten_chop pieceLength_progress text

theorem run_append {p : Char → Bool} : ∀ {l r : List Char}, run p (l ++ r) ≤ l.length →
    run p l = run p (l ++ r)
  | [], r, h => by
    rw [nil_append] at h ⊢
    exact (Nat.le_zero.1 h).symm
  | c :: l, r, h => by
    by_cases hc : p c = true
    · simp only [run, cons_append, takeWhile_cons, if_pos hc, length_cons] at h ⊢
      rw [Nat.add_right_cancel_iff]
      exact run_append (Nat.le_of_succ_le_succ h)
    · simp only [run, cons_append, takeWhile_cons, if_neg hc]

theorem run_append_of_lt {p : Char → Bool} : ∀ {l r : List Char}, l.length ≤ run p (l ++ r) →
    run p l = l.length ∧ ∀ c ∈ l, p c = true
  | [], _, _ => ⟨rfl, by simp⟩
  | c :: l, r, h => by
    by_cases hc : p c = true
    · simp only [run, cons_append, takeWhile_cons, if_pos hc, length_cons] at h ⊢
      obtain ⟨hrun, hall⟩ := run_append_of_lt (Nat.le_of_succ_le_succ h)
      exact ⟨by rw [← hrun]; rfl, by simpa [hc] using hall⟩
    · simp [run, hc] at h

theorem contraction_append {l r : List Char}
    (h : ∀ n, contraction (l ++ r) = some n → n ≤ l.length) :
    contraction l = contraction (l ++ r) := by
  rcases hwhole : contraction (l ++ r) with _ | n
  · rw [contraction, Option.map_eq_none_iff, find?_eq_none] at hwhole ⊢
    intro cand hcand hpre
    refine hwhole cand hcand ?_
    rw [List.isPrefixOf_iff_prefix] at hpre ⊢
    exact hpre.trans (prefix_append l r)
  · have hle := h n hwhole
    rw [contraction, Option.map_eq_some_iff] at hwhole ⊢
    obtain ⟨cand, hfind, rfl⟩ := hwhole
    refine ⟨cand, ?_, rfl⟩
    rw [find?_eq_some_iff_append] at hfind ⊢
    obtain ⟨hpre, before, after, heq, hbefore⟩ := hfind
    refine ⟨?_, before, after, heq, fun a ha => ?_⟩
    · rw [List.isPrefixOf_iff_prefix] at hpre ⊢
      exact prefix_of_prefix_length_le hpre (prefix_append l r) hle
    · have hnot := hbefore a ha
      simp only [Bool.not_eq_true', Bool.eq_false_iff, ne_eq, isPrefixOf_iff_prefix] at hnot ⊢
      exact fun hl => hnot (hl.trans (prefix_append l r))

/-- The last two pieces are one run of white space, cut before its last character. -/
def SplitRun (us : List (List Char)) : Prop := ∃ before white w, us = before ++ [white, [w]] ∧
  (∀ c ∈ white, isWhitespace c = true) ∧ isWhitespace w = true

theorem SplitRun.cons {us : List (List Char)} (u : List Char) (h : SplitRun us) :
    SplitRun (u :: us) := by
  obtain ⟨before, white, w, rfl, hwhite⟩ := h
  exact ⟨u :: before, white, w, rfl, hwhite⟩

theorem eq_singleton_of_length {us : List (List Char)} (hne : ∀ p ∈ us, p ≠ [])
    (h : us.flatten.length = 1) : ∃ w, us = [[w]] := by
  rcases us with _ | ⟨u, us⟩
  · simp at h
  · have hu := length_pos_of_ne_nil (hne u mem_cons_self)
    rcases us with _ | ⟨v, us⟩
    · rw [flatten_singleton] at h
      obtain ⟨w, rfl⟩ := length_eq_one_iff.1 h
      exact ⟨w, rfl⟩
    · have hv := length_pos_of_ne_nil (hne v (by simp))
      simp only [flatten_cons, length_append] at h
      omega

theorem whitespaceLength_steady {u : List Char} {us : List (List Char)} {r : List Char}
    (hu : u ≠ []) (hne : ∀ p ∈ us, p ≠ [])
    (h : whitespaceLength (u ++ us.flatten ++ r) = u.length) (hgood : ¬SplitRun (u :: us)) :
    whitespaceLength (u ++ us.flatten) = u.length := by
  have hupos := length_pos_of_ne_nil hu
  have hlength : (u ++ us.flatten ++ r).length = (u ++ us.flatten).length + r.length :=
    length_append
  have hsplit : (u ++ us.flatten).length = u.length + us.flatten.length := length_append
  have hle := run_le isWhitespace (u ++ us.flatten ++ r)
  by_cases hshort : run isWhitespace (u ++ us.flatten ++ r) < (u ++ us.flatten).length
  · have hsame := run_append hshort.le
    simp only [whitespaceLength, hsame] at h ⊢
    rw [if_neg (by omega)] at h ⊢
    exact h
  · obtain ⟨hall, hwhite⟩ := run_append_of_lt (le_of_not_gt hshort)
    rw [whitespaceLength, hall, if_pos rfl]
    rw [whitespaceLength] at h
    by_cases hone : us.flatten.length = 1
    · -- a run of white space whose last character is the whole of the rest
      obtain ⟨w, rfl⟩ := eq_singleton_of_length hne hone
      refine absurd ⟨[], u, w, rfl, fun c hc => hwhite c (by simp [hc]), hwhite w (by simp)⟩ hgood
    · split_ifs at h <;> omega

theorem plainLength_steady {u : List Char} {us : List (List Char)} {r : List Char}
    (hu : u ≠ []) (hne : ∀ p ∈ us, p ≠ [])
    (h : plainLength cls (u ++ us.flatten ++ r) = u.length) (hgood : ¬SplitRun (u :: us)) :
    plainLength cls (u ++ us.flatten) = u.length := by
  rcases u with _ | ⟨c, cs⟩
  · exact absurd rfl hu
  have hwhite := whitespaceLength_steady (r := r) hu hne
  simp only [cons_append, plainLength, length_cons] at h hwhite ⊢
  by_cases hspace : c = ' ' ∧ ((cs ++ us.flatten ++ r).head?.any fun d => !isWhitespace d) = true
  · rw [if_pos hspace] at h
    have hpos : 0 < run (sameAs cls ((cs ++ us.flatten ++ r).headD ' '))
        (cs ++ us.flatten ++ r) := by
      obtain ⟨_, hnext⟩ := hspace
      rcases hcs : cs ++ us.flatten ++ r with _ | ⟨d, ds⟩
      · simp [hcs] at hnext
      · rw [hcs] at hnext
        exact run_pos (sameAs_self (.inl (by simpa using hnext))) ds
    rcases cs with _ | ⟨d, ds⟩
    · rw [length_nil] at h
      omega
    · have hle : run (sameAs cls d) (d :: ds ++ us.flatten ++ r) ≤
          (d :: ds ++ us.flatten).length := by
        have heq : 1 + run (sameAs cls d) (d :: ds ++ us.flatten ++ r) = (d :: ds).length + 1 := h
        rw [length_append]
        omega
      have hsame : run (sameAs cls d) (d :: ds ++ us.flatten) =
          run (sameAs cls d) (d :: ds ++ us.flatten ++ r) := run_append hle
      have hspace' : c = ' ' ∧
          ((d :: ds ++ us.flatten).head?.any fun d => !isWhitespace d) = true := hspace
      rw [if_pos hspace']
      calc 1 + run (sameAs cls d) (d :: ds ++ us.flatten)
          = 1 + run (sameAs cls d) (d :: ds ++ us.flatten ++ r) := by rw [hsame]
        _ = (d :: ds).length + 1 := h
  · have hspace' : ¬(c = ' ' ∧ ((cs ++ us.flatten).head?.any fun d => !isWhitespace d) = true) := by
      rintro ⟨hc, hnext⟩
      refine hspace ⟨hc, ?_⟩
      rcases hcs : cs ++ us.flatten with _ | ⟨d, ds⟩
      · simp [hcs] at hnext
      · rw [hcs] at hnext
        exact hnext
    rw [if_neg hspace] at h
    rw [if_neg hspace']
    by_cases hrun : isWhitespace c = false ∨ cls.isAlphabetic c = true ∨ cls.isNumeric c = true
    · rw [if_pos hrun] at h ⊢
      have hle : run (sameAs cls c) (c :: (cs ++ us.flatten) ++ r) ≤
          (c :: (cs ++ us.flatten)).length := by
        rw [cons_append, h, length_cons, length_append]
        omega
      rw [run_append hle]
      exact h
    · rw [if_neg hrun] at h ⊢
      exact hwhite h hgood

theorem pieceLength_steady {u : List Char} {us : List (List Char)} {r : List Char}
    (hu : u ≠ []) (hne : ∀ p ∈ us, p ≠ [])
    (h : pieceLength cls (u ++ us.flatten ++ r) = u.length) (hgood : ¬SplitRun (u :: us)) :
    pieceLength cls (u ++ us.flatten) = u.length := by
  have hhead : (u ++ us.flatten ++ r).head? = (u ++ us.flatten).head? := by
    rcases u with _ | ⟨c, cs⟩
    · exact absurd rfl hu
    · rfl
  rw [pieceLength, hhead] at h
  rw [pieceLength]
  by_cases hquote : (u ++ us.flatten).head? = some '\''
  · rw [if_pos hquote] at h ⊢
    have hsame := contraction_append (l := u ++ us.flatten) (r := r) fun n hn => by
      rw [hn, Option.getD_some] at h
      rw [h, length_append]
      omega
    rw [hsame]
    rcases hn : contraction (u ++ us.flatten ++ r) with _ | n
    · rw [hn, Option.getD_none] at h
      exact plainLength_steady hu hne h hgood
    · rw [hn] at h
      exact h
  · rw [if_neg hquote] at h ⊢
    exact plainLength_steady hu hne h hgood

end Grim.Tokenizer
