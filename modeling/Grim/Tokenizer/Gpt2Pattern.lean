import Grim.Lib.Regex
import Grim.Tokenizer.Model

/-!
# The pattern of the pre-tokenizer

The scanner takes at every place what the GPT-2 pattern matches there.  White space is neither a
letter nor a number in Unicode, and the scanner and the pattern part where it is.
-/

namespace Grim.Tokenizer

open Chop Regex Text List Option

structure DisjointClasses (cls : CharClasses) : Prop where
  alphabetic : ∀ c, isWhitespace c = true → cls.isAlphabetic c = false
  numeric : ∀ c, isWhitespace c = true → cls.isNumeric c = false

/-- Characters of a class, with a space in front of them or not. -/
def spaced (p : Char → Bool) : Regex Char :=
    seq (opt (one fun c => decide (c = ' '))) (plus (one p))

/-- `'s|'t|'re|'ve|'m|'ll|'d| ?\p{L}+| ?\p{N}+| ?[^\s\p{L}\p{N}]+|\s+(?!\S)|\s+` -/
def gpt2Pattern (cls : CharClasses) : Regex Char :=
  alt (choice (contractions.map literal))
    (alt (spaced cls.isAlphabetic)
      (alt (spaced cls.isNumeric)
        (alt (spaced (isOther cls))
          (alt (seq (plus (one isWhitespace)) (notAhead (one fun c => !isWhitespace c)))
            (plus (one isWhitespace))))))

theorem dropWhile_eq_drop (p : Char → Bool) (cs : List Char) :
    cs.dropWhile p = cs.drop (run p cs) := by
  have hdrop : (cs.takeWhile p ++ cs.dropWhile p).drop (cs.takeWhile p).length = cs.dropWhile p :=
    drop_left
  rw [takeWhile_append_dropWhile] at hdrop
  exact hdrop.symm

theorem rest_contractions (cs : List Char) :
    (choice (contractions.map literal)).rest cs = (contraction cs).map fun n => cs.drop n := by
  rw [rest_choice, findSome?_map, contraction]
  induction contractions with
  | nil => rfl
  | cons cand rest ih =>
    rw [findSome?_cons, find?_cons]
    simp only [Function.comp_apply, rest_literal] at ih ⊢
    rcases cand.isPrefixOf cs
    · exact ih
    · rfl

theorem rest_spaced (p : Char → Bool) (c : Char) (cs : List Char) :
    (spaced p).rest (c :: cs) =
      if c = ' ' ∧ cs.head?.any p then some (cs.dropWhile p)
      else if p c then some ((c :: cs).dropWhile p) else none := by
  have hplus : (plus (one p)).rest (c :: cs) =
      if p c then some ((c :: cs).dropWhile p) else none := by
    rw [rest_plus_one, dropWhile_cons]
    split_ifs <;> rfl
  have htail : (plus (one p)).rest cs = if cs.head?.any p then some (cs.dropWhile p) else none := by
    rcases cs with _ | ⟨d, cs⟩
    · rfl
    · rw [rest_plus_one, dropWhile_cons]
      simp only [head?_cons, any_some]
      split_ifs <;> rfl
  rw [spaced, rest_seq, opt, rests, rests, rests]
  by_cases hspace : c = ' '
  · rw [if_pos (by simpa using hspace), singleton_append, findSome?_cons,
      findSome?_singleton, hplus, htail]
    by_cases hnext : cs.head?.any p = true
    · simp only [hnext, hspace, and_self, if_true]
    · simp only [hnext, hspace, and_false, if_false, Bool.false_eq_true]
  · have hno : ¬(c = ' ' ∧ cs.head?.any p = true) := fun h => hspace h.1
    rw [if_neg (by simpa using hspace), nil_append, findSome?_singleton, hplus,
      if_neg hno]

theorem rest_whitespaces : ∀ cs : List Char,
    (seq (star (one isWhitespace)) (notAhead (one fun c => !isWhitespace c))).rest cs =
      if run isWhitespace cs = cs.length then some []
      else if run isWhitespace cs = 0 then none
      else some (cs.drop (run isWhitespace cs - 1))
  | [] => rfl
  | c :: cs => by
    have hrun := run_le isWhitespace cs
    rw [rest_seq, rests_star_one_cons]
    by_cases hc : isWhitespace c = true
    · have ih := rest_whitespaces cs
      have hlen : run isWhitespace (c :: cs) = run isWhitespace cs + 1 := by
        rw [run, takeWhile_cons, if_pos hc, length_cons, run]
      have hself : (notAhead (one fun c => !isWhitespace c)).rest (c :: cs) = some (c :: cs) := by
        rw [rest_notAhead_one, head?_cons, any_some, hc]
        rfl
      rw [rest_seq] at ih
      rw [if_pos hc, findSome?_append, ih, findSome?_singleton, hself, hlen,
        length_cons, if_neg (Nat.succ_ne_zero _)]
      simp only [Nat.add_right_cancel_iff]
      rcases run isWhitespace cs with _ | k
      · split_ifs <;> first | rfl | contradiction
      · split_ifs <;> first | rfl | contradiction
    · have hlen : run isWhitespace (c :: cs) = 0 := by
        rw [run, takeWhile_cons, if_neg hc, length_nil]
      have hself : (notAhead (one fun c => !isWhitespace c)).rest (c :: cs) = none := by
        rw [rest_notAhead_one, head?_cons, any_some, Bool.eq_false_iff.2 hc]
        rfl
      rw [if_neg hc, findSome?_singleton, hself, hlen, if_pos rfl,
        length_cons, if_neg (Nat.succ_ne_zero cs.length).symm]

theorem rest_whitespace {c : Char} (hc : isWhitespace c = true) (cs : List Char) :
    ((seq (plus (one isWhitespace)) (notAhead (one fun c => !isWhitespace c))).rest (c :: cs)).or
      ((plus (one isWhitespace)).rest (c :: cs)) =
        some ((c :: cs).drop (whitespaceLength (c :: cs))) := by
  have hone : (seq (plus (one isWhitespace)) (notAhead (one fun c => !isWhitespace c))).rest
      (c :: cs) =
        (seq (star (one isWhitespace)) (notAhead (one fun c => !isWhitespace c))).rest cs := by
    rw [rest_seq, rest_seq, plus, rests, rests, if_pos hc, flatMap_singleton]
  have hlen : run isWhitespace (c :: cs) = run isWhitespace cs + 1 := by
    rw [run, takeWhile_cons, if_pos hc, length_cons, run]
  rw [hone, rest_whitespaces, rest_plus_one, if_pos hc, dropWhile_eq_drop, whitespaceLength, hlen,
    length_cons]
  simp only [Nat.add_right_cancel_iff]
  rcases hrun : run isWhitespace cs with _ | k
  · by_cases hall : 0 = cs.length
    · rw [if_pos hall, if_pos hall, eq_nil_of_length_eq_zero hall.symm]
      rfl
    · rw [if_neg hall, if_neg hall]
      rfl
  · by_cases hall : k + 1 = cs.length
    · rw [if_pos hall, if_pos hall, hall, drop_succ_cons, drop_length]
      rfl
    · rw [if_neg hall, if_neg hall, if_neg (Nat.succ_ne_zero k), if_pos (by omega)]
      rfl

theorem contraction_of_head {c : Char} (h : c ≠ '\'') (cs : List Char) :
    contraction (c :: cs) = none := by
  have hquote : ∀ cand ∈ contractions, cand.head? = some '\'' := by decide
  rw [contraction, map_eq_none_iff, find?_eq_none]
  intro cand hcand hpre
  obtain ⟨rest, hrest⟩ := isPrefixOf_iff_prefix.1 hpre
  have hhead := hquote cand hcand
  rcases cand with _ | ⟨d, cand⟩
  · cases hhead
  · exact h ((List.cons.inj hrest).1.symm.trans (Option.some.inj hhead))

theorem pieceLength_cons (cls : CharClasses) (c : Char) (cs : List Char) :
    pieceLength cls (c :: cs) = (contraction (c :: cs)).getD (plainLength cls (c :: cs)) := by
  rw [pieceLength, head?_cons]
  by_cases hquote : c = '\''
  · rw [if_pos (by rw [hquote])]
  · rw [if_neg fun h => hquote (Option.some.inj h), contraction_of_head hquote]
    rfl

variable {cls : CharClasses}

theorem first_class (cls : CharClasses) (c : Char) (cs : List Char)
    (h : isWhitespace c = false ∨ cls.isAlphabetic c = true ∨ cls.isNumeric c = true)
    (o : Option (List Char)) :
    (if cls.isAlphabetic c then some (cs.dropWhile cls.isAlphabetic) else none).or
      ((if cls.isNumeric c then some (cs.dropWhile cls.isNumeric) else none).or
        ((if isOther cls c then some (cs.dropWhile (isOther cls)) else none).or o)) =
      some (cs.drop (run (sameAs cls c) cs)) := by
  rw [sameAs]
  by_cases hletter : cls.isAlphabetic c = true
  · rw [if_pos hletter, if_pos hletter, dropWhile_eq_drop]
    rfl
  · by_cases hnum : cls.isNumeric c = true
    · rw [if_neg hletter, if_neg hletter, if_pos hnum, if_pos hnum, dropWhile_eq_drop]
      rfl
    · have hwhite : isWhitespace c = false := (h.resolve_right fun h => h.elim hletter hnum)
      have hother : isOther cls c = true := by simp [isOther, hwhite, hletter, hnum]
      rw [if_neg hletter, if_neg hletter, if_neg hnum, if_neg hnum, if_pos hother,
        dropWhile_eq_drop]
      rfl

theorem isOther_of_isWhitespace {c : Char} (hc : isWhitespace c = true) :
    isOther cls c = false := by simp [isOther, hc]

theorem rest_gpt2Pattern (h : DisjointClasses cls) (c : Char) (cs : List Char) :
    (gpt2Pattern cls).rest (c :: cs) = some ((c :: cs).drop (pieceLength cls (c :: cs))) := by
  rw [gpt2Pattern, rest_alt, rest_contractions, pieceLength_cons]
  rcases contraction (c :: cs) with _ | n
  · rw [map_none, none_or, getD_none, plainLength]
    simp only [rest_alt, rest_spaced]
    by_cases hword : c = ' ' ∧ cs.head?.any (fun d => !isWhitespace d) = true
    · -- a space goes with the characters behind it
      rw [if_pos hword]
      obtain ⟨rfl, hnext⟩ := hword
      have hspace : isWhitespace ' ' = true := by decide
      rcases cs with _ | ⟨d, cs⟩
      · cases hnext
      · have hwhite : isWhitespace d = false := by simpa using hnext
        simp only [head?_cons, any_some, true_and, h.alphabetic _ hspace,
          h.numeric _ hspace, isOther_of_isWhitespace hspace, Bool.false_eq_true, if_false]
        rw [headD_cons, Nat.add_comm, drop_succ_cons]
        exact first_class cls d (d :: cs) (.inl hwhite) _
    · rw [if_neg hword]
      have hno : ∀ p : Char → Bool, (∀ d, isWhitespace d = true → p d = false) →
          ¬(c = ' ' ∧ cs.head?.any p = true) := fun p hp hboth => hword ⟨hboth.1, by
        rcases cs with _ | ⟨d, cs⟩
        · exact hboth.2
        · rcases hd : isWhitespace d with _ | _
          · simp [hd]
          · simp [hp d hd] at hboth⟩
      simp only [hno _ h.alphabetic, hno _ h.numeric, hno _ fun d => isOther_of_isWhitespace,
        if_false]
      by_cases hclass : isWhitespace c = false ∨ cls.isAlphabetic c = true ∨ cls.isNumeric c = true
      · rw [if_pos hclass]
        exact first_class cls c (c :: cs) hclass _
      · rw [if_neg hclass]
        simp only [not_or, Bool.not_eq_false, Bool.not_eq_true] at hclass
        obtain ⟨hwhite, hletter, hnum⟩ := hclass
        rw [hletter, hnum, isOther_of_isWhitespace hwhite]
        exact rest_whitespace hwhite cs
  · rfl

/-- The scanner's pieces are the matches of the pattern, one after another, and all of the text. -/
theorem splitOnGpt2Pretokenize_matches (h : DisjointClasses cls) (text : List Char) :
    (∀ piece ∈ splitOnGpt2Pretokenize cls text, piece ≠ []) ∧
      (splitOnGpt2Pretokenize cls text).flatten = text ∧
        ∀ pieces, Successive (gpt2Pattern cls) text pieces ↔
          pieces = splitOnGpt2Pretokenize cls text := by
  have hmatches : Successive (gpt2Pattern cls) text (splitOnGpt2Pretokenize cls text) :=
    successive_chop pieceLength_progress rfl (rest_gpt2Pattern h) text.length le_rfl
  refine ⟨fun piece => ne_nil_of_mem_chop pieceLength_progress,
    flatten_splitOnGpt2Pretokenize text, fun pieces => ⟨fun hpieces => hpieces.unique hmatches, ?_⟩⟩
  rintro rfl
  exact hmatches

theorem disjointClasses_sample : DisjointClasses samplePrims.toCharClasses := by
  constructor
  all_goals
    intro c hc
    simp only [isWhitespace, Bool.or_eq_true, Bool.and_eq_true, decide_eq_true_eq] at hc
  · change ((decide (c.val ≥ 65 ∧ c.val ≤ 90) || (decide (c.val ≥ 97) && decide (c.val ≤ 122))) ||
      (decide (0xC0 ≤ c.toNat) && decide (c.toNat < 0x100))) = false
    simp [UInt32.le_iff_toNat_le, ← Char.toNat_val] at hc ⊢
    omega
  · change (decide (c.val ≥ 48) && decide (c.val ≤ 57)) = false
    simp [UInt32.le_iff_toNat_le, ← Char.toNat_val] at hc ⊢
    omega

theorem splitOnGpt2Pretokenize_matches_sample :
    Successive (gpt2Pattern samplePrims.toCharClasses) "it's  so\n".toList
      ["it".toList, "'s".toList, " ".toList, " so".toList, "\n".toList] := by
  refine ((splitOnGpt2Pretokenize_matches disjointClasses_sample _).2.2 _).2 ?_
  decide

end Grim.Tokenizer
