import Grim.Tokenizer.Pretokenize
import Grim.Lib.Utf8

/-!
# Special tokens

The text is parted at its special tokens, the leftmost first, and of those at one place the longest.
The empty token is everywhere: the loop finds it for ever, and does not return.
-/

namespace Grim.Tokenizer

open List

def find (st : List Char) : List Char → Option ℕ
  | [] => if st = [] then some 0 else none
  | c :: cs => if st.isPrefixOf (c :: cs) then some 0 else (find st cs).map (· + 1)

def better (rest : List Char) (found : Option (List Char × ℕ)) (st : List Char) :
    Option (List Char × ℕ) :=
  match find st rest with
  | none => found
  | some pos =>
    match found with
    | none => some (st, pos)
    | some (cur, curPos) =>
      if pos < curPos ∨ pos = curPos ∧ Utf8.size cur < Utf8.size st then some (st, pos) else found

def findSpecial (specials : List (List Char)) (rest : List Char) : Option (List Char × ℕ) :=
  specials.foldl (better rest) none

inductive Segment
  | text (s : List Char)
  | special (st : List Char)
deriving DecidableEq

def textSegment (s : List Char) : List Segment := if s = [] then [] else [.text s]

def splitAux (specials : List (List Char)) : ℕ → List Char → Option (List Segment)
  | 0, _ => none
  | n + 1, rest =>
    match findSpecial specials rest with
    | none => some (textSegment rest)
    | some (st, pos) =>
      (splitAux specials n (rest.drop (pos + st.length))).map fun segs =>
        textSegment (rest.take pos) ++ .special st :: segs

def splitSpecials (specials : List (List Char)) (text : List Char) : Option (List Segment) :=
  splitAux specials (text.length + 1) text

/-- `st` stands in the text after `pos` characters. -/
def Occurs (st : List Char) (pos : ℕ) (text : List Char) : Prop :=
  ∃ before after, text = before ++ (st ++ after) ∧ before.length = pos

theorem Occurs.le {st : List Char} {pos : ℕ} {text : List Char} (h : Occurs st pos text) :
    pos + st.length ≤ text.length := by
  obtain ⟨before, after, rfl, rfl⟩ := h
  simp only [length_append]
  omega

theorem occurs_zero {st text : List Char} : Occurs st 0 text ↔ st <+: text := by
  constructor
  · rintro ⟨before, after, rfl, h⟩
    obtain rfl := length_eq_zero_iff.1 h
    exact ⟨after, rfl⟩
  · rintro ⟨after, rfl⟩
    exact ⟨[], after, rfl, rfl⟩

theorem occurs_succ {st : List Char} {pos : ℕ} {c : Char} {cs : List Char} :
    Occurs st (pos + 1) (c :: cs) ↔ Occurs st pos cs := by
  constructor
  · rintro ⟨_ | ⟨d, before⟩, after, h, hlen⟩
    · simp at hlen
    · obtain ⟨rfl, rfl⟩ := List.cons.inj h
      exact ⟨before, after, rfl, Nat.succ.inj hlen⟩
  · rintro ⟨before, after, rfl, rfl⟩
    exact ⟨c :: before, after, rfl, rfl⟩

theorem find_none {st : List Char} : ∀ {text : List Char}, find st text = none →
    ∀ pos, ¬Occurs st pos text
  | [], h, pos, hocc => by
    rw [find] at h
    split_ifs at h with hst
    have := hocc.le
    have hpos := length_pos_of_ne_nil hst
    simp only [length_nil] at this
    omega
  | c :: cs, h, pos, hocc => by
    rw [find] at h
    split_ifs at h with hpre
    rcases pos with _ | pos
    · exact hpre (List.isPrefixOf_iff_prefix.2 (occurs_zero.1 hocc))
    · exact find_none (Option.map_eq_none_iff.1 h) pos (occurs_succ.1 hocc)

theorem find_some {st : List Char} : ∀ {text : List Char} {pos : ℕ}, find st text = some pos →
    Occurs st pos text ∧ ∀ pos', Occurs st pos' text → pos ≤ pos'
  | [], pos, h => by
    rw [find] at h
    split_ifs at h with hst
    obtain rfl := Option.some.inj h
    exact ⟨occurs_zero.2 (by rw [hst]), fun _ _ => Nat.zero_le _⟩
  | c :: cs, pos, h => by
    rw [find] at h
    split_ifs at h with hpre
    · obtain rfl := Option.some.inj h
      exact ⟨occurs_zero.2 (List.isPrefixOf_iff_prefix.1 hpre), fun _ _ => Nat.zero_le _⟩
    · obtain ⟨pos, hfind, rfl⟩ := Option.map_eq_some_iff.1 h
      obtain ⟨hocc, hfirst⟩ := find_some hfind
      refine ⟨occurs_succ.2 hocc, fun pos' hocc' => ?_⟩
      rcases pos' with _ | pos'
      · exact absurd (List.isPrefixOf_iff_prefix.2 (occurs_zero.1 hocc')) hpre
      · exact Nat.succ_le_succ (hfirst pos' (occurs_succ.1 hocc'))

/-- The leftmost occurrence of a special token, and the longest there. -/
structure IsNext (specials : List (List Char)) (text : List Char) (st : List Char) (pos : ℕ) :
    Prop where
  mem : st ∈ specials
  occurs : Occurs st pos text
  best : ∀ st' ∈ specials, ∀ pos', Occurs st' pos' text →
    pos < pos' ∨ pos = pos' ∧ Utf8.size st' ≤ Utf8.size st

theorem size_append_eq {s t : List Char} (h : Utf8.size (s ++ t) ≤ Utf8.size s) : t = [] := by
  by_contra ht
  have := Utf8.size_pos ht
  rw [Utf8.size_append] at h
  omega

theorem IsNext.unique {specials : List (List Char)} {text st st' : List Char} {pos pos' : ℕ}
    (h : IsNext specials text st pos) (h' : IsNext specials text st' pos') :
    st = st' ∧ pos = pos' := by
  have hle := h.best st' h'.mem pos' h'.occurs
  have hge := h'.best st h.mem pos h.occurs
  obtain rfl : pos = pos' := by omega
  refine ⟨?_, rfl⟩
  obtain ⟨before, after, htext, hlen⟩ := h.occurs
  obtain ⟨before', after', htext', hlen'⟩ := h'.occurs
  obtain ⟨rfl, htail⟩ := append_inj (htext.symm.trans htext') (hlen.trans hlen'.symm)
  rcases append_eq_append_iff.1 htail with ⟨t, rfl, _⟩ | ⟨t, rfl, _⟩
  · rw [size_append_eq (s := st) (t := t) (by omega), append_nil]
  · rw [size_append_eq (s := st') (t := t) (by omega), append_nil]

structure Best (seen : List (List Char)) (text : List Char) (found : Option (List Char × ℕ)) :
    Prop where
  absent : found = none → ∀ st ∈ seen, ∀ pos, ¬Occurs st pos text
  next : ∀ st pos, found = some (st, pos) → IsNext seen text st pos

theorem Best.step {seen : List (List Char)} {text : List Char} {found : Option (List Char × ℕ)}
    (h : Best seen text found) (st : List Char) :
    Best (seen ++ [st]) text (better text found st) := by
  have hmem : ∀ st', st' ∈ seen ++ [st] ↔ st' ∈ seen ∨ st' = st := by simp
  rcases hfind : find st text with _ | pos
  · -- a token that is not there changes nothing
    have habsent := find_none hfind
    have hsame : better text found st = found := by rw [better, hfind]
    rw [hsame]
    refine ⟨fun hf st' hst' => ?_, fun cur curPos hf => ?_⟩
    · rcases (hmem st').1 hst' with hst' | rfl
      · exact h.absent hf st' hst'
      · exact habsent
    · have hcur := h.next cur curPos hf
      refine ⟨(hmem cur).2 (.inl hcur.mem), hcur.occurs, fun st' hst' pos' hocc => ?_⟩
      rcases (hmem st').1 hst' with hst' | rfl
      · exact hcur.best st' hst' pos' hocc
      · exact absurd hocc (habsent pos')
  · obtain ⟨hocc, hfirst⟩ := find_some hfind
    rcases found with _ | ⟨cur, curPos⟩
    · have hnew : better text none st = some (st, pos) := by rw [better, hfind]
      rw [hnew]
      refine ⟨by simp, fun st' pos' heq => ?_⟩
      obtain ⟨rfl, rfl⟩ := Prod.mk.inj (Option.some.inj heq)
      refine ⟨(hmem _).2 (.inr rfl), hocc, fun st' hst' pos' hocc' => ?_⟩
      rcases (hmem st').1 hst' with hst' | rfl
      · exact absurd hocc' (h.absent rfl st' hst' pos')
      · have := hfirst pos' hocc'
        omega
    · have hcur := h.next cur curPos rfl
      by_cases hbetter : pos < curPos ∨ pos = curPos ∧ Utf8.size cur < Utf8.size st
      · have hnew : better text (some (cur, curPos)) st = some (st, pos) := by
          rw [better, hfind]
          exact if_pos hbetter
        rw [hnew]
        refine ⟨by simp, fun st' pos' heq => ?_⟩
        obtain ⟨rfl, rfl⟩ := Prod.mk.inj (Option.some.inj heq)
        refine ⟨(hmem _).2 (.inr rfl), hocc, fun st' hst' pos' hocc' => ?_⟩
        rcases (hmem st').1 hst' with hst' | rfl
        · have := hcur.best st' hst' pos' hocc'
          omega
        · have := hfirst pos' hocc'
          omega
      · have hsame : better text (some (cur, curPos)) st = some (cur, curPos) := by
          rw [better, hfind]
          exact if_neg hbetter
        rw [hsame]
        refine ⟨by simp, fun st' pos' heq => ?_⟩
        obtain ⟨rfl, rfl⟩ := Prod.mk.inj (Option.some.inj heq)
        refine ⟨(hmem _).2 (.inl hcur.mem), hcur.occurs, fun st' hst' pos' hocc' => ?_⟩
        rcases (hmem st').1 hst' with hst' | rfl
        · exact hcur.best st' hst' pos' hocc'
        · have := hfirst pos' hocc'
          omega

theorem Best.foldl {text : List Char} : ∀ (specials : List (List Char)) {seen : List (List Char)}
    {found : Option (List Char × ℕ)}, Best seen text found →
      Best (seen ++ specials) text (specials.foldl (better text) found)
  | [], seen, found, h => by simpa using h
  | st :: specials, seen, found, h => by
    have := Best.foldl specials (h.step st)
    rwa [append_assoc, singleton_append] at this

theorem findSpecial_best (specials : List (List Char)) (text : List Char) :
    Best specials text (findSpecial specials text) := by
  have hstart : Best [] text none := ⟨by simp, by simp⟩
  exact hstart.foldl specials

theorem findSpecial_eq_none {specials : List (List Char)} {text : List Char} :
    findSpecial specials text = none ↔ ∀ st ∈ specials, ∀ pos, ¬Occurs st pos text := by
  refine ⟨(findSpecial_best specials text).absent, fun h => ?_⟩
  rcases hfound : findSpecial specials text with _ | ⟨st, pos⟩
  · rfl
  · have hnext := (findSpecial_best specials text).next st pos hfound
    exact absurd hnext.occurs (h st hnext.mem pos)

theorem findSpecial_eq_some {specials : List (List Char)} {text st : List Char} {pos : ℕ} :
    findSpecial specials text = some (st, pos) ↔ IsNext specials text st pos := by
  refine ⟨(findSpecial_best specials text).next st pos, fun h => ?_⟩
  rcases hfound : findSpecial specials text with _ | ⟨st', pos'⟩
  · exact absurd h.occurs (findSpecial_eq_none.1 hfound st h.mem pos)
  · obtain ⟨rfl, rfl⟩ := h.unique ((findSpecial_best specials text).next st' pos' hfound)
    rfl

def Segment.spell : Segment → List Char
  | .text s => s
  | .special st => st

theorem spell_textSegment (s : List Char) : (textSegment s).flatMap Segment.spell = s := by
  rw [textSegment]
  split_ifs with hs
  · exact hs.symm
  · simp [Segment.spell]

variable {specials : List (List Char)}

theorem IsNext.split {text st : List Char} {pos : ℕ} (h : IsNext specials text st pos) :
    text = text.take pos ++ (st ++ text.drop (pos + st.length)) := by
  obtain ⟨before, after, rfl, rfl⟩ := h.occurs
  rw [take_left, ← drop_drop, drop_left, drop_left]

theorem splitAux_cases {n : ℕ} {rest : List Char} {segs : List Segment}
    (h : splitAux specials (n + 1) rest = some segs) :
    findSpecial specials rest = none ∧ segs = textSegment rest ∨
      ∃ st pos segs', IsNext specials rest st pos ∧
        splitAux specials n (rest.drop (pos + st.length)) = some segs' ∧
          segs = textSegment (rest.take pos) ++ .special st :: segs' := by
  rw [splitAux] at h
  rcases hfound : findSpecial specials rest with _ | ⟨st, pos⟩
  · rw [hfound] at h
    exact .inl ⟨rfl, (Option.some.inj h).symm⟩
  · rw [hfound] at h
    obtain ⟨segs', hrest, rfl⟩ := Option.map_eq_some_iff.1 h
    exact .inr ⟨st, pos, segs', findSpecial_eq_some.1 hfound, hrest, rfl⟩

theorem splitAux_none {n : ℕ} {rest : List Char} (h : findSpecial specials rest = none) :
    splitAux specials (n + 1) rest = some (textSegment rest) := by rw [splitAux, h]

theorem splitAux_next {n : ℕ} {rest st : List Char} {pos : ℕ} {segs : List Segment}
    (h : IsNext specials rest st pos)
    (hrest : splitAux specials n (rest.drop (pos + st.length)) = some segs) :
    splitAux specials (n + 1) rest = some (textSegment (rest.take pos) ++ .special st :: segs) := by
  rw [splitAux, findSpecial_eq_some.2 h]
  simp only [hrest, Option.map_some]

theorem spell_splitAux : ∀ {n : ℕ} {rest : List Char} {segs : List Segment},
    splitAux specials n rest = some segs → segs.flatMap Segment.spell = rest
  | 0, _, _, h => by simp [splitAux] at h
  | n + 1, rest, segs, h => by
    rcases splitAux_cases h with ⟨_, rfl⟩ | ⟨st, pos, segs', hnext, hrest, rfl⟩
    · exact spell_textSegment rest
    · rw [flatMap_append, spell_textSegment, flatMap_cons, spell_splitAux hrest,
        Segment.spell]
      exact hnext.split.symm

theorem spell_splitSpecials {text : List Char} {segs : List Segment}
    (h : splitSpecials specials text = some segs) : segs.flatMap Segment.spell = text :=
  spell_splitAux h

theorem mem_of_splitAux : ∀ {n : ℕ} {rest st : List Char} {segs : List Segment},
    splitAux specials n rest = some segs → .special st ∈ segs → st ∈ specials
  | 0, _, _, _, h, _ => by simp [splitAux] at h
  | n + 1, rest, st, segs, h, hst => by
    have htext : ∀ s, .special st ∉ textSegment s := fun s => by
      rw [textSegment]
      split_ifs <;> simp
    rcases splitAux_cases h with ⟨_, rfl⟩ | ⟨st', pos, segs', hnext, hrest, rfl⟩
    · exact absurd hst (htext rest)
    · rcases mem_append.1 hst with hst | hst
      · exact absurd hst (htext _)
      · rcases mem_cons.1 hst with heq | hst
        · obtain rfl := Segment.special.inj heq
          exact hnext.mem
        · exact mem_of_splitAux hrest hst

theorem splitAux_of_nil_mem (h : [] ∈ specials) : ∀ n rest, splitAux specials n rest = none
  | 0, _ => rfl
  | n + 1, rest => by
    rw [splitAux]
    rcases hfound : findSpecial specials rest with _ | ⟨st, pos⟩
    · exact absurd (occurs_zero.2 nil_prefix) (findSpecial_eq_none.1 hfound [] h 0)
    · simp only [splitAux_of_nil_mem h n, Option.map_none]

theorem splitAux_isSome (h : [] ∉ specials) : ∀ {n : ℕ} {rest : List Char}, rest.length < n →
    ∃ segs, splitAux specials n rest = some segs
  | 0, _, hlt => absurd hlt (Nat.not_lt_zero _)
  | n + 1, rest, hlt => by
    rcases hfound : findSpecial specials rest with _ | ⟨st, pos⟩
    · exact ⟨_, splitAux_none hfound⟩
    · have hnext := findSpecial_eq_some.1 hfound
      have hpos : 0 < st.length := length_pos_of_ne_nil fun hnil => h (hnil ▸ hnext.mem)
      have hle := hnext.occurs.le
      have hshort : (rest.drop (pos + st.length)).length < n := by
        rw [length_drop]
        omega
      obtain ⟨segs, hrest⟩ := splitAux_isSome h hshort
      exact ⟨_, splitAux_next hnext hrest⟩

theorem splitSpecials_isSome_iff {text : List Char} :
    (∃ segs, splitSpecials specials text = some segs) ↔ [] ∉ specials := by
  refine ⟨?_, fun h => splitAux_isSome h (Nat.lt_succ_self _)⟩
  rintro ⟨segs, h⟩ hnil
  rw [splitSpecials, splitAux_of_nil_mem hnil] at h
  simp at h

end Grim.Tokenizer
