import Grim.Tokenizer.Special

/-!
# Cutting a text between its pieces

A text is parted at its special tokens and the rest cut into pieces.  Where a cut comes after a
special token, or after a piece that the cutter can be cut after, the pieces on its two sides are
those of the two texts.
-/

namespace Grim.Tokenizer

open Chop List

variable {specials : List (List Char)}

inductive Splits (specials : List (List Char)) : List Char → List Segment → Prop
  | last {rest : List Char} (h : ∀ st ∈ specials, ∀ pos, ¬Occurs st pos rest) :
      Splits specials rest (textSegment rest)
  | next {before st after : List Char} {segs : List Segment}
      (h : IsNext specials (before ++ (st ++ after)) st before.length)
      (hafter : Splits specials after segs) :
      Splits specials (before ++ (st ++ after)) (textSegment before ++ .special st :: segs)

theorem splits_of_splitAux : ∀ {n : ℕ} {rest : List Char} {segs : List Segment},
    splitAux specials n rest = some segs → Splits specials rest segs
  | 0, _, _, h => by simp [splitAux] at h
  | n + 1, rest, segs, h => by
    rcases splitAux_cases h with ⟨hnone, rfl⟩ | ⟨st, pos, segs', hnext, hrest, rfl⟩
    · exact .last (findSpecial_eq_none.1 hnone)
    · have hsplit := hnext.split
      have hpos : (rest.take pos).length = pos := by
        have := hnext.occurs.le
        rw [length_take]
        omega
      have hnext' : IsNext specials (rest.take pos ++ (st ++ rest.drop (pos + st.length))) st
          (rest.take pos).length := by rwa [← hsplit, hpos]
      have := Splits.next hnext' (splits_of_splitAux hrest)
      rwa [← hsplit] at this

theorem Splits.unique {rest : List Char} {segs segs' : List Segment} (h : Splits specials rest segs)
    (h' : Splits specials rest segs') : segs = segs' := by
  induction h generalizing segs' with
  | last hnone =>
    cases h' with
    | last _ => rfl
    | next hnext _ => exact absurd hnext.occurs (hnone _ hnext.mem _)
  | @next before st after segs hnext hafter ih =>
    generalize htext : before ++ (st ++ after) = text at hnext h'
    cases h' with
    | last hnone => exact absurd hnext.occurs (hnone _ hnext.mem _)
    | @next before' st' after' _ hnext' hafter' =>
      obtain ⟨rfl, hlen⟩ := hnext.unique hnext'
      obtain ⟨rfl, htail⟩ := append_inj htext hlen
      rw [ih (append_cancel_left htail ▸ hafter')]

theorem splitSpecials_eq_some (hnil : [] ∉ specials) {text : List Char} {segs : List Segment} :
    splitSpecials specials text = some segs ↔ Splits specials text segs := by
  refine ⟨splits_of_splitAux, fun h => ?_⟩
  have hsome : ∃ segs', splitSpecials specials text = some segs' :=
    splitSpecials_isSome_iff.2 hnil
  obtain ⟨segs', hsegs⟩ := hsome
  rw [hsegs, h.unique (splits_of_splitAux hsegs)]

theorem text_ne_nil {text : List Char} {segs : List Segment} (h : Splits specials text segs) :
    ∀ s, .text s ∈ segs → s ≠ [] := by
  have htext : ∀ s t, Segment.text s ∈ textSegment t → s ≠ [] := fun s t hs => by
    rw [textSegment] at hs
    split_ifs at hs with ht
    · simp at hs
    · obtain rfl : s = t := by simpa using hs
      exact ht
  induction h with
  | last _ => exact fun s hs => htext s _ hs
  | next _ _ ih =>
    intro s hs
    rcases mem_append.1 hs with hs | hs
    · exact htext s _ hs
    · exact ih s (by simpa using hs)

theorem Occurs.append {st l : List Char} {pos : ℕ} (h : Occurs st pos l) (r : List Char) :
    Occurs st pos (l ++ r) := by
  obtain ⟨before, after, rfl, hpos⟩ := h
  exact ⟨before, after ++ r, by simp, hpos⟩

theorem Occurs.append_left {st r : List Char} {pos : ℕ} (h : Occurs st pos r) (l : List Char) :
    Occurs st (l.length + pos) (l ++ r) := by
  obtain ⟨before, after, rfl, rfl⟩ := h
  exact ⟨l ++ before, after, by simp, by simp⟩

theorem IsNext.start {l r st : List Char} {pos : ℕ} (h : IsNext specials (l ++ r) st pos)
    (hocc : Occurs st pos l) : IsNext specials l st pos :=
  ⟨h.mem, hocc, fun st' hst' pos' hocc' => h.best st' hst' pos' (hocc'.append r)⟩

theorem IsNext.none_before {l r st : List Char} {pos : ℕ} (hnil : [] ∉ specials)
    (h : IsNext specials (l ++ r) st pos) (hle : l.length ≤ pos) :
    ∀ st' ∈ specials, ∀ pos', ¬Occurs st' pos' l := by
  intro st' hst' pos' hocc
  have hbest := h.best st' hst' pos' (hocc.append r)
  have hpos : 0 < st'.length := length_pos_of_ne_nil fun heq => hnil (heq ▸ hst')
  have := hocc.le
  omega

theorem IsNext.rest {l before st after : List Char}
    (h : IsNext specials (l ++ (before ++ (st ++ after))) st (l ++ before).length) :
    IsNext specials (before ++ (st ++ after)) st before.length := by
  refine ⟨h.mem, ⟨before, after, rfl, rfl⟩, fun st' hst' pos' hocc => ?_⟩
  have hbest := h.best st' hst' _ (hocc.append_left l)
  rw [length_append] at hbest
  omega

variable (k : Cutter Char)

def piecesOf : Segment → List Segment
  | .text s => (k.pieces s).map .text
  | .special st => [.special st]

def units (specials : List (List Char)) (text : List Char) : Option (List Segment) :=
  (splitSpecials specials text).map fun segs => segs.flatMap (piecesOf k)

/-- The last pieces are such that a cut after them changes them. -/
def Bad (us : List Segment) : Prop := ∃ before ps, us = before ++ ps.map .text ∧ k.bad ps

variable {k}

theorem Bad.append {us : List Segment} (h : Bad k us) (vs : List Segment) : Bad k (vs ++ us) := by
  obtain ⟨before, ps, rfl, hbad⟩ := h
  exact ⟨vs ++ before, ps, by simp, hbad⟩

theorem pieces_textSegment (s : List Char) :
    (textSegment s).flatMap (piecesOf k) = (k.pieces s).map Segment.text := by
  rw [textSegment]
  split_ifs with hs
  · rw [hs]
    rfl
  · simp [piecesOf]

theorem spell_map_text (ps : List (List Char)) :
    (ps.map Segment.text).flatMap Segment.spell = ps.flatten := by
  rw [flatMap_map, flatMap_def]
  exact congrArg List.flatten (map_id ps)

theorem cut_pieces {A B : List Segment} {l r s : List Char} (hs : s = l ++ r)
    (h : (k.pieces s).map Segment.text = A ++ B) (hspell : A.flatMap Segment.spell = l)
    (hgood : ¬Bad k A) :
    (k.pieces l).map Segment.text = A ∧ (k.pieces r).map Segment.text = B := by
  obtain ⟨us, vs, hpieces, rfl, rfl⟩ := map_eq_append_iff.1 h
  rw [spell_map_text] at hspell
  subst hspell hs
  obtain ⟨hl, hr⟩ := k.cut hpieces fun hbad => hgood ⟨[], us, rfl, hbad⟩
  rw [hl, hr]
  exact ⟨rfl, rfl⟩

theorem Splits.cut (hnil : [] ∉ specials) {text : List Char} {segs : List Segment}
    (h : Splits specials text segs) : ∀ {l r : List Char} {A B : List Segment}, text = l ++ r →
      segs.flatMap (piecesOf k) = A ++ B → A.flatMap Segment.spell = l → ¬Bad k A →
      ∃ segsL segsR, Splits specials l segsL ∧ segsL.flatMap (piecesOf k) = A ∧
        Splits specials r segsR ∧ segsR.flatMap (piecesOf k) = B := by
  induction h with
  | @last rest hnone =>
    rintro l r A B rfl hunits hspell hgood
    rw [pieces_textSegment] at hunits
    obtain ⟨hA, hB⟩ := cut_pieces rfl hunits hspell hgood
    refine ⟨textSegment l, textSegment r, .last fun st hst pos hocc => ?_,
      (pieces_textSegment l).trans hA, .last fun st hst pos hocc => ?_,
      (pieces_textSegment r).trans hB⟩
    · exact hnone st hst pos (hocc.append r)
    · exact hnone st hst _ (hocc.append_left l)
  | @next before st after segs hnext hafter ih =>
    rintro l r A B htext hunits hspell hgood
    rw [flatMap_append, pieces_textSegment, flatMap_cons, piecesOf,
      singleton_append] at hunits
    have hcut : ∀ P', (k.pieces before).map Segment.text = A ++ P' →
        B = P' ++ .special st :: segs.flatMap (piecesOf k) →
        ∃ segsL segsR, Splits specials l segsL ∧ segsL.flatMap (piecesOf k) = A ∧
          Splits specials r segsR ∧ segsR.flatMap (piecesOf k) = B := by
      rintro P' hP rfl
      have hbefore : before = l ++ P'.flatMap Segment.spell := by
        rw [← hspell, ← flatMap_append, ← hP, spell_map_text, Cutter.flatten_pieces]
      obtain ⟨hA, hP'⟩ := cut_pieces hbefore hP hspell hgood
      have hr : r = P'.flatMap Segment.spell ++ (st ++ after) := by
        rw [hbefore, append_assoc] at htext
        exact (append_cancel_left htext).symm
      rw [htext] at hnext
      refine ⟨textSegment l, textSegment (P'.flatMap Segment.spell) ++ .special st :: segs,
        .last (hnext.none_before hnil ?_), (pieces_textSegment l).trans hA, ?_, ?_⟩
      · rw [hbefore, length_append]
        omega
      · rw [hr]
        refine .next (IsNext.rest (l := l) ?_) hafter
        rwa [← hbefore, ← hr]
      · rw [flatMap_append, pieces_textSegment, hP', flatMap_cons, piecesOf,
          singleton_append]
    rcases append_eq_append_iff.1 hunits with ⟨A', rfl, hrest⟩ | ⟨P', hP, hB⟩
    · rcases cons_eq_append_iff.1 hrest with ⟨rfl, hB⟩ | ⟨A'', rfl, hU⟩
      · exact hcut [] (by simp) hB
      · -- the cut comes after the special token
        rw [flatMap_append, spell_map_text, Cutter.flatten_pieces, flatMap_cons,
          Segment.spell] at hspell
        subst hspell
        have hr : after = A''.flatMap Segment.spell ++ r := by simpa using htext
        obtain ⟨segsL, segsR, hL, hpiecesL, hR, hpiecesR⟩ := ih hr hU rfl fun hbad =>
          hgood (by rw [append_cons]; exact hbad.append _)
        rw [htext] at hnext
        refine ⟨textSegment before ++ .special st :: segsL, segsR,
          .next (hnext.start ⟨before, _, rfl, rfl⟩) hL, ?_, hR, hpiecesR⟩
        rw [flatMap_append, pieces_textSegment, flatMap_cons, piecesOf, hpiecesL,
          singleton_append]
    · exact hcut P' hP hB

theorem units_append (hnil : [] ∉ specials) {l r : List Char} {A B : List Segment}
    (h : units k specials (l ++ r) = some (A ++ B)) (hspell : A.flatMap Segment.spell = l)
    (hgood : ¬Bad k A) : units k specials l = some A ∧ units k specials r = some B := by
  obtain ⟨segs, hsegs, hunits⟩ := Option.map_eq_some_iff.1 h
  obtain ⟨segsL, segsR, hL, rfl, hR, rfl⟩ :=
    ((splitSpecials_eq_some hnil).1 hsegs).cut hnil rfl hunits hspell hgood
  rw [units, units, (splitSpecials_eq_some hnil).2 hL, (splitSpecials_eq_some hnil).2 hR]
  exact ⟨rfl, rfl⟩

theorem units_nil (hnil : [] ∉ specials) : units k specials [] = some [] := by
  have hsplits : Splits specials [] (textSegment []) := .last fun st hst pos hocc => by
    have hpos : 0 < st.length := length_pos_of_ne_nil fun heq => hnil (heq ▸ hst)
    have := hocc.le
    rw [length_nil] at this
    omega
  rw [units, (splitSpecials_eq_some hnil).2 hsplits]
  rfl

/-- Each cut between two of the parts comes after whole pieces of `us`. -/
def CutsBetween (k : Cutter Char) (parts : List (List Char)) (us : List Segment) : Prop :=
  ∀ pre suf, parts = pre ++ suf → pre ≠ [] → suf ≠ [] →
    ∃ A B, us = A ++ B ∧ A.flatMap Segment.spell = pre.flatten ∧ ¬Bad k A

theorem CutsBetween.tail {part : List Char} {parts : List (List Char)} {A B : List Segment}
    (h : CutsBetween k (part :: parts) (A ++ B)) (hne : ∀ p ∈ parts, p ≠ [])
    (hA : A.flatMap Segment.spell = part) : CutsBetween k parts B := by
  rintro pre suf rfl hpre hsuf
  obtain ⟨A', B', heq, hspell, hgood⟩ := h (part :: pre) suf rfl (by simp) hsuf
  rw [flatten_cons] at hspell
  rcases append_eq_append_iff.1 heq with ⟨A'', rfl, rfl⟩ | ⟨D, rfl, rfl⟩
  · rw [flatMap_append, hA] at hspell
    exact ⟨A'', B', rfl, append_cancel_left hspell, fun hbad => hgood (hbad.append A)⟩
  · -- the later cut cannot come first: there is something between the two
    rcases pre with _ | ⟨p, pre⟩
    · exact absurd rfl hpre
    · have hp := length_pos_of_ne_nil (hne p (by simp))
      have hlen := congrArg List.length hA
      rw [flatMap_append, hspell] at hlen
      simp only [flatten_cons, length_append] at hlen
      omega

theorem units_parts (hnil : [] ∉ specials) : ∀ {parts : List (List Char)} {us : List Segment},
    (∀ p ∈ parts, p ≠ []) → units k specials parts.flatten = some us → CutsBetween k parts us →
      ∃ uss, parts.mapM (units k specials) = some uss ∧ uss.flatten = us
  | [], us, _, hunits, _ => by
    rw [flatten_nil, units_nil hnil] at hunits
    exact ⟨[], rfl, Option.some.inj hunits⟩
  | [part], us, _, hunits, _ => by
    rw [flatten_singleton] at hunits
    exact ⟨[us], by simp [hunits], by simp⟩
  | part :: part' :: parts, us, hne, hunits, hcuts => by
    obtain ⟨A, B, rfl, hspell, hgood⟩ := hcuts [part] (part' :: parts) rfl (by simp) (by simp)
    rw [flatten_singleton] at hspell
    rw [flatten_cons] at hunits
    obtain ⟨hA, hB⟩ := units_append hnil hunits hspell hgood
    have hne' : ∀ p ∈ part' :: parts, p ≠ [] := fun p hp => hne p (mem_cons_of_mem part hp)
    obtain ⟨uss, hrest, rfl⟩ := units_parts hnil hne' hB (hcuts.tail hne' hspell)
    exact ⟨A :: uss, by simp only [mapM_cons, hA, hrest]; rfl, rfl⟩

end Grim.Tokenizer
