import Grim.Lib.Text

/-!
# Sentences

A text is cut behind its sentence ends, and a sentence of more than 500 characters is chopped
between its words.  Nothing but white space is lost (`visible_segmentSentences`), and the sentences
are short exactly if the runs of the text are (`ShortRuns`).
-/

namespace Grim.Compress

open Text Words List

def isSentenceEnd (c : Char) : Bool :=
  c ∈ ['.', '!', '?', '。', '！', '？', '؛', '।', '…']

/-- Check if a character is CJK full-width punctuation (always a boundary). -/
def isCjkPunct (c : Char) : Bool := c ∈ ['。', '！', '？', '；', '、']

def splitWhitespace (s : List Char) : List (List Char) := words isWhitespace s

/-- The chunks of the words still to come, of which `current` is begun. -/
def chopFrom (maxChars : ℕ) (current : List Char) : List (List Char) → List (List Char)
  | [] => if current ≠ [] then [trim current] else []
  | word :: words =>
    if maxChars < current.length + word.length + 1 ∧ current ≠ [] then
      trim current :: chopFrom maxChars word words
    else
      let current := if current ≠ [] then current ++ [' '] else current
      chopFrom maxChars (current ++ word) words

/-- Chop a long sentence into ~500-char chunks at word boundaries. -/
def chopSentence (s : List Char) (maxChars : ℕ) : List (List Char) :=
  chopFrom maxChars [] (splitWhitespace s)

def pushSentence (current : List Char) : List (List Char) :=
  let trimmed := trim current
  if trimmed ≠ [] then
    if 500 < trimmed.length then chopSentence trimmed 500 else [trimmed]
  else []

/-- A sentence end is a boundary in front of white space or at the end, if it is not CJK. -/
def isBoundary (c : Char) (rest : List Char) : Bool :=
  if isCjkPunct c then true
  else match rest with
    | [] => true
    | next :: _ => isWhitespace next

def segmentFrom (current : List Char) : List Char → List (List Char)
  | [] => pushSentence current
  | c :: rest =>
    let current := current ++ [c]
    if isSentenceEnd c && isBoundary c rest then pushSentence current ++ segmentFrom [] rest
    else segmentFrom current rest

def segmentSentences (text : List Char) : List (List Char) :=
  let sentences := segmentFrom [] text
  if sentences = [] ∧ trim text ≠ [] then [trim text] else sentences

theorem isBoundary_of_isCjkPunct {c : Char} (h : isCjkPunct c) (rest : List Char) :
    isBoundary c rest := by
  unfold isBoundary
  rw [if_pos h]

theorem isBoundary_cons {c : Char} (h : ¬isCjkPunct c) (next : Char) (rest : List Char) :
    isBoundary c (next :: rest) = isWhitespace next := if_neg h

variable {s u current text : List Char} {maxChars : ℕ}

theorem visible_trim (s : List Char) :
    visible isWhitespace (trim s) = visible isWhitespace s := by
  obtain ⟨before, behind, hs, hbefore, hbehind⟩ := exists_trim s
  conv_rhs => rw [hs, visible_append, visible_append, visible_of_white hbefore,
    visible_of_white hbehind, nil_append, append_nil]

theorem words_trim (s : List Char) : words isWhitespace (trim s) = words isWhitespace s := by
  obtain ⟨before, behind, hs, hbefore, hbehind⟩ := exists_trim s
  conv_rhs => rw [hs, words_white_append hbefore, words_append_white hbehind]

def Solid (u : List Char) : Prop := u ≠ [] ∧ ∀ c ∈ u, ¬isWhitespace c

theorem Solid.trim (hu : Solid u) (h : u <:+: s) : u <:+: trim s := by
  obtain ⟨v, hv, hpart⟩ := exists_mem_words hu.1 hu.2 h
  rw [← words_trim] at hv
  exact hpart.trans (mem_words hv).2.2

theorem visible_chopFrom : ∀ (ws : List (List Char)) (current : List Char),
    visible isWhitespace (chopFrom maxChars current ws).flatten =
      visible isWhitespace current ++ visible isWhitespace ws.flatten
  | [], current => by
    rw [chopFrom]
    split_ifs with h
    · rw [flatten_singleton, visible_trim]
      exact (append_nil _).symm
    · rw [not_not.1 h]
      rfl
  | word :: ws, current => by
    have hspace : visible isWhitespace [' '] = [] := by decide
    rw [chopFrom, flatten_cons, visible_append]
    split_ifs with hfull hcurrent
    · rw [flatten_cons, visible_append, visible_trim, visible_chopFrom ws]
    · rw [visible_chopFrom ws, visible_append, visible_append, hspace, append_nil,
        append_assoc]
    · rw [visible_chopFrom ws, visible_append, append_assoc]

theorem visible_chopSentence (s : List Char) (maxChars : ℕ) :
    visible isWhitespace (chopSentence s maxChars).flatten = visible isWhitespace s := by
  have hwords : visible isWhitespace (visible isWhitespace s) = visible isWhitespace s := by
    simp only [visible, filter_filter, Bool.and_self]
  rw [chopSentence, visible_chopFrom, splitWhitespace, flatten_words, hwords]
  rfl

theorem chopFrom_le : ∀ {ws : List (List Char)} {current : List Char}, current.length ≤ maxChars →
    (∀ w ∈ ws, w.length ≤ maxChars) → ∀ chunk ∈ chopFrom maxChars current ws,
      chunk.length ≤ maxChars
  | [], current, hcurrent, _, chunk, hchunk => by
    rw [chopFrom] at hchunk
    split_ifs at hchunk
    · obtain rfl := mem_singleton.1 hchunk
      exact (length_trim_le current).trans hcurrent
    · exact absurd hchunk not_mem_nil
  | word :: ws, current, hcurrent, hws, chunk, hchunk => by
    obtain ⟨hword, hws⟩ := forall_mem_cons.1 hws
    rw [chopFrom] at hchunk
    split_ifs at hchunk with hfull hne
    · rcases mem_cons.1 hchunk with rfl | hchunk
      · exact (length_trim_le current).trans hcurrent
      · exact chopFrom_le hword hws chunk hchunk
    · refine chopFrom_le ?_ hws chunk hchunk
      rw [not_and_or] at hfull
      have hroom := not_lt.1 (hfull.resolve_right (not_not.2 hne))
      rw [length_append, length_append, length_singleton]
      omega
    · refine chopFrom_le ?_ hws chunk hchunk
      rw [not_not.1 hne]
      exact hword

theorem exists_chopFrom (hu : Solid u) : ∀ (ws : List (List Char)) (current : List Char),
    (u <:+: current ∨ ∃ w ∈ ws, u <:+: w) → ∃ chunk ∈ chopFrom maxChars current ws, u <:+: chunk
  | [], current, h => by
    have hcurrent := h.resolve_right fun ⟨w, hw, _⟩ => not_mem_nil hw
    rw [chopFrom, if_pos (hcurrent.ne_nil hu.1)]
    exact ⟨_, mem_singleton_self _, hu.trim hcurrent⟩
  | word :: ws, current, h => by
    rw [chopFrom]
    split_ifs with hfull hne
    · rcases h with h | ⟨w, hw, h⟩
      · exact ⟨_, mem_cons_self, hu.trim h⟩
      · obtain ⟨chunk, hchunk, hpart⟩ := exists_chopFrom hu ws word
          ((mem_cons.1 hw).imp (fun heq => by rwa [← heq]) fun hw => ⟨w, hw, h⟩)
        exact ⟨chunk, mem_cons_of_mem _ hchunk, hpart⟩
    · refine exists_chopFrom hu ws _ ?_
      rcases h with h | ⟨w, hw, h⟩
      · exact .inl ((h.trans infix_append_left).trans infix_append_left)
      · rcases mem_cons.1 hw with rfl | hw
        · exact .inl (h.trans infix_append_right)
        · exact .inr ⟨w, hw, h⟩
    · refine exists_chopFrom hu ws _ ?_
      rcases h with h | ⟨w, hw, h⟩
      · exact .inl (h.trans infix_append_left)
      · rcases mem_cons.1 hw with rfl | hw
        · exact .inl (h.trans infix_append_right)
        · exact .inr ⟨w, hw, h⟩

theorem visible_pushSentence (current : List Char) :
    visible isWhitespace (pushSentence current).flatten = visible isWhitespace current := by
  rw [← visible_trim current, pushSentence]
  split_ifs with hne hlong
  · exact visible_chopSentence (trim current) 500
  · rw [flatten_singleton]
  · rw [not_not.1 hne]
    rfl

theorem pushSentence_le (h : ∀ w ∈ words isWhitespace current, w.length ≤ 500) :
    ∀ sentence ∈ pushSentence current, sentence.length ≤ 500 := by
  intro sentence hsentence
  rw [pushSentence] at hsentence
  split_ifs at hsentence with hne hlong
  · rw [chopSentence, splitWhitespace, words_trim] at hsentence
    exact chopFrom_le (Nat.zero_le 500) h sentence hsentence
  · obtain rfl := mem_singleton.1 hsentence
    exact not_lt.1 hlong
  · exact absurd hsentence not_mem_nil

theorem exists_pushSentence (hu : Solid u) (h : u <:+: current) :
    ∃ sentence ∈ pushSentence current, u <:+: sentence := by
  have htrim := hu.trim h
  rw [pushSentence, if_pos (htrim.ne_nil hu.1)]
  split_ifs with hlong
  · exact exists_chopFrom hu _ [] (.inr (exists_mem_words hu.1 hu.2 htrim))
  · exact ⟨trim current, mem_singleton_self _, htrim⟩

theorem visible_segmentFrom : ∀ (rest current : List Char),
    visible isWhitespace (segmentFrom current rest).flatten =
      visible isWhitespace current ++ visible isWhitespace rest
  | [], current => by
    rw [segmentFrom, visible_pushSentence]
    exact (append_nil _).symm
  | c :: rest, current => by
    have hcons : visible isWhitespace current ++ visible isWhitespace (c :: rest) =
        visible isWhitespace (current ++ [c]) ++ visible isWhitespace rest := by
      rw [← visible_append, ← visible_append, append_assoc, singleton_append]
    rw [segmentFrom, hcons]
    split_ifs with hboundary
    · rw [flatten_append, visible_append, visible_pushSentence, visible_segmentFrom rest]
      rfl
    · exact visible_segmentFrom rest (current ++ [c])

theorem segmentSentences_eq (text : List Char) :
    segmentSentences text = segmentFrom [] text := by
  refine if_neg fun ⟨hnil, htrim⟩ => htrim ?_
  have hvisible : [] = visible isWhitespace text := by
    rw [← nil_append (visible isWhitespace text)]
    exact (congrArg (fun ss => visible isWhitespace ss.flatten) hnil).symm.trans
      (visible_segmentFrom text [])
  exact trim_eq_nil_iff.2 fun c hc =>
    by_contra fun hneg => filter_eq_nil_iff.1 hvisible.symm c hc (by simp [hneg])

theorem not_isWhitespace_of_isSentenceEnd {c : Char} (h : isSentenceEnd c) :
    ¬isWhitespace c := by
  have hall : (['.', '!', '?', '。', '！', '？', '؛', '।', '…'].all (!isWhitespace ·)) = true := by
    decide
  have hc := all_eq_true.1 hall c (by simpa only [isSentenceEnd, decide_eq_true_eq] using h)
  simpa using hc

theorem segmentFrom_white : ∀ {rest current : List Char}, (∀ c ∈ current, isWhitespace c) →
    (∀ c ∈ rest, isWhitespace c) → segmentFrom current rest = []
  | [], current, hcurrent, _ => if_neg (not_not.2 (trim_eq_nil_iff.2 hcurrent))
  | c :: rest, current, hcurrent, hrest => by
    obtain ⟨hc, hrest⟩ := forall_mem_cons.1 hrest
    rw [segmentFrom]
    split_ifs with hboundary
    · rw [Bool.and_eq_true] at hboundary
      exact absurd hc (not_isWhitespace_of_isSentenceEnd hboundary.1)
    · exact segmentFrom_white (forall_mem_append.2
        ⟨hcurrent, forall_mem_singleton.2 hc⟩) hrest

theorem visible_segmentSentences (text : List Char) :
    visible isWhitespace (segmentSentences text).flatten = visible isWhitespace text := by
  rw [segmentSentences_eq, visible_segmentFrom]
  rfl

def AlwaysEnds (c : Char) : Prop := isSentenceEnd c ∧ isCjkPunct c

def ShortRuns (text : List Char) : Prop :=
  ∀ w, w <:+: text → (∀ c ∈ w, ¬isWhitespace c) → (∀ c ∈ w.dropLast, ¬AlwaysEnds c) →
    w.length ≤ 500

theorem ShortRuns.part (h : ShortRuns text) (hs : s <:+: text) : ShortRuns s :=
  fun w hw => h w (hw.trans hs)

theorem dropLast_infix_of_concat {c : Char} (h : u <:+: s ++ [c]) : u.dropLast <:+: s := by
  rcases infix_concat_iff.1 h with h | h
  · rcases suffix_concat_iff.1 h with rfl | ⟨t, rfl, ht⟩
    · exact nil_infix
    · rw [dropLast_concat]
      exact ht.isInfix
  · exact (List.dropLast_prefix u).isInfix.trans h

theorem ShortRuns.words_le {c : Char} (h : ShortRuns (current ++ [c]))
    (hcurrent : ∀ d ∈ current, ¬AlwaysEnds d) :
    ∀ w ∈ words isWhitespace (current ++ [c]), w.length ≤ 500 := by
  intro w hw
  obtain ⟨-, hsolid, hpart⟩ := mem_words hw
  exact h w hpart hsolid fun d hd => hcurrent d ((dropLast_infix_of_concat hpart).subset hd)

theorem segmentFrom_le : ∀ {rest current : List Char}, ShortRuns (current ++ rest) →
    (∀ c ∈ current, ¬AlwaysEnds c) → ∀ sentence ∈ segmentFrom current rest,
      sentence.length ≤ 500
  | [], current, h, hcurrent, sentence, hsentence => by
    rw [segmentFrom] at hsentence
    refine pushSentence_le (fun w hw => ?_) sentence hsentence
    obtain ⟨-, hsolid, hpart⟩ := mem_words hw
    rw [append_nil] at h
    exact h w hpart hsolid fun c hc =>
      hcurrent c (hpart.subset (dropLast_subset w hc))
  | c :: rest, current, h, hcurrent, sentence, hsentence => by
    have hsplit : current ++ c :: rest = (current ++ [c]) ++ rest := by
      rw [append_assoc, singleton_append]
    rw [hsplit] at h
    rw [segmentFrom] at hsentence
    split_ifs at hsentence with hboundary
    · rcases mem_append.1 hsentence with hsentence | hsentence
      · exact pushSentence_le ((h.part infix_append_left).words_le hcurrent) sentence
          hsentence
      · exact segmentFrom_le (h.part infix_append_right)
          (fun c hc => absurd hc not_mem_nil) sentence hsentence
    · refine segmentFrom_le h (forall_mem_append.2 ⟨hcurrent,
        forall_mem_singleton.2 fun ⟨hend, hcjk⟩ => hboundary ?_⟩) sentence hsentence
      rw [hend, isBoundary_of_isCjkPunct hcjk]
      rfl

theorem exists_segmentFrom (hu : Solid u) (hends : ∀ c ∈ u.dropLast, ¬AlwaysEnds c) :
    ∀ (rest current : List Char), u <:+: current ++ rest →
      ∃ sentence ∈ segmentFrom current rest, u <:+: sentence
  | [], current, h => by
    rw [append_nil] at h
    exact exists_pushSentence hu h
  | c :: rest, current, h => by
    rw [← singleton_append, ← append_assoc] at h
    rw [segmentFrom]
    split_ifs with hboundary
    · rcases infix_append_iff_ne_nil.1 h with h | h | ⟨l₁, l₂, hl₁, hl₂, rfl, hsuffix, hfront⟩
      · obtain ⟨sentence, hmem, hpart⟩ := exists_pushSentence hu h
        exact ⟨sentence, mem_append_left _ hmem, hpart⟩
      · obtain ⟨sentence, hmem, hpart⟩ := exists_segmentFrom hu hends rest [] h
        exact ⟨sentence, mem_append_right _ hmem, hpart⟩
      -- the run would go over the boundary
      · rw [Bool.and_eq_true] at hboundary
        obtain ⟨l, rfl, -⟩ := (suffix_concat_iff.1 hsuffix).resolve_left hl₁
        rw [dropLast_append_of_ne_nil hl₂] at hends
        have hc := hends c (by simp)
        obtain ⟨d, ds, rfl⟩ := exists_cons_of_ne_nil hl₂
        obtain ⟨t, rfl⟩ := hfront
        have hwhite := hboundary.2
        rw [cons_append, isBoundary_cons fun hcjk => hc ⟨hboundary.1, hcjk⟩] at hwhite
        exact absurd hwhite (hu.2 d (by simp))
    · exact exists_segmentFrom hu hends rest _ h

theorem segmentSentences_le_iff (text : List Char) :
    (∀ sentence ∈ segmentSentences text, sentence.length ≤ 500) ↔ ShortRuns text := by
  rw [segmentSentences_eq]
  refine ⟨fun h w hpart hsolid hends => ?_,
    fun h => segmentFrom_le h fun c hc => absurd hc not_mem_nil⟩
  by_cases hw : w = []
  · rw [hw]
    exact Nat.zero_le 500
  · obtain ⟨sentence, hmem, hin⟩ := exists_segmentFrom ⟨hw, hsolid⟩ hends text [] hpart
    exact hin.length_le.trans (h sentence hmem)

end Grim.Compress
