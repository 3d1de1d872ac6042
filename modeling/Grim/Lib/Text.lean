import Mathlib.Data.List.TakeWhile
import Mathlib.Tactic

/-!
# Text as lists of characters

White space is Unicode's `White_Space`.  A text whose fields do not contain the character between
them has one reading only (`split_at`).
-/

open List

namespace Text

def isWhitespace (c : Char) : Bool :=
  let n := c.toNat
  (9 ≤ n && n ≤ 13) || n = 32 || n = 0x85 || n = 0xA0 || n = 0x1680 || (0x2000 ≤ n && n ≤ 0x200A)
    || n = 0x2028 || n = 0x2029 || n = 0x202F || n = 0x205F || n = 0x3000

def trim (s : List Char) : List Char :=
  ((s.dropWhile isWhitespace).reverse.dropWhile isWhitespace).reverse

theorem exists_trim (s : List Char) : ∃ before behind, s = before ++ (trim s ++ behind) ∧
    (∀ c ∈ before, isWhitespace c) ∧ ∀ c ∈ behind, isWhitespace c := by
  refine ⟨s.takeWhile isWhitespace, ((s.dropWhile isWhitespace).reverse.takeWhile
    isWhitespace).reverse, ?_, fun c hc => mem_takeWhile_imp hc,
    fun c hc => mem_takeWhile_imp (mem_reverse.1 hc)⟩
  rw [trim, ← reverse_append, takeWhile_append_dropWhile, reverse_reverse,
    takeWhile_append_dropWhile]

theorem length_trim_le (s : List Char) : (trim s).length ≤ s.length := by
  obtain ⟨before, behind, hs, -⟩ := exists_trim s
  have hlen := congrArg List.length hs
  rw [length_append, length_append] at hlen
  omega

theorem trim_eq_nil_iff {s : List Char} : trim s = [] ↔ ∀ c ∈ s, isWhitespace c := by
  constructor
  · intro h
    obtain ⟨before, behind, hs, hbefore, hbehind⟩ := exists_trim s
    rw [hs, h, nil_append]
    exact forall_mem_append.2 ⟨hbefore, hbehind⟩
  · intro h
    rw [trim, dropWhile_eq_nil_iff.2 h]
    rfl

theorem trim_white_append {w s : List Char} (hw : ∀ c ∈ w, isWhitespace c) :
    trim (w ++ s) = trim s := by
  rw [trim, trim, dropWhile_append_of_pos hw]

structure Flush (s : List Char) : Prop where
  ne : s ≠ []
  head : ∀ c ∈ s.head?, isWhitespace c = false
  last : ∀ c ∈ s.getLast?, isWhitespace c = false

namespace Flush

variable {s t : List Char}

theorem trim (h : Flush s) : trim s = s := by
  have hfront : ∀ {t : List Char}, (∀ c ∈ t.head?, isWhitespace c = false) →
      t.dropWhile isWhitespace = t := by
    intro t ht
    rcases t with _ | ⟨c, t⟩
    · rfl
    · exact dropWhile_cons_of_neg (by simp [ht c rfl])
  have hback : ∀ c ∈ s.reverse.head?, isWhitespace c = false := by
    rw [head?_reverse]
    exact h.last
  rw [Text.trim, hfront h.head, hfront hback, reverse_reverse]

theorem of_forall (hne : s ≠ []) (h : ∀ c ∈ s, isWhitespace c = false) : Flush s :=
  ⟨hne, fun c hc => h c (mem_of_mem_head? hc), fun c hc => h c (mem_of_getLast? hc)⟩

theorem append (hs : Flush s) (ht : Flush t) (u : List Char) : Flush (s ++ (u ++ t)) := by
  refine ⟨by simp [hs.ne], fun c hc => hs.head c ?_, fun c hc => ht.last c ?_⟩
  · rwa [head?_append_of_ne_nil _ hs.ne] at hc
  · rwa [getLast?_append_of_ne_nil _ (by simp [ht.ne]),
      getLast?_append_of_ne_nil _ ht.ne] at hc

theorem between {c d : Char} (hc : isWhitespace c = false) (hd : isWhitespace d = false)
    (u : List Char) : Flush (c :: (u ++ [d])) :=
  append (of_forall (cons_ne_nil c []) (forall_mem_singleton.2 hc))
    (of_forall (cons_ne_nil d []) (forall_mem_singleton.2 hd)) u

end Flush

def toAsciiLowercase (s : List Char) : List Char := s.map Char.toLower

theorem split_at {c : Char} : ∀ {x y r s : List Char}, c ∉ x → c ∉ y →
    x ++ c :: r = y ++ c :: s → x = y ∧ r = s
  | [], [], _, _, _, _, h => ⟨rfl, (List.cons.inj h).2⟩
  | [], _ :: _, _, _, _, hy, h => absurd (mem_cons.2 (.inl (List.cons.inj h).1)) hy
  | _ :: _, [], _, _, hx, _, h => absurd (mem_cons.2 (.inl (List.cons.inj h).1.symm)) hx
  | _ :: _, _ :: _, _, _, hx, hy, h => by
    obtain ⟨rfl, htail⟩ := List.cons.inj h
    obtain ⟨rfl, rfl⟩ := split_at (not_mem_of_not_mem_cons hx)
      (not_mem_of_not_mem_cons hy) htail
    exact ⟨rfl, rfl⟩

theorem number_split {a b : ℕ} {r s : List Char}
    (h : (toString a).toList ++ '_' :: r = (toString b).toList ++ '_' :: s) : a = b ∧ r = s := by
  simp only [Nat.toString_eq_repr, Nat.toList_repr] at h
  obtain ⟨hdigits, htail⟩ := split_at Nat.underscore_not_in_toDigits
    Nat.underscore_not_in_toDigits h
  have hvalue := congrArg (fun ds => Nat.ofDigitChars 10 ds 0) hdigits
  simp only [Nat.ofDigitChars_ten_toDigits] at hvalue
  exact ⟨hvalue, htail⟩

end Text

/-!
## Words

A list is cut into words where its elements are white: `words white` has the runs of the others.
Nothing but white is lost, and a run of others is in one word.
-/

namespace Words

variable {α : Type*} (white : α → Bool)

/-- The words, of which `word` has been read. -/
def wordsFrom (word : List α) : List α → List (List α)
  | [] => if word = [] then [] else [word]
  | c :: cs =>
    if white c then if word = [] then wordsFrom [] cs else word :: wordsFrom [] cs
    else wordsFrom (word ++ [c]) cs

def words (xs : List α) : List (List α) := wordsFrom white [] xs

def visible (xs : List α) : List α := xs.filter fun c => !white c

variable {white} {word w xs ys : List α}

theorem flatten_wordsFrom : ∀ (xs word : List α),
    (wordsFrom white word xs).flatten = word ++ visible white xs
  | [], word => by
    rw [wordsFrom]
    split_ifs with h
    · rw [h]
      rfl
    · rw [flatten_singleton]
      exact (append_nil word).symm
  | c :: cs, word => by
    rw [wordsFrom]
    by_cases hc : white c
    · have hskip : visible white (c :: cs) = visible white cs :=
        filter_cons_of_neg (by simp [hc])
      rw [if_pos hc, hskip]
      split_ifs with h
      · rw [flatten_wordsFrom cs [], h]
      · rw [flatten_cons, flatten_wordsFrom cs [], nil_append]
    · have hkeep : visible white (c :: cs) = c :: visible white cs :=
        filter_cons_of_pos (by simp [hc])
      rw [if_neg hc, flatten_wordsFrom cs, hkeep, append_assoc]
      rfl

theorem flatten_words (xs : List α) : (words white xs).flatten = visible white xs :=
  flatten_wordsFrom xs []

theorem mem_wordsFrom (hword : ∀ c ∈ word, ¬white c) (h : w ∈ wordsFrom white word xs) :
    w ≠ [] ∧ (∀ c ∈ w, ¬white c) ∧ w <:+: word ++ xs := by
  induction xs generalizing word with
  | nil =>
    rw [wordsFrom] at h
    split_ifs at h with hnil
    · exact absurd h not_mem_nil
    · obtain rfl := mem_singleton.1 h
      exact ⟨hnil, hword, infix_append_left⟩
  | cons c cs ih =>
    have hrest : cs <:+: word ++ c :: cs := (suffix_cons c cs).isInfix.trans
      infix_append_right
    rw [wordsFrom] at h
    split_ifs at h with hc hnil
    · obtain ⟨hne, hall, hpart⟩ := ih (fun c hc => absurd hc not_mem_nil) h
      exact ⟨hne, hall, hpart.trans hrest⟩
    · rcases mem_cons.1 h with rfl | h
      · exact ⟨hnil, hword, infix_append_left⟩
      · obtain ⟨hne, hall, hpart⟩ := ih (fun c hc => absurd hc not_mem_nil) h
        exact ⟨hne, hall, hpart.trans hrest⟩
    · obtain ⟨hne, hall, hpart⟩ := ih (forall_mem_append.2
        ⟨hword, forall_mem_singleton.2 hc⟩) h
      rw [append_assoc] at hpart
      exact ⟨hne, hall, hpart⟩

theorem mem_words (h : w ∈ words white xs) : w ≠ [] ∧ (∀ c ∈ w, ¬white c) ∧ w <:+: xs :=
  mem_wordsFrom (fun _ hc => absurd hc not_mem_nil) h

theorem exists_mem_wordsFrom (hne : w ≠ []) (hw : ∀ c ∈ w, ¬white c) (h : w <:+: word ++ xs) :
    ∃ u ∈ wordsFrom white word xs, w <:+: u := by
  induction xs generalizing word with
  | nil =>
    rw [append_nil] at h
    have hword : word ≠ [] := h.ne_nil hne
    rw [wordsFrom, if_neg hword]
    exact ⟨word, mem_singleton_self word, h⟩
  | cons c cs ih =>
    rw [wordsFrom]
    by_cases hc : white c
    · have hhead : ∀ l, l ≠ [] → l ⊆ w → ¬l <+: c :: cs := by
        intro l hl hsub hfront
        obtain ⟨t, rfl, -⟩ := (prefix_cons_iff.1 hfront).resolve_left hl
        exact hw c (hsub mem_cons_self) hc
      have hcut : w <:+: word ∨ w <:+: cs := by
        rcases infix_append_iff_ne_nil.1 h with h | h | ⟨l₁, l₂, -, hl₂, rfl, -, hfront⟩
        · exact .inl h
        · exact .inr ((infix_cons_iff.1 h).resolve_left (hhead w hne (List.Subset.refl w)))
        · exact absurd hfront (hhead l₂ hl₂ (subset_append_right l₁ l₂))
      rw [if_pos hc]
      rcases hcut with h | h
      · rw [if_neg (h.ne_nil hne)]
        exact ⟨word, mem_cons_self, h⟩
      · obtain ⟨u, hu, hpart⟩ := @ih [] h
        refine ⟨u, ?_, hpart⟩
        split_ifs
        · exact hu
        · exact mem_cons_of_mem word hu
    · rw [if_neg hc]
      exact ih (by rwa [append_assoc])

theorem exists_mem_words (hne : w ≠ []) (hw : ∀ c ∈ w, ¬white c) (h : w <:+: xs) :
    ∃ u ∈ words white xs, w <:+: u := exists_mem_wordsFrom hne hw h

theorem wordsFrom_append_white (hys : ∀ c ∈ ys, white c) : ∀ (xs word : List α),
    wordsFrom white word (xs ++ ys) = wordsFrom white word xs
  | [], word => by
    rw [nil_append]
    induction ys generalizing word with
    | nil => rfl
    | cons c cs ih =>
      obtain ⟨hc, hcs⟩ := forall_mem_cons.1 hys
      have hend : wordsFrom white [] cs = [] := (ih hcs []).trans (if_pos rfl)
      conv_lhs => rw [wordsFrom, if_pos hc, hend]
      rfl
  | c :: cs, word => by
    rw [cons_append, wordsFrom, wordsFrom, wordsFrom_append_white hys cs,
      wordsFrom_append_white hys cs]

theorem words_append_white (hys : ∀ c ∈ ys, white c) (xs : List α) :
    words white (xs ++ ys) = words white xs := wordsFrom_append_white hys xs []

theorem words_white_append (hys : ∀ c ∈ ys, white c) (xs : List α) :
    words white (ys ++ xs) = words white xs := by
  induction ys with
  | nil => rfl
  | cons c cs ih =>
    obtain ⟨hc, hcs⟩ := forall_mem_cons.1 hys
    rw [← ih hcs, words, cons_append, wordsFrom, if_pos hc, if_pos rfl, words]

theorem visible_append (xs ys : List α) :
    visible white (xs ++ ys) = visible white xs ++ visible white ys := filter_append xs ys

theorem visible_of_white (h : ∀ c ∈ xs, white c) : visible white xs = [] :=
  filter_eq_nil_iff.2 fun c hc => by simp [h c hc]

end Words

/-!
## Markers

A list is cut at the first place where a marker stands.  A marker whose first element is nowhere
else in it cannot begin within what stands before it, so what is put between markers is found again
(`between_woven`).
-/

namespace Markers

variable {α : Type*}

def Solitary (pat : List α) : Prop := ∃ c cs, pat = c :: cs ∧ c ∉ cs

theorem Solitary.not_prefix {pat after bs : List α} {b : α} (hpat : Solitary pat)
    (h : ¬pat <:+: b :: bs) :
    ¬pat <+: b :: (bs ++ (pat ++ after)) := by
  obtain ⟨c, cs, rfl, hc⟩ := hpat
  intro hpre
  obtain ⟨rfl, htail⟩ := cons_prefix_cons.1 hpre
  rcases prefix_or_prefix_of_prefix htail (prefix_append bs _) with hin | ⟨t, rfl⟩
  · exact h (cons_prefix_cons.2 ⟨rfl, hin⟩).isInfix
  · rcases t with _ | ⟨d, t⟩
    · exact h (cons_prefix_cons.2 ⟨rfl, by simp⟩).isInfix
    · rw [prefix_append_right_inj] at htail
      obtain ⟨rfl, -⟩ := cons_prefix_cons.1 htail
      exact hc (by simp)

variable [DecidableEq α]

def splitOnce (pat : List α) : List α → Option (List α × List α)
  | [] => if pat = [] then some ([], []) else none
  | c :: cs =>
    if pat.isPrefixOf (c :: cs) then some ([], (c :: cs).drop pat.length)
    else (splitOnce pat cs).map fun cut => (c :: cut.1, cut.2)

/-- What stands between the opening and the closing markers, one after the other, and whether an
opening marker is left that is not closed. -/
def betweenFrom (op cl : List α) : ℕ → List α → List (List α) × Bool
  | 0, _ => ([], false)
  | n + 1, s =>
    match splitOnce op s with
    | none => ([], false)
    | some (_, inside) =>
      match splitOnce cl inside with
      | none => ([], true)
      | some (inner, rest) =>
        let later := betweenFrom op cl n rest
        (inner :: later.1, later.2)

def between (op cl s : List α) : List (List α) × Bool := betweenFrom op cl s.length s

/-- Lists between the markers, each with what stands before it, and what stands behind the last. -/
def woven (op cl : List α) : List (List α × List α) → List α → List α
  | [], tail => tail
  | (before, inner) :: ps, tail => before ++ (op ++ (inner ++ (cl ++ woven op cl ps tail)))

variable {op cl pat s before after inside inner rest : List α}

theorem splitOnce_of_not_infix (h : ¬pat <:+: s) : splitOnce pat s = none := by
  induction s with
  | nil =>
    have hne : pat ≠ [] := by
      rintro rfl
      exact h nil_infix
    rw [splitOnce, if_neg hne]
  | cons c cs ih =>
    have hfront : ¬pat.isPrefixOf (c :: cs) = true := fun hpre =>
      h (List.isPrefixOf_iff_prefix.1 hpre).isInfix
    rw [splitOnce, if_neg hfront, ih fun hin => h (infix_cons hin), Option.map_none]

theorem append_of_splitOnce : ∀ {s : List α} {cut : List α × List α},
    splitOnce pat s = some cut → s = cut.1 ++ (pat ++ cut.2)
  | [], cut, h => by
    rw [splitOnce] at h
    split_ifs at h with hpat
    cases h
    simp [hpat]
  | c :: cs, cut, h => by
    rw [splitOnce] at h
    split_ifs at h with hpre
    · cases h
      exact (prefix_iff_eq_append.1 (List.isPrefixOf_iff_prefix.1 hpre)).symm
    · obtain ⟨cut', hcut, rfl⟩ := Option.map_eq_some_iff.1 h
      exact congrArg (List.cons c) (append_of_splitOnce hcut)

theorem splitOnce_append (hpat : Solitary pat) (h : ¬pat <:+: before) :
    splitOnce pat (before ++ (pat ++ after)) = some (before, after) := by
  induction before with
  | nil =>
    obtain ⟨c, cs, rfl, -⟩ := hpat
    rw [nil_append, cons_append, splitOnce, if_pos (by simp)]
    simp
  | cons b bs ih =>
    have hfront : ¬pat.isPrefixOf (b :: (bs ++ (pat ++ after))) = true := fun hpre =>
      hpat.not_prefix h (List.isPrefixOf_iff_prefix.1 hpre)
    rw [cons_append, splitOnce, if_neg hfront, ih fun hin => h (infix_cons hin),
      Option.map_some]

theorem betweenFrom_eq (hop : op ≠ []) : ∀ {n m : ℕ} {s : List α}, s.length ≤ n → s.length ≤ m →
    betweenFrom op cl n s = betweenFrom op cl m s
  | 0, 0, _, _, _ => rfl
  | 0, m + 1, s, hn, _ => by
    rw [length_eq_zero_iff.1 (Nat.le_zero.1 hn)]
    simp [betweenFrom, splitOnce, hop]
  | n + 1, 0, s, _, hm => by
    rw [length_eq_zero_iff.1 (Nat.le_zero.1 hm)]
    simp [betweenFrom, splitOnce, hop]
  | n + 1, m + 1, s, hn, hm => by
    rw [betweenFrom, betweenFrom]
    rcases hopen : splitOnce op s with _ | ⟨before, inside⟩
    · rfl
    · dsimp only
      rcases hclose : splitOnce cl inside with _ | ⟨inner, rest⟩
      · rfl
      · have hlen := congrArg List.length (append_of_splitOnce hopen)
        have hlen' := congrArg List.length (append_of_splitOnce hclose)
        have hpos := length_pos_iff.2 hop
        simp only [length_append] at hlen hlen'
        dsimp only
        rw [betweenFrom_eq hop (n := n) (m := m) (by omega) (by omega)]

theorem between_of_split (hop : op ≠ []) (hopen : splitOnce op s = some (before, inside))
    (hclose : splitOnce cl inside = some (inner, rest)) : between op cl s =
      (inner :: (between op cl rest).1, (between op cl rest).2) := by
  have hlen := congrArg List.length (append_of_splitOnce hopen)
  have hlen' := congrArg List.length (append_of_splitOnce hclose)
  have hpos := length_pos_iff.2 hop
  simp only [length_append] at hlen hlen'
  rw [between, betweenFrom_eq hop le_rfl (Nat.le_succ _), betweenFrom, hopen]
  dsimp only
  rw [hclose]
  dsimp only
  rw [betweenFrom_eq hop (n := s.length) (m := rest.length) (by omega) le_rfl, between]

theorem between_of_not_infix (h : ¬op <:+: s) : between op cl s = ([], false) := by
  rw [between]
  rcases s.length with _ | n
  · rfl
  · rw [betweenFrom, splitOnce_of_not_infix h]

theorem between_woven (hop : Solitary op) (hcl : Solitary cl) {tail : List α}
    (htail : ¬op <:+: tail) : ∀ {ps : List (List α × List α)},
      (∀ p ∈ ps, ¬op <:+: p.1 ∧ ¬cl <:+: p.2) →
        between op cl (woven op cl ps tail) = (ps.map Prod.snd, false)
  | [], _ => between_of_not_infix htail
  | (before, inner) :: ps, h => by
    obtain ⟨⟨hbefore, hinner⟩, hps⟩ := forall_mem_cons.1 h
    have hne : op ≠ [] := by
      obtain ⟨c, cs, rfl, -⟩ := hop
      exact cons_ne_nil c cs
    rw [woven, between_of_split hne (splitOnce_append hop hbefore) (splitOnce_append hcl hinner),
      between_woven hop hcl htail hps, map_cons]

end Markers
