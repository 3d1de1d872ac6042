import Grim.Lib.Search
import Grim.Lib.Text

/-!
# Patterns

A pattern is compiled to a list of elements, each a set of characters with bounds on how often it
is repeated, between two optional anchors.  Matching is a backtracking search with greedy
repetition and one budget of steps.  Texts are lists of characters; the compiler's index is the
rest of the pattern up to its end limit.
-/

namespace Grim.Constrain

open Search List

inductive CharMatcher
  | any
  | exact (target : Char)
  | charClass (ranges : List (Char × Char)) (chars : List Char) (negated : Bool)
deriving DecidableEq, Repr

def CharMatcher.matches : CharMatcher → Char → Bool
  | any, _ => true
  | exact target, c => target == c
  | charClass ranges chars negated, c =>
    let hit := chars.contains c || ranges.any fun r => decide (r.1 ≤ c ∧ c ≤ r.2)
    if negated then !hit else hit

structure RegexElement where
  matcher : CharMatcher
  minRepeat : ℕ
  maxRepeat : ℕ
deriving DecidableEq, Repr

structure BoundedRegex where
  elements : List RegexElement
  anchorStart : Bool
  anchorEnd : Bool
deriving DecidableEq, Repr

/-- `usize::MAX` -/
def usizeMax : ℕ := 2 ^ 64 - 1

/-- `str::parse::<usize>` -/
def parseUsize (s : List Char) : Option ℕ :=
  let digits := match s with
    | '+' :: rest => rest
    | s => s
  if digits ≠ [] ∧ digits.all Char.isDigit then
    let n := digits.foldl (fun n c => 10 * n + (c.toNat - '0'.toNat)) 0
    if n ≤ usizeMax then some n else none
  else none

def escapeMatcher : Char → CharMatcher
  | 'd' => .charClass [('0', '9')] [] false
  | 'D' => .charClass [('0', '9')] [] true
  | 'w' => .charClass [('a', 'z'), ('A', 'Z'), ('0', '9')] ['_'] false
  | 'W' => .charClass [('a', 'z'), ('A', 'Z'), ('0', '9')] ['_'] true
  | 's' => .charClass [] [' ', '\t', '\n', '\r'] false
  | 'S' => .charClass [] [' ', '\t', '\n', '\r'] true
  | escaped => .exact escaped

/-- The ranges and characters up to the closing bracket, and what is behind it. -/
def parseClass (ranges : List (Char × Char)) (chars : List Char) :
    List Char → Option (List (Char × Char) × List Char × List Char)
  | [] => none
  | ']' :: rest => some (ranges, chars, rest)
  | '\\' :: '-' :: high :: rest =>
    if high ≠ ']' then parseClass (ranges ++ [('\\', high)]) chars rest
    else parseClass ranges (chars ++ ['-']) (high :: rest)
  | '\\' :: 'd' :: rest => parseClass (ranges ++ [('0', '9')]) chars rest
  | '\\' :: 'w' :: rest =>
    parseClass (ranges ++ [('a', 'z'), ('A', 'Z'), ('0', '9')]) (chars ++ ['_']) rest
  | '\\' :: 's' :: rest => parseClass ranges (chars ++ [' ', '\t', '\n', '\r']) rest
  | '\\' :: other :: rest => parseClass ranges (chars ++ [other]) rest
  | ch :: '-' :: high :: rest =>
    if high ≠ ']' then parseClass (ranges ++ [(ch, high)]) chars rest
    else parseClass ranges (chars ++ [ch]) ('-' :: high :: rest)
  | ch :: rest => parseClass ranges (chars ++ [ch]) rest

def parseMatcher : List Char → Option (CharMatcher × List Char)
  | [] => none
  | '.' :: rest => some (.any, rest)
  | ['\\'] => none
  | '\\' :: next :: rest => some (escapeMatcher next, rest)
  | '[' :: '^' :: rest =>
    (parseClass [] [] rest).map fun (ranges, chars, rest) => (.charClass ranges chars true, rest)
  | '[' :: rest =>
    (parseClass [] [] rest).map fun (ranges, chars, rest) => (.charClass ranges chars false, rest)
  | literal :: rest => some (.exact literal, rest)

def parseBounds (q : List Char) : Option (ℕ × ℕ) :=
  match q.dropWhile (· ≠ ',') with
  | [] => (parseUsize (Text.trim q)).map fun n => (n, n)
  | _ :: maxS => do
    let min ← parseUsize (Text.trim (q.takeWhile (· ≠ ',')))
    let max ← if (Text.trim maxS).isEmpty then some usizeMax else parseUsize (Text.trim maxS)
    return (min, max)

/-- The repetition behind a matcher, once where there is none, and the rest of the pattern. -/
def parseRepeat : List Char → Option ((ℕ × ℕ) × List Char)
  | '*' :: rest => some ((0, usizeMax), rest)
  | '+' :: rest => some ((1, usizeMax), rest)
  | '?' :: rest => some ((0, 1), rest)
  | '{' :: rest =>
    match rest.dropWhile (· ≠ '}') with
    | [] => none
    | _ :: rest' => (parseBounds (rest.takeWhile (· ≠ '}'))).map fun b => (b, rest')
  | rest => some ((1, 1), rest)

theorem parseClass_length (ranges : List (Char × Char)) (chars cs : List Char) :
    ∀ x ∈ parseClass ranges chars cs, x.2.2.length < cs.length := by
  fun_induction parseClass ranges chars cs with
  | case1 => simp
  | case2 => simp
  | _ =>
    rename_i ih
    intro x hx
    have hlt := ih x hx
    simp only [length_cons] at hlt ⊢
    omega

theorem parseMatcher_length (cs : List Char) : ∀ x ∈ parseMatcher cs, x.2.length < cs.length := by
  intro x hx
  unfold parseMatcher at hx
  split at hx
  · simp at hx
  · cases hx
    simp
  · simp at hx
  · cases hx
    simp
  · obtain ⟨⟨ranges, chars, rest⟩, hy, rfl⟩ := Option.mem_map.1 hx
    have hlt := parseClass_length _ _ _ _ hy
    simp only [length_cons] at hlt ⊢
    omega
  · obtain ⟨⟨ranges, chars, rest⟩, hy, rfl⟩ := Option.mem_map.1 hx
    have hlt := parseClass_length _ _ _ _ hy
    simp only [length_cons] at hlt ⊢
    omega
  · cases hx
    simp

theorem parseRepeat_length (cs : List Char) : ∀ x ∈ parseRepeat cs, x.2.length ≤ cs.length := by
  intro x hx
  unfold parseRepeat at hx
  split at hx
  · cases hx
    simp
  · cases hx
    simp
  · cases hx
    simp
  · rename_i rest
    split at hx
    · simp at hx
    · rename_i c rest' hdrop
      obtain ⟨y, -, rfl⟩ := Option.mem_map.1 hx
      have hle := (dropWhile_suffix (l := rest) (· ≠ '}')).length_le
      rw [hdrop, length_cons] at hle
      simp only [length_cons]
      omega
  · cases hx
    simp

/-- The loop of the compiler over what stands between the anchors. -/
def parseElements (body : List Char) : Option (List RegexElement) :=
  if body = [] then some []
  else match _hm : parseMatcher body with
    | none => none
    | some (matcher, rest) =>
      match _hr : parseRepeat rest with
      | none => none
      | some ((min, max), rest') =>
        (parseElements rest').map (⟨matcher, min, max⟩ :: ·)
termination_by body.length
decreasing_by
  have hm := parseMatcher_length body _ _hm
  have hr := parseRepeat_length rest _ _hr
  dsimp only at hm hr
  omega

namespace BoundedRegex

/-- `BoundedRegex::parse` -/
def parse (chars : List Char) : Option BoundedRegex :=
  if chars = [] then some ⟨[], false, false⟩
  else
    let anchorStart := chars.head? == some '^'
    let i := if anchorStart then 1 else 0
    let len := chars.length
    let anchorEnd := decide (i < len) && chars[len - 1]? == some '$'
      && (decide (len < 2) || chars[len - 2]? != some '\\')
    let endLimit := if anchorEnd then len - 1 else len
    (parseElements ((chars.take endLimit).drop i)).map (⟨·, anchorStart, anchorEnd⟩)

end BoundedRegex

/-- The `while` loop of `match_from`: how many characters the element takes at most, `most` of
them allowed. -/
def RegexElement.greedy (e : RegexElement) : ℕ → List Char → ℕ
  | _, [] => 0
  | 0, _ => 0
  | most + 1, c :: rest => if e.matcher.matches c then e.greedy most rest + 1 else 0

namespace BoundedRegex

def maxSteps : ℕ := 10000

/-- `match_from` with the elements from `elem_idx` and the characters from `text_pos` on. -/
def matchFrom (anchorEnd : Bool) : List RegexElement → List Char → ℕ → Bool × ℕ
  | elements, rest, steps =>
    let steps := steps + 1
    if maxSteps < steps then (false, steps)
    else match elements with
      | [] => (if anchorEnd then rest.isEmpty else true, steps)
      | e :: elements =>
        let maxMatched := e.greedy e.maxRepeat rest
        if maxMatched < e.minRepeat then (false, steps)
        else tryAll (maxSteps + 1) (fun k steps => matchFrom anchorEnd elements (rest.drop k) steps)
          (List.range' e.minRepeat (maxMatched + 1 - e.minRepeat)).reverse steps

/-- `matches`, with the steps used. -/
def run (r : BoundedRegex) (chars : List Char) : Bool × ℕ :=
  if r.anchorStart then matchFrom r.anchorEnd r.elements chars 0
  else tryAll maxSteps
    (fun startIdx steps => matchFrom r.anchorEnd r.elements (chars.drop startIdx) steps)
    (List.range (chars.length + 1)) 0

end BoundedRegex

/-- `BoundedRegex::matches` -/
def BoundedRegex.matches (r : BoundedRegex) (chars : List Char) : Bool := (r.run chars).1

structure RegexElement.Fits (e : RegexElement) (piece : List Char) : Prop where
  min : e.minRepeat ≤ piece.length
  max : piece.length ≤ e.maxRepeat
  chars : ∀ c ∈ piece, e.matcher.matches c = true

/-- The text splits into one piece for each element, in order, with something before them only if
the pattern is not anchored there, and something behind them likewise. -/
def BoundedRegex.Splits (r : BoundedRegex) (text : List Char) : Prop :=
  ∃ before pieces behind, text = before ++ pieces.flatten ++ behind
    ∧ List.Forall₂ RegexElement.Fits r.elements pieces
    ∧ (r.anchorStart = true → before = []) ∧ (r.anchorEnd = true → behind = [])

/-- The budget ran out: a call of `match_from` was cut, or the loop over the starts was left. -/
def BoundedRegex.Exhausted (r : BoundedRegex) (text : List Char) : Prop :=
  BoundedRegex.maxSteps < (r.run text).2
    ∨ (r.anchorStart = false ∧ BoundedRegex.maxSteps ≤ (r.run text).2)

instance (r : BoundedRegex) (text : List Char) : Decidable (r.Exhausted text) := by
  unfold BoundedRegex.Exhausted
  infer_instance

variable {e : RegexElement} {elements : List RegexElement} {rest text : List Char} {k : ℕ}

theorem RegexElement.le_greedy (e : RegexElement) : ∀ {most k : ℕ} {rest : List Char},
    k ≤ e.greedy most rest ↔
      k ≤ most ∧ k ≤ rest.length ∧ ∀ c ∈ rest.take k, e.matcher.matches c = true
  | most, k, [] => by
    simp [greedy]
    omega
  | 0, k, c :: rest => by
    rw [show e.greedy 0 (c :: rest) = 0 from rfl]
    constructor
    · intro hk
      obtain rfl := Nat.le_zero.1 hk
      simp
    · exact And.left
  | most + 1, 0, c :: rest => by simp
  | most + 1, k + 1, c :: rest => by
    rw [greedy, take_succ_cons, forall_mem_cons]
    by_cases hc : e.matcher.matches c = true
    · rw [if_pos hc, Nat.succ_le_succ_iff, e.le_greedy, length_cons, Nat.succ_le_succ_iff,
        Nat.succ_le_succ_iff]
      tauto
    · rw [if_neg hc]
      exact iff_of_false (by omega) fun h => hc h.2.2.1

namespace BoundedRegex

/-- What `match_from` looks for from a position on. -/
def Accepts (anchorEnd : Bool) : List RegexElement → List Char → Prop
  | [], rest => anchorEnd = true → rest = []
  | e :: elements, rest => ∃ k ≤ rest.length, e.Fits (rest.take k)
      ∧ Accepts anchorEnd elements (rest.drop k)

theorem accepts_cons {anchorEnd : Bool} : Accepts anchorEnd (e :: elements) rest ↔
    ∃ k ∈ (List.range' e.minRepeat (e.greedy e.maxRepeat rest + 1 - e.minRepeat)).reverse,
      Accepts anchorEnd elements (rest.drop k) := by
  rw [Accepts]
  refine exists_congr fun k => ?_
  rw [← and_assoc]
  refine and_congr_left fun _ => ?_
  rw [mem_reverse, mem_range'_1]
  have hgreedy : k ≤ e.greedy e.maxRepeat rest ↔ _ := e.le_greedy
  constructor
  · rintro ⟨hk, hmin, hmax, hchars⟩
    rw [length_take, min_eq_left hk] at hmin hmax
    have hle := hgreedy.2 ⟨hmax, hk, hchars⟩
    omega
  · rintro ⟨hmin, hlt⟩
    obtain ⟨hmax, hk, hchars⟩ := hgreedy.1 (by omega)
    have hlen : (rest.take k).length = k := by rw [length_take, min_eq_left hk]
    exact ⟨hk, hlen.symm ▸ hmin, hlen.symm ▸ hmax, hchars⟩

theorem decides_matchFrom (anchorEnd : Bool) : ∀ (elements : List RegexElement)
    (rest : List Char), Decides (maxSteps + 1) (matchFrom anchorEnd elements rest)
      (Accepts anchorEnd elements rest)
  | [], rest => by
    have hend : (if anchorEnd then rest.isEmpty else true) = true ↔ Accepts anchorEnd [] rest := by
      cases anchorEnd <;> simp [Accepts]
    exact ((decides_of_iff hend).cut).after 1
  | e :: elements, rest => by
    have hcounts : Decides (maxSteps + 1)
        (tryAll (maxSteps + 1) (fun k steps => matchFrom anchorEnd elements (rest.drop k) steps)
          (List.range' e.minRepeat (e.greedy e.maxRepeat rest + 1 - e.minRepeat)).reverse)
        (∃ k ∈ (List.range' e.minRepeat (e.greedy e.maxRepeat rest + 1 - e.minRepeat)).reverse,
          Accepts anchorEnd elements (rest.drop k)) :=
      .tryAll fun k _ => decides_matchFrom anchorEnd elements (rest.drop k)
    have hbody : Decides (maxSteps + 1) (fun steps =>
        if e.greedy e.maxRepeat rest < e.minRepeat then (false, steps)
        else tryAll (maxSteps + 1)
          (fun k steps => matchFrom anchorEnd elements (rest.drop k) steps)
          (List.range' e.minRepeat (e.greedy e.maxRepeat rest + 1 - e.minRepeat)).reverse steps)
        (Accepts anchorEnd (e :: elements) rest) := by
      by_cases hfew : e.greedy e.maxRepeat rest < e.minRepeat
      · simp only [if_pos hfew]
        refine decides_of_iff (iff_of_false Bool.false_ne_true ?_)
        rw [accepts_cons, show e.greedy e.maxRepeat rest + 1 - e.minRepeat = 0 by omega]
        simp
      · simp only [if_neg hfew]
        exact hcounts.congr accepts_cons.symm
    exact hbody.cut.after 1

theorem accepts_iff {anchorEnd : Bool} : ∀ {elements : List RegexElement} {rest : List Char},
    Accepts anchorEnd elements rest ↔ ∃ pieces behind, rest = pieces.flatten ++ behind
      ∧ List.Forall₂ RegexElement.Fits elements pieces ∧ (anchorEnd = true → behind = [])
  | [], rest => by
    simp [Accepts]
  | e :: elements, rest => by
    rw [Accepts]
    constructor
    · rintro ⟨k, -, hfits, haccepts⟩
      obtain ⟨pieces, behind, hrest, hpieces, hend⟩ := accepts_iff.1 haccepts
      refine ⟨rest.take k :: pieces, behind, ?_, .cons hfits hpieces, hend⟩
      rw [flatten_cons, append_assoc, ← hrest, take_append_drop]
    · rintro ⟨_, behind, rfl, hpieces, hend⟩
      cases hpieces with
      | cons hfits hpieces =>
        rename_i piece pieces
        refine ⟨piece.length, ?_, ?_, accepts_iff.2 ⟨pieces, behind, ?_, hpieces, hend⟩⟩
        · simp
        · rw [flatten_cons, append_assoc, take_left]
          exact hfits
        · rw [flatten_cons, append_assoc, drop_left]

theorem splits_iff (r : BoundedRegex) : r.Splits text ↔ ∃ start ≤ text.length,
    (r.anchorStart = true → start = 0) ∧ Accepts r.anchorEnd r.elements (text.drop start) := by
  constructor
  · rintro ⟨before, pieces, behind, rfl, hpieces, hstart, hend⟩
    refine ⟨before.length, ?_, fun ha => by rw [hstart ha, length_nil], ?_⟩
    · simp
    · rw [append_assoc, drop_left]
      exact accepts_iff.2 ⟨pieces, behind, rfl, hpieces, hend⟩
  · rintro ⟨start, -, hstart, haccepts⟩
    obtain ⟨pieces, behind, hrest, hpieces, hend⟩ := accepts_iff.1 haccepts
    refine ⟨text.take start, pieces, behind, ?_, hpieces, fun ha => ?_, hend⟩
    · rw [append_assoc, ← hrest, take_append_drop]
    · rw [hstart ha, take_zero]

/-- The matcher says whether the text splits into pieces for the elements, if the budget lasts. -/
theorem matches_iff_splits (r : BoundedRegex) (text : List Char) (hbudget : ¬ r.Exhausted text) :
    r.matches text = true ↔ r.Splits text := by
  rw [splits_iff]
  unfold Exhausted at hbudget
  unfold BoundedRegex.matches
  unfold run at hbudget ⊢
  cases hanchor : r.anchorStart with
  | true =>
    simp only [hanchor, ↓reduceIte, Bool.true_eq_false, false_and, or_false, not_lt] at hbudget ⊢
    have hsearch := decides_matchFrom r.anchorEnd r.elements text
    constructor
    · exact fun h => ⟨0, Nat.zero_le _, fun _ => rfl, hsearch.sound 0 h⟩
    · rintro ⟨start, -, hstart, haccepts⟩
      rw [hstart trivial, drop_zero] at haccepts
      by_contra hno
      exact hsearch.complete 0 (Bool.not_eq_true _ ▸ hno) (Nat.lt_succ_of_le hbudget) haccepts
  | false =>
    simp only [hanchor, Bool.false_eq_true, ↓reduceIte, false_implies, true_and] at hbudget ⊢
    have hsearch : Decides maxSteps
        (tryAll maxSteps
          (fun start steps => matchFrom r.anchorEnd r.elements (text.drop start) steps)
          (List.range (text.length + 1)))
        (∃ start ∈ List.range (text.length + 1),
          Accepts r.anchorEnd r.elements (text.drop start)) :=
      .tryAll fun start _ => (decides_matchFrom r.anchorEnd r.elements _).weaken (Nat.le_succ _)
    have hstarts : (∃ start ∈ List.range (text.length + 1),
        Accepts r.anchorEnd r.elements (text.drop start)) ↔
          ∃ start ≤ text.length, Accepts r.anchorEnd r.elements (text.drop start) := by
      simp only [mem_range, Nat.lt_succ_iff]
    rw [← hstarts]
    constructor
    · exact hsearch.sound 0
    · intro haccepts
      by_contra hno
      refine hsearch.complete 0 (Bool.not_eq_true _ ▸ hno) ?_ haccepts
      omega

/-- `[b-c]*c$` on `abc`, where the greedy repetition has to give a character back. -/
theorem matches_iff_splits_gives_back :
    ¬ Exhausted ⟨[⟨.charClass [('b', 'c')] [] false, 0, usizeMax⟩, ⟨.exact 'c', 1, 1⟩], false, true⟩
        ['a', 'b', 'c']
      ∧ (BoundedRegex.matches
          ⟨[⟨.charClass [('b', 'c')] [] false, 0, usizeMax⟩, ⟨.exact 'c', 1, 1⟩], false, true⟩
          ['a', 'b', 'c'] = true
        ↔ Splits ⟨[⟨.charClass [('b', 'c')] [] false, 0, usizeMax⟩, ⟨.exact 'c', 1, 1⟩],
          false, true⟩
          ['a', 'b', 'c']) :=
  ⟨by decide, matches_iff_splits _ _ (by decide)⟩

end BoundedRegex

end Grim.Constrain
