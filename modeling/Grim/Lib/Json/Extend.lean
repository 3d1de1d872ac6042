import Grim.Lib.Json.Tokens

/-!
# Texts that go on

`behind` counts brackets outside of strings and returns what stands behind the first value.  A JSON
text that goes on as a JSON text does so with whitespace, unless both are numbers
(`Text.extend`).  Whitespace may be put on either side of a structural character (`Text.insert`).
A word that a text is cut in goes on as a literal name or a number (`Text.word_goes_on`).
-/

namespace Json

/-- Whether a character is outside of strings, inside of one, or behind a backslash there. -/
inductive Place
  | outside
  | inside
  | escaped
deriving DecidableEq, Repr

def Place.next : Place → Char → Place
  | .outside, c => if c = '"' then .inside else .outside
  | .inside, c => if c = '"' then .outside else if c = '\\' then .escaped else .inside
  | .escaped, _ => .inside

def place (s : List Char) : Place := s.foldl Place.next .outside

def follow : ℕ × Place → Char → ℕ × Place
  | (d, .outside), c =>
    (if c ∈ ['[', '{'] then d + 1 else if c ∈ [']', '}'] then d - 1 else d, Place.next .outside c)
  | (d, p), c => (d, p.next c)

@[simp] theorem follow_inside (d : ℕ) (c : Char) :
    follow (d, .inside) c = (d, Place.next .inside c) := rfl

@[simp] theorem follow_escaped (d : ℕ) (c : Char) : follow (d, .escaped) c = (d, .inside) := rfl

/-- What stands behind the character that leaves no bracket and no string open. -/
def behind : ℕ × Place → List Char → Option (List Char)
  | _, [] => none
  | st, c :: s => if follow st c = (0, .outside) then some s else behind (follow st c) s

def closing (s : List Char) : Option (List Char) :=
  behind (0, .outside) (s.dropWhile fun c => IsWs c)

variable {σ : Symbol} {c : Char} {p s r v w x : List Char}

theorem behind_append : ∀ {s : List Char} {st : ℕ × Place}, behind st s = some r →
    behind st (s ++ x) = some (r ++ x)
  | [], _, h => by cases h
  | c :: s, st, h => by
    rw [List.cons_append, behind]
    rw [behind] at h
    split_ifs at h ⊢
    · rw [Option.some.inj h]
    · exact behind_append h

/-- Inside brackets, `p` is passed. -/
def Passed (p : List Char) : Prop :=
  ∀ d s, behind (d + 1, .outside) (p ++ s) = behind (d + 1, .outside) s

theorem Passed.nil : Passed [] := fun _ _ => rfl

theorem Passed.append (hp : Passed p) (hr : Passed r) : Passed (p ++ r) := fun d s => by
  rw [List.append_assoc, hp, hr]

theorem passed_cons (h : c ∉ ['[', '{', ']', '}', '"']) (hp : Passed p) : Passed (c :: p) :=
  fun d s => by
    simp only [List.mem_cons, List.not_mem_nil, or_false, not_or] at h
    rw [List.cons_append, behind, follow]
    simp [h, Place.next, hp d s]

theorem Passed.ws : ∀ {w : List Char}, Ws w → Passed w
  | [], _ => .nil
  | c :: w, h => by
    obtain ⟨hc, hw⟩ := List.forall_mem_cons.1 h
    refine passed_cons (fun hmem => ?_) (.ws hw)
    simp only [List.mem_cons, List.not_mem_nil, or_false] at hmem
    rcases hmem with rfl | rfl | rfl | rfl | rfl <;> exact absurd hc (by decide)

theorem Passed.word : ∀ {w : List Char}, (∀ c ∈ w, IsWord c) → Passed w
  | [], _ => .nil
  | c :: w, h => by
    obtain ⟨hc, hw⟩ := List.forall_mem_cons.1 h
    refine passed_cons (fun hmem => ?_) (.word hw)
    simp only [List.mem_cons, List.not_mem_nil, or_false] at hmem
    rcases hmem with rfl | rfl | rfl | rfl | rfl <;> exact absurd hc (by decide)

theorem Structural.passed (h : Structural c p) (hc : c = ',' ∨ c = ':') : Passed p := by
  obtain ⟨w, w', hw, hw', rfl⟩ := h
  refine (Passed.ws hw).append (passed_cons ?_ (.ws hw'))
  rcases hc with rfl | rfl <;> decide

theorem behind_chars (d : ℕ) (s : List Char) {cs : List Char} (h : Chars cs) :
    behind (d, .inside) (cs ++ '"' :: s)
      = if d = 0 then some s else behind (d, .outside) s := by
  induction h with
  | nil => simp [behind, Place.next]
  | plain hc _ ih => simpa [behind, Place.next, hc.2.1, hc.2.2] using ih
  | escape hc _ ih => simpa [behind, Place.next] using ih
  | unicode ha hb hc hd _ ih =>
    simpa [behind, Place.next, ha.ne_quote, hb.ne_quote, hc.ne_quote, hd.ne_quote] using ih

theorem Str.passed (h : Str p) : Passed p := fun d s => by
  obtain ⟨cs, hcs, rfl⟩ := h
  have hchars := behind_chars (d + 1) s hcs
  rw [if_neg (Nat.succ_ne_zero d)] at hchars
  simpa [behind, follow, Place.next] using hchars

theorem Structural.behind_open (h : Structural c p) (hc : c = '[' ∨ c = '{') (d : ℕ)
    (s : List Char) : behind (d + 1, .outside) (p ++ s) = behind (d + 2, .outside) s := by
  obtain ⟨w, w', hw, hw', rfl⟩ := h
  rw [List.append_assoc, Passed.ws hw, List.cons_append, behind]
  rcases hc with rfl | rfl <;> simp [follow, Place.next, Passed.ws hw' (d + 1) s]

theorem Structural.behind_close (h : Structural c p) (hc : c = ']' ∨ c = '}') (d : ℕ)
    (s : List Char) : behind (d + 2, .outside) (p ++ s) = behind (d + 1, .outside) s := by
  obtain ⟨w, w', hw, hw', rfl⟩ := h
  rw [List.append_assoc, Passed.ws hw, List.cons_append, behind]
  rcases hc with rfl | rfl <;> simp [follow, Place.next, Passed.ws hw' d s]

theorem Derives.passed (h : Derives σ v) : Passed v := by
  induction h with
  | literal hw => exact .word (literal_isWord hw).2
  | number hw => exact .word hw.isWord.2
  | string hs => exact hs.passed
  | emptyArray hb he =>
    intro d s
    rw [List.append_assoc, hb.behind_open (.inl rfl), he.behind_close (.inl rfl)]
  | array hb _ he ih =>
    intro d s
    rw [List.append_assoc, List.append_assoc, hb.behind_open (.inl rfl), ih,
      he.behind_close (.inl rfl)]
  | emptyObject hb he =>
    intro d s
    rw [List.append_assoc, hb.behind_open (.inr rfl), he.behind_close (.inr rfl)]
  | object hb _ he ih =>
    intro d s
    rw [List.append_assoc, List.append_assoc, hb.behind_open (.inr rfl), ih,
      he.behind_close (.inr rfl)]
  | element _ ih => exact ih
  | elements _ hs _ ihv ihs => exact (ihv.append (hs.passed (.inl rfl))).append ihs
  | member hk hs _ ih => exact (hk.passed.append (hs.passed (.inr rfl))).append ih
  | members hk hs _ hs' _ ihv ihs =>
    exact (((hk.passed.append (hs.passed (.inr rfl))).append ihv).append
      (hs'.passed (.inl rfl))).append ihs

theorem closing_ws (hw : Ws w) : closing (w ++ s) = closing s := by
  have hall : ∀ c ∈ w, decide (IsWs c) = true := fun c hc => by simpa using hw c hc
  rw [closing, List.dropWhile_append_of_pos hall]
  rfl

theorem closing_cons (h : ¬ IsWs c) : closing (c :: s) = behind (0, .outside) (c :: s) := by
  rw [closing, List.dropWhile_cons_of_neg (by simpa using h)]

theorem closing_append (h : closing s = some r) : closing (s ++ x) = some (r ++ x) := by
  rcases split_first s with hs | ⟨w, c, t, rfl, hw, hc⟩
  · rw [← List.append_nil s, closing_ws hs] at h
    cases h
  · rw [closing_ws hw, closing_cons hc] at h
    rw [List.append_assoc, closing_ws hw, List.cons_append, closing_cons hc, ← List.cons_append]
    exact behind_append h

/-- A value that begins with a quote or a bracket, and that it is over is seen from its end. -/
structure Closed (v : List Char) : Prop where
  first : ∃ c ∈ ['"', '[', '{'], first v = some c
  closing : ∃ w, Ws w ∧ ∀ x, closing (v ++ x) = some (w ++ x)

theorem closed_bracket {b e : List Char} {c c' : Char} (hb : Structural c b)
    (he : Structural c' e) (hc : c = '[' ∧ c' = ']' ∨ c = '{' ∧ c' = '}') (hp : Passed p) :
    Closed (b ++ p ++ e) := by
  obtain ⟨w, w', hw, hw', rfl⟩ := hb
  obtain ⟨u, u', hu, hu', rfl⟩ := he
  have hws : ¬ IsWs c := by rcases hc with ⟨rfl, -⟩ | ⟨rfl, -⟩ <;> decide
  have hassoc : w ++ c :: w' ++ p ++ (u ++ c' :: u')
      = w ++ c :: ((w' ++ p ++ u) ++ c' :: u') := by simp
  rw [hassoc]
  refine ⟨⟨c, ?_, first_append hw hws⟩, u', hu', fun x => ?_⟩
  · rcases hc with ⟨rfl, -⟩ | ⟨rfl, -⟩ <;> decide
  · have hpass : Passed (w' ++ p ++ u) := ((Passed.ws hw').append hp).append (.ws hu)
    have hinner := hpass 0 (c' :: (u' ++ x))
    rw [List.append_assoc, closing_ws hw, List.cons_append, closing_cons hws, behind]
    rcases hc with ⟨rfl, rfl⟩ | ⟨rfl, rfl⟩ <;>
      simpa [follow, Place.next, behind] using hinner

theorem Str.closed (h : Str v) : Closed v := by
  obtain ⟨cs, hcs, rfl⟩ := h
  refine ⟨⟨'"', by decide, first_append .nil (by decide)⟩, [], .nil, fun x => ?_⟩
  have hchars := behind_chars 0 x hcs
  rw [if_pos rfl] at hchars
  rw [List.cons_append, closing_cons (by decide)]
  simpa [behind, follow, Place.next] using hchars

theorem Derives.closed (h : Derives .value v) : (v ∈ literals ∨ Number v) ∨ Closed v := by
  cases h with
  | literal hw => exact .inl (.inl hw)
  | number hw => exact .inl (.inr hw)
  | string hs => exact .inr hs.closed
  | emptyArray hb he =>
    right
    simpa using closed_bracket hb he (.inl ⟨rfl, rfl⟩) .nil
  | array hb hes he => exact .inr (closed_bracket hb he (.inl ⟨rfl, rfl⟩) hes.passed)
  | emptyObject hb he =>
    right
    simpa using closed_bracket hb he (.inr ⟨rfl, rfl⟩) .nil
  | object hb hms he => exact .inr (closed_bracket hb he (.inr ⟨rfl, rfl⟩) hms.passed)

theorem isWord_of_literal_or_number (h : v ∈ literals ∨ Number v) :
    v ≠ [] ∧ ∀ c ∈ v, IsWord c := h.elim literal_isWord Number.isWord

def NumberText (s : List Char) : Prop := ∃ a v b, Ws a ∧ Number v ∧ Ws b ∧ s = a ++ v ++ b

theorem Number.head (h : Number v) : ∃ c t, v = c :: t ∧ (c = '-' ∨ IsDigit c) := by
  obtain ⟨m, i, f, e, rfl, rfl | rfl, hi, -, -⟩ := h
  · rcases hi with rfl | ⟨⟨hne, hdigits⟩, -⟩
    · exact ⟨'0', _, rfl, .inr (by decide)⟩
    · obtain ⟨c, t, rfl⟩ := List.exists_cons_of_ne_nil hne
      exact ⟨c, _, rfl, .inr (hdigits c List.mem_cons_self)⟩
  · exact ⟨'-', _, rfl, .inl rfl⟩

theorem literal_head (h : v ∈ literals) : ∃ c t, v = c :: t ∧ c ≠ '-' ∧ ¬ IsDigit c := by
  simp only [literals, List.mem_cons, List.not_mem_nil, or_false] at h
  rcases h with rfl | rfl | rfl
  · exact ⟨'f', _, rfl, by decide, by decide⟩
  · exact ⟨'n', _, rfl, by decide, by decide⟩
  · exact ⟨'t', _, rfl, by decide, by decide⟩

theorem literal_of_letter (h : c :: r ∈ literals)
    (hv : c :: v ∈ literals ∨ Number (c :: v)) : v = r := by
  rcases hv with hv | hv
  · simp only [literals, List.mem_cons, List.not_mem_nil, or_false] at h hv
    rcases h with h | h | h <;> rcases hv with hv | hv | hv <;> simp_all
  · obtain ⟨_, t, ht, hminus, hdigit⟩ := literal_head h
    obtain ⟨_, t', ht', hc⟩ := hv.head
    obtain rfl := (List.cons.inj ht).1
    obtain rfl := (List.cons.inj ht').1
    tauto

theorem word_prefix (hv : v ∈ literals ∨ Number v) (hw : v ++ x ∈ literals ∨ Number (v ++ x)) :
    x = [] ∨ (Number v ∧ Number (v ++ x)) := by
  rcases hv with hv | hv <;> rcases hw with hw | hw
  · left
    simp only [literals, List.mem_cons, List.not_mem_nil, or_false] at hv hw
    rcases hv with rfl | rfl | rfl <;> simpa using hw
  · obtain ⟨c, t, rfl, hminus, hdigit⟩ := literal_head hv
    obtain ⟨c', t', heq, hc'⟩ := hw.head
    obtain rfl := (List.cons.inj heq).1
    tauto
  · obtain ⟨c, t, rfl, hc⟩ := hv.head
    obtain ⟨c', t', heq, hminus, hdigit⟩ := literal_head hw
    obtain rfl := (List.cons.inj heq).1
    tauto
  · exact .inr ⟨hv, hw⟩

theorem skip_word {a b : List Char} (ha : Ws a) (hv : v ≠ [] ∧ ∀ c ∈ v, IsWord c)
    (hb : Bounded b) : first (a ++ v ++ b) = v.head?
      ∧ ((a ++ v ++ b).dropWhile fun c => IsWs c) = v ++ b
      ∧ ((v ++ b).takeWhile fun c => IsWord c) = v := by
  obtain ⟨c, t, rfl⟩ := List.exists_cons_of_ne_nil hv.1
  have hc : ¬ IsWs c := (hv.2 c List.mem_cons_self).1
  have hall : ∀ d ∈ a, decide (IsWs d) = true := fun d hd => by simpa using ha d hd
  have hword : ∀ d ∈ c :: t, decide (IsWord d) = true := fun d hd => by simpa using hv.2 d hd
  refine ⟨?_, ?_, ?_⟩
  · rw [List.append_assoc]
    exact first_append ha hc
  · rw [List.append_assoc, List.dropWhile_append_of_pos hall, List.cons_append,
      List.dropWhile_cons_of_neg (by simpa using hc)]
  · rw [List.takeWhile_append_of_pos hword]
    cases b with
    | nil => simp
    | cons d b =>
      have hd : ¬ IsWord d := hb d rfl
      rw [List.takeWhile_cons_of_neg (by simpa using hd), List.append_nil]

def WordText (s : List Char) (v : List Char) : Prop :=
  (v ∈ literals ∨ Number v) ∧ ∃ a b, Ws a ∧ Ws b ∧ s = a ++ v ++ b

theorem Text.shape (h : Text s) : (∃ v, WordText s v) ∨
    (∃ c ∈ ['"', '[', '{'], Json.first s = some c) ∧ ∃ r, Ws r ∧ Json.closing s = some r := by
  obtain ⟨a, v, b, ha, hv, hb, rfl⟩ := h
  rcases hv.closed with hw | ⟨⟨c, hc, hfirst⟩, w, hw, hclose⟩
  · exact .inl ⟨v, hw, a, b, ha, hb, rfl⟩
  · refine .inr ⟨⟨c, hc, ?_⟩, w ++ b, List.forall_mem_append.2 ⟨hw, hb⟩, ?_⟩
    · rcases split_first v with hws | ⟨u, d, t, rfl, hu, hd⟩
      · rw [first_of_ws hws] at hfirst
        cases hfirst
      · rw [first_append hu hd] at hfirst
        have hau : Ws (a ++ u) := List.forall_mem_append.2 ⟨ha, hu⟩
        rw [← hfirst]
        simpa using first_append (s := t ++ b) hau hd
    · rw [List.append_assoc, closing_ws ha, hclose]

theorem first_append_of_some (h : first s = some c) : first (s ++ x) = some c := by
  rcases split_first s with hws | ⟨w, d, t, rfl, hw, hd⟩
  · rw [first_of_ws hws] at h
    cases h
  · rw [first_append hw hd] at h
    rw [List.append_assoc, List.cons_append, first_append hw hd, h]

theorem WordText.first (h : WordText s v) : ∃ c, Json.first s = some c ∧ IsWord c := by
  obtain ⟨hv, a, b, ha, hb, rfl⟩ := h
  have hword := isWord_of_literal_or_number hv
  obtain ⟨c, t, rfl⟩ := List.exists_cons_of_ne_nil hword.1
  exact ⟨c, (skip_word ha hword hb.bounded).1, hword.2 c List.mem_cons_self⟩

theorem not_isWord_of_quote_or_bracket (hc : c ∈ ['"', '[', '{']) : ¬ IsWord c := by
  simp only [List.mem_cons, List.not_mem_nil, or_false] at hc
  rcases hc with rfl | rfl | rfl <;> decide

theorem WordText.extend (h : WordText p v) (hx : WordText (p ++ x) w) :
    Ws x ∨ (NumberText p ∧ NumberText (p ++ x)) := by
  obtain ⟨hv, a, b, ha, hb, rfl⟩ := h
  obtain ⟨hw, a', b', ha', hb', heq⟩ := hx
  have hv₁ := isWord_of_literal_or_number hv
  obtain ⟨-, hdrop, htake⟩ := skip_word ha' (isWord_of_literal_or_number hw) hb'.bounded
  have hall : ∀ c ∈ v, decide (IsWord c) = true := fun c hc => by simpa using hv₁.2 c hc
  have hrest : v ++ (b ++ x) = w ++ b' := by
    obtain ⟨c, t, rfl⟩ := List.exists_cons_of_ne_nil hv₁.1
    have hc : ¬ IsWs c := (hv₁.2 c List.mem_cons_self).1
    have hws : ∀ d ∈ a, decide (IsWs d) = true := fun d hd => by simpa using ha d hd
    rw [← heq, List.append_assoc, List.append_assoc, List.dropWhile_append_of_pos hws,
      List.cons_append, List.dropWhile_cons_of_neg (by simpa using hc)] at hdrop
    exact hdrop
  -- the second word is the first with what follows it up to the next that is no word character
  have hword : v ++ (b ++ x).takeWhile (fun c => IsWord c) = w := by
    rw [← htake, ← hrest, List.takeWhile_append_of_pos hall]
  rw [← hword] at hw hrest
  rcases word_prefix hv hw with hnil | ⟨hnum, hnum'⟩
  · rw [hnil, List.append_nil] at hrest
    rw [List.append_cancel_left_eq] at hrest
    exact .inl fun c hc => hb' c (hrest ▸ List.mem_append_right b hc)
  · refine .inr ⟨⟨a, v, b, ha, hnum, hb, rfl⟩, a', w, b', ha', hword ▸ hnum', hb', heq⟩

theorem Text.extend (h : Text p) (hx : Text (p ++ x)) :
    Ws x ∨ (NumberText p ∧ NumberText (p ++ x)) := by
  rcases h.shape with ⟨v, hv⟩ | ⟨⟨c, hc, hfirst⟩, r, hr, hclose⟩ <;>
    rcases hx.shape with ⟨w, hw⟩ | ⟨⟨c', hc', hfirst'⟩, r', hr', hclose'⟩
  · exact hv.extend hw
  · obtain ⟨d, hd, hword⟩ := hv.first
    rw [first_append_of_some hd, Option.some_inj] at hfirst'
    exact absurd hword (hfirst' ▸ not_isWord_of_quote_or_bracket hc')
  · obtain ⟨d, hd, hword⟩ := hw.first
    rw [first_append_of_some hfirst, Option.some_inj] at hd
    exact absurd hword (hd ▸ not_isWord_of_quote_or_bracket hc)
  · rw [closing_append hclose, Option.some_inj] at hclose'
    exact .inl fun c hc => hr' c (hclose' ▸ List.mem_append_right r hc)

/-- From outside of strings, `p` leads outside of strings. -/
def Whole (p : List Char) : Prop := place p = .outside

theorem place_append (p s : List Char) : place (p ++ s) = s.foldl Place.next (place p) :=
  List.foldl_append

theorem Whole.place_append (hp : Whole p) : place (p ++ s) = place s := by
  rw [Json.place_append, show place p = .outside from hp]
  rfl

theorem whole_of_no_quote : ∀ {p : List Char}, '"' ∉ p → Whole p
  | [], _ => rfl
  | c :: p, h => by
    rw [List.mem_cons, not_or] at h
    have hp : Whole p := whole_of_no_quote h.2
    rw [Whole, place, List.foldl_cons, Place.next, if_neg (Ne.symm h.1)]
    exact hp

theorem foldl_chars {cs : List Char} (h : Chars cs) :
    (cs ++ ['"']).foldl Place.next .inside = .outside := by
  induction h with
  | nil => rfl
  | plain hc _ ih => simpa [Place.next, hc.2.1, hc.2.2] using ih
  | escape hc _ ih => simpa [Place.next] using ih
  | unicode ha hb hc hd _ ih =>
    simpa [Place.next, ha.ne_quote, hb.ne_quote, hc.ne_quote, hd.ne_quote] using ih

theorem foldl_chars_ne {cs : List Char} (h : Chars cs) : ∀ {p t : List Char} {c : Char},
    cs ++ ['"'] = p ++ c :: t → p.foldl Place.next .inside ≠ .outside := by
  induction h with
  | nil =>
    intro p t c heq
    rcases p with _ | ⟨d, p⟩
    · simp
    · simp at heq
  | plain hc _ ih =>
    intro p t c heq
    rcases p with _ | ⟨d, p⟩
    · simp
    · simp only [List.cons_append, List.cons.injEq] at heq
      simpa [Place.next, ← heq.1, hc.2.1, hc.2.2] using ih heq.2
  | escape hc _ ih =>
    intro p t c heq
    rcases p with _ | ⟨d, _ | ⟨d', p⟩⟩
    · simp
    · simp only [List.cons_append, List.cons.injEq] at heq
      simp [Place.next, ← heq.1]
    · simp only [List.cons_append, List.cons.injEq] at heq
      simpa [Place.next, ← heq.1] using ih heq.2.2
  | unicode ha hb hc hd _ ih =>
    intro p t c heq
    rcases p with _ | ⟨d₁, _ | ⟨d₂, _ | ⟨d₃, _ | ⟨d₄, _ | ⟨d₅, _ | ⟨d₆, p⟩⟩⟩⟩⟩⟩ <;>
      simp only [List.cons_append, List.nil_append, List.cons.injEq] at heq
    · simp
    · simp [Place.next, ← heq.1]
    · simp [Place.next, ← heq.1]
    · simp [Place.next, ← heq.1, ← heq.2.2.1, ha.ne_quote]
    · simp [Place.next, ← heq.1, ← heq.2.2.1, ← heq.2.2.2.1, ha.ne_quote, hb.ne_quote]
    · simp [Place.next, ← heq.1, ← heq.2.2.1, ← heq.2.2.2.1, ← heq.2.2.2.2.1, ha.ne_quote,
        hb.ne_quote, hc.ne_quote]
    · simpa [Place.next, ← heq.1, ← heq.2.2.1, ← heq.2.2.2.1, ← heq.2.2.2.2.1, ← heq.2.2.2.2.2.1,
        ha.ne_quote, hb.ne_quote, hc.ne_quote, hd.ne_quote] using ih heq.2.2.2.2.2.2

/-- `v` is whole, and `P` holds of it with whitespace on either side of any structural character
that stands in it outside of strings. -/
structure Loose (P : List Char → Prop) (v : List Char) : Prop where
  whole : Whole v
  insert : ∀ {p s c w w'}, v = p ++ c :: s → IsMark c → Whole p → Ws w → Ws w' →
    P (p ++ w ++ c :: (w' ++ s))

variable {P Q : List Char → Prop} {y : List Char}

theorem Loose.mono (h : Loose P v) (hPQ : ∀ u, P u → Q u) : Loose Q v :=
  ⟨h.whole, fun heq hc hp hw hw' => hPQ _ (h.insert heq hc hp hw hw')⟩

theorem Loose.append (hx : Loose P x) (hy : Loose Q y) (hPx : P x) (hQy : Q y) :
    Loose (fun u => ∃ x y, P x ∧ Q y ∧ u = x ++ y) (x ++ y) := by
  refine ⟨by rw [Whole, hx.whole.place_append, hy.whole], fun {p s c w w'} heq hc hp hw hw' => ?_⟩
  rcases List.append_eq_append_iff.1 heq with ⟨t, rfl, rfl⟩ | ⟨_ | ⟨d, t⟩, rfl, ht⟩
  · have htail : Whole t := by rwa [Whole, hx.whole.place_append] at hp
    exact ⟨x, _, hPx, hy.insert rfl hc htail hw hw', by simp⟩
  · rw [List.nil_append] at ht
    refine ⟨p, _, by simpa using hPx, hy.insert (p := []) ht.symm hc rfl hw hw', by simp⟩
  · obtain ⟨rfl, rfl⟩ := List.cons.inj ht
    exact ⟨_, y, hx.insert rfl hc hp hw hw', hQy, by simp⟩

theorem Ws.no_mark (h : Ws w) (hc : IsMark c) : c ∉ w := fun hmem => not_isMark_of_ws (h c hmem) hc

theorem Ws.no_quote (h : Ws w) : '"' ∉ w := fun hmem => ne_quote_of_ws (h _ hmem) rfl

theorem Structural.loose {d : Char} (h : Structural d p) (hd : IsMark d) :
    Loose (Structural d) p := by
  obtain ⟨u, u', hu, hu', rfl⟩ := h
  refine ⟨whole_of_no_quote ?_, fun {p s c w w'} heq hc hp hw hw' => ?_⟩
  · rw [List.mem_append, List.mem_cons, not_or, not_or]
    exact ⟨hu.no_quote, Ne.symm (ne_quote_of_mark hd), hu'.no_quote⟩
  · rcases List.append_eq_append_iff.1 heq with ⟨t, rfl, ht⟩ | ⟨t, rfl, ht⟩
    · rcases t with _ | ⟨e, t⟩
      · obtain ⟨rfl, rfl⟩ := List.cons.inj ht
        refine ⟨u ++ w, w' ++ u', List.forall_mem_append.2 ⟨hu, hw⟩,
          List.forall_mem_append.2 ⟨hw', hu'⟩, by simp⟩
      · obtain ⟨rfl, rfl⟩ := List.cons.inj ht
        exact absurd (List.mem_append_right t List.mem_cons_self) (hu'.no_mark hc)
    · rcases t with _ | ⟨e, t⟩
      · obtain ⟨rfl, rfl⟩ := List.cons.inj ht
        refine ⟨p ++ w, w' ++ s, ?_, List.forall_mem_append.2 ⟨hw', hu'⟩, by simp⟩
        rw [List.append_nil] at hu
        exact List.forall_mem_append.2 ⟨hu, hw⟩
      · obtain ⟨rfl, rfl⟩ := List.cons.inj ht
        exact absurd (List.mem_append_right p List.mem_cons_self) (hu.no_mark hc)

theorem Str.loose (h : Str v) : Loose P v := by
  obtain ⟨cs, hcs, rfl⟩ := h
  refine ⟨foldl_chars hcs, fun {p s c w w'} heq hc hp _ _ => ?_⟩
  rcases p with _ | ⟨d, p⟩
  · rw [List.nil_append] at heq
    exact absurd hc ((List.cons.inj heq).1 ▸ by decide)
  · simp only [List.cons_append, List.cons.injEq] at heq
    obtain ⟨rfl, heq⟩ := heq
    exact absurd hp (foldl_chars_ne hcs heq)

theorem loose_word (h : ∀ c ∈ v, IsWord c) : Loose P v :=
  ⟨whole_of_no_quote fun hmem => (h _ hmem).2.2 rfl, fun {p _ c _ _} heq hc _ _ _ =>
    absurd hc (h c (heq ▸ List.mem_append_right p List.mem_cons_self)).2.1⟩

theorem Derives.loose (h : Derives σ v) : Loose (Derives σ) v := by
  induction h with
  | literal hw => exact loose_word (literal_isWord hw).2
  | number hw => exact loose_word hw.isWord.2
  | string hs => exact hs.loose
  | emptyArray hb he =>
    refine ((hb.loose (by decide)).append (he.loose (by decide)) hb he).mono ?_
    rintro _ ⟨b, e, hb, he, rfl⟩
    exact .emptyArray hb he
  | array hb hes he ih =>
    refine (((hb.loose (by decide)).append ih hb hes).append (he.loose (by decide))
      ⟨_, _, hb, hes, rfl⟩ he).mono ?_
    rintro _ ⟨_, e, ⟨b, es, hb, hes, rfl⟩, he, rfl⟩
    exact .array hb hes he
  | emptyObject hb he =>
    refine ((hb.loose (by decide)).append (he.loose (by decide)) hb he).mono ?_
    rintro _ ⟨b, e, hb, he, rfl⟩
    exact .emptyObject hb he
  | object hb hms he ih =>
    refine (((hb.loose (by decide)).append ih hb hms).append (he.loose (by decide))
      ⟨_, _, hb, hms, rfl⟩ he).mono ?_
    rintro _ ⟨_, e, ⟨b, ms, hb, hms, rfl⟩, he, rfl⟩
    exact .object hb hms he
  | element _ ih => exact ih.mono fun _ => .element
  | elements hv hs hes ihv ihs =>
    refine (((ihv.append (hs.loose (by decide)) hv hs).append ihs ⟨_, _, hv, hs, rfl⟩ hes)).mono ?_
    rintro _ ⟨_, es, ⟨v, s, hv, hs, rfl⟩, hes, rfl⟩
    exact .elements hv hs hes
  | member hk hs hv ih =>
    refine (((hk.loose (P := Str)).append (hs.loose (by decide)) hk hs).append ih
      ⟨_, _, hk, hs, rfl⟩ hv).mono ?_
    rintro _ ⟨_, v, ⟨k, s, hk, hs, rfl⟩, hv, rfl⟩
    exact .member hk hs hv
  | members hk hs hv hs' hms ihv ihs =>
    refine (((((hk.loose (P := Str)).append (hs.loose (by decide)) hk hs).append ihv
      ⟨_, _, hk, hs, rfl⟩ hv).append (hs'.loose (by decide)) ⟨_, _, ⟨_, _, hk, hs, rfl⟩, hv, rfl⟩
      hs').append ihs ⟨_, _, ⟨_, _, ⟨_, _, hk, hs, rfl⟩, hv, rfl⟩, hs', rfl⟩ hms).mono ?_
    rintro _ ⟨_, ms, ⟨_, s', ⟨_, v, ⟨k, s, hk, hs, rfl⟩, hv, rfl⟩, hs', rfl⟩, hms, rfl⟩
    exact .members hk hs hv hs' hms

theorem loose_ws (h : Ws v) : Loose Ws v :=
  ⟨whole_of_no_quote h.no_quote, fun {p _ _ _ _} heq hc _ _ _ =>
    absurd (heq ▸ List.mem_append_right p List.mem_cons_self) (h.no_mark hc)⟩

theorem Text.insert (h : Text (p ++ c :: s)) (hc : IsMark c) (hp : Whole p) {w w' : List Char}
    (hw : Ws w) (hw' : Ws w') : Text (p ++ w ++ c :: (w' ++ s)) := by
  obtain ⟨a, v, b, ha, hv, hb, heq⟩ := h
  have hloose := ((loose_ws ha).append hv.loose ha hv).append (loose_ws hb) ⟨_, _, ha, hv, rfl⟩ hb
  obtain ⟨_, b, ⟨a, v, ha, hv, rfl⟩, hb, htext⟩ := hloose.insert heq.symm hc hp hw hw'
  exact ⟨a, v, b, ha, hv, hb, htext⟩

theorem Text.ws_append (h : Text s) (hw : Ws w) : Text (w ++ s) := by
  obtain ⟨a, v, b, ha, hv, hb, rfl⟩ := h
  exact ⟨w ++ a, v, b, List.forall_mem_append.2 ⟨hw, ha⟩, hv, hb, by simp⟩

theorem Text.append_ws (h : Text s) (hw : Ws w) : Text (s ++ w) := by
  obtain ⟨a, v, b, ha, hv, hb, rfl⟩ := h
  exact ⟨a, v, b ++ w, ha, hv, List.forall_mem_append.2 ⟨hb, hw⟩, by simp⟩

def cut (s : List Char) : Scan := s.foldl Scan.next .between

namespace Scan

def place : Scan → Place
  | .string => .inside
  | .escape => .escaped
  | _ => .outside

theorem place_start (c : Char) : (start c).place = Place.next .outside c := by
  by_cases hword : IsWord c
  · simp [start, hword, place, Place.next, hword.2.2]
  · rw [start, if_neg hword]
    by_cases hquote : c = '"' <;> simp [hquote, place, Place.next]

theorem place_next (m : Scan) (c : Char) : (m.next c).place = m.place.next c := by
  cases m with
  | between => exact place_start c
  | word w =>
    by_cases hword : IsWord c
    · simp [next, hword, place, Place.next, hword.2.2]
    · rw [next, if_neg hword]
      exact place_start c
  | string =>
    by_cases hquote : c = '"'
    · simp [next, hquote, place, Place.next]
    · by_cases hback : c = '\\' <;> simp [next, hquote, hback, place, Place.next]
  | escape => rfl

theorem next_of_outside {m : Scan} (hm : m.place = .outside) (hword : ¬ IsWord c)
    (hquote : c ≠ '"') : m.next c = .between := by
  cases m <;> simp_all [place, next, start]

theorem next_quote {m : Scan} (hm : m.place = .outside) : m.next '"' = .string := by
  have hquote : ¬ IsWord '"' := by decide
  cases m <;> simp_all [place, next, start]

theorem next_word (hword : IsWord c) : next .between c = .word [c] := by
  simp [next, start, hword]

end Scan

theorem place_foldl_next : ∀ (s : List Char) (m : Scan),
    (s.foldl Scan.next m).place = s.foldl Place.next m.place
  | [], _ => rfl
  | c :: s, m => by rw [List.foldl_cons, place_foldl_next s, Scan.place_next, List.foldl_cons]

theorem whole_iff_cut : Whole s ↔ (cut s).place = .outside := by
  rw [Whole, place, cut, place_foldl_next]
  rfl

theorem scan_append (s : List Char) : ∀ (p : List Char) (m : Scan),
    ∃ ts, scan m (p ++ s) = ts ++ scan (p.foldl Scan.next m) s
  | [], _ => ⟨[], rfl⟩
  | c :: p, m => by
    obtain ⟨ts, hts⟩ := scan_append s p (m.next c)
    exact ⟨m.emit c ++ ts, by rw [List.cons_append, scan, hts, List.append_assoc, List.foldl_cons]⟩

theorem Text.word_goes_on (h : Text (p ++ s)) (hp : cut p = .word v) :
    v ++ s.takeWhile (fun c => IsWord c) ∈ literals
      ∨ Number (v ++ s.takeWhile fun c => IsWord c) := by
  obtain ⟨ts, hts⟩ := scan_append s p .between
  have hword : ∀ c ∈ s.takeWhile (fun c => IsWord c), IsWord c := fun c hc => by
    simpa using List.mem_takeWhile_imp hc
  have hbounded : Bounded (s.dropWhile fun c => IsWord c) := fun c hc => by
    have hnot := List.head?_dropWhile_not (fun c => decide (IsWord c)) s
    rw [Option.mem_def.1 hc] at hnot
    simpa using hnot
  have hscan := scan_word _ v _ hword hbounded
  rw [List.takeWhile_append_dropWhile] at hscan
  refine h.tidy.words _ ?_
  rw [tokens, hts, show p.foldl Scan.next .between = .word v from hp, hscan]
  exact List.mem_append_right ts List.mem_cons_self

variable {d : Char}

theorem Structural.of_cons {b : List Char} (h : Structural c b) (hc : ¬ IsWs c) (hd : IsWs d)
    (heq : d :: v = b ++ r) : ∃ b', Structural c b' ∧ v = b' ++ r := by
  obtain ⟨_ | ⟨y, w⟩, w', hw, hw', rfl⟩ := h
  · obtain ⟨rfl, -⟩ := List.cons.inj heq
    exact absurd hd hc
  · obtain ⟨rfl, rfl⟩ := List.cons.inj heq
    exact ⟨w ++ c :: w', .of_ws (List.forall_mem_cons.1 hw).2 hw', rfl⟩

theorem Derives.of_cons (h : Derives .value (d :: v)) (hd : IsWs d) : Derives .value v := by
  generalize hσ : Symbol.value = σ, hu : d :: v = u at h
  cases h with
  | literal hw => exact absurd hd ((literal_isWord hw).2 d (hu ▸ List.mem_cons_self)).1
  | number hn => exact absurd hd (hn.isWord.2 d (hu ▸ List.mem_cons_self)).1
  | string hs =>
    obtain ⟨cs, rfl⟩ := hs.cons_append
    exact absurd (List.cons.inj hu).1 (ne_quote_of_ws hd)
  | emptyArray hb he =>
    obtain ⟨b, hb, rfl⟩ := hb.of_cons (by decide) hd hu
    exact .emptyArray hb he
  | array hb hes he =>
    obtain ⟨b, hb, rfl⟩ := hb.of_cons (by decide) hd (hu.trans (List.append_assoc _ _ _))
    exact List.append_assoc b _ _ ▸ .array hb hes he
  | emptyObject hb he =>
    obtain ⟨b, hb, rfl⟩ := hb.of_cons (by decide) hd hu
    exact .emptyObject hb he
  | object hb hms he =>
    obtain ⟨b, hb, rfl⟩ := hb.of_cons (by decide) hd (hu.trans (List.append_assoc _ _ _))
    exact List.append_assoc b _ _ ▸ .object hb hms he
  | element _ | elements _ _ _ | member _ _ _ | members _ _ _ _ _ => cases hσ

theorem Derives.value_ne_nil (h : Derives .value v) : v ≠ [] := by
  rintro rfl
  obtain ⟨ts, hts, hp⟩ := h.phrase
  obtain ⟨t, hhead, -⟩ := hp.head
  have hnil : ts = [] := by simpa using (hts [] .nil).symm
  simp [hnil] at hhead

theorem Text.of_ws_append (hw : Ws w) (h : Text (w ++ s)) : Text s := by
  induction w with
  | nil => exact h
  | cons d w ih =>
    obtain ⟨hd, hw⟩ := List.forall_mem_cons.1 hw
    refine ih hw ?_
    obtain ⟨_ | ⟨y, a⟩, v, b, ha, hv, hb, heq⟩ := h
    · obtain ⟨y, v, rfl⟩ := List.exists_cons_of_ne_nil hv.value_ne_nil
      obtain ⟨rfl, hrest⟩ := List.cons.inj heq
      exact ⟨[], v, b, .nil, hv.of_cons hd, hb, hrest⟩
    · obtain ⟨rfl, hrest⟩ := List.cons.inj heq
      exact ⟨a, v, b, (List.forall_mem_cons.1 ha).2, hv, hb, hrest⟩

end Json
