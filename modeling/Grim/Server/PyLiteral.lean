import Grim.Server.ToolParse

/-!
# Python literals

The values of keyword arguments as they are written in Python.  A string has its quotes and its
escapes, and `True`, `False` and `None` are words of their own.  The parser reads a value by its
text: a list or a dictionary as JSON, a string as what stands between its quotes.
-/

namespace Grim.Server

open FloatFormat JsonValue Markers Text List Option

inductive Quote
  | single | double
deriving DecidableEq

def Quote.char : Quote → Char
  | single => '\''
  | double => '"'

inductive Literal
  | str (q : Quote) (s : List Char)
  | int (i : ℤ)
  | bool (b : Bool)
  | none
  | list (items : List Literal)
  | dict (entries : List ((Quote × List Char) × Literal))

def escapeChar (q : Quote) (c : Char) : List Char :=
  if c = q.char ∨ c = '\\' then ['\\', c]
  else if c = '\n' then ['\\', 'n']
  else if c = '\r' then ['\\', 'r']
  else if c = '\t' then ['\\', 't']
  else if c < ' ' then
    ['\\', 'u', '0', '0', (c.toNat / 16).digitChar, (c.toNat % 16).digitChar]
  else [c]

def quoteText (q : Quote) (s : List Char) : List Char :=
  q.char :: (s.flatMap (escapeChar q) ++ [q.char])

def intText (i : ℤ) : List Char :=
  if i < 0 then '-' :: Nat.toDigits 10 i.natAbs else Nat.toDigits 10 i.natAbs

def commaText : List Char := [',', ' ']

namespace Literal

mutual

def text : Literal → List Char
  | .str q s => quoteText q s
  | .int i => intText i
  | .bool b => if b then "True".toList else "False".toList
  | .none => "None".toList
  | .list items => '[' :: (itemsText items ++ [']'])
  | .dict entries => '\x7b' :: (entriesText entries ++ ['\x7d'])

def itemsText : List Literal → List Char
  | [] => []
  | [l] => l.text
  | l :: ls => l.text ++ (commaText ++ itemsText ls)

def entriesText : List ((Quote × List Char) × Literal) → List Char
  | [] => []
  | [((q, k), l)] => quoteText q k ++ (':' :: ' ' :: l.text)
  | ((q, k), l) :: es => quoteText q k ++ (':' :: ' ' :: (l.text ++ (commaText ++ entriesText es)))

end

/-- An integer that `serde_json` has a number for. -/
def intNumber (i : ℤ) : Option Number :=
  if -2 ^ 63 ≤ i ∧ i < 2 ^ 63 then some (.ofI64 (.ofInt i))
  else if 0 ≤ i ∧ i < 2 ^ 64 then some (.posInt (.ofNat i.toNat))
  else Option.none

mutual

def value : Literal → Option Value
  | .str _ s => some (.string (.ofList s))
  | .int i => (intNumber i).map .number
  | .bool b => some (.bool b)
  | .none => some .null
  | .list items => (itemsValue items).map .array
  | .dict entries => (entriesValue entries).map fun es => .object (Object.ofEntries es)

def itemsValue : List Literal → Option (List Value)
  | [] => some []
  | l :: ls => do some ((← l.value) :: (← itemsValue ls))

def entriesValue : List ((Quote × List Char) × Literal) → Option (List (String × Value))
  | [] => some []
  | ((_, k), l) :: es => do some ((.ofList k, ← l.value) :: (← entriesValue es))

end

mutual

/-- The text is JSON, with at most `n` brackets within one another. -/
def jsonWithin : ℕ → Literal → Bool
  | _, .str q _ => q = .double
  | _, .int _ => true
  | _, .bool _ => false
  | _, .none => false
  | n, .list items => 0 < n && itemsJson (n - 1) items
  | n, .dict entries => 0 < n && entriesJson (n - 1) entries

def itemsJson : ℕ → List Literal → Bool
  | _, [] => true
  | n, l :: ls => jsonWithin n l && itemsJson n ls

def entriesJson : ℕ → List ((Quote × List Char) × Literal) → Bool
  | _, [] => true
  | n, ((q, _), l) :: es => q = .double && jsonWithin n l && entriesJson n es

end

end Literal

/-- A string needs no escape, an integer is one of 64 bits, and a list or a dictionary is JSON
within the limit of `serde_json`. -/
def Literal.Readable : Literal → Prop
  | .str q s => ∀ c ∈ s, escapeChar q c = [c]
  | .int i => -2 ^ 63 ≤ i ∧ i < 2 ^ 63
  | .bool _ => True
  | .none => True
  | .list items => (Literal.list items).jsonWithin 127 ∧ (Literal.list items).value.isSome
  | .dict entries => (Literal.dict entries).jsonWithin 127 ∧ (Literal.dict entries).value.isSome

/-- `serde_json` reads a literal's text where it is JSON, and as its value. -/
def SerdeStr.Reads (serde : SerdeStr) (l : Literal) : Prop :=
  ∀ v, l.value = some v → ∀ w, serde.fromStr l.text = .ok w ↔ l.jsonWithin 127 ∧ w = v

variable {serde : SerdeStr} {st : Nesting} {text s : List Char} {c : Char}

theorem Quote.char_cases (q : Quote) : q.char = '"' ∨ q.char = '\'' := by
  cases q <;> simp [Quote.char]

theorem isWhitespace_quote (q : Quote) : isWhitespace q.char = false := by
  cases q <;> rfl

theorem intText_chars (i : ℤ) : ∀ c ∈ intText i, c.isDigit = true ∨ c = '-' := by
  have hdigits : ∀ c ∈ Nat.toDigits 10 i.natAbs, c.isDigit = true := fun c hc =>
    Nat.isDigit_of_mem_toDigits (by decide) (by decide) hc
  intro c hc
  rw [intText] at hc
  split_ifs at hc
  · rcases mem_cons.1 hc with rfl | hc
    · exact .inr rfl
    · exact .inl (hdigits c hc)
  · exact .inl (hdigits c hc)

theorem intText_ne_nil (i : ℤ) : intText i ≠ [] := by
  rw [intText]
  split_ifs
  · exact cons_ne_nil _ _
  · exact Nat.toDigits_ne_nil

theorem isWhitespace_of_digit (h : c.isDigit = true ∨ c = '-') : isWhitespace c = false := by
  rcases h with h | rfl
  · have hlow : 48 ≤ c.toNat ∧ c.toNat ≤ 57 := by
      simpa [Char.isDigit, UInt32.le_iff_toNat_le] using h
    simp only [isWhitespace, Bool.or_eq_false_iff, Bool.and_eq_false_iff, decide_eq_false_iff_not]
    omega
  · rfl

theorem Literal.flush : ∀ l : Literal, Flush l.text
  | .str q s => .between (isWhitespace_quote q) (isWhitespace_quote q) _
  | .int i => .of_forall (intText_ne_nil i) fun c hc => isWhitespace_of_digit (intText_chars i c hc)
  | .bool true => .between (c := 'T') (d := 'e') rfl rfl "ru".toList
  | .bool false => .between (c := 'F') (d := 'e') rfl rfl "als".toList
  | .none => .between (c := 'N') (d := 'e') rfl rfl "on".toList
  | .list items => by
    rw [Literal.text]
    exact .between (by decide) (by decide) _
  | .dict entries => by
    rw [Literal.text]
    exact .between (by decide) (by decide) _

theorem Literal.exists_last : ∀ l : Literal, ∃ u d, l.text = u ++ [d] ∧ d ≠ ','
  | .str q s => ⟨q.char :: s.flatMap (escapeChar q), q.char, rfl, by cases q <;> decide⟩
  | .int i => by
    rcases eq_nil_or_concat (intText i) with hnil | ⟨u, d, hd⟩
    · exact absurd hnil (intText_ne_nil i)
    · rw [concat_eq_append] at hd
      refine ⟨u, d, hd, ?_⟩
      rintro rfl
      exact absurd (intText_chars i ',' (by simp [hd])) (by decide)
  | .bool true => ⟨"Tru".toList, 'e', rfl, by decide⟩
  | .bool false => ⟨"Fals".toList, 'e', rfl, by decide⟩
  | .none => ⟨"Non".toList, 'e', rfl, by decide⟩
  | .list items => ⟨'[' :: itemsText items, ']', by rw [Literal.text]; rfl, by decide⟩
  | .dict entries =>
    ⟨'\x7b' :: entriesText entries, '\x7d', by rw [Literal.text]; rfl, by decide⟩

theorem pyLiteralToJson_cons (hflush : Flush (c :: s))
    (hc : c ∉ ['T', 't', 'F', 'f', 'N', 'n']) : pyLiteralToJson serde (c :: s) =
      if quotedBy '"' (c :: s) ∨ quotedBy '\'' (c :: s) then .string (.ofList s.dropLast)
      else
        match parseI64 (c :: s), parseF64 (c :: s) with
        | some i, _ => .number (.ofI64 i)
        | none, some f => jsonF64 f
        | none, none =>
          if c = '[' ∨ c = '\x7b' then
            match serde.fromStr (c :: s) with
            | .ok v => v
            | .error _ => .string (.ofList (c :: s))
          else .string (.ofList (c :: s)) := by
  have hword : ∀ w d u, w = d :: u → d ∈ ['T', 't', 'F', 'f', 'N', 'n'] → c :: s ≠ w := by
    rintro w d u rfl hd heq
    exact hc ((List.cons.inj heq).1 ▸ hd)
  have htrue := not_or.2 ⟨hword "True".toList _ _ rfl (by decide),
    hword "true".toList _ _ rfl (by decide)⟩
  have hfalse := not_or.2 ⟨hword "False".toList _ _ rfl (by decide),
    hword "false".toList _ _ rfl (by decide)⟩
  have hnone := not_or.2 ⟨hword "None".toList _ _ rfl (by decide),
    not_or.2 ⟨hword "null".toList _ _ rfl (by decide), List.cons_ne_nil c s⟩⟩
  have heq := pyLiteralToJson.eq_1 serde (c :: s)
  simp only [hflush.trim] at heq
  rw [if_neg htrue, if_neg hfalse, if_neg hnone] at heq
  simp only [head?_cons, Option.some.injEq, tail_cons] at heq
  exact heq

theorem pyLiteralToJson_str (q : Quote) (s : List Char) :
    pyLiteralToJson serde (quoteText q s) = .string (.ofList (s.flatMap (escapeChar q))) := by
  have hflush : Flush (quoteText q s) :=
    .between (isWhitespace_quote q) (isWhitespace_quote q) _
  have hlast : (quoteText q s).getLast? = some q.char := by
    rw [quoteText, ← List.cons_append, List.getLast?_concat]
  have hquoted : quotedBy q.char (quoteText q s) = true :=
    decide_eq_true ⟨rfl, hlast, by simp [quoteText]⟩
  have heither : quotedBy '"' (quoteText q s) = true ∨ quotedBy '\'' (quoteText q s) = true := by
    rcases q.char_cases with hq | hq <;> rw [hq] at hquoted
    · exact .inl hquoted
    · exact .inr hquoted
  rw [quoteText] at hflush heither ⊢
  rw [pyLiteralToJson_cons hflush (by cases q <;> decide), if_pos heither, dropLast_concat]

theorem ne_sign_of_isDigit (h : c.isDigit = true) : c ≠ '-' ∧ c ≠ '+' := by
  constructor <;>
  · rintro rfl
    revert h
    decide

theorem parseI64_intText (i : ℤ) : parseI64 (intText i) =
    if -2 ^ 63 ≤ i ∧ i < 2 ^ 63 then some (.ofInt i) else none := by
  have hdigit : ∀ c ∈ Nat.toDigits 10 i.natAbs, c.isDigit = true := fun c hc =>
    Nat.isDigit_of_mem_toDigits (by decide) (by decide) hc
  have hdigits : Nat.toDigits 10 i.natAbs ≠ [] ∧
      (Nat.toDigits 10 i.natAbs).all Char.isDigit = true :=
    ⟨Nat.toDigits_ne_nil, List.all_eq_true.2 hdigit⟩
  have hvalue : Nat.ofDigitChars 10 (Nat.toDigits 10 i.natAbs) 0 = i.natAbs :=
    Nat.ofDigitChars_ten_toDigits
  rw [intText]
  by_cases hneg : i < 0
  · have habs : -(i.natAbs : ℤ) = i := by omega
    rw [if_pos hneg]
    simp only [parseI64, if_pos hdigits, hvalue, if_true, habs]
  · have habs : (i.natAbs : ℤ) = i := by omega
    obtain ⟨d, ds, hd⟩ := exists_cons_of_ne_nil hdigits.1
    obtain ⟨hminus, hplus⟩ := ne_sign_of_isDigit (hdigit d (hd ▸ mem_cons_self))
    rw [if_neg hneg, hd, parseI64]
    rw [hd] at hdigits hvalue
    · simp [hvalue, habs, hdigits]
    · exact fun rest heq => hminus (List.cons.inj heq).1
    · exact fun rest heq => hplus (List.cons.inj heq).1

theorem parseI64_bracket (hc : c = '[' ∨ c = '\x7b') : parseI64 (c :: s) = none := by
  rcases hc with rfl | rfl <;> simp [parseI64]

theorem parseF64_bracket (hc : c = '[' ∨ c = '\x7b') : parseF64 (c :: s) = none := by
  rcases hc with rfl | rfl <;> simp [parseF64, parseUnsignedF64, toAsciiLowercase]

theorem pyLiteralToJson_bracket (hflush : Flush (c :: s)) (hc : c = '[' ∨ c = '\x7b') :
    pyLiteralToJson serde (c :: s) =
      match serde.fromStr (c :: s) with
      | .ok v => v
      | .error _ => .string (.ofList (c :: s)) := by
  have hword : c ∉ ['T', 't', 'F', 'f', 'N', 'n'] := by rcases hc with rfl | rfl <;> decide
  have hquote : ¬(quotedBy '"' (c :: s) = true ∨ quotedBy '\'' (c :: s) = true) := by
    rcases hc with rfl | rfl <;> simp [quotedBy]
  rw [pyLiteralToJson_cons hflush hword, if_neg hquote, parseI64_bracket hc, parseF64_bracket hc]
  exact if_pos hc

theorem escapeChar_cases (q : Quote) (c : Char) :
    escapeChar q c = [c] ∨ 2 ≤ (escapeChar q c).length := by
  rw [escapeChar]
  split_ifs <;> simp

theorem flatMap_escapeChar_eq_iff (q : Quote) (s : List Char) :
    s.flatMap (escapeChar q) = s ↔ ∀ c ∈ s, escapeChar q c = [c] := by
  have hlong : ∀ s : List Char, s.length ≤ (s.flatMap (escapeChar q)).length := by
    intro s
    induction s with
    | nil => exact le_rfl
    | cons c s ih =>
      rw [List.flatMap_cons, List.length_append, List.length_cons]
      rcases escapeChar_cases q c with h | h
      · rw [h, List.length_singleton]
        omega
      · omega
  induction s with
  | nil => simp
  | cons c s ih =>
    rw [List.flatMap_cons, List.forall_mem_cons]
    rcases escapeChar_cases q c with h | h
    · rw [h, List.singleton_append]
      exact (List.cons_inj_right c).trans (ih.trans (and_iff_right rfl).symm)
    · refine iff_of_false (fun heq => ?_) fun hall => ?_
      · have hlen := congrArg List.length heq
        have := hlong s
        rw [List.length_append, List.length_cons] at hlen
        omega
      · rw [hall.1, List.length_singleton] at h
        omega

theorem jsonF64_ne_posInt (f n : UInt64) : jsonF64 f ≠ .number (.posInt n) := by
  rw [jsonF64, Number.ofF64]
  split_ifs <;> simp

theorem exists_cons_intText (i : ℤ) : ∃ c s, intText i = c :: s ∧ Flush (c :: s) ∧
    c ∉ ['T', 't', 'F', 'f', 'N', 'n', '"', '\'', '[', '\x7b'] := by
  obtain ⟨c, s, h⟩ := exists_cons_of_ne_nil (intText_ne_nil i)
  have hchars := intText_chars i
  have hflush := (Literal.int i).flush
  rw [Literal.text, h] at hflush
  rw [h] at hchars
  refine ⟨c, s, h, hflush, fun hmem => ?_⟩
  have hnone : ['T', 't', 'F', 'f', 'N', 'n', '"', '\'', '[', '\x7b'].all
      (fun d => !(d.isDigit || d = '-')) = true := by decide
  have hnot := List.all_eq_true.1 hnone c hmem
  rw [Bool.not_eq_true', Bool.or_eq_false_iff, decide_eq_false_iff_not] at hnot
  rcases hchars c List.mem_cons_self with hdigit | hminus
  · rw [hnot.1] at hdigit
    cases hdigit
  · exact hnot.2 hminus

theorem pyLiteralToJson_int (i : ℤ) : pyLiteralToJson serde (intText i) =
    match parseI64 (intText i), parseF64 (intText i) with
    | some i, _ => .number (.ofI64 i)
    | none, some f => jsonF64 f
    | none, none => .string (.ofList (intText i)) := by
  obtain ⟨c, s, h, hflush, hc⟩ := exists_cons_intText i
  have hne : ∀ d ∈ ['T', 't', 'F', 'f', 'N', 'n', '"', '\'', '[', '\x7b'], c ≠ d := by
    rintro d hd rfl
    exact hc hd
  have hquote : ¬(quotedBy '"' (c :: s) = true ∨ quotedBy '\'' (c :: s) = true) := by
    simp [quotedBy, hne '"' (by decide), hne '\'' (by decide)]
  have hbracket : ¬(c = '[' ∨ c = '\x7b') :=
    not_or.2 ⟨hne '[' (by decide), hne '\x7b' (by decide)⟩
  rw [h, pyLiteralToJson_cons hflush (fun hmem => hc (mem_append_left _ hmem)),
    if_neg hquote, if_neg hbracket]

theorem pyLiteralToJson_int_eq_iff {i : ℤ} {n : Number}
    (hn : Literal.intNumber i = some n) :
    pyLiteralToJson serde (intText i) = .number n ↔ -2 ^ 63 ≤ i ∧ i < 2 ^ 63 := by
  rw [pyLiteralToJson_int, parseI64_intText]
  rw [Literal.intNumber] at hn
  by_cases hrange : -2 ^ 63 ≤ i ∧ i < 2 ^ 63
  · rw [if_pos hrange] at hn ⊢
    cases hn
    exact iff_of_true rfl hrange
  · rw [if_neg hrange] at hn ⊢
    refine iff_of_false ?_ hrange
    split_ifs at hn
    cases hn
    rcases parseF64 (intText i) with _ | f
    · exact Value.noConfusion
    · exact jsonF64_ne_posInt f _

theorem bracket_eq_iff {v : Value} {J : Prop} (hread : pyLiteralToJson serde text =
      match serde.fromStr text with
      | .ok v => v
      | .error _ => .string (.ofList text))
    (hserde : ∀ w, serde.fromStr text = .ok w ↔ J ∧ w = v) (hv : ∀ s, v ≠ .string s) :
    pyLiteralToJson serde text = v ↔ J := by
  rw [hread]
  rcases hparse : serde.fromStr text with e | w
  · refine iff_of_false (hv _).symm fun hJ => ?_
    rw [(hserde v).2 ⟨hJ, rfl⟩] at hparse
    cases hparse
  · obtain ⟨hJ, rfl⟩ := (hserde w).1 hparse
    exact iff_of_true rfl hJ

/-- A value is read as it is written exactly where it is readable. -/
theorem pyLiteralToJson_eq_iff {v : Value} : ∀ {l : Literal}, serde.Reads l → l.value = some v →
    (pyLiteralToJson serde l.text = v ↔ l.Readable)
  | .str q s, _, hv => by
    rw [Literal.value] at hv
    cases hv
    rw [Literal.text, pyLiteralToJson_str, Value.string.injEq, String.ofList_inj,
      flatMap_escapeChar_eq_iff]
    rfl
  | .int i, _, hv => by
    rw [Literal.value] at hv
    obtain ⟨n, hn, rfl⟩ := map_eq_some_iff.1 hv
    exact pyLiteralToJson_int_eq_iff hn
  | .bool b, _, hv => by
    rw [Literal.value] at hv
    cases hv
    refine iff_of_true ?_ trivial
    cases b <;> rfl
  | .none, _, hv => by
    rw [Literal.value] at hv
    cases hv
    exact iff_of_true rfl trivial
  | .list items, hserde, hv => by
    have hflush := (Literal.list items).flush
    have hread := hserde v hv
    have hnot : ∀ s, v ≠ .string s := by
      rw [Literal.value] at hv
      obtain ⟨vs, -, rfl⟩ := map_eq_some_iff.1 hv
      exact fun s => Value.noConfusion
    rw [Literal.text] at hflush hread ⊢
    rw [bracket_eq_iff (pyLiteralToJson_bracket hflush (.inl rfl)) hread hnot]
    exact ⟨fun hjson => ⟨hjson, isSome_iff_exists.2 ⟨v, hv⟩⟩, And.left⟩
  | .dict entries, hserde, hv => by
    have hflush := (Literal.dict entries).flush
    have hread := hserde v hv
    have hnot : ∀ s, v ≠ .string s := by
      rw [Literal.value] at hv
      obtain ⟨vs, -, rfl⟩ := map_eq_some_iff.1 hv
      exact fun s => Value.noConfusion
    rw [Literal.text] at hflush hread ⊢
    rw [bracket_eq_iff (pyLiteralToJson_bracket hflush (.inr rfl)) hread hnot]
    exact ⟨fun hjson => ⟨hjson, isSome_iff_exists.2 ⟨v, hv⟩⟩, And.left⟩

theorem Literal.Readable.isSome : ∀ {l : Literal}, l.Readable → l.value.isSome
  | .str _ _, _ => by rw [Literal.value]; rfl
  | .int i, h => by
    have hrange : -2 ^ 63 ≤ i ∧ i < 2 ^ 63 := h
    rw [Literal.value, Literal.intNumber, if_pos hrange]
    rfl
  | .bool _, _ => by rw [Literal.value]; rfl
  | .none, _ => by rw [Literal.value]; rfl
  | .list _, h => h.2
  | .dict _, h => h.2

theorem SerdeStr.reads_of_ok {l : Literal} {v : Value} (hparse : serde.fromStr l.text = .ok v)
    (hjson : l.jsonWithin 127 = true) (hvalue : l.value = some v) : serde.Reads l := by
  intro v' hv' w
  rw [hvalue] at hv'
  cases hv'
  rw [hparse, Except.ok.injEq]
  exact ⟨fun h => ⟨hjson, h.symm⟩, fun h => h.2.symm⟩

theorem SerdeStr.reads_of_error {l : Literal} {e : String}
    (hparse : serde.fromStr l.text = .error e) (hjson : l.jsonWithin 127 = false) :
    serde.Reads l := by
  intro v _ w
  rw [hparse, hjson]
  exact iff_of_false (fun h => nomatch h) fun h => Bool.noConfusion h.1

/-- Where the splitter is behind a text, unless it has met a comma that it splits at. -/
def readOver (st : Nesting) : List Char → Option Nesting
  | [] => some st
  | c :: cs => if c = ',' ∧ st = (0, none) then none else readOver (track st c) cs

theorem readOver_append (st : Nesting) (r s : List Char) :
    readOver st (r ++ s) = (readOver st r).bind fun st' => readOver st' s := by
  induction r generalizing st with
  | nil => rfl
  | cons c r ih =>
    rw [cons_append, readOver, readOver]
    split_ifs
    · rfl
    · exact ih _

namespace Literal

mutual

def quoteFree : Literal → Bool
  | .str q s => q.char ∉ s
  | .int _ => true
  | .bool _ => true
  | .none => true
  | .list items => itemsQuoteFree items
  | .dict entries => entriesQuoteFree entries

def itemsQuoteFree : List Literal → Bool
  | [] => true
  | l :: ls => l.quoteFree && itemsQuoteFree ls

def entriesQuoteFree : List ((Quote × List Char) × Literal) → Bool
  | [] => true
  | ((q, k), l) :: es => q.char ∉ k && l.quoteFree && entriesQuoteFree es

end

end Literal

def marks : List Char := [',', '"', '\'', '(', '[', '\x7b', ')', ']', '\x7d']

variable {d : ℕ} {q : Quote}

theorem readOver_plain (h : ∀ c ∈ s, c ∉ marks) : readOver (d, none) s = some (d, none) := by
  induction s with
  | nil => rfl
  | cons c s ih =>
    obtain ⟨hc, hs⟩ := List.forall_mem_cons.1 h
    have hne : ∀ m ∈ marks, c ≠ m := fun m hm heq => hc (heq ▸ hm)
    have htrack : track (d, none) c = (d, none) := by
      simp [track, hne _ (show '"' ∈ marks by decide), hne _ (show '\'' ∈ marks by decide),
        hne _ (show '(' ∈ marks by decide), hne _ (show '[' ∈ marks by decide),
        hne _ (show '\x7b' ∈ marks by decide), hne _ (show ')' ∈ marks by decide),
        hne _ (show ']' ∈ marks by decide), hne _ (show '\x7d' ∈ marks by decide)]
    rw [readOver, if_neg fun hsplit => hne ',' (by decide) hsplit.1, htrack, ih hs]

theorem readOver_inside {c : Char} (h : c ∉ s) : readOver (d, some c) s = some (d, some c) := by
  induction s with
  | nil => rfl
  | cons e s ih =>
    have htrack : track (d, some c) e = (d, some c) := if_neg (ne_of_not_mem_cons h).symm
    rw [readOver, if_neg (by simp), htrack, ih (not_mem_of_not_mem_cons h)]

theorem quote_ne_digitChar (q : Quote) {n : ℕ} (h : n < 16) : q.char ≠ n.digitChar := by
  interval_cases n <;> cases q <;> decide

theorem quote_notMem_escapeChar (h : q.char ≠ c) : q.char ∉ escapeChar q c := by
  have hletter : ∀ e ∈ ['\\', 'n', 'r', 't', 'u', '0'], q.char ≠ e := by
    have hnone : q.char ∉ ['\\', 'n', 'r', 't', 'u', '0'] := by cases q <;> decide
    exact fun e he heq => hnone (heq ▸ he)
  have hslash := hletter '\\' (by decide)
  rw [escapeChar]
  split_ifs with hown hn hr ht hlow
  · simp [hslash, h]
  · simp [hslash, hletter 'n' (by decide)]
  · simp [hslash, hletter 'r' (by decide)]
  · simp [hslash, hletter 't' (by decide)]
  · have hsmall : c.toNat < 32 := hlow
    simp [hslash, hletter 'u' (by decide), hletter '0' (by decide),
      quote_ne_digitChar q (show c.toNat / 16 < 16 by omega),
      quote_ne_digitChar q (show c.toNat % 16 < 16 by omega)]
  · simpa using h

theorem readOver_quoteText (h : q.char ∉ s) :
    readOver (d, none) (quoteText q s) = some (d, none) := by
  have hinside : q.char ∉ s.flatMap (escapeChar q) := by
    rw [mem_flatMap]
    rintro ⟨c, hc, hmem⟩
    exact quote_notMem_escapeChar (fun heq => h (heq ▸ hc)) hmem
  have hopen : track (d, none) q.char = (d, some q.char) := by cases q <;> rfl
  have hclose : track (d, some q.char) q.char = (d, none) := if_pos rfl
  have hcomma : q.char ≠ ',' := by cases q <;> decide
  rw [quoteText, readOver, if_neg fun hsplit => hcomma hsplit.1, hopen, readOver_append,
    readOver_inside hinside, bind_some, readOver, if_neg fun hsplit => hcomma hsplit.1,
    hclose, readOver]

theorem readOver_comma (hd : 0 < d) : readOver (d, none) commaText = some (d, none) := by
  have hne : ¬(',' = ',' ∧ ((d, none) : Nesting) = (0, none)) := by
    rintro ⟨-, heq⟩
    cases heq
    exact lt_irrefl 0 hd
  rw [commaText, readOver, if_neg hne]
  rfl

theorem readOver_bracket {b e : Char} (hb : b = '[' ∧ e = ']' ∨ b = '\x7b' ∧ e = '\x7d')
    (h : readOver (d + 1, none) s = some (d + 1, none)) :
    readOver (d, none) (b :: (s ++ [e])) = some (d, none) := by
  have hopen : readOver (d, none) (b :: (s ++ [e])) = readOver (d + 1, none) (s ++ [e]) := by
    rcases hb with ⟨rfl, rfl⟩ | ⟨rfl, rfl⟩ <;>
      exact if_neg fun hsplit => absurd hsplit.1 (by decide)
  have hclose : readOver (d + 1, none) [e] = some (d, none) := by
    rcases hb with ⟨rfl, rfl⟩ | ⟨rfl, rfl⟩ <;> rfl
  rw [hopen, readOver_append, h, bind_some, hclose]

theorem readOver_intText (i : ℤ) : readOver (d, none) (intText i) = some (d, none) := by
  refine readOver_plain fun c hc hmark => ?_
  have hnone : marks.all (fun m => !(m.isDigit || m = '-')) = true := by decide
  have hnot := List.all_eq_true.1 hnone c hmark
  rw [Bool.not_eq_true', Bool.or_eq_false_iff, decide_eq_false_iff_not] at hnot
  rcases intText_chars i c hc with hdigit | hminus
  · rw [hnot.1] at hdigit
    cases hdigit
  · exact hnot.2 hminus

namespace Literal

mutual

theorem readOver_text : ∀ (l : Literal) (d : ℕ), l.quoteFree = true →
    readOver (d, Option.none) l.text = some (d, Option.none)
  | .str q s, d, h => by
    rw [quoteFree, decide_eq_true_eq] at h
    exact readOver_quoteText h
  | .int i, d, _ => readOver_intText i
  | .bool true, _, _ => rfl
  | .bool false, _, _ => rfl
  | .none, _, _ => rfl
  | .list items, d, h => by
    rw [quoteFree] at h
    rw [text]
    exact readOver_bracket (.inl ⟨rfl, rfl⟩) (readOver_itemsText items (d + 1) h d.succ_pos)
  | .dict entries, d, h => by
    rw [quoteFree] at h
    rw [text]
    exact readOver_bracket (.inr ⟨rfl, rfl⟩) (readOver_entriesText entries (d + 1) h d.succ_pos)

theorem readOver_itemsText : ∀ (items : List Literal) (d : ℕ), itemsQuoteFree items = true →
    0 < d → readOver (d, Option.none) (itemsText items) = some (d, Option.none)
  | [], _, _, _ => rfl
  | [l], d, h, _ => readOver_text l d (Bool.and_eq_true_iff.1 h).1
  | l :: l' :: ls, d, h, hd => by
    obtain ⟨hl, hls⟩ := Bool.and_eq_true_iff.1 h
    have htext : itemsText (l :: l' :: ls) = l.text ++ (commaText ++ itemsText (l' :: ls)) := rfl
    rw [htext, readOver_append, readOver_text l d hl, bind_some, readOver_append,
      readOver_comma hd, bind_some, readOver_itemsText (l' :: ls) d hls hd]

theorem readOver_entry (q : Quote) (k : List Char) (l : Literal) (d : ℕ) (hk : q.char ∉ k)
    (hl : l.quoteFree = true) :
    readOver (d, Option.none) (quoteText q k ++ (':' :: ' ' :: l.text)) =
      some (d, Option.none) := by
  have hcolon : readOver (d, Option.none) (':' :: ' ' :: l.text) =
      readOver (d, Option.none) l.text := rfl
  rw [readOver_append, readOver_quoteText hk, bind_some, hcolon, readOver_text l d hl]

theorem readOver_entriesText : ∀ (entries : List ((Quote × List Char) × Literal)) (d : ℕ),
    entriesQuoteFree entries = true → 0 < d →
      readOver (d, Option.none) (entriesText entries) = some (d, Option.none)
  | [], _, _, _ => rfl
  | [((q, k), l)], d, h, _ => by
    obtain ⟨hentry, -⟩ := Bool.and_eq_true_iff.1 h
    obtain ⟨hk, hl⟩ := Bool.and_eq_true_iff.1 hentry
    exact readOver_entry q k l d (of_decide_eq_true hk) hl
  | ((q, k), l) :: e :: es, d, h, hd => by
    obtain ⟨hentry, hes⟩ := Bool.and_eq_true_iff.1 h
    obtain ⟨hk, hl⟩ := Bool.and_eq_true_iff.1 hentry
    have htext : entriesText (((q, k), l) :: e :: es) =
        (quoteText q k ++ (':' :: ' ' :: l.text)) ++ (commaText ++ entriesText (e :: es)) := by
      rw [entriesText, append_assoc]
      · rfl
      · exact cons_ne_nil e es
    rw [htext, readOver_append, readOver_entry q k l d (of_decide_eq_true hk) hl, bind_some,
      readOver_append, readOver_comma hd, bind_some, readOver_entriesText (e :: es) d hes hd]

end

end Literal

end Grim.Server
