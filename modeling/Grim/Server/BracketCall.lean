import Grim.Server.PyLiteral

/-!
# Bracket calls as they are written

A call is written as in Python, its arguments by their names.  The parser reads one call from
between the markers: it splits the arguments at the commas it takes to stand outside brackets and
strings, and reads each value by itself.
-/

namespace Grim.Server

open JsonValue Markers Text List

structure Kwarg where
  key : List Char
  value : Literal

def Kwarg.text (a : Kwarg) : List Char := a.key ++ '=' :: a.value.text

def joined (sep : List Char) : List (List Char) → List Char
  | [] => []
  | [r] => r
  | r :: rs => r ++ (sep ++ joined sep rs)

structure PyCall where
  name : List Char
  kwargs : List Kwarg

namespace PyCall

def argsText (call : PyCall) : List Char := joined commaText (call.kwargs.map Kwarg.text)

def text (call : PyCall) : List Char := call.name ++ '(' :: (call.argsText ++ [')'])

end PyCall

def listText (calls : List PyCall) : List Char :=
  '[' :: (joined commaText (calls.map PyCall.text) ++ [']'])

/-- `<|tool_call_start|>[f(a=..), g(b=..)]<|tool_call_end|>` -/
def rendering (calls : List PyCall) : List Char := callStart ++ (listText calls ++ callEnd)

/-- Of the ASCII characters, a letter, a digit or an underscore. -/
def IdentChar (c : Char) : Prop :=
  isWhitespace c = false ∧ (c.toNat < 128 → c.isAlphanum = true ∨ c = '_')

def Identifier (s : List Char) : Prop := s ≠ [] ∧ ∀ c ∈ s, IdentChar c

structure PyCall.WellFormed (call : PyCall) : Prop where
  name : Identifier call.name
  keys : ∀ a ∈ call.kwargs, Identifier a.key
  nodup : (call.kwargs.map Kwarg.key).Nodup

/-- The splitter meets no comma that it splits at within a text, and it is outside brackets and
strings where the next one follows. -/
def Separated : List (List Char) → Prop
  | [] => True
  | [r] => (readOver (0, none) r).isSome
  | r :: rs => readOver (0, none) r = some (0, none) ∧ Separated rs

variable (serde : SerdeStr) (isAlphanumeric : Char → Bool)

namespace PyCall

/-- `serde_json` prints and parses what is in the call exactly. -/
structure Exact (call : PyCall) : Prop where
  arguments : serde.fromStr (serde.toString (.object (fnArguments serde call.argsText))).toList =
    .ok (.object (fnArguments serde call.argsText))
  literals : ∀ a ∈ call.kwargs, serde.Reads a.value

/-- The message names the tool, and its arguments are the keyword arguments as JSON values. -/
def Carries (call : PyCall) (msg : ToolCallMsg) : Prop :=
  msg.name = .ofList call.name ∧ ∃ o : Object,
    serde.fromStr msg.arguments.toList = .ok (.object o) ∧
      (∀ a ∈ call.kwargs, a.value.value.isSome ∧ o.get (.ofList a.key) = a.value.value) ∧
      ∀ key, key.toList ∉ call.kwargs.map Kwarg.key → o.get key = none

structure AsWritten (call : PyCall) : Prop where
  name : ∀ c ∈ call.name, isAlphanumeric c ∨ c = '_'
  separated : Separated (call.kwargs.map Kwarg.text)
  readable : ∀ a ∈ call.kwargs, a.value.Readable

end PyCall

/-- A single call that is read as it is written, with no closing marker in its text. -/
structure OneCall (calls : List PyCall) : Prop where
  marker : ¬callEnd <:+: listText calls
  call : ∃ call, calls = [call] ∧ call.AsWritten isAlphanumeric

def Parsed (calls : List PyCall) : Prop :=
  ∃ msgs, (parseBracketCall serde isAlphanumeric (rendering calls)).calls = some msgs ∧
    List.Forall₂ (fun msg call => PyCall.Carries serde call msg) msgs calls

variable {serde isAlphanumeric} {st st' : Nesting} {text r s : List Char} {c : Char}

theorem IdentChar.ne {d : Char} (h : IdentChar c) (hlt : d.toNat < 128)
    (hd : d.isAlphanum = false) (hne : d ≠ '_') : c ≠ d := by
  rintro rfl
  rcases h.2 hlt with halpha | rfl
  · rw [hd] at halpha
    cases halpha
  · exact hne rfl

theorem Identifier.flush (h : Identifier s) : Flush s :=
  .of_forall h.1 fun c hc => (h.2 c hc).1

theorem Identifier.notMem {d : Char} (h : Identifier s) (hlt : d.toNat < 128)
    (hd : d.isAlphanum = false) (hne : d ≠ '_') : d ∉ s :=
  fun hmem => (h.2 d hmem).ne hlt hd hne rfl

theorem identifier_of_ascii (hne : s ≠ [])
    (h : s.all (fun c => c.isAlphanum || c = '_') = true) : Identifier s := by
  refine ⟨hne, fun c hc => ?_⟩
  have hword := all_eq_true.1 h c hc
  rw [Bool.or_eq_true, decide_eq_true_eq] at hword
  refine ⟨?_, fun _ => hword⟩
  rcases hword with hc | rfl
  · have hval : c.val.toNat = c.toNat := rfl
    have hrange : 48 ≤ c.toNat ∧ c.toNat ≤ 122 := by
      change ((decide (c.val ≥ 65 ∧ c.val ≤ 90) || (decide (c.val ≥ 97) && decide (c.val ≤ 122))) ||
        (decide (c.val ≥ 48) && decide (c.val ≤ 57))) = true at hc
      simp only [Bool.or_eq_true, Bool.and_eq_true, decide_eq_true_eq, ge_iff_le,
        UInt32.le_iff_toNat_le] at hc
      simp at hc
      omega
    simp only [isWhitespace, Bool.or_eq_false_iff, Bool.and_eq_false_iff, decide_eq_false_iff_not]
    omega
  · rfl

theorem Kwarg.flush {a : Kwarg} (h : Identifier a.key) : Flush a.text :=
  h.flush.append a.value.flush ['=']

theorem foldl_splitStep (h : readOver st text = some st') (parts : List (List Char))
    (cur : List Char) :
    text.foldl splitStep (parts, cur, st) = (parts, cur ++ text, st') := by
  induction text generalizing st cur with
  | nil =>
    cases h
    simp
  | cons c text ih =>
    rw [readOver] at h
    split_ifs at h with hsplit
    have hstep : splitStep (parts, cur, st) c = (parts, cur ++ [c], track st c) := if_neg hsplit
    rw [foldl_cons, hstep, ih h, append_assoc, singleton_append]

theorem joined_cons_cons (sep r r' : List Char) (rs : List (List Char)) :
    joined sep (r :: r' :: rs) = r ++ (sep ++ joined sep (r' :: rs)) := rfl

def finish (st : List (List Char) × List Char × Nesting) : List (List Char) :=
  if trim st.2.1 ≠ [] then st.1 ++ [st.2.1] else st.1

theorem finish_joined : ∀ {rs : List (List Char)} {r w : List Char} {parts : List (List Char)},
    Separated (r :: rs) → (∀ c ∈ w, isWhitespace c) → (∀ x ∈ r :: rs, trim x ≠ []) →
      finish ((joined commaText (r :: rs)).foldl splitStep (parts, w, (0, none))) =
        parts ++ (w ++ r) :: rs.map (' ' :: ·)
  | [], r, w, parts, hsep, hw, hne => by
    obtain ⟨st', hover⟩ := Option.isSome_iff_exists.1 hsep
    rw [joined, foldl_splitStep hover, finish, if_pos, map_nil]
    rw [trim_white_append hw]
    exact hne r mem_cons_self
  | r' :: rs, r, w, parts, ⟨hover, hsep⟩, hw, hne => by
    obtain ⟨-, hrest⟩ := forall_mem_cons.1 hne
    have hspace : ∀ c ∈ [' '], isWhitespace c := forall_mem_singleton.2 rfl
    have hcomma : commaText.foldl splitStep (parts, w ++ r, (0, none)) =
        (parts ++ [w ++ r], [' '], (0, none)) := rfl
    rw [joined_cons_cons, foldl_append, foldl_splitStep hover, foldl_append, hcomma,
      finish_joined hsep hspace hrest, append_assoc]
    rfl

theorem splitTopLevel_joined {rs : List (List Char)} (hsep : Separated (r :: rs))
    (hne : ∀ x ∈ r :: rs, trim x ≠ []) :
    splitTopLevel (joined commaText (r :: rs)) = r :: rs.map (' ' :: ·) :=
  finish_joined hsep (fun _ hc => absurd hc not_mem_nil) hne

theorem separated_of_forall : ∀ {rs : List (List Char)},
    (∀ r ∈ rs, readOver (0, none) r = some (0, none)) → Separated rs
  | [], _ => trivial
  | [r], h => by
    rw [Separated, h r mem_cons_self]
    rfl
  | _ :: _ :: _, h => by
    obtain ⟨hr, hrs⟩ := forall_mem_cons.1 h
    exact ⟨hr, separated_of_forall hrs⟩

theorem PyCall.WellFormed.separated {call : PyCall} (h : call.WellFormed)
    (hquotes : ∀ a ∈ call.kwargs, a.value.quoteFree = true) :
    Separated (call.kwargs.map Kwarg.text) := by
  refine separated_of_forall (forall_mem_map.2 fun a ha => ?_)
  have hkey : ∀ c ∈ a.key, c ∉ marks := by
    intro c hc hmark
    have hascii : marks.all (fun m => m.toNat < 128 && !m.isAlphanum && m ≠ '_') = true := by
      decide
    have hmeans := all_eq_true.1 hascii c hmark
    simp only [Bool.and_eq_true, decide_eq_true_eq, Bool.not_eq_true'] at hmeans
    exact ((h.keys a ha).2 c hc).ne hmeans.1.1 hmeans.1.2 hmeans.2 rfl
  have hequals : readOver (0, none) ('=' :: a.value.text) = readOver (0, none) a.value.text := rfl
  rw [Kwarg.text, readOver_append, readOver_plain hkey, Option.bind_some, hequals,
    a.value.readOver_text 0 (hquotes a ha)]

def pieces (st : List (List Char) × List Char × Nesting) : List (List Char) := st.1 ++ [st.2.1]

theorem joined_cons_append (sep r : List Char) (rs : List (List Char)) :
    ∃ t, joined sep (r :: rs) = r ++ t := by
  rcases rs with _ | ⟨r', rs⟩
  · exact ⟨[], (append_nil r).symm⟩
  · exact ⟨_, rfl⟩

theorem cons_joined (sep r : List Char) (c : Char) (rs : List (List Char)) :
    joined sep ((c :: r) :: rs) = c :: joined sep (r :: rs) := by
  cases rs <;> rfl

theorem pieces_foldl (text : List Char) (parts : List (List Char)) (cur : List Char)
    (st : Nesting) : ∃ z qs, pieces (text.foldl splitStep (parts, cur, st)) =
      parts ++ (cur ++ z) :: qs ∧ joined [','] (z :: qs) = text := by
  induction text generalizing parts cur st with
  | nil => exact ⟨[], [], by simp [pieces], rfl⟩
  | cons c text ih =>
    by_cases hsplit : c = ',' ∧ st = (0, none)
    · have hstep : splitStep (parts, cur, st) c = (parts ++ [cur], [], st) := if_pos hsplit
      obtain ⟨z, qs, hpieces, htext⟩ := ih (parts ++ [cur]) [] st
      refine ⟨[], z :: qs, ?_, ?_⟩
      · rw [foldl_cons, hstep, hpieces]
        simp
      · rw [joined_cons_cons, htext, hsplit.1]
        rfl
    · have hstep : splitStep (parts, cur, st) c = (parts, cur ++ [c], track st c) := if_neg hsplit
      obtain ⟨z, qs, hpieces, htext⟩ := ih parts (cur ++ [c]) (track st c)
      refine ⟨c :: z, qs, ?_, ?_⟩
      · rw [foldl_cons, hstep, hpieces]
        simp
      · rw [cons_joined, htext]

structure Keyed (p : List Char) : Prop where
  front : ∃ x y, p = x ++ '=' :: y ∧ ',' ∉ x
  once : p.count '=' = 1

def Stops (rest : List Char) : Prop := rest = [] ∨ ∃ t, rest = ',' :: t

/-- The end of a value: no equals sign, and the last character is no white space and no comma. -/
structure Leftover (v : List Char) : Prop where
  last : ∃ u d, v = u ++ [d] ∧ isWhitespace d = false ∧ d ≠ ','
  equals : '=' ∉ v

theorem Leftover.behind_comma {u v : List Char} (h : Leftover (u ++ ',' :: v)) : Leftover v := by
  obtain ⟨u', d, heq, hd⟩ := h.last
  refine ⟨?_, fun hmem => h.equals (mem_append_right u (mem_cons_of_mem _ hmem))⟩
  rcases eq_nil_or_concat v with rfl | ⟨v', e, rfl⟩
  · exact absurd (List.cons.inj (append_inj' heq rfl).2).1.symm hd.2
  · rw [concat_eq_append, ← cons_append, ← append_assoc] at heq
    have hlast := (List.cons.inj (append_inj' heq rfl).2).1
    exact ⟨v', e, concat_eq_append, by rwa [hlast]⟩

theorem Leftover.trim_ne_nil {v : List Char} (h : Leftover v) (t : List Char) :
    trim (v ++ t) ≠ [] := by
  obtain ⟨u, d, rfl, hd, -⟩ := h.last
  intro hnil
  have hwhite := trim_eq_nil_iff.1 hnil d (by simp)
  rw [hd] at hwhite
  cases hwhite

theorem Leftover.not_keyed {v t : List Char} (h : Leftover v) (ht : Stops t) :
    ¬Keyed (v ++ t) := by
  rintro ⟨⟨x, y, heq, hx⟩, -⟩
  rcases append_eq_append_iff.1 heq with ⟨a, rfl, hta⟩ | ⟨b, hv, hb⟩
  · rcases ht with rfl | ⟨t, rfl⟩
    · exact absurd hta.symm (by simp)
    · rcases a with _ | ⟨e, a⟩
      · exact absurd (List.cons.inj hta).1 (by decide)
      · rw [(List.cons.inj hta).1] at hx
        exact hx (by simp)
  · rcases b with _ | ⟨e, b⟩
    · rw [nil_append] at hb
      rcases ht with rfl | ⟨t, rfl⟩
      · cases hb
      · exact absurd (List.cons.inj hb).1 (by decide)
    · rw [← (List.cons.inj hb).1] at hv
      exact h.equals (hv ▸ by simp)

theorem exists_not_keyed {rest : List Char} (hrest : Stops rest) :
    ∀ {qs : List (List Char)} {v : List Char}, Leftover v → joined [','] qs = v ++ rest →
      ∃ q ∈ qs, trim q ≠ [] ∧ ¬Keyed q
  | [], v, hv, h => by
    obtain ⟨u, d, rfl, -⟩ := hv.last
    exact absurd h (by simp [joined])
  | [q], v, hv, h => by
    obtain rfl : q = v ++ rest := h
    exact ⟨_, mem_cons_self, hv.trim_ne_nil rest, hv.not_keyed hrest⟩
  | q :: q' :: qs, v, hv, h => by
    rw [joined_cons_cons] at h
    rcases append_eq_append_iff.1 h with ⟨a, rfl, htail⟩ | ⟨b, rfl, hb⟩
    · rcases a with _ | ⟨c, a⟩
      · have hne := hv.trim_ne_nil []
        have hkeyed := hv.not_keyed (.inl rfl)
        rw [append_nil, append_nil] at hne hkeyed
        exact ⟨q, mem_cons_self, hne, hkeyed⟩
      · obtain ⟨rfl, hjoined⟩ := List.cons.inj htail
        obtain ⟨p, hp, hbad⟩ := exists_not_keyed hrest hv.behind_comma hjoined
        exact ⟨p, mem_cons_of_mem q hp, hbad⟩
    · have hstops : Stops b := by
        rcases b with _ | ⟨c, b⟩
        · exact .inl rfl
        · rcases hrest with hrest | ⟨t, hrest⟩
          · rw [hrest] at hb
            cases hb
          · rw [hrest] at hb
            exact .inr ⟨b, by rw [(List.cons.inj hb).1]⟩
      exact ⟨_, mem_cons_self, hv.trim_ne_nil b, hv.not_keyed hstops⟩

theorem exists_comma (h : readOver st s = none) :
    ∃ u v, s = u ++ ',' :: v ∧ readOver st u = some (0, none) := by
  induction s generalizing st with
  | nil => cases h
  | cons c s ih =>
    rw [readOver] at h
    split_ifs at h with hsplit
    · exact ⟨[], s, by rw [hsplit.1]; rfl, by rw [hsplit.2]; rfl⟩
    · obtain ⟨u, v, rfl, hu⟩ := ih h
      exact ⟨c :: u, v, rfl, by rw [readOver, if_neg hsplit, hu]⟩

theorem exists_readOver (h : ',' ∉ s) (st : Nesting) : ∃ st', readOver st s = some st' := by
  rcases hover : readOver st s with _ | st'
  · obtain ⟨u, v, rfl, -⟩ := exists_comma hover
    exact absurd (by simp) h
  · exact ⟨st', rfl⟩

/-- The text of an argument: a key, an equals sign and a value that holds none. -/
structure ArgText (r : List Char) : Prop where
  split : ∃ x l, r = x ++ '=' :: l ∧ ',' ∉ x ∧ '=' ∉ x ∧ Leftover l

variable (parts : List (List Char)) (w : List Char)

theorem ArgText.exists_not_keyed {rest : List Char} (h : ArgText r)
    (hover : readOver (0, none) r = none) (hrest : Stops rest) :
    ∃ q ∈ pieces ((r ++ rest).foldl splitStep (parts, w, (0, none))),
      trim q ≠ [] ∧ ¬Keyed q := by
  obtain ⟨x, l, hr, hx, -, hl⟩ := h.split
  obtain ⟨u, v, rfl, hu⟩ := exists_comma hover
  have hv : Leftover v := by
    rcases append_eq_append_iff.1 hr with ⟨a, rfl, ha⟩ | ⟨b, rfl, hb⟩
    · rcases a with _ | ⟨c, a⟩
      · exact absurd (List.cons.inj ha).1 (by decide)
      · rw [← (List.cons.inj ha).1] at hx
        exact absurd (by simp) hx
    · rcases b with _ | ⟨c, b⟩
      · exact absurd (List.cons.inj hb).1 (by decide)
      · rw [(List.cons.inj hb).2] at hl
        exact hl.behind_comma
  have hcomma : splitStep (parts, w ++ u, (0, none)) ',' = (parts ++ [w ++ u], [], (0, none)) := rfl
  obtain ⟨z, qs, hpieces, hjoined⟩ := pieces_foldl (v ++ rest) (parts ++ [w ++ u]) [] (0, none)
  obtain ⟨q, hq, hbad⟩ := Server.exists_not_keyed hrest hv hjoined
  rw [append_assoc, foldl_append, foldl_splitStep hu, cons_append, foldl_cons,
    hcomma, hpieces, nil_append]
  exact ⟨q, mem_append_right _ hq, hbad⟩

theorem ArgText.exists_not_keyed_joined {r' : List Char} {rs : List (List Char)} (h : ArgText r)
    (h' : ArgText r') (hover : readOver (0, none) r = some st) (hst : st ≠ (0, none)) :
    ∃ q ∈ pieces ((joined commaText (r :: r' :: rs)).foldl splitStep (parts, w, (0, none))),
      trim q ≠ [] ∧ ¬Keyed q := by
  obtain ⟨x, l, hr, -, -, -⟩ := h.split
  obtain ⟨x', l', hr', hx', -, -⟩ := h'.split
  obtain ⟨t, ht⟩ := joined_cons_append commaText r' rs
  have htext : joined commaText (r :: r' :: rs) =
      r ++ ',' :: ((' ' :: (x' ++ ['='])) ++ (l' ++ t)) := by
    rw [joined_cons_cons, ht, hr']
    simp [commaText]
  have hcomma : splitStep (parts, w ++ r, st) ',' = (parts, w ++ r ++ [','], track st ',') :=
    if_neg fun hsplit => hst hsplit.2
  have hkey : ',' ∉ ' ' :: (x' ++ ['=']) := by simp [hx']
  obtain ⟨st', hover'⟩ := exists_readOver hkey (track st ',')
  obtain ⟨z, qs, hpieces, -⟩ := pieces_foldl (l' ++ t) parts
    (w ++ r ++ [','] ++ (' ' :: (x' ++ ['=']))) st'
  rw [htext, foldl_append, foldl_splitStep hover, foldl_cons, hcomma, foldl_append,
    foldl_splitStep hover', hpieces]
  refine ⟨_, mem_append_right _ mem_cons_self, fun hnil => ?_, fun hkeyed => ?_⟩
  · have hwhite := trim_eq_nil_iff.1 hnil '=' (by simp)
    exact absurd hwhite (by decide)
  · have honce := hkeyed.once
    rw [hr] at honce
    simp only [count_append, count_cons, beq_self_eq_true, if_true] at honce
    omega

theorem separated_of_keyed : ∀ {rs : List (List Char)} {r w : List Char}
    {parts : List (List Char)}, (∀ x ∈ r :: rs, ArgText x) →
      (∀ q ∈ pieces ((joined commaText (r :: rs)).foldl splitStep (parts, w, (0, none))),
        trim q = [] ∨ Keyed q) → Separated (r :: rs)
  | [], r, w, parts, hargs, hkeyed => by
    rcases hover : readOver (0, none) r with _ | st'
    · obtain ⟨q, hq, hne, hnot⟩ :=
        (hargs r mem_cons_self).exists_not_keyed parts w hover (.inl rfl)
      rw [append_nil] at hq
      exact absurd (hkeyed q hq) (not_or.2 ⟨hne, hnot⟩)
    · rw [Separated, hover]
      rfl
  | r' :: rs, r, w, parts, hargs, hkeyed => by
    obtain ⟨hr, hrs⟩ := forall_mem_cons.1 hargs
    rcases hover : readOver (0, none) r with _ | st'
    · obtain ⟨q, hq, hne, hnot⟩ := hr.exists_not_keyed parts w hover
        (.inr ⟨' ' :: joined commaText (r' :: rs), rfl⟩)
      exact absurd (hkeyed q hq) (not_or.2 ⟨hne, hnot⟩)
    · by_cases hst : st' = (0, none)
      · subst hst
        have hcomma : commaText.foldl splitStep (parts, w ++ r, (0, none)) =
            (parts ++ [w ++ r], [' '], (0, none)) := rfl
        rw [joined_cons_cons, foldl_append, foldl_splitStep hover, foldl_append,
          hcomma] at hkeyed
        exact ⟨hover, separated_of_keyed hrs hkeyed⟩
      · obtain ⟨q, hq, hne, hnot⟩ := hr.exists_not_keyed_joined parts w
          (hrs r' mem_cons_self) hover hst
        exact absurd (hkeyed q hq) (not_or.2 ⟨hne, hnot⟩)

theorem trimMatches_of_notMem (h : c ∉ s) : trimMatches c s = s := by
  have hne : ∀ d ∈ s, d ≠ c := fun d hd heq => h (heq ▸ hd)
  have hfront : s.dropWhile (· = c) = s := by
    rcases s with _ | ⟨d, s⟩
    · rfl
    · exact dropWhile_cons_of_neg (by simp [hne d mem_cons_self])
  rw [trimMatches, hfront, rdropWhile_eq_self_iff]
  exact fun hs => by simp [hne _ (getLast_mem hs)]

theorem fnArgument_text {a : Kwarg} (h : Identifier a.key) (i : ℕ) :
    fnArgument serde i a.text = (.ofList a.key, pyLiteralToJson serde a.value.text) := by
  have hequals : ¬['='] <:+: a.key := by
    rw [singleton_infix_iff]
    exact h.notMem (by decide) (by decide) (by decide)
  have hsplit : splitOnce ['='] a.text = some (a.key, a.value.text) :=
    splitOnce_append ⟨'=', [], rfl, not_mem_nil⟩ hequals
  rw [fnArgument, hsplit]
  dsimp only
  rw [h.flush.trim, a.value.flush.trim,
    trimMatches_of_notMem (h.notMem (by decide) (by decide) (by decide)),
    trimMatches_of_notMem (h.notMem (by decide) (by decide) (by decide))]

def readEntry (serde : SerdeStr) (a : Kwarg) : String × Value :=
  (.ofList a.key, pyLiteralToJson serde a.value.text)

def fnEntries (serde : SerdeStr) (parts : List (List Char × ℕ)) : List (String × Value) :=
  parts.filterMap fun p =>
    if trim p.1 = [] then none else some (fnArgument serde p.2 (trim p.1))

theorem fnArguments_eq (s : List Char) :
    fnArguments serde s = Object.ofEntries (fnEntries serde (splitTopLevel s).zipIdx) := by
  have hstep : ∀ (ps : List (List Char × ℕ)) (o : Object), ps.foldl (fun args p =>
      let part := trim p.1
      if part = [] then args
      else args.insert (fnArgument serde p.2 part).1 (fnArgument serde p.2 part).2) o =
      (fnEntries serde ps).foldl (fun o e => o.insert e.1 e.2) o := by
    intro ps
    induction ps with
    | nil => exact fun o => rfl
    | cons p ps ih =>
      intro o
      rw [foldl_cons, ih]
      by_cases hblank : trim p.1 = []
      · simp [fnEntries, hblank]
      · simp [fnEntries, hblank]
  exact hstep _ []

theorem fnEntries_of_forall₂ : ∀ {kwargs : List Kwarg} {parts : List (List Char)} (k : ℕ),
    (∀ a ∈ kwargs, Identifier a.key) →
      List.Forall₂ (fun part a => trim part = Kwarg.text a) parts kwargs →
        fnEntries serde (parts.zipIdx k) = kwargs.map (readEntry serde)
  | [], _, _, _, .nil => rfl
  | a :: kwargs, part :: parts, k, hkeys, .cons hpart hparts => by
    obtain ⟨hkey, hkeys⟩ := forall_mem_cons.1 hkeys
    have hentry : (if trim part = [] then none else some (fnArgument serde k (trim part))) =
        some (readEntry serde a) := by
      rw [hpart, if_neg (Kwarg.flush hkey).ne, fnArgument_text hkey, readEntry]
    have hcons : fnEntries serde ((part :: parts).zipIdx k) =
        readEntry serde a :: fnEntries serde (parts.zipIdx (k + 1)) := by
      rw [zipIdx_cons]
      exact filterMap_cons_some hentry
    rw [hcons, fnEntries_of_forall₂ (k + 1) hkeys hparts, map_cons]

theorem map_readEntry : ∀ {kwargs : List Kwarg} {o : Object},
    (∀ a ∈ kwargs, serde.Reads a.value) → (∀ a ∈ kwargs, a.value.Readable) →
      List.Forall₂ (fun a e => .ofList a.key = e.1 ∧ a.value.value = some e.2) kwargs o →
        kwargs.map (readEntry serde) = o
  | [], _, _, _, .nil => rfl
  | a :: kwargs, e :: o, hserde, hread, .cons he ho => by
    obtain ⟨hreads, hserde⟩ := forall_mem_cons.1 hserde
    obtain ⟨ha, hread⟩ := forall_mem_cons.1 hread
    rw [map_cons, map_readEntry hserde hread ho, readEntry, he.1,
      (pyLiteralToJson_eq_iff hreads he.2).2 ha]

namespace PyCall

variable {call : PyCall}

theorem WellFormed.splitTopLevel_argsText (h : call.WellFormed)
    (hsep : Separated (call.kwargs.map Kwarg.text)) :
    List.Forall₂ (fun part a => trim part = Kwarg.text a) (splitTopLevel call.argsText)
      call.kwargs := by
  have hflush : ∀ a ∈ call.kwargs, Flush a.text := fun a ha => Kwarg.flush (h.keys a ha)
  rw [argsText]
  rcases hk : call.kwargs with _ | ⟨a, kwargs⟩
  · exact .nil
  · rw [hk] at hflush hsep
    obtain ⟨ha, hkwargs⟩ := forall_mem_cons.1 hflush
    have hne : ∀ x ∈ a.text :: kwargs.map Kwarg.text, trim x ≠ [] := by
      refine forall_mem_cons.2 ⟨?_, forall_mem_map.2 fun b hb => ?_⟩
      · rw [ha.trim]
        exact ha.ne
      · rw [(hkwargs b hb).trim]
        exact (hkwargs b hb).ne
    rw [map_cons, splitTopLevel_joined hsep hne]
    refine .cons ha.trim ?_
    rw [List.forall₂_map_left_iff, List.forall₂_map_left_iff, List.forall₂_same]
    intro b hb
    have hspace : ∀ c ∈ [' '], isWhitespace c := forall_mem_singleton.2 rfl
    rw [← singleton_append, trim_white_append hspace, (hkwargs b hb).trim]

theorem WellFormed.nodup_entries (h : call.WellFormed) :
    Object.Nodup (call.kwargs.map (readEntry serde)) := by
  have hkeys : (call.kwargs.map (readEntry serde)).map Prod.fst =
      (call.kwargs.map Kwarg.key).map String.ofList := by
    rw [map_map, map_map]
    rfl
  rw [Object.Nodup, hkeys]
  exact h.nodup.map fun _ _ heq => String.ofList_inj.1 heq

theorem WellFormed.fnArguments_argsText (h : call.WellFormed)
    (hsep : Separated (call.kwargs.map Kwarg.text)) :
    fnArguments serde call.argsText = call.kwargs.map (readEntry serde) := by
  rw [fnArguments_eq, fnEntries_of_forall₂ 0 h.keys (h.splitTopLevel_argsText hsep)]
  exact Object.ofEntries_of_nodup h.nodup_entries

theorem WellFormed.carries_iff (h : call.WellFormed) (hserde : call.Exact serde)
    (hsep : Separated (call.kwargs.map Kwarg.text)) {id : String} :
    call.Carries serde
        ⟨id, .ofList call.name, serde.toString (.object (fnArguments serde call.argsText))⟩ ↔
      ∀ a ∈ call.kwargs, a.value.Readable := by
  have hbuilt := @fnArguments_argsText serde call h hsep
  have hnodup := @nodup_entries serde call h
  have hget : ∀ a ∈ call.kwargs, (fnArguments serde call.argsText).get (.ofList a.key) =
      some (pyLiteralToJson serde a.value.text) := by
    intro a ha
    rw [hbuilt]
    exact Object.get_of_mem hnodup (mem_map.2 ⟨a, ha, rfl⟩)
  constructor
  · rintro ⟨-, o, hparse, hvalues, -⟩ a ha
    rw [hserde.arguments] at hparse
    cases hparse
    obtain ⟨hsome, heq⟩ := hvalues a ha
    obtain ⟨v, hv⟩ := Option.isSome_iff_exists.1 hsome
    rw [hget a ha, hv, Option.some.injEq] at heq
    exact (pyLiteralToJson_eq_iff (hserde.literals a ha) hv).1 heq
  · intro hread
    refine ⟨rfl, _, hserde.arguments, fun a ha => ?_, fun key hkey => ?_⟩
    · obtain ⟨v, hv⟩ := Option.isSome_iff_exists.1 (hread a ha).isSome
      have heq := (pyLiteralToJson_eq_iff (hserde.literals a ha) hv).2 (hread a ha)
      exact ⟨(hread a ha).isSome, by rw [hget a ha, heq, hv]⟩
    · rw [hbuilt]
      refine Object.get_eq_none fun hmem => hkey ?_
      rw [map_map] at hmem
      obtain ⟨a, ha, rfl⟩ := mem_map.1 hmem
      exact mem_map.2 ⟨a, ha, (String.toList_ofList).symm⟩

end PyCall

theorem count_joined {sep : List Char} (hsep : '=' ∉ sep) : ∀ rs : List (List Char),
    (joined sep rs).count '=' = (rs.map (List.count '=')).sum
  | [] => rfl
  | [r] => by simp [joined]
  | r :: r' :: rs => by
    rw [joined_cons_cons, count_append, count_append, count_joined hsep (r' :: rs),
      count_eq_zero.2 hsep, Nat.zero_add]
    simp only [map_cons, sum_cons]

theorem eq_one_of_sum_le : ∀ {ns : List ℕ}, (∀ n ∈ ns, 1 ≤ n) → ns.sum ≤ ns.length →
    ∀ n ∈ ns, n = 1
  | [], _, _, n, hn => absurd hn not_mem_nil
  | m :: ns, hpos, hsum, n, hn => by
    obtain ⟨hm, hns⟩ := forall_mem_cons.1 hpos
    have hlen := length_le_sum_of_one_le ns hns
    rw [sum_cons, length_cons] at hsum
    rcases mem_cons.1 hn with rfl | hn
    · omega
    · exact eq_one_of_sum_le hns (by omega) n hn

def filled (q : List Char) : Bool := trim q ≠ []

theorem filter_splitTopLevel (s : List Char) : (splitTopLevel s).filter filled =
    (pieces (s.foldl splitStep ([], [], (0, none)))).filter filled := by
  have hfinish : splitTopLevel s = finish (s.foldl splitStep ([], [], (0, none))) := rfl
  rw [hfinish, finish, pieces]
  split_ifs with hblank
  · rfl
  · rw [filter_append]
    simp [filled, not_not.1 hblank]

theorem length_fnEntries (parts : List (List Char)) (k : ℕ) :
    (fnEntries serde (parts.zipIdx k)).length = (parts.filter filled).length := by
  induction parts generalizing k with
  | nil => rfl
  | cons part parts ih =>
    have ih := ih (k + 1)
    rw [fnEntries] at ih
    rw [zipIdx_cons, fnEntries, filterMap_cons]
    by_cases hblank : trim part = []
    · simp [filled, hblank, ih]
    · simp [filled, hblank, ih]

theorem mem_trimMatches {d e : Char} (h : e ∈ s) (hne : e ≠ d) : e ∈ trimMatches d s := by
  have hdrop : ∀ {t : List Char}, e ∈ t → e ∈ t.dropWhile (· = d) := by
    intro t ht
    rw [← takeWhile_append_dropWhile (p := (· = d)) (l := t), mem_append] at ht
    exact ht.resolve_left fun hmem => hne (by simpa using mem_takeWhile_imp hmem)
  rw [trimMatches, List.rdropWhile, mem_reverse]
  exact hdrop (mem_reverse.2 (hdrop h))

theorem mem_trim {e : Char} (h : e ∈ s) (hwhite : isWhitespace e = false) : e ∈ trim s := by
  obtain ⟨before, behind, hs, hbefore, hbehind⟩ := exists_trim s
  rw [hs, mem_append, mem_append] at h
  rcases h with h | h | h
  · exact absurd (hbefore e h) (by simp [hwhite])
  · exact h
  · exact absurd (hbehind e h) (by simp [hwhite])

namespace PyCall

/-- No value holds an equals sign, and no key is one that the parser makes up. -/
structure Plain (call : PyCall) : Prop where
  values : ∀ a ∈ call.kwargs, '=' ∉ a.value.text
  keys : ∀ a ∈ call.kwargs, ∀ i : ℕ, String.ofList a.key ≠ s!"arg{i}"

variable {call : PyCall}

theorem WellFormed.argText (h : call.WellFormed) (hplain : call.Plain) :
    ∀ r ∈ call.kwargs.map Kwarg.text, ArgText r := by
  refine forall_mem_map.2 fun a ha => ⟨a.key, a.value.text, rfl, ?_, ?_, ?_, ?_⟩
  · exact (h.keys a ha).notMem (by decide) (by decide) (by decide)
  · exact (h.keys a ha).notMem (by decide) (by decide) (by decide)
  · obtain ⟨u, d, hd, hne⟩ := a.value.exists_last
    exact ⟨u, d, hd, a.value.flush.last d (by rw [hd, getLast?_concat]; rfl), hne⟩
  · exact hplain.values a ha

theorem WellFormed.count_argsText (h : call.WellFormed) (hplain : call.Plain) :
    call.argsText.count '=' = call.kwargs.length := by
  have hone : ∀ a ∈ call.kwargs, a.text.count '=' = 1 := by
    intro a ha
    have hkey : '=' ∉ a.key := (h.keys a ha).notMem (by decide) (by decide) (by decide)
    rw [Kwarg.text, count_append, count_cons_self, count_eq_zero.2 hkey,
      count_eq_zero.2 (hplain.values a ha)]
  have hmap : call.kwargs.map (List.count '=' ∘ Kwarg.text) = call.kwargs.map fun _ => 1 :=
    map_congr_left hone
  rw [argsText, count_joined (by decide), map_map, hmap]
  simp

theorem WellFormed.front_of_key (h : call.WellFormed) (hplain : call.Plain) {q : List Char}
    {i : ℕ} (hkey : (fnArgument serde i (trim q)).1.toList ∈ call.kwargs.map Kwarg.key) :
    ∃ x y, q = x ++ '=' :: y ∧ ',' ∉ x := by
  obtain ⟨a, ha, heq⟩ := mem_map.1 hkey
  have hcomma : ',' ∉ a.key := (h.keys a ha).notMem (by decide) (by decide) (by decide)
  rw [fnArgument] at heq
  rcases hsplit : splitOnce ['='] (trim q) with _ | ⟨x, y⟩
  · rw [hsplit] at heq
    exact absurd (by rw [heq, String.ofList_toList]) (hplain.keys a ha i)
  · rw [hsplit] at heq
    dsimp only at heq
    rw [String.toList_ofList] at heq
    obtain ⟨before, behind, hq, hbefore, -⟩ := exists_trim q
    have htrim : trim q = x ++ '=' :: y := append_of_splitOnce hsplit
    rw [htrim] at hq
    refine ⟨before ++ x, y ++ behind, by simpa using hq, fun hmem => ?_⟩
    rcases mem_append.1 hmem with hmem | hmem
    · exact absurd (hbefore ',' hmem) (by decide)
    · rw [heq] at hcomma
      exact hcomma (mem_trimMatches (mem_trimMatches (mem_trim hmem rfl) (by decide)) (by decide))

/-- Where the arguments are carried, every part that is there has a key, and only one. -/
theorem WellFormed.keyed_of_carries (h : call.WellFormed) (hplain : call.Plain)
    (hserde : call.Exact serde) {msg : ToolCallMsg}
    (harguments : msg.arguments = serde.toString (.object (fnArguments serde call.argsText)))
    (hcarries : call.Carries serde msg) :
    ∀ q ∈ pieces (call.argsText.foldl splitStep ([], [], (0, none))), trim q = [] ∨ Keyed q := by
  obtain ⟨-, o, hparse, hvalues, hothers⟩ := hcarries
  rw [harguments, hserde.arguments] at hparse
  cases hparse
  rw [fnArguments_eq] at hvalues hothers
  obtain ⟨z, qs, hpieces, hjoined⟩ := pieces_foldl call.argsText [] [] (0, none)
  have hsame := filter_splitTopLevel call.argsText
  rw [nil_append, nil_append] at hpieces
  rw [hpieces] at hsame ⊢
  have hkeys : ∀ e ∈ fnEntries serde (splitTopLevel call.argsText).zipIdx,
      e.1.toList ∈ call.kwargs.map Kwarg.key := by
    intro e he
    by_contra hnot
    have hsome := Object.isSome_get_ofEntries.2 (mem_map.2 ⟨e, he, rfl⟩)
    rw [hothers e.1 hnot] at hsome
    cases hsome
  have hall : ∀ a ∈ call.kwargs, String.ofList a.key ∈
      (fnEntries serde (splitTopLevel call.argsText).zipIdx).map Prod.fst := by
    intro a ha
    obtain ⟨hsome, hget⟩ := hvalues a ha
    rw [← hget] at hsome
    exact Object.isSome_get_ofEntries.1 hsome
  have hfront : ∀ q ∈ (z :: qs).filter filled, ∃ x y, q = x ++ '=' :: y ∧ ',' ∉ x := by
    intro q hq
    have hfilled : trim q ≠ [] := of_decide_eq_true (mem_filter.1 hq).2
    rw [← hsame] at hq
    obtain ⟨i, hi⟩ : ∃ i, (q, i) ∈ (splitTopLevel call.argsText).zipIdx := by
      have hmem := (mem_filter.1 hq).1
      rw [← zipIdx_map_fst 0 (splitTopLevel call.argsText)] at hmem
      obtain ⟨p, hp, rfl⟩ := mem_map.1 hmem
      exact ⟨p.2, hp⟩
    exact h.front_of_key hplain (hkeys _ (mem_filterMap.2 ⟨(q, i), hi, if_neg hfilled⟩))
  have hlength : call.kwargs.length ≤ ((z :: qs).filter filled).length := by
    have hnodup : (call.kwargs.map fun a => String.ofList a.key).Nodup := by
      have hmap := h.nodup.map (f := String.ofList) fun _ _ heq => String.ofList_inj.1 heq
      rwa [map_map] at hmap
    have hsub := (hnodup.subperm (forall_mem_map.2 hall)).length_le
    rwa [length_map, length_map, length_fnEntries, hsame] at hsub
  have hsum : (((z :: qs).filter filled).map (List.count '=')).sum ≤
      (((z :: qs).filter filled).map (List.count '=')).length := by
    rw [length_map]
    refine le_trans ?_ hlength
    rw [← h.count_argsText hplain, ← hjoined, count_joined (by decide)]
    exact (filter_sublist.map _).sum_le_sum fun _ _ => Nat.zero_le _
  have hpos : ∀ n ∈ ((z :: qs).filter filled).map (List.count '='), 1 ≤ n := by
    refine forall_mem_map.2 fun q hq => ?_
    obtain ⟨x, y, rfl, -⟩ := hfront q hq
    exact count_pos_iff.2 (by simp)
  have hone := eq_one_of_sum_le hpos hsum
  intro q hq
  by_cases hblank : trim q = []
  · exact .inl hblank
  · have hmem : q ∈ (z :: qs).filter filled := mem_filter.2 ⟨hq, decide_eq_true hblank⟩
    exact .inr ⟨hfront q hmem, hone _ (mem_map.2 ⟨q, hmem, rfl⟩)⟩

theorem WellFormed.separated_of_carries (h : call.WellFormed) (hplain : call.Plain)
    (hserde : call.Exact serde) {msg : ToolCallMsg}
    (harguments : msg.arguments = serde.toString (.object (fnArguments serde call.argsText)))
    (hcarries : call.Carries serde msg) : Separated (call.kwargs.map Kwarg.text) := by
  have hkeyed := h.keyed_of_carries hplain hserde harguments hcarries
  have hargs := h.argText hplain
  rw [argsText] at hkeyed
  rcases htexts : call.kwargs.map Kwarg.text with _ | ⟨r, rs⟩
  · trivial
  · rw [htexts] at hargs hkeyed
    exact separated_of_keyed hargs hkeyed

end PyCall

theorem solitary_callStart : Solitary callStart :=
  ⟨'<', "|tool_call_start|>".toList, rfl, by decide⟩

theorem solitary_callEnd : Solitary callEnd := ⟨'<', "|tool_call_end|>".toList, rfl, by decide⟩

theorem parseBracketCall_rendering {calls : List PyCall} (hend : ¬callEnd <:+: listText calls) :
    parseBracketCall serde isAlphanumeric (rendering calls) =
      outcome (push ([], none) (bracketCall serde isAlphanumeric (listText calls))) := by
  have hwoven : rendering calls = woven callStart callEnd [([], listText calls)] [] := by
    simp [rendering, woven]
  have hempty : ¬callStart <:+: [] := by decide
  have hcut : ∀ p ∈ [(([] : List Char), listText calls)],
      ¬callStart <:+: p.1 ∧ ¬callEnd <:+: p.2 := forall_mem_singleton.2 ⟨hempty, hend⟩
  rw [parseBracketCall, hwoven, between_woven solitary_callStart solitary_callEnd hempty hcut]
  rfl

namespace PyCall

variable {call : PyCall}

theorem WellFormed.flush_text (h : call.WellFormed) : Flush call.text :=
  h.name.flush.append (.of_forall (cons_ne_nil ')' []) (forall_mem_singleton.2 rfl))
    ('(' :: call.argsText)

theorem WellFormed.parseFnLiteral_text (h : call.WellFormed) :
    parseFnLiteral serde isAlphanumeric call.text =
      if ∀ c ∈ call.name, isAlphanumeric c ∨ c = '_' then
        some ⟨"call_0", .ofList call.name,
          serde.toString (.object (fnArguments serde call.argsText))⟩
      else none := by
  have hparen : ¬['('] <:+: call.name := by
    rw [singleton_infix_iff]
    exact h.name.notMem (by decide) (by decide) (by decide)
  have hsplit : splitOnce ['('] call.text = some (call.name, call.argsText ++ [')']) :=
    splitOnce_append ⟨'(', [], rfl, not_mem_nil⟩ hparen
  have hlast : call.text.getLast? = some ')' := by
    rw [text, ← cons_append, ← append_assoc, getLast?_concat]
  have hdot : ∀ c ∈ call.name, (isAlphanumeric c || c = '_' || c = '.') = true ↔
      isAlphanumeric c ∨ c = '_' := by
    intro c hc
    have hne : c ≠ '.' := (h.name.2 c hc).ne (by decide) (by decide) (by decide)
    simp [hne]
  rw [parseFnLiteral, hsplit]
  simp only [Option.bind_eq_bind, Option.bind_some, hlast, ne_eq, not_true_eq_false, if_false,
    h.name.flush.trim, h.name.1, false_or, all_eq_true, dropLast_concat, ite_not]
  exact if_congr (forall₂_congr hdot) rfl rfl

theorem WellFormed.bracketCall_listText (h : call.WellFormed) :
    bracketCall serde isAlphanumeric (listText [call]) =
      match parseFnLiteral serde isAlphanumeric call.text with
      | some call => .ok call
      | none => .error s!"bracket call unparseable: {String.ofList call.text}" := by
  have hflush : Flush (listText [call]) := .between (by decide) (by decide) _
  have hfront : (listText [call]).dropWhile (· = '[') = call.text ++ [']'] := by
    obtain ⟨c, cs, hname⟩ := exists_cons_of_ne_nil h.name.1
    have hne : c ≠ '[' :=
      (h.name.2 c (hname ▸ mem_cons_self)).ne (by decide) (by decide) (by decide)
    rw [listText, map_singleton, joined, dropWhile_cons_of_pos (by decide), text, hname]
    exact dropWhile_cons_of_neg (by simp [hne])
  have hback : (call.text ++ [']']).rdropWhile (· = ']') = call.text := by
    rw [rdropWhile_concat_pos _ _ _ (by decide), text, ← cons_append,
      ← append_assoc]
    exact rdropWhile_concat_neg _ _ _ (by decide)
  have heq := bracketCall.eq_1 serde isAlphanumeric (listText [call])
  simp only [hflush.trim, hfront, hback, h.flush_text.trim] at heq
  exact heq

theorem WellFormed.parsed_iff (h : call.WellFormed) (hend : ¬callEnd <:+: listText [call]) :
    Parsed serde isAlphanumeric [call] ↔ (∀ c ∈ call.name, isAlphanumeric c ∨ c = '_') ∧
      call.Carries serde ⟨"call_0", .ofList call.name,
        serde.toString (.object (fnArguments serde call.argsText))⟩ := by
  rw [Parsed, parseBracketCall_rendering hend, h.bracketCall_listText, h.parseFnLiteral_text]
  split_ifs with hname
  · refine ⟨fun ⟨msgs, hmsgs, hall⟩ => ⟨hname, ?_⟩, fun hcarries => ⟨_, rfl, ?_⟩⟩
    · cases hmsgs
      exact (List.forall₂_cons.1 hall).1
    · exact .cons hcarries.2 .nil
  · refine iff_of_false ?_ fun hcarries => hname hcarries.1
    rintro ⟨msgs, hmsgs, -⟩
    cases hmsgs

end PyCall

theorem length_of_parsed {calls : List PyCall} (hend : ¬callEnd <:+: listText calls)
    (h : Parsed serde isAlphanumeric calls) : calls.length = 1 := by
  obtain ⟨msgs, hmsgs, hall⟩ := h
  rw [parseBracketCall_rendering hend] at hmsgs
  rw [← hall.length_eq]
  rcases hcall : bracketCall serde isAlphanumeric (listText calls) with e | msg <;>
    rw [hcall] at hmsgs <;> cases hmsgs
  rfl

/-- A single call that is read as it is written is parsed.  Without a closing marker in the text no
others are, where the splitter finds the arguments or their values hold no equals sign. -/
theorem bracket_calls_parsed (isAlphanumeric : Char → Bool) {calls : List PyCall}
    (hcalls : ∀ call ∈ calls, call.WellFormed) (hserde : ∀ call ∈ calls, call.Exact serde) :
    (OneCall isAlphanumeric calls → Parsed serde isAlphanumeric calls) ∧
      (¬callEnd <:+: listText calls → Parsed serde isAlphanumeric calls → calls.length = 1 ∧
        ((∀ call ∈ calls, Separated (call.kwargs.map Kwarg.text) ∨ call.Plain) →
          OneCall isAlphanumeric calls)) := by
  refine ⟨fun ⟨hend, call, hone, hread⟩ => ?_, fun hend hparsed => ?_⟩
  · subst hone
    have hwell := hcalls call mem_cons_self
    have hexact := hserde call mem_cons_self
    exact (hwell.parsed_iff hend).2
      ⟨hread.name, (hwell.carries_iff hexact hread.separated).2 hread.readable⟩
  · have hlen := length_of_parsed hend hparsed
    refine ⟨hlen, fun hcases => ⟨hend, ?_⟩⟩
    obtain ⟨call, rfl⟩ := length_eq_one_iff.1 hlen
    have hwell := hcalls call mem_cons_self
    have hexact := hserde call mem_cons_self
    obtain ⟨hname, hcarries⟩ := (hwell.parsed_iff hend).1 hparsed
    have hsep : Separated (call.kwargs.map Kwarg.text) := by
      rcases hcases call mem_cons_self with hsep | hplain
      · exact hsep
      · exact hwell.separated_of_carries hplain hexact rfl hcarries
    exact ⟨call, rfl, hname, hsep, (hwell.carries_iff hexact hsep).1 hcarries⟩

/-- What `serde_json` does with a few texts. -/
def tableSerde (print : Value → String) (table : List (String × Value)) : SerdeStr where
  toString := print
  fromStr := fun text =>
    match table.find? fun e => e.1.toList = text with
    | some e => .ok e.2
    | none => .error "expected value"

def twoCalls : List PyCall :=
  [⟨['f'], [⟨['a'], .int 1⟩]⟩, ⟨['g'], [⟨['b'], .int 2⟩]⟩]

def printTwo : Value → String
  | .object [("a", _)] => "\x7b\"a\":1\x7d"
  | .object [("b", _)] => "\x7b\"b\":2\x7d"
  | _ => "\x7b\"a\":\"1)\",\"g(b\":2\x7d"

def twoSerde : SerdeStr := tableSerde printTwo
  [("1", .number (.posInt 1)), ("2", .number (.posInt 2)),
    ("\x7b\"a\":1\x7d", .object [("a", .number (.posInt 1))]),
    ("\x7b\"b\":2\x7d", .object [("b", .number (.posInt 2))])]

/-- Of two calls the second is read as an argument of the first. -/
theorem second_call_lost :
    (∀ call ∈ twoCalls, call.WellFormed ∧ call.Exact twoSerde) ∧
      (parseBracketCall twoSerde Char.isAlphanum (rendering twoCalls)).calls =
        some [⟨"call_0", "f", "\x7b\"a\":\"1)\",\"g(b\":2\x7d"⟩] ∧
      ¬Parsed twoSerde Char.isAlphanum twoCalls := by
  have hcalls : (parseBracketCall twoSerde Char.isAlphanum (rendering twoCalls)).calls =
      some [⟨"call_0", "f", "\x7b\"a\":\"1)\",\"g(b\":2\x7d"⟩] := by decide +kernel
  refine ⟨?_, hcalls, ?_⟩
  · refine forall_mem_cons.2 ⟨⟨⟨?_, ?_, ?_⟩, rfl, ?_⟩,
      forall_mem_singleton.2 ⟨⟨?_, ?_, ?_⟩, rfl, ?_⟩⟩
    · exact identifier_of_ascii (by decide) (by decide)
    · exact forall_mem_singleton.2 (identifier_of_ascii (by decide) (by decide))
    · exact nodup_singleton _
    · exact forall_mem_singleton.2 (SerdeStr.reads_of_ok rfl rfl rfl)
    · exact identifier_of_ascii (by decide) (by decide)
    · exact forall_mem_singleton.2 (identifier_of_ascii (by decide) (by decide))
    · exact nodup_singleton _
    · exact forall_mem_singleton.2 (SerdeStr.reads_of_ok rfl rfl rfl)
  · rintro ⟨msgs, hmsgs, hall⟩
    rw [hcalls] at hmsgs
    cases hmsgs
    exact absurd hall.length_eq (by decide)

/-- `search(query="a=b, (c)", tags=["x", "it's"], page=None)` -/
def searchCall : PyCall where
  name := "search".toList
  kwargs :=
    [⟨"query".toList, .str .double "a=b, (c)".toList⟩,
      ⟨"tags".toList, .list [.str .double ['x'], .str .double "it's".toList]⟩,
      ⟨"page".toList, .none⟩]

def searchObject : Value := .object
  [("query", .string "a=b, (c)"), ("tags", .array [.string "x", .string "it's"]), ("page", .null)]

def searchText : String :=
  "\x7b\"page\":null,\"query\":\"a=b, (c)\",\"tags\":[\"x\",\"it's\"]\x7d"

def searchSerde : SerdeStr := tableSerde (fun _ => searchText)
  [("\"a=b, (c)\"", .string "a=b, (c)"),
    ("[\"x\", \"it's\"]", .array [.string "x", .string "it's"]), (searchText, searchObject)]

theorem searchCall_wellFormed : searchCall.WellFormed := by
  refine ⟨identifier_of_ascii (by decide) (by decide), ?_, by decide⟩
  refine forall_mem_cons.2 ⟨?_, forall_mem_cons.2 ⟨?_,
    forall_mem_singleton.2 ?_⟩⟩ <;> exact identifier_of_ascii (by decide) (by decide)

theorem searchCall_reads : ∀ a ∈ searchCall.kwargs, searchSerde.Reads a.value :=
  forall_mem_cons.2 ⟨SerdeStr.reads_of_ok rfl rfl rfl,
    forall_mem_cons.2 ⟨SerdeStr.reads_of_ok rfl rfl rfl,
      forall_mem_singleton.2 (SerdeStr.reads_of_error rfl rfl)⟩⟩

theorem searchCall_asWritten : searchCall.AsWritten Char.isAlphanum := by
  have hname : (searchCall.name.all fun c => c.isAlphanum || c = '_') = true := by decide
  have hquery : ("a=b, (c)".toList.all fun c => escapeChar .double c = [c]) = true := by decide
  refine ⟨fun c hc => by simpa using all_eq_true.1 hname c hc,
    searchCall_wellFormed.separated (by decide), ?_⟩
  refine forall_mem_cons.2 ⟨fun c hc => ?_, forall_mem_cons.2 ⟨⟨rfl, rfl⟩,
    forall_mem_singleton.2 trivial⟩⟩
  exact of_decide_eq_true (all_eq_true.1 hquery c hc)

theorem searchCall_exact : searchCall.Exact searchSerde := by
  have hbuilt : fnArguments searchSerde searchCall.argsText =
      [("query", .string "a=b, (c)"), ("tags", .array [.string "x", .string "it's"]),
        ("page", .null)] := by
    rw [searchCall_wellFormed.fnArguments_argsText searchCall_asWritten.separated]
    exact map_readEntry searchCall_reads searchCall_asWritten.readable
      (.cons ⟨rfl, rfl⟩ (.cons ⟨rfl, rfl⟩ (.cons ⟨rfl, rfl⟩ .nil)))
  refine ⟨?_, searchCall_reads⟩
  rw [hbuilt]
  rfl

theorem bracket_calls_parsed_search : Parsed searchSerde Char.isAlphanum [searchCall] :=
  (bracket_calls_parsed Char.isAlphanum (forall_mem_singleton.2 searchCall_wellFormed)
    (forall_mem_singleton.2 searchCall_exact)).1
    ⟨by decide +kernel, searchCall, rfl, searchCall_asWritten⟩

end Grim.Server
