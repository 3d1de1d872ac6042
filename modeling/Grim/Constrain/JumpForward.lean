import Grim.Lib.Text
import Grim.Constrain.FastPath
import Grim.Constrain.Sound

/-!
# Jumping forward

`lookahead_literal` names a text that is to be emitted without sampling.  Whitespace may stand on
either side of a structural character, so such a text is forced only behind the first letter of a
literal name, or where nothing that conforms can follow (`lookahead_forced_iff`).

`serde_json`'s way to print a value is a parameter.
-/

namespace Grim.Constrain

open JsonValue Json

section

variable (render : Value → String) (comp : CompiledSchema) (partialJson : String)

def trimStart (s : String) : List Char := s.toList.dropWhile Text.isWhitespace

def openingLiteral : Option String :=
  if trimStart partialJson = [] ∧ (comp.schema.get "type").bind Value.asStr = some "object" then
    some "\x7b\n"
  else none

def keyLiteral : Option String :=
  if trimStart partialJson = ['{'] ∨ trimStart partialJson = ['{', '\n'] then
    match (comp.schema.get "required").bind Value.asArray with
    | some [key] => key.asStr.map fun keyName => "\"" ++ keyName ++ "\": "
    | _ => none
  else none

def enumLiteral : Option String :=
  match (comp.schema.get "enum").bind Value.asArray with
  | some [only] => some (render only)
  | _ => none

def lookaheadJumpForward : Option String :=
  openingLiteral comp partialJson <|> keyLiteral comp partialJson <|> enumLiteral render comp

end

/-- The modes that leave one way to go on: a key is over, or one letter of a literal name read. -/
def singleton : Mode → Option String
  | .expectColon => some ": "
  | .litTrue 1 => some "rue"
  | .litFalse 1 => some "alse"
  | .litNull 1 => some "ull"
  | _ => none

theorem singleton_cases {m : Mode} {t : String} (h : singleton m = some t) :
    (m = .expectColon ∧ t = ": ") ∨ m ∈ [.litTrue 1, .litFalse 1, .litNull 1] := by
  unfold singleton at h
  split at h <;> simp_all

namespace ConstrainedSampler

def lookaheadLiteral (render : Value → String) (comp : CompiledSchema) (s : ConstrainedSampler) :
    Option String :=
  match singleton s.fsm.mode, s.constraint with
  | some t, _ => some t
  | none, .jsonSchema _ => lookaheadJumpForward render comp s.output
  | none, .jsonObject => none

def Proposes (render : Value → String) (comp : CompiledSchema) (s : ConstrainedSampler)
    (t : String) : Prop :=
  s.lookaheadLiteral render comp = some t ∨ lookaheadJumpForward render comp s.output = some t

/-- `y` finishes the output to a document of the schema. -/
def Completes (parse : Parser) (comp : CompiledSchema) (s : ConstrainedSampler) (y : List Char) :
    Prop := ∃ v, parse (s.output.toList ++ y) = .ok v ∧ comp.Accepts v

/-- The automaton takes the text, and whatever finishes the document begins with it. -/
def Forced (parse : Parser) (comp : CompiledSchema) (s : ConstrainedSampler) (t : String) : Prop :=
  s.fsm.tokenIsValid t = true ∧ ∀ y, s.Completes parse comp y → t.toList <+: y

/-- The automaton has taken the whole output and one letter of a literal name; or it takes the
text, and nothing finishes the document. -/
def Justified (parse : Parser) (comp : CompiledSchema) (s : ConstrainedSampler) (t : String) :
    Prop :=
  (s.InGrammar ∧ s.fsm.mode ∈ [.litTrue 1, .litFalse 1, .litNull 1]
      ∧ singleton s.fsm.mode = some t)
    ∨ (s.fsm.tokenIsValid t = true ∧ ∀ y, ¬ s.Completes parse comp y)

end ConstrainedSampler

namespace JsonState

def Reading : Mode → Bool → Scan → Prop
  | .expectValue, _, m | .expectKey, _, m | .expectColon, _, m => m = .between
  | .stringKey, escaped, m | .stringValue, escaped, m => m = if escaped then .escape else .string
  | .litTrue n, _, m => m = .word ("true".toList.take n)
  | .litFalse n, _, m => m = .word ("false".toList.take n)
  | .litNull n, _, m => m = .word ("null".toList.take n)
  | _, _, m => m.place = .outside

structure Follows (s : JsonState) (m : Scan) : Prop where
  reading : Reading s.mode s.escaped m
  hex : 0 < s.hexRemaining → m = .string

variable {s : JsonState} {m : Scan} {c : Char}

theorem follows_of (h : s.hexRemaining = 0) (hr : Reading s.mode s.escaped m) : Follows s m :=
  ⟨hr, fun hp => by omega⟩

theorem follows_valueEnd (h : s.hexRemaining = 0) (hm : m.place = .outside) (st : List Bracket) :
    Follows { s with stack := st, mode := valueEnd st } m := by
  refine follows_of h ?_
  unfold valueEnd
  dsimp only
  split_ifs <;> exact hm

theorem follows_pop (h : s.hexRemaining = 0) (hc : c = '}' ∨ c = ']') (hm : m.place = .outside) :
    Follows s.pop (m.next c) := by
  have hnext : m.next c = .between := by
    rcases hc with rfl | rfl <;> exact Scan.next_of_outside hm (by decide) (by decide)
  rw [hnext]
  exact follows_valueEnd h rfl _

theorem follows_space (h : s.hexRemaining = 0) (hc : isSpace c = true) (hm : m.place = .outside)
    (hr : Reading s.mode s.escaped .between) : Follows s (m.next c) := by
  have hws := (isSpace_iff c).1 hc
  rw [Scan.next_of_outside hm (not_isWord_of_ws hws) (ne_quote_of_ws hws)]
  exact follows_of h hr

theorem follows_onExpectValue (h : s.hexRemaining = 0) (hmode : s.mode = .expectValue)
    (hc : (s.onExpectValue c).2 = true) :
    Follows (s.onExpectValue c).1 (Scan.next .between c) := by
  by_cases h1 : c = '{'
  · subst h1
    rw [Scan.next_of_outside rfl (by decide) (by decide)]
    exact follows_of h rfl
  by_cases h2 : c = '['
  · subst h2
    rw [Scan.next_of_outside rfl (by decide) (by decide)]
    exact follows_of h rfl
  by_cases h3 : c = '"'
  · subst h3
    rw [Scan.next_quote rfl]
    exact follows_of h rfl
  rw [onExpectValue, if_neg h1, if_neg h2, if_neg h3] at hc ⊢
  split_ifs at hc ⊢ with h4 h5 h6 h7 h8 h9 h10
  · exact follows_pop h (.inl h4.1) rfl
  · exact follows_pop h (.inr h5.1) rfl
  · rw [Scan.next_word (isWord_of_letter (by simp [h6]))]
    exact follows_of h rfl
  · rw [Scan.next_word (isWord_of_isDigit ((isAsciiDigit_iff c).1 h7))]
    exact follows_of h rfl
  · rw [Scan.next_word (isWord_of_letter (by simp [h8])), h8]
    exact follows_of h rfl
  · rw [Scan.next_word (isWord_of_letter (by simp [h9])), h9]
    exact follows_of h rfl
  · rw [Scan.next_word (isWord_of_letter (by simp [h10])), h10]
    exact follows_of h rfl
  · exact follows_space h hc rfl (by rw [hmode]; rfl)

theorem follows_onExpectKey (h : s.hexRemaining = 0) (hmode : s.mode = .expectKey)
    (hc : (s.onExpectKey c).2 = true) :
    Follows (s.onExpectKey c).1 (Scan.next .between c) := by
  unfold onExpectKey at hc ⊢
  split_ifs at hc ⊢ with h1 h2
  · exact follows_pop h (.inl h1.1) rfl
  · rw [h2, Scan.next_quote rfl]
    exact follows_of h rfl
  · exact follows_space h hc rfl (by rw [hmode]; rfl)

theorem follows_onExpectColon (h : s.hexRemaining = 0) (hmode : s.mode = .expectColon)
    (hc : (s.onExpectColon c).2 = true) :
    Follows (s.onExpectColon c).1 (Scan.next .between c) := by
  unfold onExpectColon at hc ⊢
  split_ifs at hc ⊢ with h1
  · rw [h1, Scan.next_of_outside rfl (by decide) (by decide)]
    exact follows_of h rfl
  · exact follows_space h hc rfl (by rw [hmode]; rfl)

theorem place_next_ne {c : Char} (hm : m.place = .outside) (hc : c ≠ '"') :
    (m.next c).place = .outside := by
  rw [Scan.place_next, hm, Place.next, if_neg hc]

theorem follows_onExpectSep (h : s.hexRemaining = 0) (hmode : s.mode = .expectSep)
    (hm : m.place = .outside) (hc : (s.onExpectSep c).2 = true) :
    Follows (s.onExpectSep c).1 (m.next c) := by
  have hstay : c ≠ '"' → Follows s (m.next c) := fun hne =>
    follows_of h (by rw [hmode]; exact place_next_ne hm hne)
  unfold onExpectSep at hc ⊢
  split_ifs at hc ⊢ with h1 h2 h3 h4 h5 h6 h7 h8
  · rw [h1, Scan.next_of_outside hm (by decide) (by decide)]
    cases hst : s.stack.head? with
    | none => simp [hst] at hc
    | some b => cases b <;> exact follows_of h rfl
  · exact follows_pop h (.inl h2) hm
  · rw [h2, Scan.next_of_outside hm (by decide) (by decide)]
    exact follows_of h rfl
  · exact follows_pop h (.inr h5.1) hm
  · exact hstay fun hq => by simp [hq, isAsciiDigit] at h6
  · exact hstay fun hq => absurd (hq.symm.trans h7) (by decide)
  · exact hstay fun hq => by simp [hq] at h8
  · exact hstay (ne_quote_of_ws ((isSpace_iff c).1 hc))

theorem follows_onString (h : s.hexRemaining = 0)
    (hmode : s.mode = .stringKey ∨ s.mode = .stringValue)
    (hm : m = if s.escaped then .escape else .string) (hc : (s.onString c).2 = true) :
    Follows (s.onString c).1 (m.next c) := by
  have hread : ∀ {e : Bool}, Reading s.mode e (if e then .escape else .string) := by
    rcases hmode with hmode | hmode <;> rw [hmode] <;> exact rfl
  unfold onString at hc ⊢
  split_ifs at hc ⊢ with h1 h2 h3 h4 h5 h6
  · rw [hm, if_pos h1]
    exact follows_of h (hread (e := false))
  · rw [hm, if_pos h1]
    exact ⟨hread (e := false), fun _ => rfl⟩
  · rw [hm, if_neg h1, h4]
    exact follows_of h (hread (e := true))
  · rw [hm, if_neg h1, h5]
    exact follows_of h rfl
  · rw [hm, if_neg h1, h5]
    exact follows_valueEnd h rfl _
  · rw [hm, if_neg h1, Scan.next, if_neg h5, if_neg h4]
    exact follows_of h (by rw [Bool.eq_false_iff.2 h1]; exact hread (e := false))

theorem follows_onNumStart (h : s.hexRemaining = 0) (hm : m.place = .outside)
    (hc : (s.onNumStart c).2 = true) :
    Follows (s.onNumStart c).1 (m.next c) := by
  unfold onNumStart at hc ⊢
  split_ifs at hc ⊢ with h1
  exact follows_of h (place_next_ne hm fun hq => by simp [hq, isAsciiDigit] at h1)

theorem follows_onNumber (h : s.hexRemaining = 0) (hr : Reading s.mode s.escaped m)
    (hmode : s.mode ∈ [Mode.numInt, .numFrac, .numExp, .numExpSign, .numExpDigits])
    (hc : (s.onNumber c).2 = true) : Follows (s.onNumber c).1 (m.next c) := by
  have hread : ∀ {m : Scan}, Reading s.mode s.escaped m ↔ m.place = .outside := by
    simp only [List.mem_cons, List.not_mem_nil, or_false] at hmode
    rcases hmode with hmode | hmode | hmode | hmode | hmode <;> rw [hmode] <;> exact Iff.rfl
  have hm := hread.1 hr
  have hstay : c ≠ '"' → Follows s (m.next c) := fun hne =>
    follows_of h (hread.2 (place_next_ne hm hne))
  unfold onNumber at hc ⊢
  split_ifs at hc ⊢ with h1 h2 h3 h4
  · exact hstay fun hq => by simp [hq, isAsciiDigit] at h1
  · exact hstay fun hq => absurd (hq.symm.trans h2) (by decide)
  · exact hstay fun hq => by simp [hq] at h3
  · exact follows_onExpectSep (s := { s with mode := .expectSep }) h rfl hm hc

theorem follows_onLiteral {expected : List Char} {lit : ℕ → Mode} {n : ℕ}
    (h : s.hexRemaining = 0) (hword : ∀ c ∈ expected, IsWord c)
    (hlit : ∀ n, Reading (lit n) s.escaped (.word (expected.take n)))
    (hc : (s.onLiteral expected lit n c).2 = true) :
    Follows (s.onLiteral expected lit n c).1 (Scan.next (.word (expected.take n)) c) := by
  unfold onLiteral at hc ⊢
  split_ifs at hc ⊢ with h1 h2
  all_goals
    have hnext : Scan.next (.word (expected.take n)) c = .word (expected.take (n + 1)) := by
      rw [Scan.next, if_pos (hword c (List.mem_of_getElem? h1)), List.take_add_one, h1]
      rfl
    rw [hnext]
  · exact follows_valueEnd h rfl _
  · exact follows_of h (hlit _)

theorem Follows.advance (h : Follows s m) (hc : (s.advance c).2 = true) :
    Follows (s.advance c).1 (m.next c) := by
  obtain ⟨hr, hhex⟩ := h
  unfold JsonState.advance at hc ⊢
  split_ifs at hc ⊢ with hpos hdigit
  · obtain ⟨hq, hb⟩ := IsHex.ne_quote ((isAsciiHexdigit_iff c).1 hdigit)
    rw [hhex hpos] at hr ⊢
    rw [Scan.next, if_neg hq, if_neg hb]
    exact ⟨hr, fun _ => rfl⟩
  · have h0 : s.hexRemaining = 0 := by omega
    generalize hmode : s.mode = mode at hr hc ⊢
    cases mode with
    | expectValue => exact hr ▸ follows_onExpectValue h0 hmode hc
    | expectKey => exact hr ▸ follows_onExpectKey h0 hmode hc
    | expectColon => exact hr ▸ follows_onExpectColon h0 hmode hc
    | expectSep => exact follows_onExpectSep h0 hmode hr hc
    | stringKey => exact follows_onString h0 (.inl hmode) hr hc
    | stringValue => exact follows_onString h0 (.inr hmode) hr hc
    | numStart b => exact follows_onNumStart h0 hr hc
    | numInt | numFrac | numExp | numExpSign | numExpDigits =>
      exact follows_onNumber h0 (by rwa [hmode]) (by simp [hmode]) hc
    | litTrue n =>
      exact hr ▸ follows_onLiteral h0 (literal_isWord (by simp [literals])).2 (fun _ => rfl) hc
    | litFalse n =>
      exact hr ▸ follows_onLiteral h0 (literal_isWord (by simp [literals])).2 (fun _ => rfl) hc
    | litNull n =>
      exact hr ▸ follows_onLiteral h0 (literal_isWord (by simp [literals])).2 (fun _ => rfl) hc
    | done =>
      refine follows_space h0 hc hr ?_
      rw [hmode]
      exact rfl

theorem Follows.runs : ∀ {cs : List Char} {s s' : JsonState} {m : Scan}, Follows s m →
    Runs s cs s' → Follows s' (cs.foldl Scan.next m)
  | [], _, _, _, h, hr => by rwa [runs_nil.1 hr] at h
  | _ :: _, _, _, _, h, hr =>
    let ⟨hc, hcs⟩ := runs_cons.1 hr
    (h.advance hc).runs hcs

theorem follows_of_runs {cs : List Char} (h : Runs default cs s) : Follows s (cut cs) :=
  Follows.runs (follows_of (s := default) rfl rfl) h

theorem Follows.hexRemaining_eq (h : Follows s m) (hm : m ≠ .string) : s.hexRemaining = 0 := by
  by_contra hpos
  exact hm (h.hex (by omega))

theorem ws_of_runs {u r : List Char} {s' : JsonState} (hs : At s .expectValue [])
    (h : Runs s (u ++ r) s') (hu : ∀ c ∈ u, Text.isWhitespace c = true) : Ws u := by
  induction u generalizing s with
  | nil => exact .nil
  | cons c u ih =>
    obtain ⟨hc, hu⟩ := List.forall_mem_cons.1 hu
    obtain ⟨htakes, hrun⟩ := runs_cons.1 h
    have hne : ∀ d, Text.isWhitespace d = false → c ≠ d := by
      rintro d hd rfl
      exact Bool.noConfusion (hd.symm.trans hc)
    have hdigit : ¬ isAsciiDigit c = true := fun hd => by
      obtain ⟨hlo, hhi⟩ := (isAsciiDigit_iff c).1 hd
      have hlo : 48 ≤ c.toNat := hlo
      have hhi : c.toNat ≤ 57 := hhi
      simp only [Text.isWhitespace, Bool.or_eq_true, Bool.and_eq_true, decide_eq_true_eq] at hc
      omega
    have hspace : IsWs c := by
      rw [advance, if_neg (by simp [hs.hexRemaining]), hs.mode] at htakes
      simp only [onExpectValue, hne '{' (by decide), hne '[' (by decide), hne '"' (by decide),
        hne '}' (by decide), hne ']' (by decide), hne '-' (by decide), hdigit,
        hne 't' (by decide), hne 'f' (by decide), hne 'n' (by decide), if_false,
        false_and] at htakes
      exact (isSpace_iff c).1 htakes
    obtain ⟨t, hstep, ht⟩ := leads_space (m := .expectValue) (by simp [Skips]) hspace s hs
    have heq : (s.advance c).1 = t := runs_nil.1 (runs_cons.1 hstep).2
    exact .cons hspace (ih (heq ▸ ht) hrun hu)

end JsonState

namespace ConstrainedSampler

open JsonState

variable {parse : Parser} {render : Value → String} {comp : CompiledSchema}
  {s : ConstrainedSampler} {t : String}

theorem Completes.text (hserde : Rfc8259 parse) {y : List Char} (h : s.Completes parse comp y) :
    Json.Text (s.output.toList ++ y) := by
  obtain ⟨v, hv, -⟩ := h
  exact (hserde.ok_iff _).1 ⟨v, hv⟩

theorem forced_of_letter (hserde : Rfc8259 parse) (hfollows : Follows s.fsm (cut s.output.toList))
    {c : Char} (hcut : cut s.output.toList = .word [c]) (hc : c :: t.toList ∈ literals)
    (htakes : s.fsm.hexRemaining = 0 → s.fsm.tokenIsValid t = true) : s.Forced parse comp t := by
  refine ⟨htakes (hfollows.hexRemaining_eq (by rw [hcut]; simp)), fun y hy => ?_⟩
  have hword := (hy.text hserde).word_goes_on hcut
  rw [List.singleton_append] at hword
  rw [← literal_of_letter hc hword]
  exact List.takeWhile_prefix _

theorem forced_of_singleton (hserde : Rfc8259 parse) (hsync : s.InGrammar)
    (hmode : s.fsm.mode ∈ [.litTrue 1, .litFalse 1, .litNull 1])
    (ht : singleton s.fsm.mode = some t) : s.Forced parse comp t := by
  have hfollows := follows_of_runs hsync
  have hread := hfollows.reading
  simp only [List.mem_cons, List.not_mem_nil, or_false] at hmode
  rcases hmode with hmode | hmode | hmode <;> rw [hmode] at ht hread <;>
    obtain rfl := Option.some.inj ht
  · refine forced_of_letter hserde hfollows (c := 't') hread (by simp [literals]) fun hhex => ?_
    simp [tokenIsValid, feedToken, feedChars, advance, hhex, hmode, onLiteral]
  · refine forced_of_letter hserde hfollows (c := 'f') hread (by simp [literals]) fun hhex => ?_
    simp [tokenIsValid, feedToken, feedChars, advance, hhex, hmode, onLiteral]
  · refine forced_of_letter hserde hfollows (c := 'n') hread (by simp [literals]) fun hhex => ?_
    simp [tokenIsValid, feedToken, feedChars, advance, hhex, hmode, onLiteral]

def Compact (render : Value → String) : Prop :=
  ∀ v, ∃ c r, (render v).toList = c :: r ∧ ¬ IsWs c

theorem not_completes_of_forced (hf : s.Forced parse comp t) {d : Char} {r : List Char}
    (ht : t.toList = d :: r) (hd : ¬ IsWs d)
    (hspace : ∀ z v, parse (s.output.toList ++ (d :: z)) = .ok v →
      parse (s.output.toList ++ '\n' :: d :: z) = .ok v) (y : List Char) :
    ¬ s.Completes parse comp y := by
  rintro ⟨v, hv, hconf⟩
  obtain ⟨z, rfl⟩ := hf.2 y ⟨v, hv, hconf⟩
  rw [ht, List.cons_append] at hv
  obtain ⟨z', hz'⟩ := hf.2 _ ⟨v, hspace _ _ hv, hconf⟩
  rw [ht] at hz'
  exact hd ((List.cons.inj hz').1 ▸ by decide)

theorem ws_of_inGrammar (hsync : s.InGrammar) {u r : List Char} (hout : s.output.toList = u ++ r)
    (hu : ∀ c ∈ u, Text.isWhitespace c = true) : Ws u := by
  rw [InGrammar, hout] at hsync
  exact ws_of_runs at_default hsync hu

theorem space_of_blank (hserde : Rfc8259 parse) (hw : Ws s.output.toList) (z : List Char)
    (v : Value) (hv : parse (s.output.toList ++ z) = .ok v) :
    parse (s.output.toList ++ '\n' :: z) = .ok v := by
  have htext := ((hserde.ok_iff _).1 ⟨v, hv⟩).of_ws_append hw
  have hw' : Ws (s.output.toList ++ ['\n']) :=
    List.forall_mem_append.2 ⟨hw, List.forall_mem_singleton.2 (by decide)⟩
  rw [← hv, hserde.leading _ _ hw htext, ← List.singleton_append, ← List.append_assoc,
    hserde.leading _ _ hw' htext]

theorem not_completes_colon (hserde : Rfc8259 parse) (hsync : s.InGrammar)
    (hmode : s.fsm.mode = .expectColon) (hf : s.Forced parse comp ": ") (y : List Char) :
    ¬ s.Completes parse comp y := by
  have hread := (follows_of_runs hsync).reading
  rw [hmode] at hread
  have hwhole : Whole s.output.toList := whole_iff_cut.2 (by rw [show cut _ = _ from hread]; rfl)
  refine not_completes_of_forced hf (d := ':') rfl (by decide) (fun z v hv => ?_) y
  have htext := (hserde.ok_iff _).1 ⟨v, hv⟩
  rw [← hv, ← hserde.around _ ':' z ['\n'] [] (by decide) hwhole htext (by simp [Ws, IsWs]) .nil]
  simp

theorem not_completes_opening (hserde : Rfc8259 parse) (hsync : s.InGrammar)
    (ht : openingLiteral comp s.output = some t) (hf : s.Forced parse comp t) (y : List Char) :
    ¬ s.Completes parse comp y := by
  unfold openingLiteral at ht
  split_ifs at ht with hblank
  obtain rfl := Option.some.inj ht
  have hw : Ws s.output.toList := by
    refine ws_of_inGrammar hsync (List.append_nil _).symm ?_
    simpa [trimStart, List.dropWhile_eq_nil_iff] using hblank.1
  exact not_completes_of_forced hf (d := '{') rfl (by decide)
    (fun z v => space_of_blank hserde hw _ v) y

theorem not_completes_key (hserde : Rfc8259 parse) (hsync : s.InGrammar)
    (ht : keyLiteral comp s.output = some t) (hf : s.Forced parse comp t) (y : List Char) :
    ¬ s.Completes parse comp y := by
  unfold keyLiteral at ht
  split_ifs at ht with hbrace
  split at ht
  · rename_i key hkey
    obtain ⟨keyName, -, rfl⟩ := Option.map_eq_some_iff.1 ht
    obtain ⟨rest, hrest, hcomm⟩ : ∃ rest, trimStart s.output = '{' :: rest
        ∧ ∀ z : List Char, rest ++ '\n' :: z = '\n' :: (rest ++ z) := by
      rcases hbrace with h | h <;> exact ⟨_, h, fun _ => rfl⟩
    have hout := (List.takeWhile_append_dropWhile (p := Text.isWhitespace)
      (l := s.output.toList)).symm
    rw [show s.output.toList.dropWhile Text.isWhitespace = '{' :: rest from hrest] at hout
    have hw := ws_of_inGrammar hsync hout fun c hc => List.mem_takeWhile_imp hc
    have ht : ("\"" ++ keyName ++ "\": ").toList = '"' :: (keyName.toList ++ ['"', ':', ' ']) := by
      simp
    refine not_completes_of_forced hf ht (by decide) (fun z v hv => ?_) y
    rw [hout, List.append_assoc, List.cons_append] at hv ⊢
    have htext := (hserde.ok_iff _).1 ⟨v, hv⟩
    rw [hcomm, ← hv, ← hserde.around _ '{' (rest ++ '"' :: z) [] ['\n'] (by decide)
      (whole_of_no_quote hw.no_quote) htext .nil (by simp [Ws, IsWs])]
    simp
  · cases ht

theorem not_completes_enum (hserde : Rfc8259 parse) (hrender : Compact render)
    (hsync : s.InGrammar) (hblank : trimStart s.output = [])
    (ht : enumLiteral render comp = some t) (hf : s.Forced parse comp t) (y : List Char) :
    ¬ s.Completes parse comp y := by
  unfold enumLiteral at ht
  split at ht
  · rename_i only _
    obtain rfl := Option.some.inj ht
    obtain ⟨d, r, htext, hd⟩ := hrender only
    have hw : Ws s.output.toList := by
      refine ws_of_inGrammar hsync (List.append_nil _).symm ?_
      simpa [trimStart, List.dropWhile_eq_nil_iff] using hblank
    exact not_completes_of_forced hf htext hd (fun z v => space_of_blank hserde hw _ v) y
  · cases ht

theorem not_completes_lookahead (hserde : Rfc8259 parse) (hrender : Compact render)
    (hsync : s.InGrammar) (hearly : trimStart s.output = [] ∨ enumLiteral render comp ≠ some t)
    (ht : lookaheadJumpForward render comp s.output = some t) (hf : s.Forced parse comp t)
    (y : List Char) : ¬ s.Completes parse comp y := by
  rw [lookaheadJumpForward, Option.orElse_eq_some, Option.orElse_eq_some] at ht
  rcases ht with ht | ⟨-, ht | ⟨-, ht⟩⟩
  · exact not_completes_opening hserde hsync ht hf y
  · exact not_completes_key hserde hsync ht hf y
  · rcases hearly with hblank | hne
    · exact not_completes_enum hserde hrender hsync hblank ht hf y
    · exact absurd ht hne

/-- What the lookaheads return is forced where it is justified, and, as long as the automaton has
taken the output, only there.  The second part leaves out the literals of one-element enumerations
behind an output that has begun. -/
theorem lookahead_forced_iff (hserde : Rfc8259 parse) (hrender : Compact render)
    (ht : s.Proposes render comp t) :
    (s.Justified parse comp t → s.Forced parse comp t) ∧
      (s.InGrammar → trimStart s.output = [] ∨ enumLiteral render comp ≠ some t →
        s.Forced parse comp t → s.Justified parse comp t) := by
  constructor
  · rintro (⟨hsync, hmode, hsingle⟩ | ⟨htakes, hnone⟩)
    · exact forced_of_singleton hserde hsync hmode hsingle
    · exact ⟨htakes, fun y hy => absurd hy (hnone y)⟩
  · intro hsync hearly hf
    rcases ht with ht | ht
    · unfold lookaheadLiteral at ht
      split at ht
      · rename_i hsingle
        obtain rfl := Option.some.inj ht
        rcases singleton_cases hsingle with ⟨hmode, rfl⟩ | hmode
        · exact .inr ⟨hf.1, not_completes_colon hserde hsync hmode hf⟩
        · exact .inl ⟨hsync, hmode, hsingle⟩
      · exact .inr ⟨hf.1, not_completes_lookahead hserde hrender hsync hearly ht hf⟩
      · cases ht
    · exact .inr ⟨hf.1, not_completes_lookahead hserde hrender hsync hearly ht hf⟩

def objectSchema : Value := .object [("type", .string "object")]

theorem compile_objectSchema : compileJsonSchema objectSchema = .ok ⟨objectSchema, false⟩ := by
  have hkeys : validateSchemaKeywords objectSchema = .ok () := by decide +kernel
  have hscan : scanStringConstraints objectSchema = false := by decide +kernel
  have hrefs : resolveRefs objectSchema 33 objectSchema = .ok objectSchema := rfl
  rw [compileJsonSchema_eq_ok rfl hkeys hrefs rfl, hscan]

def objectStart (parse : Parser) : ConstrainedSampler :=
  (new (.jsonSchema (CompiledSchema.toConstraint ⟨objectSchema, false⟩ parse))).withVocab []

theorem proposes_objectStart (parse : Parser) (render : Value → String) :
    (objectStart parse).Proposes render ⟨objectSchema, false⟩ "\x7b\n" := .inr rfl

theorem compact_const : Compact fun _ => "null" :=
  fun _ => ⟨'n', ['u', 'l', 'l'], by simp, by decide⟩

/-- The rule at the opening of an object. -/
theorem lookahead_forced_iff_opening :
    (objectStart (parserOf fun _ => .object [])).Forced (parserOf fun _ => .object [])
        ⟨objectSchema, false⟩ "\x7b\n" ↔
      (objectStart (parserOf fun _ => .object [])).Justified (parserOf fun _ => .object [])
        ⟨objectSchema, false⟩ "\x7b\n" :=
  have h := lookahead_forced_iff (rfc8259_parserOf _) compact_const (proposes_objectStart _ _)
  ⟨h.2 rfl (.inl rfl), h.1⟩

/-- The empty object on one line conforms, and does not begin with a brace and a line break. -/
theorem opening_not_forced : ¬ ∀ parse, Rfc8259 parse → ∀ render, Compact render → ∀ doc comp,
    compileJsonSchema doc = .ok comp → ∀ vocab s, Reached parse comp vocab s →
      ∀ t, s.Proposes render comp t → s.Forced parse comp t := by
  intro h
  have hforced := h _ (rfc8259_parserOf fun _ => .object []) _ compact_const _ _
    compile_objectSchema [] (objectStart _) .start _ (proposes_objectStart _ _)
  have htext : Json.Text ['{', '}'] :=
    ⟨[], _, [], .nil, .emptyObject (.self '{') (.self '}'), .nil, rfl⟩
  have hconf : validate (.object []) objectSchema = true := by decide +kernel
  have hprefix := hforced.2 ['{', '}'] ⟨_, parserOf_text htext, hconf⟩
  exact absurd hprefix (by decide)

end ConstrainedSampler

end Grim.Constrain
