import Grim.Constrain.JsonFsm
import Grim.Lib.Json.Grammar

/-!
# The automaton reads every JSON text, but U+007F to U+009F

A value leads from `expectValue` to the end of a value, whatever is open around it.  The one
exception is in a string: the automaton refuses every control character, and RFC 8259 only those
below U+0020.
-/

namespace Grim.Constrain

open Json List

def IsHighControl (c : Char) : Prop := 0x7f ≤ c.val ∧ c.val ≤ 0x9f

instance (c : Char) : Decidable (IsHighControl c) := by unfold IsHighControl; infer_instance

theorem isSpace_iff (c : Char) : isSpace c = true ↔ IsWs c := by
  simp [isSpace, IsWs, or_assoc]

theorem isAsciiDigit_iff (c : Char) : isAsciiDigit c = true ↔ IsDigit c := by
  simp [isAsciiDigit, IsDigit]

theorem isAsciiHexdigit_iff (c : Char) : isAsciiHexdigit c = true ↔ IsHex c := by
  simp [isAsciiHexdigit, isAsciiDigit_iff, IsHex, or_assoc]

theorem isControl_of_unescaped {c : Char} (h : Unescaped c) (hc : ¬ IsHighControl c) :
    isControl c = false := by
  have h0 : ¬ c.val < 0x20 := by
    have := h.1
    simpa [Char.le_def] using this
  by_cases h1 : 0x7f ≤ c.val
  · have h2 : ¬ c.val ≤ 0x9f := fun h2 => hc ⟨h1, h2⟩
    simp [isControl, h0, h2]
  · simp [isControl, h0, h1]

namespace JsonState

variable {m m' : Mode} {st st' : List Bracket} {cs : List Char}

theorem At.eq {s : JsonState} (h : At s m st) : s = ⟨st, m, false, s.isKey, 0⟩ := by
  obtain ⟨rfl, rfl, he, hh⟩ := h
  rcases s with ⟨st, m, e, k, n⟩
  simp_all

theorem leads_of (h : ∀ k, ∃ k',
    feedChars ⟨st, m, false, k, 0⟩ cs = (⟨st', m', false, k', 0⟩, true)) :
    Leads m st cs m' st' := by
  intro s hs
  obtain ⟨k', hk⟩ := h s.isKey
  refine ⟨⟨st', m', false, k', 0⟩, ?_, ⟨rfl, rfl, rfl, rfl⟩⟩
  rw [hs.eq]
  exact hk

def Skips (m : Mode) : Prop := m ∈ [.expectValue, .expectKey, .expectColon, .expectSep, .done]

theorem leads_space {c : Char} (hm : Skips m) (hc : IsWs c) : Leads m st [c] m st := by
  refine leads_of fun k => ⟨k, ?_⟩
  simp only [IsWs, mem_cons, not_mem_nil, or_false] at hc
  simp only [Skips, mem_cons, not_mem_nil, or_false] at hm
  rcases hc with rfl | rfl | rfl | rfl <;> rcases hm with rfl | rfl | rfl | rfl | rfl <;>
    simp [feedChars, advance, onExpectValue, onExpectKey, onExpectColon, onExpectSep, isSpace,
      isAsciiDigit]

theorem leads_ws (hm : Skips m) : ∀ {w : List Char}, Ws w → Leads m st w m st
  | [], _ => .nil
  | c :: w, h => by
    obtain ⟨hc, hw⟩ := forall_mem_cons.mp h
    exact (leads_space hm hc).cons (leads_ws hm hw)

theorem leads_structural {c : Char} (hm : Skips m) (hm' : Skips m') (h : Leads m st [c] m' st')
    (hc : Structural c cs) : Leads m st cs m' st' := by
  obtain ⟨w, w', hw, hw', rfl⟩ := hc
  exact (leads_ws hm hw).append (h.cons (leads_ws hm' hw'))

theorem skips_valueEnd (st : List Bracket) : Skips (valueEnd st) := by
  cases st <;> simp [valueEnd, Skips]

theorem leads_openArray (st : List Bracket) :
    Leads .expectValue st ['['] .expectValue (.array :: st) :=
  leads_of fun k => ⟨false, by simp [feedChars, advance, onExpectValue]⟩

theorem leads_openObject (st : List Bracket) :
    Leads .expectValue st ['{'] .expectKey (.object :: st) :=
  leads_of fun k => ⟨true, by simp [feedChars, advance, onExpectValue]⟩

theorem leads_emptyArray (st : List Bracket) :
    Leads .expectValue (.array :: st) [']'] (valueEnd st) st :=
  leads_of fun k => ⟨k, by simp [feedChars, advance, onExpectValue, pop]⟩

theorem leads_emptyObject (st : List Bracket) :
    Leads .expectKey (.object :: st) ['}'] (valueEnd st) st :=
  leads_of fun k => ⟨k, by simp [feedChars, advance, onExpectKey, pop]⟩

theorem leads_closeArray (st : List Bracket) :
    Leads .expectSep (.array :: st) [']'] (valueEnd st) st :=
  leads_of fun k => ⟨k, by simp [feedChars, advance, onExpectSep, pop]⟩

theorem leads_closeObject (st : List Bracket) :
    Leads .expectSep (.object :: st) ['}'] (valueEnd st) st :=
  leads_of fun k => ⟨k, by simp [feedChars, advance, onExpectSep, pop]⟩

theorem leads_colon (st : List Bracket) : Leads .expectColon st [':'] .expectValue st :=
  leads_of fun k => ⟨false, by simp [feedChars, advance, onExpectColon]⟩

theorem leads_commaArray (st : List Bracket) :
    Leads .expectSep (.array :: st) [','] .expectValue (.array :: st) :=
  leads_of fun k => ⟨false, by simp [feedChars, advance, onExpectSep]⟩

theorem leads_commaObject (st : List Bracket) :
    Leads .expectSep (.object :: st) [','] .expectKey (.object :: st) :=
  leads_of fun k => ⟨true, by simp [feedChars, advance, onExpectSep]⟩

theorem leads_literal {w : List Char} (h : w ∈ literals) :
    Leads .expectValue st w (valueEnd st) st := by
  refine leads_of fun k => ⟨k, ?_⟩
  simp only [literals, mem_cons, not_mem_nil, or_false] at h
  rcases h with rfl | rfl | rfl <;>
    simp [feedChars, advance, onExpectValue, onLiteral, isAsciiDigit]

/-- What `expectSep` takes as the rest of a number. -/
def IsNumChar (c : Char) : Prop := IsDigit c ∨ c = '.' ∨ c = 'e' ∨ c = 'E' ∨ c = '+' ∨ c = '-'

theorem isDigit_ne {c d : Char} (h : IsDigit c) (hd : ¬ IsDigit d) : c ≠ d := by
  rintro rfl
  exact hd h

theorem leads_numChar {c : Char} (h : IsNumChar c) : Leads .expectSep st [c] .expectSep st := by
  refine leads_of fun k => ⟨k, ?_⟩
  rcases h with h | h
  · have hd := (isAsciiDigit_iff c).mpr h
    have h1 := isDigit_ne h (by decide : ¬ IsDigit ',')
    have h2 := isDigit_ne h (by decide : ¬ IsDigit '}')
    have h3 := isDigit_ne h (by decide : ¬ IsDigit ']')
    simp [feedChars, advance, onExpectSep, hd, h1, h2, h3]
  · rcases h with rfl | rfl | rfl | rfl | rfl <;>
      simp [feedChars, advance, onExpectSep, isAsciiDigit]

theorem leads_numChars : ∀ {w : List Char}, (∀ c ∈ w, IsNumChar c) →
    Leads .expectSep st w .expectSep st
  | [], _ => .nil
  | c :: w, h => by
    obtain ⟨hc, hw⟩ := forall_mem_cons.mp h
    exact (leads_numChar hc).cons (leads_numChars hw)

theorem leads_firstDigit {c : Char} (h : IsDigit c) :
    Leads .expectValue st [c] .expectSep st := by
  refine leads_of fun k => ⟨k, ?_⟩
  have hd := (isAsciiDigit_iff c).mpr h
  have h1 := isDigit_ne h (by decide : ¬ IsDigit '{')
  have h2 := isDigit_ne h (by decide : ¬ IsDigit '[')
  have h3 := isDigit_ne h (by decide : ¬ IsDigit '"')
  have h4 := isDigit_ne h (by decide : ¬ IsDigit '}')
  have h5 := isDigit_ne h (by decide : ¬ IsDigit ']')
  have h6 := isDigit_ne h (by decide : ¬ IsDigit '-')
  simp [feedChars, advance, onExpectValue, hd, h1, h2, h3, h4, h5, h6]

theorem leads_minus {c : Char} (h : IsDigit c) :
    Leads .expectValue st ['-', c] .expectSep st := by
  refine leads_of fun k => ⟨k, ?_⟩
  have hd := (isAsciiDigit_iff c).mpr h
  simp [feedChars, advance, onExpectValue, onNumStart, hd]

theorem int_cases {i : List Char} (h : Int i) :
    ∃ d ds, i = d :: ds ∧ IsDigit d ∧ ∀ c ∈ ds, IsDigit c := by
  rcases h with rfl | ⟨⟨hne, hall⟩, -⟩
  · exact ⟨'0', [], rfl, by decide, by simp⟩
  · rcases i with _ | ⟨d, ds⟩
    · exact absurd rfl hne
    · obtain ⟨hd, hds⟩ := List.forall_mem_cons.mp hall
      exact ⟨d, ds, rfl, hd, hds⟩

theorem frac_numChars {f : List Char} (h : Frac f) : ∀ c ∈ f, IsNumChar c := by
  rcases h with rfl | ⟨ds, rfl, hds⟩
  · simp
  · exact List.forall_mem_cons.mpr ⟨.inr (.inl rfl), fun c hc => .inl (hds.2 c hc)⟩

theorem exp_numChars {e : List Char} (h : Exp e) : ∀ c ∈ e, IsNumChar c := by
  rcases h with rfl | ⟨e, sign, ds, rfl, he, hsign, hds⟩
  · simp
  · refine List.forall_mem_cons.mpr ⟨?_, List.forall_mem_append.mpr ⟨?_, ?_⟩⟩
    · simp only [List.mem_cons, List.not_mem_nil, or_false] at he
      rcases he with rfl | rfl <;> simp [IsNumChar]
    · rcases hsign with rfl | rfl | rfl <;> simp [IsNumChar]
    · exact fun c hc => .inl (hds.2 c hc)

theorem leads_number {w : List Char} (h : Number w) : Leads .expectValue st w .expectSep st := by
  obtain ⟨m, i, f, e, rfl, hm, hi, hf, he⟩ := h
  obtain ⟨d, ds, rfl, hd, hds⟩ := int_cases hi
  have hrest : Leads .expectSep st (ds ++ f ++ e) .expectSep st := by
    refine leads_numChars ?_
    simp only [List.forall_mem_append]
    exact ⟨⟨fun c hc => .inl (hds c hc), frac_numChars hf⟩, exp_numChars he⟩
  rcases hm with rfl | rfl
  · simpa using (leads_firstDigit hd).append hrest
  · simpa using (leads_minus hd).append hrest

theorem leads_chars {cs : List Char} (hm : m = .stringKey ∨ m = .stringValue) (h : Chars cs)
    (hc : ∀ c ∈ cs, ¬ IsHighControl c) : Leads m st cs m st := by
  induction h with
  | nil => exact .nil
  | @plain c cs hu _ ih =>
    obtain ⟨hc, hcs⟩ := List.forall_mem_cons.mp hc
    have hctl := isControl_of_unescaped hu hc
    refine Leads.cons (leads_of fun k => ⟨k, ?_⟩) (ih hcs)
    rcases hm with rfl | rfl <;> simp [feedChars, advance, onString, hu.2.1, hu.2.2, hctl]
  | @escape c cs he _ ih =>
    have hcs : ∀ d ∈ cs, ¬ IsHighControl d := fun d hd => hc d (by simp [hd])
    have htwo : Leads m st ['\\', c] m st := by
      refine leads_of fun k => ⟨k, ?_⟩
      have he' : c ∈ ['"', '\\', '/', 'b', 'f', 'n', 'r', 't'] := he
      rcases hm with rfl | rfl <;> simp only [feedChars, advance, onString, he'] <;> simp
    exact htwo.append (ih hcs)
  | @unicode a b c d cs ha hb hc' hd _ ih =>
    have hcs : ∀ d ∈ cs, ¬ IsHighControl d := fun d hd => hc d (by simp [hd])
    have hsix : Leads m st ['\\', 'u', a, b, c, d] m st := by
      refine leads_of fun k => ⟨k, ?_⟩
      rw [← isAsciiHexdigit_iff] at ha hb hc' hd
      rcases hm with rfl | rfl <;> simp [feedChars, advance, onString, ha, hb, hc', hd]
    exact hsix.append (ih hcs)

theorem leads_quote (st : List Bracket) {d : Char} (hm : m = .stringKey ∨ m = .stringValue)
    (hd : d = '"') :
    Leads m st [d] (if m = .stringKey then .expectColon else valueEnd st) st := by
  subst hd
  rcases hm with rfl | rfl <;> exact leads_of fun k => ⟨k, by simp [feedChars, advance, onString]⟩

theorem leads_key {k : List Char} (h : Str k) (hc : ∀ c ∈ k, ¬ IsHighControl c) :
    Leads .expectKey st k .expectColon st := by
  obtain ⟨cs, hcs, rfl⟩ := h
  have hopen : Leads .expectKey st ['"'] .stringKey st :=
    leads_of fun k => ⟨true, by simp [feedChars, advance, onExpectKey]⟩
  have hbody : Leads .stringKey st cs .stringKey st :=
    leads_chars (.inl rfl) hcs fun c h => hc c (by simp [h])
  exact hopen.cons (hbody.append (leads_quote st (.inl rfl) rfl))

theorem leads_string {k : List Char} (h : Str k) (hc : ∀ c ∈ k, ¬ IsHighControl c) :
    Leads .expectValue st k (valueEnd st) st := by
  obtain ⟨cs, hcs, rfl⟩ := h
  have hopen : Leads .expectValue st ['"'] .stringValue st :=
    leads_of fun k => ⟨false, by simp [feedChars, advance, onExpectValue]⟩
  have hbody : Leads .stringValue st cs .stringValue st :=
    leads_chars (.inr rfl) hcs fun c h => hc c (by simp [h])
  exact hopen.cons (hbody.append (leads_quote st (.inr rfl) rfl))

/-- What the automaton does on a derived piece: a value leads to the end of a value, and the
insides of an array or object to the separator behind their last value. -/
def Reads : Symbol → List Char → Prop
  | .value, v => ∀ st, Leads .expectValue st v .expectSep st
      ∨ Leads .expectValue st v (valueEnd st) st
  | .elements, es => ∀ st, Leads .expectValue (.array :: st) es .expectSep (.array :: st)
  | .members, ms => ∀ st, Leads .expectKey (.object :: st) ms .expectSep (.object :: st)

theorem Reads.inner {v : List Char} (h : Reads .value v) (b : Bracket) (st : List Bracket) :
    Leads .expectValue (b :: st) v .expectSep (b :: st) := by
  rcases h (b :: st) with h | h
  · exact h
  · exact h

theorem reads_derives {σ : Symbol} {v : List Char} (h : Derives σ v)
    (hc : ∀ c ∈ v, ¬ IsHighControl c) : Reads σ v := by
  have hsep : Skips .expectSep := by simp [Skips]
  have hval : Skips .expectValue := by simp [Skips]
  have hkey : Skips .expectKey := by simp [Skips]
  have hcol : Skips .expectColon := by simp [Skips]
  induction h with
  | literal hw => exact fun st => .inr (leads_literal hw)
  | number hw => exact fun st => .inl (leads_number hw)
  | string hk => exact fun st => .inr (leads_string hk hc)
  | emptyArray hb he =>
    intro st
    have hopen := leads_structural hval hval (leads_openArray st) hb
    exact .inr (hopen.append (leads_structural hval (skips_valueEnd st) (leads_emptyArray st) he))
  | array hb _ he ih =>
    intro st
    simp only [List.forall_mem_append] at hc
    have hopen := leads_structural hval hval (leads_openArray st) hb
    have hclose := leads_structural hsep (skips_valueEnd st) (leads_closeArray st) he
    exact .inr ((hopen.append (ih hc.1.2 st)).append hclose)
  | emptyObject hb he =>
    intro st
    have hopen := leads_structural hval hkey (leads_openObject st) hb
    exact .inr (hopen.append (leads_structural hkey (skips_valueEnd st) (leads_emptyObject st) he))
  | object hb _ he ih =>
    intro st
    simp only [List.forall_mem_append] at hc
    have hopen := leads_structural hval hkey (leads_openObject st) hb
    have hclose := leads_structural hsep (skips_valueEnd st) (leads_closeObject st) he
    exact .inr ((hopen.append (ih hc.1.2 st)).append hclose)
  | element _ ih => exact fun st => (ih hc).inner .array st
  | elements _ hp _ ihv ihs =>
    intro st
    simp only [List.forall_mem_append] at hc
    have hcomma := leads_structural hsep hval (leads_commaArray st) hp
    exact (((ihv hc.1.1).inner .array st).append hcomma).append (ihs hc.2 st)
  | member hk hp _ ih =>
    intro st
    simp only [List.forall_mem_append] at hc
    have hcolon := leads_structural hcol hval (leads_colon (.object :: st)) hp
    exact ((leads_key hk hc.1.1).append hcolon).append ((ih hc.2).inner .object st)
  | members hk hp _ hp' _ ihv ihs =>
    intro st
    simp only [List.forall_mem_append] at hc
    have hcolon := leads_structural hcol hval (leads_colon (.object :: st)) hp
    have hcomma := leads_structural hsep hkey (leads_commaObject st) hp'
    have hmember := ((leads_key hk hc.1.1.1.1).append hcolon).append
      ((ihv hc.1.1.2).inner .object st)
    exact (hmember.append hcomma).append (ihs hc.2 st)

theorem accepts_text {s : List Char} (h : Text s) (hc : ∀ c ∈ s, ¬ IsHighControl c) :
    Accepts default s := by
  obtain ⟨w, v, w', hw, hv, hw', rfl⟩ := h
  simp only [List.forall_mem_append] at hc
  have hlead : Leads .expectValue [] w .expectValue [] := leads_ws (by simp [Skips]) hw
  rcases reads_derives hv hc.1.2 [] with hv | hv
  · have htail : Leads .expectSep [] w' .expectSep [] := leads_ws (by simp [Skips]) hw'
    obtain ⟨s', hrun, hat⟩ := ((hlead.append hv).append htail) default at_default
    exact ⟨s', hrun, by simp [atRoot, hat.stack, hat.mode]⟩
  · have htail : Leads .done [] w' .done [] := leads_ws (by simp [Skips]) hw'
    obtain ⟨s', hrun, hat⟩ := ((hlead.append hv).append htail) default at_default
    exact ⟨s', hrun, by simp [atRoot, hat.stack, hat.mode]⟩

theorem highControl_ne {c d : Char} (h : IsHighControl c) (hd : d.val < 0x7f) : c ≠ d := by
  rintro rfl
  exact absurd h.1 (by simpa using hd)

theorem highControl_not_word {c : Char} (h : IsHighControl c) :
    isAsciiDigit c = false ∧ isAsciiHexdigit c = false ∧ isSpace c = false
      ∧ isControl c = true := by
  have hle : ∀ d : Char, d.val < 0x7f → ¬ c ≤ d := fun d hd hcd => by
    have h1 := h.1
    simp only [Char.le_def, UInt32.le_iff_toNat_le, UInt32.lt_iff_toNat_lt] at hcd hd h1
    omega
  have h9 := hle '9' (by decide)
  have hf := hle 'f' (by decide)
  have hF := hle 'F' (by decide)
  refine ⟨by simp [isAsciiDigit, h9], by simp [isAsciiHexdigit, isAsciiDigit, h9, hf, hF], ?_, ?_⟩
  · simp [isSpace, highControl_ne h]
  · simp [isControl, h.1, h.2]

theorem onLiteral_highControl (s : JsonState) {name : List Char} (lit : ℕ → Mode) (n : ℕ) {c : Char}
    (h : IsHighControl c) (hname : name.all (fun d => decide (d.val < 0x7f)) = true) :
    (s.onLiteral name lit n c).2 = false := by
  have hne : name[n]? ≠ some c := by
    intro hn
    have hlow := List.all_eq_true.mp hname c (List.mem_of_getElem? hn)
    exact highControl_ne h (of_decide_eq_true hlow) rfl
  simp [onLiteral, hne]

theorem advance_highControl (s : JsonState) {c : Char} (h : IsHighControl c) :
    (s.advance c).2 = false := by
  obtain ⟨hdigit, hhex, hspace, hctl⟩ := highControl_not_word h
  have hne : ∀ d : Char, d.val < 0x7f → c ≠ d := fun d hd => highControl_ne h hd
  rcases s with ⟨st, m, e, k, n⟩
  by_cases hn : 0 < n
  · simp [advance, hn, hhex]
  · cases m <;> simp [advance, hn, onExpectValue, onExpectKey, onExpectColon, onExpectSep, onString,
      onNumStart, onNumber, hdigit, hspace, hctl, hne]
    all_goals exact onLiteral_highControl _ _ _ h (by decide)

theorem Runs.not_highControl : ∀ {cs : List Char} {s s' : JsonState}, Runs s cs s' →
    ∀ c ∈ cs, ¬ IsHighControl c
  | [], _, _, _ => by simp
  | c :: cs, s, s', h => by
    rw [runs_cons] at h
    refine List.forall_mem_cons.mpr ⟨fun hc => ?_, h.2.not_highControl⟩
    rw [advance_highControl s hc] at h
    exact absurd h.1 (by simp)

/-- A JSON text is accepted exactly when no high control character is in it. -/
theorem text_accepted_iff (text : String) (h : Text text.toList) :
    ((checkToken default text).valid ∧ (checkToken default text).rootDone)
      ↔ ∀ c ∈ text.toList, ¬ IsHighControl c := by
  rw [← accepts_iff]
  refine ⟨fun ⟨s', hrun, _⟩ => hrun.not_highControl, accepts_text h⟩

theorem text_accepted_iff_string :
    ((checkToken default "\"é\"").valid ∧ (checkToken default "\"é\"").rootDone)
      ↔ ∀ c ∈ "\"é\"".toList, ¬ IsHighControl c :=
  text_accepted_iff "\"é\"" <| by
    refine ⟨[], "\"é\"".toList, [], .nil, .string ⟨['é'], ?_, rfl⟩, .nil, rfl⟩
    exact .plain (by decide) .nil

/-- U+007F may stand in a string, but the automaton refuses it. -/
theorem delete_refused :
    ¬ ∀ text : String, Text text.toList →
      (checkToken default text).valid ∧ (checkToken default text).rootDone := by
  intro h
  have htext : Text "\"\x7f\"".toList := by
    refine ⟨[], "\"\x7f\"".toList, [], .nil, .string ⟨['\x7f'], ?_, rfl⟩, .nil, rfl⟩
    exact .plain (by decide) .nil
  have hvalid : (checkToken default "\"\x7f\"").valid = true := (h _ htext).1
  exact absurd hvalid (by decide)

end JsonState

end Grim.Constrain
