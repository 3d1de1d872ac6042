import Grim.Constrain.Complete
import Grim.Lib.Json.Tokens

/-!
# What the automaton accepts is a JSON text exactly when it is tidy

After a comma or a colon the automaton still takes a closing bracket, and after any value the
characters of a number.  A tidy text gives it no such chance, and every value it then reads is
derived by the grammar (`ReadsValues`, by induction on the length of the text).
-/

namespace Grim.Constrain

open Json List

namespace JsonState

variable {s : JsonState} {m : Mode} {st : List Bracket} {c : Char} {cs : List Char}

@[simp] theorem accepts_nil : Accepts s [] ↔ s.atRoot = true := by simp [Accepts]

theorem accepts_cons :
    Accepts s (c :: cs) ↔ (s.advance c).2 = true ∧ Accepts (s.advance c).1 cs := by
  simp only [Accepts, runs_cons]
  constructor
  · rintro ⟨s', ⟨h, hrun⟩, hroot⟩
    exact ⟨h, s', hrun, hroot⟩
  · rintro ⟨h, s', hrun, hroot⟩
    exact ⟨s', ⟨h, hrun⟩, hroot⟩

theorem isWord_of_letter (h : c ∈ ['-', 't', 'f', 'n', '.', 'e', 'E', '+']) : IsWord c := by
  simp only [mem_cons, not_mem_nil, or_false] at h
  rcases h with rfl | rfl | rfl | rfl | rfl | rfl | rfl | rfl <;> decide

theorem onExpectValue_takes (h : (s.onExpectValue c).2 = true) :
    IsWs c ∨ IsWord c ∨ c = '{' ∨ c = '[' ∨ c = '"' ∨ (c = '}' ∧ s.stack.head? = some .object)
      ∨ (c = ']' ∧ s.stack.head? = some .array) := by
  by_cases h1 : c = '{'
  · exact .inr (.inr (.inl h1))
  by_cases h2 : c = '['
  · exact .inr (.inr (.inr (.inl h2)))
  by_cases h3 : c = '"'
  · exact .inr (.inr (.inr (.inr (.inl h3))))
  by_cases h4 : c = '}' ∧ s.stack.head? = some .object
  · exact .inr (.inr (.inr (.inr (.inr (.inl h4)))))
  by_cases h5 : c = ']' ∧ s.stack.head? = some .array
  · exact .inr (.inr (.inr (.inr (.inr (.inr h5)))))
  by_cases h6 : c = '-'
  · exact .inr (.inl (isWord_of_letter (by simp [h6])))
  by_cases h7 : isAsciiDigit c
  · exact .inr (.inl (isWord_of_isDigit ((isAsciiDigit_iff c).mp h7)))
  by_cases h8 : c = 't'
  · exact .inr (.inl (isWord_of_letter (by simp [h8])))
  by_cases h9 : c = 'f'
  · exact .inr (.inl (isWord_of_letter (by simp [h9])))
  by_cases h10 : c = 'n'
  · exact .inr (.inl (isWord_of_letter (by simp [h10])))
  rw [onExpectValue, if_neg h1, if_neg h2, if_neg h3, if_neg h4, if_neg h5, if_neg h6, if_neg h7,
    if_neg h8, if_neg h9, if_neg h10] at h
  exact .inl ((isSpace_iff c).mp h)

theorem onExpectKey_takes (h : (s.onExpectKey c).2 = true) : IsWs c ∨ c = '}' ∨ c = '"' := by
  unfold onExpectKey at h
  split_ifs at h with h1 h2
  · exact .inr (.inl h1.1)
  · exact .inr (.inr h2)
  · exact .inl ((isSpace_iff c).mp h)

theorem onExpectColon_takes (h : (s.onExpectColon c).2 = true) : IsWs c ∨ c = ':' := by
  unfold onExpectColon at h
  split_ifs at h with h1
  · exact .inr h1
  · exact .inl ((isSpace_iff c).mp h)

theorem onExpectSep_takes (h : (s.onExpectSep c).2 = true) :
    IsWs c ∨ IsWord c ∨ (c = ',' ∧ s.stack ≠ [])
      ∨ (c = '}' ∧ (s.stack = [] ∨ s.stack.head? = some .object))
      ∨ (c = ']' ∧ s.stack.head? = some .array) := by
  unfold onExpectSep at h
  split_ifs at h with h1 h2 h3 h4 h5 h6 h7 h8
  · refine .inr (.inr (.inl ⟨h1, fun hst => ?_⟩))
    simp [hst] at h
  · exact .inr (.inr (.inr (.inl ⟨h2, .inr h3⟩)))
  · exact .inr (.inr (.inr (.inl ⟨h2, .inl (by simpa using h4)⟩)))
  · exact .inr (.inr (.inr (.inr h5)))
  · exact .inr (.inl (isWord_of_isDigit ((isAsciiDigit_iff c).mp h6)))
  · exact .inr (.inl (isWord_of_letter (by simp [h7])))
  · exact .inr (.inl (isWord_of_letter (by rcases h8 with rfl | rfl | rfl | rfl <;> simp)))
  · exact .inl ((isSpace_iff c).mp h)

theorem Accepts.split (h : Accepts s cs) (hs : At s m st) (hm : Skips m) :
    (Ws cs ∧ ∃ s', At s' m st ∧ s'.atRoot) ∨
      ∃ w c r s', cs = w ++ c :: r ∧ Ws w ∧ ¬ IsWs c ∧ At s' m st ∧ Accepts s' (c :: r) := by
  rcases split_first cs with hw | ⟨w, c, r, rfl, hw, hc⟩
  · rw [← List.append_nil cs] at h
    obtain ⟨s', hs', ha⟩ := (leads_ws hm hw).accepts hs h
    exact .inl ⟨hw, s', hs', accepts_nil.mp ha⟩
  · obtain ⟨s', hs', ha⟩ := (leads_ws hm hw).accepts hs h
    exact .inr ⟨w, c, r, s', rfl, hw, hc, hs', ha⟩

theorem At.atRoot (h : At s m st) (hroot : s.atRoot) : st = [] ∧ (m = .done ∨ m = .expectSep) := by
  simp only [JsonState.atRoot, isDone, h.stack, h.mode, Bool.and_eq_true, Bool.or_eq_true,
    List.isEmpty_iff, decide_eq_true_eq] at hroot
  tauto

theorem Accepts.hex {k : Bool} {n : ℕ} (hm : m = .stringKey ∨ m = .stringValue)
    (h : Accepts ⟨st, m, false, k, n + 1⟩ cs) :
    ∃ a r, cs = a :: r ∧ IsHex a ∧ Accepts ⟨st, m, false, k, n⟩ r := by
  rcases cs with _ | ⟨a, r⟩
  · rw [accepts_nil] at h
    rcases hm with rfl | rfl <;> simp [JsonState.atRoot, isDone] at h
  · rw [accepts_cons] at h
    by_cases ha : isAsciiHexdigit a
    · refine ⟨a, r, rfl, (isAsciiHexdigit_iff a).mp ha, ?_⟩
      simpa [advance, ha] using h.2
    · simp [advance, ha] at h

theorem Accepts.escape {k : Bool} (hm : m = .stringKey ∨ m = .stringValue)
    (h : Accepts ⟨st, m, true, k, 0⟩ cs) :
    ∃ c r, cs = c :: r ∧ ((c ∈ escapes ∧ Accepts ⟨st, m, false, k, 0⟩ r)
      ∨ (c = 'u' ∧ Accepts ⟨st, m, false, k, 4⟩ r)) := by
  rcases cs with _ | ⟨c, r⟩
  · rw [accepts_nil] at h
    rcases hm with rfl | rfl <;> simp [JsonState.atRoot, isDone] at h
  · rw [accepts_cons] at h
    have hstep : advance ⟨st, m, true, k, 0⟩ c = onString ⟨st, m, true, k, 0⟩ c := by
      rcases hm with rfl | rfl <;> simp [advance]
    refine ⟨c, r, rfl, ?_⟩
    rw [hstep] at h
    by_cases hc : c ∈ escapes
    · have hc' : c ∈ ['"', '\\', '/', 'b', 'f', 'n', 'r', 't'] := hc
      simp only [onString, hc', if_true] at h
      exact .inl ⟨hc, h.2⟩
    · have hc' : c ∉ ['"', '\\', '/', 'b', 'f', 'n', 'r', 't'] := hc
      by_cases hu : c = 'u'
      · simp only [onString, hu, if_true] at h
        exact .inr ⟨hu, by simpa using h.2⟩
      · simp only [onString, hc', hu, if_true, if_false] at h
        exact absurd h.1 (by simp)

theorem unescaped_of_not_control (h : isControl c = false) (h1 : c ≠ '"') (h2 : c ≠ '\\') :
    Unescaped c := by
  refine ⟨?_, h1, h2⟩
  simp only [isControl, Bool.or_eq_false_iff, decide_eq_false_iff_not] at h
  have := h.1
  simp only [Char.le_def]
  simpa using this

theorem Accepts.chars (hm : m = .stringKey ∨ m = .stringValue) :
    ∀ {cs : List Char} {s : JsonState}, Accepts s cs → At s m st →
      ∃ body r s', cs = body ++ '"' :: r ∧ Chars body
        ∧ At s' (if m = .stringKey then .expectColon else valueEnd st) st ∧ Accepts s' r
  | [], s, h, hs => by
    have := hs.atRoot (accepts_nil.mp h)
    rcases hm with rfl | rfl <;> simp at this
  | c :: cs, s, h, hs => by
    have hstep : s.advance c = s.onString c := by
      rcases hm with rfl | rfl <;> simp [advance, hs.mode, hs.hexRemaining]
    by_cases hq : c = '"'
    · subst hq
      obtain ⟨s', hs', ha⟩ := (leads_quote st hm rfl).accepts hs h
      exact ⟨[], cs, s', rfl, .nil, hs', ha⟩
    by_cases hb : c = '\\'
    · have h' : Accepts ⟨st, m, true, s.isKey, 0⟩ cs := by
        rw [accepts_cons, hstep, hs.eq, hb] at h
        simpa [onString] using h.2
      obtain ⟨d, r, rfl, ⟨hd, hr⟩ | ⟨rfl, hr⟩⟩ := h'.escape hm
      · obtain ⟨body, r', s', rfl, hbody, hat, ha⟩ := hr.chars hm ⟨rfl, rfl, rfl, rfl⟩
        exact ⟨c :: d :: body, r', s', rfl, hb ▸ .escape hd hbody, hat, ha⟩
      · obtain ⟨x₁, r, rfl, h₁, hr⟩ := hr.hex hm
        obtain ⟨x₂, r, rfl, h₂, hr⟩ := hr.hex hm
        obtain ⟨x₃, r, rfl, h₃, hr⟩ := hr.hex hm
        obtain ⟨x₄, r, rfl, h₄, hr⟩ := hr.hex hm
        obtain ⟨body, r', s', rfl, hbody, hat, ha⟩ := hr.chars hm ⟨rfl, rfl, rfl, rfl⟩
        exact ⟨c :: 'u' :: x₁ :: x₂ :: x₃ :: x₄ :: body, r', s', rfl,
          hb ▸ .unicode h₁ h₂ h₃ h₄ hbody, hat, ha⟩
    · have hctl : isControl c = false := by
        rw [accepts_cons, hstep] at h
        simpa [onString, hs.escaped, hq, hb] using h.1
      have hu := unescaped_of_not_control hctl hq hb
      have hs' : At (s.advance c).1 m st := by
        rw [hstep]
        simpa [onString, hs.escaped, hq, hb] using hs
      rw [accepts_cons] at h
      obtain ⟨body, r, s', rfl, hbody, hat, ha⟩ := h.2.chars hm hs'
      exact ⟨c :: body, r, s', rfl, .plain hu hbody, hat, ha⟩
termination_by cs => cs.length

structure Behind (s : JsonState) (r : List Char) : Prop where
  accepts : Accepts s r
  neat : Neat (tokens r)
  noWord : NoWord r

/-- The state behind the value `v`; at the root a number does not end the document. -/
def Ended (s : JsonState) (st : List Bracket) (v : List Char) : Prop :=
  At s (valueEnd st) st ∨ (At s .expectSep st ∧ Number v)

/-- Of a text shorter than `n`, a value is read from its front. -/
def ReadsValues (n : ℕ) : Prop :=
  ∀ (cs : List Char) (s : JsonState) (st : List Bracket), cs.length < n → At s .expectValue st →
    Accepts s cs → Neat (tokens cs) → (st = [] ∨ NoCloser cs) →
    ∃ w v r s', cs = w ++ v ++ r ∧ Ws w ∧ Derives .value v ∧ r.length < cs.length
      ∧ Ended s' st v ∧ Behind s' r

theorem Ended.inner {b : Bracket} {v : List Char} (h : Ended s (b :: st) v) :
    At s .expectSep (b :: st) := by
  rcases h with h | ⟨h, -⟩
  · exact h
  · exact h

theorem structural_closer {w : List Char} (hw : Ws w) (c : Char) : Structural c (w ++ [c]) :=
  .of_ws hw .nil

theorem Behind.inner {b : Bracket} {r : List Char} (h : Behind s r)
    (hs : At s .expectSep (b :: st)) :
    ∃ w c r' s', r = w ++ c :: r' ∧ Ws w ∧ At s' .expectSep (b :: st) ∧ Accepts s' (c :: r')
      ∧ Neat (tokens (c :: r')) ∧ (c = ',' ∨ (c = '}' ∧ b = .object) ∨ (c = ']' ∧ b = .array)) := by
  rcases h.accepts.split hs (by simp [Skips]) with
    ⟨-, s', hs', hroot⟩ | ⟨w, c, r', s', rfl, hw, hc, hs', ha⟩
  · exact absurd (hs'.atRoot hroot).1 (by simp)
  · have hneat : Neat (tokens (c :: r')) := by
      have := h.neat
      rwa [tokens_ws_append _ hw] at this
    have htake : (s'.onExpectSep c).2 = true := by
      have := (accepts_cons.mp ha).1
      simpa [advance, hs'.mode, hs'.hexRemaining] using this
    refine ⟨w, c, r', s', rfl, hw, hs', ha, hneat, ?_⟩
    rcases onExpectSep_takes htake with hc' | hc' | hc' | hc' | hc'
    · exact absurd hc' hc
    · exact absurd hc' (h.noWord c (by simp [first_append hw hc]))
    · exact .inl hc'.1
    · have := hc'.2
      simp only [hs'.stack, head?_cons, Option.some.injEq] at this
      exact .inr (.inl ⟨hc'.1, by simpa using this⟩)
    · have := hc'.2
      simp only [hs'.stack, head?_cons, Option.some.injEq] at this
      exact .inr (.inr ⟨hc'.1, this⟩)

theorem behind_closer {c : Char} {r : List Char} (hc : c = ']' ∨ c = '}') (h : Accepts s r)
    (hneat : Neat (tokens (c :: r))) : Behind s r := by
  have hmark : IsMark c := by rcases hc with rfl | rfl <;> decide
  rw [tokens_mark r hmark] at hneat
  exact ⟨h, hneat.tail, hneat.noWord (by rcases hc with rfl | rfl <;> rfl)⟩

theorem ReadsValues.elements {n : ℕ} (hv : ReadsValues n) :
    ∀ {cs : List Char} {s : JsonState}, cs.length < n → At s .expectValue (.array :: st) →
      Accepts s cs → Neat (tokens cs) → NoCloser cs →
      ∃ w es e r s', cs = w ++ es ++ e ++ r ∧ Ws w ∧ Derives .elements es ∧ Structural ']' e
        ∧ At s' (valueEnd st) st ∧ Behind s' r := by
  intro cs s hn hs ha hneat hclose
  obtain ⟨w, v, r, s₁, rfl, hw, hval, hlt, hend, hb⟩ := hv cs s _ hn hs ha hneat (.inr hclose)
  obtain ⟨w', c, r', s₂, rfl, hw', hs₂, ha₂, hneat₂, hc⟩ := hb.inner hend.inner
  rcases hc with rfl | ⟨-, hc⟩ | ⟨rfl, -⟩
  · -- a comma: the elements go on
    obtain ⟨s₃, hs₃, ha₃⟩ := (leads_commaArray st).accepts (r := r') hs₂ ha₂
    rw [tokens_mark r' (by decide)] at hneat₂
    have hlen : r'.length < (w ++ v ++ (w' ++ ',' :: r')).length := by
      simp only [length_append, length_cons]
      omega
    obtain ⟨w₂, es, e, r₂, s₄, rfl, hw₂, hes, he, hs₄, hb₄⟩ :=
      hv.elements (hlen.trans hn) hs₃ ha₃ hneat₂.tail (hneat₂.noCloser (by simp))
    refine ⟨w, v ++ (w' ++ ',' :: w₂) ++ es, e, r₂, s₄, by simp, hw, ?_, he, hs₄, hb₄⟩
    exact .elements hval (.of_ws hw' hw₂) hes
  · exact absurd hc (by simp)
  · obtain ⟨s₃, hs₃, ha₃⟩ := (leads_closeArray st).accepts (r := r') hs₂ ha₂
    refine ⟨w, v, w' ++ [']'], r', s₃, by simp, hw, .element hval, structural_closer hw' _, hs₃, ?_⟩
    exact behind_closer (.inl rfl) ha₃ hneat₂
termination_by cs => cs.length

theorem Accepts.member {cs : List Char} (h : Accepts s cs) (hs : At s .expectKey st)
    (hneat : Neat (tokens cs)) (hclose : NoCloser cs) :
    ∃ w k p r s', cs = w ++ k ++ p ++ r ∧ Ws w ∧ Str k ∧ Structural ':' p
      ∧ At s' .expectValue st ∧ Accepts s' r ∧ Neat (tokens r) ∧ NoCloser r := by
  rcases h.split hs (by simp [Skips]) with
    ⟨-, s', hs', hroot⟩ | ⟨w, c, r, s₁, rfl, hw, hc, hs₁, ha₁⟩
  · exact absurd (hs'.atRoot hroot).2 (by simp)
  have htake : (s₁.onExpectKey c).2 = true := by
    have := (accepts_cons.mp ha₁).1
    simpa [advance, hs₁.mode, hs₁.hexRemaining] using this
  rcases onExpectKey_takes htake with hc' | rfl | rfl
  · exact absurd hc' hc
  · exact absurd rfl (hclose '}' (by simp [first_append hw hc])).2
  have hquote : Leads .expectKey st ['"'] .stringKey st :=
    leads_of fun k => ⟨true, by simp [feedChars, advance, onExpectKey]⟩
  obtain ⟨s₂, hs₂, ha₂⟩ := hquote.accepts (r := r) hs₁ ha₁
  obtain ⟨body, r₃, s₃, rfl, hbody, hs₃, ha₃⟩ := ha₂.chars (.inl rfl) hs₂
  have hkey : Str ('"' :: (body ++ ['"'])) := ⟨body, hbody, rfl⟩
  rcases ha₃.split hs₃ (by simp [Skips]) with
    ⟨-, s', hs', hroot⟩ | ⟨w', c, r₄, s₄, rfl, hw', hc', hs₄, ha₄⟩
  · exact absurd (hs'.atRoot hroot).2 (by simp)
  have htake₄ : (s₄.onExpectColon c).2 = true := by
    have := (accepts_cons.mp ha₄).1
    simpa [advance, hs₄.mode, hs₄.hexRemaining] using this
  rcases onExpectColon_takes htake₄ with hc | rfl
  · exact absurd hc hc'
  obtain ⟨s₅, hs₅, ha₅⟩ := (leads_colon st).accepts (r := r₄) hs₄ ha₄
  have hneat₄ : Neat (.mark ':' :: tokens r₄) := by
    have heq : w ++ '"' :: (body ++ '"' :: (w' ++ ':' :: r₄))
        = w ++ ('"' :: (body ++ ['"']) ++ (w' ++ ':' :: r₄)) := by simp
    rw [heq, tokens_ws_append _ hw, tokens_str _ hkey, tokens_ws_append _ hw',
      tokens_mark r₄ (by decide)] at hneat
    exact hneat.tail
  refine ⟨w, _, w' ++ [':'], r₄, s₅, by simp, hw, hkey, .of_ws hw' .nil, hs₅, ha₅, hneat₄.tail, ?_⟩
  exact hneat₄.noCloser (by simp)

theorem ReadsValues.members {n : ℕ} (hv : ReadsValues n) :
    ∀ {cs : List Char} {s : JsonState}, cs.length ≤ n → At s .expectKey (.object :: st) →
      Accepts s cs → Neat (tokens cs) → NoCloser cs →
      ∃ w ms e r s', cs = w ++ ms ++ e ++ r ∧ Ws w ∧ Derives .members ms ∧ Structural '}' e
        ∧ At s' (valueEnd st) st ∧ Behind s' r := by
  intro cs s hn hs ha hneat hclose
  obtain ⟨w, k, p, r₁, s₁, rfl, hw, hk, hp, hs₁, ha₁, hneat₁, hclose₁⟩ := ha.member hs hneat hclose
  obtain ⟨k', rfl⟩ := hk.cons_append
  have hlen : r₁.length < (w ++ '"' :: k' ++ p ++ r₁).length := by
    simp only [length_append, length_cons]
    omega
  obtain ⟨w₁, v, r, s₂, rfl, hw₁, hval, hlt, hend, hb⟩ :=
    hv r₁ s₁ _ (hlen.trans_le hn) hs₁ ha₁ hneat₁ (.inr hclose₁)
  obtain ⟨w', c, r', s₃, rfl, hw', hs₃, ha₃, hneat₃, hc⟩ := hb.inner hend.inner
  have hp' : Structural ':' (p ++ w₁) := by
    obtain ⟨a, b, ha', hb', rfl⟩ := hp
    refine ⟨a, b ++ w₁, ha', ?_, by simp⟩
    exact forall_mem_append.mpr ⟨hb', hw₁⟩
  rcases hc with rfl | ⟨rfl, -⟩ | ⟨-, hc⟩
  · -- a comma: the members go on
    obtain ⟨s₄, hs₄, ha₄⟩ := (leads_commaObject st).accepts (r := r') hs₃ ha₃
    rw [tokens_mark r' (by decide)] at hneat₃
    have hlen' : r'.length < (w ++ '"' :: k' ++ p ++ (w₁ ++ v ++ (w' ++ ',' :: r'))).length := by
      simp only [List.length_append, List.length_cons]
      omega
    obtain ⟨w₂, ms, e, r₂, s₅, rfl, hw₂, hms, he, hs₅, hb₅⟩ :=
      hv.members (hlen'.le.trans hn) hs₄ ha₄ hneat₃.tail (hneat₃.noCloser (by simp))
    refine ⟨w, '"' :: k' ++ (p ++ w₁) ++ v ++ (w' ++ ',' :: w₂) ++ ms, e, r₂, s₅, by simp, hw, ?_,
      he, hs₅, hb₅⟩
    exact .members hk hp' hval (.of_ws hw' hw₂) hms
  · obtain ⟨s₄, hs₄, ha₄⟩ := (leads_closeObject st).accepts (r := r') hs₃ ha₃
    refine ⟨w, '"' :: k' ++ (p ++ w₁) ++ v, w' ++ ['}'], r', s₄, by simp, hw, .member hk hp' hval,
      structural_closer hw' _, hs₄, ?_⟩
    exact behind_closer (.inr rfl) ha₄ hneat₃
  · exact absurd hc (by simp)
termination_by cs => cs.length

theorem ReadsValues.array {n : ℕ} (hv : ReadsValues n) {r : List Char} (hn : r.length < n)
    (hs : At s .expectValue (.array :: st)) (ha : Accepts s r)
    (hneat : Neat (tokens r)) :
    ∃ v r' s', '[' :: r = v ++ r' ∧ Derives .value v ∧ r'.length < r.length
      ∧ At s' (valueEnd st) st ∧ Behind s' r' := by
  have hopen : Structural '[' ['['] := .self _
  rcases ha.split hs (by simp [Skips]) with
    ⟨-, s', hs', hroot⟩ | ⟨u, c, r₁, s₁, rfl, hu, hc, hs₁, ha₁⟩
  · exact absurd (hs'.atRoot hroot).1 (by simp)
  by_cases hclose : c = ']'
  · subst hclose
    obtain ⟨s₂, hs₂, ha₂⟩ := (leads_emptyArray st).accepts (r := r₁) hs₁ ha₁
    rw [tokens_ws_append _ hu] at hneat
    refine ⟨['['] ++ (u ++ [']']), r₁, s₂, by simp, .emptyArray hopen (structural_closer hu _), ?_,
      hs₂, behind_closer (.inl rfl) ha₂ hneat⟩
    simp only [List.length_append, List.length_cons]
    omega
  · have htake : (s₁.onExpectValue c).2 = true := by
      have := (accepts_cons.mp ha₁).1
      simpa [advance, hs₁.mode, hs₁.hexRemaining] using this
    have hbrace : c ≠ '}' := by
      rintro rfl
      rcases onExpectValue_takes htake with h | h | h | h | h | h | h
      · exact hc h
      · exact absurd h (by decide)
      · exact absurd h (by decide)
      · exact absurd h (by decide)
      · exact absurd h (by decide)
      · simp [hs₁.stack] at h
      · exact absurd h.1 (by decide)
    have hno : NoCloser (u ++ c :: r₁) := by
      intro d hd
      obtain rfl : c = d := by simpa [first_append hu hc] using hd
      exact ⟨hclose, hbrace⟩
    obtain ⟨u', es, e, r', s₂, heq, hu', hes, he, hs₂, hb⟩ := hv.elements hn hs ha hneat hno
    refine ⟨('[' :: u') ++ es ++ e, r', s₂, by simp [heq], ?_, ?_, hs₂, hb⟩
    · exact .array (.of_ws .nil hu') hes he
    · obtain ⟨a, b, -, -, rfl⟩ := he
      rw [heq]
      simp only [List.length_append, List.length_cons]
      omega

theorem ReadsValues.object {n : ℕ} (hv : ReadsValues n) {r : List Char} (hn : r.length < n)
    (hs : At s .expectKey (.object :: st)) (ha : Accepts s r)
    (hneat : Neat (tokens r)) :
    ∃ v r' s', '{' :: r = v ++ r' ∧ Derives .value v ∧ r'.length < r.length
      ∧ At s' (valueEnd st) st ∧ Behind s' r' := by
  have hopen : Structural '{' ['{'] := .self _
  rcases ha.split hs (by simp [Skips]) with
    ⟨-, s', hs', hroot⟩ | ⟨u, c, r₁, s₁, rfl, hu, hc, hs₁, ha₁⟩
  · exact absurd (hs'.atRoot hroot).1 (by simp)
  by_cases hclose : c = '}'
  · subst hclose
    obtain ⟨s₂, hs₂, ha₂⟩ := (leads_emptyObject st).accepts (r := r₁) hs₁ ha₁
    rw [tokens_ws_append _ hu] at hneat
    refine ⟨['{'] ++ (u ++ ['}']), r₁, s₂, by simp, .emptyObject hopen (structural_closer hu _), ?_,
      hs₂, behind_closer (.inr rfl) ha₂ hneat⟩
    simp only [List.length_append, List.length_cons]
    omega
  · have htake : (s₁.onExpectKey c).2 = true := by
      have := (accepts_cons.mp ha₁).1
      simpa [advance, hs₁.mode, hs₁.hexRemaining] using this
    have hbracket : c ≠ ']' := by
      rintro rfl
      rcases onExpectKey_takes htake with h | h | h
      · exact hc h
      · exact absurd h (by decide)
      · exact absurd h (by decide)
    have hno : NoCloser (u ++ c :: r₁) := by
      intro d hd
      obtain rfl : c = d := by simpa [first_append hu hc] using hd
      exact ⟨hbracket, hclose⟩
    obtain ⟨u', ms, e, r', s₂, heq, hu', hms, he, hs₂, hb⟩ := hv.members hn.le hs ha hneat hno
    refine ⟨('{' :: u') ++ ms ++ e, r', s₂, by simp [heq], ?_, ?_, hs₂, hb⟩
    · exact .object (.of_ws .nil hu') hms he
    · obtain ⟨a, b, -, -, rfl⟩ := he
      rw [heq]
      simp only [List.length_append, List.length_cons]
      omega

theorem Accepts.word {c : Char} {r : List Char} (h : Accepts s (c :: r)) (hs : At s .expectValue st)
    (hc : IsWord c) (hneat : Neat (tokens (c :: r))) :
    ∃ v r' s', c :: r = v ++ r' ∧ Derives .value v ∧ r'.length < (c :: r).length
      ∧ Ended s' st v ∧ Behind s' r' := by
  rw [tokens_isWord r hc] at hneat
  have heq : c :: r = (c :: r.takeWhile fun d => IsWord d) ++ r.dropWhile fun d => IsWord d := by
    simp
  have hlen : (r.dropWhile fun d => IsWord d).length < (c :: r).length := by
    have := (List.dropWhile_suffix (l := r) fun d => decide (IsWord d)).length_le
    simp only [List.length_cons]
    omega
  have hbehind : ∀ s', Accepts s' (r.dropWhile fun d => IsWord d) →
      Behind s' (r.dropWhile fun d => IsWord d) := fun s' ha =>
    ⟨ha, hneat.tail, hneat.noWord rfl⟩
  rw [heq] at h
  rcases hneat.words _ List.mem_cons_self with hlit | hnum
  · obtain ⟨s', hs', ha⟩ := (leads_literal hlit).accepts hs h
    exact ⟨_, _, s', heq, .literal hlit, hlen, .inl hs', hbehind s' ha⟩
  · obtain ⟨s', hs', ha⟩ := (leads_number hnum).accepts hs h
    exact ⟨_, _, s', heq, .number hnum, hlen, .inr ⟨hs', hnum⟩, hbehind s' ha⟩

/-- One value more deeply nested, or one character further. -/
theorem ReadsValues.succ {n : ℕ} (hv : ReadsValues n) : ReadsValues (n + 1) := by
  intro cs s st hn hs ha hneat hclose
  rcases ha.split hs (by simp [Skips]) with
    ⟨-, s', hs', hroot⟩ | ⟨w, c, r, s₁, rfl, hw, hc, hs₁, ha₁⟩
  · exact absurd (hs'.atRoot hroot).2 (by simp)
  have hfirst : first (w ++ c :: r) = some c := first_append hw hc
  have hlen : (w ++ c :: r).length = w.length + r.length + 1 := by simp; omega
  have htake : (s₁.onExpectValue c).2 = true := by
    have := (accepts_cons.mp ha₁).1
    simpa [advance, hs₁.mode, hs₁.hexRemaining] using this
  rw [tokens_ws_append _ hw] at hneat
  rcases onExpectValue_takes htake with h | h | rfl | rfl | rfl | ⟨rfl, h⟩ | ⟨rfl, h⟩
  · exact absurd h hc
  · obtain ⟨v, r', s', heq, hval, hlt, hend, hb⟩ := ha₁.word hs₁ h hneat
    refine ⟨w, v, r', s', by rw [heq, List.append_assoc], hw, hval, ?_, hend, hb⟩
    simp only [List.length_cons] at hlt
    omega
  · obtain ⟨s₂, hs₂, ha₂⟩ := (leads_openObject st).accepts (r := r) hs₁ ha₁
    rw [tokens_mark r (by decide)] at hneat
    obtain ⟨v, r', s', heq, hval, hlt, hend, hb⟩ := hv.object (by omega) hs₂ ha₂ hneat.tail
    exact ⟨w, v, r', s', by rw [heq, List.append_assoc], hw, hval, by omega, .inl hend, hb⟩
  · obtain ⟨s₂, hs₂, ha₂⟩ := (leads_openArray st).accepts (r := r) hs₁ ha₁
    rw [tokens_mark r (by decide)] at hneat
    obtain ⟨v, r', s', heq, hval, hlt, hend, hb⟩ := hv.array (by omega) hs₂ ha₂ hneat.tail
    exact ⟨w, v, r', s', by rw [heq, List.append_assoc], hw, hval, by omega, .inl hend, hb⟩
  · have hquote : Leads .expectValue st ['"'] .stringValue st :=
      leads_of fun k => ⟨false, by simp [feedChars, advance, onExpectValue]⟩
    obtain ⟨s₂, hs₂, ha₂⟩ := hquote.accepts (r := r) hs₁ ha₁
    obtain ⟨body, r', s', rfl, hbody, hs', ha'⟩ := ha₂.chars (.inr rfl) hs₂
    have hstr : Str ('"' :: (body ++ ['"'])) := ⟨body, hbody, rfl⟩
    have heq : '"' :: (body ++ '"' :: r') = '"' :: (body ++ ['"']) ++ r' := by simp
    rw [heq, tokens_str _ hstr] at hneat
    refine ⟨w, _, r', s', by rw [heq, append_assoc], hw, .string hstr, ?_, .inl hs',
      ha', hneat.tail, hneat.noWord rfl⟩
    simp only [length_append, length_cons]
    omega
  · rcases hclose with rfl | hclose
    · simp [hs₁.stack] at h
    · exact absurd rfl (hclose '}' (by simp [hfirst])).2
  · rcases hclose with rfl | hclose
    · simp [hs₁.stack] at h
    · exact absurd rfl (hclose ']' (by simp [hfirst])).1

theorem readsValues : ∀ n, ReadsValues n
  | 0 => fun _ _ _ h => absurd h (by omega)
  | n + 1 => (readsValues n).succ

theorem Behind.root {w v r : List Char} (h : Behind s r) (hs : Ended s [] v) (hw : Ws w)
    (htidy : Tidy (tokens (w ++ v ++ r))) : Ws r := by
  rcases hs with hs | ⟨hs, hnum⟩
  · rcases h.accepts.split hs (by simp [Skips, valueEnd]) with
      ⟨hr, -⟩ | ⟨u, c, r', s', -, -, hc, hs', ha⟩
    · exact hr
    · have htake : isSpace c = true := by
        have := (accepts_cons.mp ha).1
        simpa [advance, hs'.mode, hs'.hexRemaining, valueEnd] using this
      exact absurd ((isSpace_iff c).mp htake) hc
  · rcases h.accepts.split hs (by simp [Skips]) with
      ⟨hr, -⟩ | ⟨u, c, r', s', rfl, hu, hc, hs', ha⟩
    · exact hr
    have htake : (s'.onExpectSep c).2 = true := by
      have := (accepts_cons.mp ha).1
      simpa [advance, hs'.mode, hs'.hexRemaining] using this
    rcases onExpectSep_takes htake with h' | h' | h' | h' | h'
    · exact absurd h' hc
    · exact absurd h' (h.noWord c (by simp [first_append hu hc]))
    · exact absurd hs'.stack h'.2
    · -- a brace closed behind a number, which `expectSep` takes where nothing is open
      obtain ⟨rfl, -⟩ := h'
      have hbound : Bounded (u ++ '}' :: r') := by
        simpa using (structural_closer hu '}').bounded r' (by decide)
      refine absurd ?_ (htidy.root v (tokens r'))
      rw [append_assoc, tokens_ws_append _ hw,
        tokens_word _ hnum.isWord.1 hnum.isWord.2 hbound, tokens_ws_append _ hu,
        tokens_mark _ (by decide)]
    · simp [hs'.stack] at h'

theorem text_of_accepts {cs : List Char} (h : Accepts default cs) (htidy : Tidy (tokens cs)) :
    Text cs := by
  obtain ⟨w, v, r, s', rfl, hw, hval, -, hend, hb⟩ :=
    readsValues _ cs default [] (Nat.lt_succ_self _) at_default h htidy.toNeat (.inl rfl)
  exact ⟨w, v, r, hw, hval, hb.root hend hw htidy, rfl⟩

/-- An accepted text is a JSON text exactly when its tokens are tidy. -/
theorem accepted_text_iff (text : String)
    (h : (checkToken default text).valid ∧ (checkToken default text).rootDone) :
    Text text.toList ↔ Tidy (tokens text.toList) :=
  ⟨Text.tidy, text_of_accepts ((accepts_iff default text).mpr h)⟩

theorem accepted_text_iff_array : Text "[1, -2.5e3]".toList ↔ Tidy (tokens "[1, -2.5e3]".toList) :=
  accepted_text_iff "[1, -2.5e3]" (by decide)

/-- A comma may be the last thing in an accepted array. -/
theorem trailing_comma_accepted :
    ¬ ∀ text : String, (checkToken default text).valid ∧ (checkToken default text).rootDone →
      Text text.toList := by
  intro h
  have hfits := (h "[1,]" (by decide)).tidy.fits
  exact absurd hfits (by decide)

end JsonState

end Grim.Constrain
