import Grim.Constrain.Sampler

/-!
# What the modes of the automaton mean

In every state reached by accepted characters the mode fits the bracket stack and the string
sub-state (`Sane`), and a refused character leaves the state as it was.  The parity scan of double
quotes follows the same runs: it is in a string exactly when the mode is a string mode.
-/

namespace Grim.Constrain

namespace JsonState

def InKey (m : Mode) : Prop := m = .expectKey ∨ m = .stringKey ∨ m = .expectColon

def InString (m : Mode) : Prop := m = .stringKey ∨ m = .stringValue

instance : DecidablePred InKey := fun _ => inferInstanceAs (Decidable (_ ∨ _ ∨ _))

instance : DecidablePred InString := fun _ => inferInstanceAs (Decidable (_ ∨ _))

/-- The modes `advance` has arms for but never enters. -/
def InNumber (m : Mode) : Prop :=
  m = .numInt ∨ m = .numFrac ∨ m = .numExp ∨ m = .numExpSign ∨ m = .numExpDigits

structure Sane (s : JsonState) : Prop where
  done : s.mode = .done → s.stack = []
  key : InKey s.mode → s.stack.head? = some .object
  escaped : s.escaped = true → InString s.mode
  hex : 0 < s.hexRemaining → InString s.mode ∧ s.escaped = false
  number : ¬ InNumber s.mode

theorem sane_default : Sane default := by
  refine ⟨?_, ?_, ?_, ?_, ?_⟩ <;> simp [default, InKey, InNumber]

variable {s s' : JsonState} {c : Char}

theorem Sane.outside (h : Sane s) (hm : ¬ InString s.mode) :
    s.escaped = false ∧ s.hexRemaining = 0 := by
  refine ⟨?_, ?_⟩
  · by_contra he
    exact hm (h.escaped (by simpa using he))
  · by_contra hx
    exact hm (h.hex (Nat.pos_of_ne_zero hx)).1

theorem sane_of_outside (he : s.escaped = false) (hx : s.hexRemaining = 0)
    (hd : s.mode = .done → s.stack = []) (hk : InKey s.mode → s.stack.head? = some .object)
    (hn : ¬ InNumber s.mode) : Sane s :=
  ⟨hd, hk, by simp [he], by simp [hx], hn⟩

theorem valueEnd_done {stack : List Bracket} (h : valueEnd stack = .done) : stack = [] := by
  unfold valueEnd at h
  split_ifs at h with he
  exact List.isEmpty_iff.mp he

theorem not_inKey_valueEnd (stack : List Bracket) : ¬ InKey (valueEnd stack) := by
  unfold valueEnd
  split_ifs <;> simp [InKey]

theorem not_inNumber_valueEnd (stack : List Bracket) : ¬ InNumber (valueEnd stack) := by
  unfold valueEnd
  split_ifs <;> simp [InNumber]

theorem sane_valueEnd (he : s.escaped = false) (hx : s.hexRemaining = 0)
    (hm : s.mode = valueEnd s.stack) : Sane s := by
  refine sane_of_outside he hx (fun hd => valueEnd_done (hm ▸ hd)) (fun hk => ?_) ?_
  · exact absurd (hm ▸ hk) (not_inKey_valueEnd _)
  · exact hm ▸ not_inNumber_valueEnd _

theorem sane_pop (he : s.escaped = false) (hx : s.hexRemaining = 0) : Sane s.pop :=
  sane_valueEnd he hx rfl

/-- A handler keeps `Sane` in the states it moves to, and stays where it is when it refuses. -/
structure Keeps (s : JsonState) (r : JsonState × Bool) : Prop where
  sane : r.2 = true → Sane r.1
  refused : r.2 = false → r.1 = s

theorem keeps_stay (h : Sane s) (b : Bool) : Keeps s (s, b) := ⟨fun _ => h, fun _ => rfl⟩

theorem keeps_move (h : Sane s') : Keeps s (s', true) := ⟨fun _ => h, by simp⟩

theorem keeps_expectValue (h : Sane s) (hm : s.mode = .expectValue) (c : Char) :
    Keeps s (s.onExpectValue c) := by
  obtain ⟨he, hx⟩ := h.outside (by simp [hm, InString])
  unfold onExpectValue
  split_ifs
  · exact keeps_move (sane_of_outside he hx (by simp) (by simp) (by simp [InNumber]))
  · exact keeps_move (sane_of_outside he hx (by simp) (by simp [InKey]) (by simp [InNumber]))
  · refine keeps_move ⟨by simp, by simp [InKey], by simp, by simp [hx], by simp [InNumber]⟩
  · exact keeps_move (sane_pop he hx)
  · exact keeps_move (sane_pop he hx)
  all_goals
    first
    | exact keeps_stay h _
    | exact keeps_move (sane_of_outside he hx (by simp) (by simp [InKey]) (by simp [InNumber]))

theorem keeps_expectKey (h : Sane s) (hm : s.mode = .expectKey) (c : Char) :
    Keeps s (s.onExpectKey c) := by
  obtain ⟨he, hx⟩ := h.outside (by simp [hm, InString])
  have hk := h.key (.inl hm)
  unfold onExpectKey
  split_ifs
  · exact keeps_move (sane_pop he hx)
  · exact keeps_move ⟨by simp, fun _ => hk, by simp, by simp [hx], by simp [InNumber]⟩
  · exact keeps_stay h _

theorem keeps_expectColon (h : Sane s) (hm : s.mode = .expectColon) (c : Char) :
    Keeps s (s.onExpectColon c) := by
  obtain ⟨he, hx⟩ := h.outside (by simp [hm, InString])
  unfold onExpectColon
  split_ifs
  · exact keeps_move (sane_of_outside he hx (by simp) (by simp [InKey]) (by simp [InNumber]))
  · exact keeps_stay h _

theorem keeps_expectSep (h : Sane s) (hm : s.mode = .expectSep) (c : Char) :
    Keeps s (s.onExpectSep c) := by
  obtain ⟨he, hx⟩ := h.outside (by simp [hm, InString])
  unfold onExpectSep
  split_ifs with _ _ _ hempty
  · split
    · next hobj => exact keeps_move (sane_of_outside he hx (by simp) (fun _ => hobj)
        (by simp [InNumber]))
    · exact keeps_move (sane_of_outside he hx (by simp) (by simp [InKey]) (by simp [InNumber]))
    · exact keeps_stay h _
  · exact keeps_move (sane_pop he hx)
  · exact keeps_move (sane_of_outside he hx (fun _ => List.isEmpty_iff.mp hempty)
      (by simp [InKey]) (by simp [InNumber]))
  · exact keeps_stay h _
  · exact keeps_move (sane_pop he hx)
  all_goals exact keeps_stay h _

theorem keeps_string (h : Sane s) (hm : InString s.mode) (hx : s.hexRemaining = 0) (c : Char) :
    Keeps s (s.onString c) := by
  have hk : s.mode = .stringKey → s.stack.head? = some .object := fun hm => h.key (.inr (.inl hm))
  have hd : s.mode ≠ .done := by rcases hm with hm | hm <;> simp [hm]
  unfold onString
  split_ifs with hesc _ _ _ _ hkey
  · exact keeps_move ⟨h.done, h.key, by simp, by simp [hx], h.number⟩
  · exact keeps_move ⟨h.done, h.key, by simp, fun _ => ⟨hm, rfl⟩, h.number⟩
  · exact keeps_stay h _
  · exact keeps_move ⟨h.done, h.key, fun _ => hm, by simp [hx], h.number⟩
  · exact keeps_move (sane_of_outside (by simpa using hesc) hx (by simp) (fun _ => hk hkey)
      (by simp [InNumber]))
  · exact keeps_move (sane_valueEnd (by simpa using hesc) hx rfl)
  · exact keeps_stay h _

theorem keeps_numStart (h : Sane s) {b : Bool} (hm : s.mode = .numStart b) (c : Char) :
    Keeps s (s.onNumStart c) := by
  obtain ⟨he, hx⟩ := h.outside (by simp [hm, InString])
  unfold onNumStart
  split_ifs
  · exact keeps_move (sane_of_outside he hx (by simp) (by simp [InKey]) (by simp [InNumber]))
  · exact keeps_stay h _

theorem keeps_literal (h : Sane s) (hm : ¬ InString s.mode) {lit : ℕ → Mode}
    (hlit : ∀ n, lit n ≠ .done ∧ ¬ InKey (lit n) ∧ ¬ InNumber (lit n)) (expected : List Char)
    (n : ℕ) (c : Char) : Keeps s (s.onLiteral expected lit n c) := by
  obtain ⟨he, hx⟩ := h.outside hm
  unfold onLiteral
  split_ifs
  · exact keeps_move (sane_valueEnd he hx rfl)
  · obtain ⟨hd, hk, hn⟩ := hlit (n + 1)
    exact keeps_move (sane_of_outside he hx (absurd · hd) (absurd · hk) hn)
  · exact keeps_stay h _

theorem keeps_advance (h : Sane s) (c : Char) : Keeps s (s.advance c) := by
  unfold advance
  split_ifs with hx
  · refine keeps_move ⟨h.done, h.key, h.escaped, fun _ => h.hex hx, h.number⟩
  · exact keeps_stay h _
  · have hx : s.hexRemaining = 0 := by omega
    split
    · next hm => exact keeps_expectValue h hm c
    · next hm => exact keeps_expectKey h hm c
    · next hm => exact keeps_expectColon h hm c
    · next hm => exact keeps_expectSep h hm c
    · next hm => exact keeps_string h (.inl hm) hx c
    · next hm => exact keeps_string h (.inr hm) hx c
    · next hm => exact keeps_numStart h hm c
    -- the number modes hand their character on after they moved: no reached state is in one
    · next hm => exact absurd (.inl hm) h.number
    · next hm => exact absurd (.inr (.inl hm)) h.number
    · next hm => exact absurd (.inr (.inr (.inl hm))) h.number
    · next hm => exact absurd (.inr (.inr (.inr (.inl hm)))) h.number
    · next hm => exact absurd (.inr (.inr (.inr (.inr hm)))) h.number
    · next hm =>
      exact keeps_literal h (by simp [hm, InString]) (by simp [InKey, InNumber]) _ _ c
    · next hm =>
      exact keeps_literal h (by simp [hm, InString]) (by simp [InKey, InNumber]) _ _ c
    · next hm =>
      exact keeps_literal h (by simp [hm, InString]) (by simp [InKey, InNumber]) _ _ c
    · exact keeps_stay h _

theorem Sane.run : ∀ {cs : List Char} {s : JsonState}, Sane s → Runs s cs s' → Sane s'
  | [], _, h, hrun => runs_nil.mp hrun ▸ h
  | c :: _, _, h, hrun => by
    obtain ⟨htaken, hrun⟩ := runs_cons.mp hrun
    exact ((keeps_advance h c).sane htaken).run hrun

/-- What the mode of a reached state says of its stack and its string sub-state; a refused
character changes nothing. -/
theorem reached_modes {cs : List Char} (h : Runs default cs s) :
    (s.mode = .done → s.stack = []) ∧
      (s.mode = .expectKey ∨ s.mode = .stringKey ∨ s.mode = .expectColon →
        s.stack.head? = some .object) ∧
      (s.escaped = true ∨ 0 < s.hexRemaining →
        s.mode = .stringKey ∨ s.mode = .stringValue) ∧
      ∀ c, (s.advance c).2 = false → (s.advance c).1 = s := by
  have hs : Sane s := sane_default.run h
  refine ⟨hs.done, hs.key, ?_, fun c => (keeps_advance hs c).refused⟩
  rintro (he | hx)
  · exact hs.escaped he
  · exact (hs.hex hx).1

theorem reached_modes_openKey :
    (((default : JsonState).feedChars "\x7b\"a\\u0".toList).1.stack.head? = some .object ∧
      ((default : JsonState).feedChars "\x7b\"a\\u0".toList).1.hexRemaining = 3) := by
  have hrun : Runs default "\x7b\"a\\u0".toList
      ((default : JsonState).feedChars "\x7b\"a\\u0".toList).1 := Prod.ext rfl (by decide)
  exact ⟨(reached_modes hrun).2.1 (.inr (.inl (by decide))), by decide⟩

def scanFlags (s : JsonState) : Bool × Bool := (decide (InString s.mode), s.escaped)

theorem scanString_cons (f : Bool × Bool) (c : Char) (cs : List Char) :
    scanString f (c :: cs) = scanString (scanString f [c]) cs := by
  obtain ⟨inStr, escaped⟩ := f
  simp only [scanString]
  split_ifs <;> rfl

theorem not_inString_valueEnd (stack : List Bracket) : ¬ InString (valueEnd stack) := by
  unfold valueEnd
  split_ifs <;> simp [InString]

theorem advance_outside (h : Sane s) (hm : ¬ InString s.mode) (hc : c ≠ '"') :
    ¬ InString (s.advance c).1.mode := by
  obtain ⟨-, hx⟩ := h.outside hm
  have hpop : ¬ InString s.pop.mode := not_inString_valueEnd _
  unfold advance
  rw [if_neg (by omega)]
  split
  · unfold onExpectValue
    split_ifs
    all_goals first | exact hpop | exact hm | simp [InString]
  · unfold onExpectKey
    split_ifs
    all_goals first | exact hpop | exact hm
  · unfold onExpectColon
    split_ifs
    · simp [InString]
    · exact hm
  · unfold onExpectSep
    split_ifs
    · split
      · simp [InString]
      · simp [InString]
      · exact hm
    all_goals first | exact hpop | exact hm | simp [InString]
  · next hs => exact absurd (.inl hs) hm
  · next hs => exact absurd (.inr hs) hm
  · unfold onNumStart
    split_ifs
    · simp [InString]
    · exact hm
  · next hn => exact absurd (.inl hn) h.number
  · next hn => exact absurd (.inr (.inl hn)) h.number
  · next hn => exact absurd (.inr (.inr (.inl hn))) h.number
  · next hn => exact absurd (.inr (.inr (.inr (.inl hn)))) h.number
  · next hn => exact absurd (.inr (.inr (.inr (.inr hn)))) h.number
  all_goals
    first
    | exact hm
    | unfold onLiteral
      split_ifs
      · exact not_inString_valueEnd _
      · simp [InString]
      · exact hm

theorem not_onLiteral_quote {expected : List Char} {lit : ℕ → Mode} {n : ℕ}
    (h : '"' ∉ expected) : ¬ (s.onLiteral expected lit n '"').2 = true := by
  unfold onLiteral
  split_ifs with hc
  · exact absurd (List.mem_of_getElem? hc) h
  · exact absurd (List.mem_of_getElem? hc) h
  · simp

theorem advance_quote (h : Sane s) (hm : ¬ InString s.mode) (ht : (s.advance '"').2 = true) :
    InString (s.advance '"').1.mode ∧ (s.advance '"').1.escaped = false := by
  obtain ⟨-, hx⟩ := h.outside hm
  unfold advance at ht ⊢
  rw [if_neg (by omega)] at ht ⊢
  split at ht
  · exact ⟨.inr (by simp [onExpectValue]), by simp [onExpectValue]⟩
  · exact ⟨.inl (by simp [onExpectKey]), by simp [onExpectKey]⟩
  · simp [onExpectColon, isSpace] at ht
  · simp [onExpectSep, isAsciiDigit, isSpace] at ht
  · next hs => exact absurd (.inl hs) hm
  · next hs => exact absurd (.inr hs) hm
  · simp [onNumStart, isAsciiDigit] at ht
  · next hn => exact absurd (.inl hn) h.number
  · next hn => exact absurd (.inr (.inl hn)) h.number
  · next hn => exact absurd (.inr (.inr (.inl hn))) h.number
  · next hn => exact absurd (.inr (.inr (.inr (.inl hn)))) h.number
  · next hn => exact absurd (.inr (.inr (.inr (.inr hn)))) h.number
  · exact absurd ht (not_onLiteral_quote (by decide))
  · exact absurd ht (not_onLiteral_quote (by decide))
  · exact absurd ht (not_onLiteral_quote (by decide))
  · simp [isSpace] at ht

theorem advance_inString (hm : InString s.mode) (hx : s.hexRemaining = 0)
    (ht : (s.advance c).2 = true) :
    scanFlags (s.advance c).1 = scanString (true, s.escaped) [c] := by
  have hstring : s.advance c = s.onString c := by
    rcases hm with hm | hm <;> simp [advance, hx, hm]
  rw [hstring] at ht ⊢
  unfold onString at ht ⊢
  split_ifs at ht ⊢ with hesc hlist hu hslash hquote hkey
  · simp [scanFlags, scanString, hesc, hm]
  · simp [scanFlags, scanString, hesc, hm, hu]
  · simp at hesc
    simp [scanFlags, scanString, hesc, hm, hslash]
  · simp at hesc
    simp [scanFlags, scanString, hesc, hquote, InString]
  · simp at hesc
    simp [scanFlags, scanString, hesc, hquote, not_inString_valueEnd]
  · simp at hesc
    simp [scanFlags, scanString, hesc, hm, hslash, hquote]

theorem scanFlags_advance (h : Sane s) (ht : (s.advance c).2 = true) :
    scanFlags (s.advance c).1 = scanString (scanFlags s) [c] := by
  by_cases hm : InString s.mode
  · by_cases hx : s.hexRemaining = 0
    · rw [advance_inString hm hx ht, scanFlags, decide_eq_true hm]
    · -- the digits of an escape are neither quotes nor backslashes
      have hesc := (h.hex (Nat.pos_of_ne_zero hx)).2
      have hdigit : isAsciiHexdigit c = true := by
        by_contra hd
        simp [advance, Nat.pos_of_ne_zero hx, hd] at ht
      have hquote : c ≠ '"' := by rintro rfl; exact absurd hdigit (by decide)
      have hslash : c ≠ '\\' := by rintro rfl; exact absurd hdigit (by decide)
      simp [advance, Nat.pos_of_ne_zero hx, hdigit, scanFlags, scanString, hm, hesc, hquote,
        hslash]
  · have hflags : scanFlags s = (false, false) := by simp [scanFlags, hm, (h.outside hm).1]
    rw [hflags]
    by_cases hc : c = '"'
    · subst hc
      obtain ⟨hin, hesc⟩ := advance_quote h hm ht
      simp [scanFlags, hin, hesc, scanString]
    · have hout := advance_outside h hm hc
      have hesc := (((keeps_advance h c).sane ht).outside hout).1
      simp [scanFlags, hout, hesc, scanString, hc]

theorem scanFlags_run : ∀ {cs : List Char} {s : JsonState}, Sane s → Runs s cs s' →
    scanFlags s' = scanString (scanFlags s) cs
  | [], _, _, hrun => by rw [runs_nil.mp hrun, scanString]
  | c :: cs, s, h, hrun => by
    obtain ⟨ht, hrun⟩ := runs_cons.mp hrun
    rw [scanString_cons, ← scanFlags_advance h ht]
    exact scanFlags_run ((keeps_advance h c).sane ht) hrun

/-- On a text the automaton takes, the scan ends in a string exactly in the string modes. -/
theorem insideUnterminatedString_iff_mode {text : String}
    (h : ((default : JsonState).checkToken text).valid = true) :
    insideUnterminatedString text = true ↔
      ((default : JsonState).checkToken text).nextState.mode = .stringKey ∨
        ((default : JsonState).checkToken text).nextState.mode = .stringValue := by
  have hrun : Runs default text.toList ((default : JsonState).checkToken text).nextState :=
    Prod.ext rfl h
  have hscan := scanFlags_run sane_default hrun
  have hin := congrArg Prod.fst hscan
  change decide (InString _) = insideUnterminatedString text at hin
  rw [← hin, decide_eq_true_eq, InString]

theorem insideUnterminatedString_iff_mode_escaped :
    insideUnterminatedString "\x7b\"a\": \"v\\\"" = true ↔
      ((default : JsonState).checkToken "\x7b\"a\": \"v\\\"").nextState.mode = .stringKey ∨
        ((default : JsonState).checkToken "\x7b\"a\": \"v\\\"").nextState.mode = .stringValue :=
  insideUnterminatedString_iff_mode (by decide)

end JsonState

end Grim.Constrain
