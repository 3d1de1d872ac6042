import Mathlib.Tactic

/-!
# The JSON automaton

`JsonState` follows the characters of a text with a bracket stack and a mode.  The stack is a
list with the last bracket pushed at its head.  `advance` returns the state it leaves behind and
whether it took the character.
-/

namespace Grim.Constrain

inductive Bracket
  | object
  | array
deriving DecidableEq, Repr

inductive Mode
  | expectValue
  | expectKey
  | expectColon
  | expectSep
  | stringKey
  | stringValue
  | numStart (minus : Bool)
  | numInt
  | numFrac
  | numExp
  | numExpSign
  | numExpDigits
  | litTrue (n : ℕ)
  | litFalse (n : ℕ)
  | litNull (n : ℕ)
  | done
deriving DecidableEq, Repr

structure JsonState where
  stack : List Bracket
  mode : Mode
  escaped : Bool
  isKey : Bool
  hexRemaining : ℕ
deriving DecidableEq, Repr

instance : Inhabited JsonState := ⟨[], .expectValue, false, false, 0⟩

structure FsmCheck where
  nextState : JsonState
  valid : Bool
  rootDone : Bool

def isAsciiDigit (c : Char) : Bool := '0' ≤ c && c ≤ '9'

def isAsciiHexdigit (c : Char) : Bool :=
  isAsciiDigit c || ('a' ≤ c && c ≤ 'f') || ('A' ≤ c && c ≤ 'F')

/-- `char::is_control`: the general category `Cc`. -/
def isControl (c : Char) : Bool := c.val < 0x20 || (0x7f ≤ c.val && c.val ≤ 0x9f)

def isSpace (c : Char) : Bool := c = ' ' || c = '\t' || c = '\n' || c = '\r'

/-- The mode once a value has ended with `stack` still open. -/
def valueEnd (stack : List Bracket) : Mode := if stack.isEmpty then .done else .expectSep

namespace JsonState

def pop (s : JsonState) : JsonState :=
  { s with stack := s.stack.tail, mode := valueEnd s.stack.tail }

def onExpectValue (s : JsonState) (c : Char) : JsonState × Bool :=
  if c = '{' then ({ s with stack := .object :: s.stack, mode := .expectKey, isKey := true }, true)
  else if c = '[' then
    ({ s with stack := .array :: s.stack, mode := .expectValue, isKey := false }, true)
  else if c = '"' then ({ s with mode := .stringValue, escaped := false, isKey := false }, true)
  else if c = '}' ∧ s.stack.head? = some .object then (s.pop, true)
  else if c = ']' ∧ s.stack.head? = some .array then (s.pop, true)
  else if c = '-' then ({ s with mode := .numStart true }, true)
  -- the first digit already leaves for `expectSep`, so `numInt` and `numFrac` are never entered
  else if isAsciiDigit c then ({ s with mode := .expectSep }, true)
  else if c = 't' then ({ s with mode := .litTrue 1 }, true)
  else if c = 'f' then ({ s with mode := .litFalse 1 }, true)
  else if c = 'n' then ({ s with mode := .litNull 1 }, true)
  else (s, isSpace c)

def onExpectKey (s : JsonState) (c : Char) : JsonState × Bool :=
  if c = '}' ∧ s.stack.head? = some .object then (s.pop, true)
  else if c = '"' then ({ s with mode := .stringKey, escaped := false, isKey := true }, true)
  else (s, isSpace c)

def onExpectColon (s : JsonState) (c : Char) : JsonState × Bool :=
  if c = ':' then ({ s with mode := .expectValue, isKey := false }, true)
  else (s, isSpace c)

def onExpectSep (s : JsonState) (c : Char) : JsonState × Bool :=
  if c = ',' then
    match s.stack.head? with
    | some .object => ({ s with mode := .expectKey, isKey := true }, true)
    | some .array => ({ s with mode := .expectValue, isKey := false }, true)
    | none => (s, false)
  else if c = '}' then
    if s.stack.head? = some .object then (s.pop, true)
    else if s.stack.isEmpty then ({ s with mode := .done }, true)
    else (s, false)
  else if c = ']' ∧ s.stack.head? = some .array then (s.pop, true)
  else if isAsciiDigit c then (s, true)
  else if c = '.' then (s, true)
  else if c = 'e' ∨ c = 'E' ∨ c = '+' ∨ c = '-' then (s, true)
  else (s, isSpace c)

def onString (s : JsonState) (c : Char) : JsonState × Bool :=
  if s.escaped then
    if c ∈ ['"', '\\', '/', 'b', 'f', 'n', 'r', 't'] then ({ s with escaped := false }, true)
    else if c = 'u' then ({ s with escaped := false, hexRemaining := 4 }, true)
    else (s, false)
  else if c = '\\' then ({ s with escaped := true }, true)
  else if c = '"' then
    if s.mode = .stringKey then ({ s with mode := .expectColon }, true)
    else ({ s with mode := valueEnd s.stack }, true)
  else (s, !isControl c)

def onNumStart (s : JsonState) (c : Char) : JsonState × Bool :=
  if isAsciiDigit c then ({ s with mode := .expectSep }, true) else (s, false)

def onNumber (s : JsonState) (c : Char) : JsonState × Bool :=
  if isAsciiDigit c then (s, true)
  else if c = '.' then (s, true)
  else if c = 'e' ∨ c = 'E' ∨ c = '+' ∨ c = '-' then (s, true)
  else if c = '}' ∨ c = ']' ∨ c = ',' ∨ isSpace c then
    onExpectSep { s with mode := .expectSep } c
  else (s, false)

/-- `n` characters of the literal name `expected` are read; `lit` is its mode. -/
def onLiteral (s : JsonState) (expected : List Char) (lit : ℕ → Mode) (n : ℕ) (c : Char) :
    JsonState × Bool :=
  if expected[n]? = some c then
    ({ s with mode := if n + 1 = expected.length then valueEnd s.stack else lit (n + 1) }, true)
  else (s, false)

def advance (s : JsonState) (c : Char) : JsonState × Bool :=
  if 0 < s.hexRemaining then
    if isAsciiHexdigit c then ({ s with hexRemaining := s.hexRemaining - 1 }, true) else (s, false)
  else
    match s.mode with
    | .expectValue => s.onExpectValue c
    | .expectKey => s.onExpectKey c
    | .expectColon => s.onExpectColon c
    | .expectSep => s.onExpectSep c
    | .stringKey | .stringValue => s.onString c
    | .numStart _ => s.onNumStart c
    | .numInt | .numFrac | .numExp | .numExpSign | .numExpDigits => s.onNumber c
    | .litTrue n => s.onLiteral "true".toList .litTrue n c
    | .litFalse n => s.onLiteral "false".toList .litFalse n c
    | .litNull n => s.onLiteral "null".toList .litNull n c
    | .done => (s, isSpace c)

def feedChars : JsonState → List Char → JsonState × Bool
  | s, [] => (s, true)
  | s, c :: cs => if (s.advance c).2 then feedChars (s.advance c).1 cs else ((s.advance c).1, false)

def feedToken (s : JsonState) (token : String) : JsonState × Bool := s.feedChars token.toList

def isDone (s : JsonState) : Bool := s.mode = .done

/-- The test `check_token` makes of the state a valid text ends in. -/
def atRoot (s : JsonState) : Bool :=
  s.stack.isEmpty && (s.mode = .done || s.mode = .expectSep || s.isDone)

def checkToken (s : JsonState) (text : String) : FsmCheck :=
  let r := s.feedChars text.toList
  ⟨r.1, r.2, r.2 && r.1.atRoot⟩

/-- Between tokens, in mode `m` with `stack` open. -/
structure At (s : JsonState) (m : Mode) (stack : List Bracket) : Prop where
  mode : s.mode = m
  stack : s.stack = stack
  escaped : s.escaped = false
  hexRemaining : s.hexRemaining = 0

theorem at_default : At default .expectValue [] := ⟨rfl, rfl, rfl, rfl⟩

/-- Each of the characters is taken, and `s'` is the state after the last. -/
def Runs (s : JsonState) (cs : List Char) (s' : JsonState) : Prop := s.feedChars cs = (s', true)

@[simp] theorem runs_nil {s s' : JsonState} : Runs s [] s' ↔ s = s' := by
  simp [Runs, feedChars]

@[simp] theorem runs_cons {s s' : JsonState} {c : Char} {cs : List Char} :
    Runs s (c :: cs) s' ↔ (s.advance c).2 = true ∧ Runs (s.advance c).1 cs s' := by
  simp only [Runs, feedChars]
  by_cases h : (s.advance c).2 <;> simp [h]

theorem runs_append {s s' : JsonState} : ∀ {cs ds : List Char},
    Runs s (cs ++ ds) s' ↔ ∃ t, Runs s cs t ∧ Runs t ds s' := by
  intro cs
  induction cs generalizing s with
  | nil => simp
  | cons c cs ih => simp [ih, and_assoc]

theorem Runs.unique {s t t' : JsonState} {cs : List Char} (h : Runs s cs t) (h' : Runs s cs t') :
    t = t' := congrArg Prod.fst (h.symm.trans h')

/-- The text is taken whole and the document is complete after it. -/
def Accepts (s : JsonState) (cs : List Char) : Prop := ∃ s', Runs s cs s' ∧ s'.atRoot

theorem accepts_iff (s : JsonState) (text : String) :
    Accepts s text.toList ↔ (s.checkToken text).valid ∧ (s.checkToken text).rootDone := by
  simp only [Accepts, Runs, checkToken, Bool.and_eq_true]
  refine ⟨fun ⟨s', h, hr⟩ => by simp [h, hr], fun ⟨hv, _, hr⟩ => ⟨_, Prod.ext rfl hv, hr⟩⟩

/-- From mode `m` with `stack` open, `cs` leads to mode `m'` with `stack'` open. -/
def Leads (m : Mode) (stack : List Bracket) (cs : List Char) (m' : Mode)
    (stack' : List Bracket) : Prop :=
  ∀ s, At s m stack → ∃ s', Runs s cs s' ∧ At s' m' stack'

variable {m m₁ m₂ : Mode} {stack st₁ st₂ : List Bracket} {cs ds : List Char}

theorem Leads.nil : Leads m stack [] m stack := fun s h => ⟨s, by simp, h⟩

theorem Leads.append (h₁ : Leads m stack cs m₁ st₁) (h₂ : Leads m₁ st₁ ds m₂ st₂) :
    Leads m stack (cs ++ ds) m₂ st₂ := by
  intro s h
  obtain ⟨t, hrun, ht⟩ := h₁ s h
  obtain ⟨s', hrun', hs'⟩ := h₂ t ht
  exact ⟨s', runs_append.mpr ⟨t, hrun, hrun'⟩, hs'⟩

theorem Leads.cons {c : Char} (h₁ : Leads m stack [c] m₁ st₁) (h₂ : Leads m₁ st₁ cs m₂ st₂) :
    Leads m stack (c :: cs) m₂ st₂ := h₁.append h₂

theorem Leads.accepts {s : JsonState} {r : List Char} (h : Leads m stack cs m₁ st₁)
    (hs : At s m stack) (ha : Accepts s (cs ++ r)) : ∃ s', At s' m₁ st₁ ∧ Accepts s' r := by
  obtain ⟨s', hrun, hroot⟩ := ha
  obtain ⟨t, hrun₁, hrun₂⟩ := runs_append.mp hrun
  obtain ⟨t', ht', hat⟩ := h s hs
  obtain rfl := hrun₁.unique ht'
  exact ⟨t, hat, s', hrun₂, hroot⟩

end JsonState

end Grim.Constrain
