import Mathlib.Tactic

/-!
# The JSON grammar

RFC 8259 as it is written: the six structural characters, each with whitespace around it, three
literal names, numbers and strings.  One relation derives values, the elements of an array and
the members of an object (`Derives`), so that one induction covers all three.
-/

namespace Json

def IsWs (c : Char) : Prop := c ∈ [' ', '\t', '\n', '\r']

instance (c : Char) : Decidable (IsWs c) := by unfold IsWs; infer_instance

def Ws (w : List Char) : Prop := ∀ c ∈ w, IsWs c

/-- The structural character `c` with the whitespace allowed around it. -/
def Structural (c : Char) (s : List Char) : Prop :=
  ∃ w w', Ws w ∧ Ws w' ∧ s = w ++ c :: w'

def IsDigit (c : Char) : Prop := '0' ≤ c ∧ c ≤ '9'

instance (c : Char) : Decidable (IsDigit c) := by unfold IsDigit; infer_instance

def IsHex (c : Char) : Prop := IsDigit c ∨ ('a' ≤ c ∧ c ≤ 'f') ∨ ('A' ≤ c ∧ c ≤ 'F')

instance (c : Char) : Decidable (IsHex c) := by unfold IsHex; infer_instance

def Digits (s : List Char) : Prop := s ≠ [] ∧ ∀ c ∈ s, IsDigit c

def Minus (s : List Char) : Prop := s = [] ∨ s = ['-']

/-- `zero / ( digit1-9 *DIGIT )` -/
def Int (s : List Char) : Prop := s = ['0'] ∨ (Digits s ∧ s.head? ≠ some '0')

def Frac (s : List Char) : Prop := s = [] ∨ ∃ ds, s = '.' :: ds ∧ Digits ds

def Exp (s : List Char) : Prop :=
  s = [] ∨ ∃ e sign ds, s = e :: (sign ++ ds) ∧ e ∈ ['e', 'E']
    ∧ (sign = [] ∨ sign = ['-'] ∨ sign = ['+']) ∧ Digits ds

def Number (s : List Char) : Prop :=
  ∃ m i f e, s = m ++ i ++ f ++ e ∧ Minus m ∧ Int i ∧ Frac f ∧ Exp e

def literals : List (List Char) := ["false".toList, "null".toList, "true".toList]

/-- What may follow a backslash, `u` apart. -/
def escapes : List Char := ['"', '\\', '/', 'b', 'f', 'n', 'r', 't']

/-- `%x20-21 / %x23-5B / %x5D-10FFFF` -/
def Unescaped (c : Char) : Prop := ' ' ≤ c ∧ c ≠ '"' ∧ c ≠ '\\'

instance (c : Char) : Decidable (Unescaped c) := by unfold Unescaped; infer_instance

inductive Chars : List Char → Prop
  | nil : Chars []
  | plain {c : Char} {cs : List Char} : Unescaped c → Chars cs → Chars (c :: cs)
  | escape {c : Char} {cs : List Char} : c ∈ escapes → Chars cs → Chars ('\\' :: c :: cs)
  | unicode {a b c d : Char} {cs : List Char} : IsHex a → IsHex b → IsHex c → IsHex d →
      Chars cs → Chars ('\\' :: 'u' :: a :: b :: c :: d :: cs)

def Str (s : List Char) : Prop := ∃ cs, Chars cs ∧ s = '"' :: (cs ++ ['"'])

inductive Symbol
  | value
  | elements
  | members

inductive Derives : Symbol → List Char → Prop
  | literal {w : List Char} : w ∈ literals → Derives .value w
  | number {w : List Char} : Number w → Derives .value w
  | string {s : List Char} : Str s → Derives .value s
  | emptyArray {b e : List Char} : Structural '[' b → Structural ']' e → Derives .value (b ++ e)
  | array {b es e : List Char} : Structural '[' b → Derives .elements es → Structural ']' e →
      Derives .value (b ++ es ++ e)
  | emptyObject {b e : List Char} : Structural '{' b → Structural '}' e → Derives .value (b ++ e)
  | object {b ms e : List Char} : Structural '{' b → Derives .members ms → Structural '}' e →
      Derives .value (b ++ ms ++ e)
  | element {v : List Char} : Derives .value v → Derives .elements v
  | elements {v s es : List Char} : Derives .value v → Structural ',' s → Derives .elements es →
      Derives .elements (v ++ s ++ es)
  | member {k s v : List Char} : Str k → Structural ':' s → Derives .value v →
      Derives .members (k ++ s ++ v)
  | members {k s v s' ms : List Char} : Str k → Structural ':' s → Derives .value v →
      Structural ',' s' → Derives .members ms → Derives .members (k ++ s ++ v ++ s' ++ ms)

/-- `JSON-text = ws value ws` -/
def Text (s : List Char) : Prop :=
  ∃ w v w', Ws w ∧ Derives .value v ∧ Ws w' ∧ s = w ++ v ++ w'

theorem Ws.nil : Ws [] := by simp [Ws]

theorem Ws.cons {c : Char} {w : List Char} (hc : IsWs c) (hw : Ws w) : Ws (c :: w) :=
  List.forall_mem_cons.mpr ⟨hc, hw⟩

theorem Structural.of_ws {c : Char} {w w' : List Char} (hw : Ws w) (hw' : Ws w') :
    Structural c (w ++ c :: w') := ⟨w, w', hw, hw', rfl⟩

theorem Structural.self (c : Char) : Structural c [c] := ⟨[], [], .nil, .nil, rfl⟩

theorem Str.cons_append {k : List Char} (h : Str k) : ∃ cs, k = '"' :: cs := by
  obtain ⟨cs, -, rfl⟩ := h
  exact ⟨_, rfl⟩

end Json
