import Grim.Lib.Text
import Grim.Lib.Json.Value

/-!
# Tool calls in a completion

The calls are cut out of the model's text by the markers around them, before anything is parsed;
what stands between the markers is then read by the convention.  Where one convention finds no
call, the next one is tried.
-/

namespace Grim.Server

open FloatFormat JsonValue Markers Text List

inductive ToolFamily
  | tagDelimited | bareJson | bracketFirst | auto
deriving DecidableEq

structure ToolCallMsg where
  id : String
  name : String
  arguments : String
deriving DecidableEq

structure ParseOutcome where
  calls : Option (List ToolCallMsg)
  diagnostic : Option String
deriving DecidableEq

/-- `serde_json::from_str::<Value>` and `serde_json::to_string`. -/
structure SerdeStr where
  fromStr : List Char → Except String Value
  toString : Value → String

variable (serde : SerdeStr)

def extractCallValue (v : Value) : Option ToolCallMsg := do
  let obj ← v.asObject
  let fo ← match obj.get "function" with
    | some func => func.asObject
    | none => some obj
  let name ← (← fo.get "name").asStr
  let arguments := (fo.get "arguments").getD .null
  let argumentsStr := match arguments with
    | .string s => s
    | other => serde.toString other
  let id := ((obj.get "id").bind Value.asStr).getD "call_0"
  some { id, name, arguments := argumentsStr }

def extractCall (value : List Char) : Option ToolCallMsg :=
  match serde.fromStr value with
  | .ok v => extractCallValue serde v
  | .error _ => none

/-- One turn of the loops: a call is pushed, or a reason is kept. -/
def push (st : List ToolCallMsg × Option String) : Except String ToolCallMsg →
    List ToolCallMsg × Option String
  | .ok call => (st.1 ++ [call], st.2)
  | .error reason => (st.1, some reason)

def outcome (st : List ToolCallMsg × Option String) : ParseOutcome where
  calls := if st.1 = [] then none else some st.1
  diagnostic := st.2

def tagOpen : List Char := "<tool_call>".toList

def tagClose : List Char := "</tool_call>".toList

def tagCall (inner : List Char) : Except String ToolCallMsg :=
  match extractCall serde (trim inner) with
  | some call => .ok call
  | none => .error s!"tool_call marker with unparseable interior: {String.ofList inner}"

def parseTagDelimited (completion : List Char) : ParseOutcome :=
  let (inners, _) := between tagOpen tagClose completion
  outcome (inners.foldl (fun st inner => push st (tagCall serde inner)) ([], none))

def parseBareJson (completion : List Char) : ParseOutcome :=
  let trimmed := trim completion
  if ¬(trimmed.head? = some '{' ∧ trimmed.getLast? = some '}') then ⟨none, none⟩
  else
    match serde.fromStr trimmed with
    | .ok v =>
      match extractCallValue serde v with
      | some call => ⟨some [call], none⟩
      | none => ⟨none, some "bare JSON object is not a tool call"⟩
    | .error e => ⟨none, some s!"bare JSON parse failed: {e}"⟩

/-- What the splitter keeps in mind: the brackets that are open, and the quote of the string. -/
abbrev Nesting := ℕ × Option Char

/-- A quote ends the string it began; a backslash is like any other character. -/
def track (st : Nesting) (c : Char) : Nesting :=
  match st.2 with
  | some q => if c = q then (st.1, none) else st
  | none =>
    if c = '"' ∨ c = '\'' then (st.1, some c)
    else if c = '(' ∨ c = '[' ∨ c = '\x7b' then (st.1 + 1, none)
    else if c = ')' ∨ c = ']' ∨ c = '\x7d' then (st.1 - 1, none)
    else st

/-- The parts so far, the part that is being read, and where it is read. -/
def splitStep (st : List (List Char) × List Char × Nesting) (c : Char) :
    List (List Char) × List Char × Nesting :=
  let (parts, cur, nesting) := st
  if c = ',' ∧ nesting = (0, none) then (parts ++ [cur], [], nesting)
  else (parts, cur ++ [c], track nesting c)

def splitTopLevel (s : List Char) : List (List Char) :=
  let (parts, cur, _) := s.foldl splitStep ([], [], (0, none))
  if trim cur ≠ [] then parts ++ [cur] else parts

/-- `str::parse::<i64>` -/
def parseI64 (s : List Char) : Option Int64 :=
  let (negative, digits) := match s with
    | '-' :: rest => (true, rest)
    | '+' :: rest => (false, rest)
    | s => (false, s)
  if digits ≠ [] ∧ digits.all Char.isDigit then
    let n : ℤ := Nat.ofDigitChars 10 digits 0
    let i := if negative then -n else n
    if -2 ^ 63 ≤ i ∧ i < 2 ^ 63 then some (.ofInt i) else none
  else none

def parseExponent : List Char → Option ℤ
  | [] => some 0
  | c :: rest =>
    let (negative, digits) := match rest with
      | '-' :: ds => (true, ds)
      | '+' :: ds => (false, ds)
      | ds => (false, ds)
    if (c = 'e' ∨ c = 'E') ∧ digits ≠ [] ∧ digits.all Char.isDigit then
      let n : ℤ := Nat.ofDigitChars 10 digits 0
      some (if negative then -n else n)
    else none

/-- `str::parse::<f64>` without the sign -/
def parseUnsignedF64 (s : List Char) : Option Float.Model.UnpackedFloat :=
  let word := toAsciiLowercase s
  if word = "inf".toList ∨ word = "infinity".toList then some (.infinity .positive)
  else if word = "nan".toList then some .notANumber
  else
    let whole := s.takeWhile Char.isDigit
    let (fraction, rest) := match s.dropWhile Char.isDigit with
      | '.' :: t => (t.takeWhile Char.isDigit, t.dropWhile Char.isDigit)
      | t => ([], t)
    if whole = [] ∧ fraction = [] then none
    else (parseExponent rest).map fun e => .ofScientific .binary64
      (Nat.ofDigitChars 10 (whole ++ fraction) 0) (e - fraction.length)

/-- `str::parse::<f64>`, to the nearest number, by its bits -/
def parseF64 (s : List Char) : Option UInt64 :=
  let bits (f : Float.Model.UnpackedFloat) : UInt64 := .ofBitVec (f.pack .binary64)
  match s with
  | '-' :: rest => (parseUnsignedF64 rest).map fun f => bits f.neg
  | '+' :: rest => (parseUnsignedF64 rest).map bits
  | rest => (parseUnsignedF64 rest).map bits

/-- `json!` of an `f64` -/
def jsonF64 (bits : UInt64) : Value :=
  match Number.ofF64 bits with
  | some n => .number n
  | none => .null

def quotedBy (q : Char) (v : List Char) : Bool :=
  v.head? = some q ∧ v.getLast? = some q ∧ 2 ≤ v.length

def pyLiteralToJson (v : List Char) : Value :=
  let v := trim v
  if v = "True".toList ∨ v = "true".toList then .bool true
  else if v = "False".toList ∨ v = "false".toList then .bool false
  else if v = "None".toList ∨ v = "null".toList ∨ v = [] then .null
  else if quotedBy '"' v ∨ quotedBy '\'' v then .string (.ofList v.tail.dropLast)
  else
    match parseI64 v, parseF64 v with
    | some i, _ => .number (.ofI64 i)
    | none, some f => jsonF64 f
    | none, none =>
      if v.head? = some '[' ∨ v.head? = some '\x7b' then
        match serde.fromStr v with
        | .ok v => v
        | .error _ => .string (.ofList v)
      else .string (.ofList v)

def trimMatches (c : Char) (s : List Char) : List Char :=
  (s.dropWhile (· = c)).rdropWhile (· = c)

/-- The key and the value of the `i`-th part. -/
def fnArgument (i : ℕ) (part : List Char) : String × Value :=
  match splitOnce ['='] part with
  | some (k, v) =>
    (.ofList (trimMatches '\'' (trimMatches '"' (trim k))), pyLiteralToJson serde (trim v))
  | none => (s!"arg{i}", pyLiteralToJson serde part)

/-- The arguments between the parentheses, filled in from part to part. -/
def fnArguments (argsStr : List Char) : Object :=
  (splitTopLevel argsStr).zipIdx.foldl (fun args p =>
    let part := trim p.1
    if part = [] then args
    else args.insert (fnArgument serde p.2 part).1 (fnArgument serde p.2 part).2) []

variable (isAlphanumeric : Char → Bool)

def parseFnLiteral (s : List Char) : Option ToolCallMsg := do
  let (before, behind) ← splitOnce ['('] s
  if s.getLast? ≠ some ')' then none
  else
    let name := trim before
    if name = [] ∨ ¬name.all fun c => isAlphanumeric c || c = '_' || c = '.' then none
    else
      some
        { id := "call_0"
          name := .ofList name
          arguments := serde.toString (.object (fnArguments serde behind.dropLast)) }

def callStart : List Char := "<|tool_call_start|>".toList

def callEnd : List Char := "<|tool_call_end|>".toList

def bracketCall (inner : List Char) : Except String ToolCallMsg :=
  let inner := trim inner
  let inner := trim ((inner.dropWhile (· = '[')).rdropWhile (· = ']'))
  match parseFnLiteral serde isAlphanumeric inner with
  | some call => .ok call
  | none => .error s!"bracket call unparseable: {String.ofList inner}"

def parseBracketCall (completion : List Char) : ParseOutcome :=
  let (inners, unclosed) := between callStart callEnd completion
  let st := inners.foldl (fun st inner => push st (bracketCall serde isAlphanumeric inner))
    ([], none)
  outcome (if unclosed then (st.1, some "tool_call_start without tool_call_end") else st)

def parseToolCalls (completion : List Char) (family : ToolFamily) : ParseOutcome :=
  let bracket := parseBracketCall serde isAlphanumeric completion
  let (first, second) := match family with
    | .bareJson => (parseBareJson serde completion, parseTagDelimited serde completion)
    | .bracketFirst | .tagDelimited | .auto =>
      (parseTagDelimited serde completion, parseBareJson serde completion)
  if family = .bracketFirst ∧ bracket.calls.isSome then bracket
  else if first.calls.isSome then first
  else if second.calls.isSome then second
  else if bracket.calls.isSome then bracket
  else ⟨none, (first.diagnostic.or second.diagnostic).or bracket.diagnostic⟩

structure ToolCall where
  name : String
  arguments : Object

namespace ToolCall

variable (call : ToolCall)

def members : List Char :=
  "\"name\":".toList ++ ((serde.toString (.string call.name)).toList ++
    (",\"arguments\":".toList ++ (serde.toString (.object call.arguments)).toList))

/-- `{"name":..,"arguments":..}` -/
def text : List Char := '\x7b' :: (call.members serde ++ ['\x7d'])

def message : ToolCallMsg :=
  { id := "call_0", name := call.name, arguments := serde.toString (.object call.arguments) }

/-- `serde_json` prints and parses what is in the call exactly. -/
structure Exact : Prop where
  arguments : serde.fromStr (serde.toString (.object call.arguments)).toList =
    .ok (.object call.arguments)
  fields : ∃ o : Object, serde.fromStr (call.text serde) = .ok (.object o) ∧ ∀ key, o.get key =
    Object.get [("name", .string call.name), ("arguments", .object call.arguments)] key

/-- The message names the tool, and its arguments are those of the call as a JSON value. -/
def Carries (msg : ToolCallMsg) : Prop :=
  msg.name = call.name ∧ serde.fromStr msg.arguments.toList = .ok (.object call.arguments)

end ToolCall

/-- Calls, each with the plain text before it, and the plain text behind the last. -/
def completion (pieces : List (List Char × ToolCall)) (tail : List Char) : List Char :=
  woven tagOpen tagClose (pieces.map fun p => (p.1, p.2.text serde)) tail

def Recovers (pieces : List (List Char × ToolCall)) (tail : List Char) : Prop :=
  List.Forall₂ (fun msg p => ToolCall.Carries serde p.2 msg)
    ((parseToolCalls serde isAlphanumeric (completion serde pieces tail)
      .tagDelimited).calls.getD []) pieces

variable {serde isAlphanumeric} {call : ToolCall}

theorem solitary_tagOpen : Solitary tagOpen := ⟨'<', "tool_call>".toList, rfl, by decide⟩

theorem solitary_tagClose : Solitary tagClose := ⟨'<', "/tool_call>".toList, rfl, by decide⟩

theorem ToolCall.trim_text : trim (call.text serde) = call.text serde :=
  (Flush.between (by decide) (by decide) _).trim

theorem ToolCall.Exact.tagCall (h : call.Exact serde) :
    tagCall serde (call.text serde) = .ok (call.message serde) := by
  obtain ⟨o, hparse, hget⟩ := h.fields
  have hname : o.get "name" = some (.string call.name) := hget "name"
  have harguments : o.get "arguments" = some (.object call.arguments) := hget "arguments"
  have hfunction : o.get "function" = none := hget "function"
  have hid : o.get "id" = none := hget "id"
  have hcall : extractCall serde (call.text serde) = some (call.message serde) := by
    simp [extractCall, hparse, extractCallValue, hfunction, hname, harguments, hid,
      ToolCall.message]
  rw [Server.tagCall, ToolCall.trim_text, hcall]

theorem foldl_push {α : Type*} {f : α → Except String ToolCallMsg} {g : α → ToolCallMsg} :
    ∀ {xs : List α} (st : List ToolCallMsg × Option String), (∀ x ∈ xs, f x = .ok (g x)) →
      xs.foldl (fun st x => push st (f x)) st = (st.1 ++ xs.map g, st.2)
  | [], st, _ => by simp
  | x :: xs, st, h => by
    obtain ⟨hx, hxs⟩ := forall_mem_cons.1 h
    rw [foldl_cons, hx, foldl_push _ hxs, push, map_cons, append_assoc,
      singleton_append]

variable {pieces : List (List Char × ToolCall)} {tail : List Char}

theorem parseTagDelimited_completion (hserde : ∀ p ∈ pieces, p.2.Exact serde)
    (hplain : ∀ p ∈ pieces, ¬tagOpen <:+: p.1) (htail : ¬tagOpen <:+: tail)
    (hclose : ∀ p ∈ pieces, ¬tagClose <:+: p.2.text serde) :
    parseTagDelimited serde (completion serde pieces tail) =
      outcome (pieces.map fun p => p.2.message serde, none) := by
  have hcut : ∀ q ∈ pieces.map (fun p => (p.1, p.2.text serde)),
      ¬tagOpen <:+: q.1 ∧ ¬tagClose <:+: q.2 :=
    forall_mem_map.2 fun p hp => ⟨hplain p hp, hclose p hp⟩
  rw [parseTagDelimited, completion, between_woven solitary_tagOpen solitary_tagClose htail hcut]
  dsimp only
  rw [map_map, foldl_map]
  exact congrArg outcome (foldl_push ([], none) fun p hp => (hserde p hp).tagCall)

theorem parseToolCalls_of_tag {text : List Char} {o : ParseOutcome}
    (h : parseTagDelimited serde text = o) (hcalls : o.calls.isSome) :
    parseToolCalls serde isAlphanumeric text .tagDelimited = o := by
  simp [parseToolCalls, h, hcalls]

theorem calls_parseToolCalls_of_tag_none {text : List Char}
    (h : (parseTagDelimited serde text).calls = none) :
    (parseToolCalls serde isAlphanumeric text .tagDelimited).calls =
      (parseBareJson serde text).calls.or (parseBracketCall serde isAlphanumeric text).calls := by
  rcases hbare : (parseBareJson serde text).calls with _ | calls <;>
    rcases hbracket : (parseBracketCall serde isAlphanumeric text).calls with _ | calls <;>
    simp [parseToolCalls, h, hbare, hbracket]

/-- Calls whose texts hold no closing tag are all returned, in their order; of a text without a
call, what the other conventions find in it. -/
theorem parseToolCalls_recovers (isAlphanumeric : Char → Bool)
    (hserde : ∀ p ∈ pieces, p.2.Exact serde) (hplain : ∀ p ∈ pieces, ¬tagOpen <:+: p.1)
    (htail : ¬tagOpen <:+: tail) (hclose : ∀ p ∈ pieces, ¬tagClose <:+: p.2.text serde) :
    (pieces ≠ [] → Recovers serde isAlphanumeric pieces tail) ∧
      (pieces = [] → (parseToolCalls serde isAlphanumeric (completion serde pieces tail)
        .tagDelimited).calls = (parseBareJson serde tail).calls.or
          (parseBracketCall serde isAlphanumeric tail).calls) := by
  have htag := parseTagDelimited_completion hserde hplain htail hclose
  refine ⟨fun hne => ?_, ?_⟩
  · have hcalls : (outcome (pieces.map fun p => p.2.message serde, none)).calls =
        some (pieces.map fun p => p.2.message serde) := if_neg (by simpa using hne)
    rw [Recovers, parseToolCalls_of_tag htag (by rw [hcalls]; rfl), hcalls, Option.getD_some,
      List.forall₂_map_left_iff, List.forall₂_same]
    exact fun p hp => ⟨rfl, (hserde p hp).arguments⟩
  · rintro rfl
    exact calls_parseToolCalls_of_tag_none (by rw [htag]; rfl)

def tagged (s : String) : ToolCall := ⟨"f", [("s", .string s)]⟩

def printTagged : Value → String
  | .string s => "\"" ++ s ++ "\""
  | .object [(key, .string s)] => "\x7b\"" ++ key ++ "\":\"" ++ s ++ "\"\x7d"
  | _ => "null"

/-- What `serde_json` does with the texts of the call, and with a text that is cut off. -/
def taggedSerde (s : String) : SerdeStr where
  toString := printTagged
  fromStr := fun text =>
    if text = (printTagged (.object (tagged s).arguments)).toList then
      .ok (.object (tagged s).arguments)
    else if text = (tagged s).text ⟨fun _ => .error "", printTagged⟩ then
      .ok (.object [("name", .string "f"), ("arguments", .object (tagged s).arguments)])
    else .error "EOF while parsing a string"

theorem exact_tagged (s : String) : (tagged s).Exact (taggedSerde s) := by
  have hobject : (taggedSerde s).fromStr (printTagged (.object (tagged s).arguments)).toList =
      .ok (.object (tagged s).arguments) := by
    rw [taggedSerde]
    exact if_pos rfl
  have hne : (tagged s).text (taggedSerde s) ≠
      (printTagged (.object (tagged s).arguments)).toList := by
    have htext : (printTagged (.object (tagged s).arguments)).toList =
        '\x7b' :: '"' :: 's' :: ("\":\"".toList ++ s.toList ++ "\"\x7d".toList) := by
      simp only [printTagged, tagged, String.toList_append]
      rfl
    rw [htext]
    intro h
    exact absurd (List.cons.inj (List.cons.inj (List.cons.inj h).2).2).1 (by decide)
  have hcall : (taggedSerde s).fromStr ((tagged s).text (taggedSerde s)) =
      .ok (.object [("name", .string "f"), ("arguments", .object (tagged s).arguments)]) := by
    rw [taggedSerde] at hne ⊢
    exact (if_neg hne).trans (if_pos rfl)
  exact ⟨hobject, _, hcall, fun _ => rfl⟩

theorem parseToolCalls_recovers_bold :
    Recovers (taggedSerde "<b>") Char.isAlphanum
      [("Checking. ".toList, tagged "<b>")] "<i>done</i>".toList := by
  refine (parseToolCalls_recovers Char.isAlphanum ?_ ?_ ?_ ?_).1 (cons_ne_nil _ _)
  · exact forall_mem_singleton.2 (exact_tagged "<b>")
  · exact forall_mem_singleton.2 (by decide +kernel)
  · decide +kernel
  · exact forall_mem_singleton.2 (by decide +kernel)

/-- A closing tag in a string cuts the call off, and a text without a call is one where it is a
call in JSON. -/
theorem closing_tag_in_argument :
    (tagged "</tool_call>").Exact (taggedSerde "</tool_call>") ∧
      ¬Recovers (taggedSerde "</tool_call>") Char.isAlphanum [([], tagged "</tool_call>")] [] ∧
      ¬tagOpen <:+: (tagged "b").text (taggedSerde "b") ∧
      ¬Recovers (taggedSerde "b") Char.isAlphanum [] ((tagged "b").text (taggedSerde "b")) := by
  have hcut : (parseToolCalls (taggedSerde "</tool_call>") Char.isAlphanum (completion
      (taggedSerde "</tool_call>") [([], tagged "</tool_call>")] []) .tagDelimited).calls =
        none := by decide +kernel
  have hbare : (parseToolCalls (taggedSerde "b") Char.isAlphanum (completion (taggedSerde "b") []
      ((tagged "b").text (taggedSerde "b"))) .tagDelimited).calls =
        some [⟨"call_0", "f", "\x7b\"s\":\"b\"\x7d"⟩] := by decide +kernel
  refine ⟨exact_tagged _, fun h => ?_, by decide +kernel, fun h => ?_⟩
  · rw [Recovers, hcut] at h
    cases h
  · rw [Recovers, hbare] at h
    cases h

end Grim.Server
