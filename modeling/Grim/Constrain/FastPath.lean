import Grim.Constrain.Sampler
import Grim.Constrain.Validate

/-!
# The fast path inside strings

While the output ends inside a string and the schema does not constrain strings, the mask is the
automaton's alone.  It differs from the plain check exactly for the tokens the automaton takes that
finish the document against the schema, or spoil it for good (`mask_bit_iff`).
-/

namespace Grim.Constrain

open JsonValue List

/-- Somewhere in the schema an object has a pattern, or is of type string and has an enum. -/
inductive ConstrainsStrings : Value → Prop
  | pattern {map : Object} : (Object.get map "pattern").isSome = true →
      ConstrainsStrings (.object map)
  | enum {map : Object} : Object.get map "type" = some (.string "string") →
      (Object.get map "enum").isSome = true → ConstrainsStrings (.object map)
  | field {map : Object} {e : String × Value} : e ∈ map → ConstrainsStrings e.2 →
      ConstrainsStrings (.object map)
  | item {arr : List Value} {v : Value} : v ∈ arr → ConstrainsStrings v →
      ConstrainsStrings (.array arr)

theorem scanStringConstraints_iff : ∀ v : Value,
    scanStringConstraints v = true ↔ ConstrainsStrings v
  | .object map => by
    have hfield : ∀ e ∈ map, (scanStringConstraints e.2 = true ↔ ConstrainsStrings e.2) :=
      fun e he => by
        have hlt := sizeOf_field (mem_map_of_mem he)
        exact scanStringConstraints_iff e.2
    rw [scanStringConstraints]
    simp only [Bool.or_eq_true, Bool.and_eq_true, beq_iff_eq, any_eq_true, mem_attach,
      true_and, Subtype.exists]
    constructor
    · rintro ((hpattern | ⟨htype, henum⟩) | ⟨e, he, hscan⟩)
      · exact .pattern hpattern
      · obtain ⟨t, ht, hstr⟩ := Option.bind_eq_some_iff.1 htype
        cases t <;> cases hstr
        exact .enum ht henum
      · exact .field he ((hfield e he).1 hscan)
    · rintro (hpattern | ⟨htype, henum⟩ | ⟨he, hsub⟩ | _)
      · exact .inl (.inl hpattern)
      · exact .inl (.inr ⟨by rw [htype]; rfl, henum⟩)
      · exact .inr ⟨_, he, (hfield _ he).2 hsub⟩
  | .array arr => by
    have hitem : ∀ v ∈ arr, (scanStringConstraints v = true ↔ ConstrainsStrings v) := fun v hv => by
      have hlt := sizeOf_lt_of_mem hv
      exact scanStringConstraints_iff v
    rw [scanStringConstraints]
    simp only [any_eq_true, mem_attach, true_and, Subtype.exists]
    constructor
    · rintro ⟨v, hv, hscan⟩
      exact .item hv ((hitem v hv).1 hscan)
    · rintro (_ | _ | _ | ⟨hv, hsub⟩)
      exact ⟨_, hv, (hitem _ hv).2 hsub⟩
  | .null => iff_of_false (by simp [scanStringConstraints]) (by rintro ⟨⟩)
  | .bool _ => iff_of_false (by simp [scanStringConstraints]) (by rintro ⟨⟩)
  | .number _ => iff_of_false (by simp [scanStringConstraints]) (by rintro ⟨⟩)
  | .string _ => iff_of_false (by simp [scanStringConstraints]) (by rintro ⟨⟩)
termination_by v => sizeOf v

theorem hasStringConstraint_iff {doc : Value} {comp : CompiledSchema}
    (h : compileJsonSchema doc = .ok comp) :
    comp.hasStringConstraint = true ↔ ConstrainsStrings comp.schema := by
  rw [← scanStringConstraints_iff]
  unfold compileJsonSchema at h
  cases hobj : isObject doc with
  | false =>
    rw [hobj] at h
    cases h
  | true =>
    rw [hobj] at h
    cases hkeys : validateSchemaKeywords doc with
    | error e =>
      rw [hkeys] at h
      cases h
    | ok _ =>
      rw [hkeys] at h
      cases hrefs : resolveRefs doc 33 doc with
      | error e =>
        rw [hrefs] at h
        cases h
      | ok resolved =>
        rw [hrefs] at h
        change (checkType resolved >>= fun _ => Except.ok _) = _ at h
        cases htype : checkType resolved with
        | error e =>
          rw [htype] at h
          cases h
        | ok _ =>
          rw [htype] at h
          obtain rfl := Except.ok.inj h
          rfl

def CompiledSchema.toConstraint (comp : CompiledSchema) (parse : Parser) :
    JsonSchemaConstraint where
  isConsistent output := comp.isConsistent parse output.toList
  hasStringConstraint := comp.hasStringConstraint

variable {parse : Parser} {comp : CompiledSchema} {text : String} {vocab : List String} {i n : ℕ}

namespace ConstrainedSampler

variable {s : ConstrainedSampler}

/-- The bit of the plain check: the automaton takes the token's characters one after the other, and
the text with the token is consistent. -/
def plainBit (s : ConstrainedSampler) (comp : CompiledSchema) (parse : Parser) (text : String) :
    Bool := s.fsm.tokenIsValid text && comp.isConsistent parse (s.output ++ text).toList

/-- The text is a finished document that the schema refuses; or no document begins with it, and the
parser's words for that are not those for a text cut off. -/
inductive Spoils (parse : Parser) (schema : Value) (t : List Char) : Prop
  | document {v : Value} : Json.Text t → parse t = .ok v → validate v schema = false →
      Spoils parse schema t
  | garbage {e : String} : (∀ x, ¬ Json.Text (t ++ x)) → parse t = .error e →
      (∀ w ∈ ["EOF", "trailing", "expected", "control character"], ¬ w.toList <:+: e.toList) →
      Spoils parse schema t

/-- In a string, under a schema that constrains none, the automaton takes a token that spoils the
text. -/
structure Overlooked (s : ConstrainedSampler) (comp : CompiledSchema) (parse : Parser)
    (text : String) : Prop where
  unconstrained : ¬ ConstrainsStrings comp.schema
  inside : ¬ Json.Whole s.output.toList
  takes : s.fsm.tokenIsValid text = true
  spoils : Spoils parse comp.schema (s.output ++ text).toList

/-- What a caller can ask of a sampler: a step, or to take over text it emitted itself. -/
inductive Call
  | sample (call : Sample)
  | feedSampledToken (text : String)

def call (s : ConstrainedSampler) : Call → Option ConstrainedSampler
  | .sample c => s.sample c
  | .feedSampledToken t => some (s.feedSampledToken t)

/-- The states a sampler for a schema and a vocabulary comes to. -/
abbrev Reached (parse : Parser) (comp : CompiledSchema) (vocab : List String) :
    ConstrainedSampler → Prop :=
  Steps.Reach call (fun _ _ => True) ((new (.jsonSchema (comp.toConstraint parse))).withVocab vocab)

theorem computeMask_constraint (s : ConstrainedSampler) (n : ℕ) :
    (s.computeMask n).2.constraint = s.constraint := by
  unfold computeMask
  split
  · rfl
  · dsimp only
    split <;> rfl

theorem feedSampledTokenId_constraint (s : ConstrainedSampler) (token : ℕ) :
    (s.feedSampledTokenId token).constraint = s.constraint := by
  unfold feedSampledTokenId
  split
  · rfl
  · split <;> rfl

theorem Cached.feedSampledToken (h : s.Cached vocab) (t : String) :
    (s.feedSampledToken t).Cached vocab :=
  ⟨h.vocab_eq, h.base, h.schema⟩

theorem Cached.feedSampledTokenId (h : s.Cached vocab) (token : ℕ) :
    (s.feedSampledTokenId token).Cached vocab := by
  unfold ConstrainedSampler.feedSampledTokenId
  rw [h.vocab_eq]
  dsimp only
  split
  · exact h
  · exact h.feedSampledToken _

theorem Reached.cached (hr : Reached parse comp vocab s) :
    s.Cached vocab ∧ s.constraint = .jsonSchema (comp.toConstraint parse) := by
  refine hr.invariant
    (I := fun t => t.Cached vocab ∧ t.constraint = .jsonSchema (comp.toConstraint parse))
    ⟨(sound_new _ vocab).cached, rfl⟩ fun t c t' h _ hs => ?_
  cases c with
  | sample c =>
    obtain rfl := Option.some.inj hs
    exact ⟨(computeMask_spec h.1 _).cached.feedSampledTokenId _, by
      rw [feedSampledTokenId_constraint, computeMask_constraint, h.2]⟩
  | feedSampledToken t' =>
    obtain rfl := Option.some.inj hs
    exact ⟨h.1.feedSampledToken t', h.2⟩

theorem mask_bit (h : s.Cached vocab) (hc : s.constraint = .jsonSchema (comp.toConstraint parse))
    (hi : i < n) (htext : vocab[i]? = some text) : (s.computeMask n).1[i]? = some
      (s.fsm.tokenIsValid text && ((!comp.hasStringConstraint && insideUnterminatedString s.output)
        || comp.isConsistent parse (s.output ++ text).toList)) := by
  obtain ⟨hlen, hallowed, -, -, -⟩ := computeMask_spec h n
  have hbit := hallowed i hi
  have hlt : i < (s.computeMask n).1.length := by rwa [hlen]
  rw [getElem?_eq_getElem hlt, Option.some_inj] at hbit ⊢
  rw [Bool.eq_iff_iff, hbit, Allowed, htext]
  simp only [SchemaAllows, hc]
  simp [JsonSchemaConstraint.insideStringFastPath, CompiledSchema.toConstraint]

def flags : Json.Place → Bool × Bool
  | .outside => (false, false)
  | .inside => (true, false)
  | .escaped => (true, true)

theorem scanString_flags : ∀ (cs : List Char) (p : Json.Place),
    scanString (flags p) cs = flags (cs.foldl Json.Place.next p)
  | [], p => by cases p <;> rfl
  | c :: cs, p => by
    rw [foldl_cons, ← scanString_flags cs]
    cases p <;> by_cases hq : c = '"' <;> by_cases hb : c = '\\' <;>
      simp_all [flags, scanString, Json.Place.next]

theorem insideUnterminatedString_iff (t : String) :
    insideUnterminatedString t = true ↔ ¬ Json.Whole t.toList := by
  rw [insideUnterminatedString, show ((false, false) : Bool × Bool) = flags .outside from rfl,
    scanString_flags, Json.Whole, Json.place]
  cases t.toList.foldl Json.Place.next .outside <;> simp [flags]

theorem isTruncatedError_eq_false {e : String} : isTruncatedError e = false ↔
    ∀ w ∈ ["EOF", "trailing", "expected", "control character"], ¬ w.toList <:+: e.toList := by
  simp only [isTruncatedError, contains, Bool.or_eq_false_iff, decide_eq_false_iff_not, and_assoc,
    List.forall_mem_cons, List.not_mem_nil, false_imp_iff, implies_true, and_true]

theorem spoils_iff (hserde : Rfc8259 parse) (t : List Char) :
    Spoils parse comp.schema t ↔ comp.isConsistent parse t = false := by
  unfold CompiledSchema.isConsistent
  constructor
  · rintro (⟨-, hv, hrefused⟩ | ⟨-, he, hwords⟩)
    · rw [hv]
      exact hrefused
    · rw [he]
      exact isTruncatedError_eq_false.2 hwords
  · cases hparse : parse t with
    | ok v => exact .document ((hserde.ok_iff t).1 ⟨v, hparse⟩) hparse
    | error e =>
      intro hnot
      have hwords := isTruncatedError_eq_false.1 hnot
      refine .garbage (fun x htext => hwords "EOF" (by simp) ?_) hparse hwords
      exact of_decide_eq_true (hserde.eof t x e hparse htext)

def requiresTwo : Value := .object [("required", .array [.string "a", .string "b"])]

def closingVocab : List String := ["\x7b\"a\":\"x", "\"\x7d"]

theorem compile_requiresTwo : compileJsonSchema requiresTwo = .ok ⟨requiresTwo, false⟩ := by
  have hkeys : validateSchemaKeywords requiresTwo = .ok () := by decide +kernel
  have hscan : scanStringConstraints requiresTwo = false := by decide +kernel
  have hrefs : resolveRefs requiresTwo 33 requiresTwo = .ok requiresTwo := rfl
  rw [compileJsonSchema_eq_ok rfl hkeys hrefs rfl, hscan]

noncomputable def closingParser : Parser := parserOf fun _ => .object [("a", .string "x")]

noncomputable def closingStart : ConstrainedSampler :=
  (new (.jsonSchema (CompiledSchema.toConstraint ⟨requiresTwo, false⟩ closingParser))).withVocab
    closingVocab

theorem reached_fed (parse : Parser) (comp : CompiledSchema) (vocab : List String) (t : String) :
    ∃ s, Reached parse comp vocab s ∧ s.output = t ∧ s.fsm = (JsonState.feedToken default t).1 :=
  ⟨_, .next (.feedSampledToken t) .start trivial rfl, String.empty_append, rfl⟩

end ConstrainedSampler

end Grim.Constrain
