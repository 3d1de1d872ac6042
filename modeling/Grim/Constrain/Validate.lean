import Grim.Constrain.Pattern
import Grim.Constrain.Schema
import Grim.Lib.Json.Extend

/-!
# Validating a document, and a part of one

`validate` is the validator for the supported subset.  `Conforms` is what the keywords mean, and the
validator accepts just that where it reads every schema as it is meant (`Meaning.validate_iff`).
`isConsistent` judges the text so far: what the parser takes is validated, and what it refuses for
being cut off is let through.  The parser is a parameter; `Rfc8259` says what is relied on.
-/

namespace Grim.Constrain

open JsonValue FloatFormat List
open Float.Model.UnpackedFloat

/-- `n.fract() == 0.0` -/
def fractIsZero (bits : UInt64) : Bool :=
  match unpack .binary64 bits.toBitVec with
  | .zero _ => true
  | .finite _ m e _ => 0 ≤ e || m % 2 ^ e.natAbs = 0
  | _ => false

/-- `==` of two `f64`. -/
def f64Eq (a b : UInt64) : Bool :=
  match unpack .binary64 a.toBitVec, unpack .binary64 b.toBitVec with
  | .zero _, .zero _ => true
  | .notANumber, _ => false
  | _, _ => a == b

def numberEq : Number → Number → Bool
  | .posInt a, .posInt b => a == b
  | .negInt a, .negInt b => a == b
  | .float a, .float b => f64Eq a b
  | _, _ => false

/-- `==` of two values; objects are maps. -/
def valueEq : Value → Value → Bool
  | .null, .null => true
  | .bool a, .bool b => a == b
  | .number a, .number b => numberEq a b
  | .string a, .string b => a == b
  | .array xs, .array ys =>
    xs.length == ys.length && (xs.attach.zip ys).all fun p => valueEq p.1.1 p.2
  | .object xs, .object ys =>
    xs.length == ys.length && xs.attach.all fun e =>
      match Object.get ys e.1.1 with
      | some v => valueEq e.1.2 v
      | none => false
  | _, _ => false
termination_by v => sizeOf v
decreasing_by
  · have hlt := sizeOf_lt_of_mem p.1.2
    rw [Value.array.sizeOf_spec]
    omega
  · have hlt := sizeOf_field (mem_map_of_mem e.2)
    rw [Value.object.sizeOf_spec]
    omega

def isNull : Value → Bool
  | .null => true
  | _ => false

def typeOk (value : Value) (ty : String) : Bool :=
  match ty with
  | "object" => isObject value
  | "array" => value.asArray.isSome
  | "string" => value.asStr.isSome
  | "number" => value.asF64.isSome
  | "integer" => value.asF64.any fractIsZero
  | "boolean" => value.asBool.isSome
  | "null" => isNull value
  | _ => false

/-- `validate_pattern`: a pattern that does not compile is looked for as it is written. -/
def validatePattern (pat text : List Char) : Bool :=
  match BoundedRegex.parse pat with
  | some regex => regex.matches text
  | none =>
    if pat.head? = some '^' ∧ pat.getLast? = some '$' then
      let inner := pat.tail.dropLast
      text == inner || inner.isPrefixOf text
    else if pat.head? = some '^' then pat.tail.isPrefixOf text
    else if pat.getLast? = some '$' then pat.dropLast.isSuffixOf text
    else decide (pat <:+: text)

def typeKeyword (value schema : Value) : Bool :=
  ((schema.get "type").bind Value.asStr).all (typeOk value)

def patternKeyword (value schema : Value) : Bool :=
  match (schema.get "pattern").bind Value.asStr, value.asStr with
  | some pat, some s => pat.isEmpty || validatePattern pat.toList s.toList
  | _, _ => true

def enumKeyword (value schema : Value) : Bool :=
  ((schema.get "enum").bind Value.asArray).all fun allowed => allowed.any (valueEq · value)

def requiredKeyword (obj : Object) (schema : Value) : Bool :=
  ((schema.get "required").bind Value.asArray).all fun required =>
    required.all fun r => (obj.get (r.asStr.getD "")).isSome

/-- `props.map(|p| !p.contains_key(key)).unwrap_or(true)` -/
def isAdditional (schema : Value) (key : String) : Bool :=
  ((schema.get "properties").bind Value.asObject).all fun props => (props.get key).isNone

theorem sizeOf_get_value {v w : Value} {key : String} (h : v.get key = some w) :
    sizeOf w < sizeOf v := by
  obtain ⟨map, hmap, hget⟩ := Option.bind_eq_some_iff.1 h
  have hlt := sizeOf_get hget
  cases v <;> cases hmap
  rw [Value.object.sizeOf_spec]
  omega

theorem sizeOf_get_array {v s : Value} {key : String} {vs : List Value}
    (h : (v.get key).bind Value.asArray = some vs) (hs : s ∈ vs) : sizeOf s < sizeOf v := by
  obtain ⟨w, hw, harr⟩ := Option.bind_eq_some_iff.1 h
  have hlt := sizeOf_get_value hw
  have hmem := sizeOf_lt_of_mem hs
  cases w <;> cases harr
  rw [Value.array.sizeOf_spec] at hlt
  omega

theorem sizeOf_get_object {v : Value} {key : String} {m : Object} {e : String × Value}
    (h : (v.get key).bind Value.asObject = some m) (he : e ∈ m) : sizeOf e.2 < sizeOf v := by
  obtain ⟨w, hw, hobj⟩ := Option.bind_eq_some_iff.1 h
  have hlt := sizeOf_get_value hw
  have hmem := sizeOf_field (mem_map_of_mem he)
  cases w <;> cases hobj
  rw [Value.object.sizeOf_spec] at hlt
  omega

/-- `validate` -/
def validate (value schema : Value) : Bool :=
  typeKeyword value schema && patternKeyword value schema && enumKeyword value schema
  && (match _h : (schema.get "oneOf").bind Value.asArray with
    | some variants => variants.attach.countP (fun s => validate value s.1) == 1
    | none => true)
  && (match _h : (schema.get "anyOf").bind Value.asArray with
    | some variants => variants.attach.any fun s => validate value s.1
    | none => true)
  && (match _h : (schema.get "allOf").bind Value.asArray with
    | some variants => variants.attach.all fun s => validate value s.1
    | none => true)
  && (match value.asObject with
    | some obj =>
      (match _h : (schema.get "properties").bind Value.asObject with
      | some props => props.attach.all fun e =>
        match obj.get e.1.1 with
        | some val => validate val e.1.2
        | none => true
      | none => true)
      && requiredKeyword obj schema
      && (match _h : schema.get "additionalProperties" with
      | some additional =>
        match additional.asBool with
        | some allowed => allowed || obj.all fun e => !isAdditional schema e.1
        | none => if isObject additional then
            obj.all fun e => !isAdditional schema e.1 || validate e.2 additional
          else true
      | none => true)
    | none => true)
  && (match value.asArray with
    | some arr =>
      match _h : schema.get "items" with
      | some items => arr.all fun item => validate item items
      | none => true
    | none => true)
termination_by sizeOf schema
decreasing_by
  · exact sizeOf_get_array _h s.2
  · exact sizeOf_get_array _h s.2
  · exact sizeOf_get_array _h s.2
  · exact sizeOf_get_object _h e.2
  · exact sizeOf_get_value _h
  · exact sizeOf_get_value _h

variable {value schema : Value}

/-- The keywords of the validator, one after the other. -/
theorem validate_eq_true : validate value schema = true ↔
    (typeKeyword value schema = true ∧ patternKeyword value schema = true
      ∧ enumKeyword value schema = true)
    ∧ (∀ variants, (schema.get "oneOf").bind Value.asArray = some variants →
        variants.countP (validate value) = 1)
    ∧ (∀ variants, (schema.get "anyOf").bind Value.asArray = some variants →
        ∃ s ∈ variants, validate value s = true)
    ∧ (∀ variants, (schema.get "allOf").bind Value.asArray = some variants →
        ∀ s ∈ variants, validate value s = true)
    ∧ (∀ obj, value.asObject = some obj →
        (∀ props, (schema.get "properties").bind Value.asObject = some props →
          ∀ e ∈ props, ∀ val, obj.get e.1 = some val → validate val e.2 = true)
        ∧ requiredKeyword obj schema = true
        ∧ ∀ s, schema.get "additionalProperties" = some s → ∀ e ∈ obj,
          isAdditional schema e.1 = true →
            s ≠ .bool false ∧ (isObject s = true → validate e.2 s = true))
    ∧ (∀ arr, value.asArray = some arr → ∀ s, schema.get "items" = some s →
        ∀ item ∈ arr, validate item s = true) := by
  rw [validate]
  simp only [Bool.and_eq_true, and_assoc]
  refine and_congr_right fun _ => and_congr_right fun _ => and_congr_right fun _ =>
    and_congr ?_ (and_congr ?_ (and_congr ?_ (and_congr ?_ ?_)))
  · split
    next variants h => simp [h, countP_attach]
    next h => simp [h]
  · split
    next variants h => simp [h]
    next h => simp [h]
  · split
    next variants h => simp [h]
    next h => simp [h]
  · split
    next obj hobj =>
      simp only [hobj, Bool.and_eq_true, Option.some.injEq, forall_eq', and_assoc]
      refine and_congr ?_ (and_congr_right fun _ => ?_)
      · split
        next props h =>
          simp only [h, Option.some.injEq, forall_eq', all_eq_true, mem_attach,
            true_implies, Subtype.forall]
          refine forall₂_congr fun e he => ?_
          cases obj.get e.1 <;> simp
        next h => simp [h]
      · split
        next s h =>
          simp only [h, Option.some.injEq, forall_eq']
          rcases s with _ | (_ | _) | _ | _ | _ | _ <;>
            simp [Value.asBool, isObject, Value.asObject, or_iff_not_imp_left]
        next h => simp [h]
    next h => simp [h]
  · split
    next arr harr =>
      split
      next items h => simp [harr, h]
      next h => simp [h]
    next h => simp [h]

/-- What a schema leaves to others: the texts a pattern stands for, when two values are the same,
and which numbers are integers. -/
structure Meaning where
  stands : String → String → Prop
  same : Value → Value → Prop
  integral : Number → Prop

namespace Meaning

variable {m : Meaning}

def HasType (m : Meaning) : Value → String → Prop
  | .null, ty => ty = "null"
  | .bool _, ty => ty = "boolean"
  | .number n, ty => ty = "number" ∨ ty = "integer" ∧ m.integral n
  | .string _, ty => ty = "string"
  | .array _, ty => ty = "array"
  | .object _, ty => ty = "object"

structure Asserts (m : Meaning) (value schema : Value) : Prop where
  schema_ne : schema ≠ .bool false
  type : ∀ ty, (schema.get "type").bind Value.asStr = some ty → m.HasType value ty
  types : ∀ tys, (schema.get "type").bind Value.asArray = some tys →
    ∃ ty, .string ty ∈ tys ∧ m.HasType value ty
  pattern : ∀ pat text, (schema.get "pattern").bind Value.asStr = some pat →
    value.asStr = some text → m.stands pat text
  enum : ∀ allowed, (schema.get "enum").bind Value.asArray = some allowed →
    ∃ a ∈ allowed, m.same a value
  required : ∀ names obj name, (schema.get "required").bind Value.asArray = some names →
    value.asObject = some obj → .string name ∈ names → (obj.get name).isSome = true

open scoped Classical in
/-- The value conforms to the schema, as the supported keywords are meant. -/
def Conforms (m : Meaning) (value schema : Value) : Prop :=
  m.Asserts value schema
  ∧ (∀ variants (_ : (schema.get "oneOf").bind Value.asArray = some variants),
      variants.attach.countP (fun s => decide (m.Conforms value s.1)) = 1)
  ∧ (∀ variants (_ : (schema.get "anyOf").bind Value.asArray = some variants),
      ∃ s, ∃ _ : s ∈ variants, m.Conforms value s)
  ∧ (∀ variants (_ : (schema.get "allOf").bind Value.asArray = some variants),
      ∀ s (_ : s ∈ variants), m.Conforms value s)
  ∧ (∀ obj, value.asObject = some obj →
      (∀ props (_ : (schema.get "properties").bind Value.asObject = some props),
        ∀ e (_ : e ∈ props), ∀ val, obj.get e.1 = some val → m.Conforms val e.2)
      ∧ ∀ s (_ : schema.get "additionalProperties" = some s), ∀ e ∈ obj,
        isAdditional schema e.1 = true → m.Conforms e.2 s)
  ∧ (∀ arr, value.asArray = some arr → ∀ s (_ : schema.get "items" = some s),
      ∀ item ∈ arr, m.Conforms item s)
termination_by sizeOf schema
decreasing_by
  · exact sizeOf_get_array ‹_› s.2
  · exact sizeOf_get_array ‹_› ‹_›
  · exact sizeOf_get_array ‹_› ‹_›
  · exact sizeOf_get_object ‹_› ‹_›
  · exact sizeOf_get_value ‹_›
  · exact sizeOf_get_value ‹_›

/-- A part of a value with a schema that is applied to it, and what the schema's own subschemas are
applied to. -/
inductive Applies : Value × Value → Value × Value → Prop
  | variant {v schema s : Value} {key : String} {variants : List Value} :
      key ∈ ["oneOf", "anyOf", "allOf"] → (schema.get key).bind Value.asArray = some variants →
      s ∈ variants → Applies (v, schema) (v, s)
  | property {v schema w : Value} {obj props : Object} {e : String × Value} :
      v.asObject = some obj → (schema.get "properties").bind Value.asObject = some props →
      e ∈ props → obj.get e.1 = some w → Applies (v, schema) (w, e.2)
  | additional {v schema s : Value} {obj : Object} {e : String × Value} :
      v.asObject = some obj → schema.get "additionalProperties" = some s → isObject s = true →
      e ∈ obj → isAdditional schema e.1 = true → Applies (v, schema) (e.2, s)
  | item {v schema s w : Value} {arr : List Value} :
      v.asArray = some arr → schema.get "items" = some s → w ∈ arr → Applies (v, schema) (w, s)

/-- The validator takes the keywords of one schema as they are meant: its pattern is matched as it
stands, the values of its enum are compared as they are the same, its integers are the integers,
its type is no list, its required names are texts, and it is not `false`. -/
structure ReadAsMeant (m : Meaning) (value schema : Value) : Prop where
  schema_ne : schema ≠ .bool false
  type : (schema.get "type").bind Value.asArray = none
  integer : ∀ n, value = .number n → (fractIsZero n.asF64 = true ↔ m.integral n)
  pattern : ∀ pat text, (schema.get "pattern").bind Value.asStr = some pat →
    value.asStr = some text →
      ((pat.isEmpty || validatePattern pat.toList text.toList) = true ↔ m.stands pat text)
  enum : ∀ allowed, (schema.get "enum").bind Value.asArray = some allowed → ∀ a ∈ allowed,
    (valueEq a value = true ↔ m.same a value)
  required : ∀ names, (schema.get "required").bind Value.asArray = some names → ∀ r ∈ names,
    ∃ name, r = .string name

/-- Every schema that is applied to a part of the value is read as it is meant. -/
def Faithful (m : Meaning) (value schema : Value) : Prop :=
  ∀ q, Relation.ReflTransGen Applies (value, schema) q → m.ReadAsMeant q.1 q.2

theorem Faithful.applies {q : Value × Value} (h : m.Faithful value schema)
    (hq : Applies (value, schema) q) : m.Faithful q.1 q.2 :=
  fun _ hr => h _ (.head hq hr)

theorem Faithful.intro (h : m.ReadAsMeant value schema)
    (hsub : ∀ q, Applies (value, schema) q → m.Faithful q.1 q.2) : m.Faithful value schema := by
  intro q hq
  rcases hq.cases_head with rfl | ⟨p, hp, hrest⟩
  · exact h
  · exact hsub p hp q hrest

theorem Faithful.of_flat (h : m.ReadAsMeant value schema)
    (hflat : ∀ key ∈ ["oneOf", "anyOf", "allOf", "properties", "additionalProperties", "items"],
      schema.get key = none) : m.Faithful value schema := by
  refine .intro h fun q hq => ?_
  cases hq with
  | variant hkey hvars =>
    simp only [mem_cons, not_mem_nil, or_false] at hkey
    rcases hkey with rfl | rfl | rfl <;> simp [hflat] at hvars
  | property _ hprops => simp [hflat "properties" (by simp)] at hprops
  | additional _ hadd => simp [hflat "additionalProperties" (by simp)] at hadd
  | item _ hitems => simp [hflat "items" (by simp)] at hitems

theorem typeOk_iff {ty : String}
    (h : ∀ n, value = .number n → (fractIsZero n.asF64 = true ↔ m.integral n)) :
    typeOk value ty = true ↔ m.HasType value ty := by
  unfold typeOk
  cases value with
  | number n =>
    have hn := h n rfl
    split <;> simp_all [HasType, isObject, isNull, Value.asObject, Value.asArray, Value.asStr,
      Value.asBool, Value.asF64]
  | _ =>
    split <;> simp_all [HasType, isObject, isNull, Value.asObject, Value.asArray, Value.asStr,
      Value.asBool, Value.asF64]

namespace ReadAsMeant

theorem typeKeyword_iff (h : m.ReadAsMeant value schema) : typeKeyword value schema = true ↔
    ∀ ty, (schema.get "type").bind Value.asStr = some ty → m.HasType value ty := by
  rw [typeKeyword]
  cases (schema.get "type").bind Value.asStr <;> simp [typeOk_iff h.integer]

theorem patternKeyword_iff (h : m.ReadAsMeant value schema) : patternKeyword value schema = true ↔
    ∀ pat text, (schema.get "pattern").bind Value.asStr = some pat → value.asStr = some text →
      m.stands pat text := by
  rw [patternKeyword]
  split
  next pat text hpat htext =>
    rw [h.pattern pat text hpat htext]
    simp [hpat, htext]
  next hnone =>
    exact iff_of_true rfl fun pat text hpat htext => (hnone pat text hpat htext).elim

theorem enumKeyword_iff (h : m.ReadAsMeant value schema) : enumKeyword value schema = true ↔
    ∀ allowed, (schema.get "enum").bind Value.asArray = some allowed →
      ∃ a ∈ allowed, m.same a value := by
  have hsame := h.enum
  rw [enumKeyword]
  cases henum : (schema.get "enum").bind Value.asArray with
  | none => simp
  | some allowed =>
    simp only [Option.all_some, any_eq_true, Option.some.injEq, forall_eq']
    exact exists_congr fun a => and_congr_right (hsame allowed henum a)

theorem requiredKeyword_iff (h : m.ReadAsMeant value schema) (obj : Object) :
    requiredKeyword obj schema = true ↔ ∀ names name,
      (schema.get "required").bind Value.asArray = some names → .string name ∈ names →
        (obj.get name).isSome = true := by
  have htexts := h.required
  rw [requiredKeyword]
  cases hrequired : (schema.get "required").bind Value.asArray with
  | none => simp
  | some names =>
    simp only [Option.all_some, all_eq_true, Option.some.injEq]
    constructor
    · rintro hall _ name rfl hmem
      exact hall _ hmem
    · intro hall r hmem
      obtain ⟨name, rfl⟩ := htexts names hrequired r hmem
      exact hall names name rfl hmem

theorem asserts_iff (h : m.ReadAsMeant value schema) : m.Asserts value schema ↔
    (typeKeyword value schema = true ∧ patternKeyword value schema = true
      ∧ enumKeyword value schema = true)
    ∧ ∀ obj, value.asObject = some obj → requiredKeyword obj schema = true := by
  constructor
  · intro ha
    exact ⟨⟨h.typeKeyword_iff.2 ha.type, h.patternKeyword_iff.2 ha.pattern,
      h.enumKeyword_iff.2 ha.enum⟩, fun obj hobj => (h.requiredKeyword_iff obj).2
        fun names name hnames => ha.required names obj name hnames hobj⟩
  · rintro ⟨⟨htype, hpattern, henum⟩, hrequired⟩
    exact ⟨h.schema_ne, h.typeKeyword_iff.1 htype, fun tys htys => by simp [h.type] at htys,
      h.patternKeyword_iff.1 hpattern, h.enumKeyword_iff.1 henum, fun names obj name hnames hobj =>
        (h.requiredKeyword_iff obj).1 (hrequired obj hobj) names name hnames⟩

end ReadAsMeant

theorem conforms_of_not_object (h : isObject schema = false) (hne : schema ≠ .bool false) :
    m.Conforms value schema := by
  have hget : ∀ key, schema.get key = none := fun key => by
    cases schema <;> first | rfl | cases h
  rw [Conforms]
  refine ⟨⟨hne, ?_, ?_, ?_, ?_, ?_⟩, ?_, ?_, ?_, ?_, ?_⟩ <;> simp [hget]

open scoped Classical in
/-- Where every schema is read as it is meant, the validator accepts just the values that conform.
-/
theorem validate_iff : ∀ (schema value : Value), m.Faithful value schema →
    (validate value schema = true ↔ m.Conforms value schema)
  | schema, value, h => by
    have hvariant : ∀ key ∈ ["oneOf", "anyOf", "allOf"], ∀ variants,
        (schema.get key).bind Value.asArray = some variants → ∀ s ∈ variants,
          (validate value s = true ↔ m.Conforms value s) := fun key hkey variants hvars s hs =>
      have := sizeOf_get_array hvars hs
      validate_iff s value (h.applies (.variant hkey hvars hs))
    have hadditional : ∀ obj, value.asObject = some obj → ∀ s,
        schema.get "additionalProperties" = some s → ∀ e ∈ obj, isAdditional schema e.1 = true →
          (s ≠ .bool false ∧ (isObject s = true → validate e.2 s = true) ↔ m.Conforms e.2 s) := by
      intro obj hobj s hs e he hkey
      have := sizeOf_get_value hs
      cases hiso : isObject s with
      | true =>
        rw [← validate_iff s e.2 (h.applies (.additional hobj hs hiso he hkey))]
        refine ⟨fun hv => hv.2 rfl, fun hv => ⟨?_, fun _ => hv⟩⟩
        rintro rfl
        cases hiso
      | false =>
        refine ⟨fun hv => conforms_of_not_object hiso hv.1, fun hv => ⟨?_, nofun⟩⟩
        rw [Conforms] at hv
        exact hv.1.schema_ne
    have hone : (∀ variants, (schema.get "oneOf").bind Value.asArray = some variants →
        variants.countP (validate value) = 1) ↔
        ∀ variants, (schema.get "oneOf").bind Value.asArray = some variants →
          variants.attach.countP (fun s => decide (m.Conforms value s.1)) = 1 := by
      refine forall₂_congr fun variants hvars => ?_
      rw [← countP_attach]
      refine Eq.congr (countP_congr fun s _ => ?_) rfl
      rw [hvariant "oneOf" (by simp) variants hvars s.1 s.2, decide_eq_true_iff]
    have hany : (∀ variants, (schema.get "anyOf").bind Value.asArray = some variants →
        ∃ s ∈ variants, validate value s = true) ↔
        ∀ variants, (schema.get "anyOf").bind Value.asArray = some variants →
          ∃ s, ∃ _ : s ∈ variants, m.Conforms value s :=
      forall₂_congr fun variants hvars => exists_congr fun s => by
        rw [exists_prop]
        exact and_congr_right (hvariant "anyOf" (by simp) variants hvars s)
    have hall : (∀ variants, (schema.get "allOf").bind Value.asArray = some variants →
        ∀ s ∈ variants, validate value s = true) ↔
        ∀ variants, (schema.get "allOf").bind Value.asArray = some variants →
          ∀ s, s ∈ variants → m.Conforms value s :=
      forall₂_congr fun variants hvars => forall₂_congr (hvariant "allOf" (by simp) variants hvars)
    have hitems : (∀ arr, value.asArray = some arr → ∀ s, schema.get "items" = some s →
        ∀ item ∈ arr, validate item s = true) ↔
        ∀ arr, value.asArray = some arr → ∀ s, schema.get "items" = some s →
          ∀ item ∈ arr, m.Conforms item s :=
      forall₂_congr fun arr harr => forall₂_congr fun s hs => forall₂_congr fun item hitem =>
        have := sizeOf_get_value hs
        validate_iff s item (h.applies (.item harr hs hitem))
    have hfields : ∀ obj, value.asObject = some obj →
        ((∀ props, (schema.get "properties").bind Value.asObject = some props →
          ∀ e ∈ props, ∀ val, obj.get e.1 = some val → validate val e.2 = true) ↔
        ∀ props, (schema.get "properties").bind Value.asObject = some props →
          ∀ e ∈ props, ∀ val, obj.get e.1 = some val → m.Conforms val e.2) :=
      fun obj hobj => forall₂_congr fun props hprops => forall₂_congr fun e he =>
        forall₂_congr fun val hval =>
          have := sizeOf_get_object hprops he
          validate_iff e.2 val (h.applies (.property hobj hprops he hval))
    have hread : m.ReadAsMeant value schema := h _ .refl
    rw [validate_eq_true, Conforms, hread.asserts_iff, hone, hany, hall, hitems]
    constructor
    · rintro ⟨hleaf, hone, hany, hall, hobject, hitems⟩
      exact ⟨⟨hleaf, fun obj ho => (hobject obj ho).2.1⟩, hone, hany, hall, fun obj ho =>
        ⟨(hfields obj ho).1 (hobject obj ho).1, fun s hs e he hkey =>
          (hadditional obj ho s hs e he hkey).1 ((hobject obj ho).2.2 s hs e he hkey)⟩, hitems⟩
    · rintro ⟨⟨hleaf, hrequired⟩, hone, hany, hall, hobject, hitems⟩
      exact ⟨hleaf, hone, hany, hall, fun obj ho => ⟨(hfields obj ho).2 (hobject obj ho).1,
        hrequired obj ho, fun s hs e he hkey => (hadditional obj ho s hs e he hkey).2
          ((hobject obj ho).2 s hs e he hkey)⟩, hitems⟩
termination_by schema => sizeOf schema

end Meaning

/-- `serde_json::from_str`, with the error as it is displayed. -/
abbrev Parser := List Char → Except String Value

def contains (text pat : String) : Bool := decide (pat.toList <:+: text.toList)

def isTruncatedError (msg : String) : Bool :=
  contains msg "EOF" || contains msg "trailing" || contains msg "expected"
    || contains msg "control character"

namespace CompiledSchema

def Accepts (comp : CompiledSchema) (v : Value) : Prop := validate v comp.schema = true

/-- `is_consistent` -/
def isConsistent (comp : CompiledSchema) (parse : Parser) (partialJson : List Char) : Bool :=
  match parse partialJson with
  | .ok value => validate value comp.schema
  | .error e => isTruncatedError e

end CompiledSchema

/-- The parser takes exactly the JSON texts, does not mind insignificant whitespace, and says of a
text cut off that it has met its end. -/
structure Rfc8259 (parse : Parser) : Prop where
  ok_iff : ∀ t, (∃ v, parse t = .ok v) ↔ Json.Text t
  eof : ∀ t x m, parse t = .error m → Json.Text (t ++ x) → contains m "EOF" = true
  leading : ∀ w t, Json.Ws w → Json.Text t → parse (w ++ t) = parse t
  trailing : ∀ t w, Json.Text t → Json.Ws w → parse (t ++ w) = parse t
  around : ∀ p c s w w', Json.IsMark c → Json.Whole p → Json.Text (p ++ c :: s) → Json.Ws w →
    Json.Ws w' → parse (p ++ w ++ c :: (w' ++ s)) = parse (p ++ c :: s)

variable {m : Meaning} {parse : Parser} {comp : CompiledSchema} {d p : List Char} {v : Value}

namespace CompiledSchema

theorem isConsistent_of_ok (h : parse p = .ok v) :
    comp.isConsistent parse p = true ↔ comp.Accepts v := by
  rw [isConsistent, h]
  exact Iff.rfl

theorem isConsistent_of_not_text (hserde : Rfc8259 parse) (hd : Json.Text d) (hp : p <+: d)
    (hnot : ¬ Json.Text p) : comp.isConsistent parse p = true := by
  obtain ⟨x, rfl⟩ := hp
  cases hparse : parse p with
  | ok v => exact absurd ((hserde.ok_iff p).1 ⟨v, hparse⟩) hnot
  | error m =>
    have heof := hserde.eof p x m hparse hd
    rw [isConsistent, hparse]
    simp [isTruncatedError, heof]

/-- The value of a part of the text, from its start, that is a number by itself. -/
def NumberPrefix (parse : Parser) (d : List Char) (u : Value) : Prop :=
  ∃ p, p <+: d ∧ Json.NumberText p ∧ parse p = .ok u

theorem prefixes_iff (hserde : Rfc8259 parse) (hparse : parse d = .ok v) (hacc : comp.Accepts v) :
    (∀ p, p <+: d → comp.isConsistent parse p = true) ↔
      ∀ u, NumberPrefix parse d u → comp.Accepts u := by
  have hd : Json.Text d := (hserde.ok_iff d).1 ⟨v, hparse⟩
  constructor
  · rintro h u ⟨p, hp, -, hu⟩
    exact (isConsistent_of_ok hu).1 (h p hp)
  · intro h p hp
    by_cases htext : Json.Text p
    · obtain ⟨u, hu⟩ := (hserde.ok_iff p).2 htext
      rw [isConsistent_of_ok hu]
      obtain ⟨x, rfl⟩ := hp
      rcases htext.extend hd with hws | ⟨hnum, -⟩
      · rw [hserde.trailing p x htext hws, hu] at hparse
        exact Except.ok.inj hparse ▸ hacc
      · exact h u ⟨p, prefix_append p x, hnum, hu⟩
    · exact isConsistent_of_not_text hserde hd hp htext

end CompiledSchema

open scoped Classical in
/-- Takes the JSON texts, and reads their characters other than whitespace as `g` does. -/
noncomputable def parserOf (g : List Char → Value) : Parser := fun t =>
  if Json.Text t then .ok (g (t.filter fun c => ¬ Json.IsWs c))
  else .error "EOF while parsing a value at line 1 column 0"

variable {g : List Char → Value}

theorem parserOf_text (h : Json.Text d) :
    parserOf g d = .ok (g (d.filter fun c => ¬ Json.IsWs c)) := if_pos h

theorem filter_ws {w : List Char} (h : Json.Ws w) : w.filter (fun c => ¬ Json.IsWs c) = [] := by
  rw [filter_eq_nil_iff]
  intro c hc
  simpa using h c hc

theorem rfc8259_parserOf (g : List Char → Value) : Rfc8259 (parserOf g) where
  ok_iff t := by
    unfold parserOf
    split_ifs with h <;> simp [h]
  eof t x m h _ := by
    unfold parserOf at h
    split_ifs at h
    cases h
    decide
  leading w t hw ht := by
    rw [parserOf_text ht, parserOf_text (ht.ws_append hw), filter_append, filter_ws hw,
      nil_append]
  trailing t w ht hw := by
    rw [parserOf_text ht, parserOf_text (ht.append_ws hw), filter_append, filter_ws hw,
      append_nil]
  around p c s w w' hc hp ht hw hw' := by
    rw [parserOf_text ht, parserOf_text (ht.insert hc hp hw hw')]
    simp only [filter_append, filter_cons, filter_ws hw, filter_ws hw', append_nil,
      nil_append]

theorem number_digits {cs : List Char} (hne : cs ≠ [])
    (hdigits : (cs.all fun c => decide (Json.IsDigit c)) = true) (hhead : cs.head? ≠ some '0') :
    Json.Number cs :=
  ⟨[], cs, [], [], by simp, .inl rfl, .inr ⟨⟨hne, by simpa using hdigits⟩, hhead⟩, .inl rfl,
    .inl rfl⟩

def literally : Meaning where
  stands pat text := pat.toList <:+: text.toList
  same := Eq
  integral n := ∀ bits, n ≠ .float bits

def enumTwelve : Value := .object [("enum", .array [.u64 12])]

theorem faithful_twelve : literally.Faithful (.u64 12) enumTwelve := by
  refine .of_flat ⟨by simp [enumTwelve], rfl, fun n hn => ?_, by simp [enumTwelve, Object.get], ?_,
    by simp [enumTwelve, Object.get]⟩ (by decide +kernel)
  · obtain rfl := Value.number.inj hn
    exact iff_of_true (by decide +kernel) fun bits hbits => by cases hbits
  · intro allowed hallowed a ha
    cases hallowed
    obtain rfl := mem_singleton.1 ha
    exact iff_of_true (by decide +kernel) rfl

theorem faithful_integer {n : UInt64} (hn : fractIsZero (Number.posInt n).asF64 = true) :
    literally.Faithful (.u64 n) (.object [("type", .string "integer")]) := by
  refine .of_flat ⟨by simp, rfl, fun k hk => ?_, by simp [Object.get], by simp [Object.get],
    by simp [Object.get]⟩ (by decide +kernel)
  obtain rfl := Value.number.inj hk
  exact iff_of_true hn fun bits hbits => by cases hbits

noncomputable def digitsParser : Parser :=
  parserOf fun cs => if cs.length = 2 then .u64 12 else .u64 1

theorem digitsParser_number {cs : List Char} (h : Json.Number cs) :
    digitsParser cs = .ok (if cs.length = 2 then .u64 12 else .u64 1) := by
  have htext : Json.Text cs := ⟨[], cs, [], .nil, .number h, .nil, by simp⟩
  have hws : ∀ c ∈ cs, decide (¬ Json.IsWs c) = true := fun c hc => by
    simpa using (h.isWord.2 c hc).1
  rw [digitsParser, parserOf_text htext, filter_eq_self.2 hws]

theorem digitsParser_twelve : digitsParser ['1', '2'] = .ok (.u64 12) :=
  digitsParser_number (number_digits (by simp) (by decide) (by decide))

/-- An alternation does not compile, and is then looked for as it is written. -/
example : validatePattern "^(a|b)$".toList ['a'] = false := by decide +kernel

end Grim.Constrain
