import Grim.Lib.Json.Value

/-!
# Compiling a schema

Two walks over the document: `validateSchemaKeywords` refuses keywords it does not know, and
`resolveRefs` puts the target of each `$ref` in its place.  The first does not follow references
and does not enter `$defs` or `definitions`.
-/

namespace Grim.Constrain

open JsonValue List Option

def supportedKeywords : List String :=
  ["type", "properties", "required", "enum", "items", "pattern", "additionalProperties", "$ref",
    "$defs", "definitions", "oneOf", "anyOf", "allOf", "description", "title", "$schema", "$id"]

def Supported (schema : Value) : Prop :=
  ∀ map ∈ schema.asObject, ∀ key ∈ map.map Prod.fst, key ∈ supportedKeywords

def checkKeys (schema : Value) : Except String Unit :=
  match (schema.asObject.getD []).find? fun e => e.1 ∉ supportedKeywords with
  | some (key, _) => .error
    ("unsupported json_schema keyword '" ++ key ++ "'; supported subset: " ++
      "type, properties, required, enum, items, pattern, additionalProperties, $ref, $defs, " ++
      "definitions, oneOf, anyOf, allOf")
  | none => .ok ()

def isObject (v : Value) : Bool := v.asObject.isSome

def subschemas : Value → List Value
  | .object map =>
    (((Object.get map "properties").bind Value.asObject).getD []).map Prod.snd
      ++ (Object.get map "items").toList
      ++ ((Object.get map "additionalProperties").filter isObject).toList
      ++ ["oneOf", "anyOf", "allOf"].flatMap fun combinator =>
        ((Object.get map combinator).bind Value.asArray).getD []
  | .array arr => arr
  | _ => []

theorem sizeOf_get {map : Object} {key : String} {v : Value} (h : map.get key = some v) :
    sizeOf v < sizeOf map := by
  obtain ⟨e, he, rfl⟩ := map_eq_some_iff.1 h
  have hmem := sizeOf_lt_of_mem (mem_of_find?_eq_some he)
  obtain ⟨k, v⟩ := e
  rw [Prod.mk.sizeOf_spec] at hmem
  dsimp only
  omega

theorem sizeOf_field {map : Object} {v : Value} (h : v ∈ map.map Prod.snd) :
    sizeOf v < sizeOf map := by
  obtain ⟨⟨k, v⟩, he, rfl⟩ := List.mem_map.1 h
  have hmem := sizeOf_lt_of_mem he
  rw [Prod.mk.sizeOf_spec] at hmem
  dsimp only
  omega

theorem sizeOf_subschemas {v sub : Value} (h : sub ∈ subschemas v) : sizeOf sub < sizeOf v := by
  cases v with
  | object map =>
    rw [Value.object.sizeOf_spec]
    simp only [subschemas, mem_append, mem_toList, mem_flatMap] at h
    rcases h with ((h | h) | h) | ⟨combinator, -, h⟩
    · rcases hp : (Object.get map "properties").bind Value.asObject with _ | props
      · simp [hp] at h
      · rw [hp] at h
        obtain ⟨w, hget, hobj⟩ := bind_eq_some_iff.1 hp
        have hlt := sizeOf_get hget
        have hfield := sizeOf_field h
        cases w <;> cases hobj
        rw [Value.object.sizeOf_spec] at hlt
        rw [getD_some] at hfield
        omega
    · have hlt := sizeOf_get h
      omega
    · have hlt := sizeOf_get (filter_eq_some_iff.1 h).1
      omega
    · rcases hc : (Object.get map combinator).bind Value.asArray with _ | arr
      · simp [hc] at h
      · rw [hc] at h
        obtain ⟨w, hget, harr⟩ := bind_eq_some_iff.1 hc
        have hlt := sizeOf_get hget
        have hmem := sizeOf_lt_of_mem h
        cases w <;> cases harr
        rw [Value.array.sizeOf_spec] at hlt
        rw [getD_some] at hmem
        omega
  | array arr =>
    rw [Value.array.sizeOf_spec]
    have hmem := sizeOf_lt_of_mem (show sub ∈ arr from h)
    omega
  | _ => simp [subschemas] at h

def validateSchemaKeywords (schema : Value) : Except String Unit := do
  checkKeys schema
  (subschemas schema).attach.forM fun sub => validateSchemaKeywords sub.1
termination_by sizeOf schema
decreasing_by exact sizeOf_subschemas sub.2

/-- `pointer[2..].split('/')`, walked from the root. -/
def walkParts (pointer : String) : List String → Value → Except String Value
  | [], current => .ok current
  | part :: parts, .object map =>
    match Object.get map part with
    | some v => walkParts pointer parts v
    | none => .error ("unresolved $ref path '" ++ part ++ "' in '" ++ pointer ++ "'")
  | part :: _, _ => .error ("cannot index into non-object path '" ++ part ++ "'")

def resolvePointer (pointer : String) (root : Value) : Except String Value :=
  match pointer.toList with
  | '#' :: '/' :: rest => walkParts pointer ((rest.splitOn '/').map String.ofList) root
  | _ => .error ("unsupported URI pointer '" ++ pointer ++ "', only '#/...' supported")

/-- The pointer of an object with a `$ref`. -/
def refOf (v : Value) : Option String := (v.get "$ref").bind Value.asStr

/-- `resolve_refs`, with the depths left: 33 at depth 0. -/
def resolveRefs (root : Value) : ℕ → Value → Except String Value
  | 0, _ => .error "circular $ref detected"
  | left + 1, .object map =>
    match refOf (.object map) with
    | some r => do
      let target ← resolvePointer r root
      resolveRefs root left target
    | none => do
      let resolved ← map.mapM fun e => do
        let v ← resolveRefs root left e.2
        return (e.1, v)
      return .object resolved
  | left + 1, .array arr => do
    let resolved ← arr.mapM (resolveRefs root left)
    return .array resolved
  | _ + 1, other => .ok other

/-- `scan_string_constraints` -/
def scanStringConstraints : Value → Bool
  | .object map =>
    let isString := ((Object.get map "type").bind Value.asStr) == some "string"
    let hasPattern := (Object.get map "pattern").isSome
    let stringEnum := isString && (Object.get map "enum").isSome
    hasPattern || stringEnum || map.attach.any fun e => scanStringConstraints e.1.2
  | .array arr => arr.attach.any fun v => scanStringConstraints v.1
  | _ => false
termination_by v => sizeOf v
decreasing_by
  · have hlt := sizeOf_field (List.mem_map_of_mem e.2)
    rw [Value.object.sizeOf_spec]
    omega
  · have hlt := sizeOf_lt_of_mem v.2
    rw [Value.array.sizeOf_spec]
    omega

def typeNames : List String :=
  ["object", "array", "string", "number", "integer", "boolean", "null"]

def checkType (resolved : Value) : Except String Unit :=
  match resolved.get "type" with
  | none => .ok ()
  | some t =>
    match t.asStr with
    | none => .error "json_schema.type must be a string"
    | some ty =>
      if ty ∈ typeNames then .ok () else .error ("unknown json_schema.type '" ++ ty ++ "'")

structure CompiledSchema where
  schema : Value
  hasStringConstraint : Bool

def compileJsonSchema (schema : Value) : Except String CompiledSchema := do
  if isObject schema = false then .error "json_schema must be a JSON object"
  validateSchemaKeywords schema
  let resolved ← resolveRefs schema 33 schema
  checkType resolved
  return ⟨resolved, scanStringConstraints resolved⟩

variable {schema root v w : Value}

theorem checkKeys_eq_ok : checkKeys schema = .ok () ↔ Supported schema := by
  unfold checkKeys Supported
  cases hobj : schema.asObject with
  | none => simp
  | some map =>
    rw [getD_some]
    split
    · rename_i key v hfind
      have hkey := find?_some hfind
      refine iff_of_false (by simp) fun hall => ?_
      have hmem := hall map rfl key (List.mem_map.2 ⟨_, mem_of_find?_eq_some hfind, rfl⟩)
      simp [hmem] at hkey
    · rename_i hfind
      refine iff_of_true rfl fun map' hmap key hkey => ?_
      obtain rfl : map = map' := Option.some.inj hmap
      obtain ⟨e, he, rfl⟩ := List.mem_map.1 hkey
      simpa using find?_eq_none.1 hfind e he

theorem forM_eq_ok {α : Type} {f : α → Except String Unit} : ∀ {l : List α},
    l.forM f = .ok () ↔ ∀ x ∈ l, f x = .ok ()
  | [] => iff_of_true rfl (by simp)
  | x :: l => by
    rw [forall_mem_cons, ← forM_eq_ok]
    show (f x >>= fun _ => l.forM f) = .ok () ↔ _
    cases f x with
    | error e => exact iff_of_false (fun h => by cases h) fun h => by cases h.1
    | ok u => exact (and_iff_right rfl).symm

theorem validateSchemaKeywords_eq_ok : validateSchemaKeywords schema = .ok () ↔
    Supported schema ∧ ∀ sub ∈ subschemas schema, validateSchemaKeywords sub = .ok () := by
  rw [validateSchemaKeywords, ← checkKeys_eq_ok]
  have hsubs : (subschemas schema).attach.forM (fun sub => validateSchemaKeywords sub.1) = .ok ()
      ↔ ∀ sub ∈ subschemas schema, validateSchemaKeywords sub = .ok () := by
    rw [forM_eq_ok]
    exact ⟨fun h sub hsub => h ⟨sub, hsub⟩ (List.mem_attach _ _), fun h sub _ => h sub.1 sub.2⟩
  rw [← hsubs]
  cases checkKeys schema with
  | error e => exact iff_of_false (fun h => by cases h) fun h => by cases h.1
  | ok u => exact (and_iff_right rfl).symm

/-- `w` stands under `v` as a sub-schema at any depth, or is `v`. -/
def Under (v w : Value) : Prop := Relation.ReflTransGen (fun a b => b ∈ subschemas a) v w

theorem validateSchemaKeywords_of_under : ∀ (n : ℕ) {v : Value}, sizeOf v ≤ n →
    (∀ w, Under v w → Supported w) → validateSchemaKeywords v = .ok ()
  | 0, v, hn, _ => by
    cases v <;> simp at hn
  | n + 1, v, hn, h => by
    refine validateSchemaKeywords_eq_ok.2 ⟨h v .refl, fun sub hsub => ?_⟩
    have hlt := sizeOf_subschemas hsub
    exact validateSchemaKeywords_of_under n (by omega) fun w hw => h w (.head hsub hw)

theorem validateSchemaKeywords_iff : validateSchemaKeywords v = .ok () ↔
    ∀ w, Under v w → Supported w := by
  refine ⟨fun h w hw => ?_, validateSchemaKeywords_of_under (sizeOf v) le_rfl⟩
  have hok : validateSchemaKeywords w = .ok () := by
    induction hw with
    | refl => exact h
    | tail _ hsub ih => exact (validateSchemaKeywords_eq_ok.1 ih).2 _ hsub
  exact (validateSchemaKeywords_eq_ok.1 hok).1

/-- The target of a `$ref`, if there is one. -/
def refTarget (root v : Value) : Option Value :=
  (refOf v).bind fun r => (resolvePointer r root).toOption

/-- A `$ref` that leads nowhere. -/
def Dangling (root v : Value) : Prop := (refOf v).isSome = true ∧ refTarget root v = none

/-- What resolution goes on with: the target of a `$ref`, else every value inside. -/
def resolveNext (root : Value) : Value → List Value
  | .object map =>
    if (refOf (.object map)).isSome then (refTarget root (.object map)).toList
    else map.map Prod.snd
  | .array arr => arr
  | _ => []

/-- Resolution meets `w` after `n` steps from `v`. -/
def Meets (root : Value) : ℕ → Value → Value → Prop
  | 0, v, w => v = w
  | n + 1, v, w => ∃ u ∈ resolveNext root v, Meets root n u w

/-- A reference met leads nowhere, or the steps are more than the depths left. -/
def Unresolvable (root : Value) (left : ℕ) (v : Value) : Prop :=
  (∃ w, Meets root left v w) ∨ ∃ n < left, ∃ w, Meets root n v w ∧ Dangling root w

theorem mapM_isOk {α β : Type} {f : α → Except String β} : ∀ {l : List α},
    (l.mapM f).isOk = true ↔ ∀ x ∈ l, (f x).isOk = true
  | [] => iff_of_true rfl (by simp)
  | x :: l => by
    rw [mapM_cons, forall_mem_cons, ← mapM_isOk]
    cases hx : f x with
    | error e => exact iff_of_false (fun h => by cases h) fun h => by cases h.1
    | ok u =>
      refine Iff.trans ?_ (and_iff_right rfl).symm
      cases l.mapM f <;> exact Iff.rfl

theorem unresolvable_succ {left : ℕ} : Unresolvable root (left + 1) v ↔
    Dangling root v ∨ ∃ u ∈ resolveNext root v, Unresolvable root left u := by
  unfold Unresolvable
  constructor
  · rintro (⟨w, u, hu, hw⟩ | ⟨n, hn, w, hw, hdangling⟩)
    · exact .inr ⟨u, hu, .inl ⟨w, hw⟩⟩
    · cases n with
      | zero =>
        obtain rfl : v = w := hw
        exact .inl hdangling
      | succ n =>
        obtain ⟨u, hu, hw⟩ := hw
        exact .inr ⟨u, hu, .inr ⟨n, by omega, w, hw, hdangling⟩⟩
  · rintro (hdangling | ⟨u, hu, ⟨w, hw⟩ | ⟨n, hn, w, hw, hdangling⟩⟩)
    · exact .inr ⟨0, by omega, v, rfl, hdangling⟩
    · exact .inl ⟨w, u, hu, hw⟩
    · exact .inr ⟨n + 1, by omega, w, ⟨u, hu, hw⟩, hdangling⟩

theorem not_dangling (h : refOf v = none) : ¬ Dangling root v := by
  rintro ⟨hsome, -⟩
  rw [h] at hsome
  cases hsome

theorem isOk_map {α β : Type} {x : Except String α} {f : α → β} :
    (x >>= fun a => Except.ok (f a)).isOk = x.isOk := by
  cases x <;> rfl

/-- Resolution succeeds unless it meets such a reference or runs out of depths. -/
theorem resolveRefs_isOk (root : Value) : ∀ {left : ℕ} {v : Value},
    (resolveRefs root left v).isOk = true ↔ ¬ Unresolvable root left v
  | 0, v => iff_of_false (by simp [resolveRefs, Except.isOk, Except.toBool])
      fun h => h (.inl ⟨v, rfl⟩)
  | left + 1, .object map => by
    rw [unresolvable_succ, resolveRefs]
    cases href : refOf (.object map) with
    | some r =>
      have htarget : refTarget root (.object map) = (resolvePointer r root).toOption := by
        rw [refTarget, href, bind_some]
      show (resolvePointer r root >>= resolveRefs root left).isOk = true ↔ _
      cases hp : resolvePointer r root with
      | error e =>
        rw [hp] at htarget
        refine iff_of_false (fun h => Bool.false_ne_true h) fun h => h (.inl ⟨?_, htarget⟩)
        rw [href, isSome_some]
      | ok target =>
        rw [hp] at htarget
        have hnext : resolveNext root (.object map) = [target] := by
          rw [resolveNext, href, htarget]
          rfl
        have hd : ¬ Dangling root (.object map) := fun h => by
          have hnone := h.2
          rw [htarget] at hnone
          cases hnone
        simp only [hnext, mem_singleton, exists_eq_left, hd, false_or]
        exact resolveRefs_isOk root
    | none =>
      have hnext : resolveNext root (.object map) = map.map Prod.snd := by
        rw [resolveNext, href]
        rfl
      simp only [hnext, not_dangling href, false_or, not_exists, not_and]
      refine (Bool.eq_iff_iff.1 isOk_map).trans (mapM_isOk.trans ?_)
      rw [List.forall_mem_map]
      exact forall₂_congr fun e _ =>
        (Bool.eq_iff_iff.1 isOk_map).trans (resolveRefs_isOk root)
  | left + 1, .array arr => by
    have href : refOf (.array arr) = none := rfl
    rw [unresolvable_succ, resolveRefs]
    simp only [resolveNext, not_dangling href, false_or, not_exists, not_and]
    exact (Bool.eq_iff_iff.1 isOk_map).trans (mapM_isOk.trans
      (forall₂_congr fun e _ => resolveRefs_isOk root))
  | left + 1, .null | left + 1, .bool _ | left + 1, .number _ | left + 1, .string _ => by
    rw [unresolvable_succ]
    refine iff_of_true rfl ?_
    rintro (hdangling | ⟨u, hu, -⟩)
    · exact not_dangling rfl hdangling
    · exact not_mem_nil hu

/-- `w` is `v`, or a sub-schema or the target of a `$ref` of what is in reach. -/
def InReach (root v w : Value) : Prop :=
  Relation.ReflTransGen (fun a b => b ∈ subschemas a ∨ refTarget root a = some b) v w

/-- No target of a `$ref` in reach has an unsupported key, on itself or under it. -/
def TargetsSupported (root : Value) : Prop :=
  ∀ v, InReach root root v → ∀ target ∈ refTarget root v, ∀ w, Under target w → Supported w

/-- The grounds on which a document is refused: no object at the root, an unsupported key met
without following a `$ref`, a reference that leads nowhere or too deep, the type at the root. -/
def Refused (schema : Value) : Prop :=
  isObject schema = false ∨ (∃ w, Under schema w ∧ ¬ Supported w) ∨ Unresolvable schema 33 schema
    ∨ ∃ resolved, resolveRefs schema 33 schema = .ok resolved ∧ ∃ t, resolved.get "type" = some t
      ∧ ∀ ty ∈ t.asStr, ty ∉ typeNames

theorem checkType_isOk : (checkType v).isOk = true ↔
    ¬ ∃ t, v.get "type" = some t ∧ ∀ ty ∈ t.asStr, ty ∉ typeNames := by
  unfold checkType
  cases ht : v.get "type" with
  | none => exact iff_of_true rfl fun ⟨t, ht, _⟩ => by cases ht
  | some t =>
    simp only [Option.some.injEq, exists_eq_left']
    cases hty : t.asStr with
    | none => exact iff_of_false Bool.false_ne_true fun h => h fun ty hty => by cases hty
    | some ty =>
      simp only [mem_some_iff, forall_eq', not_not]
      split_ifs with hmem
      · exact iff_of_true rfl hmem
      · exact iff_of_false Bool.false_ne_true hmem

theorem compileJsonSchema_isOk : (compileJsonSchema schema).isOk = true ↔ ¬ Refused schema := by
  have hkeys : (∃ w, Under schema w ∧ ¬ Supported w) ↔
      ¬ validateSchemaKeywords schema = .ok () := by
    rw [validateSchemaKeywords_iff]
    push Not
    rfl
  have hrefs : ¬ (resolveRefs schema 33 schema).isOk = true ↔ Unresolvable schema 33 schema := by
    rw [resolveRefs_isOk, not_not]
  unfold compileJsonSchema Refused
  rw [hkeys, ← hrefs]
  cases hobj : isObject schema with
  | false => exact iff_of_false Bool.false_ne_true fun h => h (.inl rfl)
  | true =>
    cases hv : validateSchemaKeywords schema with
    | error e => exact iff_of_false Bool.false_ne_true fun h => h (.inr (.inl (by simp)))
    | ok u =>
      cases hr : resolveRefs schema 33 schema with
      | error e =>
        refine iff_of_false Bool.false_ne_true fun h => h (.inr (.inr (.inl ?_)))
        exact Bool.false_ne_true
      | ok resolved =>
        show (checkType resolved >>= fun _ => Except.ok _).isOk = true ↔ _
        rw [isOk_map, checkType_isOk]
        refine not_congr ⟨fun h => .inr (.inr (.inr ⟨resolved, rfl, h⟩)), ?_⟩
        rintro (h | h | h | ⟨resolved', hr', h⟩)
        · cases h
        · exact absurd rfl h
        · exact absurd rfl h
        · exact Except.ok.inj hr' ▸ h

theorem compileJsonSchema_eq_ok {resolved : Value} (hobj : isObject schema = true)
    (hkeys : validateSchemaKeywords schema = .ok ())
    (hrefs : resolveRefs schema 33 schema = .ok resolved) (htype : checkType resolved = .ok ()) :
    compileJsonSchema schema = .ok ⟨resolved, scanStringConstraints resolved⟩ := by
  unfold compileJsonSchema
  rw [hobj, hkeys, hrefs]
  show (checkType resolved >>= fun _ => Except.ok _) = _
  rw [htype]
  rfl

theorem InReach.of_under {target : Value} (h : InReach root root v)
    (ht : refTarget root v = some target) (hw : Under target w) : InReach root root w :=
  Relation.ReflTransGen.trans (h.tail (.inr ht)) (hw.lift id fun _ _ hsub => .inl hsub)

theorem InReach.valid (hv : validateSchemaKeywords root = .ok ())
    (htargets : TargetsSupported root) (h : InReach root root w) :
    validateSchemaKeywords w = .ok () := by
  induction h with
  | refl => exact hv
  | tail hreach hstep ih =>
    rcases hstep with hsub | ht
    · exact (validateSchemaKeywords_eq_ok.1 ih).2 _ hsub
    · exact validateSchemaKeywords_iff.2 (htargets _ hreach _ ht)

/-- A document that compiles has supported keywords in all that is in reach, if it has them in and
under the targets of its references, and else it has not. -/
theorem compile_supported_iff (schema : Value) :
    ((∃ compiled, compileJsonSchema schema = .ok compiled) →
        ∀ w, InReach schema schema w → Supported w)
      ↔ Refused schema ∨ TargetsSupported schema := by
  have hok : (∃ compiled, compileJsonSchema schema = .ok compiled) ↔ ¬ Refused schema := by
    rw [← compileJsonSchema_isOk]
    cases compileJsonSchema schema <;> simp [Except.isOk, Except.toBool]
  rw [hok, ← or_iff_not_imp_left]
  refine or_congr_right' fun hnot => ⟨fun h v hv target ht w hw => ?_, fun h w hw => ?_⟩
  · exact h w (hv.of_under ht hw)
  · have hvalid : validateSchemaKeywords schema = .ok () := by
      by_contra hbad
      rw [validateSchemaKeywords_iff] at hbad
      push Not at hbad
      exact hnot (.inr (.inl hbad))
    exact (validateSchemaKeywords_eq_ok.1 (hw.valid hvalid h)).1

/-- A definition with a `format`, and a property that refers to it. -/
def formatInDefs : Value :=
  .object [("$defs", .object [("U", .object [("type", .string "string"),
      ("format", .string "email")])]),
    ("properties", .object [("u", .object [("$ref", .string "#/$defs/U")])])]

/-- It compiles, with the `format` ignored. -/
theorem formatInDefs_compiles : ¬ ((∃ compiled, compileJsonSchema formatInDefs = .ok compiled) →
    ∀ w, InReach formatInDefs formatInDefs w → Supported w) := by
  intro h
  have hcompiles : (compileJsonSchema formatInDefs).isOk = true := by decide +kernel
  have hcompiled : ∃ compiled, compileJsonSchema formatInDefs = .ok compiled := by
    revert hcompiles
    cases compileJsonSchema formatInDefs <;> simp [Except.isOk, Except.toBool]
  have hsub : .object [("$ref", .string "#/$defs/U")] ∈ subschemas formatInDefs := by
    simp [subschemas, formatInDefs, Object.get]
  have htarget : refTarget formatInDefs (.object [("$ref", .string "#/$defs/U")])
      = some (.object [("type", .string "string"), ("format", .string "email")]) := by
    rfl
  have hsupported := h hcompiled _
      ((Relation.ReflTransGen.refl.tail (.inl hsub)).tail (.inr htarget))
  have hformat := hsupported _ rfl "format" (by simp)
  revert hformat
  decide

end Grim.Constrain
