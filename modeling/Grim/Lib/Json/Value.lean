import Grim.Lib.FloatFormat

/-!
# JSON values

A number is an unsigned integer, a negative one or a finite float by its bits.  An object is a map,
given as its entries in some order.
-/

namespace JsonValue

open FloatFormat List

inductive Number
  | posInt (n : UInt64)
  | negInt (n : Int64)
  | float (bits : UInt64)
deriving DecidableEq

inductive Value
  | null
  | bool (b : Bool)
  | number (n : Number)
  | string (s : String)
  | array (items : List Value)
  | object (fields : List (String × Value))

abbrev Object := List (String × Value)

namespace Number

def ofU64 (n : UInt64) : Number := .posInt n

def ofI64 (n : Int64) : Number := if n < 0 then .negInt n else .posInt n.toUInt64

/-- `Number::from_f64`: no number stands for an infinity or a NaN. -/
def ofF64 (bits : UInt64) : Option Number :=
  if IsFiniteF64 bits then some (.float bits) else none

def asU64 : Number → Option UInt64
  | .posInt n => some n
  | _ => none

def asI64 : Number → Option Int64
  | .posInt n => if n.toNat < 2 ^ 63 then some n.toInt64 else none
  | .negInt n => some n
  | .float _ => none

def asF64 : Number → UInt64
  | .posInt n => f64OfNat n.toNat
  | .negInt n => f64OfNeg n.toInt.natAbs
  | .float bits => bits

end Number

namespace Object

def insert (o : Object) (key : String) (v : Value) : Object :=
  o.filter (fun e => e.1 ≠ key) ++ [(key, v)]

def get (o : Object) (key : String) : Option Value := (o.find? fun e => e.1 = key).map Prod.snd

def ofEntries (es : List (String × Value)) : Object :=
  es.foldl (fun o e => insert o e.1 e.2) []

def ofFields (fields : List (String × Option Value)) : Object :=
  ofEntries (fields.filterMap fun f => f.2.map fun v => (f.1, v))

end Object

namespace Value

def u64 (n : UInt64) : Value := .number (.posInt n)

/-- `f32` values go through `f64`, and become `null` when they are not finite. -/
def f32 (bits : UInt32) : Value :=
  match Number.ofF64 (f32ToF64 bits) with
  | some n => .number n
  | none => .null

def asStr : Value → Option String
  | .string s => some s
  | _ => none

def asBool : Value → Option Bool
  | .bool b => some b
  | _ => none

def asU64 : Value → Option UInt64
  | .number n => n.asU64
  | _ => none

def asF64 : Value → Option UInt64
  | .number n => some n.asF64
  | _ => none

def asArray : Value → Option (List Value)
  | .array items => some items
  | _ => none

def asObject : Value → Option Object
  | .object fields => some fields
  | _ => none

def get (v : Value) (key : String) : Option Value := v.asObject.bind (Object.get · key)

@[simp] theorem asStr_string (s : String) : asStr (.string s) = some s := rfl

@[simp] theorem asBool_bool (b : Bool) : asBool (.bool b) = some b := rfl

@[simp] theorem asU64_u64 (n : UInt64) : asU64 (u64 n) = some n := rfl

@[simp] theorem asArray_array (items : List Value) : asArray (.array items) = some items := rfl

@[simp] theorem asObject_object (o : Object) : asObject (.object o) = some o := rfl

@[simp] theorem get_object (o : Object) (key : String) : get (.object o) key = o.get key := rfl

theorem f32_of_finite {x : UInt32} (h : IsFiniteF32 x) : f32 x = .number (.float (f32ToF64 x)) := by
  rw [f32, Number.ofF64, if_pos (isFiniteF64_f32ToF64 h)]

theorem asF64_f32 {x : UInt32} (h : IsFiniteF32 x) :
    (asF64 (f32 x)).map f64ToF32 = some x := by
  rw [f32_of_finite h]
  exact congrArg some (f64ToF32_f32ToF64 h)

end Value

namespace Object

def Nodup (o : Object) : Prop := (o.map Prod.fst).Nodup

variable {key : String} {v : Value}

theorem insert_of_notMem {o : Object} (h : key ∉ o.map Prod.fst) :
    o.insert key v = o ++ [(key, v)] := by
  rw [insert, filter_eq_self.2]
  intro e he
  have hne : e.1 ≠ key := fun heq => h (mem_map.2 ⟨e, he, heq⟩)
  simpa using hne

theorem foldl_insert : ∀ (es : List (String × Value)) (o : Object), Nodup (o ++ es) →
    es.foldl (fun o e => insert o e.1 e.2) o = o ++ es
  | [], o, _ => (append_nil o).symm
  | e :: es, o, h => by
    have hnew : e.1 ∉ o.map Prod.fst := by
      intro hmem
      rw [Nodup, map_append, nodup_append] at h
      exact h.2.2 _ hmem _ (by simp) rfl
    rw [foldl_cons, insert_of_notMem hnew, foldl_insert es _ (by simpa using h)]
    simp

theorem ofEntries_of_nodup {es : List (String × Value)} (h : Nodup es) : ofEntries es = es :=
  foldl_insert es [] h

theorem get_eq_none {o : Object} (h : key ∉ o.map Prod.fst) : o.get key = none := by
  rw [get, Option.map_eq_none_iff, find?_eq_none]
  intro e he heq
  exact h (mem_map.2 ⟨e, he, by simpa using heq⟩)

theorem get_of_mem {o : Object} (hn : o.Nodup) (h : (key, v) ∈ o) : o.get key = some v := by
  rcases hf : o.find? fun e => decide (e.1 = key) with _ | e
  · have := find?_eq_none.1 hf _ h
    simp at this
  · have hkey : e.1 = key := by simpa using find?_some hf
    have heq := inj_on_of_nodup_map hn (mem_of_find?_eq_some hf) h hkey
    rw [get, hf, heq]
    rfl

theorem isSome_get {o : Object} : (o.get key).isSome ↔ key ∈ o.map Prod.fst := by
  rw [get, Option.isSome_map, find?_isSome, mem_map]
  simp [eq_comm]

theorem mem_keys_insert {o : Object} {k : String} :
    key ∈ (o.insert k v).map Prod.fst ↔ key ∈ o.map Prod.fst ∨ key = k := by
  rw [insert, map_append, mem_append, map_singleton, mem_singleton,
    mem_map, mem_map]
  constructor
  · rintro (⟨e, he, rfl⟩ | rfl)
    · exact .inl ⟨e, (mem_filter.1 he).1, rfl⟩
    · exact .inr rfl
  · rintro (⟨e, he, rfl⟩ | rfl)
    · by_cases hk : e.1 = k
      · exact .inr hk
      · exact .inl ⟨e, mem_filter.2 ⟨he, by simpa using hk⟩, rfl⟩
    · exact .inr rfl

theorem mem_keys_foldl_insert : ∀ (es : List (String × Value)) (o : Object),
    key ∈ (es.foldl (fun o e => insert o e.1 e.2) o).map Prod.fst ↔
      key ∈ o.map Prod.fst ∨ key ∈ es.map Prod.fst
  | [], o => by simp
  | e :: es, o => by
    rw [foldl_cons, mem_keys_foldl_insert es, mem_keys_insert, map_cons, mem_cons,
      or_assoc]

theorem isSome_get_ofEntries {es : List (String × Value)} :
    ((ofEntries es).get key).isSome ↔ key ∈ es.map Prod.fst := by
  rw [isSome_get, ofEntries, mem_keys_foldl_insert]
  simp

theorem keys_fields (fields : List (String × Option Value)) :
    ((fields.filterMap fun f => f.2.map fun v => (f.1, v)).map Prod.fst).Sublist
      (fields.map Prod.fst) := by
  induction fields with
  | nil => exact List.Sublist.refl _
  | cons f fields ih =>
    obtain ⟨k, _ | v⟩ := f
    · simpa using ih.cons k
    · simpa using ih.cons_cons k

theorem get_ofFields {fields : List (String × Option Value)} {o : Option Value}
    (hn : (fields.map Prod.fst).Nodup) (h : (key, o) ∈ fields) :
    (ofFields fields).get key = o := by
  have hnodup := hn.sublist (keys_fields fields)
  rw [ofFields, ofEntries_of_nodup hnodup]
  rcases o with _ | v
  · refine get_eq_none fun hmem => ?_
    obtain ⟨e, he, rfl⟩ := mem_map.1 hmem
    obtain ⟨f, hf, hfe⟩ := mem_filterMap.1 he
    obtain ⟨w, hw, rfl⟩ := Option.map_eq_some_iff.1 hfe
    have := inj_on_of_nodup_map hn hf h rfl
    rw [this] at hw
    cases hw
  · exact get_of_mem hnodup (mem_filterMap.2 ⟨_, h, rfl⟩)

end Object

end JsonValue
