import Grim.Format.Value
import Grim.Lib.Json.Value

/-!
# GGUF values as JSON

JSON keeps the number and not the width: a number is read back in the narrowest type that holds it,
unsigned if it can be, and every float as an `f64`.  So the values that come back as they were are
those that stood in that type already.
-/

namespace Grim.Format

open JsonValue JsonValue.Value FloatFormat

/-- `format!("{f}")` of a float that is not finite. -/
def specialText (isNan isNegative : Bool) : String :=
  if isNan then "NaN" else if isNegative then "-inf" else "inf"

mutual

def ggufValueToJson : GgufValue → Value
  | .uint8 n => .number (.ofU64 n.toUInt64)
  | .int8 n => .number (.ofI64 n.toInt64)
  | .uint16 n => .number (.ofU64 n.toUInt64)
  | .int16 n => .number (.ofI64 n.toInt64)
  | .uint32 n => .number (.ofU64 n.toUInt64)
  | .int32 n => .number (.ofI64 n.toInt64)
  | .uint64 n => .number (.ofU64 n)
  | .int64 n => .number (.ofI64 n)
  | .float32 f =>
    match Number.ofF64 (f32ToF64 f) with
    | some n => .number n
    | none => .string (specialText (f.toNat % 2 ^ 23 ≠ 0) (2 ^ 31 ≤ f.toNat))
  | .float64 f =>
    match Number.ofF64 f with
    | some n => .number n
    | none => .string (specialText (f.toNat % 2 ^ 52 ≠ 0) (2 ^ 63 ≤ f.toNat))
  | .bool b => .bool b
  | .string s => .string s
  | .array items => .array (itemsToJson items)

def itemsToJson : List GgufValue → List Value
  | [] => []
  | v :: vs => ggufValueToJson v :: itemsToJson vs

end

def narrowU64 (u : UInt64) : GgufValue :=
  if u.toNat ≤ 255 then .uint8 u.toUInt8
  else if u.toNat ≤ 65535 then .uint16 u.toUInt16
  else if u.toNat ≤ 4294967295 then .uint32 u.toUInt32
  else .uint64 u

def narrowI64 (i : Int64) : GgufValue :=
  if -128 ≤ i.toInt ∧ i.toInt ≤ 127 then .int8 i.toInt8
  else if -32768 ≤ i.toInt ∧ i.toInt ≤ 32767 then .int16 i.toInt16
  else if -2147483648 ≤ i.toInt ∧ i.toInt ≤ 2147483647 then .int32 i.toInt32
  else .int64 i

def ggufNumberFromJson (n : Number) : GgufValue :=
  match n.asU64 with
  | some u => narrowU64 u
  | none =>
    match n.asI64 with
    | some i => narrowI64 i
    | none => .float64 n.asF64

mutual

def ggufValueFromJson : Value → Option GgufValue
  | .bool b => some (.bool b)
  | .string s => some (.string s)
  | .number n => some (ggufNumberFromJson n)
  | .array items => some (.array (itemsFromJson items))
  | .null => none
  | .object _ => none

/-- `filter_map` -/
def itemsFromJson : List Value → List GgufValue
  | [] => []
  | v :: vs =>
    match ggufValueFromJson v with
    | some x => x :: itemsFromJson vs
    | none => itemsFromJson vs

end

mutual

def Canonical : GgufValue → Prop
  | .uint8 _ => True
  | .uint16 n => 255 < n.toNat
  | .uint32 n => 65535 < n.toNat
  | .uint64 n => 4294967295 < n.toNat
  | .int8 n => n.toInt < 0
  | .int16 n => n.toInt < -128
  | .int32 n => n.toInt < -32768
  | .int64 n => n.toInt < -2147483648
  | .float32 _ => False
  | .float64 f => IsFiniteF64 f
  | .bool _ => True
  | .string _ => True
  | .array items => AllCanonical items

def AllCanonical : List GgufValue → Prop
  | [] => True
  | v :: vs => Canonical v ∧ AllCanonical vs

end

def narrowed (v : GgufValue) : GgufValue := (ggufValueFromJson (ggufValueToJson v)).getD v

theorem fromJson_toJson (v : GgufValue) :
    ggufValueFromJson (ggufValueToJson v) = some (narrowed v) := by
  rw [narrowed]
  cases v with
  | float32 f =>
    rw [ggufValueToJson]
    rcases Number.ofF64 (f32ToF64 f) with _ | n <;> rfl
  | float64 f =>
    rw [ggufValueToJson]
    rcases Number.ofF64 f with _ | n <;> rfl
  | _ => rfl

theorem itemsFromJson_itemsToJson : ∀ vs : List GgufValue,
    itemsFromJson (itemsToJson vs) = vs.map narrowed
  | [] => rfl
  | v :: vs => by
    rw [itemsToJson, itemsFromJson, fromJson_toJson, itemsFromJson_itemsToJson vs, List.map_cons]

theorem narrowed_array (vs : List GgufValue) : narrowed (.array vs) = .array (vs.map narrowed) := by
  rw [narrowed, ggufValueToJson, ggufValueFromJson, itemsFromJson_itemsToJson, Option.getD_some]

theorem narrowed_number {v : GgufValue} {n : Number} (h : ggufValueToJson v = .number n) :
    narrowed v = ggufNumberFromJson n := by
  rw [narrowed, h, ggufValueFromJson, Option.getD_some]

theorem ofU64_narrow (u : UInt64) : ggufNumberFromJson (.ofU64 u) = narrowU64 u := rfl

theorem ofI64_narrow (i : Int64) : ggufNumberFromJson (.ofI64 i) =
    if i.toInt < 0 then narrowI64 i else narrowU64 i.toUInt64 := by
  have hlt : i < 0 ↔ i.toInt < 0 := Int64.lt_iff_toInt_lt
  rw [Number.ofI64]
  split_ifs with h h' h'
  · rfl
  · exact absurd (hlt.1 h) h'
  · exact absurd (hlt.2 h') h
  · rfl

theorem narrowed_unsigned {v : GgufValue} {u : UInt64}
    (h : ggufValueToJson v = .number (.ofU64 u)) : narrowed v = narrowU64 u := by
  rw [narrowed_number h, ofU64_narrow]

theorem narrowed_signed {v : GgufValue} {i : Int64}
    (h : ggufValueToJson v = .number (.ofI64 i)) :
    narrowed v = if i.toInt < 0 then narrowI64 i else narrowU64 i.toUInt64 := by
  rw [narrowed_number h, ofI64_narrow]

theorem narrowU64_ne_int (u : UInt64) :
    (∀ n, narrowU64 u ≠ .int8 n) ∧ (∀ n, narrowU64 u ≠ .int16 n) ∧
      (∀ n, narrowU64 u ≠ .int32 n) ∧ ∀ n, narrowU64 u ≠ .int64 n := by
  unfold narrowU64
  split_ifs <;> simp

theorem narrowed_uint8 (n : UInt8) : narrowed (.uint8 n) = .uint8 n := by
  have hn := n.toNat_lt
  rw [narrowed_unsigned rfl, narrowU64, if_pos (by rw [UInt8.toNat_toUInt64]; omega)]
  congr 1
  rw [← UInt8.toNat_inj]
  simp

theorem narrowed_uint16 (n : UInt16) : narrowed (.uint16 n) = .uint16 n ↔ 255 < n.toNat := by
  have hn := n.toNat_lt
  rw [narrowed_unsigned rfl, narrowU64, UInt16.toNat_toUInt64]
  split_ifs with h8 h16
  · exact iff_of_false (by simp) (by omega)
  · exact iff_of_true (by simp) (by omega)
  · omega
  · omega

theorem narrowed_uint32 (n : UInt32) : narrowed (.uint32 n) = .uint32 n ↔ 65535 < n.toNat := by
  have hn := n.toNat_lt
  rw [narrowed_unsigned rfl, narrowU64, UInt32.toNat_toUInt64]
  split_ifs with h8 h16 h32
  · exact iff_of_false (by simp) (by omega)
  · exact iff_of_false (by simp) (by omega)
  · exact iff_of_true (by simp) (by omega)
  · omega

theorem narrowed_uint64 (n : UInt64) :
    narrowed (.uint64 n) = .uint64 n ↔ 4294967295 < n.toNat := by
  rw [narrowed_unsigned rfl, narrowU64]
  split_ifs with h8 h16 h32
  · exact iff_of_false (by simp) (by omega)
  · exact iff_of_false (by simp) (by omega)
  · exact iff_of_false (by simp) (by omega)
  · exact iff_of_true rfl (by omega)

theorem narrowed_int8 (n : Int8) : narrowed (.int8 n) = .int8 n ↔ n.toInt < 0 := by
  have hlo := n.le_toInt
  have hhi := n.toInt_lt
  rw [narrowed_signed rfl, Int8.toInt_toInt64]
  split_ifs with hneg
  · rw [narrowI64, Int8.toInt_toInt64, if_pos (by omega)]
    exact iff_of_true (by simp) hneg
  · exact iff_of_false ((narrowU64_ne_int _).1 n) hneg

theorem narrowed_int16 (n : Int16) : narrowed (.int16 n) = .int16 n ↔ n.toInt < -128 := by
  have hlo := n.le_toInt
  have hhi := n.toInt_lt
  rw [narrowed_signed rfl, Int16.toInt_toInt64]
  split_ifs with hneg
  · rw [narrowI64, Int16.toInt_toInt64]
    split_ifs with h8 h16
    · exact iff_of_false (by simp) (by omega)
    · exact iff_of_true (by simp) (by omega)
    · omega
    · omega
  · exact iff_of_false ((narrowU64_ne_int _).2.1 n) (by omega)

theorem narrowed_int32 (n : Int32) : narrowed (.int32 n) = .int32 n ↔ n.toInt < -32768 := by
  have hlo := n.le_toInt
  have hhi := n.toInt_lt
  rw [narrowed_signed rfl, Int32.toInt_toInt64]
  split_ifs with hneg
  · rw [narrowI64, Int32.toInt_toInt64]
    split_ifs with h8 h16 h32
    · exact iff_of_false (by simp) (by omega)
    · exact iff_of_false (by simp) (by omega)
    · exact iff_of_true (by simp) (by omega)
    · omega
  · exact iff_of_false ((narrowU64_ne_int _).2.2.1 n) (by omega)

theorem narrowed_int64 (n : Int64) : narrowed (.int64 n) = .int64 n ↔ n.toInt < -2147483648 := by
  rw [narrowed_signed rfl]
  split_ifs with hneg
  · rw [narrowI64]
    split_ifs with h8 h16 h32
    · exact iff_of_false (by simp) (by omega)
    · exact iff_of_false (by simp) (by omega)
    · exact iff_of_false (by simp) (by omega)
    · exact iff_of_true rfl (by omega)
  · exact iff_of_false ((narrowU64_ne_int _).2.2.2 n) (by omega)

theorem narrowed_float32 (f : UInt32) : narrowed (.float32 f) ≠ .float32 f := by
  rw [narrowed, ggufValueToJson, Number.ofF64]
  by_cases h : IsFiniteF64 (f32ToF64 f)
  · rw [if_pos h]
    simp [ggufValueFromJson, ggufNumberFromJson, Number.asU64, Number.asI64]
  · rw [if_neg h]
    simp [ggufValueFromJson]

theorem narrowed_float64 (f : UInt64) : narrowed (.float64 f) = .float64 f ↔ IsFiniteF64 f := by
  rw [narrowed, ggufValueToJson, Number.ofF64]
  by_cases h : IsFiniteF64 f
  · rw [if_pos h]
    exact iff_of_true rfl h
  · rw [if_neg h]
    exact iff_of_false (by simp [ggufValueFromJson]) h

mutual

theorem narrowed_eq_iff : ∀ v : GgufValue, narrowed v = v ↔ Canonical v
  | .uint8 n => iff_of_true (narrowed_uint8 n) (by simp [Canonical])
  | .uint16 n => by rw [narrowed_uint16, Canonical]
  | .uint32 n => by rw [narrowed_uint32, Canonical]
  | .uint64 n => by rw [narrowed_uint64, Canonical]
  | .int8 n => by rw [narrowed_int8, Canonical]
  | .int16 n => by rw [narrowed_int16, Canonical]
  | .int32 n => by rw [narrowed_int32, Canonical]
  | .int64 n => by rw [narrowed_int64, Canonical]
  | .float32 f => iff_of_false (narrowed_float32 f) (by simp [Canonical])
  | .float64 f => by rw [narrowed_float64, Canonical]
  | .bool b => iff_of_true rfl (by simp [Canonical])
  | .string s => iff_of_true rfl (by simp [Canonical])
  | .array items => by
    rw [narrowed_array, Canonical, GgufValue.array.injEq]
    exact narrowed_map_iff items

theorem narrowed_map_iff : ∀ vs : List GgufValue, vs.map narrowed = vs ↔ AllCanonical vs
  | [] => iff_of_true rfl (by simp [AllCanonical])
  | v :: vs => by
    rw [List.map_cons, List.cons.injEq, narrowed_eq_iff v, narrowed_map_iff vs, AllCanonical]

end

end Grim.Format
