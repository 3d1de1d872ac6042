import Grim.Lib.Reader

/-!
# GGUF metadata values

An array is written with the element tag of its first item, its length, and the items without
tags of their own; the reader takes the one tag for every item.  Floats are their bits.
-/

namespace Grim.Format

open LittleEndian Reader

abbrev GgufReader (α : Type) := Reader String α

inductive GgufValue
  | uint8 (v : UInt8)
  | int8 (v : Int8)
  | uint16 (v : UInt16)
  | int16 (v : Int16)
  | uint32 (v : UInt32)
  | int32 (v : Int32)
  | float32 (v : UInt32)
  | bool (v : Bool)
  | string (s : String)
  | array (items : List GgufValue)
  | uint64 (v : UInt64)
  | int64 (v : Int64)
  | float64 (v : UInt64)

def maxGgufArrayNestingDepth : ℕ := 64

def maxGgufStringLength : ℕ := 64 * 1024 * 1024

def maxGgufArrayCount : ℕ := 10000000

def ggufValueTag : GgufValue → UInt32
  | .uint8 _ => 0
  | .int8 _ => 1
  | .uint16 _ => 2
  | .int16 _ => 3
  | .uint32 _ => 4
  | .int32 _ => 5
  | .float32 _ => 6
  | .bool _ => 7
  | .string _ => 8
  | .array _ => 9
  | .uint64 _ => 10
  | .int64 _ => 11
  | .float64 _ => 12

def utf8 (s : String) : List UInt8 := s.toByteArray.data.toList

def writeGgufString (s : String) : List UInt8 := bytes 8 s.utf8ByteSize ++ utf8 s

/-- The element tag of a written array; an empty one defaults to strings. -/
def elemTag : List GgufValue → UInt32
  | [] => 8
  | first :: _ => ggufValueTag first

mutual

def writeGgufValueRaw : GgufValue → List UInt8
  | .uint8 v => [v]
  | .int8 v => [v.toUInt8]
  | .uint16 v => bytes 2 v.toNat
  | .int16 v => bytes 2 v.toUInt16.toNat
  | .uint32 v => word v
  | .int32 v => word v.toUInt32
  | .float32 v => word v
  | .bool v => [if v then 1 else 0]
  | .string s => writeGgufString s
  | .array items => word (elemTag items) ++ (bytes 8 items.length ++ writeItems items)
  | .uint64 v => bytes 8 v.toNat
  | .int64 v => bytes 8 v.toUInt64.toNat
  | .float64 v => bytes 8 v.toNat

def writeItems : List GgufValue → List UInt8
  | [] => []
  | item :: items => writeGgufValueRaw item ++ writeItems items

end

def writeGgufValue (v : GgufValue) : List UInt8 := word (ggufValueTag v) ++ writeGgufValueRaw v

def readExact (n : ℕ) : GgufReader (List UInt8) := exact "failed to fill whole buffer" n

def readU32Le : GgufReader UInt32 := do
  let buf ← readExact 4
  pure (ofWord buf)

def readU64Le : GgufReader UInt64 := do
  let buf ← readExact 8
  pure (UInt64.ofNat (value buf))

def fromUtf8 (buf : List UInt8) : GgufReader String :=
  match String.fromUTF8? ⟨buf.toArray⟩ with
  | some s => pure s
  | none => fail "GGUF string not valid UTF-8"

def readGgufString : GgufReader String := do
  let len ← readU64Le
  if maxGgufStringLength < len.toNat then
    fail s!"GGUF string length {len} exceeds safety limit of 64MB"
  else do
    let buf ← readExact len.toNat
    fromUtf8 buf

/-- The arms of `read_gguf_value_with_tag` that read no array. -/
def readScalar (tag : UInt32) : GgufReader GgufValue :=
  match tag.toNat with
  | 0 => do
    let buf ← readExact 1
    pure (.uint8 (UInt8.ofNat (value buf)))
  | 1 => do
    let buf ← readExact 1
    pure (.int8 (UInt8.ofNat (value buf)).toInt8)
  | 2 => do
    let buf ← readExact 2
    pure (.uint16 (UInt16.ofNat (value buf)))
  | 3 => do
    let buf ← readExact 2
    pure (.int16 (UInt16.ofNat (value buf)).toInt16)
  | 4 => do
    let v ← readU32Le
    pure (.uint32 v)
  | 5 => do
    let v ← readU32Le
    pure (.int32 v.toInt32)
  | 6 => do
    let v ← readU32Le
    pure (.float32 v)
  | 7 => do
    let buf ← readExact 1
    pure (.bool (value buf != 0))
  | 8 => do
    let s ← readGgufString
    pure (.string s)
  | 10 => do
    let v ← readU64Le
    pure (.uint64 v)
  | 11 => do
    let v ← readU64Le
    pure (.int64 v.toInt64)
  | 12 => do
    let v ← readU64Le
    pure (.float64 v)
  | _ => fail s!"unknown GGUF metadata tag {tag}"

/-- `levels` is what the maximal depth leaves below the source's `depth`. -/
def readAtLevel : (levels : ℕ) → (tag : UInt32) → GgufReader GgufValue
  | 0, tag =>
    if tag = 9 then fail "GGUF array nesting exceeds max depth of 64" else readScalar tag
  | levels + 1, tag =>
    if tag = 9 then do
      let elem ← readU32Le
      let count ← readU64Le
      if maxGgufArrayCount < count.toNat then
        fail s!"GGUF array count {count} exceeds safety limit of 10M elements"
      else do
        let values ← items (readAtLevel levels elem) count.toNat
        pure (.array values)
    else readScalar tag

def readGgufValueWithTag (tag : UInt32) (depth : ℕ) : GgufReader GgufValue :=
  readAtLevel (maxGgufArrayNestingDepth - depth) tag

def readGgufValue : GgufReader GgufValue := do
  let tag ← readU32Le
  readGgufValueWithTag tag 0

mutual

/-- The reader's limits: string length, array count, and `levels` of nesting. -/
def InLimits : ℕ → GgufValue → Prop
  | _, .string s => s.utf8ByteSize ≤ maxGgufStringLength
  | 0, .array _ => False
  | levels + 1, .array values =>
    values.length ≤ maxGgufArrayCount ∧ AllInLimits levels values
  | _, _ => True

def AllInLimits : ℕ → List GgufValue → Prop
  | _, [] => True
  | levels, v :: values => InLimits levels v ∧ AllInLimits levels values

end

mutual

def Uniform : GgufValue → Prop
  | .array values => (∀ v ∈ values, ggufValueTag v = elemTag values) ∧ AllUniform values
  | _ => True

def AllUniform : List GgufValue → Prop
  | [] => True
  | v :: values => Uniform v ∧ AllUniform values

end

theorem reads_u32 (x : UInt32) : Reads readU32Le (word x) x := by
  have h := (reads_exact "failed to fill whole buffer" (length_word x)).map ofWord
  rwa [ofWord_word] at h

theorem reads_number {n : ℕ} (h : n < 2 ^ 64) : Reads readU64Le (bytes 8 n) (UInt64.ofNat n) := by
  have hr := (reads_exact "failed to fill whole buffer" (length_bytes 8 n)).map
    fun buf => UInt64.ofNat (value buf)
  rwa [value_bytes 8 n h] at hr

theorem reads_u64 (x : UInt64) : Reads readU64Le (bytes 8 x.toNat) x := by
  have h := reads_number x.toNat_lt
  rwa [UInt64.ofNat_toNat] at h

theorem reads_bytes {β : Type} (w n : ℕ) (hn : n < 256 ^ w) (g : ℕ → β) :
    Reads (do let buf ← readExact w; pure (g (value buf))) (bytes w n) (g n) := by
  have h := (reads_exact "failed to fill whole buffer" (length_bytes w n)).map fun b => g (value b)
  rwa [value_bytes w n hn] at h

theorem length_utf8 (s : String) : (utf8 s).length = s.utf8ByteSize := rfl

theorem fromUTF8_utf8 (s : String) : String.fromUTF8? ⟨(utf8 s).toArray⟩ = some s :=
  dif_pos s.isValidUTF8

theorem size_of_fromUTF8 {buf : List UInt8} {s : String}
    (h : String.fromUTF8? ⟨buf.toArray⟩ = some s) : s.utf8ByteSize = buf.length := by
  unfold String.fromUTF8? at h
  split_ifs at h with hvalid
  obtain rfl := Option.some.inj h
  rfl

theorem fromUtf8_utf8 (s : String) : fromUtf8 (utf8 s) = pure s := by
  rw [fromUtf8, fromUTF8_utf8]

theorem reads_string {s : String} (h : s.utf8ByteSize ≤ maxGgufStringLength) :
    Reads readGgufString (writeGgufString s) s := by
  have hlt : s.utf8ByteSize < 2 ^ 64 := lt_of_le_of_lt h (by decide)
  have hnat : (UInt64.ofNat s.utf8ByteSize).toNat = s.utf8ByteSize := by
    rw [UInt64.toNat_ofNat', Nat.mod_eq_of_lt hlt]
  refine (reads_number hlt).bind ?_
  rw [hnat, if_neg (not_lt.2 h)]
  have hlast : Reads (fromUtf8 (utf8 s)) [] s := by
    rw [fromUtf8_utf8]
    exact Reads.pure s
  have hr := (reads_exact "failed to fill whole buffer" (length_utf8 s)).bind hlast
  rwa [List.append_nil] at hr

theorem bytes_one (x : UInt8) : bytes 1 x.toNat = [x] := by simp [bytes]

theorem reads_scalar {levels : ℕ} {v : GgufValue} (harr : ggufValueTag v ≠ 9)
    (h : InLimits levels v) : Reads (readScalar (ggufValueTag v)) (writeGgufValueRaw v) v := by
  cases v with
  | uint8 x =>
    have hr := reads_bytes 1 x.toNat x.toNat_lt fun n => GgufValue.uint8 (UInt8.ofNat n)
    rwa [UInt8.ofNat_toNat, bytes_one] at hr
  | int8 x =>
    have hr := reads_bytes 1 x.toUInt8.toNat x.toUInt8.toNat_lt
      fun n => GgufValue.int8 (UInt8.ofNat n).toInt8
    rwa [UInt8.ofNat_toNat, Int8.toInt8_toUInt8, bytes_one] at hr
  | uint16 x =>
    have hr := reads_bytes 2 x.toNat x.toNat_lt fun n => GgufValue.uint16 (UInt16.ofNat n)
    rwa [UInt16.ofNat_toNat] at hr
  | int16 x =>
    have hr := reads_bytes 2 x.toUInt16.toNat x.toUInt16.toNat_lt
      fun n => GgufValue.int16 (UInt16.ofNat n).toInt16
    rwa [UInt16.ofNat_toNat, Int16.toInt16_toUInt16] at hr
  | uint32 x => exact (reads_u32 x).map GgufValue.uint32
  | int32 x => exact (reads_u32 x.toUInt32).map fun n => GgufValue.int32 n.toInt32
  | float32 x => exact (reads_u32 x).map GgufValue.float32
  | bool x =>
    have hr := reads_bytes 1 (if x then 1 else 0) (by cases x <;> decide)
      fun n => GgufValue.bool (n != 0)
    cases x <;> exact hr
  | string s =>
    have hle : s.utf8ByteSize ≤ maxGgufStringLength := by cases levels <;> exact h
    exact (reads_string hle).map GgufValue.string
  | array values => exact absurd rfl harr
  | uint64 x => exact (reads_u64 x).map GgufValue.uint64
  | int64 x => exact (reads_u64 x.toUInt64).map fun n => GgufValue.int64 n.toInt64
  | float64 x => exact (reads_u64 x).map GgufValue.float64

theorem readAtLevel_scalar (levels : ℕ) {tag : UInt32} (h : tag ≠ 9) :
    readAtLevel levels tag = readScalar tag := by
  cases levels <;> rw [readAtLevel, if_neg h]

theorem writeItems_eq : ∀ values, writeItems values = values.flatMap writeGgufValueRaw
  | [] => rfl
  | v :: values => by rw [writeItems, List.flatMap_cons, writeItems_eq values]

mutual

theorem reads_raw : ∀ (v : GgufValue) (levels : ℕ), InLimits levels v → Uniform v →
    Reads (readAtLevel levels (ggufValueTag v)) (writeGgufValueRaw v) v
  | .array values, levels, h, hu => by
    cases levels with
    | zero => exact absurd h (by simp [InLimits])
    | succ levels =>
      simp only [InLimits] at h
      simp only [Uniform] at hu
      obtain ⟨hcount, hlim⟩ := h
      obtain ⟨htags, hall⟩ := hu
      have heach := reads_items (r := readAtLevel levels (elemTag values)) values
        fun v hv => htags v hv ▸ reads_each values levels hlim hall v hv
      have hlt : values.length < 2 ^ 64 := lt_of_le_of_lt hcount (by decide)
      have hnat : (UInt64.ofNat values.length).toNat = values.length := by
        rw [UInt64.toNat_ofNat', Nat.mod_eq_of_lt hlt]
      rw [ggufValueTag, readAtLevel, if_pos rfl, writeGgufValueRaw, writeItems_eq]
      refine (reads_u32 _).bind ((reads_number hlt).bind ?_)
      rw [hnat, if_neg (not_lt.2 hcount)]
      exact heach.map GgufValue.array
  | .uint8 _, levels, h, _ | .int8 _, levels, h, _ | .uint16 _, levels, h, _
  | .int16 _, levels, h, _ | .uint32 _, levels, h, _ | .int32 _, levels, h, _
  | .float32 _, levels, h, _ | .bool _, levels, h, _ | .string _, levels, h, _
  | .uint64 _, levels, h, _ | .int64 _, levels, h, _ | .float64 _, levels, h, _ => by
    rw [readAtLevel_scalar levels (by simp [ggufValueTag])]
    exact reads_scalar (by simp [ggufValueTag]) h

theorem reads_each : ∀ (values : List GgufValue) (levels : ℕ), AllInLimits levels values →
    AllUniform values → ∀ v ∈ values,
      Reads (readAtLevel levels (ggufValueTag v)) (writeGgufValueRaw v) v
  | [], _, _, _ => fun _ hv => absurd hv (by simp)
  | v :: values, levels, h, hu => by
    simp only [AllInLimits] at h
    simp only [AllUniform] at hu
    intro w hw
    rcases List.mem_cons.1 hw with heq | hw
    · rw [heq]
      exact reads_raw v levels h.1 hu.1
    · exact reads_each values levels h.2 hu.2 w hw

end

theorem yields_string :
    Yields readGgufString fun s => s.utf8ByteSize ≤ maxGgufStringLength := by
  refine (Yields.trivial _).bind fun len _ => ?_
  by_cases hlen : maxGgufStringLength < len.toNat
  · rw [if_pos hlen]
    exact Yields.fail _
  rw [if_neg hlen]
  refine (Yields.exact _ _).bind fun buf hbuf => ?_
  unfold fromUtf8
  split
  · rename_i s hs
    refine Yields.pure ?_
    rw [size_of_fromUTF8 hs, hbuf]
    exact Nat.not_lt.mp hlen
  · exact Yields.fail _

/-- A value as the reader returns it under `tag`, `levels` of nesting below the limit. -/
structure ReadUnder (levels : ℕ) (tag : UInt32) (v : GgufValue) : Prop where
  tag_eq : ggufValueTag v = tag
  uniform : Uniform v
  limits : InLimits levels v

theorem yields_scalar (levels : ℕ) (tag : UInt32) :
    Yields (readScalar tag) (ReadUnder levels tag) := by
  have hret : ∀ {γ : Type} (r : GgufReader γ) (P : γ → Prop) (g : γ → GgufValue), Yields r P →
      (∀ x, P x → ReadUnder levels tag (g x)) →
      Yields (do let x ← r; pure (g x)) (ReadUnder levels tag) :=
    fun r P g hr hg => hr.bind fun x hx => Yields.pure (hg x hx)
  have htag : ∀ n, tag.toNat = n → UInt32.ofNat n = tag := by
    intro n hn
    rw [← hn, UInt32.ofNat_toNat]
  unfold readScalar
  split
  case h_9 h =>
    refine hret _ _ _ yields_string fun s hs => ⟨htag _ h, by simp [Uniform], ?_⟩
    simpa [InLimits] using hs
  all_goals first
    | exact Yields.fail _
    | (rename_i h
       refine hret _ _ _ (Yields.trivial _) fun x _ =>
         ⟨htag _ h, by simp [Uniform], by simp [InLimits]⟩)

theorem AllUniform.of_forall : ∀ {values : List GgufValue}, (∀ v ∈ values, Uniform v) →
    AllUniform values
  | [], _ => by simp [AllUniform]
  | v :: values, h => by
    simp only [AllUniform]
    exact ⟨h v (by simp), AllUniform.of_forall fun w hw => h w (by simp [hw])⟩

theorem AllInLimits.of_forall {levels : ℕ} : ∀ {values : List GgufValue},
    (∀ v ∈ values, InLimits levels v) → AllInLimits levels values
  | [], _ => by simp [AllInLimits]
  | v :: values, h => by
    simp only [AllInLimits]
    exact ⟨h v (by simp), AllInLimits.of_forall fun w hw => h w (by simp [hw])⟩

theorem yields_atLevel : ∀ (levels : ℕ) (tag : UInt32),
    Yields (readAtLevel levels tag) (ReadUnder levels tag)
  | 0, tag => by
    by_cases htag : tag = 9
    · rw [readAtLevel, if_pos htag]
      exact Yields.fail _
    · rw [readAtLevel_scalar 0 htag]
      exact yields_scalar 0 tag
  | levels + 1, tag => by
    by_cases htag : tag = 9
    swap
    · rw [readAtLevel_scalar _ htag]
      exact yields_scalar _ tag
    rw [readAtLevel, if_pos htag]
    refine (Yields.trivial _).bind fun elem _ => (Yields.trivial _).bind fun count _ => ?_
    by_cases hcount : maxGgufArrayCount < count.toNat
    · rw [if_pos hcount]
      exact Yields.fail _
    rw [if_neg hcount]
    have hitems := (yields_atLevel levels elem).items count.toNat
    refine (hitems.and (Yields.length_items _ _)).bind fun values hv => Yields.pure ?_
    obtain ⟨heach, hlen⟩ := hv
    refine ⟨htag.symm, ?_, ?_⟩
    · simp only [Uniform]
      refine ⟨fun v hmem => ?_, AllUniform.of_forall fun v hmem => (heach v hmem).uniform⟩
      cases values with
      | nil => exact absurd hmem (by simp)
      | cons first rest => rw [elemTag, (heach v hmem).tag_eq, (heach first (by simp)).tag_eq]
    · simp only [InLimits]
      exact ⟨by omega, AllInLimits.of_forall fun v hmem => (heach v hmem).limits⟩

theorem reads_value {v : GgufValue} (h : InLimits maxGgufArrayNestingDepth v) (hu : Uniform v) :
    Reads readGgufValue (writeGgufValue v) v :=
  (reads_u32 _).bind (reads_raw v maxGgufArrayNestingDepth h hu)

theorem yields_value :
    Yields readGgufValue fun v => Uniform v ∧ InLimits maxGgufArrayNestingDepth v := by
  refine (Yields.trivial _).bind fun tag _ s v s' h => ?_
  have hread := yields_atLevel _ tag s v s' h
  exact ⟨hread.uniform, hread.limits⟩

/-- Within the limits, exactly the uniform values survive write and read. -/
theorem value_survives_iff {v : GgufValue} (rest : List UInt8)
    (h : InLimits maxGgufArrayNestingDepth v) :
    readGgufValue.run (writeGgufValue v ++ rest) = .ok (v, rest) ↔ Uniform v :=
  ⟨fun hrun => (yields_value _ v rest hrun).1, fun hu => reads_value h hu rest⟩

def nestedArrays : GgufValue :=
  .array [.array [.uint16 1, .uint16 2], .array [], .array [.uint16 3]]

theorem value_survives_iff_nested :
    readGgufValue.run (writeGgufValue nestedArrays ++ [7]) = .ok (nestedArrays, [7]) := by
  have hlim : InLimits maxGgufArrayNestingDepth nestedArrays := by
    simp [nestedArrays, maxGgufArrayNestingDepth, maxGgufArrayCount, InLimits, AllInLimits]
  have hu : Uniform nestedArrays := by
    simp [nestedArrays, Uniform, AllUniform, elemTag, ggufValueTag]
  exact (value_survives_iff [7] hlim).2 hu

end Grim.Format
