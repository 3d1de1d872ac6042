import Grim.Format.HalfFloat

/-!
# What a sidecar keeps of its numbers

A bfloat16 is the nearest one, and a list keeps its length where its format can be read back
(`sidecars_iff`).
-/

namespace Grim.Format

open LittleEndian FloatFormat
open Float.Model (Format)

/-- What is written of `v` as bfloat16 is nearest to it, and is a NaN only of a NaN. -/
structure Bf16Faithful (v : UInt32) : Prop where
  nearest : ∀ x, f32Value v = some x → ∃ b : BitVec bfloat16.numBits,
    (bf16ToF32Le (f32ToBf16Bytes v)).toNat = b.toNat * 2 ^ 16 ∧ NearestEven bfloat16 x b
  nan : IsNaN (bf16ToF32Le (f32ToBf16Bytes v)) → IsNaN v

section Bf16

variable {v : UInt32} {s E M : ℕ}

/-- The bits without the sign that are written, of those of an `f32`. -/
def rounded (n : ℕ) : ℕ :=
  if 2 ^ 15 < n % 2 ^ 16 ∨ n % 2 ^ 16 = 2 ^ 15 ∧ n / 2 ^ 16 % 2 = 1 then n / 2 ^ 16 + 1
  else n / 2 ^ 16

theorem rounded_le {n : ℕ} (h : n ≤ 2 ^ 23 * 255) : rounded n ≤ 2 ^ 7 * 255 := by
  rw [rounded]
  split_ifs <;> omega

theorem Fields.value_f32ToBf16Bytes (h : Fields v s E M) (htop : 2 ^ 23 * E + M ≤ 2 ^ 23 * 255) :
    LittleEndian.value (f32ToBf16Bytes v) = s * 2 ^ 15 + rounded (2 ^ 23 * E + M) := by
  obtain ⟨hs, hE, hM, hv⟩ := h
  have hhigh : (v >>> 16).toUInt16.toNat = s * 2 ^ 15 + (2 ^ 23 * E + M) / 2 ^ 16 := by
    rw [UInt32.toNat_toUInt16, UInt32.toNat_shiftRight, Nat.shiftRight_eq_div_pow, hv]
    show _ / 2 ^ 16 % 2 ^ 16 = _
    omega
  have hdiscard : (v &&& 0xFFFF).toNat = (2 ^ 23 * E + M) % 2 ^ 16 := by
    rw [UInt32.toNat_and, hv]
    show _ &&& (2 ^ 16 - 1) = _
    rw [Nat.and_two_pow_sub_one_eq_mod]
    omega
  have hlt : 0x8000 < v &&& 0xFFFF ↔ 2 ^ 15 < (2 ^ 23 * E + M) % 2 ^ 16 := by
    rw [UInt32.lt_iff_toNat_lt, hdiscard]
    rfl
  have heq : v &&& 0xFFFF = 0x8000 ↔ (2 ^ 23 * E + M) % 2 ^ 16 = 2 ^ 15 := by
    rw [← UInt32.toNat_inj, hdiscard]
    rfl
  have hodd : (v >>> 16).toUInt16 &&& 1 = 1 ↔ (2 ^ 23 * E + M) / 2 ^ 16 % 2 = 1 := by
    rw [← UInt16.toNat_inj, UInt16.toNat_and, hhigh]
    show _ &&& (2 ^ 1 - 1) = 1 ↔ _
    rw [Nat.and_two_pow_sub_one_eq_mod]
    omega
  have hbound : rounded (2 ^ 23 * E + M) ≤ 2 ^ 7 * 255 := rounded_le htop
  rw [f32ToBf16Bytes]
  simp only [hlt, heq, hodd]
  rw [rounded] at hbound ⊢
  split_ifs with hup
  · rw [if_pos hup] at hbound
    rw [UInt16.toNat_add, hhigh, value_bytes 2 _ (by show _ % 2 ^ 16 < 2 ^ 16; omega)]
    show (_ + 1) % 2 ^ 16 = _
    omega
  · rw [if_neg hup] at hbound
    rw [hhigh, value_bytes 2 _ (by show _ < 2 ^ 16; omega)]

theorem mag_between (n : ℕ) : ∃ u : ℚ, 0 < u ∧
    mag .binary32 n = mag bfloat16 (n / 2 ^ 16) + (n % 2 ^ 16 : ℕ) * u ∧
    mag bfloat16 (n / 2 ^ 16 + 1) = mag bfloat16 (n / 2 ^ 16) + 2 ^ 16 * u := by
  have hscale : ∀ E : ℕ, (2 : ℚ) ^ exponentOf bfloat16 E = 2 ^ 16 * 2 ^ exponentOf .binary32 E := by
    intro E
    have hexp : exponentOf bfloat16 E = (16 : ℕ) + exponentOf .binary32 E := by
      show (E : ℤ) - 134 = (16 : ℕ) + (E - 150)
      push_cast
      ring
    rw [hexp, zpow_add₀ two_ne_zero, zpow_natCast]
  rcases bits_cases .binary32 n with hsub | ⟨E, M, hE, hM, rfl⟩
  · have hlt : n < 2 ^ 23 := hsub
    have hdiv : (n : ℚ) = (n / 2 ^ 16 : ℕ) * 2 ^ 16 + (n % 2 ^ 16 : ℕ) := by
      exact_mod_cast (Nat.div_add_mod' n (2 ^ 16)).symm
    have hbf : ∀ k ≤ 2 ^ 7, mag bfloat16 k = k * (2 ^ 16 * 2 ^ exponentOf .binary32 1) := by
      intro k hk
      rw [@mag_subnormal bfloat16 k hk, hscale]
    refine ⟨2 ^ exponentOf .binary32 1, by positivity, ?_, ?_⟩
    · rw [mag_subnormal hsub.le, hbf _ (by omega), hdiv]
      ring
    · rw [hbf _ (by omega), hbf _ (by omega)]
      push_cast
      ring
  · have hlt : M < 2 ^ 23 := hM
    have hhigh : (2 ^ 23 * E + M) / 2 ^ 16 = 2 ^ 7 * E + M / 2 ^ 16 := by omega
    have hlow : (2 ^ 23 * E + M) % 2 ^ 16 = M % 2 ^ 16 := by omega
    have hdiv : (M : ℚ) = (M / 2 ^ 16 : ℕ) * 2 ^ 16 + (M % 2 ^ 16 : ℕ) := by
      exact_mod_cast (Nat.div_add_mod' M (2 ^ 16)).symm
    have hbf : ∀ m ≤ 2 ^ 7, mag bfloat16 (2 ^ 7 * E + m) =
        (2 ^ 7 + m : ℕ) * (2 ^ 16 * 2 ^ exponentOf .binary32 E) := by
      intro m hm
      rw [← hscale]
      exact mag_normal hE hm
    refine ⟨2 ^ exponentOf .binary32 E, by positivity, ?_, ?_⟩
    · show mag .binary32 (2 ^ 23 * E + M) = mag bfloat16 ((2 ^ 23 * E + M) / 2 ^ 16) +
        ((2 ^ 23 * E + M) % 2 ^ 16 : ℕ) * _
      rw [hhigh, hlow, hbf _ (by omega), mag_normal_binary32 hE hlt.le, exponent_binary32]
      push_cast at hdiv ⊢
      rw [hdiv]
      ring
    · show mag bfloat16 ((2 ^ 23 * E + M) / 2 ^ 16 + 1) =
        mag bfloat16 ((2 ^ 23 * E + M) / 2 ^ 16) + _
      rw [hhigh, Nat.add_assoc, hbf _ (by omega), hbf _ (by omega)]
      push_cast
      ring

theorem toNat_bf16ToF32Le {bs : List UInt8} (h : LittleEndian.value bs < 2 ^ 16) :
    (bf16ToF32Le bs).toNat = LittleEndian.value bs * 2 ^ 16 := by
  rw [bf16ToF32Le, UInt32.toNat_shiftLeft, UInt32.toNat_ofNat', Nat.shiftLeft_eq,
    Nat.mod_eq_of_lt (a := LittleEndian.value bs) (by omega)]
  show _ * 2 ^ 16 % 2 ^ 32 = _
  omega

theorem nearestEven_rounded {n : ℕ} (hn : n < 2 ^ 23 * 255) {S : Float.Model.UnpackedFloat.Sign}
    {b : BitVec bfloat16.numBits} (hmag : magnitude b = rounded n) (hsign : signOf b = S) :
    NearestEven bfloat16 (signed S (mag .binary32 n)) b := by
  obtain ⟨u, hu, hbelow, hnext⟩ := mag_between n
  have hbound : rounded n ≤ 2 ^ 7 * 255 := rounded_le hn.le
  have hmod : n % 2 ^ 16 < 2 ^ 16 := Nat.mod_lt _ (by decide)
  obtain ⟨d, hd⟩ : ∃ d, n % 2 ^ 16 = d := ⟨_, rfl⟩
  rw [hd] at hbelow hmod
  have hlow : 0 ≤ (d : ℚ) * u := by positivity
  have hhigh : (d : ℚ) * u < 2 ^ 16 * u := mul_lt_mul_of_pos_right (by exact_mod_cast hmod) hu
  have hhalf : (2 : ℚ) ^ 16 * u = 2 * (2 ^ 15 * u) := by ring
  refine nearestEven_of (k := n / 2 ^ 16) (hmag.trans_le hbound) (by rw [hbelow]; linarith)
    (by rw [hbelow, hnext]; linarith) hsign ?_ fun htie => ?_
  · rw [hmag, rounded, hd, hbelow, hnext]
    split_ifs with hup
    · have hmore : (2 ^ 15 : ℚ) ≤ d := by exact_mod_cast (by omega : 2 ^ 15 ≤ d)
      have := mul_le_mul_of_nonneg_right hmore hu.le
      exact .inr ⟨rfl, by linarith⟩
    · have hless : (d : ℚ) ≤ 2 ^ 15 := by exact_mod_cast (by omega : d ≤ 2 ^ 15)
      have := mul_le_mul_of_nonneg_right hless hu.le
      exact .inl ⟨rfl, by linarith⟩
  · rw [hbelow, hnext] at htie
    have hsame : (d : ℚ) * u = 2 ^ 15 * u := by linarith
    have heq : d = 2 ^ 15 := by exact_mod_cast mul_right_cancel₀ hu.ne' hsame
    rw [hmag, rounded, hd]
    split_ifs with hup <;> omega

theorem bf16Faithful (v : UInt32) : Bf16Faithful v := by
  obtain ⟨s, E, M, h⟩ := fields v
  have hs := h.sign
  have hM := h.mantissa
  have hback : 2 ^ 23 * E + M ≤ 2 ^ 23 * 255 →
      (bf16ToF32Le (f32ToBf16Bytes v)).toNat =
        (s * 2 ^ 15 + rounded (2 ^ 23 * E + M)) * 2 ^ 16 := by
    intro htop
    have hbound := rounded_le htop
    have hwritten := h.value_f32ToBf16Bytes htop
    rw [toNat_bf16ToF32Le (by omega), hwritten]
  constructor
  · intro x hx
    rcases h.cases with ⟨hE, hval, -⟩ | ⟨-, -, -, hval, -⟩ | ⟨-, -, -, hval, -⟩
    · obtain rfl := Option.some.inj (hval.symm.trans hx)
      have hbound : rounded (2 ^ 23 * E + M) ≤ 2 ^ 7 * 255 := rounded_le (by omega)
      obtain ⟨b, hb⟩ : ∃ b : BitVec bfloat16.numBits,
          b.toNat = s * 2 ^ 15 + rounded (2 ^ 23 * E + M) :=
        ⟨BitVec.ofNat _ _, (BitVec.toNat_ofNat ..).trans
          (Nat.mod_eq_of_lt (by show _ < 2 ^ 16; omega))⟩
      refine ⟨b, by rw [hback (by omega), hb], nearestEven_rounded (n := 2 ^ 23 * E + M)
        (by omega) ?_ ?_⟩
      · show b.toNat % 2 ^ 15 = _
        omega
      · rw [FloatFormat.signOf_eq]
        show signBit (b.toNat / 2 ^ 15) = _
        congr 1
        omega
    · exact absurd (hval.symm.trans hx) nofun
    · exact absurd (hval.symm.trans hx) nofun
  · intro hnan
    by_contra hnot
    have htop : 2 ^ 23 * E + M ≤ 2 ^ 23 * 255 := by
      rcases h.cases with ⟨hE, -⟩ | ⟨hE, hM0, -⟩ | ⟨-, -, hnan', -⟩
      · omega
      · omega
      · exact absurd hnan' hnot
    have hbound := rounded_le htop
    have hfields : Fields (bf16ToF32Le (f32ToBf16Bytes v)) s (rounded (2 ^ 23 * E + M) / 2 ^ 7)
        (rounded (2 ^ 23 * E + M) % 2 ^ 7 * 2 ^ 16) :=
      ⟨hs, by omega, by omega, by rw [hback htop]; omega⟩
    rcases hfields.cases with ⟨-, -, hnot', -⟩ | ⟨-, -, -, -, hnot'⟩ | ⟨hE, hpos, -⟩
    · exact hnot' hnan
    · exact hnot' hnan
    · omega

end Bf16

def LengthKept (vals : List UInt32) (fmt : TrainFpFormat) : Prop :=
  ∃ read, decodeF32sFrom (encodeF32sAs vals fmt) fmt = some read ∧ read.length = vals.length

def Readable (fmt : TrainFpFormat) : Prop := fmt ≠ .fp8E4M3 ∧ fmt ≠ .fp8E5M2 ∧ fmt ≠ .fp4

instance (fmt : TrainFpFormat) : Decidable (Readable fmt) := inferInstanceAs (Decidable (_ ∧ _))

theorem length_flatMap_of {f : UInt32 → List UInt8} {n : ℕ} (h : ∀ v, (f v).length = n)
    (vals : List UInt32) : (vals.flatMap f).length = vals.length * n := by
  rw [List.length_flatMap, List.map_congr_left fun v _ => h v, List.map_const', List.sum_replicate,
    smul_eq_mul]

theorem length_chunksExact {n k : ℕ} (hn : 0 < n) {data : List UInt8} (h : data.length = k * n) :
    (chunksExact n data).length = k := by
  rw [chunksExact, List.length_map, List.length_range, h, Nat.mul_div_cancel _ hn]

theorem length_f32ToF16Bytes (v : UInt32) : (f32ToF16Bytes v).length = 2 := by
  obtain ⟨s, E, M, h⟩ := fields v
  rw [h.f32ToF16Bytes_eq, length_bytes]

theorem lengthKept_of {f : UInt32 → List UInt8} {g : List UInt8 → UInt32} {n : ℕ} (hn : 0 < n)
    (hf : ∀ v, (f v).length = n) (vals : List UInt32) :
    ∃ read, (if (vals.flatMap f).length % n ≠ 0 then none
      else some ((chunksExact n (vals.flatMap f)).map g)) = some read ∧
        read.length = vals.length := by
  have hlength := length_flatMap_of hf vals
  have hwhole : ¬(vals.flatMap f).length % n ≠ 0 := by
    rw [hlength, Nat.mul_mod_left]
    exact fun h => h rfl
  rw [if_neg hwhole]
  exact ⟨_, rfl, by rw [List.length_map, length_chunksExact hn hlength]⟩

theorem lengthKept_iff (vals : List UInt32) (fmt : TrainFpFormat) :
    LengthKept vals fmt ↔ Readable fmt := by
  have hbf16 : ∀ v, (f32ToBf16Bytes v).length = 2 := fun v => length_bytes 2 _
  cases fmt with
  | fp16 | fp16Param =>
    exact iff_of_true (lengthKept_of (by decide) length_f32ToF16Bytes vals) (by decide)
  | fp32 => exact iff_of_true (lengthKept_of (by decide) length_word vals) (by decide)
  | bf16 => exact iff_of_true (lengthKept_of (by decide) hbf16 vals) (by decide)
  | fp8E4M3 | fp8E5M2 | fp4 =>
    refine iff_of_false ?_ (by decide)
    rintro ⟨read, hread, -⟩
    exact absurd hread nofun

/-- A sidecar loses only rounding exactly of the numbers that binary16 keeps, and in the formats
that are read. -/
theorem sidecars_iff (v : UInt32) (vals : List UInt32) (fmt : TrainFpFormat) :
    F16Faithful v ∧ Bf16Faithful v ∧ LengthKept vals fmt ↔
      F16Kept (v.toNat / 2 ^ 23 % 2 ^ 8) (v.toNat % 2 ^ 23) ∧ Readable fmt := by
  have hv := v.toNat_lt
  have h : Fields v (v.toNat / 2 ^ 31) (v.toNat / 2 ^ 23 % 2 ^ 8) (v.toNat % 2 ^ 23) :=
    ⟨by omega, by omega, by omega, by omega⟩
  rw [f16Faithful_iff h, lengthKept_iff]
  exact and_congr_right fun _ => and_iff_right (bf16Faithful v)

/-- `2^-15`, a binary16, comes back as `2^-11`. -/
theorem subnormal_shifted : ¬∀ v vals fmt,
    F16Faithful v ∧ Bf16Faithful v ∧ LengthKept vals fmt := by
  intro h
  have hnumber : Number binary16 (valueOf .positive (2 ^ 23) (-38)) := by
    refine number_iff.2 ⟨.positive, 512, by decide, ?_⟩
    rw [mag_subnormal (by decide), exponent_binary16, valueOf_eq]
    norm_num [signed]
  have hback := (h 0x38000000 [] .fp16).1.exact _ rfl hnumber
  exact absurd hback (by decide)

end Grim.Format
