import Grim.Format.TrainState
import Grim.Lib.FloatOrder
import Grim.Lib.LittleEndian

/-!
# Half-precision sidecars

The numbers of a sidecar in two bytes each: as bfloat16, rounded, and as binary16, cut off.  An
`f32` is its bits.
-/

namespace Grim.Format

open LittleEndian FloatFormat
open Float.Model (Format UnpackedFloat)
open Float.Model.UnpackedFloat

def f32ToBf16Bytes (v : UInt32) : List UInt8 :=
  let discard := v &&& 0xFFFF
  let bf16 := (v >>> 16).toUInt16
  let bf16 := if 0x8000 < discard ∨ discard = 0x8000 ∧ bf16 &&& 1 = 1 then bf16 + 1 else bf16
  bytes 2 bf16.toNat

def f32ToF16Bytes (v : UInt32) : List UInt8 :=
  let sign := (v >>> 31).toUInt16
  let exp := (v >>> 23) &&& 0xFF
  let mant := v &&& 0x7FFFFF
  if exp = 0xFF then bytes 2 (sign <<< 15 ||| (0x7C00 : UInt16) ||| (mant >>> 13).toUInt16).toNat
  else if exp = 0 then bytes 2 (sign <<< 15).toNat
  else
    let newExp : ℤ := exp.toNat - 127 + 15
    if newExp ≤ 0 then
      if newExp < -10 then bytes 2 (sign <<< 15).toNat
      else
        let mantShift := UInt32.ofNat (-newExp + 1).toNat
        let newMant := (mant ||| 0x800000) >>> mantShift
        bytes 2 (sign <<< 15 ||| (newMant >>> 10).toUInt16).toNat
    else if 31 ≤ newExp then bytes 2 (sign <<< 15 ||| (0x7C00 : UInt16)).toNat
    else
      let newMant := mant >>> 13
      bytes 2 (sign <<< 15 ||| UInt16.ofNat newExp.toNat <<< 10 ||| newMant.toUInt16).toNat

/-- `2f32.powi(-24)` -/
def twoPowi : UInt32 := 0x33800000

/-- `-value` -/
def f32Neg (x : UInt32) : UInt32 := .ofBitVec (pack .binary32 (neg (f32Unpacked x)))

def f16ToF32Le (bs : List UInt8) : UInt32 :=
  let bits := UInt16.ofNat (value bs)
  let sign := (bits >>> 15).toUInt32
  let exp := ((bits >>> 10) &&& 0x1F).toUInt32
  let mant := (bits &&& 0x3FF).toUInt32
  if exp = 0 then
    let x := f32Op mul (f32OfInt mant.toNat) twoPowi
    if sign ≠ 0 then f32Neg x else x
  else if exp = 31 then sign <<< 31 ||| (0x7F800000 : UInt32) ||| mant <<< 13
  else sign <<< 31 ||| (exp + 112) <<< 23 ||| mant <<< 13

/-- `f32::from_bits(bits << 16)` -/
def bf16ToF32Le (bs : List UInt8) : UInt32 := UInt32.ofNat (value bs) <<< 16

/-- `data.chunks_exact(n)` -/
def chunksExact (n : ℕ) (data : List UInt8) : List (List UInt8) :=
  (List.range (data.length / n)).map fun i => (data.drop (i * n)).take n

def bytesToF32s (data : List UInt8) : TrainFpFormat → Option (List UInt32)
  | .fp32 => if data.length % 4 ≠ 0 then none else some ((chunksExact 4 data).map ofWord)
  | .bf16 => if data.length % 2 ≠ 0 then none else some ((chunksExact 2 data).map bf16ToF32Le)
  | .fp16 | .fp16Param =>
    if data.length % 2 ≠ 0 then none else some ((chunksExact 2 data).map f16ToF32Le)
  | .fp8E4M3 | .fp8E5M2 | .fp4 => none

def encodeF32sAs (vals : List UInt32) : TrainFpFormat → List UInt8
  | .bf16 => vals.flatMap f32ToBf16Bytes
  | .fp16 | .fp16Param => vals.flatMap f32ToF16Bytes
  | _ => vals.flatMap word

def decodeF32sFrom (data : List UInt8) (fmt : TrainFpFormat) : Option (List UInt32) :=
  bytesToF32s data fmt

/-- The sign, the exponent and the mantissa of an `f32`. -/
structure Fields (v : UInt32) (s E M : ℕ) : Prop where
  sign : s < 2
  exponent : E < 2 ^ 8
  mantissa : M < 2 ^ 23
  bits : v.toNat = s * 2 ^ 31 + (E * 2 ^ 23 + M)

theorem fields (v : UInt32) : ∃ s E M, Fields v s E M := by
  have := v.toNat_lt
  exact ⟨v.toNat / 2 ^ 31, v.toNat / 2 ^ 23 % 2 ^ 8, v.toNat % 2 ^ 23, by omega, by omega,
    by omega, by omega⟩

section Bits

variable {v : UInt32} {s E M : ℕ}

theorem Fields.sign_eq (h : Fields v s E M) : (v >>> 31).toNat = s := by
  obtain ⟨hs, hE, hM, hv⟩ := h
  rw [UInt32.toNat_shiftRight, Nat.shiftRight_eq_div_pow, hv]
  show _ / 2 ^ 31 = s
  omega

theorem Fields.exp_eq (h : Fields v s E M) : ((v >>> 23) &&& 0xFF).toNat = E := by
  obtain ⟨hs, hE, hM, hv⟩ := h
  rw [UInt32.toNat_and, UInt32.toNat_shiftRight, Nat.shiftRight_eq_div_pow, hv]
  show (_ / 2 ^ 23) &&& (2 ^ 8 - 1) = E
  rw [Nat.and_two_pow_sub_one_eq_mod]
  omega

theorem Fields.mant_eq (h : Fields v s E M) : (v &&& 0x7FFFFF).toNat = M := by
  obtain ⟨hs, hE, hM, hv⟩ := h
  rw [UInt32.toNat_and, hv]
  show _ &&& (2 ^ 23 - 1) = M
  rw [Nat.and_two_pow_sub_one_eq_mod]
  omega

theorem toNat_or_sign {a x : UInt16} {i k : ℕ} (ha : a.toNat = i * 2 ^ 15) (hx : x.toNat = k)
    (hk : k < 2 ^ 15) : (a ||| x).toNat = i * 2 ^ 15 + k := by
  rw [UInt16.toNat_or, ha, hx, Nat.mul_comm, Nat.two_pow_add_eq_or_of_lt hk]

theorem Fields.toNat_sign (h : Fields v s E M) :
    ((v >>> 31).toUInt16 <<< 15).toNat = s * 2 ^ 15 := by
  have hs := h.sign
  rw [UInt16.toNat_shiftLeft, UInt32.toNat_toUInt16, h.sign_eq, Nat.shiftLeft_eq]
  show s % 2 ^ 16 * 2 ^ 15 % 2 ^ 16 = _
  omega

theorem toNat_toUInt16_of {x : UInt32} {k : ℕ} (hx : x.toNat = k) (hk : k < 2 ^ 16) :
    x.toUInt16.toNat = k := by
  rw [UInt32.toNat_toUInt16, hx, Nat.mod_eq_of_lt hk]

theorem toNat_shiftRight_of {x i : UInt32} {k n : ℕ} (hx : x.toNat = k) (hi : i.toNat = n)
    (hn : n < 32) : (x >>> i).toNat = k / 2 ^ n := by
  rw [UInt32.toNat_shiftRight, hx, hi, Nat.mod_eq_of_lt hn, Nat.shiftRight_eq_div_pow]

/-- The bits without the sign that `f32_to_f16_bytes` gives. -/
def cutOff (E M : ℕ) : ℕ :=
  if E = 255 then 31 * 2 ^ 10 + M / 2 ^ 13
  else if E < 102 then 0
  else if E < 113 then (2 ^ 23 + M) / 2 ^ (123 - E)
  else if 143 ≤ E then 31 * 2 ^ 10
  else (E - 112) * 2 ^ 10 + M / 2 ^ 13

theorem Fields.f32ToF16Bytes_eq (h : Fields v s E M) :
    f32ToF16Bytes v = bytes 2 (s * 2 ^ 15 + cutOff E M) := by
  have hE := h.exponent
  have hM := h.mantissa
  have hsign := h.toNat_sign
  have hmant : (v &&& 0x7FFFFF).toNat = M := h.mant_eq
  have hhigh : ((v &&& 0x7FFFFF) >>> 13).toUInt16.toNat = M / 2 ^ 13 :=
    toNat_toUInt16_of (toNat_shiftRight_of hmant rfl (by decide)) (by omega)
  have heq : ∀ n : ℕ, n < 2 ^ 32 → (((v >>> 23) &&& 0xFF) = UInt32.ofNat n ↔ E = n) := by
    intro n hn
    rw [← UInt32.toNat_inj, h.exp_eq, UInt32.toNat_ofNat', Nat.mod_eq_of_lt hn]
  have hinf := heq 0xFF (by decide)
  have hzero := heq 0 (by decide)
  have hexp : ((v >>> 23) &&& 0xFF).toNat = E := h.exp_eq
  rw [f32ToF16Bytes, cutOff]
  simp only [hexp]
  have hinf' : ((v >>> 23) &&& 0xFF) = 0xFF ↔ E = 255 := hinf
  have hzero' : ((v >>> 23) &&& 0xFF) = 0 ↔ E = 0 := hzero
  simp only [hinf', hzero']
  by_cases h255 : E = 255
  · rw [if_pos h255, if_pos h255]
    congr 1
    have hseven : ((v >>> 31).toUInt16 <<< 15 ||| (0x7C00 : UInt16)).toNat =
        s * 2 ^ 15 + 31 * 2 ^ 10 := toNat_or_sign hsign rfl (by decide)
    rw [UInt16.toNat_or, hseven, hhigh]
    have hsplit : s * 2 ^ 15 + 31 * 2 ^ 10 = 2 ^ 10 * (s * 2 ^ 5 + 31) := by ring
    rw [hsplit, ← Nat.two_pow_add_eq_or_of_lt (by omega)]
    ring
  · rw [if_neg h255, if_neg h255]
    by_cases h102 : E < 102
    · rw [if_pos h102, Nat.add_zero, hsign]
      by_cases h0 : E = 0
      · rw [if_pos h0]
      · rw [if_neg h0, if_pos (by omega), if_pos (by omega)]
    · rw [if_neg h102, if_neg (by omega)]
      by_cases h113 : E < 113
      · rw [if_pos h113, if_pos (by omega), if_neg (by omega)]
        have hshift : (UInt32.ofNat (-((E : ℤ) - 127 + 15) + 1).toNat).toNat = 113 - E := by
          rw [UInt32.toNat_ofNat', Nat.mod_eq_of_lt (by omega)]
          omega
        have hone : ((v &&& 0x7FFFFF) ||| 0x800000).toNat = 2 ^ 23 + M := by
          rw [UInt32.toNat_or, hmant, Nat.or_comm]
          exact (Nat.two_pow_add_eq_or_of_lt (a := 1) hM).symm
        have hsplit : 123 - E = (113 - E) + 10 := by omega
        have hcut : (2 ^ 23 + M) / 2 ^ (123 - E) < 2 ^ 15 := by
          rw [Nat.div_lt_iff_lt_mul (by positivity)]
          have hle : 2 ^ 11 ≤ 2 ^ (123 - E) := Nat.pow_le_pow_right (by decide) (by omega)
          omega
        have hmantissa : ((((v &&& 0x7FFFFF) ||| 0x800000) >>>
            UInt32.ofNat (-((E : ℤ) - 127 + 15) + 1).toNat) >>> 10).toUInt16.toNat =
              (2 ^ 23 + M) / 2 ^ (123 - E) := by
          refine toNat_toUInt16_of ?_ (by omega)
          rw [toNat_shiftRight_of (toNat_shiftRight_of hone hshift (by omega)) rfl (by decide),
            hsplit, pow_add, Nat.div_div_eq_div_mul]
          rfl
        rw [toNat_or_sign hsign hmantissa hcut]
      · rw [if_neg h113, if_neg (by omega)]
        by_cases h143 : 143 ≤ E
        · rw [if_pos h143, if_pos (by omega), toNat_or_sign hsign rfl (by decide)]
          rfl
        · rw [if_neg h143, if_neg (by omega)]
          have hnew : ((E : ℤ) - 127 + 15).toNat = E - 112 := by omega
          have hfield : E - 112 < 31 := by omega
          have hexponent : (UInt16.ofNat (E - 112) <<< 10).toNat = (E - 112) * 2 ^ 10 := by
            generalize E - 112 = e at hfield
            interval_cases e <;> rfl
          have hboth := toNat_or_sign hsign hexponent (by omega)
          rw [hnew, UInt16.toNat_or, hhigh, hboth]
          have hsplit : s * 2 ^ 15 + (E - 112) * 2 ^ 10 = 2 ^ 10 * (s * 2 ^ 5 + (E - 112)) := by
            ring
          have hlow : M / 2 ^ 13 < 2 ^ 10 := by omega
          refine congrArg (bytes 2) ?_
          rw [hsplit, ← Nat.two_pow_add_eq_or_of_lt hlow, ← hsplit, Nat.add_assoc]

end Bits

def binary16 : Format := { mantissaBitsWithoutImplicit := 10, exponentBits := 5 }

def bfloat16 : Format := { mantissaBitsWithoutImplicit := 7, exponentBits := 8 }

section Reading

variable {bs : List UInt8} {s k : ℕ}

theorem read_fields (hbs : value bs = s * 2 ^ 15 + k) (hs : s < 2) (hk : k < 2 ^ 15) :
    ((UInt16.ofNat (value bs)) >>> 15).toUInt32.toNat = s ∧
      (((UInt16.ofNat (value bs)) >>> 10) &&& 0x1F).toUInt32.toNat = k / 2 ^ 10 ∧
      ((UInt16.ofNat (value bs)) &&& 0x3FF).toUInt32.toNat = k % 2 ^ 10 := by
  have hbits : (UInt16.ofNat (value bs)).toNat = s * 2 ^ 15 + k := by
    rw [UInt16.toNat_ofNat', hbs]
    exact Nat.mod_eq_of_lt (by omega)
  refine ⟨?_, ?_, ?_⟩
  · rw [UInt16.toNat_toUInt32, UInt16.toNat_shiftRight, Nat.shiftRight_eq_div_pow, hbits]
    show _ / 2 ^ 15 = s
    omega
  · rw [UInt16.toNat_toUInt32, UInt16.toNat_and, UInt16.toNat_shiftRight,
      Nat.shiftRight_eq_div_pow, hbits]
    show _ / 2 ^ 10 &&& (2 ^ 5 - 1) = _
    rw [Nat.and_two_pow_sub_one_eq_mod]
    omega
  · rw [UInt16.toNat_toUInt32, UInt16.toNat_and, hbits]
    show _ &&& (2 ^ 10 - 1) = _
    rw [Nat.and_two_pow_sub_one_eq_mod]
    omega

theorem toNat_f32 {a b c : UInt32} {s e m : ℕ} (ha : a.toNat = s) (hs : s < 2) (hb : b.toNat = e)
    (he : e < 2 ^ 8) (hc : c.toNat = m) (hm : m < 2 ^ 23) :
    (a <<< 31 ||| b <<< 23 ||| c).toNat = s * 2 ^ 31 + (e * 2 ^ 23 + m) := by
  have hsign : (a <<< 31).toNat = 2 ^ 31 * s := by
    rw [UInt32.toNat_shiftLeft, Nat.shiftLeft_eq, ha]
    show s * 2 ^ 31 % 2 ^ 32 = _
    omega
  have hexp : (b <<< 23).toNat = e * 2 ^ 23 := by
    rw [UInt32.toNat_shiftLeft, Nat.shiftLeft_eq, hb]
    show e * 2 ^ 23 % 2 ^ 32 = _
    omega
  have hfield : e * 2 ^ 23 < 2 ^ 31 := by omega
  have hsplit : 2 ^ 31 * s + e * 2 ^ 23 = 2 ^ 23 * (2 ^ 8 * s + e) := by ring
  rw [UInt32.toNat_or, UInt32.toNat_or, hsign, hexp, hc, ← Nat.two_pow_add_eq_or_of_lt hfield,
    hsplit, ← Nat.two_pow_add_eq_or_of_lt hm]
  ring

theorem f16ToF32Le_bits (hbs : value bs = s * 2 ^ 15 + k) (hs : s < 2) (hk : k < 2 ^ 15)
    (hnormal : 2 ^ 10 ≤ k) : (f16ToF32Le bs).toNat =
      s * 2 ^ 31 + ((if k < 31 * 2 ^ 10 then k / 2 ^ 10 + 112 else 255) * 2 ^ 23 +
        k % 2 ^ 10 * 2 ^ 13) := by
  obtain ⟨hsign, hexp, hmant⟩ := read_fields hbs hs hk
  have hmant' : (((UInt16.ofNat (value bs)) &&& 0x3FF).toUInt32 <<< 13).toNat =
      k % 2 ^ 10 * 2 ^ 13 := by
    rw [UInt32.toNat_shiftLeft, Nat.shiftLeft_eq, hmant]
    show _ * 2 ^ 13 % 2 ^ 32 = _
    omega
  have hlow : k % 2 ^ 10 * 2 ^ 13 < 2 ^ 23 := by omega
  have heq : ∀ n : ℕ, n < 2 ^ 32 →
      ((((UInt16.ofNat (value bs)) >>> 10) &&& 0x1F).toUInt32 = UInt32.ofNat n ↔
        k / 2 ^ 10 = n) := by
    intro n hn
    rw [← UInt32.toNat_inj, hexp, UInt32.toNat_ofNat', Nat.mod_eq_of_lt hn]
  have hzero : ¬(((UInt16.ofNat (value bs)) >>> 10) &&& 0x1F).toUInt32 = 0 := by
    intro h
    have := (heq 0 (by decide)).1 h
    omega
  have hinf : (((UInt16.ofNat (value bs)) >>> 10) &&& 0x1F).toUInt32 = 31 ↔ k / 2 ^ 10 = 31 :=
    heq 31 (by decide)
  rw [f16ToF32Le]
  simp only [if_neg hzero]
  by_cases htop : k < 31 * 2 ^ 10
  · have hne : ¬k / 2 ^ 10 = 31 := by omega
    have hsum : ((((UInt16.ofNat (value bs)) >>> 10) &&& 0x1F).toUInt32 + 112).toNat =
        k / 2 ^ 10 + 112 := by
      rw [UInt32.toNat_add, hexp]
      show (_ + 112) % 2 ^ 32 = _
      omega
    rw [if_neg fun h => hne (hinf.1 h), if_pos htop]
    exact toNat_f32 hsign hs hsum (by omega) hmant' hlow
  · have heq31 : k / 2 ^ 10 = 31 := by omega
    rw [if_pos (hinf.2 heq31), if_neg htop]
    have hinfinity : (0x7F800000 : UInt32) = (255 : UInt32) <<< 23 := by decide
    rw [hinfinity]
    exact toNat_f32 hsign hs rfl (by decide) hmant' hlow

theorem mul_twoPowi {n : ℕ} (hn : 0 < n) (hlt : n < 2 ^ 10) :
    ∃ m e, ∃ hm : 0 < m, FloatFormat.Canonical .binary32 m e ∧
      mul .binary32 (f32Unpacked (f32OfInt n)) (f32Unpacked twoPowi) = .finite .positive m e hm ∧
      (m : ℚ) * 2 ^ e = n * 2 ^ (-24 : ℤ) := by
  have hlog : n.log2 < 10 := (Nat.log2_lt hn.ne').2 hlt
  have hbounds := (Nat.log2_eq_iff hn.ne').1 rfl
  obtain ⟨m, hm, hx, hval⟩ := f32Unpacked_f32OfInt hn (hlt.trans (by decide))
    (short_of_lt (hlt.trans (by decide)))
  have hzero : n.log2 - 23 = 0 := by omega
  rw [hzero, pow_zero, mul_one] at hval
  have hsplit : 2 ^ n.log2 * 2 ^ (23 - n.log2) = 2 ^ 23 := by
    rw [← pow_add]
    congr 1
    omega
  have hpos : 0 < 2 ^ (23 - n.log2) := by positivity
  rw [pow_succ] at hbounds
  have hlow : 2 ^ 23 ≤ m := by
    rw [hval, ← hsplit]
    exact Nat.mul_le_mul_right _ hbounds.1
  have hhigh : m < 2 ^ 23 * 2 := by
    rw [hval, ← hsplit, Nat.mul_right_comm]
    exact Nat.mul_lt_mul_of_pos_right hbounds.2 hpos
  obtain ⟨M, rfl⟩ := Nat.exists_eq_add_of_le hlow
  have htwo : f32Unpacked twoPowi = .finite .positive (2 ^ 23) (-47) (by decide) := rfl
  have hbias : Float.Model.Format.binary32.exponentBias = 127 := rfl
  have hmantissa : Float.Model.Format.binary32.mantissaBitsWithoutImplicit = 23 := rfl
  have hcanonical : FloatFormat.Canonical .binary32 (2 ^ 23 + M)
      (exponentOf .binary32 (103 + n.log2)) :=
    canonical_normal (by omega) (by show 103 + n.log2 + 1 < 2 ^ 8; omega)
      (by rw [hmantissa]; omega)
  have hexp : (n.log2 - 23 : ℤ) + -47 = exponentOf .binary32 (103 + n.log2) - (23 : ℕ) := by
    rw [exponentOf, hbias]
    push_cast
    ring
  refine ⟨2 ^ 23 + M, _, hcanonical.pos, hcanonical, ?_, ?_⟩
  · rw [hx, htwo, mul, hexp]
    exact roundWithAccuracy_exact hcanonical.pos hcanonical.target 23
  · have hpow : exponentOf .binary32 (103 + n.log2) = -24 - (23 - n.log2 : ℕ) := by
      rw [exponentOf, hbias, hmantissa]
      omega
    rw [hval, hpow, zpow_sub₀ two_ne_zero, zpow_natCast]
    push_cast
    field_simp

theorem f32Value_subnormal (hbs : value bs = s * 2 ^ 15 + k) (hs : s < 2) (hk : k < 2 ^ 10) :
    f32Value (f16ToF32Le bs) = some (signed (signBit s) (mag binary16 k)) ∧
      (k = 0 → (f16ToF32Le bs).toNat = s * 2 ^ 31) := by
  obtain ⟨hsign, hexp, hmant⟩ := read_fields hbs hs (hk.trans (by decide))
  have hzero : (((UInt16.ofNat (value bs)) >>> 10) &&& 0x1F).toUInt32 = 0 := by
    rw [← UInt32.toNat_inj, hexp, Nat.div_eq_of_lt hk]
    rfl
  have hneg : (((UInt16.ofNat (value bs)) >>> 15).toUInt32 ≠ 0) ↔ s = 1 := by
    rw [ne_eq, ← UInt32.toNat_inj, hsign]
    show ¬s = 0 ↔ s = 1
    omega
  have hread : f16ToF32Le bs = if s = 1 then f32Neg (f32Op mul (f32OfInt k) twoPowi)
      else f32Op mul (f32OfInt k) twoPowi := by
    rw [f16ToF32Le]
    simp only [if_pos hzero, hneg, hmant, Nat.mod_eq_of_lt hk]
  rw [hread]
  have hmag : mag binary16 k = k * 2 ^ (-24 : ℤ) := mag_subnormal hk.le
  rcases Nat.eq_zero_or_pos k with rfl | hpos
  · have hnothing : f32Op mul (f32OfInt (0 : ℕ)) twoPowi = 0 := by decide
    rw [hnothing, mag_zero]
    obtain rfl | rfl : s = 0 ∨ s = 1 := by omega
    · exact ⟨rfl, fun _ => rfl⟩
    · exact ⟨rfl, fun _ => rfl⟩
  · refine ⟨?_, fun h => absurd h hpos.ne'⟩
    obtain ⟨m, e, hm, hcanonical, hmul, hval⟩ := mul_twoPowi hpos hk
    have hx : f32Op mul (f32OfInt k) twoPowi =
        .ofBitVec (pack .binary32 (.finite .positive m e hm)) := congrArg _ (congrArg _ hmul)
    have hunpack : ∀ S, f32Unpacked (.ofBitVec (pack .binary32 (.finite S m e hm))) =
        .finite S m e hm := fun S => unpack_pack (by decide) hcanonical
    have hvalue : ∀ S, f32Value (.ofBitVec (pack .binary32 (.finite S m e hm))) =
        some (signed S (mag binary16 k)) := fun S => by
      rw [f32Value, hunpack, FloatFormat.value, valueOf_eq, hval, hmag]
    have hflip : f32Neg (.ofBitVec (pack .binary32 (.finite .positive m e hm))) =
        .ofBitVec (pack .binary32 (.finite .negative m e hm)) := by
      rw [f32Neg, hunpack]
      rfl
    rw [hx, hflip]
    obtain rfl | rfl : s = 0 ∨ s = 1 := by omega
    · exact hvalue .positive
    · exact hvalue .negative

end Reading

def IsNaN (v : UInt32) : Prop := f32Unpacked v = .notANumber

def IsInfinite (v : UInt32) : Prop := ∃ s, f32Unpacked v = .infinity s

section Numbers

variable {v : UInt32} {bs : List UInt8} {s E M k : ℕ}

theorem top_binary32 : top .binary32 = 2 ^ 23 * 255 := rfl

theorem top_binary16 : top binary16 = 2 ^ 10 * 31 := rfl

theorem exponent_binary32 (E : ℕ) : exponentOf .binary32 E = E - 150 := rfl

theorem exponent_binary16 (E : ℕ) : exponentOf binary16 E = E - 25 := rfl

theorem mag_normal_binary32 (hE : 1 ≤ E) (hM : M ≤ 2 ^ 23) :
    mag .binary32 (2 ^ 23 * E + M) = (2 ^ 23 + M : ℕ) * 2 ^ (E - 150 : ℤ) :=
  mag_normal hE hM

theorem mag_normal_binary16 (hE : 1 ≤ E) (hM : M ≤ 2 ^ 10) :
    mag binary16 (2 ^ 10 * E + M) = (2 ^ 10 + M : ℕ) * 2 ^ (E - 25 : ℤ) :=
  mag_normal hE hM

theorem Fields.magnitude_eq (h : Fields v s E M) :
    @magnitude .binary32 v.toBitVec = 2 ^ 23 * E + M := by
  obtain ⟨hs, hE, hM, hv⟩ := h
  show v.toNat % 2 ^ 31 = _
  omega

theorem Fields.signOf_eq (h : Fields v s E M) :
    @signOf .binary32 v.toBitVec = signBit s := by
  obtain ⟨hs, hE, hM, hv⟩ := h
  rw [FloatFormat.signOf_eq]
  show signBit (v.toNat / 2 ^ 31) = _
  congr 1
  omega

theorem Fields.cases (h : Fields v s E M) :
    (E < 255 ∧ f32Value v = some (signed (signBit s) (mag .binary32 (2 ^ 23 * E + M))) ∧
      ¬IsNaN v ∧ ¬IsInfinite v) ∨
    (E = 255 ∧ M = 0 ∧ IsInfinite v ∧ f32Value v = none ∧ ¬IsNaN v) ∨
    (E = 255 ∧ 0 < M ∧ IsNaN v ∧ f32Value v = none ∧ ¬IsInfinite v) := by
  have hM := h.mantissa
  have hE := h.exponent
  have hcases := @unpack_cases .binary32 v.toBitVec
  rw [h.magnitude_eq, h.signOf_eq, top_binary32] at hcases
  rcases hcases with ⟨hlt, hval⟩ | ⟨htop, hinf⟩ | ⟨htop, hnan⟩
  · refine .inl ⟨by omega, hval, fun hn => ?_, fun ⟨S, hi⟩ => ?_⟩
    · rw [show unpack .binary32 v.toBitVec = .notANumber from hn] at hval
      cases hval
    · rw [show unpack .binary32 v.toBitVec = .infinity S from hi] at hval
      cases hval
  · have hinf' : f32Unpacked v = .infinity (signBit s) := hinf
    refine .inr (.inl ⟨by omega, by omega, ⟨_, hinf⟩, ?_, fun hn => ?_⟩)
    · rw [f32Value, hinf']
      rfl
    · rw [IsNaN, hinf'] at hn
      cases hn
  · have hnan' : f32Unpacked v = .notANumber := hnan
    refine .inr (.inr ⟨by omega, by omega, hnan, ?_, fun ⟨S, hi⟩ => ?_⟩)
    · rw [f32Value, hnan']
      rfl
    · rw [hnan'] at hi
      cases hi

theorem fields_of_read (hbs : LittleEndian.value bs = s * 2 ^ 15 + k) (hs : s < 2)
    (hk : k < 2 ^ 15) (hnormal : 2 ^ 10 ≤ k) : Fields (f16ToF32Le bs) s
      (if k < 31 * 2 ^ 10 then k / 2 ^ 10 + 112 else 255) (k % 2 ^ 10 * 2 ^ 13) where
  sign := hs
  exponent := by split_ifs <;> omega
  mantissa := by omega
  bits := f16ToF32Le_bits hbs hs hk hnormal

theorem f32Value_f16ToF32Le (hbs : LittleEndian.value bs = s * 2 ^ 15 + k) (hs : s < 2)
    (hk : k < 31 * 2 ^ 10) :
    f32Value (f16ToF32Le bs) = some (signed (signBit s) (mag binary16 k)) := by
  rcases lt_or_ge k (2 ^ 10) with hsub | hnormal
  · exact (f32Value_subnormal hbs hs hsub).1
  · have hfields := fields_of_read hbs hs (by omega) hnormal
    rw [if_pos hk] at hfields
    rcases hfields.cases with ⟨-, hval, -⟩ | ⟨hE, -⟩ | ⟨hE, -⟩
    · rw [hval]
      have hsplit : k = 2 ^ 10 * (k / 2 ^ 10) + k % 2 ^ 10 := (Nat.div_add_mod k _).symm
      have hexp : (((k / 2 ^ 10 + 112 : ℕ) : ℤ) - 150) + (13 : ℕ) = (k / 2 ^ 10 : ℕ) - 25 := by
        push_cast
        ring
      conv_rhs => rw [hsplit]
      rw [mag_normal_binary32 (by omega) (by omega), mag_normal_binary16 (by omega) (by omega),
        ← hexp, zpow_add₀ two_ne_zero, zpow_natCast]
      congr 2
      push_cast
      ring
    · omega
    · omega

end Numbers

section Writing

variable {v : UInt32} {s E M : ℕ}

theorem cutOff_lt (hE : E < 2 ^ 8) (hM : M < 2 ^ 23) : cutOff E M < 2 ^ 15 := by
  rw [cutOff]
  split_ifs with h255 h102 h113 h143
  · omega
  · decide
  · rw [Nat.div_lt_iff_lt_mul (by positivity)]
    have hle : 2 ^ 11 ≤ 2 ^ (123 - E) := Nat.pow_le_pow_right (by decide) (by omega)
    omega
  · decide
  · omega

theorem Fields.value_f32ToF16Bytes (h : Fields v s E M) :
    LittleEndian.value (f32ToF16Bytes v) = s * 2 ^ 15 + cutOff E M := by
  have hs := h.sign
  have hcut := cutOff_lt h.exponent h.mantissa
  rw [h.f32ToF16Bytes_eq]
  exact value_bytes 2 _ (by show _ < 2 ^ 16; omega)

structure Between (E M : ℕ) : Prop where
  finite : cutOff E M < 31 * 2 ^ 10
  le : mag binary16 (cutOff E M) ≤ mag .binary32 (2 ^ 23 * E + M)
  lt : mag .binary32 (2 ^ 23 * E + M) < mag binary16 (cutOff E M + 1)

theorem between_of_small (hE : E < 102) (hM : M < 2 ^ 23) : Between E M := by
  have hcut : cutOff E M = 0 := by
    rw [cutOff, if_neg (by omega), if_pos hE]
  have hone : mag binary16 (0 + 1) = 2 ^ (-24 : ℤ) := by
    rw [mag_subnormal (by decide), exponent_binary16]
    norm_num
  have hbound : mag .binary32 (2 ^ 23 * 102 + 0) = 2 ^ (-25 : ℤ) := by
    rw [mag_normal_binary32 (by decide) (Nat.zero_le _)]
    norm_num
  refine ⟨by rw [hcut]; decide, by rw [hcut, mag_zero]; exact mag_nonneg _ _, ?_⟩
  rw [hcut, hone]
  calc mag .binary32 (2 ^ 23 * E + M) < mag .binary32 (2 ^ 23 * 102 + 0) :=
        mag_strictMono _ (by omega)
    _ = 2 ^ (-25 : ℤ) := hbound
    _ < 2 ^ (-24 : ℤ) := by norm_num

theorem between_of_normal (hlow : 113 ≤ E) (hhigh : E < 143) (hM : M < 2 ^ 23) : Between E M := by
  have hcut : cutOff E M = 2 ^ 10 * (E - 112) + M / 2 ^ 13 := by
    rw [cutOff, if_neg (by omega), if_neg (by omega), if_neg (by omega), if_neg (by omega),
      Nat.mul_comm]
  have hpow : (2 : ℚ) ^ ((E - 112 : ℕ) - 25 : ℤ) = 2 ^ (13 : ℕ) * 2 ^ (E - 150 : ℤ) := by
    have hexp : ((E - 112 : ℕ) - 25 : ℤ) = (13 : ℕ) + (E - 150) := by omega
    rw [hexp, zpow_add₀ two_ne_zero, zpow_natCast]
  have hmag : ∀ m ≤ 2 ^ 10, mag binary16 (2 ^ 10 * (E - 112) + m) =
      ((2 ^ 10 + m) * 2 ^ 13 : ℕ) * 2 ^ (E - 150 : ℤ) := by
    intro m hm
    rw [mag_normal_binary16 (by omega) hm, hpow]
    push_cast
    ring
  have hpos : (0 : ℚ) < 2 ^ (E - 150 : ℤ) := by positivity
  refine ⟨by omega, ?_, ?_⟩
  · rw [hcut, hmag _ (by omega), mag_normal_binary32 (by omega) hM.le]
    refine mul_le_mul_of_nonneg_right ?_ hpos.le
    exact_mod_cast (by omega : (2 ^ 10 + M / 2 ^ 13) * 2 ^ 13 ≤ 2 ^ 23 + M)
  · rw [hcut, Nat.add_assoc, hmag _ (by omega), mag_normal_binary32 (by omega) hM.le]
    refine mul_lt_mul_of_pos_right ?_ hpos
    exact_mod_cast (by omega : 2 ^ 23 + M < (2 ^ 10 + (M / 2 ^ 13 + 1)) * 2 ^ 13)

theorem Fields.f32Value_back (h : Fields v s E M) (hb : cutOff E M < 31 * 2 ^ 10) :
    f32Value (f16ToF32Le (f32ToF16Bytes v)) =
      some (signed (signBit s) (mag binary16 (cutOff E M))) :=
  f32Value_f16ToF32Le h.value_f32ToF16Bytes h.sign hb

theorem Fields.back_of_eq (h : Fields v s E M) (hE : E < 102 ∨ 113 ≤ E ∧ E < 143)
    (heq : mag .binary32 (2 ^ 23 * E + M) = mag binary16 (cutOff E M)) :
    f16ToF32Le (f32ToF16Bytes v) = v := by
  have hM := h.mantissa
  rw [← UInt32.toNat_inj, h.bits]
  rcases hE with hsmall | ⟨hlow, hhigh⟩
  · have hcut : cutOff E M = 0 := by
      rw [cutOff, if_neg (by omega), if_pos hsmall]
    have hwritten := h.value_f32ToF16Bytes
    rw [hcut] at hwritten
    rw [hcut, mag_zero, ← mag_zero .binary32] at heq
    have hnone := (mag_strictMono .binary32).injective heq
    rw [(f32Value_subnormal hwritten h.sign (by decide)).2 rfl]
    omega
  · have hcut : cutOff E M = 2 ^ 10 * (E - 112) + M / 2 ^ 13 := by
      rw [cutOff, if_neg (by omega), if_neg (by omega), if_neg (by omega), if_neg (by omega),
        Nat.mul_comm]
    have hnormal : 2 ^ 10 ≤ cutOff E M := by omega
    have hfinite : cutOff E M < 31 * 2 ^ 10 := by omega
    have hfields := fields_of_read h.value_f32ToF16Bytes h.sign (by omega) hnormal
    rw [if_pos hfinite] at hfields
    have hback := h.f32Value_back hfinite
    rcases hfields.cases with ⟨-, hval, -⟩ | ⟨hinf, -⟩ | ⟨hinf, -⟩
    · rw [hval, ← heq] at hback
      have hsame := (mag_strictMono .binary32).injective
        (signed_injective _ (Option.some.inj hback))
      rw [hfields.bits]
      omega
    · omega
    · omega

end Writing

/-- What comes back of `v` through binary16: a NaN of a NaN, and an infinity and a number of the
format as they were; of another number below `2^16` a neighbour. -/
structure F16Faithful (v : UInt32) : Prop where
  nan : IsNaN (f16ToF32Le (f32ToF16Bytes v)) ↔ IsNaN v
  infinite : IsInfinite v → f16ToF32Le (f32ToF16Bytes v) = v
  exact : ∀ x, f32Value v = some x → Number binary16 x → f16ToF32Le (f32ToF16Bytes v) = v
  near : ∀ x, f32Value v = some x → ¬Number binary16 x → |x| < 2 ^ 16 →
    ∃ y, f32Value (f16ToF32Le (f32ToF16Bytes v)) = some y ∧ Adjacent binary16 x y

/-- Neither is `2^-25 ≤ |v| < 2^-14`, nor is `v` a NaN by the low bits of its mantissa alone. -/
def F16Kept (E M : ℕ) : Prop := (E < 102 ∨ 113 ≤ E) ∧ ¬(E = 255 ∧ 0 < M ∧ M < 2 ^ 13)

section Kept

variable {v : UInt32} {s E M : ℕ}

theorem IsNaN.not_value (h : IsNaN v) (x : ℚ) : f32Value v ≠ some x := by
  rw [f32Value, show f32Unpacked v = .notANumber from h]
  intro hvalue
  cases hvalue

theorem not_isNaN_of_value {x : ℚ} (h : f32Value v = some x) : ¬IsNaN v :=
  fun hnan => hnan.not_value x h

theorem faithful_of_between (h : Fields v s E M) (hE : E < 102 ∨ 113 ≤ E ∧ E < 143)
    (hb : Between E M) : F16Faithful v := by
  have hback := h.f32Value_back hb.finite
  rcases h.cases with ⟨-, hval, hnan, hinf⟩ | ⟨h255, -⟩ | ⟨h255, -⟩
  · refine ⟨iff_of_false (not_isNaN_of_value hback) hnan, fun hi => absurd hi hinf,
      fun x hx hnumber => ?_, fun x hx hnumber _ => ⟨_, hback, ?_⟩⟩
    · obtain rfl := Option.some.inj (hval.symm.trans hx)
      exact h.back_of_eq hE (eq_of_number hnumber hb.le hb.lt)
    · obtain rfl := Option.some.inj (hval.symm.trans hx)
      exact adjacent_signed (by rw [top_binary16]; have := hb.finite; omega) hb.le hb.lt _
  · omega
  · omega

theorem abs_signed {q : ℚ} (hq : 0 ≤ q) (S : Sign) : |signed S q| = q := by
  cases S
  · rw [signed, abs_neg, abs_of_nonneg hq]
  · exact abs_of_nonneg hq

theorem number_lt {x : ℚ} (h : Number binary16 x) : |x| < 2 ^ 16 := by
  obtain ⟨S, k, hk, rfl⟩ := number_iff.1 h
  have htop : mag binary16 (2 ^ 10 * 31 + 0) = 2 ^ 16 := by
    rw [mag_normal_binary16 (by decide) (Nat.zero_le _)]
    norm_num
  rw [abs_signed (mag_nonneg _ _), ← htop]
  exact mag_strictMono _ hk

theorem faithful_of_large (h : Fields v s E M) (hlow : 143 ≤ E) (hhigh : E < 255) :
    F16Faithful v := by
  have hM := h.mantissa
  have hcut : cutOff E M = 31 * 2 ^ 10 := by
    rw [cutOff, if_neg (by omega), if_neg (by omega), if_neg (by omega), if_pos hlow]
  have hwritten := h.value_f32ToF16Bytes
  rw [hcut] at hwritten
  have hfields := fields_of_read hwritten h.sign (by decide) (by decide)
  rcases hfields.cases with ⟨hE, -⟩ | ⟨-, -, -, -, hnot⟩ | ⟨-, hM, -⟩
  · exact absurd hE (by decide)
  · rcases h.cases with ⟨-, hval, hnan, hinf⟩ | ⟨h255, -⟩ | ⟨h255, -⟩
    · have hlarge : ∀ x, f32Value v = some x → (2 : ℚ) ^ 16 ≤ |x| := by
        intro x hx
        obtain rfl := Option.some.inj (hval.symm.trans hx)
        have hbound : mag .binary32 (2 ^ 23 * 143 + 0) = 2 ^ 16 := by
          rw [mag_normal_binary32 (by decide) (Nat.zero_le _)]
          norm_num
        rw [abs_signed (mag_nonneg _ _), ← hbound]
        exact (mag_strictMono _).monotone (by omega)
      exact ⟨iff_of_false hnot hnan, fun hi => absurd hi hinf,
        fun x hx hnumber => absurd (number_lt hnumber) (not_lt.2 (hlarge x hx)),
        fun x hx _ hlt => absurd hlt (not_lt.2 (hlarge x hx))⟩
    · omega
    · omega
  · exact absurd hM (by decide)

theorem faithful_special_iff (h : Fields v s E M) (hE : E = 255) :
    F16Faithful v ↔ ¬(0 < M ∧ M < 2 ^ 13) := by
  have hM := h.mantissa
  have hcut : cutOff E M = 31 * 2 ^ 10 + M / 2 ^ 13 := by rw [cutOff, if_pos hE]
  have hwritten := h.value_f32ToF16Bytes
  rw [hcut] at hwritten
  have hfields := fields_of_read hwritten h.sign (by omega) (by omega)
  rw [if_neg (by omega)] at hfields
  have hmantissa : (31 * 2 ^ 10 + M / 2 ^ 13) % 2 ^ 10 * 2 ^ 13 = M / 2 ^ 13 * 2 ^ 13 := by omega
  rw [hmantissa] at hfields
  rcases h.cases with ⟨hlt, -⟩ | ⟨-, hM0, hinf, hval, hnot⟩ | ⟨-, hpos, hnan, hval, hnot⟩
  · omega
  · refine iff_of_true ⟨?_, fun _ => ?_, fun x hx => ?_, fun x hx => ?_⟩ (by omega)
    · rcases hfields.cases with ⟨hlt, -⟩ | ⟨-, -, -, -, hnot'⟩ | ⟨-, hpos, -⟩
      · exact absurd hlt (by decide)
      · exact iff_of_false hnot' hnot
      · omega
    · rw [← UInt32.toNat_inj, hfields.bits, h.bits, hM0, hE, Nat.zero_div, Nat.zero_mul]
    · rw [hval] at hx
      cases hx
    · rw [hval] at hx
      cases hx
  · rcases hfields.cases with ⟨hlt, -⟩ | ⟨-, hzero, -, -, hnot'⟩ | ⟨-, hkept, hnan', -⟩
    · exact absurd hlt (by decide)
    · exact iff_of_false (fun hf => hnot' (hf.nan.2 hnan)) (by omega)
    · refine iff_of_true ⟨iff_of_true hnan' hnan, fun hi => absurd hi hnot, fun x hx => ?_,
        fun x hx => ?_⟩ (by omega)
      · rw [hval] at hx
        cases hx
      · rw [hval] at hx
        cases hx

/-- Between `2^-25` and `2^-14`, what comes back is eight times too large. -/
theorem not_faithful_of_shifted (h : Fields v s E M) (hlow : 102 ≤ E) (hhigh : E < 113) :
    ¬F16Faithful v := by
  intro hf
  have hM := h.mantissa
  have hcut : cutOff E M = (2 ^ 23 + M) / 2 ^ (123 - E) := by
    rw [cutOff, if_neg (by omega), if_neg (by omega), if_pos hhigh]
  have hpos : 0 < 2 ^ (126 - E) := by positivity
  have hshift : 2 ^ (126 - E) = 2 ^ (123 - E) * 2 ^ 3 := by
    rw [← pow_add]
    congr 1
    omega
  -- the number of the binary16 below
  obtain ⟨q, hq⟩ : ∃ q, q = (2 ^ 23 + M) / 2 ^ (126 - E) := ⟨_, rfl⟩
  have hdiv := Nat.div_add_mod (2 ^ 23 + M) (2 ^ (126 - E))
  have hmod := Nat.mod_lt (2 ^ 23 + M) hpos
  rw [← hq] at hdiv
  have hqlt : q < 2 ^ 10 := by
    have hle : 2 ^ 14 ≤ 2 ^ (126 - E) := Nat.pow_le_pow_right (by decide) (by omega)
    rw [hq, Nat.div_lt_iff_lt_mul hpos]
    omega
  have hscale : mag .binary32 (2 ^ 23 * E + M) * 2 ^ (126 - E) =
      (2 ^ 23 + M : ℕ) * 2 ^ (-24 : ℤ) := by
    have hexp : (-24 : ℤ) = (E - 150) + (126 - E : ℕ) := by omega
    rw [mag_normal_binary32 (by omega) hM.le, hexp, zpow_add₀ two_ne_zero, zpow_natCast]
    ring
  have hunit : ∀ k ≤ 2 ^ 10, mag binary16 k = k * 2 ^ (-24 : ℤ) := by
    intro k hk
    rw [mag_subnormal hk, exponent_binary16]
    norm_num
  have hlt : mag .binary32 (2 ^ 23 * E + M) < mag binary16 (q + 1) := by
    have hcast : ((2 ^ 23 + M : ℕ) : ℚ) < ((q + 1) * 2 ^ (126 - E) : ℕ) := by
      have : 2 ^ 23 + M < (q + 1) * 2 ^ (126 - E) := by rw [Nat.add_mul]; nlinarith
      exact_mod_cast this
    have hpow : (0 : ℚ) < 2 ^ (126 - E) := by positivity
    refine lt_of_mul_lt_mul_right ?_ hpow.le
    rw [hscale, hunit _ (by omega)]
    push_cast at hcast ⊢
    have hunitPos : (0 : ℚ) < 2 ^ (-24 : ℤ) := by positivity
    nlinarith
  -- what is written is further on
  have hfour : 4 ≤ cutOff E M := by
    rw [hcut, Nat.le_div_iff_mul_le (by positivity)]
    have hle : 2 ^ (123 - E) ≤ 2 ^ 21 := Nat.pow_le_pow_right (by decide) (by omega)
    omega
  have hlarge : 8 * q ≤ cutOff E M := by
    rw [hcut, Nat.le_div_iff_mul_le (by positivity)]
    calc 8 * q * 2 ^ (123 - E) = 2 ^ (126 - E) * q := by
          rw [hshift]
          ring
      _ ≤ 2 ^ 23 + M := hdiv ▸ Nat.le_add_right _ _
  have hfinite : cutOff E M < 31 * 2 ^ 10 := by
    have hle : 2 ^ 11 ≤ 2 ^ (123 - E) := Nat.pow_le_pow_right (by decide) (by omega)
    rw [hcut, Nat.div_lt_iff_lt_mul (by positivity)]
    omega
  have hback := h.f32Value_back hfinite
  rcases h.cases with ⟨-, hval, -⟩ | ⟨h255, -⟩ | ⟨h255, -⟩
  · by_cases hnumber : Number binary16 (signed (signBit s) (mag .binary32 (2 ^ 23 * E + M)))
    · rw [hf.exact _ hval hnumber, hval] at hback
      have hsame := signed_injective _ (Option.some.inj hback)
      rw [hsame] at hlt
      have := (mag_strictMono binary16).lt_iff_lt.1 hlt
      omega
    · have hsmall : |signed (signBit s) (mag .binary32 (2 ^ 23 * E + M))| < 2 ^ 16 := by
        rw [abs_signed (mag_nonneg _ _)]
        refine hlt.trans ?_
        rw [hunit _ (by omega)]
        have hcast : ((q + 1 : ℕ) : ℚ) ≤ 2 ^ 10 := by exact_mod_cast hqlt
        calc ((q + 1 : ℕ) : ℚ) * 2 ^ (-24 : ℤ) ≤ 2 ^ 10 * 2 ^ (-24 : ℤ) :=
              mul_le_mul_of_nonneg_right hcast (by positivity)
          _ < 2 ^ 16 := by norm_num
      obtain ⟨y, hy, hadjacent⟩ := hf.near _ hval hnumber hsmall
      obtain rfl := Option.some.inj (hback.symm.trans hy)
      have hnear := le_of_adjacent (by rw [top_binary16]; omega) hlt hadjacent
      omega
  · omega
  · omega

theorem f16Faithful_iff (h : Fields v s E M) : F16Faithful v ↔ F16Kept E M := by
  have hE := h.exponent
  have hM := h.mantissa
  rw [F16Kept]
  by_cases hspecial : E = 255
  · rw [faithful_special_iff h hspecial]
    omega
  · by_cases hlarge : 143 ≤ E
    · exact iff_of_true (faithful_of_large h hlarge (by omega)) (by omega)
    · by_cases hshifted : 102 ≤ E ∧ E < 113
      · exact iff_of_false (not_faithful_of_shifted h hshifted.1 hshifted.2) (by omega)
      · have hgood : E < 102 ∨ 113 ≤ E ∧ E < 143 := by omega
        refine iff_of_true (faithful_of_between h hgood ?_) (by omega)
        rcases hgood with hsmall | ⟨hlow, hhigh⟩
        · exact between_of_small hsmall hM
        · exact between_of_normal hlow hhigh hM

end Kept

end Grim.Format
