import Grim.Lib.FloatOrder

/-!
# E4M3

A number in one byte: a sign, four bits of exponent and three of mantissa, without infinities and
with one NaN.  An `f32` is its bits.  Every code is decoded to a number that is encoded so that the
same number comes back.
-/

namespace Grim.Quant

open FloatFormat
open Float.Model.UnpackedFloat

/-- `-x` -/
def f32Neg (x : UInt32) : UInt32 := x ^^^ 0x80000000

/-- `2f32.powi(n)`, of a normal number. -/
def f32Powi (n : ℤ) : UInt32 := UInt32.ofNat (n + 127).toNat <<< 23

/-- `f32::NAN` -/
def f32Nan : UInt32 := 0x7FC00000

def fp8E4m3Bias : ℤ := 7

def fp8E4m3ToF32 (byte : UInt8) : UInt32 :=
  let sign := byte &&& 0x80
  let exp := ((byte >>> 3) &&& 0x0F).toNat
  let mant := (byte &&& 0x07).toNat
  let eighths := f32Op div (f32OfInt mant) 0x41000000
  if exp = 0xF then
    -- only `mant == 7` is NaN
    if mant = 7 then f32Nan
    else
      let val := f32Op mul (f32Op add 0x3F800000 eighths) 0x43800000
      if sign ≠ 0 then f32Neg val else val
  else
    let result :=
      if exp ≠ 0 then f32Op mul (f32Op add eighths 0x3F800000) (f32Powi (exp - fp8E4m3Bias))
      else f32Op div (f32OfInt mant) 0x44000000
    if sign ≠ 0 then f32Neg result else result

def f32ToFp8E4m3 (v : UInt32) : UInt8 :=
  if f32IsNan v then 0x7F
  else
    let sign : UInt8 := if v &&& 0x80000000 ≠ 0 then 0x80 else 0
    let a := f32Abs v
    -- saturates from 448 on, infinities with it
    if a = 0x7F800000 ∨ !f32Lt a 0x43E00000 then sign ||| 0x7E
    else if f32Eq a 0 then sign
    else
      let rawExp : ℤ := ((a >>> 23) &&& 0xFF).toNat
      if rawExp = 0 then sign
      else
        let m := a &&& 0x007FFFFF
        let e4m3Exp := rawExp - 127 + 7
        if 1 ≤ e4m3Exp then
          let q := m >>> 20
          let r := m &&& 0x000FFFFF
          let half : UInt32 := 0x00080000
          let q := if half < r ∨ r = half ∧ q &&& 1 = 1 then q + 1 else q
          if q = 8 then
            -- the carry goes into the exponent
            let e4m3Exp := e4m3Exp + 1
            if 15 < e4m3Exp then sign ||| 0x7E
            else sign ||| UInt8.ofNat e4m3Exp.toNat <<< 3
          else sign ||| UInt8.ofNat e4m3Exp.toNat <<< 3 ||| q.toUInt8
        else
          let sh := 21 - e4m3Exp
          if 32 ≤ sh then sign
          else
            let sh := UInt32.ofNat sh.toNat
            let full := (0x00800000 : UInt32) ||| m
            let q := full >>> sh
            let r := full &&& ((1 : UInt32) <<< sh - 1)
            let half := (1 : UInt32) <<< (sh - 1)
            let q := if half < r ∨ r = half ∧ q &&& 1 = 1 then q + 1 else q
            if q = 0 then sign else sign ||| q.toUInt8

/-- What is left of an `f32` once it has been stored in a byte. -/
def e4m3RoundTrip (v : UInt32) : UInt32 := fp8E4m3ToF32 (f32ToFp8E4m3 v)

theorem f32Abs_f32Neg (v : UInt32) : f32Abs (f32Neg v) = f32Abs v := by
  apply UInt32.toNat_inj.1
  rw [toNat_f32Abs, toNat_f32Abs, f32Neg, UInt32.toNat_xor, Nat.xor_mod_two_pow]
  exact Nat.xor_zero _

theorem f32ToFp8E4m3_f32Neg {v : UInt32} (hpos : v &&& 0x80000000 = 0)
    (hneg : f32Neg v &&& 0x80000000 ≠ 0) (hnum : f32IsNan v = false) :
    f32ToFp8E4m3 (f32Neg v) = f32ToFp8E4m3 v ||| 0x80 := by
  have hnan : f32IsNan (f32Neg v) = false := by rw [f32IsNan, f32Abs_f32Neg, ← f32IsNan, hnum]
  unfold f32ToFp8E4m3
  simp only [hnan, hnum, f32Abs_f32Neg, hpos, hneg, ne_eq, not_true_eq_false, not_false_eq_true,
    if_true, if_false, Bool.false_eq_true, UInt8.zero_or]
  split_ifs <;> first | rfl | ac_rfl

theorem fp8E4m3ToF32_high (n : Fin 127) : fp8E4m3ToF32 (UInt8.ofNat (n + 128)) =
    f32Neg (fp8E4m3ToF32 (UInt8.ofNat n)) := by
  have hparts : ∀ n : Fin 127, UInt8.ofNat n &&& 0x80 = 0 ∧ UInt8.ofNat (n + 128) &&& 0x80 ≠ 0 ∧
      (UInt8.ofNat (n + 128) >>> 3) &&& (0x0F : UInt8) = (UInt8.ofNat n >>> 3) &&& 0x0F ∧
      UInt8.ofNat (n + 128) &&& (0x07 : UInt8) = UInt8.ofNat n &&& 0x07 ∧
      ¬ (((UInt8.ofNat n >>> 3) &&& 0x0F).toNat = 0xF ∧ (UInt8.ofNat n &&& 0x07).toNat = 7) := by
    decide +kernel
  obtain ⟨hlow, hhigh, hexp, hmant, hnum⟩ := hparts n
  unfold fp8E4m3ToF32
  simp only [hlow, hhigh, hexp, hmant, ne_eq, not_true_eq_false, not_false_eq_true, if_true,
    if_false]
  split_ifs with he hm
  · exact absurd ⟨he, hm⟩ hnum
  · rfl
  · rfl
  · rfl

theorem f32ToFp8E4m3_fp8E4m3ToF32 : ∀ n : Fin 127,
    (fun v => f32ToFp8E4m3 v = UInt8.ofNat n ∧ v &&& 0x80000000 = 0 ∧
      f32Neg v &&& 0x80000000 ≠ 0 ∧ f32IsNan v = false) (fp8E4m3ToF32 (UInt8.ofNat n)) := by
  decide +kernel

theorem e4m3RoundTrip_fp8E4m3ToF32 (byte : UInt8) :
    e4m3RoundTrip (fp8E4m3ToF32 byte) = fp8E4m3ToF32 byte := by
  have hnan : ∀ b : UInt8, b = 127 ∨ b = 255 → e4m3RoundTrip (fp8E4m3ToF32 b) = fp8E4m3ToF32 b := by
    rintro b (rfl | rfl) <;> decide +kernel
  have hlt := byte.toNat_lt
  by_cases hb : byte = 127 ∨ byte = 255
  · exact hnan byte hb
  have hlow : byte.toNat ≠ 127 := fun h => hb (.inl (UInt8.toNat_inj.1 h))
  have hhigh : byte.toNat ≠ 255 := fun h => hb (.inr (UInt8.toNat_inj.1 h))
  rcases lt_or_ge byte.toNat 127 with h | h
  · obtain ⟨henc, -⟩ := f32ToFp8E4m3_fp8E4m3ToF32 ⟨byte.toNat, h⟩
    rw [UInt8.ofNat_toNat] at henc
    rw [e4m3RoundTrip, henc]
  · have hn : byte.toNat - 128 < 127 := by omega
    obtain ⟨henc, hpos, hneg, hnum⟩ := f32ToFp8E4m3_fp8E4m3ToF32 ⟨_, hn⟩
    have hdec := fp8E4m3ToF32_high ⟨_, hn⟩
    have hbyte : UInt8.ofNat (byte.toNat - 128 + 128) = byte := by
      rw [Nat.sub_add_cancel (by omega), UInt8.ofNat_toNat]
    have hor : ∀ n : Fin 127, UInt8.ofNat n ||| 0x80 = UInt8.ofNat (n + 128) := by decide +kernel
    rw [hbyte] at hdec
    rw [e4m3RoundTrip, hdec, f32ToFp8E4m3_f32Neg hpos hneg hnum, henc, hor ⟨_, hn⟩, hbyte, hdec]

@[simp] theorem fp8E4m3ToF32_zero : fp8E4m3ToF32 0 = 0 := by decide +kernel

example : fp8E4m3ToF32 0x7E = f32OfInt 448 := by decide +kernel

end Grim.Quant
