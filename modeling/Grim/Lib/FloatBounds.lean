import Grim.Lib.FloatFormat

/-!
# Bounds that rounding keeps

A float is at most a bound when the number it stands for is, and what is not a number is at most
any. A natural number that a format keeps without rounding is never passed by rounding up.
-/

namespace FloatFormat

open Float.Model (Format UnpackedFloat totalExponent)
open Float.Model.UnpackedFloat

variable {spec : Format} {s : Sign} {m k B N : ℕ} {e : ℤ} {p q : ℚ} {x y : UnpackedFloat}

def valueOf (s : Sign) (m : ℕ) (e : ℤ) : ℚ := s.apply m * 2 ^ e

def AtMost (q : ℚ) : UnpackedFloat → Prop
  | .notANumber => True
  | .infinity .positive => False
  | .infinity .negative => True
  | .zero _ => 0 ≤ q
  | .finite s m e _ => valueOf s m e ≤ q

theorem valueOf_negative_le (hq : 0 ≤ q) : valueOf .negative m e ≤ q := by
  have hpos : (0 : ℚ) ≤ m * 2 ^ e := by positivity
  rw [valueOf, Sign.apply]
  push_cast
  linarith

theorem shiftRight_mantissa (k : ℕ) (em : ExtendedMantissa) :
    (em >>> k).mantissa = em.mantissa / 2 ^ k := by
  change (k.repeat ExtendedMantissa.shiftRightOne em).mantissa = _
  induction k with
  | zero => rw [Nat.repeat, pow_zero, Nat.div_one]
  | succ k ih => rw [Nat.repeat, ExtendedMantissa.shiftRightOne, ih, Nat.div_div_eq_div_mul,
      pow_succ]

theorem roundedMantissa_le_succ (em : ExtendedMantissa) :
    em.roundedMantissa ≤ em.mantissa + 1 := by
  rcases em with ⟨m, round, sticky⟩
  cases round <;> cases sticky <;>
    simp only [ExtendedMantissa.roundedMantissa, ExtendedMantissa.accuracy,
      Accuracy.roundToNearestEven] <;> omega

theorem roundedMantissa_shiftRight_le (h : m ≤ N * 2 ^ k) :
    (ExtendedMantissa.ofMantissaAndAccuracy m .exact >>> k).roundedMantissa ≤ N := by
  have hpow : 0 < 2 ^ k := by positivity
  by_cases hdvd : 2 ^ k ∣ m
  · obtain ⟨c, rfl⟩ := hdvd
    rw [mul_comm (2 ^ k) c, shiftRight_exact, roundedMantissa_exact]
    exact Nat.le_of_mul_le_mul_right (by rwa [mul_comm (2 ^ k) c] at h) hpow
  · have hne : m ≠ N * 2 ^ k := fun heq => hdvd (heq ▸ Nat.dvd_mul_left ..)
    have hfloor : m / 2 ^ k < N := Nat.div_lt_of_lt_mul (by rw [mul_comm]; omega)
    have hround := roundedMantissa_le_succ (ExtendedMantissa.ofMantissaAndAccuracy m .exact >>> k)
    have hmantissa : (ExtendedMantissa.ofMantissaAndAccuracy m .exact).mantissa = m := rfl
    rw [shiftRight_mantissa, hmantissa] at hround
    omega

theorem minExponent_le_zero (spec : Format) : spec.minExponent ≤ 0 := by
  have hpow : (1 : ℤ) ≤ 2 ^ (spec.exponentBits - 1) := one_le_pow₀ (by norm_num)
  have hbits := spec.hm
  rw [Format.minExponent, Format.mantissaBits]
  omega

theorem targetExponent_le_zero (hm : 0 < m) (hB : B < 2 ^ spec.mantissaBits)
    (h : (m : ℚ) * 2 ^ e ≤ B) : spec.targetExponent (totalExponent m e) ≤ 0 := by
  have hlog : (2 : ℚ) ^ (m.log2 : ℤ) ≤ m := by
    rw [zpow_natCast]
    exact_mod_cast Nat.log2_self_le hm.ne'
  have hlt : (2 : ℚ) ^ (m.log2 + e) < 2 ^ (spec.mantissaBits : ℤ) :=
    calc (2 : ℚ) ^ (m.log2 + e) = 2 ^ (m.log2 : ℤ) * 2 ^ e := zpow_add₀ two_ne_zero _ _
      _ ≤ m * 2 ^ e := by gcongr
      _ ≤ B := h
      _ < 2 ^ (spec.mantissaBits : ℤ) := by rw [zpow_natCast]; exact_mod_cast hB
  have hexp := (zpow_lt_zpow_iff_right₀ (by norm_num : (1 : ℚ) < 2)).1 hlt
  have hmin := minExponent_le_zero spec
  rw [Format.targetExponent, totalExponent]
  omega

theorem le_of_mul_zpow_le (k l : ℕ) (he : e = -(k + l : ℕ)) (h : (m : ℚ) * 2 ^ e ≤ B) :
    m ≤ B * 2 ^ l * 2 ^ k := by
  have hcancel : (2 : ℚ) ^ e * 2 ^ (k + l) = 1 := by
    rw [he, zpow_neg, zpow_natCast]
    exact inv_mul_cancel₀ (by positivity)
  have hle : (m : ℚ) ≤ B * 2 ^ l * 2 ^ k :=
    calc (m : ℚ) = m * 2 ^ e * 2 ^ (k + l) := by rw [mul_assoc, hcancel, mul_one]
      _ ≤ B * 2 ^ (k + l) := by gcongr
      _ = B * 2 ^ l * 2 ^ k := by rw [pow_add]; ring
  exact_mod_cast hle

theorem mul_zpow_le (l : ℕ) (he : e = -(l : ℕ)) (h : m ≤ B * 2 ^ l) : (m : ℚ) * 2 ^ e ≤ B := by
  have hle : (m : ℚ) ≤ B * 2 ^ l := by exact_mod_cast h
  rw [he, zpow_neg, zpow_natCast, ← div_eq_mul_inv, div_le_iff₀ (by positivity)]
  exact hle

theorem shifted_le (k : ℕ) (h : (m : ℚ) * 2 ^ e ≤ q) :
    ((m / 2 ^ k : ℕ) : ℚ) * 2 ^ (e + k) ≤ q := by
  have hfloor : ((m / 2 ^ k : ℕ) : ℚ) * 2 ^ k ≤ m := by exact_mod_cast Nat.div_mul_le_self ..
  calc ((m / 2 ^ k : ℕ) : ℚ) * 2 ^ (e + k)
      = ((m / 2 ^ k : ℕ) : ℚ) * 2 ^ k * 2 ^ e := by
        rw [zpow_add₀ two_ne_zero, zpow_natCast]; ring
    _ ≤ m * 2 ^ e := by gcongr
    _ ≤ q := h

theorem atMost_roundWithAccuracy (hm : 0 < m) (hB : B < 2 ^ spec.mantissaBits)
    (h : valueOf s m e ≤ B) : AtMost B (roundWithAccuracy spec s m e .exact) := by
  have hzero : (0 : ℚ) ≤ B := by positivity
  rw [roundWithAccuracy]
  dsimp only
  split_ifs
  · exact hzero
  rw [AtMost]
  cases s with
  | negative => exact valueOf_negative_le hzero
  | positive =>
    have h : (m : ℚ) * 2 ^ e ≤ B := h
    have htarget := targetExponent_le_zero hm hB h
    rw [valueOf, Sign.apply]
    simp only [shiftToTargetExponent, shiftToExponent, shiftRight_mantissa]
    generalize spec.targetExponent (totalExponent m e) = t at htarget ⊢
    refine shifted_le _ ?_
    by_cases hle : t ≤ e
    · have hstay : (t - e).toNat = 0 := by omega
      rw [hstay, Nat.cast_zero, add_zero]
      exact h
    · have hround := roundedMantissa_shiftRight_le
        (le_of_mul_zpow_le (t - e).toNat (-t).toNat (by omega) h)
      exact mul_zpow_le (-t).toNat (by omega) hround

theorem atMost_round (hm : 0 < m) (hB : B < 2 ^ spec.mantissaBits) (h : valueOf s m e ≤ B) :
    AtMost B (round spec s m e) := by
  rw [UnpackedFloat.round, decreaseExponent]
  dsimp only
  generalize (e - spec.targetExponent (totalExponent m e)).toNat = k
  refine atMost_roundWithAccuracy (by rw [Nat.shiftLeft_eq]; positivity) hB ?_
  have hsame : valueOf s (m <<< k) (e - k) = valueOf s m e := by
    have hpow : (2 : ℚ) ^ (e - k) * 2 ^ k = 2 ^ e := by
      rw [zpow_sub₀ two_ne_zero, zpow_natCast, div_mul_cancel₀ _ (by positivity)]
    rw [valueOf, valueOf, ← hpow, Nat.shiftLeft_eq]
    cases s <;> (rw [Sign.apply, Sign.apply]; push_cast; ring)
  rw [hsame]
  exact h

theorem atMost_normalize {n : ℤ} (hB : B < 2 ^ spec.mantissaBits) (h : (n : ℚ) * 2 ^ e ≤ B) :
    AtMost B (normalize spec n e s) := by
  have hzero : (0 : ℚ) ≤ B := by positivity
  rw [UnpackedFloat.normalize]
  rcases lt_trichotomy n 0 with hn | hn | hn
  · rw [compare_lt_iff_lt.mpr hn]
    exact atMost_round (by omega) hB (valueOf_negative_le hzero)
  · rw [compare_eq_iff_eq.mpr hn]
    exact hzero
  · rw [compare_gt_iff_gt.mpr hn]
    refine atMost_round (by omega) hB ?_
    rw [valueOf, Sign.apply, Int.toNat_of_nonneg hn.le]
    exact h

theorem decreased {e₀ : ℤ} (he : e₀ ≤ e) :
    ((s.apply (m <<< (e - e₀).toNat) : ℤ) : ℚ) * 2 ^ e₀ = valueOf s m e := by
  have hpow : (2 : ℚ) ^ (e - e₀).toNat * 2 ^ e₀ = 2 ^ e := by
    rw [← zpow_natCast, ← zpow_add₀ two_ne_zero]
    congr 1
    omega
  rw [valueOf, ← hpow, Nat.shiftLeft_eq]
  cases s <;> (rw [Sign.apply, Sign.apply]; push_cast; ring)

theorem atMost_add (hp : 0 ≤ p) (hq : 0 ≤ q) (hB : B < 2 ^ spec.mantissaBits) (hsum : p + q ≤ B)
    (hx : AtMost p x) (hy : AtMost q y) : AtMost B (add spec x y) := by
  have hzero : (0 : ℚ) ≤ B := by positivity
  rcases x with (_ | _) | _ | s₁ | ⟨s₁, m₁, e₁, h₁⟩ <;>
    rcases y with (_ | _) | _ | s₂ | ⟨s₂, m₂, e₂, h₂⟩
  all_goals try trivial
  · rw [add]
    split_ifs <;> exact hzero
  · exact le_trans (show _ ≤ q from hy) (by linarith)
  · exact le_trans (show _ ≤ p from hx) (by linarith)
  · refine atMost_normalize hB ?_
    have hx : valueOf s₁ m₁ e₁ ≤ p := hx
    have hy : valueOf s₂ m₂ e₂ ≤ q := hy
    rw [Int.cast_add, add_mul, decreased (min_le_left ..), decreased (min_le_right ..)]
    linarith

theorem sign_mul_positive (s : Sign) : s * .positive = s := by cases s <;> rfl

theorem atMost_mul (hB : B < 2 ^ spec.mantissaBits) {m₂ : ℕ} {e₂ : ℤ} {h₂ : 0 < m₂}
    (hprod : p * valueOf .positive m₂ e₂ ≤ B) (hx : AtMost p x) :
    AtMost B (mul spec x (.finite .positive m₂ e₂ h₂)) := by
  have hzero : (0 : ℚ) ≤ B := by positivity
  rcases x with (_ | _) | _ | s₁ | ⟨s₁, m₁, e₁, h₁⟩
  all_goals try trivial
  · refine atMost_roundWithAccuracy (by positivity) hB ?_
    have hx : valueOf s₁ m₁ e₁ ≤ p := hx
    have hsplit : valueOf (s₁ * .positive) (m₁ * m₂) (e₁ + e₂) =
        valueOf s₁ m₁ e₁ * valueOf .positive m₂ e₂ := by
      rw [sign_mul_positive, valueOf, valueOf, valueOf, zpow_add₀ two_ne_zero]
      cases s₁ <;> (simp only [Sign.apply]; push_cast; ring)
    have hpos : 0 ≤ valueOf .positive m₂ e₂ := by
      rw [valueOf, Sign.apply]
      positivity
    rw [hsplit]
    exact le_trans (mul_le_mul_of_nonneg_right hx hpos) hprod

/-- `x.clamp(lo, hi)` -/
def clamp (lo hi x : UnpackedFloat) : UnpackedFloat :=
  let x := if x.lt lo then lo else x
  if hi.lt x then hi else x

def roundHalfAway (m : ℕ) (e : ℤ) : ℕ :=
  if 0 ≤ e then m * 2 ^ e.toNat else (m + 2 ^ ((-e).toNat - 1)) / 2 ^ (-e).toNat

/-- `x.round() as u8` -/
def roundAsU8 : UnpackedFloat → UInt8
  | .notANumber => 0
  | .infinity .positive => 255
  | .infinity .negative => 0
  | .zero _ => 0
  | .finite .negative _ _ _ => 0
  | .finite .positive m e _ => .ofNatClamp (roundHalfAway m e)

/-- `x.round() as u32` -/
def roundAsU32 : UnpackedFloat → UInt32
  | .notANumber => 0
  | .infinity .positive => 4294967295
  | .infinity .negative => 0
  | .zero _ => 0
  | .finite .negative _ _ _ => 0
  | .finite .positive m e _ => .ofNatClamp (roundHalfAway m e)

theorem lt_of_unpack {b : BitVec spec.numBits} {hm : 0 < m}
    (h : unpack spec b = .finite s m e hm) : m < 2 ^ spec.mantissaBits := by
  have hbits := (unpackMantissa b).isLt
  rw [Format.mantissaBits, pow_add, pow_one]
  unfold unpack at h
  dsimp only at h
  split_ifs at h
  · cases h
    omega
  · cases h
    rw [toNat_append_one]
    omega

theorem atMost_of_not_lt (k : ℕ) {n : ℕ} {t : ℤ} {hm : 0 < n} (hn : 2 ^ k ≤ n)
    (hx : ∀ {s m e hm}, x = .finite s m e hm → m < 2 ^ (k + 1))
    (h : ¬(UnpackedFloat.finite .positive n t hm).lt x = true) :
    AtMost (valueOf .positive n t) x := by
  have hpos : 0 ≤ valueOf .positive n t := by
    rw [valueOf, Sign.apply]
    positivity
  rcases x with (_ | _) | _ | s | ⟨_ | _, m, e, hm'⟩
  · trivial
  · exact absurd rfl h
  · trivial
  · exact hpos
  · exact valueOf_negative_le hpos
  · have hlt := hx rfl
    have hnot : (compare t e).then (compare n m) ≠ .lt :=
      fun heq => h (by rw [UnpackedFloat.lt, UnpackedFloat.compare, heq]; rfl)
    change valueOf .positive m e ≤ _
    rw [valueOf, valueOf, Sign.apply, Sign.apply]
    push_cast
    rcases lt_trichotomy t e with he | he | he
    · rw [compare_lt_iff_lt.mpr he] at hnot
      exact absurd rfl hnot
    · rw [compare_eq_iff_eq.mpr he] at hnot
      have hle : m ≤ n := not_lt.1 fun hgt => hnot (compare_lt_iff_lt.mpr hgt)
      rw [he]
      gcongr
    · have hle : (m : ℚ) ≤ n * 2 := by
        rw [pow_succ] at hlt
        exact_mod_cast (by omega : m ≤ n * 2)
      calc (m : ℚ) * 2 ^ e ≤ n * 2 * 2 ^ e := by gcongr
        _ = n * 2 ^ (e + 1) := by rw [zpow_add_one₀ two_ne_zero]; ring
        _ ≤ n * 2 ^ t := by
          have hexp := zpow_le_zpow_right₀ (one_le_two (α := ℚ)) (by omega : e + 1 ≤ t)
          gcongr

theorem atMost_clamp (k : ℕ) {hm : 0 < 2 ^ k}
    (hx : ∀ {s m e hm}, x = .finite s m e hm → m < 2 ^ (k + 1)) :
    AtMost 1 (clamp (.finite .negative (2 ^ k) (-k) hm) (.finite .positive (2 ^ k) (-k) hm) x) := by
  have hone : valueOf .positive (2 ^ k) (-k) = 1 := by
    rw [valueOf, Sign.apply, zpow_neg, zpow_natCast]
    push_cast
    exact mul_inv_cancel₀ (by positivity)
  rw [clamp]
  split_ifs with hlow hhigh hhigh
  · exact hone.le
  · exact valueOf_negative_le zero_le_one
  · exact hone.le
  · rw [← hone]
    exact atMost_of_not_lt k le_rfl hx hhigh

theorem roundAsU8_le (hB : B ≤ 255) (hx : AtMost B x) : (roundAsU8 x).toNat ≤ B := by
  rcases x with (_ | _) | _ | s | ⟨_ | _, m, e, h⟩
  · exact Nat.zero_le _
  · exact hx.elim
  · exact Nat.zero_le _
  · exact Nat.zero_le _
  · exact Nat.zero_le _
  · have hx : (m : ℚ) * 2 ^ e ≤ B := hx
    have hround : roundHalfAway m e ≤ B := by
      rw [roundHalfAway]
      split_ifs with he
      · have hexp : e = e.toNat := (Int.toNat_of_nonneg he).symm
        rw [hexp, zpow_natCast] at hx
        exact_mod_cast hx
      · have hpos : 0 < (-e).toNat := by omega
        have hm := le_of_mul_zpow_le (-e).toNat 0 (by omega) hx
        rw [pow_zero, mul_one] at hm
        have hhalf : 2 ^ ((-e).toNat - 1) < 2 ^ (-e).toNat :=
          Nat.pow_lt_pow_right (by decide) (by omega)
        refine Nat.lt_succ_iff.1 (Nat.div_lt_of_lt_mul ?_)
        rw [Nat.mul_succ, mul_comm]
        omega
    rw [roundAsU8, UInt8.ofNatClamp, dif_pos (by rw [UInt8.size]; omega)]
    exact hround

def f32Unpacked (a : UInt32) : UnpackedFloat := unpack .binary32 a.toBitVec

/-- `a < b` -/
def f32Lt (a b : UInt32) : Bool := (f32Unpacked a).lt (f32Unpacked b)

/-- `a.abs()` -/
def f32Abs (a : UInt32) : UInt32 := a &&& 0x7FFFFFFF

/-- `f32::max(a, b)`, where what is not a number does not count. -/
def f32Max (a b : UInt32) : UInt32 :=
  if (f32Unpacked a).isNaN then b
  else if (f32Unpacked b).isNaN then a
  else if f32Lt a b then b else a

/-- `f32::min(a, b)`, where what is not a number does not count. -/
def f32Min (a b : UInt32) : UInt32 :=
  if (f32Unpacked a).isNaN then b
  else if (f32Unpacked b).isNaN then a
  else if f32Lt b a then b else a

/-- `a.clamp(lo, hi)` -/
def f32Clamp (lo hi a : UInt32) : UInt32 :=
  let a := if f32Lt a lo then lo else a
  if f32Lt hi a then hi else a

/-- `a.round()` -/
def f32Round (a : UInt32) : UInt32 :=
  .ofBitVec (pack .binary32 (match f32Unpacked a with
    | .finite s m e _ => round .binary32 s (roundHalfAway m e) 0
    | f => f))

/-- `a as u32` -/
def f32ToU32 (a : UInt32) : UInt32 := (f32Unpacked a).toUInt32

theorem roundToInt_le {hm : 0 < m} (h : AtMost B (.finite s m e hm)) : roundToInt s m e ≤ B := by
  have hB : (0 : ℤ) ≤ B := by positivity
  simp only [roundToInt, decreaseExponent, shiftToExponent, shiftRight_mantissa]
  have hmantissa : ∀ k, (ExtendedMantissa.ofMantissaAndAccuracy k .exact).mantissa = k :=
    fun _ => rfl
  rw [hmantissa, Nat.shiftLeft_eq, sub_zero]
  rcases s with _ | _
  · rw [Sign.apply]
    push_cast
    have hle : (0 : ℤ) ≤ m * 2 ^ e.toNat / 2 ^ (0 - (e - (e.toNat : ℤ))).toNat := by positivity
    omega
  · have h : (m : ℚ) * 2 ^ e ≤ B := h
    rw [Sign.apply, Nat.cast_le]
    rcases le_total 0 e with he | he
    · have hexp : e = e.toNat := (Int.toNat_of_nonneg he).symm
      have hshift : (0 - (e - (e.toNat : ℤ))).toNat = 0 := by omega
      rw [hexp, zpow_natCast] at h
      rw [hshift, pow_zero, Nat.div_one]
      exact_mod_cast h
    · have hzero : e.toNat = 0 := by omega
      have hshift : (0 - (e - (e.toNat : ℤ))).toNat = (-e).toNat := by omega
      have hle := le_of_mul_zpow_le (-e).toNat 0 (by omega) h
      rw [hshift, hzero, pow_zero, mul_one]
      rw [pow_zero, mul_one] at hle
      exact Nat.div_le_of_le_mul (by rwa [mul_comm])

theorem toUInt32_le (hB : B < 2 ^ 32) (hx : AtMost B x) : x.toUInt32.toNat ≤ B := by
  have hint : (x.toInt 0 (UInt32.size - 1)).toNat ≤ B := by
    rcases x with (_ | _) | _ | s | ⟨s, m, e, hm⟩
    · exact Nat.zero_le _
    · exact hx.elim
    · exact Nat.zero_le _
    · exact Nat.zero_le _
    · have hle := roundToInt_le hx
      rw [toInt]
      omega
  have hsize : (x.toInt 0 (UInt32.size - 1)).toNat < UInt32.size := lt_of_le_of_lt hint hB
  rw [toUInt32, UInt32.ofNatClamp, dif_pos hsize]
  exact hint

theorem unpacked_levels {b : ℕ} (hb : 1 ≤ b) (hb' : b ≤ 8) : ∃ n t, ∃ hn : 0 < n,
    f32Unpacked (f32OfInt (2 ^ b - 1 : ℕ)) = .finite .positive n t hn ∧ 2 ^ 23 ≤ n ∧
      valueOf .positive n t = (2 ^ b - 1 : ℕ) := by
  have hpos : 0 < (2 ^ b - 1) * 2 ^ (24 - b) := by
    have := Nat.pow_le_pow_right (n := 2) (by decide) hb
    exact Nat.mul_pos (by omega) (by positivity)
  refine ⟨(2 ^ b - 1) * 2 ^ (24 - b), b - 24, hpos, ?_, ?_, ?_⟩
  all_goals interval_cases b
  all_goals first | rfl | decide | norm_num [valueOf, Sign.apply, zpow_neg]

theorem f32ToU32_clamp_le {b : ℕ} (hb : 1 ≤ b) (hb' : b ≤ 8) (a : UInt32) :
    (f32ToU32 (f32Clamp 0 (f32OfInt (2 ^ b - 1 : ℕ)) a)).toNat ≤ 2 ^ b - 1 := by
  obtain ⟨n, t, hn, hlevels, hlong, hvalue⟩ := unpacked_levels hb hb'
  have hpow : 2 ^ b ≤ 2 ^ 8 := Nat.pow_le_pow_right (by decide) hb'
  rw [f32ToU32]
  refine toUInt32_le (by omega) ?_
  have hzero : f32Unpacked 0 = .zero .positive := rfl
  rw [f32Clamp]
  have hlow : AtMost (2 ^ b - 1 : ℕ) (f32Unpacked 0) := by
    rw [hzero]
    exact Nat.cast_nonneg _
  have hhigh : AtMost (2 ^ b - 1 : ℕ) (f32Unpacked (f32OfInt (2 ^ b - 1 : ℕ))) := by
    rw [hlevels]
    exact hvalue.le
  split_ifs with hbelow habove habove
  · exact hhigh
  · exact hlow
  · exact hhigh
  · rw [f32Lt, hlevels] at habove
    rw [← hvalue]
    exact atMost_of_not_lt 23 hlong (fun h => lt_of_unpack h) habove

end FloatFormat
