import Grim.Lib.FloatBounds

/-!
# Natural numbers as `f32`

A natural number comes back from `f32` when it has no more significant bits than a mantissa: the
ones up to `2^24`, and then fewer and fewer.  A float that is finite stands for a rational number.
-/

namespace FloatFormat

open Float.Model (Format UnpackedFloat totalExponent)
open Float.Model.UnpackedFloat

variable {m n : ℕ} {e : ℤ} {s : Sign} {x : UInt32}

/-- `a as u64` -/
def f32ToU64 (a : UInt32) : UInt64 := (f32Unpacked a).toUInt64

/-- `a == b` -/
def f32Eq (a b : UInt32) : Bool := (f32Unpacked a).beq (f32Unpacked b)

/-- `a.trunc()` -/
def f32Trunc (a : UInt32) : UInt32 :=
  .ofBitVec (pack .binary32 (match f32Unpacked a with
    | .finite s m e _ => round .binary32 s (roundToInt s m e).natAbs 0
    | f => f))

/-- `a.fract()` -/
def f32Fract (a : UInt32) : UInt32 := f32Op .sub a (f32Trunc a)

def Short (n : ℕ) : Prop := 2 ^ (n.log2 - 23) ∣ n

instance (n : ℕ) : Decidable (Short n) := inferInstanceAs (Decidable (_ ∣ _))

theorem short_of_lt (h : n < 2 ^ 24) : Short n := by
  have hlog : n.log2 - 23 = 0 := by
    rcases Nat.eq_zero_or_pos n with rfl | hn
    · rfl
    · have := (Nat.log2_lt hn.ne').2 h
      omega
  rw [Short, hlog, pow_zero]
  exact one_dvd n

theorem short_mul (k : ℕ) (h : m < 2 ^ 24) : Short (m * 2 ^ k) := by
  rcases Nat.eq_zero_or_pos m with rfl | hm
  · rw [Nat.zero_mul]
    exact short_of_lt (by decide)
  · have hlog := (Nat.log2_lt hm.ne').2 h
    rw [Short, log2_mul_two_pow hm]
    exact Dvd.dvd.mul_left (Nat.pow_dvd_pow 2 (by omega)) m

theorem roundToInt_eq (s : Sign) (m : ℕ) (e : ℤ) :
    roundToInt s m e = s.apply (m * 2 ^ e.toNat / 2 ^ (-e).toNat : ℕ) := by
  have hmantissa : ∀ k, (ExtendedMantissa.ofMantissaAndAccuracy k .exact).mantissa = k :=
    fun _ => rfl
  have hshift : (0 - (e - (e.toNat : ℤ))).toNat = (-e).toNat := by omega
  simp only [roundToInt, decreaseExponent, shiftToExponent, shiftRight_mantissa, sub_zero]
  rw [hmantissa, Nat.shiftLeft_eq, hshift]

theorem short_f32ToU64 (x : UInt32) :
    Short (f32ToU64 x).toNat ∨ (f32ToU64 x).toNat = 2 ^ 64 - 1 := by
  have hzero : Short (UInt64.ofNatClamp 0).toNat := short_of_lt (by decide)
  rw [f32ToU64, toUInt64]
  rcases hx : f32Unpacked x with (_ | _) | _ | s | ⟨_ | _, m, e, hm⟩
  · exact .inl hzero
  · exact .inr rfl
  · exact .inl hzero
  · exact .inl hzero
  · have hneg : (toInt 0 (UInt64.size - 1) (.finite .negative m e hm)).toNat = 0 := by
      rw [toInt, roundToInt_eq]
      exact Int.toNat_of_nonpos (neg_nonpos_of_nonneg (Int.natCast_nonneg _))
    rw [hneg]
    exact .inl hzero
  · have hlt := lt_of_unpack hx
    have hint : (toInt 0 (UInt64.size - 1) (.finite .positive m e hm)).toNat =
        m * 2 ^ e.toNat / 2 ^ (-e).toNat := by
      rw [toInt, roundToInt_eq]
      rfl
    have hshort : Short (m * 2 ^ e.toNat / 2 ^ (-e).toNat) := by
      rcases le_total e 0 with he | he
      · have hzero : e.toNat = 0 := by omega
        rw [hzero, pow_zero, mul_one]
        exact short_of_lt (lt_of_le_of_lt (Nat.div_le_self _ _) hlt)
      · have hzero : (-e).toNat = 0 := by omega
        rw [hzero, pow_zero, Nat.div_one]
        exact short_mul e.toNat hlt
    rw [hint, UInt64.ofNatClamp]
    split_ifs with hsize
    · exact .inl hshort
    · exact .inr rfl

theorem canonical_binary32 (hm : 2 ^ 23 ≤ m) (hlt : m < 2 ^ 24) {L : ℕ} (hL : L < 64) :
    Canonical .binary32 m (L - 23) := by
  have hbias : Format.binary32.exponentBias = 127 := rfl
  have hmantissa : Format.binary32.mantissaBitsWithoutImplicit = 23 := rfl
  have hexp : exponentOf .binary32 (L + 127) = L - 23 := by
    rw [exponentOf, hbias, hmantissa]
    omega
  have hmant : 2 ^ 23 + (m - 2 ^ 23) = m := by omega
  have hcanonical : Canonical .binary32 (2 ^ 23 + (m - 2 ^ 23)) (exponentOf .binary32 (L + 127)) :=
    canonical_normal (by omega) (by change L + 127 + 1 < 2 ^ 8; omega)
      (by rw [hmantissa]; omega)
  rwa [hexp, hmant] at hcanonical

/-- A number with a mantissa's bits is exact as `f32`. -/
theorem f32Unpacked_f32OfInt (hn : 0 < n) (hlt : n < 2 ^ 64) (h : Short n) :
    ∃ m, ∃ hm : 0 < m, f32Unpacked (f32OfInt n) = .finite .positive m (n.log2 - 23) hm ∧
      m * 2 ^ (n.log2 - 23) = n * 2 ^ (23 - n.log2) := by
  have hlog : n.log2 < 64 := (Nat.log2_lt hn.ne').2 hlt
  have hbounds := (Nat.log2_eq_iff hn.ne').1 rfl
  have hround : f32OfInt n = .ofBitVec (pack .binary32 (round .binary32 .positive n 0)) := rfl
  rw [Short] at h
  set L := n.log2
  rcases le_or_gt L 23 with hle | hgt
  · have hsplit : 2 ^ L * 2 ^ (23 - L) = 2 ^ 23 := by
      rw [← pow_add]
      congr 1
      omega
    have hpos : 0 < 2 ^ (23 - L) := by positivity
    have hc : Canonical .binary32 (n * 2 ^ (23 - L)) (L - 23) :=
      canonical_binary32 (by nlinarith) (by rw [pow_succ] at hbounds; nlinarith) hlog
    have hcast : (0 : ℤ) - (23 - L : ℕ) = L - 23 := by omega
    have htotal := totalExponent_mul_two_pow hn 0 (23 - L)
    rw [hcast] at htotal
    have hexact := round_of_shorter (s := .positive) hn (23 - L)
      (by rw [← htotal, hc.target, hcast])
    simp only [hcast] at hexact
    refine ⟨n * 2 ^ (23 - L), hc.pos, ?_, ?_⟩
    · rw [hround, hexact]
      exact unpack_pack (by decide) hc
    · rw [Nat.sub_eq_zero_of_le hle, pow_zero, mul_one]
  · obtain ⟨m, hm⟩ := h
    have hsplit : 2 ^ (L - 23) * 2 ^ 23 = 2 ^ L := by
      rw [← pow_add]
      congr 1
      omega
    have hpos : 0 < 2 ^ (L - 23) := by positivity
    have hc : Canonical .binary32 m (L - 23) :=
      canonical_binary32 (by nlinarith) (by rw [pow_succ] at hbounds; nlinarith) hlog
    have hcast : (L - 23 : ℤ) - (L - 23 : ℕ) = 0 := by omega
    have hexact := round_of_longer (s := .positive) hc.pos hc.target (L - 23)
    rw [hcast, mul_comm, ← hm] at hexact
    refine ⟨m, hc.pos, ?_, ?_⟩
    · rw [hround, hexact]
      exact unpack_pack (by decide) hc
    · rw [Nat.sub_eq_zero_of_le hgt.le, pow_zero, mul_one, mul_comm]
      exact hm.symm

theorem exact_f32OfInt (hn : 0 < n) (hlt : n < 2 ^ 64) (h : Short n) : ∃ m e, ∃ hm : 0 < m,
    f32Unpacked (f32OfInt n) = .finite .positive m e hm ∧ roundToInt .positive m e = n := by
  obtain ⟨m, hm, hx, hval⟩ := f32Unpacked_f32OfInt hn hlt h
  refine ⟨m, _, hm, hx, ?_⟩
  have hleft : (n.log2 - 23 : ℤ).toNat = n.log2 - 23 := by omega
  have hright : (-(n.log2 - 23 : ℤ)).toNat = 23 - n.log2 := by omega
  rw [roundToInt_eq, hleft, hright, hval, Nat.mul_div_cancel n (by positivity)]
  rfl

theorem f32ToU64_f32OfInt (hlt : n < 2 ^ 64) (h : Short n) :
    (f32ToU64 (f32OfInt n)).toNat = n := by
  rcases Nat.eq_zero_or_pos n with rfl | hn
  · rfl
  · obtain ⟨m, e, hm, hx, hint⟩ := exact_f32OfInt hn hlt h
    have htoNat : (toInt 0 (UInt64.size - 1) (.finite .positive m e hm)).toNat = n := by
      rw [toInt, hint]
      rfl
    have hsize : n < UInt64.size := hlt
    rw [f32ToU64, toUInt64, hx, htoNat, UInt64.ofNatClamp, dif_pos hsize]
    rfl

theorem sub_self_finite (spec : Format) {hm : 0 < m} :
    sub spec (.finite s m e hm) (.finite s m e hm) = .zero .positive := by
  have hzero : ∀ a : ℤ, a - a = 0 := fun a => Int.sub_self a
  simp only [sub, hzero, UnpackedFloat.normalize]
  rfl

theorem f32Fract_f32OfInt (hlt : n < 2 ^ 64) (h : Short n) :
    f32Eq (f32Fract (f32OfInt n)) 0 = true := by
  rcases Nat.eq_zero_or_pos n with rfl | hn
  · rfl
  · obtain ⟨m, e, hm, hx, hint⟩ := exact_f32OfInt hn hlt h
    have htrunc : f32Trunc (f32OfInt n) = f32OfInt n := by
      rw [f32Trunc, hx]
      simp only [hint]
      rfl
    have hfract : f32Fract (f32OfInt n) = .ofBitVec (pack .binary32 (.zero .positive)) := by
      rw [f32Unpacked] at hx
      rw [f32Fract, htrunc, f32Op, hx, sub_self_finite]
    rw [hfract]
    rfl

theorem f32OfInt_nonneg (hlt : n < 2 ^ 64) (h : Short n) : f32Lt (f32OfInt n) 0 = false := by
  rcases Nat.eq_zero_or_pos n with rfl | hn
  · rfl
  · obtain ⟨m, e, hm, hx, -⟩ := exact_f32OfInt hn hlt h
    rw [f32Lt, hx]
    rfl

variable {n : ℕ}

/-- The number a float stands for, which an infinity and a NaN do not. -/
def value : UnpackedFloat → Option ℚ
  | .notANumber => none
  | .infinity _ => none
  | .zero _ => some 0
  | .finite s m e _ => some (valueOf s m e)

def f32Value (a : UInt32) : Option ℚ := value (f32Unpacked a)

theorem f32Value_f32OfInt (hlt : n < 2 ^ 64) (h : Short n) :
    f32Value (f32OfInt n) = some (n : ℚ) := by
  rcases Nat.eq_zero_or_pos n with rfl | hn
  · rfl
  · obtain ⟨m, hm, hx, hval⟩ := f32Unpacked_f32OfInt hn hlt h
    have hcast : (m : ℚ) * 2 ^ (n.log2 - 23) = n * 2 ^ (23 - n.log2) := by exact_mod_cast hval
    have hexp : (n.log2 - 23 : ℤ) = (n.log2 - 23 : ℕ) - (23 - n.log2 : ℕ) := by omega
    rw [f32Value, hx, value, valueOf, hexp, zpow_sub₀ two_ne_zero, zpow_natCast, zpow_natCast,
      ← mul_div_assoc]
    refine congrArg some ((div_eq_iff (by positivity)).2 ?_)
    exact hcast

theorem f32Value_f32OfInt_of_le (h : n ≤ 2 ^ 24) : f32Value (f32OfInt n) = some (n : ℚ) := by
  rcases h.lt_or_eq with hlt | rfl
  · exact f32Value_f32OfInt (hlt.trans (by decide)) (short_of_lt hlt)
  · exact f32Value_f32OfInt (by decide) (by decide)

theorem f32OfInt_odd : f32OfInt (2 ^ 24 + 1 : ℕ) = f32OfInt (2 ^ 24 : ℕ) := by decide +kernel

theorem f32Value_f32OfInt_ne :
    f32Value (f32OfInt (2 ^ 24 + 1 : ℕ)) ≠ some ((2 ^ 24 + 1 : ℕ) : ℚ) := by
  rw [f32OfInt_odd, f32Value_f32OfInt_of_le le_rfl]
  intro h
  exact absurd (Nat.cast_injective (Option.some.inj h)) (by decide)

end FloatFormat
