import Grim.Lib.FloatNat

/-!
# Floats in the order of their bits

Without its sign, a float's bits are a natural number.  The next number of the format has the next
bits (`mag_succ`), so the numbers of a format are ordered as their bits are (`mag_strictMono`), and
between neighbouring bits lies no other number of the format.
-/

namespace FloatFormat

open Float.Model (Format UnpackedFloat)
open Float.Model.UnpackedFloat

variable {spec : Format} {n k : ℕ}

def mag (spec : Format) (n : ℕ) : ℚ :=
  if n < 2 ^ spec.mantissaBitsWithoutImplicit then n * 2 ^ exponentOf spec 1
  else (2 ^ spec.mantissaBitsWithoutImplicit + n % 2 ^ spec.mantissaBitsWithoutImplicit : ℕ) *
    2 ^ exponentOf spec (n / 2 ^ spec.mantissaBitsWithoutImplicit)

def ulp (spec : Format) (n : ℕ) : ℚ :=
  2 ^ exponentOf spec (max 1 (n / 2 ^ spec.mantissaBitsWithoutImplicit))

theorem ulp_pos (spec : Format) (n : ℕ) : 0 < ulp spec n := by
  rw [ulp]
  positivity

@[simp] theorem mag_zero (spec : Format) : mag spec 0 = 0 := by
  rw [mag, if_pos (by positivity), Nat.cast_zero, zero_mul]

theorem two_zpow_exponentOf_succ (spec : Format) (E : ℕ) :
    (2 : ℚ) ^ exponentOf spec (E + 1) = 2 * 2 ^ exponentOf spec E := by
  have hexp : exponentOf spec (E + 1) = exponentOf spec E + 1 := by
    rw [exponentOf, exponentOf]
    push_cast
    ring
  rw [hexp, zpow_add_one₀ two_ne_zero, mul_comm]

theorem mag_normal {E M : ℕ} (hE : 1 ≤ E) (hM : M ≤ 2 ^ spec.mantissaBitsWithoutImplicit) :
    mag spec (2 ^ spec.mantissaBitsWithoutImplicit * E + M) =
      (2 ^ spec.mantissaBitsWithoutImplicit + M : ℕ) * 2 ^ exponentOf spec E := by
  have hpos : 0 < 2 ^ spec.mantissaBitsWithoutImplicit := by positivity
  rw [mag]
  set P := 2 ^ spec.mantissaBitsWithoutImplicit
  have hle : P ≤ P * E := Nat.le_mul_of_pos_right P hE
  rw [if_neg (by omega)]
  rcases hM.lt_or_eq with hlt | heq
  · rw [Nat.mul_add_mod, Nat.mod_eq_of_lt hlt, Nat.mul_add_div hpos, Nat.div_eq_of_lt hlt,
      Nat.add_zero]
  · have hnext : P * E + M = P * (E + 1) := by rw [heq, Nat.mul_add, Nat.mul_one]
    rw [hnext, Nat.mul_mod_right, Nat.mul_div_cancel_left _ hpos, two_zpow_exponentOf_succ, heq]
    push_cast
    ring

theorem mag_subnormal (h : n ≤ 2 ^ spec.mantissaBitsWithoutImplicit) :
    mag spec n = n * 2 ^ exponentOf spec 1 := by
  rcases h.lt_or_eq with hlt | rfl
  · rw [mag, if_pos hlt]
  · have hone : mag spec (2 ^ spec.mantissaBitsWithoutImplicit * 1 + 0) =
        (2 ^ spec.mantissaBitsWithoutImplicit + 0 : ℕ) * 2 ^ exponentOf spec 1 :=
      mag_normal le_rfl (Nat.zero_le _)
    rwa [Nat.mul_one, Nat.add_zero] at hone

theorem ulp_normal {E M : ℕ} (hE : 1 ≤ E) (hM : M < 2 ^ spec.mantissaBitsWithoutImplicit) :
    ulp spec (2 ^ spec.mantissaBitsWithoutImplicit * E + M) = 2 ^ exponentOf spec E := by
  rw [ulp, Nat.mul_add_div (by positivity), Nat.div_eq_of_lt hM, Nat.add_zero, max_eq_right hE]

theorem ulp_subnormal (h : n < 2 ^ spec.mantissaBitsWithoutImplicit) :
    ulp spec n = 2 ^ exponentOf spec 1 := by
  rw [ulp, Nat.div_eq_of_lt h]
  rfl

theorem bits_cases (spec : Format) (n : ℕ) : n < 2 ^ spec.mantissaBitsWithoutImplicit ∨
    ∃ E M, 1 ≤ E ∧ M < 2 ^ spec.mantissaBitsWithoutImplicit ∧
      n = 2 ^ spec.mantissaBitsWithoutImplicit * E + M := by
  have hpos : 0 < 2 ^ spec.mantissaBitsWithoutImplicit := by positivity
  rcases lt_or_ge n (2 ^ spec.mantissaBitsWithoutImplicit) with hlt | hle
  · exact .inl hlt
  · exact .inr ⟨_, _, (Nat.one_le_div_iff hpos).2 hle, Nat.mod_lt n hpos,
      (Nat.div_add_mod n _).symm⟩

theorem mag_succ (spec : Format) (n : ℕ) : mag spec (n + 1) = mag spec n + ulp spec n := by
  rcases bits_cases spec n with hsub | ⟨E, M, hE, hM, rfl⟩
  · rw [mag_subnormal hsub, mag_subnormal hsub.le, ulp_subnormal hsub]
    push_cast
    ring
  · rw [Nat.add_assoc, mag_normal hE hM, mag_normal hE hM.le, ulp_normal hE hM]
    push_cast
    ring

theorem mag_strictMono (spec : Format) : StrictMono (mag spec) :=
  strictMono_nat_of_lt_succ fun n => by
    rw [mag_succ]
    exact lt_add_of_pos_right _ (ulp_pos spec n)

theorem mag_nonneg (spec : Format) (n : ℕ) : 0 ≤ mag spec n := by
  rw [← mag_zero spec]
  exact (mag_strictMono spec).monotone (Nat.zero_le n)

def magnitude (b : BitVec spec.numBits) : ℕ :=
  b.toNat % 2 ^ (spec.mantissaBitsWithoutImplicit + spec.exponentBits)

def signOf (b : BitVec spec.numBits) : Sign := .ofBitVec (unpackSign b)

def top (spec : Format) : ℕ :=
  2 ^ spec.mantissaBitsWithoutImplicit * (2 ^ spec.exponentBits - 1)

def signed : Sign → ℚ → ℚ
  | .positive, q => q
  | .negative, q => -q

theorem valueOf_eq (s : Sign) (m : ℕ) (e : ℤ) : valueOf s m e = signed s (m * 2 ^ e) := by
  cases s
  · rw [valueOf, signed, Sign.apply]
    push_cast
    ring
  · rw [valueOf, signed, Sign.apply]
    push_cast
    ring

section Unpack

variable (b : BitVec spec.numBits)

theorem toNat_unpackMantissa :
    (unpackMantissa b).toNat = b.toNat % 2 ^ spec.mantissaBitsWithoutImplicit := by
  have hm := spec.hm
  rw [unpackMantissa, BitVec.toNat_cast, BitVec.extractLsb_toNat, Nat.shiftRight_zero]
  congr 2
  omega

theorem toNat_unpackExponent : (unpackExponent b).toNat =
    b.toNat / 2 ^ spec.mantissaBitsWithoutImplicit % 2 ^ spec.exponentBits := by
  have he := spec.he
  rw [unpackExponent, BitVec.toNat_cast, BitVec.extractLsb_toNat, Nat.shiftRight_eq_div_pow]
  congr 2
  omega

theorem magnitude_eq : magnitude b = 2 ^ spec.mantissaBitsWithoutImplicit *
    (unpackExponent b).toNat + (unpackMantissa b).toNat := by
  rw [magnitude, toNat_unpackMantissa, toNat_unpackExponent, pow_add, Nat.mod_mul, Nat.add_comm]

theorem unpack_cases :
    (magnitude b < top spec ∧
      value (unpack spec b) = some (signed (signOf b) (mag spec (magnitude b)))) ∨
    (magnitude b = top spec ∧ unpack spec b = .infinity (signOf b)) ∨
    (top spec < magnitude b ∧ unpack spec b = .notANumber) := by
  have hpos : 0 < 2 ^ spec.mantissaBitsWithoutImplicit := by positivity
  have hM := (unpackMantissa b).isLt
  have hE := (unpackExponent b).isLt
  have hmag := magnitude_eq b
  have hall : (unpackExponent b = -1#_) ↔ (unpackExponent b).toNat = 2 ^ spec.exponentBits - 1 := by
    rw [← BitVec.toNat_inj, BitVec.neg_one_eq_allOnes, BitVec.toNat_allOnes]
  have hnone : (unpackExponent b = 0#_) ↔ (unpackExponent b).toNat = 0 := by
    rw [← BitVec.toNat_inj, BitVec.toNat_zero]
  have hzero : (unpackMantissa b = 0#_) ↔ (unpackMantissa b).toNat = 0 := by
    rw [← BitVec.toNat_inj, BitVec.toNat_zero]
  rw [hmag, top]
  by_cases hinf : unpackExponent b = -1#_
  · rw [hall.1 hinf]
    by_cases hm : unpackMantissa b = 0#_
    · refine .inr (.inl ⟨by rw [hzero.1 hm, Nat.add_zero], ?_⟩)
      rw [unpack]
      simp only [if_pos hinf, if_pos hm]
      rfl
    · have hne : (unpackMantissa b).toNat ≠ 0 := fun h => hm (hzero.2 h)
      refine .inr (.inr ⟨by omega, ?_⟩)
      rw [unpack]
      simp only [if_pos hinf, if_neg hm]
  · have hbelow : (unpackExponent b).toNat + 1 ≤ 2 ^ spec.exponentBits - 1 := by
      have hne : (unpackExponent b).toNat ≠ 2 ^ spec.exponentBits - 1 := fun h => hinf (hall.2 h)
      omega
    have hlt : 2 ^ spec.mantissaBitsWithoutImplicit * (unpackExponent b).toNat +
        (unpackMantissa b).toNat <
          2 ^ spec.mantissaBitsWithoutImplicit * (2 ^ spec.exponentBits - 1) :=
      lt_of_lt_of_le (by rw [Nat.mul_add, Nat.mul_one]; omega) (Nat.mul_le_mul_left _ hbelow)
    refine .inl ⟨hlt, ?_⟩
    rw [unpack]
    simp only [if_neg hinf]
    by_cases hsub : unpackExponent b = 0#_
    · rw [if_pos hsub, hnone.1 hsub, Nat.mul_zero, Nat.zero_add, mag_subnormal hM.le]
      by_cases hm : unpackMantissa b = 0#_
      · rw [dif_pos hm, hzero.1 hm, value, Nat.cast_zero, zero_mul]
        cases signOf b <;> simp [signed]
      · rw [dif_neg hm, value, valueOf_eq]
        have hexp : exponentOf spec 1 = ((0 : ℕ) : ℤ) -
            (spec.exponentBias + spec.mantissaBitsWithoutImplicit) + 1 := by
          rw [exponentOf]
          push_cast
          ring
        rw [hexp]
        rfl
    · have hone : 1 ≤ (unpackExponent b).toNat :=
        Nat.one_le_iff_ne_zero.2 fun h => hsub (hnone.2 h)
      rw [if_neg hsub, mag_normal hone hM.le, value, valueOf_eq, toNat_append_one]
      rfl

end Unpack

def signBit (i : ℕ) : Sign := if i = 0 then .positive else .negative

theorem signOf_eq (b : BitVec spec.numBits) : signOf b =
    signBit (b.toNat / 2 ^ (spec.mantissaBitsWithoutImplicit + spec.exponentBits)) := by
  have hbits := b.isLt
  have hsplit : 2 ^ spec.numBits =
      2 * 2 ^ (spec.mantissaBitsWithoutImplicit + spec.exponentBits) := by
    rw [← pow_succ', Format.numBits]
    congr 1
    omega
  have hlt : b.toNat / 2 ^ (spec.mantissaBitsWithoutImplicit + spec.exponentBits) < 2 := by
    rw [Nat.div_lt_iff_lt_mul (by positivity), ← hsplit]
    exact hbits
  have hsign : (unpackSign b).toNat =
      b.toNat / 2 ^ (spec.mantissaBitsWithoutImplicit + spec.exponentBits) := by
    rw [unpackSign, BitVec.toNat_cast, BitVec.extractLsb_toNat, Nat.shiftRight_eq_div_pow]
    simp only [Nat.sub_self, Nat.zero_add, pow_one]
    exact Nat.mod_eq_of_lt hlt
  rw [signOf, signBit, ← hsign]
  rcases BitVec.eq_zero_or_eq_one (unpackSign b) with h | h <;> rw [h] <;> rfl

def Number (spec : Format) (x : ℚ) : Prop :=
  ∃ b : BitVec spec.numBits, value (unpack spec b) = some x

/-- `y` is a number of the format, and none lies between it and `x`. -/
structure Adjacent (spec : Format) (x y : ℚ) : Prop where
  number : Number spec y
  below : ∀ z, Number spec z → y < z → ¬z < x
  above : ∀ z, Number spec z → z < y → ¬x < z

theorem number_iff {x : ℚ} :
    Number spec x ↔ ∃ s k, k < top spec ∧ x = signed s (mag spec k) := by
  constructor
  · rintro ⟨b, hb⟩
    rcases unpack_cases b with ⟨hlt, hval⟩ | ⟨-, hinf⟩ | ⟨-, hnan⟩
    · exact ⟨_, _, hlt, (Option.some.inj (hval.symm.trans hb)).symm⟩
    · rw [hinf] at hb
      cases hb
    · rw [hnan] at hb
      cases hb
  · rintro ⟨s, k, hk, rfl⟩
    have hone : ∀ i < 2, signBit i = s → Number spec (signed s (mag spec k)) := by
      intro i hi hs
      have hroom : k < 2 ^ (spec.mantissaBitsWithoutImplicit + spec.exponentBits) := by
        refine hk.trans_le ?_
        rw [top, pow_add]
        exact Nat.mul_le_mul_left _ (Nat.sub_le _ _)
      have hnat : (BitVec.ofNat spec.numBits
          (i * 2 ^ (spec.mantissaBitsWithoutImplicit + spec.exponentBits) + k)).toNat =
            i * 2 ^ (spec.mantissaBitsWithoutImplicit + spec.exponentBits) + k := by
        refine (BitVec.toNat_ofNat ..).trans (Nat.mod_eq_of_lt ?_)
        have hsplit : 2 ^ spec.numBits =
            2 * 2 ^ (spec.mantissaBitsWithoutImplicit + spec.exponentBits) := by
          rw [← pow_succ', Format.numBits]
          congr 1
          omega
        rw [hsplit]
        nlinarith
      refine ⟨BitVec.ofNat _ (i * 2 ^ (spec.mantissaBitsWithoutImplicit + spec.exponentBits) + k),
        ?_⟩
      have hmag : magnitude (BitVec.ofNat spec.numBits
          (i * 2 ^ (spec.mantissaBitsWithoutImplicit + spec.exponentBits) + k)) = k := by
        rw [magnitude, hnat, Nat.mul_add_mod_self_right, Nat.mod_eq_of_lt hroom]
      have hsign := signOf_eq (BitVec.ofNat spec.numBits
        (i * 2 ^ (spec.mantissaBitsWithoutImplicit + spec.exponentBits) + k))
      rw [hnat, Nat.add_comm, Nat.add_mul_div_right _ _ (by positivity), Nat.div_eq_of_lt hroom,
        Nat.zero_add, hs, Nat.add_comm] at hsign
      rcases unpack_cases (BitVec.ofNat spec.numBits
        (i * 2 ^ (spec.mantissaBitsWithoutImplicit + spec.exponentBits) + k)) with
          ⟨-, hval⟩ | ⟨htop, -⟩ | ⟨htop, -⟩
      · rw [hval, hmag, hsign]
      · omega
      · omega
    cases s
    · exact hone 1 (by decide) rfl
    · exact hone 0 (by decide) rfl

theorem signed_neg (s : Sign) (q : ℚ) : signed (-s) q = -signed s q := by
  cases s
  · exact (neg_neg q).symm
  · rfl

theorem Number.neg {x : ℚ} (h : Number spec x) : Number spec (-x) := by
  obtain ⟨s, k, hk, rfl⟩ := number_iff.1 h
  exact number_iff.2 ⟨-s, k, hk, (signed_neg s _).symm⟩

theorem Adjacent.neg {x y : ℚ} (h : Adjacent spec x y) : Adjacent spec (-x) (-y) where
  number := h.number.neg
  below := fun _ hz hlt hlt' => h.above _ hz.neg (by linarith) (by linarith)
  above := fun _ hz hlt hlt' => h.below _ hz.neg (by linarith) (by linarith)

theorem number_mag (hk : k < top spec) : Number spec (mag spec k) :=
  number_iff.2 ⟨.positive, k, hk, rfl⟩

theorem le_of_number {z : ℚ} (hz : Number spec z) (h : mag spec k < z) :
    mag spec (k + 1) ≤ z := by
  obtain ⟨s, k', -, rfl⟩ := number_iff.1 hz
  cases s
  · have hneg : -mag spec k' ≤ mag spec k := by
      have := mag_nonneg spec k'
      have := mag_nonneg spec k
      linarith
    exact absurd h (not_lt.2 hneg)
  · exact (mag_strictMono spec).monotone ((mag_strictMono spec).lt_iff_lt.1 h)

theorem adjacent_of_between {q : ℚ} (hk : k < top spec) (hle : mag spec k ≤ q)
    (hlt : q < mag spec (k + 1)) : Adjacent spec q (mag spec k) where
  number := number_mag hk
  below := fun _ hz hlt' hzq => absurd (le_of_number hz hlt') (not_le.2 (hzq.trans hlt))
  above := fun _ _ hzy hqz => absurd (hqz.trans hzy) (not_lt.2 hle)

theorem adjacent_signed {q : ℚ} (hk : k < top spec) (hle : mag spec k ≤ q)
    (hlt : q < mag spec (k + 1)) (s : Sign) :
    Adjacent spec (signed s q) (signed s (mag spec k)) := by
  cases s
  · exact (adjacent_of_between hk hle hlt).neg
  · exact adjacent_of_between hk hle hlt

theorem signed_injective (s : Sign) {q q' : ℚ} (h : signed s q = signed s q') : q = q' := by
  cases s
  · exact neg_injective h
  · exact h

theorem eq_of_number {q : ℚ} {s : Sign} (h : Number spec (signed s q)) (hle : mag spec k ≤ q)
    (hlt : q < mag spec (k + 1)) : q = mag spec k := by
  have hq : Number spec q := by
    cases s
    · rw [← neg_neg q]
      exact h.neg
    · exact h
  by_contra hne
  have hlt' : mag spec k < q := lt_of_le_of_ne hle (Ne.symm hne)
  exact absurd (le_of_number hq hlt') (not_le.2 hlt)

theorem le_of_adjacent {q : ℚ} {k' : ℕ} {s : Sign} (hk : k + 1 < top spec)
    (hlt : q < mag spec (k + 1)) (h : Adjacent spec (signed s q) (signed s (mag spec k'))) :
    k' ≤ k + 1 := by
  have hadj : Adjacent spec q (mag spec k') := by
    cases s
    · have hneg := h.neg
      simp only [signed, neg_neg] at hneg
      exact hneg
    · exact h
  by_contra hfar
  have hnext : mag spec (k + 1) < mag spec k' := mag_strictMono spec (not_le.1 hfar)
  exact hadj.above _ (number_mag hk) hnext hlt

def extended (b : BitVec spec.numBits) : ℚ := signed (signOf b) (mag spec (magnitude b))

/-- Of the numbers of the format and its infinities, `b` is nearest to `x`; of two, it is the one
with an even mantissa. -/
structure NearestEven (spec : Format) (x : ℚ) (b : BitVec spec.numBits) : Prop where
  le : magnitude b ≤ top spec
  nearest : ∀ b' : BitVec spec.numBits, magnitude b' ≤ top spec →
    |extended b - x| ≤ |extended b' - x|
  even : ∀ b' : BitVec spec.numBits, magnitude b' ≤ top spec → extended b' ≠ extended b →
    |extended b' - x| = |extended b - x| → magnitude b % 2 = 0

theorem abs_signed_sub (s : Sign) (p q : ℚ) : |signed s p - signed s q| = |p - q| := by
  cases s
  · rw [signed, signed, ← abs_neg]
    congr 1
    ring
  · rfl

theorem far_of_between {q : ℚ} (hle : mag spec k ≤ q) (hlt : q < mag spec (k + 1)) (s : Sign)
    (b : BitVec spec.numBits) :
    (q - mag spec k ≤ |extended b - signed s q| ∧
      (|extended b - signed s q| = q - mag spec k → extended b = signed s (mag spec k))) ∨
    (mag spec (k + 1) - q ≤ |extended b - signed s q| ∧
      (|extended b - signed s q| = mag spec (k + 1) - q →
        extended b = signed s (mag spec (k + 1)))) := by
  have hk := mag_nonneg spec k
  have hm := mag_nonneg spec (magnitude b)
  rw [extended]
  by_cases hsign : signOf b = s
  · rw [hsign, abs_signed_sub]
    rcases le_or_gt (magnitude b) k with hlow | hhigh
    · have hmono := (mag_strictMono spec).monotone hlow
      have habs : |mag spec (magnitude b) - q| = q - mag spec (magnitude b) := by
        rw [abs_sub_comm, abs_of_nonneg (by linarith)]
      refine .inl ⟨by rw [habs]; linarith, fun heq => ?_⟩
      rw [habs] at heq
      congr 1
      linarith
    · have hmono := (mag_strictMono spec).monotone (Nat.succ_le_of_lt hhigh)
      have habs : |mag spec (magnitude b) - q| = mag spec (magnitude b) - q :=
        abs_of_nonneg (by linarith)
      refine .inr ⟨by rw [habs]; linarith, fun heq => ?_⟩
      rw [habs] at heq
      congr 1
      linarith
  · have habs : |signed (signOf b) (mag spec (magnitude b)) - signed s q| =
        mag spec (magnitude b) + q := by
      cases hb : signOf b <;> cases s <;> simp only [hb, not_true_eq_false] at hsign
      · rw [signed, signed, abs_of_nonpos (by linarith)]
        ring
      · rw [signed, signed, abs_of_nonneg (by linarith)]
        ring
    refine .inl ⟨by rw [habs]; linarith, fun heq => ?_⟩
    rw [habs] at heq
    have hzero : mag spec (magnitude b) = 0 := by linarith
    have hnone : mag spec k = 0 := by linarith
    rw [hzero, hnone]
    cases signOf b <;> cases s <;> simp [signed]

theorem nearestEven_of {q : ℚ} {s : Sign} {b : BitVec spec.numBits}
    (htop : magnitude b ≤ top spec) (hle : mag spec k ≤ q) (hlt : q < mag spec (k + 1))
    (hsign : signOf b = s)
    (h : magnitude b = k ∧ q - mag spec k ≤ mag spec (k + 1) - q ∨
      magnitude b = k + 1 ∧ mag spec (k + 1) - q ≤ q - mag spec k)
    (htie : q - mag spec k = mag spec (k + 1) - q → magnitude b % 2 = 0) :
    NearestEven spec (signed s q) b := by
  have hb : extended b = signed s (mag spec (magnitude b)) := by rw [extended, hsign]
  rw [← hsign] at hb ⊢
  rcases h with ⟨hmag, hnear⟩ | ⟨hmag, hnear⟩
  · have hdist : |extended b - signed (signOf b) q| = q - mag spec k := by
      rw [hb, hmag, abs_signed_sub, abs_sub_comm, abs_of_nonneg (by linarith)]
    refine ⟨htop, fun b' _ => ?_, fun b' _ hne heq => ?_⟩
    · rw [hdist]
      rcases far_of_between hle hlt (signOf b) b' with ⟨hfar, -⟩ | ⟨hfar, -⟩
      · exact hfar
      · exact hnear.trans hfar
    · rw [hdist] at heq
      rcases far_of_between hle hlt (signOf b) b' with ⟨-, hsame⟩ | ⟨hfar, -⟩
      · exact absurd ((hsame heq).trans (by rw [hb, hmag])) hne
      · exact htie (le_antisymm hnear (by linarith))
  · have hdist : |extended b - signed (signOf b) q| = mag spec (k + 1) - q := by
      rw [hb, hmag, abs_signed_sub, abs_of_nonneg (by linarith)]
    refine ⟨htop, fun b' _ => ?_, fun b' _ hne heq => ?_⟩
    · rw [hdist]
      rcases far_of_between hle hlt (signOf b) b' with ⟨hfar, -⟩ | ⟨hfar, -⟩
      · exact hnear.trans hfar
      · exact hfar
    · rw [hdist] at heq
      rcases far_of_between hle hlt (signOf b) b' with ⟨hfar, -⟩ | ⟨-, hsame⟩
      · exact htie (le_antisymm (by linarith) hnear)
      · exact absurd ((hsame heq).trans (by rw [hb, hmag])) hne

section Compare

variable (b : BitVec spec.numBits)

theorem unpack_zero (h : magnitude b = 0) : unpack spec b = .zero (signOf b) := by
  have hmag := magnitude_eq b
  have hpos : 0 < 2 ^ spec.mantissaBitsWithoutImplicit := by positivity
  have hE : unpackExponent b = 0#_ := by
    apply BitVec.eq_of_toNat_eq
    rw [BitVec.toNat_zero]
    by_contra hne
    have := Nat.mul_pos hpos (Nat.pos_of_ne_zero hne)
    omega
  have hM : unpackMantissa b = 0#_ := by
    apply BitVec.eq_of_toNat_eq
    rw [BitVec.toNat_zero]
    omega
  have hinf : unpackExponent b ≠ -1#_ := by
    rw [hE]
    exact zero_ne_neg_one spec
  rw [unpack]
  simp only [if_neg hinf, if_pos hE, dif_pos hM]
  rfl

theorem unpack_nonzero (h0 : 0 < magnitude b) (hlt : magnitude b < top spec) :
    ∃ E m, ∃ hm, unpack spec b = .finite (signOf b) m (exponentOf spec E) hm ∧ 1 ≤ E ∧
      m < 2 * 2 ^ spec.mantissaBitsWithoutImplicit ∧
      (1 < E → 2 ^ spec.mantissaBitsWithoutImplicit ≤ m) ∧
      magnitude b + 2 ^ spec.mantissaBitsWithoutImplicit =
        2 ^ spec.mantissaBitsWithoutImplicit * E + m := by
  have hmag := magnitude_eq b
  have hM := (unpackMantissa b).isLt
  have hpos : 0 < 2 ^ spec.mantissaBitsWithoutImplicit := by positivity
  have hinf : unpackExponent b ≠ -1#_ := by
    intro hall
    have hnat := congrArg BitVec.toNat hall
    rw [BitVec.neg_one_eq_allOnes, BitVec.toNat_allOnes] at hnat
    rw [hmag, hnat, top] at hlt
    omega
  rw [unpack]
  simp only [if_neg hinf]
  by_cases hE : unpackExponent b = 0#_
  · have hEnat : (unpackExponent b).toNat = 0 := by rw [hE, BitVec.toNat_zero]
    rw [hEnat, Nat.mul_zero, Nat.zero_add] at hmag
    have hne : unpackMantissa b ≠ 0#_ := by
      intro hzero
      rw [hzero, BitVec.toNat_zero] at hmag
      omega
    rw [if_pos hE, dif_neg hne]
    have hexp : ((unpackExponent b).toNat : ℤ) -
        (spec.exponentBias + spec.mantissaBitsWithoutImplicit) + 1 = exponentOf spec 1 := by
      rw [exponentOf, hEnat]
      push_cast
      ring
    refine ⟨1, (unpackMantissa b).toNat, by omega, ?_, le_rfl, by omega, by omega, by omega⟩
    simp only [hexp]
    rfl
  · have hone : 1 ≤ (unpackExponent b).toNat := by
      refine Nat.one_le_iff_ne_zero.2 fun hzero => hE ?_
      apply BitVec.eq_of_toNat_eq
      rw [hzero, BitVec.toNat_zero]
    rw [if_neg hE]
    refine ⟨(unpackExponent b).toNat, 2 ^ spec.mantissaBitsWithoutImplicit +
      (unpackMantissa b).toNat, by omega, ?_, hone, by omega, by omega, by omega⟩
    simp only [toNat_append_one]
    rfl

theorem unpack_top (h : magnitude b = top spec) : unpack spec b = .infinity (signOf b) := by
  rcases unpack_cases b with ⟨hlt, -⟩ | ⟨-, hinf⟩ | ⟨hgt, -⟩
  · omega
  · exact hinf
  · omega

theorem compare_exponentOf (E E' : ℕ) :
    compare (exponentOf spec E) (exponentOf spec E') = compare E E' := by
  rw [exponentOf, exponentOf]
  rcases lt_trichotomy E E' with h | h | h
  · rw [compare_lt_iff_lt.2 h, compare_lt_iff_lt]
    omega
  · rw [compare_eq_iff_eq.2 h, compare_eq_iff_eq]
    omega
  · rw [compare_gt_iff_gt.2 h, compare_gt_iff_gt]
    omega

variable {b}

theorem then_compare {P E E' m m' i j : ℕ} (hm : m < 2 * P) (hm' : m' < 2 * P)
    (hP : 1 < E → P ≤ m) (hP' : 1 < E' → P ≤ m') (hE : 1 ≤ E) (hE' : 1 ≤ E')
    (hi : i + P = P * E + m) (hj : j + P = P * E' + m') :
    (compare E E').then (compare m m') = compare i j := by
  have hstep : ∀ {k l : ℕ}, k < l → P * k + P ≤ P * l := fun h => by
    rw [← Nat.mul_succ]
    exact Nat.mul_le_mul_left P h
  rcases lt_trichotomy E E' with h | h | h
  · have hrun := hstep h
    have hm' := hP' (by omega)
    have hij : compare i j = .lt := compare_lt_iff_lt.2 (by omega)
    rw [compare_lt_iff_lt.2 h, hij]
    rfl
  · subst h
    rw [compare_eq_iff_eq.2 rfl, Ordering.then]
    rcases lt_trichotomy m m' with h | h | h
    · rw [compare_lt_iff_lt.2 h, compare_lt_iff_lt.2 (by omega)]
    · rw [compare_eq_iff_eq.2 h, compare_eq_iff_eq.2 (by omega)]
    · rw [compare_gt_iff_gt.2 h, compare_gt_iff_gt.2 (by omega)]
  · have hrun := hstep h
    have hm := hP (by omega)
    have hij : compare i j = .gt := compare_gt_iff_gt.2 (by omega)
    rw [compare_gt_iff_gt.2 h, hij]
    rfl

/-- Numbers without a sign compare as their bits do. -/
theorem compare_positive {a : BitVec spec.numBits} (ha : signOf a = .positive)
    (hb : signOf b = .positive) (hat : magnitude a ≤ top spec) (hbt : magnitude b ≤ top spec) :
    (unpack spec a).compare (unpack spec b) = some (compare (magnitude a) (magnitude b)) := by
  have hpos : 0 < 2 ^ spec.mantissaBitsWithoutImplicit := by positivity
  have htop : 0 < top spec := by
    have := Nat.one_lt_two_pow spec.he.ne'
    exact Nat.mul_pos hpos (by omega)
  rcases Nat.eq_zero_or_pos (magnitude a) with ha0 | ha0
  · rw [unpack_zero a ha0, ha0]
    rcases Nat.eq_zero_or_pos (magnitude b) with hb0 | hb0
    · rw [unpack_zero b hb0, hb0]
      rfl
    rw [compare_lt_iff_lt.2 hb0]
    rcases hbt.lt_or_eq with hlt | heq
    · obtain ⟨E, m, hm, hu, -⟩ := unpack_nonzero b hb0 hlt
      rw [hu, hb]
      rfl
    · rw [unpack_top b heq, hb]
      rfl
  rcases hat.lt_or_eq with halt | haeq
  · obtain ⟨E, m, hm, hu, hE, hm2, hmP, hsum⟩ := unpack_nonzero a ha0 halt
    rw [hu, ha]
    rcases Nat.eq_zero_or_pos (magnitude b) with hb0 | hb0
    · rw [unpack_zero b hb0, hb0, compare_gt_iff_gt.2 ha0]
      rfl
    rcases hbt.lt_or_eq with hblt | hbeq
    · obtain ⟨E', m', hm', hu', hE', hm2', hmP', hsum'⟩ := unpack_nonzero b hb0 hblt
      rw [hu', hb]
      change some ((compare (exponentOf spec E) (exponentOf spec E')).then (compare m m')) = _
      rw [compare_exponentOf, then_compare hm2 hm2' hmP hmP' hE hE' hsum hsum']
    · rw [unpack_top b hbeq, hb, compare_lt_iff_lt.2 (by omega)]
      rfl
  · rw [unpack_top a haeq, ha]
    rcases Nat.eq_zero_or_pos (magnitude b) with hb0 | hb0
    · rw [unpack_zero b hb0, hb0, haeq, compare_gt_iff_gt.2 htop]
      rfl
    rcases hbt.lt_or_eq with hblt | hbeq
    · obtain ⟨E', m', hm', hu', -⟩ := unpack_nonzero b hb0 hblt
      rw [hu', hb, haeq, compare_gt_iff_gt.2 hblt]
      rfl
    · rw [unpack_top b hbeq, hb, haeq, hbeq, compare_eq_iff_eq.2 rfl]
      rfl

theorem unpack_isNaN (h : top spec < magnitude b) : unpack spec b = .notANumber := by
  rcases unpack_cases b with ⟨hlt, -⟩ | ⟨heq, -⟩ | ⟨-, hnan⟩
  · omega
  · omega
  · exact hnan

end Compare

section Abs

variable {x y : UInt32}

def f32IsNan (x : UInt32) : Bool := 0x7F800000 < f32Abs x

theorem toNat_f32Abs (x : UInt32) : (f32Abs x).toNat = x.toNat % 2 ^ 31 := by
  rw [f32Abs, UInt32.toNat_and]
  exact Nat.and_two_pow_sub_one_eq_mod _ 31

theorem magnitude_f32Abs (x : UInt32) :
    @magnitude .binary32 (f32Abs x).toBitVec = (f32Abs x).toNat := by
  have h := toNat_f32Abs x
  rw [magnitude]
  change (f32Abs x).toNat % 2 ^ 31 = _
  rw [h, Nat.mod_mod]

theorem signOf_f32Abs (x : UInt32) : @signOf .binary32 (f32Abs x).toBitVec = .positive := by
  have h := toNat_f32Abs x
  have hlt : (f32Abs x).toNat < 2 ^ 31 := by
    rw [h]
    exact Nat.mod_lt _ (by decide)
  rw [signOf_eq]
  change signBit ((f32Abs x).toNat / 2 ^ 31) = _
  rw [Nat.div_eq_of_lt hlt]
  rfl

theorem f32IsNan_iff : f32IsNan x = true ↔ 0x7F800000 < (f32Abs x).toNat := by
  rw [f32IsNan, decide_eq_true_eq]
  exact UInt32.lt_iff_toNat_lt

theorem f32Abs_compare (hx : f32IsNan x = false) (hy : f32IsNan y = false) :
    (f32Unpacked (f32Abs x)).compare (f32Unpacked (f32Abs y)) =
      some (compare (f32Abs x).toNat (f32Abs y).toNat) := by
  have hle : ∀ {z : UInt32}, f32IsNan z = false →
      @magnitude .binary32 (f32Abs z).toBitVec ≤ top .binary32 := fun {z} h => by
    rw [magnitude_f32Abs]
    exact Nat.not_lt.1 fun hlt => by simp [f32IsNan_iff.2 hlt] at h
  rw [← magnitude_f32Abs, ← magnitude_f32Abs]
  exact compare_positive (signOf_f32Abs x) (signOf_f32Abs y) (hle hx) (hle hy)

end Abs

end FloatFormat
