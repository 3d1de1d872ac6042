import Mathlib

/-!
# From one float format to another

`convert` unpacks a number of one format and rounds it to another.  A finite number of a format
comes back from any format with room for its mantissas and exponents.
-/

namespace FloatFormat

open Float.Model (Format UnpackedFloat totalExponent)
open Float.Model.UnpackedFloat

variable {spec src dst : Format} {m : ℕ} {e : ℤ} {s : Sign}

def convert (src dst : Format) (b : BitVec src.numBits) : BitVec dst.numBits :=
  pack dst (match unpack src b with
    | .finite s m e _ => round dst s m e
    | f => f)

def Finite (spec : Format) (b : BitVec spec.numBits) : Prop := unpackExponent b ≠ -1#_

instance (b : BitVec spec.numBits) : Decidable (Finite spec b) :=
  inferInstanceAs (Decidable (_ ≠ _))

/-- A mantissa and an exponent as the format keeps them, below the exponent of the infinities. -/
structure Canonical (spec : Format) (m : ℕ) (e : ℤ) : Prop where
  pos : 0 < m
  target : spec.targetExponent (totalExponent m e) = e
  below : e + spec.exponentBias + spec.mantissaBitsWithoutImplicit + 1 < 2 ^ spec.exponentBits

theorem minExponent_eq (spec : Format) :
    spec.minExponent = 1 - (spec.exponentBias + spec.mantissaBitsWithoutImplicit : ℤ) := by
  have hpos : 1 ≤ 2 ^ (spec.exponentBits - 1) := Nat.one_le_two_pow
  rw [Format.minExponent, Format.exponentBias, Format.mantissaBits]
  push_cast [Nat.cast_sub hpos]
  ring

theorem log2_mul_two_pow (hm : 0 < m) : ∀ k, (m * 2 ^ k).log2 = m.log2 + k
  | 0 => by simp
  | k + 1 => by
    have hne : m * 2 ^ k ≠ 0 := by positivity
    rw [pow_succ, ← mul_assoc, mul_comm _ 2, Nat.log2_two_mul hne, log2_mul_two_pow hm k,
      add_assoc]

theorem totalExponent_mul_two_pow (hm : 0 < m) (e : ℤ) (k : ℕ) :
    totalExponent (m * 2 ^ k) (e - k) = totalExponent m e := by
  rw [totalExponent, totalExponent, log2_mul_two_pow hm]
  push_cast
  ring

theorem shiftRight_exact (k : ℕ) : ∀ m : ℕ,
    (ExtendedMantissa.ofMantissaAndAccuracy (m * 2 ^ k) .exact) >>> k =
      ExtendedMantissa.ofMantissaAndAccuracy m .exact := by
  change ∀ m : ℕ, k.repeat ExtendedMantissa.shiftRightOne _ = _
  induction k with
  | zero => intro m; simp [Nat.repeat]
  | succ k ih =>
    intro m
    have hsplit : m * 2 ^ (k + 1) = m * 2 * 2 ^ k := by ring
    rw [Nat.repeat, hsplit, ih]
    simp [ExtendedMantissa.shiftRightOne, ExtendedMantissa.ofMantissaAndAccuracy]

theorem roundedMantissa_exact (m : ℕ) :
    (ExtendedMantissa.ofMantissaAndAccuracy m .exact).roundedMantissa = m := rfl

theorem shiftToTargetExponent_exact (hm : 0 < m)
    (htarget : spec.targetExponent (totalExponent m e) = e) (k : ℕ) :
    shiftToTargetExponent spec (m * 2 ^ k) (e - k) .exact =
      (ExtendedMantissa.ofMantissaAndAccuracy m .exact, e) := by
  have hshift : (e - (e - k)).toNat = k := by omega
  rw [shiftToTargetExponent, totalExponent_mul_two_pow hm, htarget, shiftToExponent]
  simp only [hshift, shiftRight_exact, sub_add_cancel]

theorem roundWithAccuracy_exact (hm : 0 < m)
    (htarget : spec.targetExponent (totalExponent m e) = e) (k : ℕ) :
    roundWithAccuracy spec s (m * 2 ^ k) (e - k) .exact = .finite s m e hm := by
  have hagain : shiftToTargetExponent spec m e .exact =
      (ExtendedMantissa.ofMantissaAndAccuracy m .exact, e) := by
    simpa using shiftToTargetExponent_exact hm htarget 0
  rw [roundWithAccuracy]
  simp only [shiftToTargetExponent_exact hm htarget, roundedMantissa_exact, hagain]
  rw [dif_neg (by exact hm.ne')]
  rfl

theorem round_of_longer (hm : 0 < m) (htarget : spec.targetExponent (totalExponent m e) = e)
    (k : ℕ) : round spec s (m * 2 ^ k) (e - k) = .finite s m e hm := by
  have hstay : (e - k - e).toNat = 0 := by omega
  simp only [UnpackedFloat.round, decreaseExponent, totalExponent_mul_two_pow hm, htarget, hstay,
    Nat.shiftLeft_zero, Nat.cast_zero, sub_zero]
  exact roundWithAccuracy_exact hm htarget k

theorem round_of_shorter (hm : 0 < m) (k : ℕ)
    (htarget : spec.targetExponent (totalExponent m e) = e - k) :
    round spec s m e = .finite s (m * 2 ^ k) (e - k) (by positivity) := by
  have hshift : (e - (e - k)).toNat = k := by omega
  have hlong : 0 < m * 2 ^ k := by positivity
  have hnew : spec.targetExponent (totalExponent (m * 2 ^ k) (e - k)) = e - k := by
    rw [totalExponent_mul_two_pow hm, htarget]
  simp only [UnpackedFloat.round, decreaseExponent, htarget, hshift, Nat.shiftLeft_eq]
  simpa using roundWithAccuracy_exact hlong hnew 0

theorem toBitVec_ofBitVec (v : BitVec 1) : (Sign.ofBitVec v).toBitVec = v := by
  revert v
  decide

theorem packComponents_unpack (b : BitVec spec.numBits) :
    packComponents spec (Sign.ofBitVec (unpackSign b)) (unpackExponent b) (unpackMantissa b) =
      b := by
  have hm := spec.hm
  have he := spec.he
  rw [packComponents, toBitVec_ofBitVec]
  apply BitVec.eq_of_getLsbD_eq
  intro i hi
  simp only [unpackMantissa, unpackExponent, unpackSign, BitVec.getLsbD_append,
    BitVec.getLsbD_cast, BitVec.getLsbD_extractLsb]
  split_ifs with hmantissa hexponent <;>
    (rw [decide_eq_true (by omega), Bool.true_and]; congr 1; omega)

@[simp] theorem unpackSign_packComponents (exponent : BitVec spec.exponentBits)
    (mantissa : BitVec spec.mantissaBitsWithoutImplicit) :
    Sign.ofBitVec (unpackSign (packComponents spec s exponent mantissa)) = s := by
  have hbits : unpackSign (packComponents spec s exponent mantissa) = s.toBitVec := by
    apply BitVec.eq_of_getLsbD_eq
    intro i hi
    have h0 : i = 0 := by omega
    subst h0
    simp only [unpackSign, packComponents, BitVec.getLsbD_append, BitVec.getLsbD_cast,
      BitVec.getLsbD_extractLsb]
    rw [if_neg (by omega), if_neg (by omega), decide_eq_true (by omega), Bool.true_and]
    congr 1
    omega
  rw [hbits]
  cases s <;> rfl

theorem toNat_append_one {w : ℕ} (v : BitVec w) : (1#1 ++ v).toNat = 2 ^ w + v.toNat := by
  rw [BitVec.toNat_append, ← Nat.shiftLeft_add_eq_or_of_lt v.isLt, Nat.shiftLeft_eq]
  simp

/-- The exponent that the bits `E` stand for. -/
def exponentOf (spec : Format) (E : ℕ) : ℤ :=
  E - (spec.exponentBias + spec.mantissaBitsWithoutImplicit)

theorem zero_ne_neg_one (spec : Format) : BitVec.ofNat spec.exponentBits 0 ≠ -1#_ := by
  intro h
  have hnat := congrArg BitVec.toNat h
  have hpow := Nat.one_lt_two_pow spec.he.ne'
  simp only [BitVec.toNat_ofNat, Nat.zero_mod, BitVec.neg_one_eq_allOnes,
    BitVec.toNat_allOnes] at hnat
  omega

section Unpack

variable {E : BitVec spec.exponentBits} {M : BitVec spec.mantissaBitsWithoutImplicit}

theorem unpack_packedZero : unpack spec (packedZero spec s) = .zero s := by
  have hzero := zero_ne_neg_one spec
  rw [unpack, packedZero]
  simp [hzero]

theorem unpack_subnormal (hM : M ≠ 0#_) :
    unpack spec (packComponents spec s 0 M) =
      .finite s M.toNat (exponentOf spec 1)
        (Nat.pos_of_ne_zero fun h => hM (BitVec.eq_of_toNat_eq h)) := by
  have hzero := zero_ne_neg_one spec
  rw [unpack]
  simp [hzero, hM, exponentOf]
  ring

theorem unpack_normal (hinf : E ≠ -1#_) (hzero : E ≠ 0#_) :
    unpack spec (packComponents spec s E M) =
      .finite s (2 ^ spec.mantissaBitsWithoutImplicit + M.toNat) (exponentOf spec E.toNat)
        (by positivity) := by
  rw [unpack]
  simp only [unpackExponent_packComponents, unpackMantissa_packComponents,
    unpackSign_packComponents, hinf, hzero, if_false, toNat_append_one]
  rfl

end Unpack

section Pack

variable {E k : ℕ}

theorem toNat_biased (spec : Format) (E : ℕ) :
    (exponentOf spec E + spec.exponentBias + spec.mantissaBitsWithoutImplicit).toNat = E := by
  rw [exponentOf]
  omega

theorem log2_normal {w : ℕ} (hk : k < 2 ^ w) : (2 ^ w + k).log2 = w := by
  rw [Nat.log2_eq_iff (by positivity), pow_succ]
  omega

theorem pack_normal (hE : E + 1 < 2 ^ spec.exponentBits)
    (hk : k < 2 ^ spec.mantissaBitsWithoutImplicit) {hm} :
    pack spec (.finite s (2 ^ spec.mantissaBitsWithoutImplicit + k) (exponentOf spec E) hm) =
      packComponents spec s (BitVec.ofNat _ E) (BitVec.ofNat _ k) := by
  have hlog : spec.mantissaBitsWithoutImplicit + 1 = spec.mantissaBits := by
    rw [Format.mantissaBits, add_comm]
  rw [pack]
  simp only [toNat_biased, log2_normal hk, hlog, if_true]
  rw [if_neg (by omega)]
  congr 1
  apply BitVec.eq_of_toNat_eq
  simp

theorem pack_subnormal (hbits : 1 < spec.exponentBits)
    (hk : k < 2 ^ spec.mantissaBitsWithoutImplicit) {hm} :
    pack spec (.finite s k (exponentOf spec 1) hm) =
      packComponents spec s 0 (BitVec.ofNat _ k) := by
  have hpow : 2 ^ 2 ≤ 2 ^ spec.exponentBits := Nat.pow_le_pow_right (by omega) hbits
  have hlog : k.log2 + 1 ≠ spec.mantissaBits := by
    have := (Nat.log2_lt hm.ne').2 hk
    rw [Format.mantissaBits]
    omega
  have hone := toNat_biased spec 1
  rw [pack]
  simp only [hone, hlog, if_false]
  rw [if_neg (by omega)]
  rfl

end Pack

theorem canonical_normal {E k : ℕ} (hpos : 0 < E) (hE : E + 1 < 2 ^ spec.exponentBits)
    (hk : k < 2 ^ spec.mantissaBitsWithoutImplicit) :
    Canonical spec (2 ^ spec.mantissaBitsWithoutImplicit + k) (exponentOf spec E) where
  pos := by positivity
  target := by
    rw [Format.targetExponent, totalExponent, log2_normal hk, minExponent_eq, exponentOf,
      Format.mantissaBits]
    push_cast
    omega
  below := by
    rw [exponentOf]
    have : (E : ℤ) + 1 < 2 ^ spec.exponentBits := by exact_mod_cast hE
    omega

theorem canonical_subnormal (hbits : 1 < spec.exponentBits) (hm : 0 < m)
    (hlt : m < 2 ^ spec.mantissaBitsWithoutImplicit) :
    Canonical spec m (exponentOf spec 1) where
  pos := hm
  target := by
    have hlog := (Nat.log2_lt hm.ne').2 hlt
    rw [Format.targetExponent, totalExponent, minExponent_eq, exponentOf, Format.mantissaBits]
    push_cast
    omega
  below := by
    have hpow : 2 ^ 2 ≤ 2 ^ spec.exponentBits := Nat.pow_le_pow_right (by omega) hbits
    have hcast : (2 : ℤ) ^ 2 ≤ 2 ^ spec.exponentBits := by exact_mod_cast hpow
    rw [exponentOf]
    push_cast
    omega

theorem Canonical.cases (h : Canonical spec m e) :
    (∃ E k, 0 < E ∧ E + 1 < 2 ^ spec.exponentBits ∧ k < 2 ^ spec.mantissaBitsWithoutImplicit ∧
        m = 2 ^ spec.mantissaBitsWithoutImplicit + k ∧ e = exponentOf spec E) ∨
      (m < 2 ^ spec.mantissaBitsWithoutImplicit ∧ e = exponentOf spec 1) := by
  have htarget := h.target
  have hbelow := h.below
  rw [Format.targetExponent, totalExponent, minExponent_eq, Format.mantissaBits] at htarget
  push_cast at htarget
  have hne := h.pos.ne'
  by_cases hlt : m < 2 ^ spec.mantissaBitsWithoutImplicit
  · refine .inr ⟨hlt, ?_⟩
    have hlog := (Nat.log2_lt hne).2 hlt
    rw [exponentOf]
    push_cast
    omega
  · have hle : spec.mantissaBitsWithoutImplicit ≤ m.log2 := (Nat.le_log2 hne).2 (not_lt.1 hlt)
    have hlog : m.log2 = spec.mantissaBitsWithoutImplicit := by omega
    have hbounds := (Nat.log2_eq_iff hne).1 hlog
    rw [pow_succ] at hbounds
    refine .inl ⟨(e + spec.exponentBias + spec.mantissaBitsWithoutImplicit).toNat,
      m - 2 ^ spec.mantissaBitsWithoutImplicit, ?_, ?_, ?_, ?_, ?_⟩
    · omega
    · have : ((e + spec.exponentBias + spec.mantissaBitsWithoutImplicit).toNat : ℤ) + 1 <
          2 ^ spec.exponentBits := by omega
      exact_mod_cast this
    · omega
    · omega
    · rw [exponentOf]
      omega

theorem toNat_ofNat_ne {w x y : ℕ} (hx : x < 2 ^ w) (hne : x ≠ y % 2 ^ w) :
    BitVec.ofNat w x ≠ BitVec.ofNat w y := by
  intro h
  have hnat := congrArg BitVec.toNat h
  simp only [BitVec.toNat_ofNat, Nat.mod_eq_of_lt hx] at hnat
  exact hne hnat

theorem neg_one_eq_ofNat (w : ℕ) : (-1#w) = BitVec.ofNat w (2 ^ w - 1) := by
  apply BitVec.eq_of_toNat_eq
  have hpow := Nat.one_le_two_pow (n := w)
  rw [BitVec.neg_one_eq_allOnes, BitVec.toNat_allOnes, BitVec.toNat_ofNat,
    Nat.mod_eq_of_lt (by omega)]

theorem ofNat_ne_neg_one {w x : ℕ} (hx : x + 1 < 2 ^ w) : BitVec.ofNat w x ≠ -1#w := by
  rw [neg_one_eq_ofNat]
  refine toNat_ofNat_ne (by omega) ?_
  rw [Nat.mod_eq_of_lt (by omega)]
  omega

theorem unpack_pack (hbits : 1 < spec.exponentBits) (h : Canonical spec m e) {hm} :
    unpack spec (pack spec (.finite s m e hm)) = .finite s m e hm := by
  rcases h.cases with ⟨E, k, hpos, hE, hk, rfl, rfl⟩ | ⟨hlt, rfl⟩
  · have hinf := ofNat_ne_neg_one hE
    have hzero : BitVec.ofNat spec.exponentBits E ≠ 0#_ :=
      toNat_ofNat_ne (by omega) (by simpa using hpos.ne')
    have hmant : (BitVec.ofNat spec.mantissaBitsWithoutImplicit k).toNat = k := by
      rw [BitVec.toNat_ofNat, Nat.mod_eq_of_lt hk]
    have hexp : (BitVec.ofNat spec.exponentBits E).toNat = E := by
      rw [BitVec.toNat_ofNat, Nat.mod_eq_of_lt (by omega)]
    rw [pack_normal hE hk, unpack_normal hinf hzero]
    simp only [hmant, hexp]
  · have hne : BitVec.ofNat spec.mantissaBitsWithoutImplicit m ≠ 0#_ :=
      toNat_ofNat_ne hlt (by simpa using hm.ne')
    have hmant : (BitVec.ofNat spec.mantissaBitsWithoutImplicit m).toNat = m := by
      rw [BitVec.toNat_ofNat, Nat.mod_eq_of_lt hlt]
    rw [pack_subnormal hbits hlt, unpack_subnormal hne]
    simp only [hmant]

theorem finite_cases (hbits : 1 < spec.exponentBits) {b : BitVec spec.numBits}
    (h : Finite spec b) :
    (∃ s, b = packedZero spec s) ∨
      ∃ s m e, ∃ hc : Canonical spec m e, b = pack spec (.finite s m e hc.pos) := by
  have hb := packComponents_unpack b
  set s := Sign.ofBitVec (unpackSign b)
  have hM := (unpackMantissa b).isLt
  have hE := (unpackExponent b).isLt
  by_cases hzero : unpackExponent b = 0#_
  · by_cases hmant : unpackMantissa b = 0#_
    · refine .inl ⟨s, ?_⟩
      rw [← hb, hzero, hmant]
      rfl
    · have hpos : 0 < (unpackMantissa b).toNat :=
        Nat.pos_of_ne_zero fun h0 => hmant (BitVec.eq_of_toNat_eq h0)
      refine .inr ⟨s, _, _, canonical_subnormal hbits hpos hM, ?_⟩
      rw [pack_subnormal hbits hM, BitVec.ofNat_toNat, BitVec.setWidth_eq]
      rw [hzero] at hb
      exact hb.symm
  · have hpos : 0 < (unpackExponent b).toNat :=
      Nat.pos_of_ne_zero fun h0 => hzero (BitVec.eq_of_toNat_eq h0)
    have hlast : (unpackExponent b).toNat + 1 < 2 ^ spec.exponentBits := by
      have hne : (unpackExponent b).toNat ≠ 2 ^ spec.exponentBits - 1 := by
        intro h1
        apply h
        rw [neg_one_eq_ofNat, ← h1, BitVec.ofNat_toNat, BitVec.setWidth_eq]
      omega
    refine .inr ⟨s, _, _, canonical_normal hpos hlast hM, ?_⟩
    rw [pack_normal hlast hM, BitVec.ofNat_toNat, BitVec.ofNat_toNat, BitVec.setWidth_eq,
      BitVec.setWidth_eq]
    exact hb.symm

/-- `dst` has room for every finite number of `src`. -/
structure Wider (src dst : Format) : Prop where
  bits : 1 < src.exponentBits
  exponent : src.exponentBits ≤ dst.exponentBits
  mantissa : src.mantissaBitsWithoutImplicit ≤ dst.mantissaBitsWithoutImplicit

theorem two_pow_exponentBits (spec : Format) :
    2 ^ spec.exponentBits = 2 * spec.exponentBias + 2 := by
  have hpos : 1 ≤ 2 ^ (spec.exponentBits - 1) := Nat.one_le_two_pow
  have hsplit : 2 ^ spec.exponentBits = 2 * 2 ^ (spec.exponentBits - 1) := by
    rw [← pow_succ', Nat.sub_add_cancel spec.he]
  rw [Format.exponentBias, hsplit]
  omega

theorem Canonical.widen (hw : Wider src dst) (h : Canonical src m e) :
    ∃ k : ℕ, Canonical dst (m * 2 ^ k) (e - k) ∧
      dst.targetExponent (totalExponent m e) = e - k := by
  have hbias : src.exponentBias ≤ dst.exponentBias := by
    rw [Format.exponentBias, Format.exponentBias]
    have := Nat.pow_le_pow_right (n := 2) (by omega)
      (Nat.sub_le_sub_right hw.exponent 1)
    omega
  have hmant := hw.mantissa
  have hsrc := h.target
  have hbelow := h.below
  have hpow : (2 : ℤ) ^ src.exponentBits = 2 * src.exponentBias + 2 := by
    exact_mod_cast two_pow_exponentBits src
  have hpow' : (2 : ℤ) ^ dst.exponentBits = 2 * dst.exponentBias + 2 := by
    exact_mod_cast two_pow_exponentBits dst
  have hdst : dst.targetExponent (totalExponent m e) ≤ e ∧
      dst.targetExponent (totalExponent m e) + dst.exponentBias
        + dst.mantissaBitsWithoutImplicit + 1 < 2 ^ dst.exponentBits := by
    rw [Format.targetExponent, totalExponent, minExponent_eq, Format.mantissaBits] at hsrc ⊢
    push_cast at hsrc ⊢
    constructor <;> omega
  refine ⟨(e - dst.targetExponent (totalExponent m e)).toNat, ?_, by omega⟩
  have hk : e - ((e - dst.targetExponent (totalExponent m e)).toNat : ℤ) =
      dst.targetExponent (totalExponent m e) := by omega
  refine ⟨Nat.mul_pos h.pos (by positivity), ?_, ?_⟩
  · rw [totalExponent_mul_two_pow h.pos, hk]
  · rw [hk]
    exact hdst.2

theorem convert_zero : convert src dst (packedZero src s) = packedZero dst s := by
  rw [convert, unpack_packedZero]
  rfl

theorem finite_packedZero : Finite spec (packedZero spec s) := by
  rw [Finite, packedZero, unpackExponent_packComponents]
  exact zero_ne_neg_one spec

theorem finite_pack (hbits : 1 < spec.exponentBits) (h : Canonical spec m e) {hm} :
    Finite spec (pack spec (.finite s m e hm)) := by
  rcases h.cases with ⟨E, k, hpos, hE, hk, rfl, rfl⟩ | ⟨hlt, rfl⟩
  · rw [Finite, pack_normal hE hk, unpackExponent_packComponents]
    exact ofNat_ne_neg_one hE
  · rw [Finite, pack_subnormal hbits hlt, unpackExponent_packComponents]
    exact zero_ne_neg_one spec

theorem convert_cases (hw : Wider src dst) {b : BitVec src.numBits} (h : Finite src b) :
    (∃ s, b = packedZero src s ∧ convert src dst b = packedZero dst s) ∨
      ∃ s m e k, ∃ hc : Canonical src m e, ∃ hwide : Canonical dst (m * 2 ^ k) (e - (k : ℕ)),
        b = pack src (.finite s m e hc.pos) ∧
          convert src dst b = pack dst (.finite s (m * 2 ^ k) (e - k) hwide.pos) := by
  rcases finite_cases hw.bits h with ⟨s, rfl⟩ | ⟨s, m, e, hc, rfl⟩
  · exact .inl ⟨s, rfl, convert_zero⟩
  · obtain ⟨k, hwide, htarget⟩ := hc.widen hw
    refine .inr ⟨s, m, e, k, hc, hwide, rfl, ?_⟩
    rw [convert, unpack_pack hw.bits hc]
    simp only [round_of_shorter hc.pos k htarget]

theorem finite_convert (hw : Wider src dst) {b : BitVec src.numBits} (h : Finite src b) :
    Finite dst (convert src dst b) := by
  rcases convert_cases hw h with ⟨s, -, hout⟩ | ⟨s, m, e, k, hc, hwide, -, hout⟩
  · rw [hout]
    exact finite_packedZero
  · rw [hout]
    exact finite_pack (lt_of_lt_of_le hw.bits hw.exponent) hwide

theorem convert_convert (hw : Wider src dst) {b : BitVec src.numBits} (h : Finite src b) :
    convert dst src (convert src dst b) = b := by
  have hbits : 1 < dst.exponentBits := lt_of_lt_of_le hw.bits hw.exponent
  rcases convert_cases hw h with ⟨s, hb, hout⟩ | ⟨s, m, e, k, hc, hwide, hb, hout⟩
  · rw [hout, convert_zero, hb]
  · rw [hout, convert, unpack_pack hbits hwide, hb]
    simp only [round_of_longer hc.pos hc.target]

def IsFiniteF32 (x : UInt32) : Prop := Finite .binary32 x.toBitVec

def IsFiniteF64 (x : UInt64) : Prop := Finite .binary64 x.toBitVec

instance (x : UInt32) : Decidable (IsFiniteF32 x) := inferInstanceAs (Decidable (Finite _ _))

instance (x : UInt64) : Decidable (IsFiniteF64 x) := inferInstanceAs (Decidable (Finite _ _))

/-- `x as f64` -/
def f32ToF64 (x : UInt32) : UInt64 := .ofBitVec (convert .binary32 .binary64 x.toBitVec)

/-- `x as f32` -/
def f64ToF32 (x : UInt64) : UInt32 := .ofBitVec (convert .binary64 .binary32 x.toBitVec)

/-- An operation on `f32`, on the bits. -/
def f32Op (op : Format → UnpackedFloat → UnpackedFloat → UnpackedFloat) (a b : UInt32) : UInt32 :=
  .ofBitVec (pack .binary32 (op .binary32 (unpack .binary32 a.toBitVec)
    (unpack .binary32 b.toBitVec)))

def f32Sqrt (a : UInt32) : UInt32 :=
  .ofBitVec (pack .binary32 (sqrt .binary32 (unpack .binary32 a.toBitVec)))

/-- `n as f64` -/
def f64OfNat (n : ℕ) : UInt64 := .ofBitVec (pack .binary64 (round .binary64 .positive n 0))

/-- `-n as f64` -/
def f64OfNeg (n : ℕ) : UInt64 := .ofBitVec (pack .binary64 (round .binary64 .negative n 0))

/-- `n as f32` -/
def f32OfInt (n : ℤ) : UInt32 :=
  .ofBitVec (pack .binary32 (round .binary32 (if n < 0 then .negative else .positive) n.natAbs 0))

theorem wider_f64 : Wider .binary32 .binary64 := ⟨by decide, by decide, by decide⟩

variable {x : UInt32}

theorem isFiniteF64_f32ToF64 (h : IsFiniteF32 x) : IsFiniteF64 (f32ToF64 x) :=
  finite_convert wider_f64 h

theorem f64ToF32_f32ToF64 (h : IsFiniteF32 x) : f64ToF32 (f32ToF64 x) = x := by
  have hback := convert_convert wider_f64 h
  rw [f64ToF32, f32ToF64]
  exact congrArg UInt32.ofBitVec hback

end FloatFormat
