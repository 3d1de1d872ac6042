import Grim.Format.Outliers
import Grim.Lib.LittleEndian

/-!
# The delta-varint codec

A stream is the kind of its values, the count, the differences of the indices modulo `2^64`, and a
residual for each value.  The differences bring each index back in whatever order they stand; the
decoder takes no more than a million outliers.
-/

namespace Grim.Format

open Leb128 List

/-- The loop of `encode_varint`. -/
def encodeVarint (value : UInt64) : List UInt8 :=
  if 0x80 ≤ value then (value.toUInt8 ||| 0x80) :: encodeVarint (value >>> 7)
  else [value.toUInt8]
termination_by value.toNat
decreasing_by
  rw [UInt64.toNat_shiftRight]
  have hle : 128 ≤ value.toNat := by simpa [UInt64.le_iff_toNat_le] using ‹0x80 ≤ value›
  simp only [UInt64.reduceToNat, Nat.reduceMod, Nat.shiftRight_eq_div_pow]
  omega

def indexDeltas : UInt64 → List UInt32 → List UInt64
  | _, [] => []
  | prevIdx, idx :: indices => (idx.toUInt64 - prevIdx) :: indexDeltas idx.toUInt64 indices

variable {F : Type} (vals : OutlierValues F) (residual : F → F → UInt8)

/-- The residuals; `residual` rounds the difference of two values to an `i8`. -/
def residuals : F → List F → List UInt8
  | _, [] => []
  | prevVal, value :: rest =>
    residual value prevVal :: residuals (vals.addI8 prevVal (residual value prevVal)) rest

def encodeOutliersDeltaVarint (outliers : List (GrimOutlier F)) : List UInt8 :=
  0 :: (encodeVarint (UInt64.ofNat outliers.length)
    ++ ((indexDeltas 0 (outliers.map (·.index))).flatMap encodeVarint
      ++ residuals vals residual vals.zero (outliers.map (·.value))))

theorem encodeVarint_eq (v : UInt64) : encodeVarint v = encode v.toNat := by
  induction hn : v.toNat using Nat.strongRecOn generalizing v with
  | ind n ih =>
    rw [encodeVarint]
    have hbyte : v.toUInt8.toNat = n % 256 := by rw [UInt64.toNat_toUInt8, hn]
    split_ifs with hle
    · have hle : 128 ≤ n := by
        rw [UInt64.le_iff_toNat_le, hn] at hle
        exact hle
      have hshift : (v >>> 7).toNat = n / 128 := by
        rw [UInt64.toNat_shiftRight, hn]
        simp [Nat.shiftRight_eq_div_pow]
      rw [encode_of_le hle, ih (n / 128) (by omega) _ hshift, List.cons.injEq]
      refine ⟨UInt8.toNat_inj.mp ?_, rfl⟩
      rw [toNat_ofNat (by omega), toNat_continued, hbyte]
      omega
    · have hlt : n < 128 := by
        rw [UInt64.le_iff_toNat_le, hn] at hle
        exact Nat.not_le.mp hle
      rw [encode_of_lt hlt, List.cons.injEq]
      refine ⟨UInt8.toNat_inj.mp ?_, rfl⟩
      rw [toNat_ofNat (by omega), hbyte]
      omega

theorem toNat_join {value : UInt64} {b : UInt8} {shift : ℕ} (hv : value.toNat < 2 ^ shift)
    (hs : shift < 64) (hb : (b.toNat % 128) * 2 ^ shift < 2 ^ 64) :
    (value ||| ((b &&& 0x7f).toUInt64 <<< UInt64.ofNat shift)).toNat
      = value.toNat + b.toNat % 128 * 2 ^ shift := by
  have hshift : (UInt64.ofNat shift).toNat % 64 = shift := by
    rw [UInt64.toNat_ofNat']
    omega
  rw [UInt64.toNat_or, UInt64.toNat_shiftLeft, hshift, UInt8.toNat_toUInt64, toNat_digit,
    Nat.shiftLeft_eq, Nat.mod_eq_of_lt hb, Nat.mul_comm, Nat.or_comm,
    ← Nat.two_pow_add_eq_or_of_lt hv, Nat.add_comm]

theorem decodeVarintFrom_encode {rest : List UInt8} (n : ℕ) : ∀ {value : UInt64} {shift i : ℕ},
    value.toNat < 2 ^ shift → shift < 64 → n < 2 ^ (64 - shift) →
    decodeVarintFrom value shift i (encode n ++ rest)
      = .ok (UInt64.ofNat (value.toNat + n * 2 ^ shift), i + (encode n).length) := by
  induction n using Nat.strongRecOn with
  | ind n ih =>
    intro value shift i hv hs hn
    have htop : n * 2 ^ shift < 2 ^ 64 := by
      calc n * 2 ^ shift < 2 ^ (64 - shift) * 2 ^ shift := by gcongr
        _ = 2 ^ 64 := by rw [← Nat.pow_add, Nat.sub_add_cancel hs.le]
    rcases Nat.lt_or_ge n 128 with hlt | hge
    · have hbyte : (UInt8.ofNat n).toNat = n := toNat_ofNat (by omega)
      have hjoin := toNat_join (b := UInt8.ofNat n) hv hs (by
        rw [hbyte, Nat.mod_eq_of_lt hlt]
        exact htop)
      rw [hbyte, Nat.mod_eq_of_lt hlt] at hjoin
      rw [encode_of_lt hlt, singleton_append, decodeVarintFrom]
      simp only [if_pos ((ends_iff _).mpr (hbyte ▸ hlt)), length_singleton]
      rw [← hjoin, UInt64.ofNat_toNat]
    · have hbyte : (UInt8.ofNat (n % 128 + 128)).toNat = n % 128 + 128 := toNat_ofNat (by omega)
      have hroom : shift + 7 < 64 := by
        by_contra hge
        have hle : 2 ^ (64 - shift) ≤ 2 ^ 7 := Nat.pow_le_pow_right (by decide) (by omega)
        omega
      have hdigit : n % 128 * 2 ^ shift < 2 ^ 64 :=
        lt_of_le_of_lt (Nat.mul_le_mul_right _ (Nat.mod_le n 128)) htop
      have hjoin := toNat_join (b := UInt8.ofNat (n % 128 + 128)) hv hs (by
        rw [hbyte, Nat.add_mod_right, Nat.mod_mod]
        exact hdigit)
      rw [hbyte, Nat.add_mod_right, Nat.mod_mod] at hjoin
      have hnext : value.toNat + n % 128 * 2 ^ shift < 2 ^ (shift + 7) := by
        have hle : n % 128 * 2 ^ shift ≤ 127 * 2 ^ shift := Nat.mul_le_mul_right _ (by omega)
        rw [Nat.pow_add]
        omega
      have hrest : n / 128 < 2 ^ (64 - (shift + 7)) := by
        rw [Nat.div_lt_iff_lt_mul (by decide), show 128 = 2 ^ 7 from rfl, ← Nat.pow_add,
          show 64 - (shift + 7) + 7 = 64 - shift by omega]
        exact hn
      rw [encode_of_le hge, cons_append, decodeVarintFrom]
      have hgoes : ¬ UInt8.ofNat (n % 128 + 128) &&& 0x80 = 0 := by
        rw [ends_iff]
        omega
      simp only [if_neg hgoes, if_neg (Nat.not_le.mpr hroom), length_cons]
      rw [ih (n / 128) (by omega) (hjoin ▸ hnext) hroom hrest, hjoin]
      have hsum : value.toNat + n % 128 * 2 ^ shift + n / 128 * 2 ^ (shift + 7)
          = value.toNat + n * 2 ^ shift := by
        have hn := Nat.div_add_mod n 128
        rw [Nat.pow_add]
        nth_rewrite 3 [← hn]
        ring
      rw [hsum, Nat.add_assoc, Nat.add_comm 1]

theorem decodeVarint_encodeVarint (v : UInt64) (rest : List UInt8) :
    decodeVarint (encodeVarint v ++ rest) = .ok (v, (encodeVarint v).length) := by
  rw [encodeVarint_eq, decodeVarint, decodeVarintFrom_encode v.toNat (by decide) (by decide)
    v.toNat_lt]
  simp

theorem encodeVarint_ne_nil (v : UInt64) : encodeVarint v ≠ [] := by
  rw [encodeVarint_eq]
  exact ne_nil_of_length_pos (length_encode_pos _)

theorem decodeIndices_deltas (rest : List UInt8) : ∀ (prev : UInt64) (indices : List UInt32),
    decodeIndices indices.length prev ((indexDeltas prev indices).flatMap encodeVarint ++ rest)
      = .ok (indices, rest)
  | _, [] => rfl
  | prev, idx :: indices => by
    have hback : prev + (idx.toUInt64 - prev) = idx.toUInt64 := by
      rw [UInt64.add_comm, UInt64.sub_add_cancel]
    have hsmall : ¬ 0xffffffff < idx.toUInt64 := by
      rw [UInt64.lt_iff_toNat_lt, UInt32.toNat_toUInt64]
      have hlt := idx.toNat_lt
      exact Nat.not_lt.mpr (Nat.le_of_lt_succ hlt)
    have hne : encodeVarint (idx.toUInt64 - prev)
        ++ ((indexDeltas idx.toUInt64 indices).flatMap encodeVarint ++ rest) ≠ [] := by
      simp [encodeVarint_ne_nil]
    rw [length_cons, indexDeltas, flatMap_cons, append_assoc, decodeIndices,
      if_neg hne]
    simp only [decodeVarint_encodeVarint, hback, if_neg hsmall, drop_left]
    rw [decodeIndices_deltas rest idx.toUInt64 indices]
    simp

variable {vals residual}

theorem length_residuals : ∀ (prev : F) (values : List F),
    (residuals vals residual prev values).length = values.length
  | _, [] => rfl
  | prev, value :: values => by
    rw [residuals, length_cons, length_residuals _ values, length_cons]

theorem decodeValues_length (vals : OutlierValues F) :
    ∀ (prev : F) {indices : List UInt32} {bs : List UInt8},
    bs.length = indices.length → ∃ outliers,
      decodeValues vals prev indices bs = .ok (outliers, []) ∧ outliers.map (·.index) = indices
  | _, [], [], _ => ⟨[], rfl, rfl⟩
  | _, [], _ :: _, h => by simp at h
  | _, _ :: _, [], h => by simp at h
  | prev, idx :: indices, b :: bs, h => by
    obtain ⟨outliers, hdec, hidx⟩ := decodeValues_length vals (vals.addI8 prev b) (Nat.succ.inj h)
    refine ⟨⟨idx, vals.addI8 prev b⟩ :: outliers, ?_, ?_⟩
    · rw [decodeValues]
      simp only [hdec]
    · rw [map_cons, hidx]

/-- The stream is decoded whole, with the indices it was made of. -/
def StreamDecodes (vals : OutlierValues F) (residual : F → F → UInt8)
    (outliers : List (GrimOutlier F)) : Prop :=
  ∃ decoded, decodeOutliersDeltaVarint vals (encodeOutliersDeltaVarint vals residual outliers)
      = .ok (decoded, (encodeOutliersDeltaVarint vals residual outliers).length)
    ∧ decoded.length = outliers.length ∧ decoded.map (·.index) = outliers.map (·.index)

theorem decodeIndices_length : ∀ {n : ℕ} {prev : UInt64} {bs rest : List UInt8}
    {indices : List UInt32}, decodeIndices n prev bs = .ok (indices, rest) → indices.length = n
  | 0, _, _, _, _, h => by
    cases h
    rfl
  | n + 1, prev, bs, rest, indices, h => by
    rw [decodeIndices] at h
    split at h
    · cases h
    · split at h
      · cases h
      · simp only [] at h
        split_ifs at h
        split at h
        · cases h
        · rename_i hrec
          cases h
          rw [length_cons, decodeIndices_length hrec]

theorem decodeValues_ok_length : ∀ {prev : F} {indices : List UInt32} {bs rest : List UInt8}
    {outliers : List (GrimOutlier F)},
    decodeValues vals prev indices bs = .ok (outliers, rest) → outliers.length = indices.length
  | _, [], _, _, _, h => by
    cases h
    rfl
  | _, _ :: _, [], _, _, h => by cases h
  | prev, idx :: indices, b :: bs, rest, outliers, h => by
    rw [decodeValues] at h
    split at h
    · cases h
    · rename_i hrec
      cases h
      rw [length_cons, length_cons, decodeValues_ok_length hrec]

theorem decodeOutliers_le {bs : List UInt8} {outliers : List (GrimOutlier F)} {n : ℕ}
    (h : decodeOutliersDeltaVarint vals bs = .ok (outliers, n)) : outliers.length ≤ 1000000 := by
  cases bs with
  | nil => cases h
  | cons b bs =>
    rw [decodeOutliersDeltaVarint] at h
    split_ifs at h
    split at h
    · cases h
    · simp only [] at h
      split at h
      · cases h
      · rename_i hidx
        split at h
        · cases h
        · rename_i hvals
          cases h
          rw [decodeValues_ok_length hvals, decodeIndices_length hidx]
          exact min_le_right _ _

theorem streamDecodes_of_le {outliers : List (GrimOutlier F)} (h : outliers.length ≤ 1000000) :
    StreamDecodes vals residual outliers := by
  obtain ⟨deltas, hdeltas⟩ : ∃ ds, ds = indexDeltas 0 (outliers.map (·.index)) := ⟨_, rfl⟩
  obtain ⟨bytes, hbytes⟩ : ∃ bs, bs = residuals vals residual vals.zero (outliers.map (·.value)) :=
    ⟨_, rfl⟩
  have hlen : bytes.length = (outliers.map (·.index)).length := by
    rw [hbytes, length_residuals, length_map, length_map]
  obtain ⟨decoded, hdec, hidx⟩ := decodeValues_length vals vals.zero hlen
  have hcount : (UInt64.ofNat outliers.length).toNat = outliers.length := by
    rw [UInt64.toNat_ofNat']
    exact Nat.mod_eq_of_lt (by omega)
  have hmin : min (min outliers.length (deltas.flatMap encodeVarint ++ bytes).length) 1000000
      = (outliers.map (·.index)).length := by
    rw [length_append, hlen, length_map]
    omega
  have hindices := decodeIndices_deltas bytes 0 (outliers.map (·.index))
  rw [← hdeltas] at hindices
  refine ⟨decoded, ?_, ?_, hidx⟩
  · rw [encodeOutliersDeltaVarint, ← hdeltas, ← hbytes, decodeOutliersDeltaVarint]
    simp only [ne_eq, not_true_eq_false, if_false, decodeVarint_encodeVarint, hcount,
      drop_left, hmin, hindices, hdec, length_nil, Nat.sub_zero]
    rw [length_cons, Nat.add_comm]
  · have hmap := congrArg List.length hidx
    rwa [length_map, length_map] at hmap

/-- A stream is decoded whole just when it holds no more than a million outliers. -/
theorem streamDecodes_iff (vals : OutlierValues F) (residual : F → F → UInt8)
    (outliers : List (GrimOutlier F)) :
    StreamDecodes vals residual outliers ↔ outliers.length ≤ 1000000 := by
  refine ⟨?_, streamDecodes_of_le⟩
  rintro ⟨decoded, hdec, hlen, -⟩
  rw [← hlen]
  exact decodeOutliers_le hdec

/-- One outlier more than the decoder takes. -/
theorem million_and_one_lost : ¬ ∀ (vals : OutlierValues Unit) (residual : Unit → Unit → UInt8)
    (outliers : List (GrimOutlier Unit)), StreamDecodes vals residual outliers := by
  intro hall
  obtain ⟨decoded, hdec, hlen, -⟩ := hall ⟨fun _ => (), (), fun _ _ => ()⟩ (fun _ _ => 0)
    (List.replicate 1000001 ⟨7, ()⟩)
  have hle := decodeOutliers_le hdec
  rw [hlen, length_replicate] at hle
  omega

end Grim.Format
