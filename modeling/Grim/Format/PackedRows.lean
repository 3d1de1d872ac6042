import Grim.Format.RowPacking
import Grim.Lib.FloatBounds

/-!
# Rows of values, packed one behind the other

Each value of a row gets a code of the row's width, and each row is padded up to a segment.  A
reader that starts at a row's first byte finds its codes, except at the width of a whole byte.
-/

namespace Grim.Format

open Extent FloatFormat List
open Float.Model (UnpackedFloat)
open Float.Model.UnpackedFloat (unpack add sub mul ofUInt32)

/-- `1.0` -/
def one : UnpackedFloat := .ofNat .binary32 1

/-- `0.5` -/
def half : UnpackedFloat := unpack .binary32 0x3F000000#32

/-- The levels of `bpw` bits, from -1 to 1. -/
def quantizeToBpw (value : UInt32) (bpw : UInt8) : UInt8 :=
  let bpw := max 1 (min bpw 16)
  let levels := ofUInt32 .binary32 (1 <<< bpw.toUInt32)
  let clamped := clamp one.neg one (unpack .binary32 value.toBitVec)
  let normalized := mul .binary32 (add .binary32 clamped one) half
  roundAsU8 (mul .binary32 normalized (sub .binary32 levels one))

def packRowBpwForWave (out : List UInt8) (rowValues : List UInt32) (bpw : UInt8)
    (wave : WaveSize) : List UInt8 :=
  let bytesNeeded := divCeil (rowValues.length * bpw.toNat)
  let start := out.length
  let out := out ++ List.replicate bytesNeeded 0
  let codes := rowValues.map fun v => (quantizeToBpw v bpw).toNat
  let out := putCodes start bytesNeeded bpw.toNat 0 codes out
  let aligned := alignUp out.length wave.segmentBytes
  out ++ List.replicate (aligned - out.length) 0

variable {width : UInt8}

theorem levels_sub_one {n : ℕ} (hpos : 0 < n) (hlt : n < 8) : ∃ h,
    sub .binary32 (ofUInt32 .binary32 (1 <<< (UInt8.ofNat n).toUInt32)) one =
      .finite .positive ((2 ^ n - 1) * 2 ^ (24 - n)) (-(24 - n : ℕ)) h := by
  interval_cases n <;> exact ⟨by decide, rfl⟩

theorem valueOf_levels {n : ℕ} :
    valueOf .positive ((2 ^ n - 1) * 2 ^ (24 - n)) (-(24 - n : ℕ)) = (2 ^ n - 1 : ℕ) := by
  have hcancel : (2 : ℚ) ^ (24 - n) * 2 ^ (-(24 - n : ℕ) : ℤ) = 1 := by
    rw [zpow_neg, zpow_natCast]
    exact mul_inv_cancel₀ (by positivity)
  rw [valueOf, Float.Model.UnpackedFloat.Sign.apply, Int.cast_natCast, Nat.cast_mul,
    Nat.cast_pow 2 (24 - n), Nat.cast_ofNat, mul_assoc, hcancel, mul_one]

theorem half_eq : half = .finite .positive (2 ^ 23) (-24) (by decide) := rfl

theorem valueOf_half : valueOf .positive (2 ^ 23) (-24) = 1 / 2 := by
  norm_num [valueOf, Float.Model.UnpackedFloat.Sign.apply]

theorem atMost_normalized (value : UInt32) :
    AtMost (1 : ℕ) (mul .binary32 (add .binary32
      (clamp one.neg one (unpack .binary32 value.toBitVec)) one) half) := by
  have hclamped : AtMost 1 (clamp one.neg one (unpack .binary32 value.toBitVec)) :=
    atMost_clamp 23 fun h => lt_of_unpack h
  have hone : AtMost 1 one := by
    have hvalue : valueOf .positive (2 ^ 23) (-23) = 1 := by
      norm_num [valueOf, Float.Model.UnpackedFloat.Sign.apply]
    exact hvalue.le
  have hsum : AtMost (2 : ℕ) (add .binary32
      (clamp one.neg one (unpack .binary32 value.toBitVec)) one) :=
    atMost_add zero_le_one zero_le_one (by decide) (by norm_num) hclamped hone
  rw [half_eq]
  exact atMost_mul (by decide) (by rw [valueOf_half]; norm_num) hsum

theorem quantizeToBpw_lt (v : UInt32) (hpos : 0 < width.toNat) (hwidth : width.toNat ≤ 8) :
    (quantizeToBpw v width).toNat < 2 ^ width.toNat := by
  rcases hwidth.lt_or_eq with hlt | heq
  swap
  · rw [heq]
    exact UInt8.toNat_lt _
  have hclamp : max 1 (min width 16) = width := by
    have hlow : (1 : UInt8) ≤ width := UInt8.le_iff_toNat_le.mpr hpos
    have hhigh : width ≤ 16 := UInt8.le_iff_toNat_le.mpr (by
      change width.toNat ≤ 16
      omega)
    have hmin : min width 16 = width := if_pos hhigh
    rw [hmin]
    exact if_pos hlow
  obtain ⟨h, hlevels⟩ := levels_sub_one hpos hlt
  rw [UInt8.ofNat_toNat] at hlevels
  have hpow : 2 ^ width.toNat ≤ 2 ^ 7 := Nat.pow_le_pow_right (by decide) (by omega)
  have hone : 0 < 2 ^ width.toNat := by positivity
  have hcode : (quantizeToBpw v width).toNat ≤ 2 ^ width.toNat - 1 := by
    rw [quantizeToBpw, hclamp, hlevels]
    refine roundAsU8_le (by omega) (atMost_mul (lt_of_le_of_lt (Nat.sub_le ..)
      (lt_of_le_of_lt hpow (by decide))) ?_ (atMost_normalized v))
    rw [valueOf_levels, Nat.cast_one, one_mul]
  omega

structure Row where
  values : List UInt32
  bpw : UInt8
  pos : 0 < bpw.toNat
  le : bpw.toNat ≤ 8

namespace Row

def codes (r : Row) : List ℕ := r.values.map fun v => (quantizeToBpw v r.bpw).toNat

/-- The bytes that the row adds to a buffer that ends with a segment. -/
def padded (wave : WaveSize) (r : Row) : List UInt8 :=
  let bytes := rowBytes r.bpw.toNat r.codes
  bytes ++ List.replicate (alignUp bytes.length wave.segmentBytes - bytes.length) 0

end Row

def packRows (wave : WaveSize) (out : List UInt8) (rows : List Row) : List UInt8 :=
  rows.foldl (fun out r => packRowBpwForWave out r.values r.bpw wave) out

variable {wave : WaveSize} {out : List UInt8} {r : Row} {before after rows : List Row}

theorem length_codes (r : Row) : r.codes.length = r.values.length := length_map _

theorem codes_lt : ∀ code ∈ r.codes, code < 2 ^ r.bpw.toNat := by
  intro code hcode
  obtain ⟨v, -, rfl⟩ := mem_map.mp hcode
  exact quantizeToBpw_lt v r.pos r.le

theorem segmentBytes_pos (wave : WaveSize) : 0 < wave.segmentBytes := by cases wave <;> decide

theorem length_padded : (r.padded wave).length =
    alignUp (rowCodesBytes r.values.length r.bpw) wave.segmentBytes := by
  have hle := Extent.le_alignUp (n := (rowBytes r.bpw.toNat r.codes).length) (segmentBytes_pos wave)
  rw [Row.padded, length_append, length_replicate, Nat.add_sub_cancel' hle,
    length_rowBytes, length_codes, rowCodesBytes]

theorem dvd_length_padded : wave.segmentBytes ∣ (r.padded wave).length := by
  rw [length_padded]
  exact dvd_alignUp ..

theorem packRow_eq (hout : wave.segmentBytes ∣ out.length) :
    packRowBpwForWave out r.values r.bpw wave = out ++ r.padded wave := by
  have hput : putCodes out.length (divCeil (r.values.length * r.bpw.toNat)) r.bpw.toNat 0 r.codes
      (out ++ List.replicate (divCeil (r.values.length * r.bpw.toNat)) 0) =
        out ++ rowBytes r.bpw.toNat r.codes := by
    rw [putCodes_append, rowBytes, length_codes]
  unfold packRowBpwForWave
  dsimp only
  rw [← Row.codes, hput, length_append, Nat.add_comm out.length, alignUp_add hout,
    Nat.add_sub_add_right, append_assoc, Row.padded]

theorem packRows_eq : ∀ {rows : List Row} {out : List UInt8}, wave.segmentBytes ∣ out.length →
    packRows wave out rows = out ++ rows.flatMap (Row.padded wave)
  | [], out, _ => (append_nil out).symm
  | r :: rows, out, hout => by
    have hnext : wave.segmentBytes ∣ (out ++ r.padded wave).length := by
      rw [length_append]
      exact hout.add dvd_length_padded
    rw [packRows, foldl_cons, packRow_eq hout, ← packRows, packRows_eq hnext,
      flatMap_cons, append_assoc]

/-- A row that was appended behind `before`, with `after` behind it. -/
structure RowKept (wave : WaveSize) (out : List UInt8) (before : List Row) (r : Row)
    (after : List Row) : Prop where
  /-- The bytes up to the row are as they were when it was appended. -/
  front : (packRows wave out (before ++ r :: after)).take (packRows wave out before).length =
    packRows wave out before
  bytes : (packRows wave out (before ++ r :: after)).take
      (packRows wave out (before ++ [r])).length = packRows wave out (before ++ [r])
  size : ∀ layout : NormalsLayout, layout.wave = wave → layout.rowStride = r.values.length →
    layout.rowBpwTable[before.length]? = some r.bpw →
      layout.rowCodesSizes[before.length]? =
        some ((packRows wave out (before ++ [r])).length - (packRows wave out before).length)
  decodes : ∀ (idx : ℕ) (h : idx < r.values.length),
    decodeCode ((packRows wave out (before ++ r :: after)).drop (packRows wave out before).length)
      idx r.bpw = (quantizeToBpw r.values[idx] r.bpw).toNat

def RowsKept (wave : WaveSize) (out : List UInt8) (rows : List Row) : Prop :=
  ∀ before r after, rows = before ++ r :: after → RowKept wave out before r after

theorem packRows_split (hout : wave.segmentBytes ∣ out.length) :
    packRows wave out (before ++ r :: after) =
      packRows wave out before ++ (r.padded wave ++ after.flatMap (Row.padded wave)) := by
  rw [packRows_eq hout, packRows_eq hout, flatMap_append, flatMap_cons,
    append_assoc]

theorem packRows_snoc (hout : wave.segmentBytes ∣ out.length) :
    packRows wave out (before ++ [r]) = packRows wave out before ++ r.padded wave := by
  rw [packRows_split hout, flatMap_nil, append_nil]

theorem rowKept_iff (hout : wave.segmentBytes ∣ out.length) :
    RowKept wave out before r after ↔
      (r.bpw = 8 → ∀ v ∈ r.values, quantizeToBpw v 8 = 0) := by
  have hdrop : (packRows wave out (before ++ r :: after)).drop (packRows wave out before).length =
      rowBytes r.bpw.toNat r.codes ++ (List.replicate (alignUp (rowBytes r.bpw.toNat r.codes).length
        wave.segmentBytes - (rowBytes r.bpw.toNat r.codes).length) 0 ++
          after.flatMap (Row.padded wave)) := by
    rw [packRows_split hout, drop_left, Row.padded, append_assoc]
  constructor
  · intro h hbpw v hv
    obtain ⟨idx, hidx, rfl⟩ := getElem_of_mem hv
    have hdecode := h.decodes idx hidx
    rw [hbpw, decodeCode_eight] at hdecode
    exact UInt8.toNat_inj.mp hdecode.symm
  · intro h
    refine ⟨?_, ?_, fun layout hwave hstride htable => ?_, fun idx hidx => ?_⟩
    · rw [packRows_split hout, take_left]
    · rw [packRows_snoc hout, packRows_split hout, ← append_assoc, take_left]
    · rw [NormalsLayout.rowCodesSizes, getElem?_map, htable, Option.map_some, hwave, hstride,
        packRows_snoc hout, length_append, Nat.add_sub_cancel_left, length_padded]
    · by_cases hbpw : r.bpw = 8
      · have hzero := h hbpw _ (getElem_mem hidx)
        rw [hbpw, decodeCode_eight, hzero, UInt8.toNat_zero]
      · have hlt : r.bpw.toNat < 8 :=
          lt_of_le_of_ne r.le fun heq => hbpw (UInt8.toNat_inj.mp heq)
        have hidx' : idx < r.codes.length := by rwa [length_codes]
        rw [hdrop, decodeCode_rowBytes r.pos hlt codes_lt hidx']
        exact getElem_map _

/-- The rows come back exactly when no element of a row of 8 bits has a code other than 0. -/
theorem rowsKept_iff (hout : wave.segmentBytes ∣ out.length) :
    RowsKept wave out rows ↔
      ∀ r ∈ rows, r.bpw = 8 → ∀ v ∈ r.values, quantizeToBpw v 8 = 0 := by
  constructor
  · intro h r hr
    obtain ⟨before, after, hsplit⟩ := append_of_mem hr
    exact (rowKept_iff hout).mp (h before r after hsplit)
  · intro h before r after hsplit
    exact (rowKept_iff hout).mpr (h r (by simp [hsplit]))

/-- A row of three bits and one of five, behind one segment. -/
theorem rowsKept_iff_mixed : RowsKept .w32 (List.replicate 128 7)
      [⟨[0x3F800000, 0xBF800000, 0, 0x3F000000], 3, by decide, by decide⟩,
        ⟨[0x3E800000, 0x3F800000], 5, by decide, by decide⟩] ↔
    ∀ r ∈ [(⟨[0x3F800000, 0xBF800000, 0, 0x3F000000], 3, by decide, by decide⟩ : Row),
        ⟨[0x3E800000, 0x3F800000], 5, by decide, by decide⟩],
      r.bpw = 8 → ∀ v ∈ r.values, quantizeToBpw v 8 = 0 :=
  rowsKept_iff (by rw [length_replicate]; exact ⟨1, rfl⟩)

/-- The code of 1.0 in 8 bits is 255, and 0 is read. -/
theorem whole_byte_lost : ¬ RowsKept .w64 [] [⟨[0x3F800000], 8, by decide, by decide⟩] := by
  intro h
  have hone : quantizeToBpw 0x3F800000 8 = 255 := by decide
  have hzero := (rowKept_iff (dvd_zero _)).mp (h [] _ [] rfl) rfl 0x3F800000 (by simp)
  rw [hone] at hzero
  exact absurd hzero (by decide)

end Grim.Format
