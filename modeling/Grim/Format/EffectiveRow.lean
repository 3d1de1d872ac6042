import Grim.Format.RowPacking
import Grim.Format.StreamLayout
import Grim.Format.TensorExt
import Grim.Lib.FloatFormat

/-!
# The effective rows of a tensor

A row is put together from its codes, its scale, its backups and its outliers.  The codes of a row
are looked for from the row's own segment on, where the region of the codes is sized for one stream
of all codes.
-/

namespace Grim.Format

open Extent FloatFormat List

/-- `(row_stride * bpw).div_ceil(8)` rounded up to 256, `(n + 255) & !255`. -/
def alignedRowBytes (rowStride : ℕ) (bpw : UInt8) : ℕ :=
  (divCeil (rowStride * bpw.toNat) + 255) / 256 * 256

def levelOf (code : ℕ) (bpw : UInt8) : UInt32 :=
  let levels := f32OfInt (1 <<< bpw.toUInt32 : UInt32).toNat
  let normalized := f32Op .div (f32OfInt code) (f32Op .sub levels 0x3F800000)
  f32Op .sub (f32Op .mul normalized 0x40000000) 0x3F800000

/-- A scale byte of 255 is 1.0, and so is a scale that is not there. -/
def scaleAt (scales : List UInt8) (i : ℕ) : UInt32 :=
  match scales[i]? with
  | some b => f32Op .div (f32OfInt b.toNat) 0x437F0000
  | none => 0x3F800000

def rowData (payload : List UInt8) (start : ℕ) : List UInt8 :=
  if start < payload.length then payload.drop start else []

def dequantizeBackupLayer (payload : List UInt8) (layer : BackupLayer) (rowIdx rowStride : ℕ) :
    List UInt32 :=
  let start := layer.codesOffset.toNat + rowIdx * alignedRowBytes rowStride layer.bpw
  let scale := scaleAt payload (layer.scaleOffset.toNat + rowIdx)
  (List.range rowStride).map fun i =>
    f32Op .mul (levelOf (decodeCode (rowData payload start) i layer.bpw) layer.bpw) scale

def putOutlier (rowIdx rowStride : ℕ) (out : List UInt32) (outlier : UInt32 × UInt32) :
    List UInt32 :=
  let r := outlier.1.toNat / rowStride
  let c := outlier.1.toNat % rowStride
  if r = rowIdx ∧ c < out.length then out.set c outlier.2 else out

/-- The codes, the scale, then the first backup where the rows are in GPTQ order, the second backup,
and last the outliers. -/
def dequantizeEffectiveRow (rowIdx rowStride : ℕ) (defaultBpw : UInt8)
    (payload scales : List UInt8) (ext : GrimTensorExt) (outliers : List (UInt32 × UInt32)) :
    List UInt32 :=
  let start := rowIdx * alignedRowBytes rowStride defaultBpw
  let out := (List.range rowStride).map fun i =>
    levelOf (decodeCode (rowData payload start) i defaultBpw) defaultBpw
  let out := out.map fun v => f32Op .mul v (scaleAt scales rowIdx)
  let out :=
    if ext.backup1.isPresent && 0 < ext.gptqOrdered then
      out.zipWith (f32Op .add) (dequantizeBackupLayer payload ext.backup1 rowIdx rowStride)
    else out
  let out :=
    if ext.backup2.isPresent then
      out.zipWith (f32Op .add) (dequantizeBackupLayer payload ext.backup2 rowIdx rowStride)
    else out
  outliers.foldl (putOutlier rowIdx rowStride) out

/-- The bytes that `decodeCode` looks at, of `len`. -/
def codeBytes (len idx : ℕ) (bpw : UInt8) : List ℕ :=
  let bitOffset := idx * bpw.toNat
  let byteOffset := bitOffset / 8
  let bitsLeft := 8 - bitOffset % 8
  if len ≤ byteOffset then []
  else if bpw.toNat ≤ bitsLeft then [byteOffset]
  else if byteOffset + 1 < len then [byteOffset, byteOffset + 1]
  else [byteOffset]

/-- The bytes of a payload that are read as codes of a row that starts at `start`. -/
def rowReads (len start rowStride : ℕ) (bpw : UInt8) : List ℕ :=
  (List.range rowStride).flatMap fun i => (codeBytes (len - start) i bpw).map (start + ·)

def primaryReads (payload : List UInt8) (rowIdx rowStride : ℕ) (bpw : UInt8) : List ℕ :=
  rowReads payload.length (rowIdx * alignedRowBytes rowStride bpw) rowStride bpw

def backupReads (payload : List UInt8) (layer : BackupLayer) (rowIdx rowStride : ℕ) : List ℕ :=
  rowReads payload.length (layer.codesOffset.toNat + rowIdx * alignedRowBytes rowStride layer.bpw)
    rowStride layer.bpw

variable {data data' payload payload' scales : List UInt8} {layer : BackupLayer}
  {ext : GrimTensorExt} {outliers : List (UInt32 × UInt32)} {bpw : UInt8}
  {len idx rowIdx rowStride start a : ℕ}

theorem decodeCode_congr (hlen : data.length = data'.length)
    (h : ∀ k ∈ codeBytes data.length idx bpw, data.getD k 0 = data'.getD k 0) :
    decodeCode data idx bpw = decodeCode data' idx bpw := by
  unfold codeBytes at h
  unfold decodeCode
  dsimp only at h ⊢
  rw [← hlen]
  split_ifs at h ⊢ with hout hfits hnext
  · rfl
  · rw [h _ (by simp)]
  · rw [h _ (by simp), h (idx * bpw.toNat / 8 + 1) (by simp)]
  · rw [h _ (by simp)]

theorem length_rowData : (rowData payload start).length = payload.length - start := by
  rw [rowData]
  split_ifs with h
  · exact length_drop
  · rw [length_nil]
    omega

theorem getD_rowData (k : ℕ) : (rowData payload start).getD k 0 = payload.getD (start + k) 0 := by
  rw [rowData]
  split_ifs with h
  · rw [getD_eq_getElem?_getD, getD_eq_getElem?_getD, getElem?_drop]
  · rw [getD_nil, getD_eq_default _ _ (by omega)]

theorem decodeRow_congr (hlen : payload.length = payload'.length)
    (h : ∀ a ∈ rowReads payload.length start rowStride bpw, payload.getD a 0 = payload'.getD a 0)
    (hidx : idx < rowStride) :
    decodeCode (rowData payload start) idx bpw = decodeCode (rowData payload' start) idx bpw := by
  refine decodeCode_congr (by rw [length_rowData, length_rowData, hlen]) fun k hk => ?_
  rw [length_rowData] at hk
  rw [getD_rowData, getD_rowData]
  refine h _ (mem_flatMap.mpr ⟨idx, mem_range.mpr hidx, mem_map.mpr ⟨k, hk, rfl⟩⟩)

theorem dequantizeBackupLayer_congr (hlen : payload.length = payload'.length)
    (h : ∀ a ∈ backupReads payload layer rowIdx rowStride, payload.getD a 0 = payload'.getD a 0)
    (hscale : payload[layer.scaleOffset.toNat + rowIdx]? =
      payload'[layer.scaleOffset.toNat + rowIdx]?) :
    dequantizeBackupLayer payload layer rowIdx rowStride =
      dequantizeBackupLayer payload' layer rowIdx rowStride := by
  unfold dequantizeBackupLayer
  dsimp only
  rw [scaleAt, scaleAt, hscale]
  refine map_congr_left fun i hi => ?_
  rw [decodeRow_congr hlen h (mem_range.mp hi)]

theorem dequantizeEffectiveRow_congr (hlen : payload.length = payload'.length)
    (hcodes : ∀ a ∈ primaryReads payload rowIdx rowStride bpw, payload.getD a 0 = payload'.getD a 0)
    (hbackup : ∀ layer ∈ [ext.backup1, ext.backup2],
      (∀ a ∈ backupReads payload layer rowIdx rowStride, payload.getD a 0 = payload'.getD a 0) ∧
        payload[layer.scaleOffset.toNat + rowIdx]? = payload'[layer.scaleOffset.toNat + rowIdx]?) :
    dequantizeEffectiveRow rowIdx rowStride bpw payload scales ext outliers =
      dequantizeEffectiveRow rowIdx rowStride bpw payload' scales ext outliers := by
  obtain ⟨h1, hscale1⟩ := hbackup ext.backup1 (by simp)
  obtain ⟨h2, hscale2⟩ := hbackup ext.backup2 (by simp)
  have hprimary : ((List.range rowStride).map fun i => levelOf (decodeCode (rowData payload
      (rowIdx * alignedRowBytes rowStride bpw)) i bpw) bpw) =
        (List.range rowStride).map fun i => levelOf (decodeCode (rowData payload'
          (rowIdx * alignedRowBytes rowStride bpw)) i bpw) bpw := by
    refine map_congr_left fun i hi => ?_
    rw [decodeRow_congr hlen hcodes (mem_range.mp hi)]
  unfold dequantizeEffectiveRow
  dsimp only
  rw [hprimary, dequantizeBackupLayer_congr hlen h1 hscale1,
    dequantizeBackupLayer_congr hlen h2 hscale2]

structure Width where
  bits : UInt8
  two_le : 2 ≤ bits.toNat
  le_eight : bits.toNat ≤ 8

variable {width backupWidth : Width} {rowCount outlierCount offset region : ℕ} {wave : WaveSize}

theorem le_of_mem_codeBytes (h : a ∈ codeBytes len idx bpw) :
    8 * a < idx * bpw.toNat + bpw.toNat ∨ a = idx * bpw.toNat / 8 := by
  unfold codeBytes at h
  dsimp only at h
  split_ifs at h with hout hfits hnext
  · cases h
  · exact .inr (mem_singleton.mp h)
  · rcases mem_pair.mp h with rfl | rfl
    · exact .inr rfl
    · left
      omega
  · exact .inr (mem_singleton.mp h)

theorem last_mem_codeBytes (hpos : 0 < bpw.toNat) (hle : bpw.toNat ≤ 8)
    (h : (idx * bpw.toNat + bpw.toNat - 1) / 8 < len) :
    (idx * bpw.toNat + bpw.toNat - 1) / 8 ∈ codeBytes len idx bpw := by
  unfold codeBytes
  generalize idx * bpw.toNat = o at h ⊢
  dsimp only
  split_ifs with hout hfits hnext
  · omega
  · refine mem_singleton.mpr ?_
    omega
  · refine mem_pair.mpr (.inr ?_)
    omega
  · omega

theorem lt_of_mem_rowReads (hpos : 0 < bpw.toNat) (h : a ∈ rowReads len start rowStride bpw) :
    start ≤ a ∧ a < start + rowCodesBytes rowStride bpw := by
  obtain ⟨i, hi, ha⟩ := mem_flatMap.mp h
  obtain ⟨k, hk, rfl⟩ := mem_map.mp ha
  have hspan : i * bpw.toNat + bpw.toNat ≤ rowStride * bpw.toNat := by
    rw [← Nat.succ_mul]
    exact Nat.mul_le_mul_right _ (mem_range.mp hi)
  have hmem := le_of_mem_codeBytes hk
  rw [rowCodesBytes, divCeil]
  omega

theorem last_mem_rowReads (start : ℕ) (hpos : 0 < bpw.toNat) (hle : bpw.toNat ≤ 8)
    (hstride : 0 < rowStride) (hlen : start + rowCodesBytes rowStride bpw ≤ len) :
    start + rowCodesBytes rowStride bpw - 1 ∈ rowReads len start rowStride bpw := by
  have hlast : (rowStride - 1) * bpw.toNat + bpw.toNat = rowStride * bpw.toNat := by
    rw [← Nat.succ_mul, Nat.succ_eq_add_one, Nat.sub_add_cancel hstride]
  have hbits : 0 < rowStride * bpw.toNat := Nat.mul_pos hstride hpos
  rw [rowCodesBytes, divCeil] at hlen ⊢
  refine mem_flatMap.mpr ⟨rowStride - 1, mem_range.mpr (by omega),
    mem_map.mpr ⟨_, last_mem_codeBytes hpos hle (by omega), ?_⟩⟩
  omega

theorem rows_inside_iff (rowCount rowStride offset region : ℕ) (hpos : 0 < bpw.toNat)
    (hle : bpw.toNat ≤ 8) :
    (∀ (payload : List UInt8) (row : ℕ), row < rowCount →
        ∀ a ∈ rowReads payload.length (offset + row * alignedRowBytes rowStride bpw) rowStride bpw,
          a < offset + region) ↔
      rowCount = 0 ∨ rowStride = 0 ∨
        (rowCount - 1) * alignedRowBytes rowStride bpw + rowCodesBytes rowStride bpw ≤ region := by
  constructor
  · intro h
    by_contra! hnot
    obtain ⟨hrows, hstride, hlt⟩ := hnot
    have hlast := last_mem_rowReads (offset + (rowCount - 1) * alignedRowBytes rowStride bpw)
      hpos hle (Nat.pos_of_ne_zero hstride) le_rfl
    have hinside := h (List.replicate (offset + (rowCount - 1) * alignedRowBytes rowStride bpw +
      rowCodesBytes rowStride bpw) 0) (rowCount - 1) (by omega) _
        (by rw [length_replicate]; exact hlast)
    omega
  · intro h payload row hrow a ha
    have hmem := lt_of_mem_rowReads hpos ha
    rcases h with h | h | h
    · omega
    · rw [rowReads, h, range_zero, flatMap_nil] at ha
      cases ha
    · have hmul : row * alignedRowBytes rowStride bpw ≤
          (rowCount - 1) * alignedRowBytes rowStride bpw := Nat.mul_le_mul_right _ (by omega)
      omega

def uniformLayout (rowCount rowStride outlierCount : ℕ) (bpw : UInt8) (wave : WaveSize) :
    NormalsLayout :=
  (NormalsLayout.withScales (rowCount * rowStride) outlierCount bpw rowCount).withWave wave

/-- No code of a row is read from outside the region of the codes. -/
structure CodesCovered (rowCount rowStride outlierCount : ℕ) (width backupWidth : Width)
    (wave : WaveSize) : Prop where
  primary : ∀ (payload : List UInt8) (row : ℕ), row < rowCount →
    ∀ a ∈ primaryReads payload row rowStride width.bits,
      a < (uniformLayout rowCount rowStride outlierCount width.bits wave).codesSize
  backup : ∀ (payload : List UInt8) (layer : BackupLayer) (row : ℕ),
    layer.bpw = backupWidth.bits → row < rowCount →
      ∀ a ∈ backupReads payload layer row rowStride, layer.codesOffset.toNat ≤ a ∧
        a < layer.codesOffset.toNat +
          (BackupLayout.mk (rowCount * rowStride) backupWidth.bits rowCount).codesSize

theorem codesSize_uniformLayout :
    (uniformLayout rowCount rowStride outlierCount bpw wave).codesSize =
      alignUp (divCeil ((rowCount * rowStride - outlierCount) * bpw.toNat)) wave.segmentBytes := rfl

theorem codesSize_backupLayout (n rowCount : ℕ) (hpos : 0 < bpw.toNat) :
    (BackupLayout.mk n bpw rowCount).codesSize =
      alignUp (divCeil (n * bpw.toNat)) WaveSize.w64.segmentBytes :=
  if_pos (decide_eq_true hpos)

theorem primary_inside_iff (rowCount rowStride region : ℕ) (width : Width) :
    (∀ (payload : List UInt8) (row : ℕ), row < rowCount →
        ∀ a ∈ primaryReads payload row rowStride width.bits, a < region) ↔
      rowCount = 0 ∨ rowStride = 0 ∨ (rowCount - 1) * alignedRowBytes rowStride width.bits +
        rowCodesBytes rowStride width.bits ≤ region := by
  have h := rows_inside_iff rowCount rowStride 0 region (lt_of_lt_of_le two_pos width.two_le)
    width.le_eight
  simp only [Nat.zero_add] at h
  exact h

theorem backup_inside_iff (rowCount rowStride region : ℕ) (width : Width) :
    (∀ (payload : List UInt8) (layer : BackupLayer) (row : ℕ), layer.bpw = width.bits →
        row < rowCount → ∀ a ∈ backupReads payload layer row rowStride,
          layer.codesOffset.toNat ≤ a ∧ a < layer.codesOffset.toNat + region) ↔
      rowCount = 0 ∨ rowStride = 0 ∨ (rowCount - 1) * alignedRowBytes rowStride width.bits +
        rowCodesBytes rowStride width.bits ≤ region := by
  have hpos := lt_of_lt_of_le two_pos width.two_le
  constructor
  · intro h
    exact (rows_inside_iff rowCount rowStride 0 region hpos width.le_eight).mp
      fun payload row hrow a ha => (h payload { bpw := width.bits } row rfl hrow a ha).2
  · intro h payload layer row hbpw hrow a ha
    rw [backupReads, hbpw] at ha
    exact ⟨le_trans (Nat.le_add_right ..) (lt_of_mem_rowReads hpos ha).1,
      (rows_inside_iff rowCount rowStride _ region hpos width.le_eight).mpr h payload row hrow a ha⟩

/-- The rows are read inside their regions exactly when there is nothing to read or, in each stream,
the rows in front of the last, of whole segments, and the codes of the last fit in the region. -/
theorem codesCovered_iff (rowCount rowStride outlierCount : ℕ) (width backupWidth : Width)
    (wave : WaveSize) :
    CodesCovered rowCount rowStride outlierCount width backupWidth wave ↔
      rowCount = 0 ∨ rowStride = 0 ∨
        (rowCount - 1) * alignedRowBytes rowStride width.bits + rowCodesBytes rowStride width.bits ≤
            alignUp (divCeil ((rowCount * rowStride - outlierCount) * width.bits.toNat))
              wave.segmentBytes ∧
          (rowCount - 1) * alignedRowBytes rowStride backupWidth.bits +
              rowCodesBytes rowStride backupWidth.bits ≤
            alignUp (divCeil (rowCount * rowStride * backupWidth.bits.toNat))
              WaveSize.w64.segmentBytes := by
  have hpos := width.two_le
  have hbpos := backupWidth.two_le
  have hprimary := primary_inside_iff rowCount rowStride
    (uniformLayout rowCount rowStride outlierCount width.bits wave).codesSize width
  have hbackup := backup_inside_iff rowCount rowStride
    (BackupLayout.mk (rowCount * rowStride) backupWidth.bits rowCount).codesSize backupWidth
  rw [← codesSize_uniformLayout, ← codesSize_backupLayout _ rowCount
    (lt_of_lt_of_le two_pos backupWidth.two_le)]
  constructor
  · intro h
    rcases hprimary.mp h.primary with hrows | hstride | hfits
    · exact .inl hrows
    · exact .inr (.inl hstride)
    · rcases hbackup.mp h.backup with hrows | hstride | hbackupFits
      · exact .inl hrows
      · exact .inr (.inl hstride)
      · exact .inr (.inr ⟨hfits, hbackupFits⟩)
  · intro h
    exact ⟨hprimary.mpr (h.imp_right (Or.imp_right And.left)),
      hbackup.mpr (h.imp_right (Or.imp_right And.right))⟩

/-- Two rows of 200 codes of 4 bits: the second is read from the scales behind the codes. -/
theorem second_row_from_scales :
    ¬ CodesCovered 2 200 0 ⟨4, by decide, by decide⟩ ⟨8, by decide, by decide⟩ .w64 := by
  intro h
  have hlast := last_mem_rowReads (1 * alignedRowBytes 200 4) (by decide : 0 < (4 : UInt8).toNat)
    (by decide) (by decide : 0 < 200) (by decide : _ ≤ 512)
  have hinside := h.primary (List.replicate 512 0) 1 (by decide) _
    (by rw [primaryReads, length_replicate]; exact hlast)
  exact absurd hinside (by decide)

end Grim.Format
