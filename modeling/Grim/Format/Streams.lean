import Grim.Format.Outliers
import Grim.Format.GrimLayout
import Grim.Lib.Patch

/-!
# The streams of a tensor, read and moved

What is read of a tensor in one file is read in another where its bytes stand there at its new
offsets; of a delta-varint stream, the bytes that its reserved records take must hold all of it.
-/

namespace Grim.Format

open LittleEndian Slice Patch

def readNormals (file : List UInt8) (e : GrimTensorEntry) : Except String (List UInt8) :=
  if e.payloadSize = 0 then .ok []
  else readExactAt file e.payloadOffset.toNat e.payloadSize.toNat

def readKvBlock (file : List UInt8) (e : GrimTensorEntry) : Except String (List UInt8) :=
  if e.kvCompressedSize = 0 then .ok []
  else readExactAt file e.kvCompressedOffset.toNat e.kvCompressedSize.toNat

variable {F : Type} (vals : OutlierValues F)

structure SameStreams (encoding : OutlierIndexEncoding) (file : List UInt8) (e : GrimTensorEntry)
    (file' : List UInt8) (e' : GrimTensorEntry) : Prop where
  payload : readNormals file' e' = readNormals file e
  outliers : readOutliersWithEncoding vals file' e' encoding =
    readOutliersWithEncoding vals file e encoding
  kv : readKvBlock file' e' = readKvBlock file e

def GrimTensorEntry.moved (e : GrimTensorEntry) (payload outlier kv : UInt64) : GrimTensorEntry :=
  { e with payloadOffset := payload, outlierOffset := outlier, kvCompressedOffset := kv }

/-- The records that the tensor's count reserves hold its outliers. -/
def OutliersWithin (encoding : OutlierIndexEncoding) (file : List UInt8) (e : GrimTensorEntry) :
    Prop :=
  e.outlierCount ≠ 0 →
    match encoding with
    | .flatU32 => e.outlierOffset.toNat + flatBytes e ≤ file.length
    | .deltaVarint => ∃ outliers n, decodeOutliersDeltaVarint vals
        (slice file e.outlierOffset.toNat (min (flatBytes e) (maxReadLen e))) = .ok (outliers, n) ∧
          outliers ≠ []

theorem readExactAt_of_holds {file file' : List UInt8} {off off' len : ℕ}
    (hfile : off + len ≤ file.length) (hpos : 0 < len)
    (h : Holds file' off' (slice file off len)) :
    readExactAt file' off' len = readExactAt file off len := by
  have hlen : (slice file off len).length = len := by
    rw [length_slice]
    omega
  have hne : slice file off len ≠ [] := by
    rw [← List.length_pos_iff_ne_nil, hlen]
    exact hpos
  have hle := h.le hne
  have hsame := h hne
  rw [hlen] at hle hsame
  rw [readExactAt, readExactAt, if_pos hle, if_pos hfile, hsame]

variable {vals} {encoding : OutlierIndexEncoding} {file file' : List UInt8} {e : GrimTensorEntry}
  {payload outlier kv : UInt64}

theorem toNat_ne_zero {x : UInt64} (h : ¬x = 0) : 0 < x.toNat :=
  Nat.pos_of_ne_zero fun h0 => h (UInt64.toNat_inj.1 h0)

theorem readNormals_moved
    (hfile : e.payloadSize ≠ 0 → e.payloadOffset.toNat + e.payloadSize.toNat ≤ file.length)
    (h : e.payloadSize ≠ 0 →
      Holds file' payload.toNat (slice file e.payloadOffset.toNat e.payloadSize.toNat)) :
    readNormals file' (e.moved payload outlier kv) = readNormals file e := by
  have hmoved : readNormals file' (e.moved payload outlier kv) =
      if e.payloadSize = 0 then .ok []
      else readExactAt file' payload.toNat e.payloadSize.toNat := rfl
  rw [hmoved, readNormals]
  by_cases hsize : e.payloadSize = 0
  · rw [if_pos hsize, if_pos hsize]
  · rw [if_neg hsize, if_neg hsize]
    exact readExactAt_of_holds (hfile hsize) (toNat_ne_zero hsize) (h hsize)

theorem readKvBlock_moved
    (hfile : e.kvCompressedSize ≠ 0 →
      e.kvCompressedOffset.toNat + e.kvCompressedSize.toNat ≤ file.length)
    (h : e.kvCompressedSize ≠ 0 →
      Holds file' kv.toNat (slice file e.kvCompressedOffset.toNat e.kvCompressedSize.toNat)) :
    readKvBlock file' (e.moved payload outlier kv) = readKvBlock file e := by
  have hmoved : readKvBlock file' (e.moved payload outlier kv) =
      if e.kvCompressedSize = 0 then .ok []
      else readExactAt file' kv.toNat e.kvCompressedSize.toNat := rfl
  rw [hmoved, readKvBlock]
  by_cases hsize : e.kvCompressedSize = 0
  · rw [if_pos hsize, if_pos hsize]
  · rw [if_neg hsize, if_neg hsize]
    exact readExactAt_of_holds (hfile hsize) (toNat_ne_zero hsize) (h hsize)

theorem toNat_outlierCount_pos (h : e.outlierCount ≠ 0) : 0 < e.outlierCount.toNat :=
  Nat.pos_of_ne_zero fun h0 => h (UInt32.toNat_inj.1 h0)

theorem slice_eq_append {xs : List UInt8} {off n m : ℕ} {bs : List UInt8}
    (h : slice xs off n = bs) (hle : n ≤ m) : ∃ more, slice xs off m = bs ++ more := by
  refine ⟨slice xs (off + n) (m - n), ?_⟩
  have hsplit : slice xs off (n + (m - n)) = slice xs off n ++ slice xs (off + n) (m - n) :=
    slice_add n (m - n)
  rwa [Nat.add_sub_cancel' hle, h] at hsplit

theorem readOutliersWithEncoding_moved (hwithin : OutliersWithin vals encoding file e)
    (h : e.outlierCount ≠ 0 →
      Holds file' outlier.toNat (slice file e.outlierOffset.toNat (flatBytes e))) :
    readOutliersWithEncoding vals file' (e.moved payload outlier kv) encoding =
      readOutliersWithEncoding vals file e encoding := by
  have hmoved : readOutliersWithEncoding vals file' (e.moved payload outlier kv) encoding =
      if e.outlierCount = 0 then .ok []
      else if encoding = .flatU32 then readOutliers vals file' (e.moved payload outlier kv)
      else (decodeOutliersDeltaVarint vals (slice file' outlier.toNat (maxReadLen e))).map
        fun decoded => decoded.1.take e.outlierCount.toNat := rfl
  rw [hmoved, readOutliersWithEncoding]
  by_cases hcount : e.outlierCount = 0
  · rw [if_pos hcount, if_pos hcount]
  rw [if_neg hcount, if_neg hcount]
  have hpos := toNat_outlierCount_pos hcount
  have hholds := h hcount
  have hwithin := hwithin hcount
  rcases encoding with _ | _
  · -- flat records
    have hlen : 0 < flatBytes e := Nat.mul_pos hpos (by decide)
    have hread := readExactAt_of_holds hwithin hlen hholds
    have hflat : readOutliers vals file' (e.moved payload outlier kv) =
        if e.outlierCount = 0 then .ok []
        else if 10000000 < e.outlierCount then
          .error s!"outlier_count {e.outlierCount} exceeds safety limit"
        else (readExactAt file' outlier.toNat (flatBytes e)).map (decodeRecords vals) := rfl
    rw [if_pos rfl, if_pos rfl, hflat, readOutliers, hread]
  · obtain ⟨outliers, n, hdecode, hne⟩ := hwithin
    have hstart : slice file e.outlierOffset.toNat (min (flatBytes e) (maxReadLen e)) =
        (slice file e.outlierOffset.toNat (flatBytes e)).take (maxReadLen e) := by
      rw [take_slice, min_comm]
    have hbytes : slice file e.outlierOffset.toNat (flatBytes e) ≠ [] := fun hnil => by
      rw [hstart, hnil, List.take_nil] at hdecode
      simp [decodeOutliersDeltaVarint] at hdecode
    have hnew := congrArg (List.take (maxReadLen e)) (hholds hbytes)
    rw [take_slice, ← hstart] at hnew
    obtain ⟨more, hmore⟩ := slice_eq_append hstart (min_le_right _ (maxReadLen e))
    rw [← hstart] at hmore
    obtain ⟨more', hmore'⟩ := slice_eq_append hnew (min_le_left (maxReadLen e) _)
    rw [if_neg (by decide), if_neg (by decide), hmore, hmore', decodeOutliers_append hdecode hne,
      decodeOutliers_append hdecode hne]

end Grim.Format
