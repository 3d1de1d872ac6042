import Grim.Format.GrimFile
import Grim.Lib.Extents

/-!
# The sizes of a tensor's streams

The codes of a tensor stand in a region that is sized from its element count, or row by row where
each row has its own bit width.  A region is aligned to a segment.
-/

namespace Grim.Format

open Extent

/-- `bits.div_ceil(8)` -/
def divCeil (bits : ℕ) : ℕ := (bits + 7) / 8

theorem le_divCeil (bits : ℕ) : bits ≤ 8 * divCeil bits := by
  unfold divCeil
  omega

/-- `WAVE64_SEGMENT_BYTES` -/
def alignWave64 (n : ℕ) : ℕ := alignUp n WaveSize.w64.segmentBytes

/-- Bytes that `rowStride` elements take at `bpw` bits, unaligned. -/
def rowCodesBytes (rowStride : ℕ) (bpw : UInt8) : ℕ := divCeil (rowStride * bpw.toNat)

structure NormalsLayout where
  totalElements : ℕ
  outlierCount : ℕ
  baseBitwidth : UInt8
  rowCount : ℕ
  rowStride : ℕ
  /-- The bit width of each row; none where all rows have `baseBitwidth`. -/
  rowBpwTable : List UInt8
  wave : WaveSize

namespace NormalsLayout

def withScales (totalElements outlierCount : ℕ) (baseBitwidth : UInt8) (rowCount : ℕ) :
    NormalsLayout where
  totalElements := totalElements
  outlierCount := outlierCount
  baseBitwidth := baseBitwidth
  rowCount := rowCount
  rowStride := totalElements / rowCount
  rowBpwTable := []
  wave := .w64

def withWave (layout : NormalsLayout) (wave : WaveSize) : NormalsLayout := { layout with wave }

def hasScales (layout : NormalsLayout) : Bool := 0 < layout.rowCount

def isMixedBpw (layout : NormalsLayout) : Bool := !layout.rowBpwTable.isEmpty

def rowCodesSizes (layout : NormalsLayout) : List ℕ :=
  layout.rowBpwTable.map fun bpw =>
    alignUp (rowCodesBytes layout.rowStride bpw) layout.wave.segmentBytes

def codesSize (layout : NormalsLayout) : ℕ :=
  if layout.isMixedBpw then layout.rowCodesSizes.sum
  else
    let normalElements := layout.totalElements - layout.outlierCount
    let bits := normalElements * layout.baseBitwidth.toNat
    alignUp (divCeil bits) layout.wave.segmentBytes

def scaleSize (layout : NormalsLayout) : ℕ :=
  if layout.hasScales then alignUp layout.rowCount layout.wave.segmentBytes else 0

end NormalsLayout

/-- A backup is an additive correction; it is absent at `bpw = 0`. -/
structure BackupLayout where
  totalElements : ℕ
  bpw : UInt8
  rowCount : ℕ

namespace BackupLayout

def isPresent (layout : BackupLayout) : Bool := 0 < layout.bpw

def codesSize (layout : BackupLayout) : ℕ :=
  if layout.isPresent then alignWave64 (divCeil (layout.totalElements * layout.bpw.toNat)) else 0

def scaleSize (layout : BackupLayout) : ℕ :=
  if layout.isPresent && layout.rowCount != 0 then alignWave64 layout.rowCount else 0

end BackupLayout

end Grim.Format
