import Grim.Format.GrimFile
import Grim.Lib.Slice
import Grim.Lib.Utf8

/-!
# Outlier streams

A stream is flat records of six bytes, or a count, delta-coded indices and residual values.  The
second kind is decoded from whatever stands at its offset: once it decodes to something, more bytes
behind it change nothing.  The arithmetic of the values is a parameter.
-/

namespace Grim.Format

open LittleEndian Slice List

/-- `f32` values of `f16` bits and of sums of `i8` residuals. -/
structure OutlierValues (F : Type) where
  ofF16 : UInt16 → F
  zero : F
  addI8 : F → UInt8 → F

structure GrimOutlier (F : Type) where
  index : UInt32
  value : F

def decodeVarintFrom : UInt64 → ℕ → ℕ → List UInt8 → Except String (UInt64 × ℕ)
  | _, _, _, [] => .error "truncated varint"
  | value, shift, i, b :: bs =>
    let value := value ||| ((b &&& 0x7f).toUInt64 <<< UInt64.ofNat shift)
    if b &&& 0x80 = 0 then .ok (value, i + 1)
    else if 64 ≤ shift + 7 then .error "varint overflow"
    else decodeVarintFrom value (shift + 7) (i + 1) bs

def decodeVarint (buf : List UInt8) : Except String (UInt64 × ℕ) := decodeVarintFrom 0 0 0 buf

def decodeIndices : ℕ → UInt64 → List UInt8 → Except String (List UInt32 × List UInt8)
  | 0, _, rest => .ok ([], rest)
  | n + 1, prevIdx, rest =>
    if rest = [] then .error "outlier index stream truncated"
    else
      match decodeVarint rest with
      | .error e => .error e
      | .ok (delta, consumed) =>
        let idx := prevIdx + delta
        if 0xffffffff < idx then .error "outlier index overflow"
        else
          match decodeIndices n idx (rest.drop consumed) with
          | .error e => .error e
          | .ok (indices, rest) => .ok (idx.toUInt32 :: indices, rest)

variable {F : Type} (vals : OutlierValues F)

def decodeValues : F → List UInt32 → List UInt8 → Except String (List (GrimOutlier F) × List UInt8)
  | _, [], rest => .ok ([], rest)
  | _, _ :: _, [] => .error "outlier value stream truncated"
  | prevVal, idx :: indices, delta :: rest =>
    let value := vals.addI8 prevVal delta
    match decodeValues value indices rest with
    | .error e => .error e
    | .ok (outliers, rest) => .ok (⟨idx, value⟩ :: outliers, rest)

def decodeOutliersDeltaVarint : List UInt8 → Except String (List (GrimOutlier F) × ℕ)
  | [] => .error "empty outlier buffer"
  | valueDtype :: buf =>
    if valueDtype ≠ 0 then
      .error (s!"unsupported outlier value dtype {valueDtype}; " ++
        "only u8 residual (0) is implemented")
    else
      match decodeVarint buf with
      | .error e => .error e
      | .ok (count, consumed) =>
        let rest := buf.drop consumed
        match decodeIndices (min (min count.toNat rest.length) 1000000) 0 rest with
        | .error e => .error e
        | .ok (indices, rest) =>
          match decodeValues vals vals.zero indices rest with
          | .error e => .error e
          | .ok (outliers, rest) => .ok (outliers, 1 + buf.length - rest.length)

/-- `read_exact` of `len` bytes at an offset. -/
def readExactAt (file : List UInt8) (off len : ℕ) : Except String (List UInt8) :=
  if off + len ≤ file.length then .ok (slice file off len)
  else .error "failed to fill whole buffer"

/-- Flat records: an index and the bits of an `f16`. -/
def decodeRecords : List UInt8 → List (GrimOutlier F)
  | b0 :: b1 :: b2 :: b3 :: b4 :: b5 :: rest =>
    ⟨UInt32.ofNat (value [b0, b1, b2, b3]), vals.ofF16 (UInt16.ofNat (value [b4, b5]))⟩ ::
      decodeRecords rest
  | _ => []

def flatBytes (e : GrimTensorEntry) : ℕ := e.outlierCount.toNat * outlierRecordBytes

def readOutliers (file : List UInt8) (e : GrimTensorEntry) : Except String (List (GrimOutlier F)) :=
  if e.outlierCount = 0 then .ok []
  else if 10000000 < e.outlierCount then
    .error s!"outlier_count {e.outlierCount} exceeds safety limit"
  else (readExactAt file e.outlierOffset.toNat (flatBytes e)).map (decodeRecords vals)

def maxReadLen (e : GrimTensorEntry) : ℕ := min (e.outlierCount.toNat * 10) 100000000

def readOutliersWithEncoding (file : List UInt8) (e : GrimTensorEntry)
    (encoding : OutlierIndexEncoding) : Except String (List (GrimOutlier F)) :=
  if e.outlierCount = 0 then .ok []
  else if encoding = .flatU32 then readOutliers vals file e
  else (decodeOutliersDeltaVarint vals (slice file e.outlierOffset.toNat (maxReadLen e))).map
    fun decoded => decoded.1.take e.outlierCount.toNat

theorem decodeVarintFrom_append (more : List UInt8) : ∀ {bs : List UInt8} {v v' : UInt64}
    {shift i n : ℕ}, decodeVarintFrom v shift i bs = .ok (v', n) →
      decodeVarintFrom v shift i (bs ++ more) = .ok (v', n) ∧ i < n ∧ n ≤ i + bs.length
  | [], _, _, _, _, _, h => by simp [decodeVarintFrom] at h
  | b :: bs, v, v', shift, i, n, h => by
    simp only [decodeVarintFrom] at h
    simp only [cons_append, decodeVarintFrom, length_cons]
    split_ifs at h with hlast hover
    · obtain ⟨rfl, rfl⟩ := Prod.mk.inj (Except.ok.inj h)
      rw [if_pos hlast]
      exact ⟨rfl, by omega, by omega⟩
    · obtain ⟨hsame, hlt, hle⟩ := decodeVarintFrom_append more h
      rw [if_neg hlast, if_neg hover]
      exact ⟨hsame, by omega, by omega⟩

theorem decodeVarint_append {bs : List UInt8} {v : UInt64} {n : ℕ}
    (h : decodeVarint bs = .ok (v, n))
    (more : List UInt8) : decodeVarint (bs ++ more) = .ok (v, n) ∧ 0 < n ∧ n ≤ bs.length := by
  obtain ⟨hsame, hlt, hle⟩ := decodeVarintFrom_append more h
  exact ⟨hsame, hlt, by omega⟩

theorem decodeIndices_append (more : List UInt8) :
    ∀ {n : ℕ} {prevIdx : UInt64} {bs rest : List UInt8}
    {indices : List UInt32}, decodeIndices n prevIdx bs = .ok (indices, rest) →
      decodeIndices n prevIdx (bs ++ more) = .ok (indices, rest ++ more) ∧
        indices.length = n ∧ n + rest.length ≤ bs.length
  | 0, _, bs, rest, indices, h => by
    obtain ⟨rfl, rfl⟩ := Prod.mk.inj (Except.ok.inj h)
    exact ⟨rfl, rfl, by simp⟩
  | n + 1, prevIdx, bs, rest, indices, h => by
    rw [decodeIndices] at h
    split_ifs at h with hnil
    rcases hvarint : decodeVarint bs with e | ⟨delta, consumed⟩
    · rw [hvarint] at h
      simp at h
    · simp only [hvarint] at h
      split_ifs at h with hover
      rcases hrest : decodeIndices n (prevIdx + delta) (bs.drop consumed) with e | ⟨is, rest'⟩
      · rw [hrest] at h
        simp at h
      · rw [hrest] at h
        obtain ⟨rfl, rfl⟩ := Prod.mk.inj (Except.ok.inj h)
        obtain ⟨hsame, hpos, hle⟩ := decodeVarint_append hvarint more
        obtain ⟨hindices, hlen, hshort⟩ := decodeIndices_append more hrest
        rw [length_drop] at hshort
        refine ⟨?_, by rw [length_cons, hlen], by omega⟩
        have hnil' : bs ++ more ≠ [] := by simp [hnil]
        rw [decodeIndices, if_neg hnil', hsame]
        simp only [if_neg hover, drop_append_of_le_length hle, hindices]

variable {vals}

theorem decodeValues_append (more : List UInt8) : ∀ {indices : List UInt32} {prevVal : F}
    {bs rest : List UInt8} {outliers : List (GrimOutlier F)},
    decodeValues vals prevVal indices bs = .ok (outliers, rest) →
      decodeValues vals prevVal indices (bs ++ more) = .ok (outliers, rest ++ more) ∧
        outliers.length = indices.length ∧ indices.length + rest.length = bs.length
  | [], _, bs, rest, outliers, h => by
    obtain ⟨rfl, rfl⟩ := Prod.mk.inj (Except.ok.inj h)
    exact ⟨rfl, rfl, by simp⟩
  | idx :: indices, _, [], rest, outliers, h => by simp [decodeValues] at h
  | idx :: indices, prevVal, delta :: bs, rest, outliers, h => by
    simp only [decodeValues] at h
    rcases hrest : decodeValues vals (vals.addI8 prevVal delta) indices bs with e | ⟨os, rest'⟩
    · rw [hrest] at h
      simp at h
    · rw [hrest] at h
      obtain ⟨rfl, rfl⟩ := Prod.mk.inj (Except.ok.inj h)
      obtain ⟨hsame, hlen, hcount⟩ := decodeValues_append more hrest
      refine ⟨?_, by simp [hlen], by simp only [length_cons]; omega⟩
      simp only [cons_append, decodeValues, hsame]

/-- A stream that decodes to some outliers decodes to them whatever stands behind it. -/
theorem decodeOutliers_append {bs : List UInt8} {outliers : List (GrimOutlier F)} {n : ℕ}
    (h : decodeOutliersDeltaVarint vals bs = .ok (outliers, n)) (hne : outliers ≠ [])
    (more : List UInt8) : decodeOutliersDeltaVarint vals (bs ++ more) = .ok (outliers, n) := by
  rcases bs with _ | ⟨dtype, buf⟩
  · simp [decodeOutliersDeltaVarint] at h
  rw [decodeOutliersDeltaVarint] at h
  rw [cons_append, decodeOutliersDeltaVarint]
  split_ifs at h ⊢ with hdtype
  rcases hcount : decodeVarint buf with e | ⟨count, consumed⟩
  · rw [hcount] at h
    simp at h
  obtain ⟨hcount', _, hconsumed⟩ := decodeVarint_append hcount more
  rw [hcount']
  simp only [hcount, drop_append_of_le_length hconsumed, length_append] at h ⊢
  rcases hindices : decodeIndices (min (min count.toNat (buf.drop consumed).length) 1000000) 0
      (buf.drop consumed) with e | ⟨indices, rest⟩
  · rw [hindices] at h
    simp at h
  rw [hindices] at h
  obtain ⟨hindices', hlen, hshort⟩ := decodeIndices_append more hindices
  rcases hvalues : decodeValues vals vals.zero indices rest with e | ⟨os, rest'⟩
  · simp only [hvalues] at h
    simp at h
  simp only [hvalues] at h
  obtain ⟨rfl, rfl⟩ := Prod.mk.inj (Except.ok.inj h)
  obtain ⟨hvalues', hsame, hvals⟩ := decodeValues_append more hvalues
  have hpos := length_pos_of_ne_nil hne
  -- each outlier takes an index byte and a value byte, so the buffer's end does not cut the count
  have hcut : min (min count.toNat ((buf.drop consumed).length + more.length)) 1000000 =
      min (min count.toNat (buf.drop consumed).length) 1000000 := by omega
  rw [hcut, hindices']
  simp only [hvalues']
  congr 2
  have hle : rest'.length ≤ buf.length := by
    have := length_drop (i := consumed) (l := buf)
    omega
  simp only [length_append]
  omega

open LittleEndian Reader Slice

/-- `b"GRIMATT"` -/
def attachmentMagic : List UInt8 := [0x47, 0x52, 0x49, 0x4d, 0x41, 0x54, 0x54]

structure EmbeddedAttachment where
  kind : List Char
  offset : UInt64
  size : UInt64
  sha256 : List UInt8
deriving DecidableEq

variable (sha256Bytes : List UInt8 → List UInt8)

/-- The index entries of blobs that are appended from `offset` on. -/
def indexFrom : ℕ → List (List Char × List UInt8) → List EmbeddedAttachment
  | _, [] => []
  | offset, (kind, blob) :: rest =>
    { kind, offset := UInt64.ofNat offset, size := UInt64.ofNat blob.length
      sha256 := sha256Bytes blob } :: indexFrom (offset + blob.length) rest

def EmbeddedAttachment.write (a : EmbeddedAttachment) : List UInt8 :=
  bytes 2 (Utf8.size a.kind) ++ (Utf8.encode a.kind ++ (bytes 8 a.offset.toNat ++
    (bytes 8 a.size.toNat ++ a.sha256)))

def writeAttachments (file : List UInt8) (attachments : List (List Char × List UInt8)) :
    List UInt8 :=
  let written := file ++ attachments.flatMap Prod.snd
  written ++ (attachmentMagic ++ (bytes 4 attachments.length ++
    ((indexFrom sha256Bytes file.length attachments).flatMap EmbeddedAttachment.write ++
      bytes 8 written.length)))

def needed (what : String) (n : ℕ) : Reader String (List UInt8) :=
  exact s!"truncated attachment index while reading {what}" n

def readAttachmentEntry : Reader String EmbeddedAttachment := do
  let kindLen ← needed "kind length" 2
  let kind ← needed "kind name" (value kindLen)
  let range ← needed "offset/size" 16
  let sha256 ← needed "sha256" 32
  pure
    { kind := Utf8.lossy kind
      offset := UInt64.ofNat (value (range.take 8))
      size := UInt64.ofNat (value (range.drop 8))
      sha256 }

def readAttachmentEntries : Reader String (List EmbeddedAttachment) := do
  let countBytes ← exact "truncated attachment index: no count" 4
  if 16 < value countBytes then
    fail (s!"attachment index declares {value countBytes} entries; " ++
      "more than 16 is corruption")
  else items readAttachmentEntry (value countBytes)

/-- `buf` is the end of a file, from byte `base` on. -/
def parseAttachmentIndex (buf : List UInt8) (base : ℕ) : Except String (List EmbeddedAttachment) :=
  if buf.length < 15 then .ok []
  else
    let stored := value (buf.drop (buf.length - 8))
    if stored < base ∨ base + buf.length < stored + 15 then .ok []
    else if slice buf (stored - base) 7 ≠ attachmentMagic then .ok []
    else (readAttachmentEntries.run (buf.drop (stored - base + 7))).map Prod.fst

def readAttachmentIndex (file : List UInt8) : Except String (List EmbeddedAttachment) :=
  if file.length < 15 then .ok []
  else
    let trailerStart := value (file.drop (file.length - 8))
    if file.length ≤ trailerStart then .ok []
    else parseAttachmentIndex (file.drop trailerStart) trailerStart

def readAttachmentBytes (file : List UInt8) (a : EmbeddedAttachment) :
    Except String (List UInt8) := do
  let buf ← readExactAt file a.offset.toNat a.size.toNat
  if sha256Bytes buf ≠ a.sha256 then
    .error s!"attachment '{String.ofList a.kind}' failed SHA-256 verification"
  else pure buf

def readAttachments (file : List UInt8) :
    Except String (List (EmbeddedAttachment × Except String (List UInt8))) :=
  (readAttachmentIndex file).map fun index =>
    index.map fun a => (a, readAttachmentBytes sha256Bytes file a)

theorem readAttachments_of_nil {file : List UInt8} (h : readAttachmentIndex file = .ok []) :
    readAttachments sha256Bytes file = .ok [] := by rw [readAttachments, h]; rfl

/-- The SHA-256 of `b"abc"`. -/
def blobDigest : List UInt8 :=
  [0xba, 0x78, 0x16, 0xbf, 0x8f, 0x01, 0xcf, 0xea, 0x41, 0x41, 0x40, 0xde, 0x5d, 0xae, 0x22, 0x23,
    0xb0, 0x03, 0x61, 0xa3, 0x96, 0x17, 0x7a, 0x9c, 0xb4, 0x10, 0xff, 0x61, 0xf2, 0x00, 0x15, 0xad]

end Grim.Format
