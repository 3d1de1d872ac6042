import Grim.Format.EffectiveRow
import Grim.Format.Merge
import Grim.Lib.FloatBounds
import Grim.Lib.Folds

/-!
# Attaching an adapter to a tensor of a `.grim` file

The adapter's weights are packed row by row and written over the tensor's second backup, the codes
first and then a scale for each row.  The codes are held against the size of their region; the
scales are not.
-/

namespace Grim.Format

open BitStream Extent FloatFormat Folds JsonValue Patch Reader List

/-- A tensor of an adapter: its shape, and its numbers as they are read. -/
structure AdapterTensor where
  dims : List ℕ
  toVecF32 : Except String (List UInt32)

inductive Stop
  | err (message : String)
  | panics

def GrimFile.tensor (f : GrimFile) (name : String) : Option GrimTensorEntry :=
  (indexByName name f.tensors).bind fun i => f.tensors[i]?

def GrimMetadata.getTensorExt (metadata : GrimMetadata) (tensorName : String) :
    Option GrimTensorExt :=
  metadata.extEntries.find? fun e => e.tensorName == tensorName

/-- `sum += b_vec[o * rank + r] * a_vec[r * in_features + i]`, where the indices are in range. -/
def dot (aVec bVec : List UInt32) (rank inFeatures o i : ℕ) : Option UInt32 :=
  (List.range rank).foldlM (fun sum r => do
    let x ← bVec[o * rank + r]?
    let y ← aVec[r * inFeatures + i]?
    pure (f32Op .add sum (f32Op .mul x y))) 0

def deltaW (aVec bVec : List UInt32) (outFeatures rank inFeatures : ℕ) (scale : UInt32) :
    Option (List (List UInt32)) :=
  (List.range outFeatures).mapM fun o => (List.range inFeatures).mapM fun i =>
    (dot aVec bVec rank inFeatures o i).map (f32Op .mul scale)

/-- The largest number of the row, from `1e-6` to 1.0, as a byte. -/
def scaleByte (row : List UInt32) : UInt8 :=
  let maxAbs := f32Max ((row.map f32Abs).foldl f32Max 0) 0x358637BD
  roundAsU8 (f32Unpacked (f32Op .mul (f32Min maxAbs 0x3F800000) 0x437F0000))

def codeOf (v effScale : UInt32) (bpw : UInt8) : UInt32 :=
  let norm := if f32Lt 0 effScale then f32Clamp 0xBF800000 0x3F800000 (f32Op .div v effScale) else 0
  let levels := f32OfInt ((1 : UInt64) <<< bpw.toUInt64 - 1).toNat
  roundAsU32 (f32Unpacked
    (f32Op .mul (f32Op .mul (f32Op .add norm 0x3F800000) 0x3F000000) levels))

/-- The code of the row's `cIdx`-th element, or-ed into the row's bytes. -/
def putBackupCode (rowPacked : List UInt8) (bpw cIdx : ℕ) (code : UInt32) : List UInt8 :=
  let bitOffset := cIdx * bpw
  let byteOffset := bitOffset / 8
  let inByte := bitOffset % 8
  let bitsLeft := 8 - inByte
  if bpw ≤ bitsLeft then
    let shift := bitsLeft - bpw
    orAt rowPacked byteOffset (code <<< UInt32.ofNat shift).toUInt8
  else
    let highBits := bitsLeft
    let lowBits := bpw - highBits
    let rowPacked := orAt rowPacked byteOffset (code >>> UInt32.ofNat lowBits).toUInt8
    if byteOffset + 1 < rowPacked.length then
      orAt rowPacked (byteOffset + 1) (code <<< (8 - UInt32.ofNat lowBits)).toUInt8
    else rowPacked

def packBackupRow (rowBytes : ℕ) (bpw : UInt8) (row : List UInt32) : List UInt8 :=
  let effScale := f32Op .div (f32OfInt (scaleByte row).toNat) 0x437F0000
  row.zipIdx.foldl (fun rowPacked p =>
    putBackupCode rowPacked bpw.toNat p.2 (codeOf p.1 effScale bpw)) (zeros rowBytes)

/-- The tensor with its second backup, and the adapter as it is to be attached to it. -/
structure Target where
  entry : GrimTensorEntry
  layer : BackupLayer
  aVec : List UInt32
  bVec : List UInt32
  outFeatures : ℕ
  rank : ℕ
  inFeatures : ℕ

def orErr {α : Type} (x : Option α) (message : String) : Except Stop α :=
  match x with
  | some a => .ok a
  | none => .error (.err message)

/-- `dims[i]` -/
def AdapterTensor.dim (t : AdapterTensor) (i : ℕ) : Except Stop ℕ :=
  match t.dims[i]? with
  | some d => .ok d
  | none => .error .panics

def target (serde : SerdeJson) (file : List UInt8) (tensorName : String) (a b : AdapterTensor) :
    Except Stop Target := do
  let (grimFile, _) ← ((GrimFile.read serde).run file).mapError .err
  let entry ← orErr (grimFile.tensor tensorName) s!"tensor {tensorName} not found in .grim file"
  let ext ← orErr (grimFile.metadata.getTensorExt tensorName)
    s!"tensor {tensorName} has no GrimTensorExt metadata"
  if ext.backup2.isPresent then do
    let aVec ← a.toVecF32.mapError .err
    let bVec ← b.toVecF32.mapError .err
    let outFeatures ← b.dim 0
    let rank ← b.dim 1
    let inFeatures ← a.dim 1
    pure { entry, layer := ext.backup2, aVec, bVec, outFeatures, rank, inFeatures }
  else .error (.err s!"tensor {tensorName} does not have backup2 capacity provisioned")

structure Run where
  result : Except Stop Unit
  writes : List Write

namespace Target

def codesAbsOffset (t : Target) : UInt64 := t.entry.payloadOffset + t.layer.codesOffset

def scaleAbsOffset (t : Target) : UInt64 := t.entry.payloadOffset + t.layer.scaleOffset

def writeBackup (t : Target) (packedCodes rowScales : List UInt8) : Run :=
  match seekTo t.codesAbsOffset with
  | .error e => { result := .error (.err e), writes := [] }
  | .ok _ =>
    if t.layer.codesSize.toNat < packedCodes.length then
      { result := .error (.err (s!"bolt-on codes overflow: {packedCodes.length} bytes written > " ++
          s!"{t.layer.codesSize} bytes provisioned"))
        writes := [] }
    else
      let codes : Write := ⟨t.codesAbsOffset.toNat, packedCodes, true⟩
      match seekTo t.scaleAbsOffset with
      | .error e => { result := .error (.err e), writes := [codes] }
      | .ok _ =>
        { result := .ok (), writes := [codes, ⟨t.scaleAbsOffset.toNat, rowScales, true⟩] }

end Target

def attachBoltOn (serde : SerdeJson) (file : List UInt8) (tensorName : String)
    (a b : AdapterTensor) (scale : UInt32) : Run :=
  match target serde file tensorName a b with
  | .error stop => { result := .error stop, writes := [] }
  | .ok t =>
    match deltaW t.aVec t.bVec t.outFeatures t.rank t.inFeatures scale with
    | none => { result := .error .panics, writes := [] }
    | some delta =>
      let rowBytes := alignedRowBytes t.inFeatures t.layer.bpw
      t.writeBackup (delta.flatMap (packBackupRow rowBytes t.layer.bpw)) (delta.map scaleByte)

def codesRegion (entry : GrimTensorEntry) (layer : BackupLayer) : Extent :=
  ⟨entry.payloadOffset.toNat + layer.codesOffset.toNat, layer.codesSize.toNat⟩

def scaleRegion (entry : GrimTensorEntry) (layer : BackupLayer) : Extent :=
  ⟨entry.payloadOffset.toNat + layer.scaleOffset.toNat, layer.scaleSize.toNat⟩

variable (serde : SerdeJson) (file : List UInt8) (tensorName : String)

/-- The byte is one of the tensor's second backup, as the file provides it. -/
def InSlot (k : ℕ) : Prop :=
  ∃ grimFile rest entry ext, (GrimFile.read serde).run file = .ok (grimFile, rest) ∧
    grimFile.tensor tensorName = some entry ∧
    grimFile.metadata.getTensorExt tensorName = some ext ∧
    ((codesRegion entry ext.backup2).Has k ∨ (scaleRegion entry ext.backup2).Has k)

/-- Only the slot is written and changed, and a run that fails writes and changes nothing. -/
structure StaysInSlot (run : Run) : Prop where
  written : ∀ k, Touches file run.writes k → InSlot serde file tensorName k
  changed : ∀ k, (patch file run.writes)[k]? ≠ file[k]? → InSlot serde file tensorName k
  failed : ∀ message, run.result = .error (.err message) →
    (∀ k, ¬ Touches file run.writes k) ∧ patch file run.writes = file

namespace Target

def InRange (t : Target) : Prop :=
  ∀ o < t.outFeatures, ∀ i < t.inFeatures, ∀ r < t.rank,
    o * t.rank + r < t.bVec.length ∧ r * t.inFeatures + i < t.aVec.length

def codesLength (t : Target) : ℕ := t.outFeatures * alignedRowBytes t.inFeatures t.layer.bpw

structure Writes (t : Target) : Prop where
  inRange : t.InRange
  seeks : t.codesAbsOffset.toNat < 2 ^ 63
  capacity : t.codesLength ≤ t.layer.codesSize.toNat

/-- The places from `lo` to `hi` are in the two regions. -/
def Inside (t : Target) (lo hi : ℕ) : Prop :=
  Span (codesRegion t.entry t.layer) (scaleRegion t.entry t.layer) lo hi ∨
    Span (scaleRegion t.entry t.layer) (codesRegion t.entry t.layer) lo hi

/-- The codes, from their offset or an earlier end of the file on, are inside, and so are the
scales, one byte a row, unless the seek to them fails; then there are no codes. -/
def Fits (fileLength : ℕ) (t : Target) : Prop :=
  let codesStart := t.codesAbsOffset.toNat
  let scaleStart := t.scaleAbsOffset.toNat
  let lengthBehind :=
    if t.codesLength = 0 then fileLength else max fileLength (codesStart + t.codesLength)
  (t.codesLength = 0 ∨ t.Inside (min fileLength codesStart) (codesStart + t.codesLength)) ∧
    if scaleStart < 2 ^ 63 then
      t.outFeatures = 0 ∨ t.Inside (min lengthBehind scaleStart) (scaleStart + t.outFeatures)
    else t.codesLength = 0

end Target

variable {serde file tensorName} {a b : AdapterTensor} {scale : UInt32} {t : Target}

theorem isSome_foldlM {α β : Type} {g : β → α → Option β} {P : α → Prop}
    (hg : ∀ s x, (g s x).isSome ↔ P x) : ∀ (xs : List α) (s : β),
      (xs.foldlM g s).isSome ↔ ∀ x ∈ xs, P x
  | [], s => by simp
  | x :: xs, s => by
    rw [foldlM_cons, forall_mem_cons, ← hg s x]
    cases hx : g s x with
    | none => simp
    | some s' => simpa using isSome_foldlM hg xs s'

theorem isSome_deltaW (scale : UInt32) :
    (deltaW t.aVec t.bVec t.outFeatures t.rank t.inFeatures scale).isSome ↔ t.InRange := by
  have hdot : ∀ o i, (dot t.aVec t.bVec t.rank t.inFeatures o i).isSome ↔ ∀ r ∈ List.range t.rank,
      o * t.rank + r < t.bVec.length ∧ r * t.inFeatures + i < t.aVec.length := by
    intro o i
    refine isSome_foldlM (fun sum r => ?_) _ _
    have hb : (t.bVec[o * t.rank + r]?).isSome ↔ o * t.rank + r < t.bVec.length := by simp
    have ha : (t.aVec[r * t.inFeatures + i]?).isSome ↔ r * t.inFeatures + i < t.aVec.length := by
      simp
    rw [← hb, ← ha]
    cases t.bVec[o * t.rank + r]? <;> cases t.aVec[r * t.inFeatures + i]? <;> simp
  rw [deltaW, isSome_mapM]
  simp only [isSome_mapM, Option.isSome_map, hdot, mem_range]
  rfl

theorem length_putBackupCode (rowPacked : List UInt8) (bpw cIdx : ℕ) (code : UInt32) :
    (putBackupCode rowPacked bpw cIdx code).length = rowPacked.length := by
  unfold putBackupCode
  dsimp only
  split_ifs <;> simp only [length_orAt]

theorem length_packBackupRow (rowBytes : ℕ) (bpw : UInt8) (row : List UInt32) :
    (packBackupRow rowBytes bpw row).length = rowBytes := by
  have hfold : ∀ (effScale : UInt32) (ps : List (UInt32 × ℕ)) (rowPacked : List UInt8),
      (ps.foldl (fun rowPacked p =>
        putBackupCode rowPacked bpw.toNat p.2 (codeOf p.1 effScale bpw)) rowPacked).length =
          rowPacked.length := by
    intro effScale ps
    induction ps with
    | nil => intro rowPacked; rfl
    | cons p ps ih => intro rowPacked; rw [foldl_cons, ih, length_putBackupCode]
  rw [packBackupRow, hfold, length_zeros]

theorem length_packedCodes (rowBytes : ℕ) (bpw : UInt8) (delta : List (List UInt32)) :
    (delta.flatMap (packBackupRow rowBytes bpw)).length = delta.length * rowBytes := by
  induction delta with
  | nil => rw [flatMap_nil, length_nil, length_nil, Nat.zero_mul]
  | cons row delta ih =>
    rw [flatMap_cons, length_append, ih, length_packBackupRow, length_cons,
      Nat.succ_mul, Nat.add_comm]

theorem mapError_ok {α ε ε' : Type} {x : Except ε α} {g : ε → ε'} {y : α} :
    x.mapError g = .ok y ↔ x = .ok y := by
  cases x <;> simp [Except.mapError]

theorem orErr_ok {α : Type} {x : Option α} {message : String} {y : α} :
    orErr x message = .ok y ↔ x = some y := by
  cases x <;> simp [orErr]

theorem target_ok (h : target serde file tensorName a b = .ok t) :
    ∃ grimFile rest ext, (GrimFile.read serde).run file = .ok (grimFile, rest) ∧
      grimFile.tensor tensorName = some t.entry ∧
      grimFile.metadata.getTensorExt tensorName = some ext ∧ ext.backup2 = t.layer := by
  unfold target at h
  obtain ⟨⟨grimFile, rest⟩, hread, h⟩ := bind_ok.mp h
  obtain ⟨entry, hentry, h⟩ := bind_ok.mp h
  obtain ⟨ext, hext, h⟩ := bind_ok.mp h
  split_ifs at h
  obtain ⟨aVec, -, h⟩ := bind_ok.mp h
  obtain ⟨bVec, -, h⟩ := bind_ok.mp h
  obtain ⟨outFeatures, -, h⟩ := bind_ok.mp h
  obtain ⟨rank, -, h⟩ := bind_ok.mp h
  obtain ⟨inFeatures, -, h⟩ := bind_ok.mp h
  obtain rfl := Except.ok.inj h
  exact ⟨grimFile, rest, ext, mapError_ok.mp hread, orErr_ok.mp hentry, orErr_ok.mp hext, rfl⟩

theorem inSlot_iff (h : target serde file tensorName a b = .ok t) (k : ℕ) :
    InSlot serde file tensorName k ↔
      (codesRegion t.entry t.layer).Has k ∨ (scaleRegion t.entry t.layer).Has k := by
  obtain ⟨grimFile, rest, ext, hread, hentry, hext, hlayer⟩ := target_ok h
  rw [← hlayer]
  constructor
  · rintro ⟨grimFile', rest', entry', ext', hread', hentry', hext', hk⟩
    obtain ⟨rfl, rfl⟩ := Prod.mk.inj (Except.ok.inj (hread.symm.trans hread'))
    obtain rfl := Option.some.inj (hentry.symm.trans hentry')
    obtain rfl := Option.some.inj (hext.symm.trans hext')
    exact hk
  · intro hk
    exact ⟨grimFile, rest, t.entry, ext, hread, hentry, hext, hk⟩

theorem length_delta {delta : List (List UInt32)}
    (h : deltaW t.aVec t.bVec t.outFeatures t.rank t.inFeatures scale = some delta) :
    delta.length = t.outFeatures := by
  rw [length_mapM h, length_range]

theorem seekTo_ok {off : UInt64} (h : off.toNat < 2 ^ 63) : seekTo off = .ok () := if_pos h

theorem seekTo_error {off : UInt64} (h : ¬ off.toNat < 2 ^ 63) : ∃ e, seekTo off = .error e :=
  ⟨_, if_neg h⟩

theorem writes_eq_nil
    (h : ∀ t, target serde file tensorName a b = .ok t → ¬ t.Writes) :
    (attachBoltOn serde file tensorName a b scale).writes = [] := by
  unfold attachBoltOn
  split
  · rfl
  rename_i t htarget
  split
  · rfl
  rename_i delta hdelta
  have hrange : t.InRange := (isSome_deltaW scale).mp (by rw [hdelta]; rfl)
  dsimp only
  rw [Target.writeBackup]
  by_cases hseek : t.codesAbsOffset.toNat < 2 ^ 63
  swap
  · obtain ⟨e, he⟩ := seekTo_error hseek
    rw [he]
  rw [seekTo_ok hseek]
  have hlen : (delta.flatMap (packBackupRow (alignedRowBytes t.inFeatures t.layer.bpw)
      t.layer.bpw)).length = t.codesLength := by
    rw [length_packedCodes, length_delta hdelta, Target.codesLength]
  dsimp only
  rw [hlen]
  split_ifs with hcapacity
  · rfl
  · exact absurd ⟨hrange, hseek, Nat.not_lt.mp hcapacity⟩ (h t htarget)

theorem attachBoltOn_eq (htarget : target serde file tensorName a b = .ok t) (hwrites : t.Writes) :
    ∃ codes scales : List UInt8, codes.length = t.codesLength ∧ scales.length = t.outFeatures ∧
      attachBoltOn serde file tensorName a b scale =
        match seekTo t.scaleAbsOffset with
        | .error e => ⟨.error (.err e), [⟨t.codesAbsOffset.toNat, codes, true⟩]⟩
        | .ok _ => ⟨.ok (), [⟨t.codesAbsOffset.toNat, codes, true⟩,
            ⟨t.scaleAbsOffset.toNat, scales, true⟩]⟩ := by
  obtain ⟨delta, hdelta⟩ := Option.isSome_iff_exists.mp
    ((isSome_deltaW scale).mpr hwrites.inRange)
  refine ⟨delta.flatMap (packBackupRow (alignedRowBytes t.inFeatures t.layer.bpw) t.layer.bpw),
    delta.map scaleByte, ?_, ?_, ?_⟩
  · rw [length_packedCodes, length_delta hdelta, Target.codesLength]
  · rw [length_map, length_delta hdelta]
  · unfold attachBoltOn
    rw [htarget]
    dsimp only
    rw [hdelta]
    dsimp only
    rw [Target.writeBackup, seekTo_ok hwrites.seeks]
    dsimp only
    rw [if_neg]
    rw [length_packedCodes, length_delta hdelta, ← Target.codesLength, not_lt]
    exact hwrites.capacity

theorem staysInSlot_iff_written {run : Run} : StaysInSlot serde file tensorName run ↔
    (∀ k, Touches file run.writes k → InSlot serde file tensorName k) ∧
      ∀ message, run.result = .error (.err message) → ∀ k, ¬ Touches file run.writes k := by
  constructor
  · intro h
    exact ⟨h.written, fun message hresult => (h.failed message hresult).1⟩
  · rintro ⟨hwritten, hfailed⟩
    refine ⟨hwritten, fun k hk => hwritten k ?_, fun message hresult => ?_⟩
    · by_contra hnot
      exact hk (getElem?_patch _ hnot)
    · have hnone := hfailed message hresult
      exact ⟨hnone, ext_getElem? fun k => getElem?_patch _ (hnone k)⟩

theorem reaches_inside_iff (fileLength off : ℕ) (bytes : List UInt8)
    (hlen : file.length = fileLength) :
    (∀ k, Write.Reaches file ⟨off, bytes, true⟩ k → (codesRegion t.entry t.layer).Has k ∨
        (scaleRegion t.entry t.layer).Has k) ↔
      bytes.length = 0 ∨ t.Inside (min fileLength off) (off + bytes.length) := by
  rcases Nat.eq_zero_or_pos bytes.length with hzero | hpos
  · rw [length_eq_zero_iff] at hzero
    simp [Write.Reaches, hzero]
  · have hne : bytes ≠ [] := ne_nil_of_length_pos hpos
    rw [Target.Inside, ← span_iff (by omega)]
    simp only [Write.Reaches, Write.stop, hlen, hne, ne_eq, not_false_eq_true, true_and, and_imp,
      hpos.ne', false_or]

theorem staysInSlot_target_iff (htarget : target serde file tensorName a b = .ok t)
    (hwrites : t.Writes) :
    StaysInSlot serde file tensorName (attachBoltOn serde file tensorName a b scale) ↔
      t.Fits file.length := by
  obtain ⟨codes, scales, hcodes, hscales, hrun⟩ :=
    attachBoltOn_eq (b := b) (a := a) htarget hwrites
  have hbehind : (overwrite file t.codesAbsOffset.toNat codes).length =
      if t.codesLength = 0 then file.length
      else max file.length (t.codesAbsOffset.toNat + t.codesLength) := by
    rw [← hcodes]
    split_ifs with hzero
    · rw [overwrite, if_pos (length_eq_zero_iff.mp hzero)]
    · exact length_overwrite _ _ fun hnil => hzero (length_eq_zero_iff.mpr hnil)
  have hfirst := reaches_inside_iff (t := t) file.length t.codesAbsOffset.toNat codes rfl
  have hsecond := reaches_inside_iff (t := t) _ t.scaleAbsOffset.toNat scales hbehind
  rw [hcodes] at hfirst
  rw [hscales] at hsecond
  rw [staysInSlot_iff_written, hrun]
  simp only [inSlot_iff htarget]
  unfold Target.Fits
  dsimp only
  by_cases hseek : t.scaleAbsOffset.toNat < 2 ^ 63
  · rw [seekTo_ok hseek, if_pos hseek, ← hfirst, ← hsecond, ← forall_and]
    simp only [Touches, or_false, or_imp, reduceCtorEq, false_imp_iff, implies_true, and_true]
  · obtain ⟨e, he⟩ := seekTo_error hseek
    rw [he, if_neg hseek, ← hfirst]
    simp only [Touches, or_false]
    refine and_congr_right fun _ => ⟨fun h => ?_, fun hzero message _ k hk => ?_⟩
    · by_contra hne
      have hpos : 0 < codes.length := by omega
      refine h e rfl t.codesAbsOffset.toNat ⟨ne_nil_of_length_pos hpos, min_le_right .., ?_⟩
      rw [Write.stop]
      exact Nat.lt_add_of_pos_right hpos
    · exact hk.1 (length_eq_zero_iff.mp (hcodes.trans hzero))

/-- An attach stays in the slot exactly when it stops before its first write or what it writes, its
place and its length, fits. -/
theorem staysInSlot_iff (serde : SerdeJson) (file : List UInt8) (tensorName : String)
    (a b : AdapterTensor) (scale : UInt32) :
    StaysInSlot serde file tensorName (attachBoltOn serde file tensorName a b scale) ↔
      ∀ t, target serde file tensorName a b = .ok t → t.Writes → t.Fits file.length := by
  by_cases h : ∃ t, target serde file tensorName a b = .ok t ∧ t.Writes
  · obtain ⟨t, htarget, hwrites⟩ := h
    rw [staysInSlot_target_iff htarget hwrites]
    constructor
    · intro hfits t' htarget' _
      obtain rfl := Except.ok.inj (htarget.symm.trans htarget')
      exact hfits
    · intro hall
      exact hall t htarget hwrites
  · have hnone : ∀ t, target serde file tensorName a b = .ok t → ¬ t.Writes :=
      fun t htarget hwrites => h ⟨t, htarget, hwrites⟩
    rw [staysInSlot_iff_written, writes_eq_nil hnone]
    simp only [Touches, false_imp_iff, implies_true, not_false_eq_true, and_self, true_iff]
    exact fun t htarget hwrites => absurd hwrites (hnone t htarget)

/-- The second backup has room for the codes of two rows and for one scale. -/
def slotText : String :=
  "\x7b\"grim.ext.entries\":[\x7b\"backup2\":\x7b\"bpw\":8,\"codes_offset\":256," ++
    "\"codes_size\":512,\"scale_offset\":768,\"scale_size\":1\x7d,\"tensor_name\":\"w\"\x7d]\x7d"

def slotJson : Value :=
  .object [("grim.ext.entries", .array [.object
    [("backup2", BackupLayer.toJson ⟨256, 512, 8, 768, 1⟩), ("tensor_name", .string "w")]])]

def slotSerde : SerdeJson := serdeFor slotText slotJson

def slotEntry : GrimTensorEntry where
  name := "w"
  shape := [2, 1]
  baseBitwidth := 8
  payloadOffset := 235
  payloadSize := 769

def slotFile : List UInt8 :=
  (GrimHeader.new 1 132).write ++ (utf8 slotText ++ (slotEntry.write ++ (zeros 769 ++ [7])))

def slotRead : GrimFile × List UInt8 :=
  ((GrimFile.read slotSerde).run slotFile).toOption.getD
    (⟨.new 0 0, GrimMetadata.default, [], .w32⟩, [])

def slotA : AdapterTensor := ⟨[1, 1], .ok [0x3F800000]⟩

def slotB : AdapterTensor := ⟨[2, 1], .ok [0x3F800000, 0x3F800000]⟩

theorem slotRead_spec : ((GrimFile.read slotSerde).run slotFile).map (fun _ => ()) = .ok () ∧
    (slotRead.1.tensor "w").map (fun entry => entry.payloadOffset) = some 235 ∧
    (slotRead.1.metadata.getTensorExt "w").map (fun ext => ext.backup2) =
      some ⟨256, 512, 8, 768, 1⟩ ∧
    (patch slotFile (attachBoltOn slotSerde slotFile "w" slotA slotB 0x3F800000).writes)[1004]? =
      some 255 ∧ slotFile[1004]? = some 7 := by decide +kernel

/-- The second scale is written over the byte behind the slot. -/
theorem second_scale_outside : ¬ StaysInSlot slotSerde slotFile "w"
    (attachBoltOn slotSerde slotFile "w" slotA slotB 0x3F800000) := by
  intro h
  obtain ⟨hok, hentry, hext, hnew, hold⟩ := slotRead_spec
  have hslot : (GrimFile.read slotSerde).run slotFile = .ok slotRead := by
    rw [slotRead]
    exact eq_ok_getD _ hok
  obtain ⟨grimFile, rest, entry, ext, hread, hentry', hext', hk⟩ :=
    h.changed 1004 (by rw [hnew, hold]; decide)
  have hfile : slotRead.1 = grimFile :=
    congrArg Prod.fst (Except.ok.inj (hslot.symm.trans hread))
  rw [hfile] at hentry hext
  rw [hentry', Option.map_some, Option.some_inj] at hentry
  rw [hext', Option.map_some, Option.some_inj] at hext
  simp only [Has, stop, codesRegion, scaleRegion, hentry, hext] at hk
  exact absurd hk (by decide)

end Grim.Format
