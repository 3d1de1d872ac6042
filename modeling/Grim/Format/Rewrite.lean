import Grim.Format.Streams

/-!
# Rewriting the metadata of a `.grim` file

The file is written anew and the streams of each tensor are copied one by one to their new places.
What the registry does not know of stays behind: the attachments and their index, and what a
delta-varint stream has beyond the records its count reserves.
-/

namespace Grim.Format

open LittleEndian Slice Patch Reader List

def seekTo (off : UInt64) : Except String Unit :=
  if off.toNat < 2 ^ 63 then .ok () else .error "Invalid argument (os error 22)"

structure Copy where
  oldOff : UInt64
  newOff : UInt64
  len : UInt64

def extentsOf (old new : GrimTensorEntry) : List Copy :=
  [⟨old.payloadOffset, new.payloadOffset, old.payloadSize⟩,
    ⟨old.outlierOffset, new.outlierOffset, old.outlierBytes⟩,
    ⟨old.kvCompressedOffset, new.kvCompressedOffset, old.kvCompressedSize⟩]

def copyExtent (oldFile out : List UInt8) (c : Copy) : Except String (List UInt8) :=
  if c.len = 0 ∨ c.oldOff = 0 then .ok out
  else do
    seekTo c.oldOff
    seekTo c.newOff
    pure (overwrite out c.newOff.toNat (slice oldFile c.oldOff.toNat c.len.toNat))

def rewriteMetadata (serde : SerdeJson) (mutate : GrimMetadata → GrimMetadata)
    (oldFile : List UInt8) : Except String (List UInt8) := do
  let (grim, _) ← (GrimFile.read serde).run oldFile
  let (newEntries, head) :=
    ({ grim with metadata := mutate grim.metadata } : GrimFile).write serde 0
  ((grim.tensors.zip newEntries).flatMap fun p => extentsOf p.1 p.2).foldlM
    (copyExtent oldFile) head

variable {serde : SerdeJson}

theorem yields_grimFile : Yields (GrimFile.read serde) fun f =>
    (∀ t ∈ f.tensors, t.Fits) ∧ f.tensors.length ≤ 1000000 := by
  refine (Yields.trivial _).bind fun header _ => (Yields.trivial _).bind fun metadata _ => ?_
  split_ifs with hcap
  · exact Yields.fail _
  · refine ((Yields.items GrimTensorEntry.yields_fits _).and (Yields.length_items _ _)).bind
      fun tensors h => ?_
    refine Yields.pure ⟨h.1, ?_⟩
    rw [h.2]
    exact not_lt.1 hcap

variable {oldFile out : List UInt8}

def writeOf (oldFile : List UInt8) (c : Copy) : List Write :=
  if c.len = 0 ∨ c.oldOff = 0 then []
  else [⟨c.newOff.toNat, slice oldFile c.oldOff.toNat c.len.toNat, true⟩]

/-- The streams of the tensors of `f` at their places in the new file. -/
def GrimFile.relaid (f : GrimFile) (serde : SerdeJson) (oldFile : List UInt8) (new : GrimFile) :
    List Write :=
  ((f.tensors.zip (new.write serde 0).1).flatMap fun p => extentsOf p.1 p.2).flatMap
    (writeOf oldFile)

theorem copyExtent_ok {c : Copy} {out' : List UInt8} (h : copyExtent oldFile out c = .ok out') :
    out' = patch out (writeOf oldFile c) := by
  rw [copyExtent] at h
  rw [writeOf]
  split_ifs at h ⊢
  · exact (Except.ok.inj h).symm
  · rw [seekTo, seekTo] at h
    split_ifs at h
    · exact (Except.ok.inj h).symm
    all_goals cases h

theorem copies_ok : ∀ {cs : List Copy} {out out' : List UInt8},
    cs.foldlM (copyExtent oldFile) out = .ok out' → out' = patch out (cs.flatMap (writeOf oldFile))
  | [], _, _, h => (Except.ok.inj h).symm
  | c :: cs, out, out', h => by
    rw [foldlM_cons] at h
    rcases hc : copyExtent oldFile out c with e | mid
    · rw [hc] at h
      cases h
    · rw [hc] at h
      have hrest : out' = patch mid (cs.flatMap (writeOf oldFile)) := copies_ok h
      rw [hrest, copyExtent_ok hc, flatMap_cons, patch, patch, patch, foldl_append]

theorem covered_writeOf (oldFile : List UInt8) (c : Copy) :
    Covered (writeOf oldFile c) [⟨c.newOff.toNat, c.len.toNat⟩] := by
  rw [writeOf]
  split_ifs
  · exact Covered.nil.skip
  · refine Covered.nil.cons rfl fun _ => ?_
    have hlen : (slice oldFile c.oldOff.toNat c.len.toNat).length ≤ c.len.toNat := by
      rw [length_slice]
      exact min_le_left _ _
    exact Nat.add_le_add_left hlen _

theorem covered_extentsOf {t : GrimTensorEntry} (payload outlier kv : UInt64)
    (hkv : t.kvCompressedSize ≠ 0 → t.kvPresent ≠ 0) :
    Covered ((extentsOf t (t.moved payload outlier kv)).flatMap (writeOf oldFile))
      (t.moved payload outlier kv).extents := by
  have hpayload := covered_writeOf oldFile ⟨t.payloadOffset, payload, t.payloadSize⟩
  have houtlier := covered_writeOf oldFile ⟨t.outlierOffset, outlier, t.outlierBytes⟩
  have hblob : Covered (writeOf oldFile ⟨t.kvCompressedOffset, kv, t.kvCompressedSize⟩)
      (if t.HasKv then [⟨kv.toNat, t.kvCompressedSize.toNat⟩] else []) := by
    by_cases hsize : t.kvCompressedSize = 0
    · have hnone : writeOf oldFile ⟨t.kvCompressedOffset, kv, t.kvCompressedSize⟩ = [] :=
        if_pos (.inl hsize)
      rw [hnone]
      split_ifs
      · exact Covered.nil.skip
      · exact Covered.nil
    · have hhas : t.HasKv := ⟨hkv hsize, UInt64.lt_iff_toNat_lt.2 (toNat_ne_zero hsize)⟩
      rw [if_pos hhas]
      exact covered_writeOf oldFile _
  have hall := hpayload.append (houtlier.append hblob)
  rw [extentsOf, flatMap_cons, flatMap_cons, flatMap_singleton]
  exact hall

namespace GrimFile

theorem place_cons (segment : ℕ) (o : UInt64) (t : GrimTensorEntry) (ts : List GrimTensorEntry) :
    ∃ payload outlier kv o', place segment o (t :: ts) =
      t.moved payload outlier kv :: place segment o' ts := by
  rw [place]
  split_ifs
  · exact ⟨_, _, _, _, rfl⟩
  · exact ⟨_, _, t.kvCompressedOffset, _, rfl⟩

theorem getElem?_place (segment : ℕ) : ∀ {ts : List GrimTensorEntry} {o : UInt64} {i : ℕ}
    {t : GrimTensorEntry}, ts[i]? = some t →
      ∃ payload outlier kv, (place segment o ts)[i]? = some (t.moved payload outlier kv)
  | [], _, _, _, h => by simp at h
  | u :: ts, o, i, t, h => by
    obtain ⟨payload, outlier, kv, o', hplace⟩ := place_cons segment o u ts
    rw [hplace]
    rcases i with _ | i
    · obtain rfl := Option.some.inj h
      exact ⟨payload, outlier, kv, rfl⟩
    · exact getElem?_place segment (by simpa using h)

theorem covered_place (segment : ℕ) : ∀ {ts : List GrimTensorEntry} {o : UInt64},
    (∀ t ∈ ts, t.kvCompressedSize ≠ 0 → t.kvPresent ≠ 0) →
      Covered (((ts.zip (place segment o ts)).flatMap fun p => extentsOf p.1 p.2).flatMap
        (writeOf oldFile)) ((place segment o ts).flatMap GrimTensorEntry.extents)
  | [], _, _ => Covered.nil
  | t :: ts, o, h => by
    obtain ⟨payload, outlier, kv, o', hplace⟩ := place_cons segment o t ts
    rw [hplace, zip_cons_cons, flatMap_cons, flatMap_append, flatMap_cons]
    exact (covered_extentsOf payload outlier kv (h t mem_cons_self)).append
      (covered_place segment fun u hu => h u (mem_cons_of_mem t hu))

end GrimFile

/-- The last eight bytes laid out are a place at which the magic of an index stands, with a number
of entries behind it. -/
def EndsInIndex (head : List UInt8) (ws : List Write) : Prop :=
  let stop := stopOf head.length ws
  let place := value ((List.range' (stop - 8) 8).map (byteAt head ws))
  place + 15 ≤ stop ∧ (List.range' place 7).map (byteAt head ws) = attachmentMagic ∧
    value ((List.range' (place + 7) 4).map (byteAt head ws)) ≠ 0

instance (head : List UInt8) (ws : List Write) : Decidable (EndsInIndex head ws) :=
  inferInstanceAs (Decidable (_ ∧ _ ∧ _))

theorem readAttachmentEntries_nil {s : List UInt8} (h : 4 ≤ s.length) :
    (readAttachmentEntries.run s).map Prod.fst = .ok [] ↔ value (s.take 4) = 0 := by
  have hrun : readAttachmentEntries.run s = (if 16 < value (s.take 4) then
      Reader.fail (s!"attachment index declares {value (s.take 4)} entries; " ++
        "more than 16 is corruption")
    else items readAttachmentEntry (value (s.take 4))).run (s.drop 4) := by
    have hcount : (Reader.exact "truncated attachment index: no count" 4).run s =
        .ok (s.take 4, s.drop 4) := if_pos h
    rw [readAttachmentEntries, StateT.run_bind, hcount]
    rfl
  rw [hrun]
  by_cases hcap : 16 < value (s.take 4)
  · rw [if_pos hcap]
    exact iff_of_false (fun h => nomatch h) (by omega)
  · rw [if_neg hcap]
    constructor
    · intro hnil
      rcases hitems : (items readAttachmentEntry (value (s.take 4))).run (s.drop 4) with
        e | ⟨entries, rest⟩
      · rw [hitems] at hnil
        exact nomatch hnil
      · rw [hitems] at hnil
        obtain rfl : entries = [] := Except.ok.inj hnil
        exact (Yields.length_items _ _ _ _ _ hitems).symm
    · intro hzero
      rw [hzero]
      rfl

/-- An index is read where the bytes end in one. -/
theorem readAttachmentIndex_patch (head : List UInt8) (ws : List Write) :
    readAttachmentIndex (patch head ws) = .ok [] ↔ ¬EndsInIndex head ws := by
  set file := patch head ws with hfile
  have hstop : stopOf head.length ws = file.length := (length_patch head ws).symm
  have hslice : ∀ {off n : ℕ}, off + n ≤ file.length →
      (List.range' off n).map (byteAt head ws) = slice file off n := fun {off n} h =>
    (slice_patch head ws (hstop.symm ▸ h)).symm
  rw [readAttachmentIndex, EndsInIndex]
  dsimp only
  rw [hstop]
  by_cases hshort : file.length < 15
  · rw [if_pos hshort]
    exact iff_of_true rfl fun h => by omega
  have htail : slice file (file.length - 8) 8 = file.drop (file.length - 8) :=
    take_of_length_le (by rw [length_drop]; omega)
  rw [if_neg hshort, hslice (by omega), htail]
  set place := value (file.drop (file.length - 8)) with hplace
  by_cases hbehind : file.length < place + 15
  · refine iff_of_true ?_ fun h => by omega
    split_ifs with hle
    · rfl
    · rw [parseAttachmentIndex, if_pos (by rw [length_drop]; omega)]
  · have hstored : value ((file.drop place).drop ((file.drop place).length - 8)) = place := by
      rw [drop_drop, length_drop, hplace]
      congr 2
      omega
    rw [if_neg (by omega), parseAttachmentIndex, if_neg (by rw [length_drop]; omega)]
    dsimp only
    rw [hstored, if_neg (by rw [length_drop]; omega), Nat.sub_self, Nat.zero_add,
      hslice (by omega), hslice (by omega)]
    have hmagic : slice (file.drop place) 0 7 = slice file place 7 := rfl
    rw [hmagic]
    by_cases hfound : slice file place 7 = attachmentMagic
    · have hcount : ((file.drop place).drop 7).take 4 = slice file (place + 7) 4 := by
        rw [drop_drop, slice]
      rw [if_neg (not_not.2 hfound), readAttachmentEntries_nil (by
        rw [length_drop, length_drop]; omega), hcount]
      exact ⟨fun h0 h => h.2.2 h0, fun h => not_not.1 fun hne => h ⟨by omega, hfound, hne⟩⟩
    · rw [if_pos hfound]
      exact iff_of_true rfl fun h => hfound h.2.1

def GrimFile.encodingOf (f : GrimFile) (t : GrimTensorEntry) : OutlierIndexEncoding :=
  ((f.metadata.extEntries.find? fun ext => ext.tensorName == t.name).map
    GrimTensorExt.outlierIndexEncoding).getD .flatU32

variable {F : Type} (vals : OutlierValues F) (sha256Bytes : List UInt8 → List UInt8)

/-- Both files are read; the tensors at the places `others` holds of have the same streams, and the
attachments are the same. -/
def Keeps (serde : SerdeJson) (others : ℕ → Prop) (file : List UInt8) (f : GrimFile)
    (file' : List UInt8) : Prop :=
  (∃ f' rest', (GrimFile.read serde).run file' = .ok (f', rest') ∧
    f'.tensors.length = f.tensors.length ∧
      ∀ i t, others i → f.tensors[i]? = some t → ∃ t', f'.tensors[i]? = some t' ∧
        t'.name = t.name ∧ SameStreams vals (f.encodingOf t) file t file' t') ∧
    readAttachments sha256Bytes file' = readAttachments sha256Bytes file

/-- Every stream that is not empty lies in the file, and not at its start. -/
structure WellFormed (file : List UInt8) (t : GrimTensorEntry) : Prop where
  payload : t.payloadSize ≠ 0 → t.payloadOffset ≠ 0 ∧
    t.payloadOffset.toNat + t.payloadSize.toNat ≤ file.length
  outliers : t.outlierCount ≠ 0 → t.outlierOffset ≠ 0
  kv : t.kvCompressedSize ≠ 0 → t.kvCompressedOffset ≠ 0 ∧
    t.kvCompressedOffset.toNat + t.kvCompressedSize.toNat ≤ file.length

/-- The rewrite knows of all the tensor's bytes: its outliers are in the records its count reserves,
and a KV blob is said to be there. -/
structure Carried (file : List UInt8) (f : GrimFile) (t : GrimTensorEntry) : Prop where
  outliers : OutliersWithin vals (f.encodingOf t) file t
  kv : t.kvCompressedSize ≠ 0 → t.kvPresent ≠ 0

/-- The new layout is within 64 bits, and the new metadata within the reader's limit. -/
structure GrimFile.Written (serde : SerdeJson) (f : GrimFile) : Prop where
  room : Room f.wave.segmentBytes (f.payloadRegionStart serde 0) f.tensors
  metadata : f.MetadataReads serde

variable {vals sha256Bytes}

theorem toNat_outlierBytes (t : GrimTensorEntry) : t.outlierBytes.toNat = flatBytes t := by
  have hcount := t.outlierCount.toNat_lt
  have hsix : (UInt64.ofNat outlierRecordBytes).toNat = 6 := rfl
  rw [GrimTensorEntry.outlierBytes, flatBytes, UInt64.toNat_mul, hsix, outlierRecordBytes,
    UInt32.toNat_toUInt64, Nat.mod_eq_of_lt (by omega)]

theorem reads_written {f : GrimFile} (hserde : serde.Lawful) (hfits : ∀ t ∈ f.tensors, t.Fits)
    (hcount : f.tensors.length ≤ 1000000) (hwritten : f.Written serde) {file' : List UInt8}
    (h : file'.take (f.write serde 0).2.length = (f.write serde 0).2) :
    ∃ f' rest', (GrimFile.read serde).run file' = .ok (f', rest') ∧
      f'.tensors = (f.write serde 0).1 := by
  obtain ⟨f', hf', htensors⟩ :=
    GrimFile.reads_file hserde hfits ⟨hwritten.metadata, hcount⟩
  refine ⟨f', file'.drop (f.write serde 0).2.length, ?_, htensors⟩
  have hsplit := take_append_drop (f.write serde 0).2.length file'
  rw [h] at hsplit
  have hrun := hf' (file'.drop (f.write serde 0).2.length)
  rwa [hsplit] at hrun

theorem holds_of_copy {cs : List Copy} (hin : InOrder (cs.flatMap (writeOf oldFile))) {c : Copy}
    (hc : c ∈ cs) (hlen : c.len ≠ 0) (hold : c.oldOff ≠ 0) :
    Holds (patch out (cs.flatMap (writeOf oldFile))) c.newOff.toNat
      (slice oldFile c.oldOff.toNat c.len.toNat) := by
  have hwrite : writeOf oldFile c =
      [⟨c.newOff.toNat, slice oldFile c.oldOff.toNat c.len.toNat, true⟩] := if_neg (by tauto)
  have hmem : ⟨c.newOff.toNat, slice oldFile c.oldOff.toNat c.len.toNat, true⟩ ∈
      cs.flatMap (writeOf oldFile) :=
    mem_flatMap.2 ⟨c, hc, by rw [hwrite]; exact mem_singleton_self _⟩
  exact holds_patch _ out hin _ hmem rfl

/-- A rewrite of the metadata keeps what it knows of. -/
theorem keeps_of_rewriteMetadata (hserde : serde.Lawful) {mutate : GrimMetadata → GrimMetadata}
    {file file' rest : List UInt8} {f : GrimFile}
    (hread : (GrimFile.read serde).run file = .ok (f, rest))
    (hwell : ∀ t ∈ f.tensors, WellFormed file t) (hcarried : ∀ t ∈ f.tensors, Carried vals file f t)
    (hwritten : ({ f with metadata := mutate f.metadata } : GrimFile).Written serde)
    (hatt : readAttachmentIndex file = .ok [])
    (hstray : ¬EndsInIndex (({ f with metadata := mutate f.metadata } : GrimFile).write serde 0).2
      (f.relaid serde file { f with metadata := mutate f.metadata }))
    (h : rewriteMetadata serde mutate file = .ok file') :
    Keeps vals sha256Bytes serde (fun _ => True) file f file' := by
  set new : GrimFile := { f with metadata := mutate f.metadata } with hnew
  obtain ⟨hfits, hcount⟩ := yields_grimFile _ _ _ hread
  rw [rewriteMetadata, hread] at h
  have hfile : file' = patch (new.write serde 0).2 (f.relaid serde file new) := copies_ok h
  set copies := (f.tensors.zip (new.write serde 0).1).flatMap fun p =>
      extentsOf p.1 p.2 with hcopies
  -- the copies go to extents one behind the other, behind what is written first
  have hchain := GrimFile.chained_streams_iff.2 hwritten.room
  obtain ⟨hpair, hbehind⟩ := Extent.chained_iff.1 hchain
  rw [GrimFile.payloadRegionStart_eq, Nat.zero_add] at hbehind
  have hcovered : Covered (copies.flatMap (writeOf file)) (new.streams serde 0) :=
    GrimFile.covered_place _ fun t ht => (hcarried t ht).kv
  have hin := hcovered.inOrder hpair
  have hstart : ∀ w ∈ copies.flatMap (writeOf file), (new.write serde 0).2.length ≤ w.start :=
    fun w hw => by
      obtain ⟨x, hx, heq⟩ := hcovered.start w hw
      rw [heq]
      exact hbehind x hx
  have htake : file'.take (new.write serde 0).2.length = (new.write serde 0).2 := by
    rw [hfile]
    exact (take_patch _ le_rfl hstart).trans take_length
  obtain ⟨f', rest', hread', htensors⟩ :=
    reads_written (f := new) hserde hfits hcount hwritten htake
  refine ⟨⟨f', rest', hread', ?_, fun i t _ ht => ?_⟩, ?_⟩
  · rw [htensors]
    exact GrimFile.length_place _ _
  · obtain ⟨payload, outlier, kv, ht'⟩ := GrimFile.getElem?_place new.wave.segmentBytes
      (o := UInt64.ofNat (new.payloadRegionStart serde 0)) ht
    refine ⟨t.moved payload outlier kv, by rw [htensors]; exact ht', rfl, ?_⟩
    have hmem := mem_of_getElem? ht
    have hpair : (t, t.moved payload outlier kv) ∈ f.tensors.zip (new.write serde 0).1 :=
      mem_of_getElem? (getElem?_zip_eq_some.2 ⟨ht, ht'⟩)
    have hcopy : ∀ c ∈ extentsOf t (t.moved payload outlier kv), c ∈ copies := fun c hc =>
      mem_flatMap.2 ⟨_, hpair, hc⟩
    have hw := hwell t hmem
    rw [hfile]
    refine ⟨readNormals_moved (fun hsize => (hw.payload hsize).2) fun hsize => ?_,
      readOutliersWithEncoding_moved (hcarried t hmem).outliers fun hcnt => ?_,
      readKvBlock_moved (fun hsize => (hw.kv hsize).2) fun hsize => ?_⟩
    · exact holds_of_copy hin (hcopy ⟨t.payloadOffset, payload, t.payloadSize⟩ (by simp [extentsOf,
        GrimTensorEntry.moved])) hsize (hw.payload hsize).1
    · have hlen : t.outlierBytes ≠ 0 := fun h0 => by
        have hzero := toNat_outlierBytes t
        rw [h0] at hzero
        exact absurd hzero.symm (Nat.mul_pos (toNat_outlierCount_pos hcnt) (by decide)).ne'
      rw [← toNat_outlierBytes]
      exact holds_of_copy hin (hcopy ⟨t.outlierOffset, outlier, t.outlierBytes⟩ (by simp [extentsOf,
        GrimTensorEntry.moved])) hlen (hw.outliers hcnt)
    · exact holds_of_copy hin (hcopy ⟨t.kvCompressedOffset, kv, t.kvCompressedSize⟩ (by
        simp [extentsOf, GrimTensorEntry.moved])) hsize (hw.kv hsize).1
  · rw [hfile, readAttachments_of_nil _ hatt,
      readAttachments_of_nil _ ((readAttachmentIndex_patch _ _).2 hstray)]

end Grim.Format
