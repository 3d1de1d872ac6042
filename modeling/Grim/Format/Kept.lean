import Grim.Format.Merge

/-!
# What a rewrite of a `.grim` file keeps

Neither a rewrite of the metadata nor a merge carries the attachments over.
-/

namespace Grim.Format

open Reader Slice Patch JsonValue List

def noValues : OutlierValues Unit := ⟨fun _ => (), (), fun _ _ => ()⟩

def layerV : GrimTensorEntry where
  name := "v"
  shape := [4]
  baseBitwidth := 4
  payloadSize := 1
  outlierCount := 1
  kvPresent := 1
  kvCompressedSize := 2

/-- Only `w` has an extension. -/
def twoTensors : GrimFile where
  header := .new 0 0
  metadata :=
    { GrimMetadata.default with
      hasKvRegistry := some true
      extEntries := [{ tensorName := "w", rowCount := 1, rowStride := 4, defaultBpw := 4 }] }
  tensors := [weightW, layerV]
  wave := .w32

def twoText : String :=
  "\x7b\"grim.ext.entries\":[\x7b\"act_quant_dtype\":0,\"act_scale_layout\":0,\"backup1\":\x7b" ++
    "\"bpw\":0,\"codes_offset\":0,\"codes_size\":0,\"scale_offset\":0,\"scale_size\":0\x7d," ++
    "\"backup2\":\x7b\"bpw\":0,\"codes_offset\":0,\"codes_size\":0,\"scale_offset\":0," ++
    "\"scale_size\":0\x7d,\"block_size\":0,\"compression\":0,\"default_bpw\":4," ++
    "\"fusion_mask\":0,\"gptq_ordered\":0,\"layout_descriptor\":[0,0,0,0]," ++
    "\"layout_hint\":\x7b\"tag\":0,\"wmma_bits\":0,\"wmma_frag_m\":0,\"wmma_frag_n\":0\x7d," ++
    "\"outlier_index_encoding\":1,\"outlier_residual_bpw\":0,\"own_bpw_table\":0," ++
    "\"per_row_bpw_mode\":0,\"row_count\":1,\"row_scale_dtype\":0,\"row_stride\":4," ++
    "\"scale_offset\":0,\"scale_size\":0,\"tensor_name\":\"w\"\x7d],\"has_kv_registry\":true," ++
    "\"rocml_profile\":\"unknown\",\"tensor_core_enabled\":false\x7d"

def twoSerde : SerdeJson := serdeFor twoText twoTensors.metadataValue

def twoFile : List UInt8 :=
  (twoTensors.write twoSerde 0).2 ++ ([1, 2] ++ (zeros 33 ++ ([3] ++
    ([0, 0, 0, 0, 0x00, 0x3c] ++ [9, 8]))))

/-- An adapter of zeros leaves the codes of the one row, which takes up 256 bytes. -/
def zeroAdapter : Repack Unit :=
    fun payload _ _ => .ok (payload ++ zeros (256 - payload.length), [])

def twoRead : GrimFile × List UInt8 :=
  ((GrimFile.read twoSerde).run twoFile).toOption.getD (twoTensors, [])

def weightWRead : GrimTensorEntry := { weightW with payloadOffset := 861, outlierOffset := 863 }

def layerVRead : GrimTensorEntry :=
  { layerV with payloadOffset := 896, outlierOffset := 897, kvCompressedOffset := 903 }

theorem twoRead_spec : twoText.utf8ByteSize = 680 ∧
    ((GrimFile.read twoSerde).run twoFile).map (fun _ => ()) = .ok () ∧
    twoRead.1.tensors = [weightWRead, layerVRead] ∧ twoRead.1.wave = .w32 ∧
    twoRead.1.encodingOf layerVRead = .flatU32 ∧ twoFile.length = 905 ∧
    readAttachmentIndex twoFile = .ok [] ∧
    newWeights noValues zeroAdapter twoFile twoRead.1 "w" 0 = .ok ([1, 2] ++ zeros 254, []) := by
  decide +kernel

theorem utf8ByteSize_twoText : twoText.utf8ByteSize = 680 := twoRead_spec.1

theorem read_twoFile : (GrimFile.read twoSerde).run twoFile = .ok (twoRead.1, twoRead.2) := by
  have hrun : (GrimFile.read twoSerde).run twoFile = .ok twoRead := eq_ok_getD _ twoRead_spec.2.1
  exact hrun.trans (congrArg Except.ok Prod.mk.eta.symm)

theorem written_two {f : GrimFile} {w : GrimTensorEntry} (hwave : f.wave = .w32)
    (htensors : f.tensors = [w, layerVRead]) (hsize : w.registryEntrySize = 82)
    (hstop : w.stop 861 < 2000) (hkv : ¬ w.HasKv) : f.Written twoSerde := by
  have hstart : f.payloadRegionStart twoSerde 0 = 861 := by
    have hlast : layerVRead.registryEntrySize = 82 := by decide
    rw [twoSerde, payloadRegionStart_serdeFor, utf8ByteSize_twoText, htensors, map_cons,
      map_singleton, hsize, hlast]
    decide
  refine ⟨?_, ?_, fun _ => ⟨_, rfl⟩⟩
  · have hle : w.outlierStart 861 ≤ w.stop 861 :=
      le_trans (Nat.le_add_right _ w.outlierBytes.toNat) (Nat.le_add_right _ _)
    have hup : Extent.alignUp (w.stop 861) 128 < 3000 := by
      rw [Extent.alignUp]
      split_ifs <;> omega
    rw [hwave, htensors, hstart]
    refine ⟨by decide, by omega, fun h => absurd h hkv, lt_trans hup (by decide), ?_, fun _ => ?_,
      trivial⟩
    · exact lt_trans (Nat.add_lt_add_right hup 1) (by decide)
    · exact lt_trans (Nat.add_lt_add_right (Nat.add_lt_add_right hup 1) 6) (by decide)
  · rw [GrimFile.metadataBytes, twoSerde, serdeFor, length_utf8, utf8ByteSize_twoText]
    decide

section TwoTensors

variable {file : List UInt8} {f : GrimFile} (htensors : f.tensors = [weightWRead, layerVRead])

include htensors

theorem well_two (hlength : file.length = 905) : ∀ t ∈ f.tensors, WellFormed file t := by
  have hwithin : ∀ {n : ℕ}, n ≤ 905 → n ≤ file.length := fun hle => le_of_le_of_eq hle hlength.symm
  rw [htensors]
  intro t ht
  rcases mem_pair.1 ht with rfl | rfl
  · exact ⟨fun _ => ⟨by decide, hwithin (by decide)⟩, fun _ => by decide, fun h => absurd rfl h⟩
  · exact ⟨fun _ => ⟨by decide, hwithin (by decide)⟩, fun _ => by decide,
      fun _ => ⟨by decide, hwithin (by decide)⟩⟩

theorem carried_two (hlength : file.length = 905) (hflat : f.encodingOf layerVRead = .flatU32) :
    ∀ t ∈ f.tensors, Carried noValues file f t := by
  rw [htensors]
  intro t ht
  rcases mem_pair.1 ht with rfl | rfl
  · exact ⟨fun h => absurd rfl h, fun h => absurd rfl h⟩
  · refine ⟨?_, fun _ => by decide⟩
    rw [hflat]
    have hle : layerVRead.outlierOffset.toNat + flatBytes layerVRead ≤ 905 := by decide
    exact fun _ => hle.trans hlength.ge

theorem written_rewrite (hwave : f.wave = .w32) :
    ({ f with metadata := id f.metadata } : GrimFile).Written twoSerde :=
  written_two (w := weightWRead) hwave htensors (by decide) (by decide) (by decide)

theorem written_merge (hwave : f.wave = .w32) :
    (mergedFile f "w" 0 ([1, 2] ++ zeros 254) []).Written twoSerde := by
  have hlen : ([1, 2] ++ zeros 254).length = 256 := by
    rw [length_append, length_zeros]
    rfl
  refine written_two (w := { weightWRead with payloadSize := 256 }) hwave ?_ (by decide) (by decide)
    (by decide)
  rw [mergedFile, htensors, hlen]
  rfl

theorem blobsLast_two : f.BlobsLast 0 := by
  have hlast : ∀ (i : ℕ) (t : GrimTensorEntry), f.tensors[i]? = some t →
      t.kvCompressedSize ≠ 0 → i = 1 := by
    rw [htensors]
    rintro (_ | _ | i) t ht hkv
    · obtain rfl := Option.some.inj ht
      exact absurd rfl hkv
    · rfl
    · simp at ht
  intro i j t u _ ht hu _ hti huj
  rw [hlast i t ht hti, hlast j u hu huj]

end TwoTensors

theorem outputs_twoFile : (rewriteMetadata twoSerde id twoFile).map (fun _ => ()) = .ok () ∧
    ¬EndsInIndex (({ twoRead.1 with metadata := id twoRead.1.metadata } : GrimFile).write
      twoSerde 0).2
      (twoRead.1.relaid twoSerde twoFile { twoRead.1 with metadata := id twoRead.1.metadata }) ∧
    (mergeBoltOn twoSerde noValues zeroAdapter twoFile "w").map (fun _ => ()) = .ok () ∧
    (twoRead.1.tensors.zipIdx.mapM (blobsOf twoFile 0 (([1, 2] ++ zeros 254) ++ []))).map
      (fun blobs => decide (EndsInIndex
        ((mergedFile twoRead.1 "w" 0 ([1, 2] ++ zeros 254) []).write twoSerde 0).2
        ((mergedFile twoRead.1 "w" 0 ([1, 2] ++ zeros 254) []).assembled twoSerde
          twoRead.1.tensors blobs))) = .ok false := by decide +kernel

/-- The file of one tensor with its two bytes of payload, and `b"abc"` attached to it. -/
def withAttachment : List UInt8 :=
  writeAttachments (fun _ => blobDigest) ((unalignedFile.write unalignedSerde 0).2 ++ [1, 2])
    [("imatrix".toList, [0x61, 0x62, 0x63])]

def weightWPlaced : GrimTensorEntry := { weightW with payloadOffset := 177, outlierOffset := 179 }

theorem withAttachment_spec : ((GrimFile.read unalignedSerde).run withAttachment).map
      (fun p => p.1.tensors) = .ok [weightWPlaced] ∧
    (readAttachmentIndex withAttachment).map List.length = .ok 1 ∧
    (rewriteMetadata unalignedSerde id withAttachment).bind
      (fun file' => readAttachmentIndex file') = .ok [] ∧
    weightWPlaced.payloadOffset.toNat + weightWPlaced.payloadSize.toNat ≤
      withAttachment.length := by
  decide +kernel

end Grim.Format
