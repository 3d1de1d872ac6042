import Grim.Format.Gguf

/-!
# The header, written and read back

What the reader accepts is within its limits, so the writer's copy of it is read back; only the
entries a conversion adds can go beyond them.
-/

namespace Grim.Format

open LittleEndian Reader

structure GoodEntry (e : String × GgufValue) : Prop where
  key_le : e.1.utf8ByteSize ≤ maxGgufStringLength
  uniform : Uniform e.2
  limits : InLimits maxGgufArrayNestingDepth e.2

structure GoodInfo (t : GgufTensorInfo) : Prop where
  name_le : t.name.utf8ByteSize ≤ maxGgufStringLength
  dims_le : t.dims.length ≤ maxDims
  sized : tensorSizeBytes t.name t.dtype t.dims = pure t.sizeBytes

structure GoodHeader (h : GgufHeader) : Prop where
  tensors_le : h.tensors.length ≤ maxHeaderCount
  nodup : h.metadata.Nodup
  entries : ∀ e ∈ h.metadata, GoodEntry e
  infos : ∀ t ∈ h.tensors, GoodInfo t

theorem yields_entry : Yields readEntry GoodEntry :=
  yields_string.bind fun _ hkey => yields_value.bind fun _ hv =>
    Yields.pure ⟨hkey, hv.1, hv.2⟩

theorem tensorSizeBytes_cases (name : String) (dtype : GgufDType) (dims : List UInt64) :
    (∃ size, tensorSizeBytes name dtype dims = pure size) ∨
      ∃ e, tensorSizeBytes name dtype dims = fail e := by
  unfold tensorSizeBytes
  split
  · exact .inr ⟨_, rfl⟩
  split_ifs
  · split
    · exact .inr ⟨_, rfl⟩
    · exact .inl ⟨_, rfl⟩
  · exact .inr ⟨_, rfl⟩
  · split
    · exact .inr ⟨_, rfl⟩
    · exact .inl ⟨_, rfl⟩

theorem yields_size (name : String) (dtype : GgufDType) (dims : List UInt64) :
    Yields (tensorSizeBytes name dtype dims)
      fun size => tensorSizeBytes name dtype dims = pure size := by
  rcases tensorSizeBytes_cases name dtype dims with ⟨size, h⟩ | ⟨e, h⟩
  · rw [h]
    exact Yields.pure rfl
  · rw [h]
    exact Yields.fail e

theorem pure_inj {a b : UInt64} (h : (pure a : GgufReader UInt64) = pure b) : a = b := by
  have hrun := congrArg (fun r : GgufReader UInt64 => r.run []) h
  cases hrun
  rfl

theorem expectedTensorBytes_getD {name : String} {dtype : GgufDType} {dims : List UInt64}
    {size : UInt64} (h : tensorSizeBytes name dtype dims = pure size) :
    (expectedTensorBytes dtype dims).getD size = size := by
  have hfail : ∀ e, (fail e : GgufReader UInt64) ≠ pure size := by
    intro e he
    have hrun := congrArg (fun r : GgufReader UInt64 => r.run []) he
    cases hrun
  unfold tensorSizeBytes at h
  unfold expectedTensorBytes
  rcases hp : dimProduct dims with _ | params
  · rw [hp] at h
    exact absurd h (hfail _)
  rw [hp] at h
  by_cases ht : dtype.typeSizePerBlock = 0
  · simp [ht]
  have hb := dtype.blockSize_ne_zero
  by_cases hone : dtype.blockSize = 1
  · rcases hm : checkedMul params dtype.typeSizePerBlock with _ | total
    · simp only [hone, hm, if_true] at h
      exact absurd h (hfail _)
    · simp only [hone, hm, if_true] at h
      have := pure_inj h
      simp [ht, hone, hm, this]
  · rcases hm : checkedMul params dtype.typeSizePerBlock with _ | total
    · simp only [hone, ht, hm, if_false] at h
      exact absurd h (hfail _)
    · simp only [hone, ht, hm, if_false] at h
      have := pure_inj h
      simp [hb, ht, hone, hm, this]

theorem yields_tensorInfo : Yields readTensorInfo GoodInfo := by
  refine yields_string.bind fun name hname => (Yields.trivial _).bind fun nDims _ => ?_
  by_cases hdims : maxDims < nDims.toNat
  · rw [if_pos hdims]
    exact Yields.fail _
  rw [if_neg hdims]
  refine (Yields.length_items _ _).bind fun dims hlen => (Yields.trivial _).bind fun tag _ => ?_
  split
  · exact Yields.fail _
  refine (Yields.trivial _).bind fun offset _ => (yields_size _ _ _).bind fun size hsize => ?_
  exact Yields.pure ⟨hname, hlen ▸ not_lt.1 hdims, hsize⟩

theorem yields_header : Yields readHeader GoodHeader := by
  refine (Yields.trivial _).bind fun magic _ => ?_
  split_ifs
  · exact Yields.fail _
  refine (Yields.trivial _).bind fun version _ => ?_
  split_ifs
  · exact Yields.fail _
  refine (Yields.trivial _).bind fun tensorCount _ => (Yields.trivial _).bind fun kvCount _ => ?_
  split_ifs with htensors hkv
  · exact Yields.fail _
  · exact Yields.fail _
  refine (yields_entry.items _).bind fun entries hentries => ?_
  refine ((yields_tensorInfo.items _).and (Yields.length_items _ _)).bind fun infos hinfos => ?_
  refine Yields.pure ⟨?_, ?_, fun e he => ?_, hinfos.1⟩
  · exact hinfos.2 ▸ not_lt.1 htensors
  · exact Metadata.Nodup.insertAll _ List.nodup_nil
  · rcases Metadata.mem_insertAll _ he with hempty | hmem
    · exact absurd hempty (by simp [Metadata.empty])
    · exact hentries e hmem

theorem reads_entry {e : String × GgufValue} (h : GoodEntry e) :
    Reads readEntry (writeEntry e) e :=
  (reads_string h.key_le).bind ((reads_value h.limits h.uniform).map fun v => (e.1, v))

theorem reads_count {n limit : ℕ} (h : n ≤ limit) (hlimit : limit < 2 ^ 64) :
    Reads readU64Le (bytes 8 n) (UInt64.ofNat n) ∧ (UInt64.ofNat n).toNat = n := by
  have hlt : n < 2 ^ 64 := by omega
  exact ⟨reads_number hlt, by rw [UInt64.toNat_ofNat', Nat.mod_eq_of_lt hlt]⟩

theorem reads_tensorInfo {t : GgufTensorInfo} (h : GoodInfo t) :
    Reads readTensorInfo (writeTensorInfo t) t := by
  have hdims := h.dims_le
  have hnat : (UInt32.ofNat t.dims.length).toNat = t.dims.length := by
    rw [UInt32.toNat_ofNat', Nat.mod_eq_of_lt]
    have : maxDims < 2 ^ 32 := by decide
    omega
  refine (reads_string h.name_le).bind ((reads_u32 _).bind ?_)
  rw [hnat, if_neg (not_lt.2 hdims)]
  refine (reads_items t.dims fun d _ => reads_u64 d).bind ((reads_u32 _).bind ?_)
  rw [GgufDType.discriminant_eq_tag, GgufDType.fromTag_tag]
  have hlast := (reads_u64 t.offset).map fun offset => { t with offset }
  simpa only [h.sized, pure_bind] using hlast

theorem reads_header {entries : Metadata} {infos : List GgufTensorInfo}
    (hnodup : entries.Nodup) (hentries : ∀ e ∈ entries, GoodEntry e)
    (hinfos : ∀ t ∈ infos, GoodInfo t) (hkv : entries.length ≤ maxHeaderCount)
    (htensors : infos.length ≤ maxHeaderCount) :
    Reads readHeader (writeHeader entries infos)
      ⟨ggufVersion, UInt64.ofNat infos.length, entries, infos⟩ := by
  obtain ⟨hread1, hnat1⟩ := reads_count htensors (by decide)
  obtain ⟨hread2, hnat2⟩ := reads_count hkv (by decide)
  refine (reads_u32 _).bind ?_
  rw [if_neg (by simp)]
  refine (reads_u32 _).bind ?_
  rw [if_neg (by decide)]
  refine hread1.bind (hread2.bind ?_)
  rw [hnat1, hnat2, if_neg (not_lt.2 htensors), if_neg (not_lt.2 hkv)]
  have hall : Metadata.empty.insertAll entries = entries :=
    Metadata.insertAll_eq_append entries Metadata.empty hnodup
  refine (reads_items entries fun e he => reads_entry (hentries e he)).bind ?_
  rw [hall]
  exact (reads_items infos fun t ht => reads_tensorInfo (hinfos t ht)).map fun tensors =>
    GgufHeader.mk ggufVersion (UInt64.ofNat infos.length) entries tensors

theorem refuses_string {s : String} (h : maxGgufStringLength < s.utf8ByteSize)
    (hlt : s.utf8ByteSize < 2 ^ 64) : Refuses readGgufString (writeGgufString s) := by
  refine (reads_number hlt).refuses ?_
  rw [UInt64.toNat_ofNat', Nat.mod_eq_of_lt hlt, if_pos h]
  exact Refuses.fail _ _

def targetEntry (gcn : String) : String × GgufValue := ("grim.rocml.target_gcn", .string gcn)

theorem refuses_targetEntry {gcn : String} (h : maxGgufStringLength < gcn.utf8ByteSize)
    (hlt : gcn.utf8ByteSize < 2 ^ 64) : Refuses readEntry (writeEntry (targetEntry gcn)) := by
  have hkey : "grim.rocml.target_gcn".utf8ByteSize ≤ maxGgufStringLength := by decide
  refine (reads_string hkey).refuses (Refuses.bind _ ?_)
  exact (reads_u32 _).refuses ((refuses_string h hlt).bind _)

section Refused

variable {entries : Metadata} {infos : List GgufTensorInfo}

theorem refuses_header_count (htensors : infos.length ≤ maxHeaderCount)
    (hlt : entries.length < 2 ^ 64) (hkv : maxHeaderCount < entries.length) :
    Refuses readHeader (writeHeader entries infos) := by
  obtain ⟨hread1, hnat1⟩ := reads_count htensors (by decide)
  refine (reads_u32 _).refuses ?_
  rw [if_neg (by simp)]
  refine (reads_u32 _).refuses ?_
  rw [if_neg (by decide)]
  refine hread1.refuses ((reads_number hlt).refuses ?_)
  rw [hnat1, if_neg (not_lt.2 htensors), UInt64.toNat_ofNat', Nat.mod_eq_of_lt hlt, if_pos hkv]
  exact Refuses.fail _ _

theorem refuses_header_entry {bad : String × GgufValue}
    (htensors : infos.length ≤ maxHeaderCount) (hkv : entries.length ≤ maxHeaderCount)
    (hentries : ∀ e ∈ entries, GoodEntry e ∨ e = bad) (hmem : bad ∈ entries)
    (hbad : Refuses readEntry (writeEntry bad)) :
    Refuses readHeader (writeHeader entries infos) := by
  obtain ⟨hread1, hnat1⟩ := reads_count htensors (by decide)
  obtain ⟨hread2, hnat2⟩ := reads_count hkv (by decide)
  refine (reads_u32 _).refuses ?_
  rw [if_neg (by simp)]
  refine (reads_u32 _).refuses ?_
  rw [if_neg (by decide)]
  refine hread1.refuses (hread2.refuses ?_)
  rw [hnat1, hnat2, if_neg (not_lt.2 htensors), if_neg (not_lt.2 hkv)]
  have hitems : Refuses (items readEntry entries.length) (entries.flatMap writeEntry) := by
    refine refuses_items entries (fun e he => ?_) hmem hbad
    rcases hentries e he with hgood | rfl
    · exact .inr (reads_entry hgood)
    · exact .inl hbad
  exact (hitems.bind _).append _

end Refused

def grimKeys : List String :=
  ["grim.magic", "grim.quant_version", "grim.rocml.profile", "grim.rocml.wavefront_size",
    "grim.rocml.target_gcn", "grim.rocml.lds_size", "grim.rocml.tensor_core_enabled",
    "grim.rocm.kv_layout_optimized", "grim.rocm.fusion_ops"]

theorem grimEntries_keys (gcn : String) : (grimEntries gcn).map Prod.fst = grimKeys := rfl

theorem key_mem {gcn : String} {e : String × GgufValue} (he : e ∈ grimEntries gcn) :
    e.1 ∈ grimKeys := by
  rw [← grimEntries_keys gcn]
  exact List.mem_map.2 ⟨e, he, rfl⟩

theorem grimKeys_le : ∀ key ∈ grimKeys, key.utf8ByteSize ≤ maxGgufStringLength := by decide

theorem grimEntries_good {gcn : String} {e : String × GgufValue} (he : e ∈ grimEntries gcn) :
    GoodEntry e ∨ e = targetEntry gcn := by
  have hkey := grimKeys_le _ (key_mem he)
  have hname : ∀ profile : GrimRocmlProfile,
      profile.name.utf8ByteSize ≤ maxGgufStringLength := by
    intro profile
    cases profile <;> decide
  simp only [grimEntries, List.mem_cons, List.not_mem_nil, or_false] at he
  rcases he with rfl | rfl | rfl | rfl | rfl | rfl | rfl | rfl | rfl
  · exact .inl ⟨hkey, uniform_string _, by simp [InLimits]; decide⟩
  · exact .inl ⟨hkey, uniform_uint32 _, by simp [InLimits]⟩
  · exact .inl ⟨hkey, uniform_string _, by simpa [InLimits] using hname _⟩
  · exact .inl ⟨hkey, uniform_uint32 _, by simp [InLimits]⟩
  · exact .inr rfl
  · exact .inl ⟨hkey, uniform_uint32 _, by simp [InLimits]⟩
  · exact .inl ⟨hkey, uniform_bool _, by simp [InLimits]⟩
  · exact .inl ⟨hkey, uniform_bool _, by simp [InLimits]⟩
  · refine .inl ⟨hkey, uniform_fusionOps _, ?_⟩
    simp [fusionOps, InLimits, AllInLimits, maxGgufArrayNestingDepth, maxGgufArrayCount,
      GrimFusionOp.asStr]
    decide

theorem targetEntry_mem (gcn : String) (m : Metadata) : targetEntry gcn ∈ injectMetadata gcn m := by
  simp [injectMetadata, Metadata.insertAll, grimEntries, Metadata.mem_insert, targetEntry]

theorem targetEntry_good {gcn : String} (h : gcn.utf8ByteSize ≤ maxGgufStringLength) :
    GoodEntry (targetEntry gcn) :=
  ⟨by show "grim.rocml.target_gcn".utf8ByteSize ≤ _; decide, uniform_string _,
    by simpa [targetEntry, InLimits] using h⟩

theorem injectMetadata_alignment (gcn : String) (m : Metadata) :
    (injectMetadata gcn m).get "general.alignment" = m.get "general.alignment" := by
  refine Metadata.get_insertAll_of_notMem fun e he heq => ?_
  have hnot : "general.alignment" ∉ grimKeys := by decide
  exact hnot (heq ▸ key_mem he)

end Grim.Format
