import Grim.Format.Header
import Grim.Lib.Layout

/-!
# The bytes of a converted file

The header's length does not depend on the order of the entries or on the offsets; behind it the
payloads stand at the offsets the header states, counted from the next multiple of 32.
-/

namespace Grim.Format

open LittleEndian Reader Layout Slice List

theorem toNat_and_add_and_not (x m : UInt64) :
    (x &&& m).toNat + (x &&& ~~~m).toNat = x.toNat := by
  have hdisj : (x.toBitVec &&& m.toBitVec) &&& (x.toBitVec &&& ~~~m.toBitVec) = 0#64 := by
    ext i hi
    simp
    intro _ h1 h2
    simp [h1]
  have hor : (x.toBitVec &&& m.toBitVec) ||| (x.toBitVec &&& ~~~m.toBitVec) = x.toBitVec := by
    ext i hi
    simp
    cases x.toBitVec[i] <;> cases m.toBitVec[i] <;> rfl
  have hsum := BitVec.toNat_add_of_and_eq_zero hdisj
  rw [BitVec.add_eq_or_of_and_eq_zero _ _ hdisj, hor] at hsum
  exact hsum.symm

theorem le_alignUp {pos mask : UInt64} (h : pos.toNat + mask.toNat < 2 ^ 64) :
    pos.toNat ≤ ((pos + mask) &&& ~~~mask).toNat ∧
      ((pos + mask) &&& ~~~mask).toNat ≤ pos.toNat + mask.toNat := by
  have hsum := toNat_and_add_and_not (pos + mask) mask
  have hle : ((pos + mask) &&& mask).toNat ≤ mask.toNat := by
    rw [UInt64.toNat_and]
    exact Nat.and_le_right
  rw [UInt64.toNat_add, Nat.mod_eq_of_lt h] at hsum
  omega

theorem toNat_le_of_isPowerOfTwo {a : UInt64} (hpos : 0 < a) (h : a &&& (a - 1) = 0) :
    a.toNat ≤ 2 ^ 63 := by
  have hne : a.toNat ≠ 0 := by
    have := UInt64.lt_iff_toNat_lt.1 hpos
    simp at this
    omega
  have hand : a.toNat &&& (a.toNat - 1) = 0 := by
    have hnat := congrArg UInt64.toNat h
    rw [UInt64.toNat_and, UInt64.toNat_sub_of_le] at hnat
    · simpa using hnat
    · rw [UInt64.le_iff_toNat_le]
      simp
      omega
  obtain ⟨k, hk⟩ := (Nat.and_sub_one_eq_zero_iff_isPowerOfTwo hne).1 hand
  have hlt := a.toNat_lt
  rw [hk] at hlt ⊢
  have : k < 64 := (Nat.pow_lt_pow_iff_right (by omega)).1 hlt
  exact Nat.pow_le_pow_right (by omega) (by omega)

theorem le_dataStartAt {alignment pos : UInt64} (h : pos.toNat < 2 ^ 63) :
    pos.toNat ≤ (dataStartAt alignment pos).toNat := by
  unfold dataStartAt
  split_ifs with ha
  · have hle := toNat_le_of_isPowerOfTwo ha.1 ha.2
    have hmask : (alignment - 1).toNat = alignment.toNat - 1 := by
      rw [UInt64.toNat_sub_of_le]
      · rfl
      · have := UInt64.lt_iff_toNat_lt.1 ha.1
        rw [UInt64.le_iff_toNat_le]
        simp at this ⊢
        omega
    exact (le_alignUp (by omega)).1
  · refine (le_alignUp ?_).1
    have : (31 : UInt64).toNat = 31 := rfl
    omega

def padTo32 (n : ℕ) : ℕ := (32 - n % 32) % 32

theorem toNat_padding (x : UInt64) : (padding x).toNat = padTo32 x.toNat := by
  have hmod : (x % 32).toNat = x.toNat % 32 := by rw [UInt64.toNat_mod]; rfl
  rw [padding, UInt64.toNat_mod, UInt64.toNat_sub_of_le]
  · rw [hmod]
    rfl
  · rw [UInt64.le_iff_toNat_le, hmod]
    change _ ≤ 32
    omega

theorem padTo32_lt (n : ℕ) : padTo32 n < 32 := Nat.mod_lt _ (by omega)

theorem writeTensors_length {read : GgufTensorInfo → Except String (List UInt8)} {len : UInt64} :
    ∀ {l : List (GgufTensorInfo × GgufTensorInfo)} {out final : List UInt8},
      writeTensors read len out l = .ok final → out.length ≤ final.length
  | [], out, final, h => by
    rw [writeTensors] at h
    cases h
    exact le_rfl
  | (t, info) :: l, out, final, h => by
    rw [writeTensors] at h
    rcases hr : read t with e | bs
    · rw [hr] at h
      cases h
    · rw [hr] at h
      have hlen := writeTensors_length (l := l) h
      simp only [length_append] at hlen
      omega

/-- A tensor, its copy at the new offset, and its bytes at that offset. -/
structure Copied (read : GgufTensorInfo → Except String (List UInt8))
    (pair : GgufTensorInfo × GgufTensorInfo) (e : ℕ × List UInt8) : Prop where
  bytes : read pair.1 = .ok e.2
  offset : pair.2.offset.toNat = e.1
  same : pair.2 = { pair.1 with offset := pair.2.offset }

/-- The loop writes every tensor behind its padding, at the offset the header states. -/
theorem writeTensors_lay {read : GgufTensorInfo → Except String (List UInt8)}
    {len : UInt64} {final : List UInt8} (hfinal : final.length < 2 ^ 63) :
    ∀ (ts : List GgufTensorInfo) (cur : UInt64) (out : List UInt8),
      (∀ t ∈ ts, ∀ bs, read t = .ok bs → bs.length = t.sizeBytes.toNat) →
      out.length = len.toNat + cur.toNat →
      writeTensors read len out (ts.zip (alignInfos cur ts)) = .ok final →
      ∃ ps, final = out ++ lay padTo32 0 cur.toNat ps ∧
        List.Forall₂ (Copied read) (ts.zip (alignInfos cur ts)) (placed padTo32 cur.toNat ps)
  | [], cur, out, _, _, h => by
    rw [alignInfos, zip_nil_left, writeTensors] at h
    cases h
    exact ⟨[], by simp [lay], by simp [alignInfos, placed]⟩
  | t :: ts, cur, out, hsize, hout, h => by
    have hbound := writeTensors_length h
    rw [alignInfos, zip_cons_cons, writeTensors] at h
    rcases hr : read t with e | bs
    · rw [hr] at h
      cases h
    rw [hr] at h
    have hpad := padTo32_lt cur.toNat
    have hoff : (cur + padding cur).toNat = cur.toNat + padTo32 cur.toNat := by
      rw [UInt64.toNat_add, toNat_padding, Nat.mod_eq_of_lt (by omega)]
    have htarget : (len + (cur + padding cur)).toNat =
        len.toNat + (cur.toNat + padTo32 cur.toNat) := by
      rw [UInt64.toNat_add, hoff, Nat.mod_eq_of_lt (by omega)]
    have hpos : (UInt64.ofNat out.length).toNat = len.toNat + cur.toNat := by
      rw [UInt64.toNat_ofNat', Nat.mod_eq_of_lt (by omega), hout]
    have hfill : (if UInt64.ofNat out.length < len + (cur + padding cur) then
        len + (cur + padding cur) - UInt64.ofNat out.length else 0).toNat = padTo32 cur.toNat := by
      split_ifs with hlt
      · rw [UInt64.toNat_sub_of_le _ _ (UInt64.le_of_lt hlt), htarget, hpos]
        omega
      · rw [UInt64.lt_iff_toNat_lt, htarget, hpos] at hlt
        have hzero : padTo32 cur.toNat = 0 := by omega
        rw [hzero]
        rfl
    have hbs := hsize t (by simp) bs hr
    have hnext : writeTensors read len (out ++ List.replicate (padTo32 cur.toNat) 0 ++ bs)
        (ts.zip (alignInfos (cur + padding cur + t.sizeBytes) ts)) = .ok final := by
      rw [← hfill]
      exact h
    have hbound' := writeTensors_length hnext
    simp only [length_append, length_replicate] at hbound'
    have hcur : (cur + padding cur + t.sizeBytes).toNat =
        cur.toNat + padTo32 cur.toNat + bs.length := by
      rw [UInt64.toNat_add, hoff, ← hbs, Nat.mod_eq_of_lt (by omega)]
    have hlen : (out ++ List.replicate (padTo32 cur.toNat) 0 ++ bs).length =
        len.toNat + (cur + padding cur + t.sizeBytes).toNat := by
      simp only [length_append, length_replicate]
      omega
    obtain ⟨ps, hps, hcopied⟩ := writeTensors_lay hfinal ts _ _
      (fun u hu => hsize u (mem_cons_of_mem _ hu)) hlen hnext
    rw [hcur] at hps hcopied
    refine ⟨bs :: ps, ?_, ?_⟩
    · rw [hps, lay]
      simp
    · rw [alignInfos, zip_cons_cons, placed]
      exact .cons ⟨hr, hoff, rfl⟩ hcopied

theorem alignInfos_length : ∀ (ts : List GgufTensorInfo) (cur : UInt64),
    (alignInfos cur ts).length = ts.length
  | [], _ => rfl
  | t :: ts, cur => by rw [alignInfos, length_cons, alignInfos_length ts, length_cons]

theorem alignInfos_map {β : Type} (f : GgufTensorInfo → β)
    (hf : ∀ t offset, f { t with offset } = f t) :
    ∀ (ts : List GgufTensorInfo) (cur : UInt64), (alignInfos cur ts).map f = ts.map f
  | [], _ => rfl
  | t :: ts, cur => by
    rw [alignInfos, map_cons, hf, alignInfos_map f hf ts, map_cons]

theorem alignInfos_good : ∀ {ts : List GgufTensorInfo} {cur : UInt64},
    (∀ t ∈ ts, GoodInfo t) → ∀ t ∈ alignInfos cur ts, GoodInfo t
  | [], _, _ => fun _ ht => absurd ht (by simp [alignInfos])
  | t :: ts, cur, h => by
    intro u hu
    rw [alignInfos] at hu
    rcases mem_cons.1 hu with rfl | hu
    · have ht := h t (by simp)
      exact ⟨ht.name_le, ht.dims_le, ht.sized⟩
    · exact alignInfos_good (fun v hv => h v (mem_cons_of_mem _ hv)) u hu

/-- The bytes of a header of these entries and tensors, in any order and with any offsets. -/
def headerSize (metadata : Metadata) (tensors : List GgufTensorInfo) : ℕ :=
  24 + (metadata.map fun e => (writeEntry e).length).sum +
    (tensors.map fun t => 24 + t.name.utf8ByteSize + 8 * t.dims.length).sum

theorem length_writeTensorInfo (t : GgufTensorInfo) :
    (writeTensorInfo t).length = 24 + t.name.utf8ByteSize + 8 * t.dims.length := by
  have hdims : (t.dims.flatMap fun d => bytes 8 d.toNat).length = 8 * t.dims.length := by
    simp [length_flatMap, Nat.mul_comm]
  simp only [writeTensorInfo, writeGgufString, length_append, length_bytes, length_utf8,
    length_word, hdims]
  omega

theorem length_writeHeader {metadata entries : Metadata} (hp : entries.Perm metadata)
    (ts : List GgufTensorInfo) (cur : UInt64) :
    (writeHeader entries (alignInfos cur ts)).length = headerSize metadata ts := by
  have hentries : (entries.map fun e => (writeEntry e).length).sum =
      (metadata.map fun e => (writeEntry e).length).sum := (hp.map _).sum_eq
  have hinfos : (alignInfos cur ts).map (fun t => (writeTensorInfo t).length) =
      ts.map fun t => 24 + t.name.utf8ByteSize + 8 * t.dims.length := by
    simp only [length_writeTensorInfo]
    exact alignInfos_map _ (fun _ _ => rfl) ts cur
  simp only [writeHeader, length_append, length_bytes, length_word, length_flatMap,
    hinfos, hentries, headerSize]
  omega

theorem readGguf_ok {file : File} {g : GgufFile} (h : readGguf file = .ok g) :
    ∃ rest, readHeader.run file.bytes = .ok (g.toGgufHeader, rest) ∧
      g.dataStart = dataStartAt (alignmentOf g.metadata)
        (UInt64.ofNat (file.bytes.length - rest.length)) := by
  unfold readGguf at h
  rcases hr : readHeader.run file.bytes with e | ⟨header, rest⟩ <;> rw [hr] at h
  · cases h
  · cases h
    exact ⟨rest, rfl, rfl⟩

theorem readGguf_good {file : File} {g : GgufFile} (h : readGguf file = .ok g) :
    GoodHeader g.toGgufHeader := by
  obtain ⟨rest, hrun, -⟩ := readGguf_ok h
  exact yields_header _ _ _ hrun

theorem readTensorBytes_ok {file : File} {g : GgufFile} {t : GgufTensorInfo} (ht : GoodInfo t)
    {bs : List UInt8} : readTensorBytes file g t = .ok bs ↔
      g.dataStart.toNat + t.offset.toNat + t.sizeBytes.toNat ≤ file.bytes.length ∧
        slice file.bytes (g.dataStart.toNat + t.offset.toNat) t.sizeBytes.toNat = bs := by
  have hlen := file.length_lt
  have hsize : (expectedTensorBytes t.dtype t.dims).getD t.sizeBytes = t.sizeBytes :=
    expectedTensorBytes_getD ht.sized
  unfold readTensorBytes
  by_cases hstart : g.dataStart.toNat + t.offset.toNat < 2 ^ 64
  swap
  · rw [checkedAdd, if_neg hstart]
    exact ⟨fun h => (by cases h), fun h => (by omega)⟩
  have hstartNat : (g.dataStart + t.offset).toNat = g.dataStart.toNat + t.offset.toNat := by
    rw [UInt64.toNat_add, Nat.mod_eq_of_lt hstart]
  rw [checkedAdd, if_pos hstart]
  simp only [hsize]
  by_cases hend : (g.dataStart + t.offset).toNat + t.sizeBytes.toNat < 2 ^ 64
  swap
  · rw [checkedAdd, if_neg hend]
    exact ⟨fun h => (by cases h), fun h => (by omega)⟩
  have hendNat : (g.dataStart + t.offset + t.sizeBytes).toNat =
      g.dataStart.toNat + t.offset.toNat + t.sizeBytes.toNat := by
    rw [UInt64.toNat_add, Nat.mod_eq_of_lt hend, hstartNat]
  rw [checkedAdd, if_pos hend]
  simp only [hendNat, hstartNat]
  by_cases hfile : file.bytes.length < g.dataStart.toNat + t.offset.toNat + t.sizeBytes.toNat
  · rw [if_pos hfile]
    exact ⟨fun h => (by cases h), fun h => (by omega)⟩
  · rw [if_neg hfile]
    exact ⟨fun h => ⟨by omega, Except.ok.inj h⟩, fun h => by rw [h.2]⟩

theorem readTensorBytes_length {file : File} {g : GgufFile} {t : GgufTensorInfo}
    (ht : GoodInfo t) {bs : List UInt8} (h : readTensorBytes file g t = .ok bs) :
    bs.length = t.sizeBytes.toNat := by
  obtain ⟨hle, rfl⟩ := (readTensorBytes_ok ht).1 h
  rw [length_slice]
  omega

end Grim.Format
