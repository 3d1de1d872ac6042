import Grim.Format.Rewrite

/-!
# Merging an adapter into a tensor of a `.grim` file

The tensor's weights are read, changed and packed anew, and the file is written anew with the
streams of the other tensors as they were.  What the weights become is a parameter.  The merged
tensor's old outliers are still written, where its entry now has none; what comes behind is written
over them.
-/

namespace Grim.Format

open LittleEndian Slice Patch Reader List

variable {F : Type}

/-- The codes and the scales of the merged weights, or why there are none. -/
abbrev Repack (F : Type) := List UInt8 → List (GrimOutlier F) → GrimTensorExt →
  Except String (List UInt8 × List UInt8)

def indexByName (name : String) : List GrimTensorEntry → Option ℕ
  | [] => none
  | t :: ts =>
    match indexByName name ts with
    | some i => some (i + 1)
    | none => if t.name = name then some 0 else none

def readRegion (file : List UInt8) (offset len : UInt64) : Except String (List UInt8) :=
  if len = 0 then .ok []
  else
    match readExactAt file offset.toNat len.toNat with
    | .ok buf => .ok buf
    | .error e => .error s!"payload read failed: {e}"

def updateExt (name : String) (g : GrimTensorExt → GrimTensorExt) :
    List GrimTensorExt → List GrimTensorExt
  | [] => []
  | ext :: exts => if ext.tensorName = name then g ext :: exts else ext :: updateExt name g exts

/-- The backups are gone, and the scales stand behind the codes. -/
def mergedExt (codes scales : List UInt8) (ext : GrimTensorExt) : GrimTensorExt :=
  { ext with
    gptqOrdered := 0
    backup1 := {}
    backup2 := {}
    scaleOffset := if scales = [] then 0 else UInt64.ofNat codes.length
    scaleSize := if scales = [] then 0 else UInt64.ofNat scales.length }

structure Blobs where
  payload : List UInt8
  outliers : List UInt8
  kv : List UInt8

def blobsOf (file : List UInt8) (idx : ℕ) (merged : List UInt8) (p : GrimTensorEntry × ℕ) :
    Except String Blobs := do
  let payload ← (if p.2 = idx then .ok merged
    else readRegion file p.1.payloadOffset p.1.payloadSize)
  let outliers ← (if 0 < p.1.outlierCount then readRegion file p.1.outlierOffset p.1.outlierBytes
    else .ok [])
  let kv ← readKvBlock file p.1
  pure { payload, outliers, kv }

def kvMap (ts : List GrimTensorEntry) (bs : List Blobs) : List (String × List UInt8) :=
  (((ts.zip bs).filter fun p => p.2.kv ≠ []).map fun p => (p.1.name, p.2.kv)).reverse

def writeTensor (kvs : List (String × List UInt8)) (s : Stream) (p : GrimTensorEntry × Blobs) :
    Stream :=
  let s := s.put p.1.payloadOffset.toNat p.2.payload
  let s := if p.2.outliers = [] then s else s.put p.1.outlierOffset.toNat p.2.outliers
  if p.1.HasKv then
    match List.lookup p.1.name kvs with
    | some kv => s.put p.1.kvCompressedOffset.toNat kv
    | none => s
  else s

/-- The file as it is written: the merged tensor with its new size and no outliers. -/
def mergedFile (src : GrimFile) (name : String) (idx : ℕ) (codes scales : List UInt8) : GrimFile :=
  { src with
    metadata := { src.metadata with
      extEntries := updateExt name (mergedExt codes scales) src.metadata.extEntries }
    tensors := src.tensors.modify idx fun t =>
      { t with payloadSize := UInt64.ofNat (codes.length + scales.length), outlierCount := 0 } }

def newWeights (vals : OutlierValues F) (repack : Repack F) (file : List UInt8) (src : GrimFile)
    (tensorName : String) (idx : ℕ) : Except String (List UInt8 × List UInt8) :=
  match src.tensors[idx]?, src.metadata.extEntries.find? fun e => e.tensorName == tensorName with
  | some entry, some ext =>
    if ext.rowStride = 0 then .error s!"tensor {tensorName} row_stride is zero"
    else do
      let payload ← readRegion file entry.payloadOffset entry.payloadSize
      let outliers ← readOutliersWithEncoding vals file entry ext.outlierIndexEncoding
      repack payload outliers ext
  | _, _ => .error s!"tensor {tensorName} has no GrimTensorExt metadata"

/-- The new file in front of the streams, and the blobs of each tensor at its new place. -/
def assemble (serde : SerdeJson) (new : GrimFile) (names : List GrimTensorEntry)
    (blobs : List Blobs) : List UInt8 :=
  let (written, head) := new.write serde 0
  ((written.zip blobs).foldl (writeTensor (kvMap names blobs))
    { out := head, pos := head.length }).out

def mergeBoltOn (serde : SerdeJson) (vals : OutlierValues F) (repack : Repack F)
    (file : List UInt8) (tensorName : String) : Except String (List UInt8) := do
  let (src, _) ← (GrimFile.read serde).run file
  match indexByName tensorName src.tensors with
  | none => .error s!"tensor {tensorName} not found in .grim file"
  | some idx => do
    let (codes, scales) ← newWeights vals repack file src tensorName idx
    let blobs ← src.tensors.zipIdx.mapM (blobsOf file idx (codes ++ scales))
    pure (assemble serde (mergedFile src tensorName idx codes scales) src.tensors blobs)

variable {serde : SerdeJson} {vals : OutlierValues F} {repack : Repack F} {file file' : List UInt8}

theorem bind_ok {α β ε : Type} {x : Except ε α} {g : α → Except ε β} {b : β} :
    (x >>= g) = .ok b ↔ ∃ a, x = .ok a ∧ g a = .ok b := by
  cases x <;> simp [bind, Except.bind]

theorem eq_ok_getD {α ε : Type} : ∀ {x : Except ε α} (a : α), x.map (fun _ => ()) = .ok () →
    x = .ok (x.toOption.getD a)
  | .ok _, _, _ => rfl
  | .error _, _, h => nomatch h

theorem mapM_ok {α β ε : Type} {g : α → Except ε β} : ∀ {xs : List α} {ys : List β},
    xs.mapM g = .ok ys → ys.length = xs.length ∧
      ∀ (i : ℕ) (x : α), xs[i]? = some x → ∃ y, ys[i]? = some y ∧ g x = .ok y
  | [], ys, h => by
    obtain rfl : [] = ys := Except.ok.inj h
    simp
  | x :: xs, ys, h => by
    rw [mapM_cons] at h
    obtain ⟨y, hx, h⟩ := bind_ok.1 h
    obtain ⟨ys', hxs, h⟩ := bind_ok.1 h
    obtain rfl : y :: ys' = ys := Except.ok.inj h
    obtain ⟨hlen, hrest⟩ := mapM_ok hxs
    refine ⟨by simp [hlen], fun i x' hi => ?_⟩
    rcases i with _ | i
    · obtain rfl := Option.some.inj hi
      exact ⟨y, rfl, hx⟩
    · exact hrest i x' hi

theorem readExactAt_ok {off len : ℕ} {buf : List UInt8} (h : readExactAt file off len = .ok buf) :
    off + len ≤ file.length ∧ buf = slice file off len ∧ buf.length = len := by
  rw [readExactAt] at h
  split_ifs at h with hle
  obtain rfl := Except.ok.inj h
  refine ⟨hle, rfl, ?_⟩
  rw [length_slice]
  omega

theorem readRegion_ok {offset len : UInt64} {buf : List UInt8}
    (h : readRegion file offset len = .ok buf) : buf.length = len.toNat ∧
      (len ≠ 0 → offset.toNat + len.toNat ≤ file.length ∧
        buf = slice file offset.toNat len.toNat) := by
  rw [readRegion] at h
  split_ifs at h with hlen
  · obtain rfl := Except.ok.inj h
    exact ⟨by rw [hlen]; rfl, fun hne => absurd hlen hne⟩
  · rcases hread : readExactAt file offset.toNat len.toNat with e | b
    · rw [hread] at h
      cases h
    · rw [hread] at h
      obtain rfl := Except.ok.inj h
      obtain ⟨hle, hbuf, hlength⟩ := readExactAt_ok hread
      exact ⟨hlength, fun _ => ⟨hle, hbuf⟩⟩

structure BlobsCopied (file : List UInt8) (t : GrimTensorEntry) (b : Blobs) : Prop where
  payload : b.payload.length = t.payloadSize.toNat ∧ (t.payloadSize ≠ 0 →
    t.payloadOffset.toNat + t.payloadSize.toNat ≤ file.length ∧
      b.payload = slice file t.payloadOffset.toNat t.payloadSize.toNat)
  outliers : t.outlierCount ≠ 0 →
    b.outliers = slice file t.outlierOffset.toNat (flatBytes t) ∧ b.outliers.length = flatBytes t

structure KvCopied (file : List UInt8) (t : GrimTensorEntry) (b : Blobs) : Prop where
  length : b.kv.length = t.kvCompressedSize.toNat
  kv : t.kvCompressedSize ≠ 0 →
    t.kvCompressedOffset.toNat + t.kvCompressedSize.toNat ≤ file.length ∧
      b.kv = slice file t.kvCompressedOffset.toNat t.kvCompressedSize.toNat

theorem readKvBlock_ok {t : GrimTensorEntry} {kv : List UInt8} (h : readKvBlock file t = .ok kv) :
    kv.length = t.kvCompressedSize.toNat ∧ (t.kvCompressedSize ≠ 0 →
      t.kvCompressedOffset.toNat + t.kvCompressedSize.toNat ≤ file.length ∧
        kv = slice file t.kvCompressedOffset.toNat t.kvCompressedSize.toNat) := by
  rw [readKvBlock] at h
  split_ifs at h with hsize
  · obtain rfl := Except.ok.inj h
    exact ⟨by rw [hsize]; rfl, fun hne => absurd hsize hne⟩
  · obtain ⟨hle, hbuf, hlen⟩ := readExactAt_ok h
    exact ⟨hlen, fun _ => ⟨hle, hbuf⟩⟩

theorem outlierBytes_ne_zero {t : GrimTensorEntry} (h : t.outlierCount ≠ 0) : t.outlierBytes ≠ 0 :=
  fun h0 => by
    have hzero := toNat_outlierBytes t
    rw [h0] at hzero
    exact absurd hzero.symm (Nat.mul_pos (toNat_outlierCount_pos h) (by decide)).ne'

theorem blobsOf_ok {idx i : ℕ} {merged : List UInt8} {t : GrimTensorEntry} {b : Blobs}
    (h : blobsOf file idx merged (t, i) = .ok b) : KvCopied file t b ∧
      (i = idx → b.payload = merged) ∧ (i ≠ idx → BlobsCopied file t b) := by
  obtain ⟨payload, hpayload, h⟩ := bind_ok.1 h
  obtain ⟨outliers, houtliers, h⟩ := bind_ok.1 h
  obtain ⟨kv, hkv, h⟩ := bind_ok.1 h
  obtain rfl := Except.ok.inj h
  obtain ⟨hlen, hbytes⟩ := readKvBlock_ok hkv
  refine ⟨⟨hlen, hbytes⟩, fun hi => ?_, fun hi => ⟨?_, fun hcount => ?_⟩⟩
  · rw [if_pos hi] at hpayload
    exact (Except.ok.inj hpayload).symm
  · rw [if_neg hi] at hpayload
    exact readRegion_ok hpayload
  · have hpos : 0 < t.outlierCount := UInt32.lt_iff_toNat_lt.2 (toNat_outlierCount_pos hcount)
    rw [if_pos hpos] at houtliers
    obtain ⟨hlength, hslice⟩ := readRegion_ok houtliers
    rw [toNat_outlierBytes] at hlength hslice
    exact ⟨(hslice (outlierBytes_ne_zero hcount)).2, hlength⟩

/-- The writes of a tensor; stale outliers and a KV blob that does not fit are not to be read back.
-/
def tensorWrites (kvs : List (String × List UInt8)) (p : GrimTensorEntry × Blobs) : List Write :=
  ⟨p.1.payloadOffset.toNat, p.2.payload, true⟩ ::
    ((if p.2.outliers = [] then []
      else [⟨p.1.outlierOffset.toNat, p.2.outliers, decide (p.1.outlierCount ≠ 0)⟩]) ++
    if p.1.HasKv then
      match List.lookup p.1.name kvs with
      | some kv => [⟨p.1.kvCompressedOffset.toNat, kv,
          decide (kv.length ≤ p.1.kvCompressedSize.toNat)⟩]
      | none => []
    else [])

theorem writeTensor_eq_puts (kvs : List (String × List UInt8)) (s : Stream)
    (p : GrimTensorEntry × Blobs) : writeTensor kvs s p = s.puts (tensorWrites kvs p) := by
  rw [writeTensor, tensorWrites]
  rcases List.lookup p.1.name kvs with _ | kv
  all_goals split_ifs <;> rfl

theorem writeTensors_eq_puts (kvs : List (String × List UInt8)) :
    ∀ (ps : List (GrimTensorEntry × Blobs)) (s : Stream),
      ps.foldl (writeTensor kvs) s = s.puts (ps.flatMap (tensorWrites kvs))
  | [], _ => rfl
  | p :: ps, s => by
    rw [foldl_cons, writeTensors_eq_puts kvs ps, writeTensor_eq_puts, flatMap_cons,
      Stream.puts, Stream.puts, Stream.puts, foldl_append]

structure Fitting (p : GrimTensorEntry × Blobs) : Prop where
  payload : p.2.payload.length ≤ p.1.payloadSize.toNat
  outliers : p.1.outlierCount ≠ 0 → p.2.outliers.length ≤ p.1.outlierBytes.toNat

theorem covered_tensorWrites {p : GrimTensorEntry × Blobs} (kvs : List (String × List UInt8))
    (h : Fitting p) : Covered (tensorWrites kvs p) p.1.extents := by
  have hkv : Covered (if p.1.HasKv then
      match List.lookup p.1.name kvs with
      | some kv => [⟨p.1.kvCompressedOffset.toNat, kv,
          decide (kv.length ≤ p.1.kvCompressedSize.toNat)⟩]
      | none => []
      else []) (if p.1.HasKv then
        [⟨p.1.kvCompressedOffset.toNat, p.1.kvCompressedSize.toNat⟩] else []) := by
    split_ifs
    · rcases List.lookup p.1.name kvs with _ | kv
      · exact Covered.nil.skip
      · exact Covered.nil.cons rfl fun hle => Nat.add_le_add_left (of_decide_eq_true hle) _
    · exact Covered.nil
  have houtliers : Covered (if p.2.outliers = [] then []
      else [⟨p.1.outlierOffset.toNat, p.2.outliers, decide (p.1.outlierCount ≠ 0)⟩])
      [⟨p.1.outlierOffset.toNat, p.1.outlierBytes.toNat⟩] := by
    split_ifs
    · exact Covered.nil.skip
    · exact Covered.nil.cons rfl fun hcount => Nat.add_le_add_left
        (h.outliers (of_decide_eq_true hcount)) _
  exact Covered.cons rfl (fun _ => Nat.add_le_add_left h.payload _) (houtliers.append hkv)

theorem covered_writes (kvs : List (String × List UInt8)) :
    ∀ {ps : List (GrimTensorEntry × Blobs)}, (∀ p ∈ ps, Fitting p) →
      Covered (ps.flatMap (tensorWrites kvs)) (ps.flatMap fun p => p.1.extents)
  | [], _ => Covered.nil
  | p :: ps, h => by
    rw [flatMap_cons, flatMap_cons]
    exact (covered_tensorWrites kvs (h p mem_cons_self)).append
      (covered_writes kvs fun q hq => h q (mem_cons_of_mem p hq))

/-- The blobs at their places in the new file, with the zeros up to them. -/
def GrimFile.assembled (new : GrimFile) (serde : SerdeJson) (names : List GrimTensorEntry)
    (blobs : List Blobs) : List Write :=
  Stream.filled (new.write serde 0).2.length
    (((new.write serde 0).1.zip blobs).flatMap (tensorWrites (kvMap names blobs)))

theorem assemble_eq (new : GrimFile) (names : List GrimTensorEntry) (blobs : List Blobs) :
    assemble serde new names blobs =
      patch (new.write serde 0).2 (new.assembled serde names blobs) :=
  (congrArg Stream.out (writeTensors_eq_puts _ _ _)).trans (Stream.out_puts _ _)

theorem assemble_holds {new : GrimFile} (names : List GrimTensorEntry) {blobs : List Blobs}
    (hroom : Room new.wave.segmentBytes (new.payloadRegionStart serde 0) new.tensors)
    (hlen : blobs.length = new.tensors.length)
    (hfit : ∀ p ∈ (new.write serde 0).1.zip blobs, Fitting p) :
    (assemble serde new names blobs).take (new.write serde 0).2.length = (new.write serde 0).2 ∧
      ∀ p ∈ (new.write serde 0).1.zip blobs, ∀ w ∈ tensorWrites (kvMap names blobs) p,
        w.kept = true → Holds (assemble serde new names blobs) w.start w.bytes := by
  have hout : assemble serde new names blobs = (Stream.puts
      { out := (new.write serde 0).2, pos := (new.write serde 0).2.length }
      (((new.write serde 0).1.zip blobs).flatMap (tensorWrites (kvMap names blobs)))).out :=
    congrArg Stream.out (writeTensors_eq_puts _ _ _)
  obtain ⟨hpair, hbehind⟩ := Extent.chained_iff.1 (GrimFile.chained_streams_iff.2 hroom)
  rw [GrimFile.payloadRegionStart_eq, Nat.zero_add] at hbehind
  have hlength : (new.write serde 0).1.length = new.tensors.length := GrimFile.length_place _ _
  have hstreams : ((new.write serde 0).1.zip blobs).flatMap (fun p => p.1.extents) =
      new.streams serde 0 := by
    have hmap := @List.map_fst_zip _ _ (new.write serde 0).1 blobs (by omega)
    rw [GrimFile.streams, ← congrArg (List.flatMap GrimTensorEntry.extents) hmap, flatMap_map]
  have hcovered := covered_writes (kvMap names blobs) hfit
  rw [hstreams] at hcovered
  rw [hout]
  refine ⟨?_, fun p hp w hw hkept =>
    Stream.holds_of_mem _ _ (hcovered.inOrder hpair) w (mem_flatMap.2 ⟨p, hp, hw⟩) hkept⟩
  refine (Stream.take_puts (s := ⟨(new.write serde 0).2, (new.write serde 0).2.length⟩) _ le_rfl
    le_rfl fun w hw => ?_).trans take_length
  obtain ⟨x, hx, heq⟩ := hcovered.start w hw
  rw [heq]
  exact hbehind x hx

theorem lookup_kvMap {ts : List GrimTensorEntry} {bs : List Blobs} {i : ℕ} {t : GrimTensorEntry}
    {b : Blobs} (ht : ts[i]? = some t) (hb : bs[i]? = some b) (hne : b.kv ≠ [])
    (hlast : ∀ j u c, ts[j]? = some u → bs[j]? = some c → u.name = t.name → c.kv ≠ [] → j ≤ i) :
    List.lookup t.name (kvMap ts bs) = some b.kv := by
  have hi : (ts.zip bs)[i]? = some (t, b) := getElem?_zip_eq_some.2 ⟨ht, hb⟩
  obtain ⟨hlt, hget⟩ := List.getElem?_eq_some_iff.1 hi
  have hkept : decide ((t, b).2.kv ≠ []) = true := decide_eq_true hne
  have hsplit : ts.zip bs = (ts.zip bs).take i ++ (t, b) :: (ts.zip bs).drop (i + 1) := by
    rw [← hget, ← drop_eq_getElem_cons hlt, take_append_drop]
  rw [kvMap, hsplit, filter_append, filter_cons, if_pos hkept, map_append,
    map_cons, reverse_append, reverse_cons, append_assoc, lookup_append]
  have hlater : List.lookup t.name ((((ts.zip bs).drop (i + 1)).filter fun p => p.2.kv ≠ []).map
      fun p => (p.1.name, p.2.kv)).reverse = none := by
    refine lookup_eq_none_iff.2 fun p hp => ?_
    obtain ⟨⟨u, c⟩, hfilter, rfl⟩ := mem_map.1 (mem_reverse.1 hp)
    obtain ⟨hdrop, hc⟩ := mem_filter.1 hfilter
    obtain ⟨k, hk⟩ := mem_iff_getElem?.1 hdrop
    rw [getElem?_drop] at hk
    obtain ⟨hu, hc'⟩ := getElem?_zip_eq_some.1 hk
    refine bne_iff_ne.2 fun hname : t.name = u.name => ?_
    have hle := hlast _ u c hu hc' hname.symm (of_decide_eq_true hc)
    omega
  rw [hlater, singleton_append, lookup_cons, beq_self_eq_true]
  rfl

/-- A KV blob that is to be kept is the last one of its tensor's name. -/
def GrimFile.BlobsLast (f : GrimFile) (idx : ℕ) : Prop :=
  ∀ (i j : ℕ) (t u : GrimTensorEntry), i ≠ idx → f.tensors[i]? = some t → f.tensors[j]? = some u →
    t.name = u.name → t.kvCompressedSize ≠ 0 → u.kvCompressedSize ≠ 0 → j ≤ i

variable {sha256Bytes : List UInt8 → List UInt8}

theorem mergeBoltOn_ok {tensorName : String} {rest : List UInt8} {f : GrimFile} {idx : ℕ}
    (hread : (GrimFile.read serde).run file = .ok (f, rest))
    (hidx : indexByName tensorName f.tensors = some idx)
    (h : mergeBoltOn serde vals repack file tensorName = .ok file') :
    ∃ weights blobs, newWeights vals repack file f tensorName idx = .ok weights ∧
      f.tensors.zipIdx.mapM (blobsOf file idx (weights.1 ++ weights.2)) = .ok blobs ∧
      file' = assemble serde (mergedFile f tensorName idx weights.1 weights.2) f.tensors blobs := by
  rw [mergeBoltOn, hread] at h
  obtain ⟨⟨src, left⟩, hsrc, h⟩ := bind_ok.1 h
  obtain ⟨rfl, rfl⟩ := Prod.mk.inj (Except.ok.inj hsrc)
  dsimp only at h
  rw [hidx] at h
  obtain ⟨weights, hweights, h⟩ := bind_ok.1 h
  obtain ⟨blobs, hblobs, h⟩ := bind_ok.1 h
  exact ⟨weights, blobs, hweights, hblobs, (Except.ok.inj h).symm⟩

theorem mergedFile_fits {f : GrimFile} (h : ∀ t ∈ f.tensors, t.Fits) {tensorName : String}
    {idx : ℕ} {codes scales : List UInt8} :
    ∀ t ∈ (mergedFile f tensorName idx codes scales).tensors, t.Fits := fun t ht => by
  obtain ⟨i, hi⟩ := mem_iff_getElem?.1 ht
  rw [mergedFile, getElem?_modify] at hi
  obtain ⟨u, hu, rfl⟩ := Option.map_eq_some_iff.1 hi
  have hfit := h u (mem_of_getElem? hu)
  split_ifs
  · exact ⟨hfit.name, hfit.rank, hfit.dims⟩
  · exact hfit

theorem fitting_of_blobsOf {idx i : ℕ} {codes scales : List UInt8} {t : GrimTensorEntry} {b : Blobs}
    (hroom : codes.length + scales.length < 2 ^ 64)
    (h : blobsOf file idx (codes ++ scales) (t, i) = .ok b) (payload outlier kv : UInt64) :
    Fitting ((if idx = i then { t with
      payloadSize := UInt64.ofNat (codes.length + scales.length), outlierCount := 0 } else
      t).moved payload outlier kv, b) := by
  obtain ⟨-, hmerged, hcopied⟩ := blobsOf_ok h
  by_cases hi : idx = i
  · rw [if_pos hi]
    refine ⟨?_, fun hcnt => absurd rfl hcnt⟩
    have hnew : (UInt64.ofNat (codes.length + scales.length)).toNat =
        codes.length + scales.length := by rw [UInt64.toNat_ofNat', Nat.mod_eq_of_lt hroom]
    rw [hmerged hi.symm, length_append]
    exact hnew.ge
  · rw [if_neg hi]
    have hcopied := hcopied (Ne.symm hi)
    refine ⟨hcopied.payload.1.le, fun hcnt => ?_⟩
    have hbytes : (t.moved payload outlier kv).outlierBytes = t.outlierBytes := rfl
    rw [hbytes, toNat_outlierBytes]
    exact (hcopied.outliers hcnt).2.le

theorem sameStreams_of_holds {f : GrimFile} {t : GrimTensorEntry} {b : Blobs}
    {payload outlier kv : UInt64} {kvs : List (String × List UInt8)}
      (hcarried : Carried vals file f t)
    (hcopied : BlobsCopied file t b) (hkv : KvCopied file t b)
    (hlookup : b.kv ≠ [] → List.lookup t.name kvs = some b.kv)
    (hheld : ∀ w ∈ tensorWrites kvs (t.moved payload outlier kv, b), w.kept = true →
      Holds file' w.start w.bytes) :
    SameStreams vals (f.encodingOf t) file t file' (t.moved payload outlier kv) := by
  refine ⟨readNormals_moved (fun hsize => (hcopied.payload.2 hsize).1) fun hsize => ?_,
    readOutliersWithEncoding_moved hcarried.outliers fun hcnt => ?_,
    readKvBlock_moved (fun hsize => (hkv.kv hsize).1) fun hsize => ?_⟩
  · rw [← (hcopied.payload.2 hsize).2]
    exact hheld _ mem_cons_self rfl
  · obtain ⟨hslice, hbytes⟩ := hcopied.outliers hcnt
    rw [← hslice]
    by_cases hnil : b.outliers = []
    · rw [hnil]
      exact holds_nil _ _
    · refine hheld ⟨outlier.toNat, b.outliers, decide (t.outlierCount ≠ 0)⟩
        (mem_cons_of_mem _ (mem_append_left _ ?_)) (decide_eq_true hcnt)
      rw [if_neg hnil]
      exact mem_singleton_self _
  · have hpos := toNat_ne_zero hsize
    have hne : b.kv ≠ [] := fun hnil => by
      have := hkv.length
      rw [hnil, length_nil] at this
      omega
    have hhas : (t.moved payload outlier kv).HasKv :=
      ⟨hcarried.kv hsize, UInt64.lt_iff_toNat_lt.2 hpos⟩
    rw [← (hkv.kv hsize).2]
    refine hheld ⟨kv.toNat, b.kv, decide (b.kv.length ≤ t.kvCompressedSize.toNat)⟩
      (mem_cons_of_mem _ (mem_append_right _ ?_)) (decide_eq_true hkv.length.le)
    rw [if_pos hhas, show (t.moved payload outlier kv).name = t.name from rfl, hlookup hne]
    exact mem_singleton_self _

/-- A merge keeps what it knows of the other tensors. -/
theorem keeps_of_mergeBoltOn (hserde : serde.Lawful) {tensorName : String} {rest : List UInt8}
    {f : GrimFile} {idx : ℕ} (hread : (GrimFile.read serde).run file = .ok (f, rest))
    (hcarried : ∀ i t, i ≠ idx → f.tensors[i]? = some t → Carried vals file f t)
    (hnames : f.BlobsLast idx)
    (hidx : indexByName tensorName f.tensors = some idx)
    (hsize : ∀ codes scales, newWeights vals repack file f tensorName idx = .ok (codes, scales) →
      codes.length + scales.length < 2 ^ 64)
    (hwritten : ∀ codes scales,
      newWeights vals repack file f tensorName idx = .ok (codes, scales) →
        (mergedFile f tensorName idx codes scales).Written serde)
    (hatt : readAttachmentIndex file = .ok [])
    (hstray : ∀ codes scales blobs,
      newWeights vals repack file f tensorName idx = .ok (codes, scales) →
        f.tensors.zipIdx.mapM (blobsOf file idx (codes ++ scales)) = .ok blobs →
          ¬EndsInIndex ((mergedFile f tensorName idx codes scales).write serde 0).2
            ((mergedFile f tensorName idx codes scales).assembled serde f.tensors blobs))
    (h : mergeBoltOn serde vals repack file tensorName = .ok file') :
    Keeps vals sha256Bytes serde (fun i => i ≠ idx) file f file' := by
  obtain ⟨hfits, hcount⟩ := yields_grimFile _ _ _ hread
  obtain ⟨⟨codes, scales⟩, blobs, hweights, hblobs, rfl⟩ := mergeBoltOn_ok hread hidx h
  obtain ⟨hlength, hblob⟩ := mapM_ok hblobs
  rw [length_zipIdx] at hlength
  have hat : ∀ {i : ℕ} {t : GrimTensorEntry}, f.tensors[i]? = some t → ∃ b, blobs[i]? = some b ∧
      blobsOf file idx (codes ++ scales) (t, i) = .ok b := fun {i t} ht =>
    hblob i (t, i) (by rw [getElem?_zipIdx, ht, Nat.zero_add]; rfl)
  have hroom := hsize _ _ hweights
  have hlaid := hwritten _ _ hweights
  set new := mergedFile f tensorName idx codes scales with hnew
  have htensors : new.tensors = f.tensors.modify idx fun t =>
    { t with payloadSize := UInt64.ofNat (codes.length + scales.length), outlierCount := 0 } := rfl
  have hsame : new.tensors.length = f.tensors.length := by rw [htensors, length_modify]
  -- the entry and the blobs at each place
  have hplace : ∀ {i : ℕ} {t : GrimTensorEntry}, f.tensors[i]? = some t →
      ∃ payload outlier kv, (new.write serde 0).1[i]? =
        some ((if idx = i then { t with
          payloadSize := UInt64.ofNat (codes.length + scales.length), outlierCount := 0 } else
          t).moved payload outlier kv) := fun {i t} ht =>
    GrimFile.getElem?_place _ (by rw [htensors, getElem?_modify, ht]; rfl)
  have hfit : ∀ p ∈ (new.write serde 0).1.zip blobs, Fitting p := fun ⟨e, b⟩ hp => by
    obtain ⟨i, hi⟩ := mem_iff_getElem?.1 hp
    obtain ⟨he, hb⟩ := getElem?_zip_eq_some.1 hi
    have hlt := (List.getElem?_eq_some_iff.1 hb).1
    rw [hlength] at hlt
    have ht := getElem?_eq_getElem hlt
    obtain ⟨b', hb', hbytes⟩ := hat ht
    obtain rfl := Option.some.inj (hb.symm.trans hb')
    obtain ⟨payload, outlier, kv, he'⟩ := hplace ht
    obtain rfl := Option.some.inj (he.symm.trans he')
    exact fitting_of_blobsOf hroom hbytes payload outlier kv
  obtain ⟨htake, hholds⟩ := assemble_holds f.tensors hlaid.room (hlength.trans hsame.symm) hfit
  obtain ⟨f', rest', hread', hf'⟩ := reads_written hserde (mergedFile_fits hfits)
    (hsame.trans_le hcount) hlaid htake
  refine ⟨⟨f', rest', hread', ?_, fun i t hi ht => ?_⟩, ?_⟩
  · rw [hf']
    exact (GrimFile.length_place _ _).trans hsame
  · obtain ⟨b, hb, hbytes⟩ := hat ht
    obtain ⟨payload, outlier, kv, he⟩ := hplace ht
    rw [if_neg (Ne.symm hi)] at he
    obtain ⟨hkv, -, hcopied⟩ := blobsOf_ok hbytes
    refine ⟨t.moved payload outlier kv, by rw [hf']; exact he, rfl, ?_⟩
    have hpair : (t.moved payload outlier kv, b) ∈ (new.write serde 0).1.zip blobs :=
      mem_of_getElem? (getElem?_zip_eq_some.2 ⟨he, hb⟩)
    refine sameStreams_of_holds (hcarried i t hi ht) (hcopied hi) hkv
      (fun hne => lookup_kvMap ht hb hne fun j u c hu hc hname hcne => ?_) (hholds _ hpair)
    obtain ⟨b', hb', hbytes'⟩ := hat hu
    obtain rfl := Option.some.inj (hc.symm.trans hb')
    -- an empty KV blob is not in the map, so each of the two sizes is not 0
    have hsize : ∀ {v : GrimTensorEntry} {d : Blobs}, KvCopied file v d → d.kv ≠ [] →
        v.kvCompressedSize ≠ 0 := fun hcopy hd h0 =>
      hd (length_eq_zero_iff.1 (by rw [hcopy.length, h0]; rfl))
    exact hnames i j t u hi ht hu hname.symm (hsize hkv hne) (hsize (blobsOf_ok hbytes').1 hcne)
  · rw [assemble_eq, readAttachments_of_nil _ hatt, readAttachments_of_nil _
      ((readAttachmentIndex_patch _ _).2 (hstray _ _ _ hweights hblobs))]

end Grim.Format
