import Grim.Format.GrimFile

/-!
# Where the writer puts the streams of a `.grim` file

The registry takes the bytes its size formula says, so the payload region starts where the written
bytes end.  The first payload stands there, on a segment boundary or not; each later one stands on a
boundary, and no stream runs into the next one unless an offset passes 64 bits.
-/

namespace Grim.Format

open LittleEndian Reader JsonValue List

namespace GrimTensorEntry

structure Fits (e : GrimTensorEntry) : Prop where
  name : e.name.utf8ByteSize < 2 ^ 16
  rank : e.shape.length < 2 ^ 8
  dims : ∀ dim ∈ e.shape, dim < 2 ^ 32

theorem reads_field {w n : ℕ} (h : n < 256 ^ w) : Reads (readField w) (bytes w n) n := by
  have hr := (reads_exact "Tensor entry read failed: failed to fill whole buffer"
    (length_bytes w n)).map value
  rwa [value_bytes w n h] at hr

theorem reads_u8 (b : UInt8) : Reads readU8 [b] b := by
  have hr := (reads_field (w := 1) (n := b.toNat) b.toNat_lt).map UInt8.ofNat
  rw [UInt8.ofNat_toNat] at hr
  have hb : bytes 1 b.toNat = [b] := by simp [bytes]
  rwa [hb] at hr

theorem reads_u64 (x : UInt64) : Reads readU64 (bytes 8 x.toNat) x := by
  have hr := (reads_field (w := 8) (n := x.toNat) x.toNat_lt).map UInt64.ofNat
  rwa [UInt64.ofNat_toNat] at hr

theorem reads_name {s : String} (h : s.utf8ByteSize < 2 ^ 16) :
    Reads readName (bytes 2 s.utf8ByteSize ++ utf8 s) s := by
  have hlast : Reads (nameFromUtf8 (utf8 s)) [] s := by
    rw [nameFromUtf8, fromUTF8_utf8]
    exact Reads.pure s
  have hr := (reads_exact "Tensor entry read failed: failed to fill whole buffer"
    (length_utf8 s)).bind hlast
  rw [append_nil] at hr
  exact (reads_field h).bind hr

variable {e : GrimTensorEntry}

theorem length_shape : ∀ dims : List ℕ, (dims.flatMap (bytes 4)).length = dims.length * 4
  | [] => rfl
  | d :: dims => by
    rw [flatMap_cons, length_append, length_bytes, length_shape dims, length_cons]
    ring

theorem length_write (e : GrimTensorEntry) : e.write.length = e.registryEntrySize := by
  simp only [write, writeNamed, writeFixed, writeKv, registryEntrySize, length_append,
    length_bytes, length_utf8, length_shape, length_singleton]
  omega

theorem reads_entry (h : e.Fits) : Reads read e.write e := by
  have hsplit : e.write = (bytes 2 e.name.utf8ByteSize ++ utf8 e.name) ++ (bytes 1 e.shape.length ++
      (e.shape.flatMap (bytes 4) ++ (e.writeFixed ++ e.writeKv))) := by
    simp only [write, writeNamed, append_assoc]
  have hcount : e.outlierCount.toNat < 256 ^ 4 := e.outlierCount.toNat_lt
  have hdims : Reads (items (readField 4) e.shape.length) (e.shape.flatMap (bytes 4)) e.shape :=
    reads_items e.shape fun dim hdim => reads_field (h.dims dim hdim)
  rw [hsplit, writeFixed, writeKv]
  simp only [append_assoc]
  refine (reads_name h.name).bind ((reads_field h.rank).bind (hdims.bind ((reads_u8 _).bind
    ((reads_u64 _).bind ((reads_u64 _).bind ((reads_field hcount).bind ((reads_u64 _).bind
    ((reads_u8 _).bind ((reads_u8 _).bind ((reads_u8 _).bind ((reads_u8 _).bind
    ((reads_u64 _).bind ((reads_u64 _).bind ((reads_u64 _).bind ((reads_u8 _).bind
    ((reads_u64 _).bind ?_))))))))))))))))
  have hlast := (reads_u64 e.kvCompressedSize).map fun size => { e with kvCompressedSize := size }
  rw [UInt32.ofNat_toNat]
  exact hlast

theorem yields_field (w : ℕ) : Yields (readField w) fun n => n < 256 ^ w := by
  refine (Yields.exact _ _).bind fun buf hbuf => Yields.pure ?_
  rw [← hbuf]
  exact value_lt buf

theorem yields_name : Yields readName fun s => s.utf8ByteSize < 2 ^ 16 := by
  refine (yields_field 2).bind fun len hlen => (Yields.exact _ _).bind fun buf hbuf => ?_
  unfold nameFromUtf8
  split
  · rename_i s hs
    refine Yields.pure ?_
    rw [size_of_fromUTF8 hs, hbuf]
    exact hlen
  · exact Yields.fail _

theorem yields_fits : Yields read Fits := by
  refine yields_name.bind fun name hname => (yields_field 1).bind fun numDims hdims => ?_
  refine (((yields_field 4).items numDims).and (Yields.length_items _ _)).bind fun shape hshape =>
    ?_
  have hfits : ∀ e : GrimTensorEntry, e.name = name → e.shape = shape → e.Fits := by
    rintro e rfl rfl
    exact ⟨hname, hshape.2 ▸ hdims, hshape.1⟩
  iterate 15 refine (Yields.trivial _).bind fun _ _ => ?_
  exact Yields.pure (hfits _ rfl rfl)

/-- The entry is read from its bytes as it was, and these are as many as the formula counts. -/
def DecodesBack (e : GrimTensorEntry) : Prop :=
  Reads read e.write e ∧ e.write.length = e.registryEntrySize

theorem decodesBack_iff : e.DecodesBack ↔ e.Fits :=
  ⟨fun h => yields_fits _ e [] (h.1 []), fun h => ⟨reads_entry h, length_write e⟩⟩

end GrimTensorEntry

theorem reads_grimHeader (numTensors : UInt32) (metadataLen : UInt64) :
    Reads GrimHeader.read (GrimHeader.new numTensors metadataLen).write
      (GrimHeader.new numTensors metadataLen) := by
  have hmagic : Reads (GrimHeader.readField 5) fuckingSorcery fuckingSorcery := reads_exact _ rfl
  have hlen : Reads (GrimHeader.readField 8) (bytes 8 metadataLen.toNat) _ :=
    reads_exact _ (length_bytes 8 _)
  have hnum : Reads (GrimHeader.readField 4) (bytes 4 numTensors.toNat) _ :=
    reads_exact _ (length_bytes 4 _)
  refine hmagic.bind ?_
  rw [if_neg (by simp)]
  refine hlen.bind ?_
  have hlast := hnum.map fun buf => GrimHeader.new (UInt32.ofNat (value buf)) metadataLen
  have hcount : numTensors.toNat < 256 ^ 4 := numTensors.toNat_lt
  rw [value_bytes 4 _ hcount, UInt32.ofNat_toNat] at hlast
  rw [value_bytes 8 _ metadataLen.toNat_lt, UInt64.ofNat_toNat]
  exact hlast

namespace GrimFile

variable {segment : ℕ}

theorem place_forall {P : GrimTensorEntry → Prop}
    (hP : ∀ (t : GrimTensorEntry) (payload outlier kv : UInt64), P t →
      P { t with payloadOffset := payload, outlierOffset := outlier, kvCompressedOffset := kv }) :
    ∀ (ts : List GrimTensorEntry) (offset : UInt64), (∀ t ∈ ts, P t) →
      ∀ e ∈ place segment offset ts, P e
  | [], _, _ => by simp [place]
  | t :: ts, offset, h => by
    have ht := h t (by simp)
    have hts : ∀ t ∈ ts, P t := fun u hu => h u (by simp [hu])
    unfold place
    split_ifs with hkv
    · intro e he
      rcases mem_cons.1 he with rfl | he
      · exact hP t _ _ _ ht
      · exact place_forall hP ts _ hts e he
    · intro e he
      rcases mem_cons.1 he with rfl | he
      · exact hP t _ _ t.kvCompressedOffset ht
      · exact place_forall hP ts _ hts e he

theorem place_fits {ts : List GrimTensorEntry} {offset : UInt64} (h : ∀ t ∈ ts, t.Fits) :
    ∀ e ∈ place segment offset ts, e.Fits :=
  place_forall (fun _ _ _ _ ht => ⟨ht.name, ht.rank, ht.dims⟩) ts offset h

theorem length_place : ∀ (ts : List GrimTensorEntry) (offset : UInt64),
    (place segment offset ts).length = ts.length
  | [], _ => rfl
  | t :: ts, offset => by
    unfold place
    split_ifs <;> simp only [length_cons, length_place ts]

theorem length_registry : ∀ (ts : List GrimTensorEntry) (offset : UInt64),
    ((place segment offset ts).flatMap GrimTensorEntry.write).length =
      (ts.map GrimTensorEntry.registryEntrySize).sum
  | [], _ => rfl
  | t :: ts, offset => by
    unfold place
    split_ifs <;>
      simp only [flatMap_cons, length_append, GrimTensorEntry.length_write,
        length_registry ts, map_cons, sum_cons, GrimTensorEntry.registryEntrySize]

variable {serde : SerdeJson} {position : ℕ} {f : GrimFile}

theorem payloadRegionStart_eq : f.payloadRegionStart serde position =
    position + (f.write serde position).2.length := by
  rw [payloadRegionStart, write, length_append, length_append, length_append,
    length_registry]
  omega

end GrimFile

/-- The length of what `serde_json` writes is a `usize`. -/
structure SerdeJson.Lawful (serde : SerdeJson) : Prop where
  room : ∀ v, (serde.toVec v).length < 2 ^ 64

namespace GrimFile

variable {serde : SerdeJson} {position : ℕ} {f : GrimFile}

/-- The written metadata is within the reader's limit, and `serde_json` parses it: it does so unless
arrays in it are nested more than 127 deep. -/
structure MetadataReads (serde : SerdeJson) (f : GrimFile) : Prop where
  cap : (f.metadataBytes serde).length ≤ 100000000
  parses : 0 < (f.metadataBytes serde).length →
    ∃ v, serde.fromSlice (f.metadataBytes serde) = .ok v

/-- The reader's limits on the metadata and on the number of tensors. -/
structure WithinCaps (serde : SerdeJson) (f : GrimFile) : Prop where
  metadata : f.MetadataReads serde
  tensors : f.tensors.length ≤ 1000000

theorem reads_metadata (h : f.MetadataReads serde) :
    ∃ m, Reads (readMetadata serde (f.metadataBytes serde).length) (f.metadataBytes serde) m := by
  by_cases hpos : 0 < (f.metadataBytes serde).length
  · obtain ⟨v, hv⟩ := h.parses hpos
    refine ⟨GrimMetadata.fromJson v, ?_⟩
    unfold readMetadata
    rw [if_pos hpos, if_neg (not_lt.2 h.cap)]
    have hlast : Reads (metadataOfText serde (f.metadataBytes serde)) []
        (GrimMetadata.fromJson v) := by
      rw [metadataOfText, hv]
      exact Reads.pure _
    have hr := (reads_exact "failed to fill whole buffer" rfl).bind hlast
    rwa [append_nil] at hr
  · refine ⟨GrimMetadata.default, ?_⟩
    have hnil : f.metadataBytes serde = [] := length_eq_zero_iff.1 (by omega)
    rw [hnil]
    exact Reads.pure _

theorem toNat_metadataLen (hserde : serde.Lawful) :
    (f.newHeader serde).metadataLen.toNat = (f.metadataBytes serde).length := by
  have hroom : (f.metadataBytes serde).length < 2 ^ 64 := hserde.room _
  rw [newHeader, GrimHeader.new, UInt64.toNat_ofNat', Nat.mod_eq_of_lt hroom]

theorem reads_file (hserde : serde.Lawful) (hfits : ∀ t ∈ f.tensors, t.Fits)
    (hcaps : f.WithinCaps serde) :
    ∃ g, Reads (read serde) (f.write serde position).2 g ∧
      g.tensors = (f.write serde position).1 := by
  obtain ⟨m, hm⟩ := reads_metadata hcaps.metadata
  have hnum : (f.newHeader serde).numTensors.toNat = (f.write serde position).1.length := by
    have := hcaps.tensors
    rw [newHeader, GrimHeader.new, UInt32.toNat_ofNat', Nat.mod_eq_of_lt (by omega), write,
      length_place]
  have hentries : Reads (items GrimTensorEntry.read (f.newHeader serde).numTensors.toNat)
      ((f.write serde position).1.flatMap GrimTensorEntry.write) (f.write serde position).1 := by
    rw [hnum]
    exact reads_items _ fun e he => GrimTensorEntry.reads_entry (place_fits hfits e he)
  rw [← toNat_metadataLen hserde] at hm
  refine ⟨⟨f.newHeader serde, m, (f.write serde position).1, waveOf m⟩, ?_, rfl⟩
  refine (reads_grimHeader _ _).bind (hm.bind ?_)
  rw [if_neg]
  · exact hentries.map fun tensors => GrimFile.mk (f.newHeader serde) m tensors (waveOf m)
  · have := hcaps.tensors
    have hlen : (f.write serde position).1.length = f.tensors.length := length_place _ _
    have hsame : (f.newHeader serde).numTensors.toNat = f.tensors.length := by rw [hnum, hlen]
    exact not_lt.2 (hsame.trans_le this)

theorem withinCaps_of_read (hserde : serde.Lawful) {g : GrimFile} {rest : List UInt8}
    (hrun : (read serde).run (f.write serde position).2 = .ok (g, rest))
    (hg : g.tensors = (f.write serde position).1) : f.WithinCaps serde := by
  obtain ⟨h, s₁, hh, hrun⟩ := run_bind_ok hrun
  have hheader := reads_grimHeader (UInt32.ofNat f.tensors.length)
    (UInt64.ofNat (f.metadataBytes serde).length) (f.metadataBytes serde ++
      (f.write serde position).1.flatMap GrimTensorEntry.write)
  obtain ⟨rfl, rfl⟩ := Prod.mk.inj (Except.ok.inj (hh.symm.trans hheader))
  obtain ⟨m, s₂, hm, hrun⟩ := run_bind_ok hrun
  have hlen := toNat_metadataLen (f := f) hserde
  rw [newHeader] at hlen
  rw [hlen, readMetadata] at hm
  have hmetadata : f.MetadataReads serde := by
    have hcap : (f.metadataBytes serde).length ≤ 100000000 := by
      by_contra hcap
      rw [if_pos (by omega), if_pos (by omega)] at hm
      cases hm
    refine ⟨hcap, fun hpos => ?_⟩
    rw [if_pos hpos, if_neg (not_lt.2 hcap)] at hm
    obtain ⟨buf, s₃, hbuf, hm⟩ := run_bind_ok hm
    obtain ⟨rfl, rfl⟩ := Prod.mk.inj (Except.ok.inj (hbuf.symm.trans
      (reads_exact "failed to fill whole buffer" rfl _)))
    rw [metadataOfText] at hm
    cases hv : serde.fromSlice (f.metadataBytes serde) with
    | ok v => exact ⟨v, rfl⟩
    | error e =>
      rw [hv] at hm
      cases hm
  refine ⟨hmetadata, ?_⟩
  split_ifs at hrun with hnum
  · cases hrun
  · obtain ⟨tensors, s₃, ht, hrun⟩ := run_bind_ok hrun
    have hlen : tensors.length = (f.newHeader serde).numTensors.toNat :=
      Yields.length_items _ _ _ _ _ ht
    have hle : ¬ 1000000 < (f.newHeader serde).numTensors.toNat := hnum
    cases hrun
    have hsame : tensors.length = f.tensors.length :=
      (congrArg List.length hg).trans (length_place _ _)
    rw [hsame] at hlen
    omega

end GrimFile

theorem segmentBytes_dvd (wave : WaveSize) : wave.segmentBytes ∣ 2 ^ 64 := by
  cases wave <;> decide

theorem toNat_alignToSegment (n : UInt64) (wave : WaveSize) :
    (alignToSegment n wave.segmentBytes).toNat =
      Extent.alignUp n.toNat wave.segmentBytes % 2 ^ 64 := by
  have hn := n.toNat_lt
  have hzero : n % UInt64.ofNat wave.segmentBytes = 0 ↔ n.toNat % wave.segmentBytes = 0 := by
    rw [← UInt64.toNat_inj, UInt64.toNat_mod]
    cases wave <;> rfl
  have hdiv : (n / UInt64.ofNat wave.segmentBytes).toNat = n.toNat / wave.segmentBytes := by
    rw [UInt64.toNat_div]
    cases wave <;> rfl
  have hsmall : n.toNat / wave.segmentBytes < 2 ^ 63 := by
    cases wave <;> simp only [WaveSize.segmentBytes] <;> omega
  have hseg : (UInt64.ofNat wave.segmentBytes).toNat = wave.segmentBytes := by cases wave <;> rfl
  rw [alignToSegment, Extent.alignUp, UInt64.toNat_mul, UInt64.toNat_add, hdiv, hseg]
  have hsum : n.toNat / wave.segmentBytes + 1 < 2 ^ 64 := by omega
  by_cases h : n.toNat % wave.segmentBytes = 0
  · rw [if_pos (hzero.2 h), if_pos h, UInt64.toNat_zero, add_zero,
      Nat.mod_eq_of_lt (Nat.lt_of_succ_lt hsum)]
  · rw [if_neg (fun h0 => h (hzero.1 h0)), if_neg h, UInt64.toNat_one, Nat.mod_eq_of_lt hsum]

theorem alignToSegment_ofNat (n : ℕ) (wave : WaveSize) :
    alignToSegment (UInt64.ofNat n) wave.segmentBytes =
      UInt64.ofNat (Extent.alignUp n wave.segmentBytes) := by
  rw [← UInt64.toNat_inj, toNat_alignToSegment, UInt64.toNat_ofNat', UInt64.toNat_ofNat',
    Extent.alignUp_mod (segmentBytes_dvd wave)]

namespace GrimTensorEntry

/-- The streams of an entry: its payload, its outliers, and its KV blob if it has one. -/
def extents (e : GrimTensorEntry) : List Extent :=
  ⟨e.payloadOffset.toNat, e.payloadSize.toNat⟩ :: ⟨e.outlierOffset.toNat, e.outlierBytes.toNat⟩ ::
    if e.HasKv then [⟨e.kvCompressedOffset.toNat, e.kvCompressedSize.toNat⟩] else []

/-- Where the outliers of a tensor start that is placed at `o`, and where they end. -/
def outlierStart (e : GrimTensorEntry) (o : ℕ) : ℕ := o + e.payloadSize.toNat

def outlierStop (e : GrimTensorEntry) (o : ℕ) : ℕ := e.outlierStart o + e.outlierBytes.toNat

def stop (e : GrimTensorEntry) (o : ℕ) : ℕ :=
  e.outlierStop o + if e.HasKv then e.kvCompressedSize.toNat else 0

end GrimTensorEntry

/-- Every stream starts below `2 ^ 64`, counted without wrapping around. -/
def Room (segment : ℕ) : ℕ → List GrimTensorEntry → Prop
  | _, [] => True
  | o, t :: ts => o < 2 ^ 64 ∧ t.outlierStart o < 2 ^ 64 ∧ (t.HasKv → t.outlierStop o < 2 ^ 64) ∧
      Room segment (Extent.alignUp (t.stop o) segment) ts

namespace GrimFile

variable {wave : WaveSize} {lo o : ℕ} {t : GrimTensorEntry} {ts : List GrimTensorEntry}

theorem ofNat_add_eq (n : ℕ) (x : UInt64) : UInt64.ofNat n + x = UInt64.ofNat (n + x.toNat) := by
  rw [← UInt64.toNat_inj, UInt64.toNat_add, UInt64.toNat_ofNat', UInt64.toNat_ofNat',
    Nat.mod_add_mod]

theorem alignToSegment_twice (n : ℕ) :
    alignToSegment (alignToSegment (UInt64.ofNat n) wave.segmentBytes) wave.segmentBytes =
      UInt64.ofNat (Extent.alignUp n wave.segmentBytes) := by
  rw [alignToSegment_ofNat, alignToSegment_ofNat, Extent.alignUp_of_dvd (Extent.dvd_alignUp n _)]

theorem extents_place (t : GrimTensorEntry) (ts : List GrimTensorEntry) (o : ℕ) :
    (place wave.segmentBytes (UInt64.ofNat o) (t :: ts)).flatMap GrimTensorEntry.extents =
      ⟨o % 2 ^ 64, t.payloadSize.toNat⟩ :: ⟨t.outlierStart o % 2 ^ 64, t.outlierBytes.toNat⟩ ::
        ((if t.HasKv then [⟨t.outlierStop o % 2 ^ 64, t.kvCompressedSize.toNat⟩] else []) ++
          (place wave.segmentBytes (UInt64.ofNat (Extent.alignUp (t.stop o) wave.segmentBytes))
            ts).flatMap GrimTensorEntry.extents) := by
  by_cases hkv : t.HasKv
  · have hstop : t.stop o = t.outlierStop o + t.kvCompressedSize.toNat := by
      rw [GrimTensorEntry.stop, if_pos hkv]
    rw [place, if_pos hkv, if_pos hkv, hstop, flatMap_cons]
    simp only [ofNat_add_eq, alignToSegment_twice]
    rw [GrimTensorEntry.extents, if_pos]
    · simp only [UInt64.toNat_ofNat']
      rfl
    · exact hkv
  · have hstop : t.stop o = t.outlierStop o := by
      rw [GrimTensorEntry.stop, if_neg hkv, add_zero]
    rw [place, if_neg hkv, if_neg hkv, hstop, flatMap_cons]
    simp only [ofNat_add_eq, alignToSegment_ofNat]
    rw [GrimTensorEntry.extents, if_neg]
    · simp only [UInt64.toNat_ofNat']
      rfl
    · exact hkv

theorem le_mod_iff (hlo : 0 < lo) (ho : o = lo ∨ o = Extent.alignUp lo wave.segmentBytes) :
    lo ≤ o % 2 ^ 64 ↔ o < 2 ^ 64 := by
  have hpos : 0 < wave.segmentBytes := by cases wave <;> decide
  have hle : lo ≤ o := by
    rcases ho with rfl | rfl
    · exact le_refl _
    · exact Extent.le_alignUp hpos
  constructor
  · intro h
    have hlt := Nat.mod_lt o (show 0 < 2 ^ 64 by decide)
    rcases ho with rfl | rfl
    · omega
    · have hup := Extent.alignUp_le (n := lo) (by omega) (segmentBytes_dvd wave)
      rcases Nat.lt_or_eq_of_le hup with hlt | heq
      · exact hlt
      · rw [heq, Nat.mod_self] at h
        omega
  · intro h
    rw [Nat.mod_eq_of_lt h]
    exact hle

theorem le_mod_self {n : ℕ} : n ≤ n % 2 ^ 64 ↔ n < 2 ^ 64 := by
  have := Nat.mod_lt n (show 0 < 2 ^ 64 by decide)
  constructor
  · omega
  · intro h
    rw [Nat.mod_eq_of_lt h]

theorem chained_place_iff : ∀ (ts : List GrimTensorEntry) {lo o : ℕ}, 0 < lo →
    (o = lo ∨ o = Extent.alignUp lo wave.segmentBytes) →
      (Extent.Chained lo ((place wave.segmentBytes (UInt64.ofNat o) ts).flatMap
        GrimTensorEntry.extents) ↔ Room wave.segmentBytes o ts)
  | [], _, _, _, _ => by simp [place, Extent.Chained, Room]
  | t :: ts, lo, o, hlo, ho => by
    rw [extents_place, Room, Extent.Chained, le_mod_iff hlo ho]
    refine and_congr_right fun hpayload => ?_
    have hopos : 0 < o := by
      have hle := (le_mod_iff hlo ho).2 hpayload
      rw [Nat.mod_eq_of_lt hpayload] at hle
      omega
    have houtlier : Extent.stop ⟨o, t.payloadSize.toNat⟩ = t.outlierStart o := rfl
    rw [Nat.mod_eq_of_lt hpayload, Extent.Chained, houtlier, le_mod_self]
    refine and_congr_right fun hstart => ?_
    have hstop : Extent.stop ⟨t.outlierStart o, t.outlierBytes.toNat⟩ = t.outlierStop o := rfl
    have hpos : 0 < t.outlierStop o := by
      rw [GrimTensorEntry.outlierStop, GrimTensorEntry.outlierStart]
      omega
    rw [Nat.mod_eq_of_lt hstart, hstop]
    by_cases hkv : t.HasKv
    · have hlast : t.stop o = t.outlierStop o + t.kvCompressedSize.toNat := by
        rw [GrimTensorEntry.stop, if_pos hkv]
      rw [if_pos hkv, singleton_append, Extent.Chained, le_mod_self, imp_iff_right hkv]
      refine and_congr_right fun hblob => ?_
      rw [Nat.mod_eq_of_lt hblob, Extent.stop, ← hlast]
      exact chained_place_iff ts (by omega) (.inr rfl)
    · have hlast : t.stop o = t.outlierStop o := by
        rw [GrimTensorEntry.stop, if_neg hkv, add_zero]
      rw [if_neg hkv, nil_append, hlast, and_iff_right fun h => absurd h hkv]
      exact chained_place_iff ts hpos (.inr rfl)

theorem dvd_toNat_ofNat : wave.segmentBytes ∣ (UInt64.ofNat o).toNat ↔ wave.segmentBytes ∣ o := by
  rw [UInt64.toNat_ofNat', Nat.dvd_mod_iff (segmentBytes_dvd wave)]

theorem aligned_place : ∀ (ts : List GrimTensorEntry) {o : ℕ}, wave.segmentBytes ∣ o →
    ∀ e ∈ place wave.segmentBytes (UInt64.ofNat o) ts, wave.segmentBytes ∣ e.payloadOffset.toNat
  | [], _, _ => by simp [place]
  | t :: ts, o, ho => by
    have hrest := aligned_place ts (Extent.dvd_alignUp (t.stop o) wave.segmentBytes)
    intro e he
    by_cases hkv : t.HasKv
    · have hstop : t.stop o = t.outlierStop o + t.kvCompressedSize.toNat := by
        rw [GrimTensorEntry.stop, if_pos hkv]
      rw [place, if_pos hkv] at he
      simp only [ofNat_add_eq, alignToSegment_twice] at he
      rw [hstop] at hrest
      rcases mem_cons.1 he with rfl | he
      · exact dvd_toNat_ofNat.2 ho
      · exact hrest e he
    · have hstop : t.stop o = t.outlierStop o := by
        rw [GrimTensorEntry.stop, if_neg hkv, add_zero]
      rw [place, if_neg hkv] at he
      simp only [ofNat_add_eq, alignToSegment_ofNat] at he
      rw [hstop] at hrest
      rcases mem_cons.1 he with rfl | he
      · exact dvd_toNat_ofNat.2 ho
      · exact hrest e he

theorem aligned_place_iff (ts : List GrimTensorEntry) (o : ℕ) :
    (∀ e ∈ place wave.segmentBytes (UInt64.ofNat o) ts,
        wave.segmentBytes ∣ e.payloadOffset.toNat) ↔ ts = [] ∨ wave.segmentBytes ∣ o := by
  constructor
  · intro h
    rcases ts with _ | ⟨t, ts⟩
    · exact .inl rfl
    · refine .inr (dvd_toNat_ofNat.1 ?_)
      unfold place at h
      split_ifs at h with hkv
      · exact h _ mem_cons_self
      · exact h _ mem_cons_self
  · rintro (rfl | ho)
    · simp [place]
    · exact aligned_place ts ho

def streams (serde : SerdeJson) (position : ℕ) (f : GrimFile) : List Extent :=
  (f.write serde position).1.flatMap GrimTensorEntry.extents

/-- The streams follow one another behind the written bytes, every payload stands on a boundary of
the file's wave, and the reader finds the entries whatever the payload region holds. -/
structure LaidOut (serde : SerdeJson) (position : ℕ) (f : GrimFile) : Prop where
  disjoint : (f.streams serde position).Pairwise fun a b => a.stop ≤ b.start
  behind : ∀ x ∈ f.streams serde position, position + (f.write serde position).2.length ≤ x.start
  aligned : ∀ e ∈ (f.write serde position).1, f.wave.segmentBytes ∣ e.payloadOffset.toNat
  readBack : ∀ payload, ∃ g, (read serde).run ((f.write serde position).2 ++ payload) =
    .ok (g, payload) ∧ g.tensors = (f.write serde position).1

variable {serde : SerdeJson} {position : ℕ} {f : GrimFile}

theorem chained_streams_iff : Extent.Chained (f.payloadRegionStart serde position)
    (f.streams serde position) ↔
      Room f.wave.segmentBytes (f.payloadRegionStart serde position) f.tensors := by
  have hpos : 0 < f.payloadRegionStart serde position := by
    rw [payloadRegionStart, newHeader, GrimHeader.write, GrimHeader.new, fuckingSorcery]
    simp only [length_append, length_cons]
    omega
  exact chained_place_iff f.tensors hpos (.inl rfl)

/-- A file whose names, ranks and dimensions fit is laid out as it should be exactly when the
payload region starts on a segment boundary, no stream starts beyond 64 bits, and the metadata and
the number of tensors are within the reader's limits. -/
theorem laidOut_iff (hserde : serde.Lawful) (position : ℕ) (f : GrimFile)
    (hfits : ∀ t ∈ f.tensors, t.Fits) :
    f.LaidOut serde position ↔
      (f.tensors = [] ∨ f.wave.segmentBytes ∣ f.payloadRegionStart serde position) ∧
        Room f.wave.segmentBytes (f.payloadRegionStart serde position) f.tensors ∧
        f.WithinCaps serde := by
  rw [← chained_streams_iff, Extent.chained_iff, ← aligned_place_iff]
  constructor
  · intro h
    obtain ⟨g, hrun, hg⟩ := h.readBack []
    rw [append_nil] at hrun
    refine ⟨h.aligned, ⟨h.disjoint, ?_⟩, withinCaps_of_read hserde hrun hg⟩
    rw [payloadRegionStart_eq]
    exact h.behind
  · rintro ⟨haligned, ⟨hdisjoint, hbehind⟩, hcaps⟩
    rw [payloadRegionStart_eq] at hbehind
    obtain ⟨g, hg, htensors⟩ := reads_file hserde hfits hcaps
    exact ⟨hdisjoint, hbehind, haligned, fun payload => ⟨g, hg payload, htensors⟩⟩

end GrimFile

/-- What the writer hands to `serde_json`. -/
def GrimFile.metadataValue (f : GrimFile) : Value :=
  ({ f.metadata with hasKvRegistry := some true } : GrimMetadata).toJson

/-- What `serde_json` does with one text and the value it stands for. -/
def serdeFor (text : String) (v : Value) : SerdeJson where
  toVec := fun _ => utf8 text
  fromSlice := fun _ => .ok v

theorem serdeFor_lawful {text : String} {v : Value} (h : text.utf8ByteSize < 2 ^ 64) :
    (serdeFor text v).Lawful :=
  ⟨fun _ => by rw [serdeFor, length_utf8]; exact h⟩

theorem payloadRegionStart_serdeFor {text : String} {v : Value} (f : GrimFile) :
    f.payloadRegionStart (serdeFor text v) 0 =
      17 + text.utf8ByteSize + (f.tensors.map GrimTensorEntry.registryEntrySize).sum := by
  simp only [GrimFile.payloadRegionStart, GrimFile.metadataBytes, GrimFile.newHeader, serdeFor,
    GrimHeader.new, GrimHeader.write, fuckingSorcery, length_append, length_cons,
    length_nil, length_bytes, length_utf8]
  omega

def outputWeight : GrimTensorEntry where
  name := "output.weight"
  shape := [2, 4]
  baseBitwidth := 4
  payloadSize := 16
  outlierCount := 2
  kvPresent := 1
  kvCompressedSize := 100

def alignedFile : GrimFile where
  header := .new 0 0
  metadata :=
    { GrimMetadata.default with
      magic := some "grim-v1", quantVersion := some 1, quantMethod := some "uniform-k" }
  tensors := [outputWeight]
  wave := .w32

def alignedText : String :=
  "\x7b\"has_kv_registry\":true,\"magic\":\"grim-v1\",\"quant_method\":\"uniform-k\"," ++
    "\"quant_version\":1,\"rocml_profile\":\"unknown\",\"tensor_core_enabled\":false\x7d"

theorem utf8ByteSize_alignedText : alignedText.utf8ByteSize = 141 := by decide +kernel

theorem outputWeight_fits : outputWeight.Fits := ⟨by decide, by decide, by decide⟩

theorem payloadRegionStart_alignedFile (v : Value) :
    alignedFile.payloadRegionStart (serdeFor alignedText v) 0 = 256 := by
  rw [payloadRegionStart_serdeFor, utf8ByteSize_alignedText]
  decide

theorem laidOut_alignedFile :
    alignedFile.LaidOut (serdeFor alignedText alignedFile.metadataValue) 0 := by
  have hfits : ∀ t ∈ alignedFile.tensors, t.Fits := by
    intro t ht
    rw [mem_singleton.1 ht]
    exact outputWeight_fits
  have hlawful : (serdeFor alignedText alignedFile.metadataValue).Lawful :=
    serdeFor_lawful (by rw [utf8ByteSize_alignedText]; decide)
  refine (GrimFile.laidOut_iff hlawful 0 alignedFile hfits).2 ?_
  rw [payloadRegionStart_alignedFile]
  refine ⟨.inr (by decide), ⟨by decide, by decide, fun _ => by decide, trivial⟩,
    ⟨?_, fun _ => ⟨alignedFile.metadataValue, rfl⟩⟩, by decide⟩
  rw [GrimFile.metadataBytes, serdeFor, length_utf8, utf8ByteSize_alignedText]
  decide

def weightW : GrimTensorEntry where
  name := "w"
  shape := [4]
  baseBitwidth := 4
  payloadSize := 2

def unalignedFile : GrimFile where
  header := .new 0 0
  metadata := GrimMetadata.default
  tensors := [weightW]
  wave := .w32

def unalignedText : String :=
  "\x7b\"has_kv_registry\":true,\"rocml_profile\":\"unknown\",\"tensor_core_enabled\":false\x7d"

theorem utf8ByteSize_unalignedText : unalignedText.utf8ByteSize = 78 := by decide +kernel

def unalignedSerde : SerdeJson := serdeFor unalignedText unalignedFile.metadataValue

/-- Its one payload starts at byte 177. -/
theorem not_laidOut_unalignedFile : unalignedSerde.Lawful ∧
    (∀ t ∈ unalignedFile.tensors, t.Fits) ∧ ¬ unalignedFile.LaidOut unalignedSerde 0 := by
  refine ⟨serdeFor_lawful ?_, ?_, fun h => ?_⟩
  · rw [utf8ByteSize_unalignedText]
    decide
  · intro t ht
    rw [mem_singleton.1 ht]
    exact ⟨by decide, by decide, by decide⟩
  · have haligned := (GrimFile.aligned_place_iff _ _).1 h.aligned
    rw [unalignedSerde, payloadRegionStart_serdeFor, utf8ByteSize_unalignedText] at haligned
    revert haligned
    decide

end Grim.Format
