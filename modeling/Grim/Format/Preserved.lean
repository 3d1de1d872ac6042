import Grim.Format.Conversion

/-!
# What a conversion keeps of the tensors

The writer ends the header at a multiple of 32; the reader looks for the data at a multiple of the
alignment that the copied metadata names.  Where the two differ the tensors are lost, unless there
are none or the reader comes too early and finds nothing but zeros in them.
-/

namespace Grim.Format

open LittleEndian Reader Layout Slice List

def GgufTensorInfo.shapeOf (t : GgufTensorInfo) : String × List UInt64 × GgufDType :=
  (t.name, t.dims, t.dtype)

/-- The output is read, with the same tensors and the same bytes for each. -/
def Preserved (input : File) (g : GgufFile) (output : File) : Prop :=
  ∃ g', readGguf output = .ok g' ∧
    g'.tensors.map GgufTensorInfo.shapeOf = g.tensors.map GgufTensorInfo.shapeOf ∧
    ∀ pair ∈ g.tensors.zip g'.tensors, ∃ bs,
      readTensorBytes input g pair.1 = .ok bs ∧ readTensorBytes output g' pair.2 = .ok bs

def FitsHeader (gcn : String) (g : GgufFile) : Prop :=
  (injectMetadata gcn g.metadata).length ≤ maxHeaderCount ∧
    gcn.utf8ByteSize ≤ maxGgufStringLength

/-- The end of the new header, rounded up to `alignment`. -/
def dataStartOf (gcn : String) (g : GgufFile) (alignment : UInt64) : UInt64 :=
  dataStartAt alignment (UInt64.ofNat (headerSize (injectMetadata gcn g.metadata) g.tensors))

def AllZero (input : File) (g : GgufFile) : Prop :=
  ∀ t ∈ g.tensors, ∀ bs, readTensorBytes input g t = .ok bs → ∀ b ∈ bs, b = 0

/-- When the tensors of `g` survive: the limits hold and the reader rounds the header's end up to
where the writer does, or it does not matter. -/
def KeepsTensors (input : File) (gcn : String) (g : GgufFile) : Prop :=
  FitsHeader gcn g ∧
    (g.tensors = [] ∨
      dataStartOf gcn g (alignmentOf g.metadata) = dataStartOf gcn g 32 ∨
      (dataStartOf gcn g (alignmentOf g.metadata) < dataStartOf gcn g 32 ∧ AllZero input g))

/-- What `convert_gguf_to_grim` wrote. -/
structure Converted (order : IterationOrder) (input : File) (gcn : String) (g : GgufFile)
    (output : File) where
  payloads : List (List UInt8)
  front : List UInt8
  bytes_eq : output.bytes = front ++ lay padTo32 0 0 payloads
  copied : List.Forall₂ (Copied (readTensorBytes input g))
    (g.tensors.zip (alignInfos 0 g.tensors)) (placed padTo32 0 payloads)
  front_eq : ∃ k, front = writeHeader (order.entries (injectMetadata gcn g.metadata))
    (alignInfos 0 g.tensors) ++ List.replicate k 0
  front_length : front.length = (dataStartOf gcn g 32).toNat

section Convert

variable {order : IterationOrder} {input output : File} {gcn : String} {g : GgufFile}

theorem exists_converted (h : convertGgufToGrim order input gcn = .ok output)
    (hg : readGguf input = .ok g) : Nonempty (Converted order input gcn g output) := by
  have hgood := readGguf_good hg
  have hheader := length_writeHeader (order.perm (injectMetadata gcn g.metadata)) g.tensors 0
  unfold convertGgufToGrim at h
  rw [hg] at h
  simp only [bind, Except.bind] at h
  set header := writeHeader (order.entries (injectMetadata gcn g.metadata))
    (alignInfos 0 g.tensors) with hdef
  set endPos := UInt64.ofNat header.length with hendPos
  set aligned := (endPos + 31) &&& ~~~31 with haligned
  split at h
  · cases h
  rename_i final hwrite
  unfold createFile at h
  split_ifs at h with hlt
  cases h
  have hbound := writeTensors_length hwrite
  simp only [length_append, length_replicate] at hbound
  have hendNat : endPos.toNat = header.length := by
    rw [hendPos, UInt64.toNat_ofNat', Nat.mod_eq_of_lt (by omega)]
  have hmask : (31 : UInt64).toNat = 31 := rfl
  have hge : endPos.toNat ≤ aligned.toNat := (le_alignUp (by omega)).1
  have hsub : (aligned - endPos).toNat = aligned.toNat - header.length := by
    rw [UInt64.toNat_sub_of_le _ _ (UInt64.le_iff_toNat_le.2 hge), hendNat]
  have hfront : (header ++ List.replicate (aligned - endPos).toNat 0).length =
      aligned.toNat + (0 : UInt64).toNat := by
    rw [length_append, length_replicate, hsub]
    change _ = aligned.toNat + 0
    omega
  obtain ⟨ps, hps, hcopied⟩ := writeTensors_lay hlt g.tensors 0 _
    (fun t ht bs hbs => readTensorBytes_length (hgood.infos t ht) hbs) hfront hwrite
  exact ⟨ps, _, hps, hcopied, ⟨_, rfl⟩, by
    rw [hfront, dataStartOf, ← hheader]
    rfl⟩

theorem Converted.header_prefix (c : Converted order input gcn g output) :
    ∃ rest, output.bytes = writeHeader (order.entries (injectMetadata gcn g.metadata))
      (alignInfos 0 g.tensors) ++ rest := by
  obtain ⟨k, hk⟩ := c.front_eq
  exact ⟨_, by rw [c.bytes_eq, hk, append_assoc]⟩

theorem Converted.header_length (c : Converted order input gcn g output) :
    headerSize (injectMetadata gcn g.metadata) g.tensors ≤ output.bytes.length := by
  obtain ⟨rest, hrest⟩ := c.header_prefix
  rw [hrest, length_append,
    length_writeHeader (order.perm (injectMetadata gcn g.metadata)) g.tensors 0]
  omega

theorem injectMetadata_nodup (gcn : String) {m : Metadata} (h : m.Nodup) :
    (injectMetadata gcn m).Nodup := h.insertAll _

theorem order_nodup {m : Metadata} (h : m.Nodup) : (order.entries m).Nodup :=
  ((order.perm m).map Prod.fst).nodup_iff.2 h

theorem injectMetadata_good (hgood : GoodHeader g.toGgufHeader) :
    ∀ e ∈ order.entries (injectMetadata gcn g.metadata), GoodEntry e ∨ e = targetEntry gcn := by
  intro e he
  rcases Metadata.mem_insertAll _ ((order.perm _).mem_iff.1 he) with hold | hnew
  · exact .inl (hgood.entries e hold)
  · exact grimEntries_good hnew

theorem Converted.read (c : Converted order input gcn g output)
    (hgood : GoodHeader g.toGgufHeader) (hfits : FitsHeader gcn g) :
    ∃ g', readGguf output = .ok g' ∧ g'.tensors = alignInfos 0 g.tensors ∧
      g'.dataStart = dataStartOf gcn g (alignmentOf g.metadata) := by
  obtain ⟨rest, hrest⟩ := c.header_prefix
  have hnodup := injectMetadata_nodup gcn hgood.nodup
  have hlen := length_writeHeader (order.perm (injectMetadata gcn g.metadata)) g.tensors 0
  have hentries : ∀ e ∈ order.entries (injectMetadata gcn g.metadata), GoodEntry e := by
    intro e he
    rcases injectMetadata_good hgood e he with h | rfl
    · exact h
    · exact targetEntry_good hfits.2
  have hinfos : ∀ t ∈ alignInfos 0 g.tensors, GoodInfo t := alignInfos_good hgood.infos
  have hread := reads_header (order_nodup hnodup) hentries hinfos
    (by rw [(order.perm _).length_eq]; exact hfits.1)
    (by rw [alignInfos_length]; exact hgood.tensors_le) rest
  have halign : alignmentOf (order.entries (injectMetadata gcn g.metadata)) =
      alignmentOf g.metadata := by
    rw [alignmentOf, alignmentOf, Metadata.get_perm (order.perm _) hnodup,
      injectMetadata_alignment]
  have hpos : output.bytes.length - rest.length =
      headerSize (injectMetadata gcn g.metadata) g.tensors := by
    rw [hrest, length_append, hlen]
    omega
  refine ⟨_, by rw [readGguf, hrest, hread]; rfl, rfl, ?_⟩
  rw [dataStartOf, ← hpos, ← halign, hrest]

theorem length_le_of_mem {β : Type} (f : β → List UInt8) {b : β} {l : List β} (h : b ∈ l) :
    (f b).length ≤ (l.map fun x => (f x).length).sum :=
  le_sum_of_mem (mem_map.2 ⟨b, h, rfl⟩)

theorem Converted.not_read (c : Converted order input gcn g output)
    (hgood : GoodHeader g.toGgufHeader) (hfits : ¬ FitsHeader gcn g) (g' : GgufFile) :
    readGguf output ≠ .ok g' := by
  intro hok
  obtain ⟨rest', hrun, -⟩ := readGguf_ok hok
  obtain ⟨rest, hrest⟩ := c.header_prefix
  rw [hrest] at hrun
  have hfile := output.length_lt
  have hsize := c.header_length
  have htensors : (alignInfos 0 g.tensors).length ≤ maxHeaderCount := by
    rw [alignInfos_length]
    exact hgood.tensors_le
  have hlength := (order.perm (injectMetadata gcn g.metadata)).length_eq
  by_cases hkv : (injectMetadata gcn g.metadata).length ≤ maxHeaderCount
  · have hgcn : maxGgufStringLength < gcn.utf8ByteSize := not_le.1 fun h => hfits ⟨hkv, h⟩
    have htarget := length_le_of_mem writeEntry (targetEntry_mem gcn g.metadata)
    have hown : gcn.utf8ByteSize ≤ (writeEntry (targetEntry gcn)).length := by
      simp only [writeEntry, targetEntry, writeGgufValue, writeGgufValueRaw, writeGgufString,
        length_append, length_utf8]
      omega
    refine refuses_header_entry htensors (by rw [hlength]; exact hkv) (injectMetadata_good hgood)
      ((order.perm _).mem_iff.2 (targetEntry_mem gcn g.metadata))
      (refuses_targetEntry hgcn ?_) rest _ _ hrun
    unfold headerSize at hsize
    omega
  · have hcount : (injectMetadata gcn g.metadata).length ≤
        ((injectMetadata gcn g.metadata).map fun e => (writeEntry e).length).sum := by
      have hone := card_nsmul_le_sum ((injectMetadata gcn g.metadata).map
        fun e => (writeEntry e).length) 1 (by
          intro n hn
          obtain ⟨e, -, rfl⟩ := mem_map.1 hn
          simp [writeEntry, writeGgufString]
          omega)
      simpa using hone
    refine refuses_header_count htensors ?_ (by rw [hlength]; omega) rest _ _ hrun
    unfold headerSize at hsize
    rw [hlength]
    omega

theorem forall_congr_of_forall₂ {β γ : Type} {R : β → γ → Prop} {P : β → Prop} {Q : γ → Prop} :
    ∀ {bs : List β} {cs : List γ}, List.Forall₂ R bs cs →
      (∀ b ∈ bs, ∀ c, R b c → (P b ↔ Q c)) → ((∀ b ∈ bs, P b) ↔ ∀ c ∈ cs, Q c)
  | [], [], _, _ => by simp
  | b :: bs, c :: cs, .cons h hs, hiff => by
    rw [forall_mem_cons, forall_mem_cons, hiff b (by simp) c h,
      forall_congr_of_forall₂ hs fun b hb => hiff b (by simp [hb])]

theorem Converted.read_back_iff (c : Converted order input gcn g output)
    (hgood : GoodHeader g.toGgufHeader) {g' : GgufFile} :
    (∀ pair ∈ g.tensors.zip (alignInfos 0 g.tensors), ∃ bs,
      readTensorBytes input g pair.1 = .ok bs ∧ readTensorBytes output g' pair.2 = .ok bs) ↔
      ∀ e ∈ placed padTo32 0 c.payloads,
        g'.dataStart.toNat + e.1 + e.2.length ≤ output.bytes.length ∧
          slice output.bytes (g'.dataStart.toNat + e.1) e.2.length = e.2 := by
  refine forall_congr_of_forall₂ c.copied fun pair hpair e he => ?_
  have hinfo := hgood.infos pair.1 (of_mem_zip hpair).1
  have hinfo' := alignInfos_good hgood.infos pair.2 (of_mem_zip hpair).2
  have hsize : pair.2.sizeBytes.toNat = e.2.length := by
    rw [he.same, readTensorBytes_length hinfo he.bytes]
  constructor
  · rintro ⟨bs, hbs, hread⟩
    obtain rfl : bs = e.2 := by
      rw [he.bytes] at hbs
      exact (Except.ok.inj hbs).symm
    rw [readTensorBytes_ok hinfo', he.offset, hsize] at hread
    exact hread
  · intro h
    refine ⟨e.2, he.bytes, ?_⟩
    rw [readTensorBytes_ok hinfo', he.offset, hsize]
    exact h

theorem Converted.allZero_iff (c : Converted order input gcn g output) :
    AllZero input g ↔ ∀ p ∈ c.payloads, ∀ b ∈ p, b = 0 := by
  have hpayloads : (∀ p ∈ c.payloads, ∀ b ∈ p, b = 0) ↔
      ∀ e ∈ placed padTo32 0 c.payloads, ∀ b ∈ e.2, b = 0 := by
    conv_lhs => rw [← placed_snd padTo32 0 c.payloads]
    simp only [forall_mem_map]
  have htensors : AllZero input g ↔ ∀ pair ∈ g.tensors.zip (alignInfos 0 g.tensors), ∀ bs,
      readTensorBytes input g pair.1 = .ok bs → ∀ b ∈ bs, b = 0 := by
    have hfst : (g.tensors.zip (alignInfos 0 g.tensors)).map Prod.fst = g.tensors :=
      map_fst_zip (by rw [alignInfos_length])
    conv_lhs => rw [AllZero, ← hfst]
    simp only [forall_mem_map]
  rw [hpayloads, htensors]
  refine forall_congr_of_forall₂ c.copied fun pair hpair e he => ?_
  constructor
  · intro h
    exact h e.2 he.bytes
  · intro h bs hbs
    rw [he.bytes] at hbs
    rwa [← Except.ok.inj hbs]

theorem Converted.payloads_nil_iff (c : Converted order input gcn g output) :
    c.payloads = [] ↔ g.tensors = [] := by
  have hlen := c.copied.length_eq
  have hplaced : (placed padTo32 0 c.payloads).length = c.payloads.length := by
    conv_rhs => rw [← placed_snd padTo32 0 c.payloads, length_map]
  rw [length_zip, alignInfos_length, Nat.min_self, hplaced] at hlen
  rw [← length_eq_zero_iff, ← length_eq_zero_iff, hlen]

theorem Converted.front_zero (c : Converted order input gcn g output) {start : UInt64}
    (hstart : start = dataStartOf gcn g (alignmentOf g.metadata)) :
    ∀ x, start.toNat ≤ x → x < (dataStartOf gcn g 32).toNat → c.front[x]? = some 0 := by
  intro x hle hlt
  obtain ⟨k, hk⟩ := c.front_eq
  have hlen := length_writeHeader (order.perm (injectMetadata gcn g.metadata)) g.tensors 0
  have hfront := c.front_length
  have hsize := c.header_length
  have hfile := output.length_lt
  have hnat : (UInt64.ofNat (headerSize (injectMetadata gcn g.metadata) g.tensors)).toNat =
      headerSize (injectMetadata gcn g.metadata) g.tensors := by
    rw [UInt64.toNat_ofNat', Nat.mod_eq_of_lt (by omega)]
  have hge : (UInt64.ofNat (headerSize (injectMetadata gcn g.metadata) g.tensors)).toNat ≤
      (dataStartOf gcn g (alignmentOf g.metadata)).toNat := le_dataStartAt (by omega)
  rw [← hstart] at hge
  rw [hk] at hfront ⊢
  rw [length_append, length_replicate] at hfront
  rw [getElem?_append_right (by omega), getElem?_replicate_of_lt (by omega)]

theorem Converted.preserved_iff (c : Converted order input gcn g output)
    (hgood : GoodHeader g.toGgufHeader) : Preserved input g output ↔ KeepsTensors input gcn g := by
  by_cases hfits : FitsHeader gcn g
  swap
  · exact ⟨fun ⟨g', hok, _⟩ => absurd hok (c.not_read hgood hfits g'),
      fun hkeeps => absurd hkeeps.1 hfits⟩
  obtain ⟨g', hok, htensors, hstart⟩ := c.read hgood hfits
  have hshape : g'.tensors.map GgufTensorInfo.shapeOf = g.tensors.map GgufTensorInfo.shapeOf := by
    rw [htensors]
    exact alignInfos_map _ (fun _ _ => rfl) _ _
  have hback : Preserved input g output ↔ ∀ e ∈ placed padTo32 0 c.payloads,
      g'.dataStart.toNat + e.1 + e.2.length ≤ output.bytes.length ∧
        slice output.bytes (g'.dataStart.toNat + e.1) e.2.length = e.2 := by
    rw [← c.read_back_iff hgood, ← htensors]
    constructor
    · rintro ⟨g'', hok', -, hread⟩
      rw [hok] at hok'
      obtain rfl := Except.ok.inj hok'
      exact hread
    · exact fun hread => ⟨g', hok, hshape, hread⟩
  rw [hback, KeepsTensors, and_iff_right hfits, ← hstart]
  have hplaced := @slice_placed _ padTo32 0 (dataStartOf gcn g 32).toNat c.payloads c.front 0
    c.front_length
  rw [← c.bytes_eq] at hplaced
  rcases Nat.lt_trichotomy g'.dataStart.toNat (dataStartOf gcn g 32).toNat with hltNat | heq | hgt
  · -- the reader starts in the header's padding
    have hlt : g'.dataStart < dataStartOf gcn g 32 := UInt64.lt_iff_toNat_lt.2 hltNat
    have hne : g'.dataStart ≠ dataStartOf gcn g 32 := fun heq => by rw [heq] at hltNat; omega
    have hiff : _ ↔ ∀ p ∈ c.payloads, ∀ b ∈ p, b = 0 :=
      slice_shifted_iff padTo32 0 c.front_length (c.front_zero hstart) hltNat
    rw [← c.bytes_eq, ← c.allZero_iff] at hiff
    constructor
    · exact fun hread => .inr (.inr ⟨hlt, hiff.1 fun e he => (hread e he).2⟩)
    · rintro (hnil | heq | ⟨-, hzero⟩)
      · rw [c.payloads_nil_iff.2 hnil]
        exact fun e he => absurd he (by simp [placed])
      · exact absurd heq hne
      · intro e he
        have hend := (hplaced e he).2
        exact ⟨by omega, hiff.2 hzero e he⟩
  · rw [UInt64.toNat_inj.1 heq]
    refine ⟨fun _ => .inr (.inl rfl), fun _ e he => ?_⟩
    exact ⟨(hplaced e he).2, (hplaced e he).1⟩
  · -- the reader starts too far behind and runs over the end
    constructor
    · intro hread
      refine .inl (c.payloads_nil_iff.1 ?_)
      by_contra hne
      obtain ⟨e, he, hover⟩ := over_the_end padTo32 0 c.front_length hne hgt
      rw [← c.bytes_eq] at hover
      have hend := (hread e he).1
      omega
    · rintro (hnil | heq | ⟨hlt, -⟩)
      · rw [c.payloads_nil_iff.2 hnil]
        exact fun e he => absurd he (by simp [placed])
      · rw [heq] at hgt
        omega
      · have := UInt64.lt_iff_toNat_lt.1 hlt
        omega

/-- The tensors survive a conversion exactly when `KeepsTensors`. -/
theorem conversion_preserves_iff (h : convertGgufToGrim order input gcn = .ok output)
    (hg : readGguf input = .ok g) : Preserved input g output ↔ KeepsTensors input gcn g := by
  obtain ⟨c⟩ := exists_converted h hg
  exact c.preserved_iff (readGguf_good hg)

end Convert

def sampleTensors : List GgufTensorInfo :=
  [⟨"token_embd.weight", [1], 0, 4, .f32⟩, ⟨"output.weight", [3], 32, 3, .i8⟩]

def sampleBytes (alignment : UInt32) : List UInt8 :=
  let header := writeHeader [("general.alignment", .uint32 alignment)] sampleTensors
  let start := dataStartAt alignment.toUInt64 (UInt64.ofNat header.length)
  header ++ List.replicate (start.toNat - header.length) 0 ++
    ([1, 2, 3, 4] ++ List.replicate 28 0 ++ [5, 6, 7])

def sample32 : File := ⟨sampleBytes 32, by decide +kernel⟩

def sample64 : File := ⟨sampleBytes 64, by decide +kernel⟩

def plainOrder : IterationOrder := ⟨id, fun _ => .refl _⟩

/-- The starts of the data that a conversion for `gfx1100` leaves to the reader and the writer. -/
def startsOf (g : GgufFile) : Bool × UInt64 × UInt64 :=
  (decide ((injectMetadata "gfx1100" g.metadata).length ≤ maxHeaderCount),
    dataStartOf "gfx1100" g (alignmentOf g.metadata), dataStartOf "gfx1100" g 32)

theorem except_ok_of_map {β γ : Type} {x : Except String β} {f : β → γ} {c : γ}
    (h : x.map f = .ok c) : ∃ b, x = .ok b ∧ f b = c := by
  rcases x with e | b
  · cases h
  · exact ⟨b, rfl, Except.ok.inj h⟩

theorem conversion_preserves_iff_aligned : ∃ g output, readGguf sample32 = .ok g ∧
    convertGgufToGrim plainOrder sample32 "gfx1100" = .ok output ∧
      Preserved sample32 g output := by
  have hread : (readGguf sample32).map startsOf = .ok (true, 544, 544) := by decide +kernel
  have hconv : (convertGgufToGrim plainOrder sample32 "gfx1100").map (fun _ => ()) = .ok () := by
    decide +kernel
  obtain ⟨g, hg, hstarts⟩ := except_ok_of_map hread
  obtain ⟨output, hout, -⟩ := except_ok_of_map hconv
  simp only [startsOf, Prod.mk.injEq, decide_eq_true_eq] at hstarts
  obtain ⟨hcount, hreader, hwriter⟩ := hstarts
  refine ⟨g, output, hg, hout, (conversion_preserves_iff hout hg).2 ⟨⟨hcount, by decide⟩, ?_⟩⟩
  exact .inr (.inl (hreader.trans hwriter.symm))

theorem alignment_loses_tensors : ∃ g output, readGguf sample64 = .ok g ∧
    convertGgufToGrim plainOrder sample64 "gfx1100" = .ok output ∧
      ¬ Preserved sample64 g output := by
  have hread : (readGguf sample64).map startsOf = .ok (true, 576, 544) := by decide +kernel
  have htensors : (readGguf sample64).map (fun g => g.tensors.length) = .ok 2 := by decide +kernel
  have hconv : (convertGgufToGrim plainOrder sample64 "gfx1100").map (fun _ => ()) = .ok () := by
    decide +kernel
  obtain ⟨g, hg, hstarts⟩ := except_ok_of_map hread
  obtain ⟨output, hout, -⟩ := except_ok_of_map hconv
  simp only [startsOf, Prod.mk.injEq, decide_eq_true_eq] at hstarts
  obtain ⟨-, hreader, hwriter⟩ := hstarts
  rw [hg] at htensors
  have htwo : g.tensors.length = 2 := Except.ok.inj htensors
  obtain ⟨c⟩ := exists_converted hout hg
  refine ⟨g, output, hg, hout, fun hp => ?_⟩
  obtain ⟨-, hnil | heq | ⟨hlt, -⟩⟩ := (c.preserved_iff (readGguf_good hg)).1 hp
  · rw [hnil] at htwo
    cases htwo
  · rw [hreader, hwriter] at heq
    exact absurd heq (by decide)
  · rw [hreader, hwriter] at hlt
    exact absurd hlt (by decide)

end Grim.Format
