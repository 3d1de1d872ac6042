import Mathlib.Data.List.AList
import Grim.Format.GrimLayout

/-!
# The training-state sidecar

A magic, a JSON header and the blobs one after the other up to the end of the file.  A map is
written in the order it has its entries in, and is filled again one entry at a time.
-/

namespace Grim.Format

open LittleEndian Reader JsonValue List

/-- `b"GRIMTRN\x01"` -/
def trainMagic : List UInt8 := [0x47, 0x52, 0x49, 0x4d, 0x54, 0x52, 0x4e, 0x01]

def maxTrainBlob : ℕ := 2 ^ 30

def maxTrainHeader : ℕ := 2 ^ 26

inductive TrainFpFormat
  | fp16 | fp32 | fp8E4M3 | fp8E5M2 | fp4 | bf16 | fp16Param
deriving DecidableEq

namespace TrainFpFormat

def asU8 : TrainFpFormat → UInt8
  | fp16 => 0
  | fp32 => 1
  | fp8E4M3 => 2
  | fp8E5M2 => 3
  | fp4 => 4
  | bf16 => 5
  | fp16Param => 6

def fromU8 (tag : UInt8) : Option TrainFpFormat :=
  match tag.toNat with
  | 0 => some fp16
  | 1 => some fp32
  | 2 => some fp8E4M3
  | 3 => some fp8E5M2
  | 4 => some fp4
  | 5 => some bf16
  | 6 => some fp16Param
  | _ => none

theorem fromU8_asU8 (fmt : TrainFpFormat) : fromU8 fmt.asU8 = some fmt := by
  cases fmt <;> rfl

end TrainFpFormat

structure TrainBlob where
  name : String
  shape : List ℕ
  data : List UInt8

namespace TrainBlob

def write (b : TrainBlob) : List UInt8 :=
  bytes 2 b.name.utf8ByteSize ++ (utf8 b.name ++ (bytes 1 b.shape.length ++
    (b.shape.flatMap (bytes 4) ++ (bytes 8 b.data.length ++ b.data))))

/-- `n` bytes of the part of a blob that the error names. -/
def readPart (part : String) (n : ℕ) : Reader String (List UInt8) :=
  exact s!"train blob {part} read failed: failed to fill whole buffer" n

def readNumber (part : String) (n : ℕ) : Reader String ℕ := do
  let buf ← readPart part n
  pure (value buf)

def nameFromUtf8 (nameBytes : List UInt8) : Reader String String :=
  match String.fromUTF8? ⟨nameBytes.toArray⟩ with
  | some s => pure s
  | none => fail "invalid UTF-8 in train blob name"

def readName : Reader String String := do
  let nameLen ← readNumber "name" 2
  let nameBytes ← readPart "name" nameLen
  nameFromUtf8 nameBytes

def readData (name : String) (len : ℕ) : Reader String (List UInt8) :=
  if maxTrainBlob < len then
    fail s!"train blob '{name}': length {len} exceeds maximum {maxTrainBlob}"
  else readPart "data" len

def read : Reader String TrainBlob := do
  let name ← readName
  let ndim ← readNumber "shape" 1
  let shape ← items (readNumber "dim" 4) ndim
  let len ← readNumber "len" 8
  let data ← readData name len
  pure { name, shape, data }

/-- The blob's name, rank, dimensions and data fit their fields and the reader's limit. -/
structure Fits (b : TrainBlob) : Prop where
  name : b.name.utf8ByteSize < 2 ^ 16
  rank : b.shape.length < 2 ^ 8
  dims : ∀ dim ∈ b.shape, dim < 2 ^ 32
  data : b.data.length ≤ maxTrainBlob

variable {part : String} {b : TrainBlob}

theorem reads_number {w n : ℕ} (h : n < 256 ^ w) : Reads (readNumber part w) (bytes w n) n := by
  have hr := (reads_exact s!"train blob {part} read failed: failed to fill whole buffer"
    (length_bytes w n)).map value
  rwa [value_bytes w n h] at hr

theorem reads_name {s : String} (h : s.utf8ByteSize < 2 ^ 16) :
    Reads readName (bytes 2 s.utf8ByteSize ++ utf8 s) s := by
  have hlast : Reads (nameFromUtf8 (utf8 s)) [] s := by
    rw [nameFromUtf8, fromUTF8_utf8]
    exact Reads.pure s
  have hr := (reads_exact "train blob name read failed: failed to fill whole buffer"
    (length_utf8 s)).bind hlast
  rw [append_nil] at hr
  exact (reads_number h).bind hr

theorem reads_data {name : String} {data : List UInt8} (h : data.length ≤ maxTrainBlob) :
    Reads (readData name data.length) data data := by
  rw [readData, if_neg (Nat.not_lt.mpr h)]
  exact reads_exact _ rfl

theorem Fits.reads (h : b.Fits) : Reads read b.write b := by
  have hsplit : b.write = (bytes 2 b.name.utf8ByteSize ++ utf8 b.name) ++
      (bytes 1 b.shape.length ++ (b.shape.flatMap (bytes 4) ++
        (bytes 8 b.data.length ++ b.data))) := by
    simp only [write, append_assoc]
  have hdims : Reads (items (readNumber "dim" 4) b.shape.length) (b.shape.flatMap (bytes 4))
      b.shape := reads_items b.shape fun dim hdim => reads_number (h.dims dim hdim)
  have hlen : b.data.length < 256 ^ 8 := lt_of_le_of_lt h.data (by decide)
  rw [hsplit]
  refine (reads_name h.name).bind ((reads_number h.rank).bind (hdims.bind
    ((reads_number hlen).bind ?_)))
  exact (reads_data h.data).map fun data => { b with data }

theorem yields_number (w : ℕ) : Yields (readNumber part w) fun n => n < 256 ^ w := by
  refine (Yields.exact _ _).bind fun buf hbuf => Yields.pure ?_
  rw [← hbuf]
  exact value_lt buf

theorem yields_name : Yields readName fun s => s.utf8ByteSize < 2 ^ 16 := by
  refine (yields_number 2).bind fun len hlen => (Yields.exact _ _).bind fun buf hbuf => ?_
  unfold nameFromUtf8
  split
  · rename_i s hs
    refine Yields.pure ?_
    rw [size_of_fromUTF8 hs, hbuf]
    exact hlen
  · exact Yields.fail _

theorem yields_blob : Yields read Fits := by
  refine yields_name.bind fun name hname => (yields_number 1).bind fun ndim hndim => ?_
  refine (((yields_number 4).items ndim).and (Yields.length_items _ _)).bind
    fun shape hshape => (Yields.trivial _).bind fun len _ => ?_
  have hdata : Yields (readData name len) fun data => data.length ≤ maxTrainBlob := by
    unfold readData
    split_ifs with hlen
    · exact Yields.fail _
    · intro s data s' hrun
      rw [Yields.exact _ _ s data s' hrun]
      exact Nat.not_lt.mp hlen
  refine hdata.bind fun data hdata => Yields.pure ⟨hname, ?_, hshape.1, hdata⟩
  rw [hshape.2]
  exact hndim

theorem takes_number (w : ℕ) : Takes (readNumber part w) w :=
  (Takes.exact _ w).bind fun _ => Takes.pure _

theorem takes_part (n : ℕ) : Takes (readPart part n) 0 := (Takes.exact _ n).mono (Nat.zero_le n)

theorem takes_blob : Takes read 1 := by
  have hname : Takes readName 2 := by
    refine (takes_number 2).bind fun len => (takes_part len).bind fun buf => ?_
    unfold nameFromUtf8
    split
    · exact Takes.pure _
    · exact Takes.fail _ 0
  have hzero : ∀ part w, Takes (readNumber part w) 0 := fun part w =>
    (takes_number w).mono (Nat.zero_le w)
  have hdata : ∀ name len, Takes (readData name len) 0 := by
    intro name len
    unfold readData
    split_ifs
    · exact Takes.fail _ 0
    · exact takes_part len
  refine Takes.mono (hname.bind fun name => ?_) (by decide : 1 ≤ 2)
  exact (hzero _ _).bind fun ndim => ((hzero _ _).items ndim).bind fun shape =>
    (hzero _ _).bind fun len => (hdata name len).bind fun data => Takes.pure _

end TrainBlob

/-- A `HashMap` filled with the entries, one after the other. -/
def collect {β : Type} (entries : List (String × β)) : AList fun _ : String => β :=
  entries.foldl (fun m e => m.insert e.1 e.2) ∅

structure TrainState where
  step : UInt64
  fpFormat : TrainFpFormat
  dtypes : AList fun _ : String => TrainFpFormat
  blobs : AList fun _ : String => TrainBlob

namespace TrainState

/-- The tags by their names, in the order of a `BTreeMap`. -/
def dtypesTags (s : TrainState) : List (String × Value) :=
  (s.dtypes.entries.map fun e => (e.1, u8 e.2.asU8)).mergeSort fun a b => a.1 ≤ b.1

def header (s : TrainState) : Value :=
  .object
    [("blobs", .array (s.blobs.keys.map .string)),
      ("dtypes", .object s.dtypesTags),
      ("fp_format", u8 s.fpFormat.asU8),
      ("step", .u64 s.step)]

variable (serde : SerdeJson)

def write (s : TrainState) : List UInt8 :=
  let headerBytes := serde.toVec s.header
  trainMagic ++ (bytes 4 headerBytes.length ++ (headerBytes ++
    s.blobs.entries.flatMap fun e => e.2.write))

def readMagic : Reader String Unit := do
  let magic ← exact "train magic read failed: failed to fill whole buffer" 8
  if magic ≠ trainMagic then
    fail s!"Invalid train sidecar magic: expected {trainMagic}, got {magic}"
  else pure ()

def headerOfText (buf : List UInt8) : Reader String Value :=
  match serde.fromSlice buf with
  | .ok header => pure header
  | .error e => fail s!"train header JSON invalid: {e}"

def readHeaderText (headerLen : ℕ) : Reader String Value :=
  if maxTrainHeader < headerLen then
    fail s!"train sidecar: header_len {headerLen} exceeds maximum {maxTrainHeader}"
  else do
    let headerBytes ← exact "train header read failed: failed to fill whole buffer" headerLen
    headerOfText serde headerBytes

def readHeader : Reader String Value := do
  readMagic
  let buf ← exact "train header len read failed: failed to fill whole buffer" 4
  readHeaderText serde (value buf)

def formatOfJson (v : Value) : Option TrainFpFormat :=
  v.asU64.bind fun tag => TrainFpFormat.fromU8 tag.toUInt8

/-- The state that a header describes, with the blobs behind it. -/
def ofHeader (header : Value) (blobs : List TrainBlob) : TrainState where
  step := ((header.get "step").bind Value.asU64).getD 0
  fpFormat := ((header.get "fp_format").bind formatOfJson).getD .fp32
  dtypes :=
    collect ((((header.get "dtypes").bind Value.asObject).getD []).filterMap fun e =>
      (formatOfJson e.2).map fun fmt => (e.1, fmt))
  blobs := collect (blobs.map fun blob => (blob.name, blob))

/-- `None` where there is no file to open. -/
def read (file : Option (List UInt8)) : Except String (Option TrainState) :=
  match file with
  | none => .ok none
  | some bs => do
    let (header, rest) ← (readHeader serde).run bs
    let blobs ← untilEnd TrainBlob.read TrainBlob.takes_blob rest
    pure (some (ofHeader header blobs))

structure Same (s t : TrainState) : Prop where
  step : s.step = t.step
  fpFormat : s.fpFormat = t.fpFormat
  dtypes : ∀ name, s.dtypes.lookup name = t.dtypes.lookup name
  blobs : ∀ name, s.blobs.lookup name = t.blobs.lookup name

def ReadsBack (s : TrainState) : Prop :=
  ∃ t, read serde (some (s.write serde)) = .ok (some t) ∧ t.Same s

/-- The header is within the reader's limit, and each blob fits and stands under its name. -/
structure Fits (s : TrainState) : Prop where
  header : (serde.toVec s.header).length ≤ maxTrainHeader
  blobs : ∀ name blob, s.blobs.lookup name = some blob → blob.name = name ∧ blob.Fits

end TrainState

/-- A value that `serde_json` reads back from its text, and from no shorter part of the text. -/
structure SerdeJson.Returns (serde : SerdeJson) (v : Value) : Prop where
  parses : serde.fromSlice (serde.toVec v) = .ok v
  cutOff : ∀ n < (serde.toVec v).length, ∃ e, serde.fromSlice ((serde.toVec v).take n) = .error e

section collect

variable {β : Type} {name : String} {b : β}

theorem lookup_foldl_insert : ∀ (entries : List (String × β)) (m : AList fun _ : String => β),
    (entries.foldl (fun m e => m.insert e.1 e.2) m).lookup name = some b →
      (name, b) ∈ entries ∨ m.lookup name = some b
  | [], _, h => .inr h
  | e :: entries, m, h => by
    rcases lookup_foldl_insert entries _ h with hmem | hm
    · exact .inl (mem_cons_of_mem _ hmem)
    rcases eq_or_ne name e.1 with rfl | hne
    · rw [AList.lookup_insert, Option.some.injEq] at hm
      subst hm
      exact .inl mem_cons_self
    · rw [AList.lookup_insert_ne hne] at hm
      exact .inr hm

theorem mem_of_lookup_collect {entries : List (String × β)}
    (h : (collect entries).lookup name = some b) : (name, b) ∈ entries := by
  rcases lookup_foldl_insert entries ∅ h with hmem | hm
  · exact hmem
  · rw [AList.lookup_empty] at hm
    cases hm

theorem lookup_foldl_of_agree {m : AList fun _ : String => β} :
    ∀ (entries : List (String × β)) (acc : AList fun _ : String => β),
    (∀ e ∈ entries, m.lookup e.1 = some e.2) →
      (entries.foldl (fun m e => m.insert e.1 e.2) acc).lookup name =
        if name ∈ entries.map Prod.fst then m.lookup name else acc.lookup name
  | [], _, _ => by simp
  | e :: entries, acc, h => by
    have hfirst := h e (by simp)
    rw [foldl_cons, lookup_foldl_of_agree entries _ fun d hd => h d (by simp [hd])]
    rcases eq_or_ne name e.1 with rfl | hne
    · rw [AList.lookup_insert, hfirst, map_cons, if_pos mem_cons_self, ite_self]
    · rw [AList.lookup_insert_ne hne, map_cons]
      simp only [mem_cons, hne, false_or]

theorem lookup_collect {entries : List (String × β)} {m : AList fun _ : String => β}
    (h : ∀ name b, (name, b) ∈ entries ↔ m.lookup name = some b) (name : String) :
    (collect entries).lookup name = m.lookup name := by
  rw [collect, lookup_foldl_of_agree entries ∅ fun e he => (h e.1 e.2).mp he]
  split_ifs with hmem
  · rfl
  rw [AList.lookup_empty]
  rcases hm : m.lookup name with _ | b
  · rfl
  · exact absurd (mem_map.mpr ⟨_, (h name b).mpr hm, rfl⟩) hmem

end collect

namespace TrainState

variable {serde : SerdeJson} {s : TrainState}

theorem formatOfJson_tag (fmt : TrainFpFormat) : formatOfJson (u8 fmt.asU8) = some fmt := by
  cases fmt <;> rfl

theorem mem_dtypesTags {name : String} {v : Value} :
    (name, v) ∈ s.dtypesTags ↔ ∃ fmt, s.dtypes.lookup name = some fmt ∧ v = u8 fmt.asU8 := by
  rw [dtypesTags, (mergeSort_perm _ _).mem_iff, mem_map]
  constructor
  · rintro ⟨⟨k, fmt⟩, hmem, heq⟩
    cases heq
    exact ⟨fmt, AList.mem_lookup_iff.mpr hmem, rfl⟩
  · rintro ⟨fmt, hfmt, rfl⟩
    exact ⟨⟨name, fmt⟩, AList.mem_lookup_iff.mp hfmt, rfl⟩

theorem ofHeader_header
    (h : ∀ name blob, s.blobs.lookup name = some blob → blob.name = name) :
    (ofHeader s.header (s.blobs.entries.map Sigma.snd)).Same s := by
  have hfields : s.header.get "step" = some (.u64 s.step)
      ∧ s.header.get "fp_format" = some (u8 s.fpFormat.asU8)
      ∧ s.header.get "dtypes" = some (.object s.dtypesTags) := ⟨rfl, rfl, rfl⟩
  obtain ⟨hstep, hformat, hdtypes⟩ := hfields
  refine ⟨?_, ?_, lookup_collect fun name fmt => ?_, lookup_collect fun name blob => ?_⟩
  · rw [ofHeader, hstep]
    rfl
  · rw [ofHeader, hformat]
    dsimp only [Option.bind_some]
    rw [formatOfJson_tag]
    rfl
  · rw [hdtypes]
    dsimp only [Option.bind_some, Value.asObject, Option.getD_some]
    rw [mem_filterMap]
    constructor
    · rintro ⟨⟨k, v⟩, hmem, heq⟩
      obtain ⟨fmt', hfmt', rfl⟩ := mem_dtypesTags.mp hmem
      rw [formatOfJson_tag] at heq
      cases heq
      exact hfmt'
    · intro hfmt
      exact ⟨(name, u8 fmt.asU8), mem_dtypesTags.mpr ⟨fmt, hfmt, rfl⟩, by
        rw [formatOfJson_tag]
        rfl⟩
  · rw [map_map, mem_map]
    constructor
    · rintro ⟨⟨k, blob'⟩, hmem, heq⟩
      cases heq
      have hlook := AList.mem_lookup_iff.mpr hmem
      dsimp only
      rw [h k blob' hlook]
      exact hlook
    · intro hblob
      refine ⟨⟨name, blob⟩, AList.mem_lookup_iff.mp hblob, ?_⟩
      rw [← h name blob hblob]
      rfl

theorem reads_magic : Reads readMagic trainMagic () := by
  have hmagic : Reads (exact "train magic read failed: failed to fill whole buffer" 8) trainMagic
      trainMagic := reads_exact _ rfl
  rw [← append_nil trainMagic]
  refine hmagic.bind ?_
  rw [if_neg (by simp)]
  exact Reads.pure ()

theorem reads_len (n : ℕ) :
    Reads (exact "train header len read failed: failed to fill whole buffer" 4) (bytes 4 n)
      (bytes 4 n) := reads_exact _ (length_bytes 4 n)

theorem reads_header (hserde : serde.Returns s.header)
    (h : (serde.toVec s.header).length ≤ maxTrainHeader) :
    Reads (readHeader serde) (trainMagic ++ (bytes 4 (serde.toVec s.header).length ++
      serde.toVec s.header)) s.header := by
  have hlt : (serde.toVec s.header).length < 256 ^ 4 := lt_of_le_of_lt h (by decide)
  have htext : Reads (headerOfText serde (serde.toVec s.header)) [] s.header := by
    rw [headerOfText, hserde.parses]
    exact Reads.pure _
  have hlast := (reads_exact "train header read failed: failed to fill whole buffer" rfl).bind htext
  rw [append_nil] at hlast
  refine reads_magic.bind ((reads_len _).bind ?_)
  rw [value_bytes 4 _ hlt, readHeaderText, if_neg (Nat.not_lt.mpr h)]
  exact hlast

theorem refuses_header (hserde : serde.Returns s.header)
    (h : maxTrainHeader < (serde.toVec s.header).length) :
    Refuses (readHeader serde) (trainMagic ++ (bytes 4 (serde.toVec s.header).length ++
      serde.toVec s.header)) := by
  refine reads_magic.refuses ((reads_len _).refuses ?_)
  rw [value_bytes_mod, readHeaderText]
  split_ifs with hcap
  · exact Refuses.fail _ _
  intro rest header s' hrun
  obtain ⟨headerBytes, s₁, hexact, htext⟩ := run_bind_ok hrun
  have hlt : (serde.toVec s.header).length % 256 ^ 4 < (serde.toVec s.header).length :=
    lt_of_le_of_lt (Nat.not_lt.mp hcap) h
  change (if _ then _ else _) = _ at hexact
  split_ifs at hexact
  cases hexact
  rw [take_append_of_le_length hlt.le] at htext
  obtain ⟨e, he⟩ := hserde.cutOff _ hlt
  rw [headerOfText, he] at htext
  cases htext

theorem write_eq : s.write serde =
    (trainMagic ++ (bytes 4 (serde.toVec s.header).length ++ serde.toVec s.header)) ++
      (s.blobs.entries.map Sigma.snd).flatMap TrainBlob.write := by
  rw [write, flatMap_map]
  simp only [append_assoc]

theorem Fits.readsBack (hserde : serde.Returns s.header) (h : s.Fits serde) :
    s.ReadsBack serde := by
  have hblobs : untilEnd TrainBlob.read TrainBlob.takes_blob
      ((s.blobs.entries.map Sigma.snd).flatMap TrainBlob.write)
        = .ok (s.blobs.entries.map Sigma.snd) := by
    refine untilEnd_flatMap _ _ fun blob hblob => ?_
    obtain ⟨e, he, rfl⟩ := mem_map.mp hblob
    exact (h.blobs e.1 e.2 (AList.mem_lookup_iff.mpr he)).2.reads
  refine ⟨_, ?_, ofHeader_header fun name blob hblob => (h.blobs name blob hblob).1⟩
  rw [read, write_eq, reads_header hserde h.header]
  dsimp only [bind, Except.bind]
  rw [hblobs]
  rfl

theorem ReadsBack.fits (hserde : serde.Returns s.header) (h : s.ReadsBack serde) :
    s.Fits serde := by
  obtain ⟨t, hread, hsame⟩ := h
  have hheader : (serde.toVec s.header).length ≤ maxTrainHeader := by
    by_contra hlong
    have hrefuses := refuses_header hserde (Nat.not_le.mp hlong)
    rw [read, write_eq] at hread
    rcases hrun : (readHeader serde).run _ with e | ⟨header, rest⟩ <;> rw [hrun] at hread
    · cases hread
    · exact hrefuses _ _ _ hrun
  refine ⟨hheader, fun name blob hblob => ?_⟩
  rw [read, write_eq, reads_header hserde hheader] at hread
  dsimp only [bind, Except.bind] at hread
  rcases hrun : untilEnd TrainBlob.read TrainBlob.takes_blob
    ((s.blobs.entries.map Sigma.snd).flatMap TrainBlob.write) with e | blobs <;>
    rw [hrun] at hread
  · cases hread
  cases hread
  rw [← hsame.blobs name] at hblob
  obtain ⟨blob', hmem, heq⟩ := mem_map.mp (mem_of_lookup_collect hblob)
  cases heq
  exact ⟨rfl, untilEnd_yields _ TrainBlob.yields_blob _ blobs hrun blob hmem⟩

end TrainState

/-- An entry, and a state, come back exactly when what is narrower in the file than in memory
fits: the names, the ranks and the dimensions, the blobs and the header. -/
theorem records_come_back_iff (serde : SerdeJson) (e : GrimTensorEntry) (s : TrainState)
    (hserde : serde.Returns s.header) :
    (e.DecodesBack ↔ e.Fits) ∧ (s.ReadsBack serde ↔ s.Fits serde) :=
  ⟨GrimTensorEntry.decodesBack_iff,
    fun h => h.fits hserde, fun h => TrainState.Fits.readsBack hserde h⟩

def firstStep : TrainState where
  step := 1
  fpFormat := .bf16
  dtypes := .singleton "lora_a" .bf16
  blobs := .singleton "lora_a" ⟨"lora_a", [2, 1], [0x80, 0x3f, 0, 0x40]⟩

def firstStepText : String :=
  "\x7b\"blobs\":[\"lora_a\"],\"dtypes\":\x7b\"lora_a\":5\x7d,\"fp_format\":5,\"step\":1\x7d"

/-- What `serde_json` does with the text of the state's header, and with a text that is cut off. -/
def firstStepSerde : SerdeJson where
  toVec := fun _ => utf8 firstStepText
  fromSlice := fun bs =>
    if bs = utf8 firstStepText then .ok firstStep.header else .error "EOF while parsing an object"

theorem records_come_back_firstStep :
    (outputWeight.DecodesBack ↔ outputWeight.Fits) ∧
      (firstStep.ReadsBack firstStepSerde ↔ firstStep.Fits firstStepSerde) := by
  have htext : firstStepSerde.toVec firstStep.header = utf8 firstStepText := rfl
  have hparse : ∀ bs, firstStepSerde.fromSlice bs = if bs = utf8 firstStepText then
    .ok firstStep.header else .error "EOF while parsing an object" := fun bs => rfl
  refine records_come_back_iff firstStepSerde outputWeight firstStep ⟨?_, fun n hn => ?_⟩
  · rw [htext, hparse, if_pos rfl]
  · refine ⟨"EOF while parsing an object", ?_⟩
    rw [htext] at hn ⊢
    rw [hparse]
    refine if_neg fun heq => ?_
    have hlen := congrArg List.length heq
    rw [length_take] at hlen
    omega

def bigDim : GrimTensorEntry where
  name := "w"
  shape := [2 ^ 32]

/-- A dimension of 2^32 is written as 0. -/
theorem wide_dimension_lost : ¬ ∃ serde : SerdeJson,
    (∀ e : GrimTensorEntry, e.DecodesBack) ∧ ∀ s : TrainState, s.ReadsBack serde := by
  rintro ⟨serde, hall, -⟩
  have hfits := GrimTensorEntry.decodesBack_iff.mp (hall bigDim)
  exact absurd (hfits.dims (2 ^ 32) mem_cons_self) (lt_irrefl _)

end Grim.Format
