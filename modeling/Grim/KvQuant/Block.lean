import Grim.Lib.LittleEndian
import Grim.Lib.Slice

/-!
# The blob of a compressed KV block

A block is written as a fixed header, its scale tables and its packed bits; version 3 appends the
table of bit widths per head and channel group.  Numbers are the `usize` fields of the source, cut
to 32 bits when they are written, and floats are their bit patterns.
-/

namespace Grim.KvQuant

open LittleEndian Slice List

inductive KvModality
  | text
  | audio
  | visual
deriving DecidableEq, Repr

def KvModality.asU8 : KvModality → UInt8
  | text => 0
  | audio => 1
  | visual => 2

def KvModality.fromU8 (v : UInt8) : KvModality :=
  if v = 1 then audio else if v = 2 then visual else text

@[simp] theorem KvModality.fromU8_asU8 (m : KvModality) : fromU8 m.asU8 = m := by
  cases m <;> rfl

structure ChannelBitAllocation where
  numKvHeads : ℕ
  headDim : ℕ
  groupSize : ℕ
  /-- `[kv_head][group]` -/
  keyBits : List (List UInt8)
  valueBits : List (List UInt8)
deriving DecidableEq, Repr

/-- `32` channels share a width. -/
def channelGroupSize : ℕ := 32

def ChannelBitAllocation.matchesGeometry (a : ChannelBitAllocation) (numKvHeads headDim : ℕ) :
    Bool :=
  a.numKvHeads = numKvHeads && a.headDim = headDim && a.groupSize = channelGroupSize

structure CompressedKvBlock where
  keyBits : List UInt8
  keyMeta : List UInt32
  valueBits : List UInt8
  valueMeta : List UInt32
  numTokens : ℕ
  numKvHeads : ℕ
  headDim : ℕ
  modality : KvModality
  channelAlloc : Option ChannelBitAllocation
deriving DecidableEq, Repr

def magic : List UInt8 := [71, 75, 86, 66]

/-- `(n as u32).to_le_bytes()` -/
def u32 (n : ℕ) : List UInt8 := word (UInt32.ofNat n)

/-- The four bytes at `pos`. -/
def rdU32 (body : List UInt8) (pos : ℕ) : ℕ := (ofWord (slice body pos 4)).toNat

namespace CompressedKvBlock

def version (b : CompressedKvBlock) : UInt8 := if b.channelAlloc.isSome then 3 else 2

def core (b : CompressedKvBlock) : List (List UInt8) :=
  [u32 b.numTokens, u32 b.numKvHeads, u32 b.headDim, [b.modality.asU8], u32 b.keyMeta.length,
    u32 b.valueMeta.length, u32 b.keyBits.length, u32 b.valueBits.length, words b.keyMeta,
    words b.valueMeta, b.keyBits, b.valueBits]

def allocBytes (a : ChannelBitAllocation) : List UInt8 :=
  u32 a.numKvHeads ++ u32 a.headDim ++ u32 a.groupSize ++ a.keyBits.flatten ++ a.valueBits.flatten

def toBytes (b : CompressedKvBlock) : List UInt8 :=
  magic ++ [b.version] ++ b.core.flatten ++ (b.channelAlloc.map allocBytes).getD []

/-- `4 * 7 + 1` -/
def hdr : ℕ := 29

def parseV2Core (body : List UInt8) : Except String (CompressedKvBlock × ℕ) :=
  if body.length < hdr then
    .error "CompressedKvBlock::from_bytes: truncated v2 header"
  else
    let keyMetaLen := rdU32 body 13
    let valueMetaLen := rdU32 body 17
    let keyBitsLen := rdU32 body 21
    let valueBitsLen := rdU32 body 25
    let need := hdr + keyMetaLen * 4 + valueMetaLen * 4 + keyBitsLen + valueBitsLen
    if body.length < need then
      .error s!"CompressedKvBlock::from_bytes: truncated v2 (need {need}, have {body.length})"
    else
      let pos := hdr + keyMetaLen * 4 + valueMetaLen * 4
      .ok
        ({ keyBits := slice body pos keyBitsLen
           keyMeta := unwords (slice body hdr (keyMetaLen * 4))
           valueBits := slice body (pos + keyBitsLen) valueBitsLen
           valueMeta := unwords (slice body (hdr + keyMetaLen * 4) (valueMetaLen * 4))
           numTokens := rdU32 body 0
           numKvHeads := rdU32 body 4
           headDim := rdU32 body 8
           modality := .fromU8 (body.getD 12 0)
           channelAlloc := none }, need)

def v2Mismatch (need len : ℕ) : String :=
  s!"CompressedKvBlock::from_bytes: v2 length mismatch (need {need}, have {len})"

def parseV2 (body : List UInt8) : Except String CompressedKvBlock := do
  let (block, need) ← parseV2Core body
  if body.length ≠ need then
    .error (v2Mismatch need body.length)
  else .ok block

def allocMismatch (want len : ℕ) : String :=
  s!"v3 allocation length mismatch: want {want}, have {len}"

/-- `n` rows of `groups` bytes from `pos` on. -/
def readRows (tail : List UInt8) (groups : ℕ) : ℕ → ℕ → List (List UInt8)
  | _, 0 => []
  | pos, n + 1 => slice tail pos groups :: readRows tail groups (pos + groups) n

/-- The v2 body with the allocation behind it.  Only `kvh * groups` can pass 64 bits, and no buffer
has that many bytes. -/
def parseV3 (body : List UInt8) : Except String CompressedKvBlock := do
  let (block, headLen) ← parseV2Core body
  let tail := body.drop headLen
  if tail.length < 12 then
    .error "CompressedKvBlock::from_bytes: truncated v3 allocation section"
  else
    let kvh := rdU32 tail 0
    let hd := rdU32 tail 4
    let gs := rdU32 tail 8
    if gs = 0 ∨ hd % gs ≠ 0 ∨ kvh ≠ block.numKvHeads ∨ hd ≠ block.headDim then
      .error (s!"v3 allocation geometry mismatch: alloc {kvh}x{hd}/g{gs} vs block " ++
        s!"{block.numKvHeads}x{block.headDim}")
    else
      let groups := hd / gs
      let want := 12 + 2 * kvh * groups
      if tail.length ≠ want then
        .error (allocMismatch want tail.length)
      else
        .ok { block with
          channelAlloc := some
            { numKvHeads := kvh
              headDim := hd
              groupSize := gs
              keyBits := readRows tail groups 12 kvh
              valueBits := readRows tail groups (12 + kvh * groups) kvh } }

/-- The layouts before the magic; only the first has the modality byte. -/
def parseLegacyInner (buf : List UInt8) (withModality : Bool) :
    Except String CompressedKvBlock :=
  let lens := if withModality then 13 else 12
  if buf.length < lens + 12 then .error "truncated header"
  else
    let keyMetaLen := rdU32 buf lens
    let valueMetaLen := rdU32 buf (lens + 4)
    let keyBitsLen := rdU32 buf (lens + 8)
    let need := lens + 12 + keyMetaLen * 4 + valueMetaLen * 4 + keyBitsLen
    if buf.length < need then
      .error s!"truncated legacy (need {need}, have {buf.length})"
    else
      let pos := lens + 12 + keyMetaLen * 4 + valueMetaLen * 4
      .ok
        { keyBits := slice buf pos keyBitsLen
          keyMeta := unwords (slice buf (lens + 12) (keyMetaLen * 4))
          valueBits := buf.drop (pos + keyBitsLen)
          valueMeta := unwords (slice buf (lens + 12 + keyMetaLen * 4) (valueMetaLen * 4))
          numTokens := rdU32 buf 0
          numKvHeads := rdU32 buf 4
          headDim := rdU32 buf 8
          modality := if withModality then .fromU8 (buf.getD 12 0) else .text
          channelAlloc := none }

def parseLegacyWithModality (buf : List UInt8) : Except String CompressedKvBlock :=
  if buf.length < 25 ∨ 2 < buf.getD 12 0 then .error "not legacy-A"
  else parseLegacyInner buf true

def parseLegacyWithoutModality (buf : List UInt8) : Except String CompressedKvBlock :=
  if buf.length < 24 then .error "too short" else parseLegacyInner buf false

def fromBytes (buf : List UInt8) : Except String CompressedKvBlock :=
  if 5 ≤ buf.length ∧ buf.take 4 = magic then
    let version := buf.getD 4 0
    if version = 2 then parseV2 (buf.drop 5)
    else if version = 3 then parseV3 (buf.drop 5)
    else .error s!"CompressedKvBlock::from_bytes: unsupported format version {version}"
  else
    match parseLegacyWithModality buf with
    | .ok b => .ok b
    | .error _ => match parseLegacyWithoutModality buf with
      | .ok b => .ok b
      | .error _ => .error
        s!"CompressedKvBlock::from_bytes: malformed legacy buffer ({buf.length} bytes)"

/-- The groups are whole, and each head has a width for each of them. -/
structure WholeGroups (a : ChannelBitAllocation) : Prop where
  dvd : a.groupSize ∣ a.headDim
  keyRows : a.keyBits.length = a.numKvHeads
  valueRows : a.valueBits.length = a.numKvHeads
  keyGroups : ∀ row ∈ a.keyBits, row.length = a.headDim / a.groupSize
  valueGroups : ∀ row ∈ a.valueBits, row.length = a.headDim / a.groupSize

structure FitsU32 (b : CompressedKvBlock) : Prop where
  numTokens : b.numTokens < 2 ^ 32
  numKvHeads : b.numKvHeads < 2 ^ 32
  headDim : b.headDim < 2 ^ 32
  keyMeta : b.keyMeta.length < 2 ^ 32
  valueMeta : b.valueMeta.length < 2 ^ 32
  keyBits : b.keyBits.length < 2 ^ 32
  valueBits : b.valueBits.length < 2 ^ 32

@[simp] theorem length_u32 (n : ℕ) : (u32 n).length = 4 := length_word _

theorem toNat_ofWord_u32 {n : ℕ} (h : n < 2 ^ 32) : (ofWord (u32 n)).toNat = n := by
  rw [u32, ofWord_word, UInt32.toNat_ofNat', Nat.mod_eq_of_lt h]

section Core

variable {b : CompressedKvBlock} (rest : List UInt8)

theorem length_core : b.core.flatten.length =
    hdr + b.keyMeta.length * 4 + b.valueMeta.length * 4 + b.keyBits.length
      + b.valueBits.length := by
  simp only [core, hdr, length_flatten, map_cons, map_nil, sum_cons,
    sum_nil, length_u32, length_words, length_cons, length_nil]
  omega

theorem rdU32_core {n : ℕ} (hn : n < 2 ^ 32) (i : ℕ) {off : ℕ} (hi : i < b.core.length)
    (hsec : b.core[i] = u32 n) (hoff : ((b.core.take i).map List.length).sum = off) :
    rdU32 (b.core.flatten ++ rest) off = n := by
  rw [rdU32, slice_flatten b.core i rest hi hoff (by rw [hsec, length_u32]), hsec,
    toNat_ofWord_u32 hn]

theorem modality_core : KvModality.fromU8 ((b.core.flatten ++ rest).getD 12 0) = b.modality := by
  have hsec : slice (b.core.flatten ++ rest) 12 1 = [b.modality.asU8] :=
    slice_flatten b.core 3 rest (by simp [core]) (by simp [core]) (by simp [core])
  have hget : (b.core.flatten ++ rest)[12]? = some b.modality.asU8 := by
    have h0 := congrArg (fun bs : List UInt8 => bs[0]?) hsec
    simpa [slice, core] using h0
  rw [getD_eq_getElem?_getD, hget, Option.getD_some, KvModality.fromU8_asU8]

theorem parseV2Core_core (h : FitsU32 b) :
    parseV2Core (b.core.flatten ++ rest) =
      .ok ({ b with channelAlloc := none }, b.core.flatten.length) := by
  set body := b.core.flatten ++ rest with hbody
  have htokens : rdU32 body 0 = b.numTokens :=
    rdU32_core rest h.numTokens 0 (by simp [core]) rfl (by simp)
  have hheads : rdU32 body 4 = b.numKvHeads :=
    rdU32_core rest h.numKvHeads 1 (by simp [core]) rfl (by simp [core])
  have hdim : rdU32 body 8 = b.headDim :=
    rdU32_core rest h.headDim 2 (by simp [core]) rfl (by simp [core])
  have hkm : rdU32 body 13 = b.keyMeta.length :=
    rdU32_core rest h.keyMeta 4 (by simp [core]) rfl (by simp [core])
  have hvm : rdU32 body 17 = b.valueMeta.length :=
    rdU32_core rest h.valueMeta 5 (by simp [core]) rfl (by simp [core])
  have hkb : rdU32 body 21 = b.keyBits.length :=
    rdU32_core rest h.keyBits 6 (by simp [core]) rfl (by simp [core])
  have hvb : rdU32 body 25 = b.valueBits.length :=
    rdU32_core rest h.valueBits 7 (by simp [core]) rfl (by simp [core])
  have hkeyMeta : slice body hdr (b.keyMeta.length * 4) = words b.keyMeta :=
    slice_flatten b.core 8 rest (by simp [core]) (by simp [core, hdr]) (by simp [core])
  have hvalueMeta : slice body (hdr + b.keyMeta.length * 4) (b.valueMeta.length * 4) =
      words b.valueMeta :=
    slice_flatten b.core 9 rest (by simp [core]) (by simp [core, hdr]; omega) (by simp [core])
  have hkeyBits : slice body (hdr + b.keyMeta.length * 4 + b.valueMeta.length * 4)
      b.keyBits.length = b.keyBits :=
    slice_flatten b.core 10 rest (by simp [core]) (by simp [core, hdr]; omega) (by simp [core])
  have hvalueBits : slice body (hdr + b.keyMeta.length * 4 + b.valueMeta.length * 4
      + b.keyBits.length) b.valueBits.length = b.valueBits :=
    slice_flatten b.core 11 rest (by simp [core]) (by simp [core, hdr]; omega) (by simp [core])
  have hlen : b.core.flatten.length ≤ body.length := by simp [hbody]
  have hcore : b.core.flatten.length = _ := length_core
  rw [parseV2Core, if_neg (by omega)]
  have hmodality : KvModality.fromU8 (body.getD 12 0) = b.modality := modality_core rest
  simp only [htokens, hheads, hdim, hkm, hvm, hkb, hvb, hkeyMeta, hvalueMeta, hkeyBits,
    hvalueBits, hmodality, unwords_words]
  rw [if_neg (by omega), hcore]

end Core

theorem readRows_flatten {g : ℕ} (post : List UInt8) : ∀ (rows : List (List UInt8))
    (pre : List UInt8), (∀ row ∈ rows, row.length = g) →
      readRows (pre ++ rows.flatten ++ post) g pre.length rows.length = rows
  | [], _, _ => rfl
  | row :: rows, pre, h => by
    have hrow : row.length = g := h row (by simp)
    have hfirst : slice (pre ++ (row :: rows).flatten ++ post) pre.length g = row := by
      have hassoc : pre ++ (row :: rows).flatten ++ post =
          pre ++ row ++ (rows.flatten ++ post) := by simp
      rw [hassoc, slice_append rfl hrow]
    have hrest := readRows_flatten post rows (pre ++ row) fun r hr => h r (by simp [hr])
    have hsplit : pre ++ (row :: rows).flatten ++ post = pre ++ row ++ rows.flatten ++ post := by
      simp
    rw [length_cons, readRows, hfirst, hsplit]
    rw [length_append, hrow] at hrest
    rw [hrest]

theorem length_readRows (tail : List UInt8) (g : ℕ) : ∀ pos n,
    (readRows tail g pos n).length = n
  | _, 0 => rfl
  | pos, n + 1 => by rw [readRows, length_cons, length_readRows tail g (pos + g) n]

theorem length_of_mem_readRows {tail : List UInt8} {g : ℕ} : ∀ {pos n : ℕ},
    pos + n * g ≤ tail.length → ∀ row ∈ readRows tail g pos n, row.length = g
  | _, 0, _ => fun row hrow => absurd hrow not_mem_nil
  | pos, n + 1, h => by
    rw [Nat.succ_mul] at h
    intro row hrow
    rw [readRows, mem_cons] at hrow
    rcases hrow with rfl | hrow
    · rw [length_slice]
      omega
    · exact length_of_mem_readRows (by omega) row hrow

section Alloc

variable {a : ChannelBitAllocation}

theorem length_flatten_rows {rows : List (List UInt8)} {g : ℕ} (h : ∀ row ∈ rows, row.length = g) :
    rows.flatten.length = rows.length * g := by
  rw [length_flatten, map_congr_left h, map_const', sum_replicate_nat]

theorem length_allocBytes (h : WholeGroups a) :
    (allocBytes a).length = 12 + 2 * a.numKvHeads * (a.headDim / a.groupSize) := by
  simp only [allocBytes, length_append, length_u32, length_flatten_rows h.keyGroups,
    length_flatten_rows h.valueGroups, h.keyRows, h.valueRows]
  ring

variable {b : CompressedKvBlock}

def allocHeader (a : ChannelBitAllocation) : List (List UInt8) :=
  [u32 a.numKvHeads, u32 a.headDim, u32 a.groupSize]

theorem rdU32_alloc {n : ℕ} (hn : n < 2 ^ 32) (rest : List UInt8) (i : ℕ) {off : ℕ}
    (hi : i < (allocHeader a).length) (hsec : (allocHeader a)[i] = u32 n)
    (hoff : (((allocHeader a).take i).map List.length).sum = off) :
    rdU32 (allocBytes a ++ rest) off = n := by
  have hsplit : allocBytes a ++ rest =
      (allocHeader a).flatten ++ (a.keyBits.flatten ++ (a.valueBits.flatten ++ rest)) := by
    simp [allocBytes, allocHeader]
  rw [rdU32, hsplit, slice_flatten _ i _ hi hoff (by rw [hsec, length_u32]), hsec,
    toNat_ofWord_u32 hn]

theorem matchesGeometry_iff {numKvHeads headDim : ℕ} :
    a.matchesGeometry numKvHeads headDim ↔
      a.numKvHeads = numKvHeads ∧ a.headDim = headDim ∧ a.groupSize = 32 := by
  rw [ChannelBitAllocation.matchesGeometry, Bool.and_eq_true, Bool.and_eq_true, decide_eq_true_eq,
    decide_eq_true_eq, decide_eq_true_eq, and_assoc]
  rfl

/-- The allocation that a tail gives `a`'s heads and channels. -/
def readAlloc (tail : List UInt8) (a : ChannelBitAllocation) : ChannelBitAllocation :=
  let groups := a.headDim / a.groupSize
  { a with
    keyBits := readRows tail groups 12 a.numKvHeads
    valueBits := readRows tail groups (12 + a.numKvHeads * groups) a.numKvHeads }

theorem parseV3_eq_ok_iff (hfits : FitsU32 b) (hgeo : a.matchesGeometry b.numKvHeads b.headDim)
    (rest : List UInt8) (b' : CompressedKvBlock) :
    parseV3 (b.core.flatten ++ (allocBytes a ++ rest)) = .ok b' ↔ a.groupSize ∣ a.headDim ∧
      (allocBytes a ++ rest).length = 12 + 2 * a.numKvHeads * (a.headDim / a.groupSize) ∧
        { b with channelAlloc := some (readAlloc (allocBytes a ++ rest) a) } = b' := by
  obtain ⟨hkvh, hhd, hgs⟩ := matchesGeometry_iff.1 hgeo
  set tail := allocBytes a ++ rest with htail
  have hheads : rdU32 tail 0 = a.numKvHeads :=
    rdU32_alloc (hkvh ▸ hfits.numKvHeads) rest 0 (by simp [allocHeader]) rfl (by simp)
  have hdim : rdU32 tail 4 = a.headDim :=
    rdU32_alloc (hhd ▸ hfits.headDim) rest 1 (by simp [allocHeader]) rfl (by simp [allocHeader])
  have hgroup : rdU32 tail 8 = a.groupSize :=
    rdU32_alloc (by omega) rest 2 (by simp [allocHeader]) rfl (by simp [allocHeader])
  have htailLen : 12 ≤ tail.length := by
    simp only [htail, allocBytes, length_append, length_u32]
    omega
  unfold parseV3
  rw [parseV2Core_core _ hfits]
  simp only [bind, Except.bind, drop_left, hheads, hdim, hgroup]
  rw [if_neg (by omega)]
  by_cases hdvd : a.groupSize ∣ a.headDim
  · have hmod := Nat.mod_eq_zero_of_dvd hdvd
    rw [if_neg (by omega)]
    by_cases hlen : tail.length = 12 + 2 * a.numKvHeads * (a.headDim / a.groupSize)
    · rw [if_neg (not_not.2 hlen)]
      simp [hdvd, hlen, readAlloc]
    · rw [if_pos hlen]
      simp [hlen]
  · have hmod := mt Nat.dvd_of_mod_eq_zero hdvd
    rw [if_pos (.inr (.inl hmod))]
    simp [hdvd]

theorem readAlloc_allocBytes (h : WholeGroups a) (rest : List UInt8) :
    readAlloc (allocBytes a ++ rest) a = a := by
  have hhead : (allocHeader a).flatten.length = 12 := by simp [allocHeader]
  have hkeys := readRows_flatten (a.valueBits.flatten ++ rest) a.keyBits (allocHeader a).flatten
    h.keyGroups
  have hvalues := readRows_flatten rest a.valueBits ((allocHeader a).flatten ++ a.keyBits.flatten)
    h.valueGroups
  have hbehind : ((allocHeader a).flatten ++ a.keyBits.flatten).length =
      12 + a.numKvHeads * (a.headDim / a.groupSize) := by
    rw [length_append, length_flatten_rows h.keyGroups, h.keyRows, hhead]
  rw [hhead, h.keyRows] at hkeys
  rw [hbehind, h.valueRows] at hvalues
  have hsplit : allocBytes a ++ rest =
      (allocHeader a).flatten ++ a.keyBits.flatten ++ (a.valueBits.flatten ++ rest) := by
    simp [allocBytes, allocHeader]
  have hkeyBits : readRows (allocBytes a ++ rest) (a.headDim / a.groupSize) 12 a.numKvHeads =
      a.keyBits := by rw [hsplit, hkeys]
  have hvalueBits : readRows (allocBytes a ++ rest) (a.headDim / a.groupSize)
      (12 + a.numKvHeads * (a.headDim / a.groupSize)) a.numKvHeads = a.valueBits := by
    rw [hsplit, ← append_assoc, hvalues]
  simp only [readAlloc, hkeyBits, hvalueBits]

theorem WholeGroups.of_readAlloc {tail : List UInt8} (hdvd : a.groupSize ∣ a.headDim)
    (hlen : tail.length = 12 + 2 * a.numKvHeads * (a.headDim / a.groupSize))
    (hsame : readAlloc tail a = a) : WholeGroups a := by
  have hkeys := congrArg ChannelBitAllocation.keyBits hsame
  have hvalues := congrArg ChannelBitAllocation.valueBits hsame
  have htwice : 2 * a.numKvHeads * (a.headDim / a.groupSize) =
      a.numKvHeads * (a.headDim / a.groupSize) + a.numKvHeads * (a.headDim / a.groupSize) := by
    ring
  refine ⟨hdvd, ?_, ?_, ?_, ?_⟩
  · rw [← hkeys]
    exact length_readRows _ _ _ _
  · rw [← hvalues]
    exact length_readRows _ _ _ _
  · rw [← hkeys]
    exact length_of_mem_readRows (by omega)
  · rw [← hvalues]
    exact length_of_mem_readRows (by omega)

end Alloc

theorem parseV2_core {b : CompressedKvBlock} (h : FitsU32 b) (halloc : b.channelAlloc = none)
    (rest : List UInt8) :
    parseV2 (b.core.flatten ++ rest) =
      if rest = [] then .ok b
      else .error (v2Mismatch b.core.flatten.length (b.core.flatten.length + rest.length)) := by
  unfold parseV2
  rw [parseV2Core_core _ h, length_append]
  simp only [bind, Except.bind]
  by_cases hrest : rest = []
  · rw [if_pos hrest, if_neg (by simp [hrest]), ← halloc]
  · have hpos := length_pos_iff.2 hrest
    rw [if_neg hrest, if_pos (by omega)]

theorem fromBytes_magic (v : UInt8) (body : List UInt8) :
    fromBytes (magic ++ [v] ++ body) =
      if v = 2 then parseV2 body
      else if v = 3 then parseV3 body
      else .error s!"CompressedKvBlock::from_bytes: unsupported format version {v}" := by
  rw [fromBytes, if_pos ⟨by simp [magic], by simp [magic]⟩]
  rfl

theorem fromBytes_plain {b : CompressedKvBlock} (h : FitsU32 b) (halloc : b.channelAlloc = none)
    (rest : List UInt8) : fromBytes (b.toBytes ++ rest) =
      if rest = [] then .ok b else .error (v2Mismatch b.core.flatten.length
        (b.core.flatten.length + rest.length)) := by
  have hbytes : b.toBytes ++ rest = magic ++ [2] ++ (b.core.flatten ++ rest) := by
    simp [toBytes, version, halloc]
  rw [hbytes, fromBytes_magic, if_pos rfl, parseV2_core h halloc]

/-- What `toBytes` writes is read back as the block, with nothing behind it taken, exactly where the
allocation's groups are whole. -/
theorem fromBytes_toBytes_iff (b : CompressedKvBlock) (hfits : FitsU32 b)
    (hgeo : ∀ a ∈ b.channelAlloc, a.matchesGeometry b.numKvHeads b.headDim) :
    (fromBytes b.toBytes = .ok b ∧
      ∀ rest, rest ≠ [] → ∃ e, fromBytes (b.toBytes ++ rest) = .error e) ↔
        ∀ a ∈ b.channelAlloc, WholeGroups a := by
  rcases ha : b.channelAlloc with _ | a
  · refine iff_of_true ⟨?_, fun rest hrest => ?_⟩ (by simp)
    · rw [← append_nil b.toBytes, fromBytes_plain hfits ha, if_pos rfl]
    · rw [fromBytes_plain hfits ha, if_neg hrest]
      exact ⟨_, rfl⟩
  · have hbytes : ∀ rest, fromBytes (b.toBytes ++ rest) =
        parseV3 (b.core.flatten ++ (allocBytes a ++ rest)) := by
      intro rest
      have hsplit : b.toBytes ++ rest =
          magic ++ [3] ++ (b.core.flatten ++ (allocBytes a ++ rest)) := by
        simp [toBytes, version, ha]
      rw [hsplit, fromBytes_magic, if_neg (by decide), if_pos rfl]
    have hread := parseV3_eq_ok_iff hfits (hgeo a ha)
    have hwhole : fromBytes b.toBytes = .ok b ↔
        parseV3 (b.core.flatten ++ (allocBytes a ++ [])) = .ok b := by
      rw [← hbytes, append_nil]
    have hput : ∀ tail, readAlloc tail a = a ↔
        { b with channelAlloc := some (readAlloc tail a) } = b := by
      intro tail
      refine ⟨fun h => by rw [h, ← ha], fun h => ?_⟩
      exact Option.some.inj ((congrArg channelAlloc h).trans ha)
    constructor
    · rintro ⟨hok, -⟩ a' hmem
      obtain rfl := Option.some.inj hmem
      obtain ⟨hdvd, hlen, hsame⟩ := (hread [] b).1 (hwhole.1 hok)
      exact .of_readAlloc hdvd hlen ((hput _).2 hsame)
    · intro hall
      have hw := hall a rfl
      refine ⟨hwhole.2 ((hread [] b).2 ⟨hw.dvd, ?_, (hput _).1 (readAlloc_allocBytes hw [])⟩),
        fun rest hrest => ?_⟩
      · rw [append_nil, length_allocBytes hw]
      · rcases hresult : fromBytes (b.toBytes ++ rest) with e | b'
        · exact ⟨e, rfl⟩
        · rw [hbytes] at hresult
          have hlen := ((hread rest b').1 hresult).2.1
          have hpos := length_pos_iff.2 hrest
          rw [length_append, length_allocBytes hw] at hlen
          omega

/-- Two heads of two groups, an empty table and a NaN among the scales. -/
def sampleBlock : CompressedKvBlock :=
  { keyBits := [1, 2, 3], keyMeta := [0x3F800000, 0x7FC00001], valueBits := [], valueMeta := []
    numTokens := 1, numKvHeads := 2, headDim := 64, modality := .visual
    channelAlloc := some
      { numKvHeads := 2, headDim := 64, groupSize := 32, keyBits := [[2, 4], [4, 8]]
        valueBits := [[3, 3], [5, 0]] } }

theorem fitsU32_sampleBlock : FitsU32 sampleBlock := by
  constructor
  all_goals decide

theorem wholeGroups_sampleBlock : ∀ a ∈ sampleBlock.channelAlloc, WholeGroups a := by
  rintro a ⟨⟩
  exact ⟨by decide, rfl, rfl, by decide, by decide⟩

theorem fromBytes_toBytes_iff_sampleBlock :
    FitsU32 sampleBlock ∧ (∀ a ∈ sampleBlock.channelAlloc, a.matchesGeometry 2 64) ∧
      fromBytes sampleBlock.toBytes = .ok sampleBlock :=
  ⟨fitsU32_sampleBlock, by decide, ((fromBytes_toBytes_iff sampleBlock fitsU32_sampleBlock
    (by decide)).2 wholeGroups_sampleBlock).1⟩

def narrowBlock : CompressedKvBlock :=
  { keyBits := [1], keyMeta := [0x3F800000], valueBits := [2], valueMeta := [0, 0x3F800000]
    numTokens := 1, numKvHeads := 1, headDim := 2, modality := .text
    channelAlloc := some
      { numKvHeads := 1, headDim := 2, groupSize := 32, keyBits := [[4]], valueBits := [[4]] } }

/-- The writer has a byte for the group that is not whole, and the reader refuses it. -/
theorem narrowBlock_refused : FitsU32 narrowBlock ∧
    (∀ a ∈ narrowBlock.channelAlloc, a.matchesGeometry narrowBlock.numKvHeads narrowBlock.headDim) ∧
      fromBytes narrowBlock.toBytes =
        .error "v3 allocation geometry mismatch: alloc 1x2/g32 vs block 1x2" := by
  refine ⟨?_, by decide, by decide +kernel⟩
  constructor
  all_goals decide

end CompressedKvBlock

namespace IdentityCompressor

/-- `keys` and `values` have the shape `[numTokens, numKvHeads, headDim]`. -/
def compress (numTokens numKvHeads headDim : ℕ) (keys values : List UInt32) :
    CompressedKvBlock where
  keyBits := words keys
  keyMeta := []
  valueBits := words values
  valueMeta := []
  numTokens := numTokens
  numKvHeads := numKvHeads
  headDim := headDim
  modality := .text
  channelAlloc := none

def dequantizeForAttention (block : CompressedKvBlock) : List UInt32 × List UInt32 :=
  (unwords block.keyBits, unwords block.valueBits)

variable {numTokens numKvHeads headDim : ℕ} {keys values : List UInt32}

theorem compress_fits (htokens : numTokens < 2 ^ 32) (hheads : numKvHeads < 2 ^ 32)
    (hdim : headDim < 2 ^ 32) (hkeys : keys.length < 2 ^ 30) (hvalues : values.length < 2 ^ 30) :
    (compress numTokens numKvHeads headDim keys values).FitsU32 := by
  refine ⟨htokens, hheads, hdim, by simp [compress], by simp [compress], ?_, ?_⟩
  · rw [compress, length_words]
    omega
  · rw [compress, length_words]
    omega

theorem dequantize_compress (h : (compress numTokens numKvHeads headDim keys values).FitsU32) :
    (CompressedKvBlock.fromBytes (compress numTokens numKvHeads headDim keys values).toBytes).map
      dequantizeForAttention = .ok (keys, values) := by
  rw [← append_nil (compress numTokens numKvHeads headDim keys values).toBytes,
    CompressedKvBlock.fromBytes_plain h rfl, if_pos rfl]
  simp [Except.map, dequantizeForAttention, compress]

end IdentityCompressor

end Grim.KvQuant
