import Grim.KvQuant.Block
import Grim.Lib.Cursor

/-!
# A block from any bytes

The parser multiplies and adds lengths that it finds in the buffer.  Here each product, each sum and
each slice is checked.  The lengths of the sections stay far below 64 bits; the table of version 3
has a row for each head and a byte in it for each group, and their product does not.
-/

namespace Grim.KvQuant

open LittleEndian Slice Checked Cursor List

def rdU32At (body : List UInt8) : Cursor String ℕ := do
  let bytes ← advance body 4
  pure (ofWord bytes).toNat

/-- `f32::from_le_bytes` of the next four bytes. -/
def rdF32At (body : List UInt8) : Cursor String UInt32 := do
  let bytes ← advance body 4
  pure (ofWord bytes)

/-- The number at the position, or the end of the buffer in front of it. -/
def rdHeader (buf : List UInt8) : Cursor String ℕ := do
  need buf "truncated header" 4
  rdU32At buf

/-- What the sections take, from the position behind the header on. -/
def neededLength (pos keyMetaLen valueMetaLen keyBitsLen : ℕ) : Checked String ℕ := do
  let keyMetaBytes ← mul keyMetaLen 4
  let valueMetaPos ← add pos keyMetaBytes
  let valueMetaBytes ← mul valueMetaLen 4
  let keyBitsPos ← add valueMetaPos valueMetaBytes
  add keyBitsPos keyBitsLen

variable {buf : List UInt8} {pos : ℕ}

theorem rdU32_lt (buf : List UInt8) (pos : ℕ) : rdU32 buf pos < 2 ^ 32 := UInt32.toNat_lt _

theorem run_rdU32At (h : pos + 4 ≤ buf.length) (hroom : buf.length < 2 ^ 64) :
    (rdU32At buf).run pos = pure (rdU32 buf pos, pos + 4) := by
  rw [rdU32At, StateT.run_bind, run_advance h hroom]
  rfl

theorem run_rdHeader (h : pos + 4 ≤ buf.length) (hroom : buf.length + 4 < 2 ^ 64) :
    (rdHeader buf).run pos = pure (rdU32 buf pos, pos + 4) := by
  rw [rdHeader, StateT.run_bind, run_need hroom (by omega), if_neg (by omega)]
  exact run_rdU32At h (by omega)

theorem run_times_rdF32At (hroom : buf.length < 2 ^ 64) : ∀ (n : ℕ) {pos : ℕ},
    pos + n * 4 ≤ buf.length →
      (times (rdF32At buf) n).run pos = pure (unwords (slice buf pos (n * 4)), pos + n * 4)
  | 0, pos, _ => by simp [times, unwords]
  | n + 1, pos, h => by
    have hword : (slice buf pos 4).length = 4 := by
      rw [length_slice]
      omega
    have hfirst : (rdF32At buf).run pos = pure (ofWord (slice buf pos 4), pos + 4) := by
      rw [rdF32At, StateT.run_bind, run_advance (by omega) hroom]
      rfl
    have hsplit : slice buf pos ((n + 1) * 4) = slice buf pos 4 ++ slice buf (pos + 4) (n * 4) := by
      rw [← slice_add, Nat.succ_mul, Nat.add_comm]
    have hwords : unwords (slice buf pos 4 ++ slice buf (pos + 4) (n * 4)) =
        ofWord (slice buf pos 4) :: unwords (slice buf (pos + 4) (n * 4)) := by
      obtain ⟨a, b, c, d, hfour⟩ := length_eq_four.1 hword
      rw [hfour]
      rfl
    rw [times, StateT.run_bind, hfirst, pure_bind, StateT.run_bind,
      run_times_rdF32At hroom n (by omega), hsplit, hwords]
    simp only [pure_bind, StateT.run_pure]
    rw [Nat.add_assoc, Nat.succ_mul, Nat.add_comm 4]

theorem run_times_advance (hroom : buf.length < 2 ^ 64) (g : ℕ) : ∀ (n : ℕ) {pos : ℕ},
    pos + n * g ≤ buf.length →
      (times (advance buf g : Cursor String _) n).run pos =
        pure (CompressedKvBlock.readRows buf g pos n, pos + n * g)
  | 0, pos, _ => by simp [times, CompressedKvBlock.readRows]
  | n + 1, pos, h => by
    rw [Nat.succ_mul] at h
    rw [times, StateT.run_bind, run_advance (by omega) hroom, pure_bind, StateT.run_bind,
      run_times_advance hroom g n (by omega)]
    simp only [pure_bind, StateT.run_pure]
    rw [CompressedKvBlock.readRows, Nat.add_assoc, Nat.succ_mul, Nat.add_comm g]

theorem neededLength_eq {k v b : ℕ} (hpos : pos < 2 ^ 32) (hk : k < 2 ^ 32) (hv : v < 2 ^ 32)
    (hb : b < 2 ^ 32) : neededLength pos k v b = pure (pos + k * 4 + v * 4 + b) := by
  rw [neededLength, mul_eq (by omega), pure_bind, add_eq (by omega), pure_bind, mul_eq (by omega),
    pure_bind, add_eq (by omega), pure_bind, add_eq (by omega)]

theorem headD_slice_one (buf : List UInt8) (pos : ℕ) (b : UInt8) :
    (slice buf pos 1).headD b = buf.getD pos b := by
  rw [headD_eq_head?_getD, getD_eq_getElem?_getD, slice, head?_take,
    if_neg Nat.one_ne_zero, head?_drop]

namespace CompressedKvBlock

def parseV2CoreAt (body : List UInt8) : Checked String (CompressedKvBlock × ℕ) :=
  if body.length < hdr then
    throw "CompressedKvBlock::from_bytes: truncated v2 header"
  else
    (do
      let numTokens ← rdU32At body
      let numKvHeads ← rdU32At body
      let headDim ← rdU32At body
      let modality ← advance body 1
      let keyMetaLen ← rdU32At body
      let valueMetaLen ← rdU32At body
      let keyBitsLen ← rdU32At body
      let valueBitsLen ← rdU32At body
      let front ← StateT.lift (neededLength hdr keyMetaLen valueMetaLen keyBitsLen)
      let need ← StateT.lift (add front valueBitsLen)
      if body.length < need then
        Cursor.fail
          s!"CompressedKvBlock::from_bytes: truncated v2 (need {need}, have {body.length})"
      else do
        let keyMeta ← times (rdF32At body) keyMetaLen
        let valueMeta ← times (rdF32At body) valueMetaLen
        let keyBits ← advance body keyBitsLen
        let valueBits ← advance body valueBitsLen
        pure
          ({ keyBits, keyMeta, valueBits, valueMeta, numTokens, numKvHeads, headDim
             modality := .fromU8 (modality.headD 0)
             channelAlloc := none }, need) : Cursor String (CompressedKvBlock × ℕ)).run' 0

def parseV2At (body : List UInt8) : Checked String CompressedKvBlock := do
  let (block, need) ← parseV2CoreAt body
  if body.length ≠ need then
    throw (v2Mismatch need body.length)
  else pure block

def parseAllocAt (block : CompressedKvBlock) (tail : List UInt8) :
    Cursor String CompressedKvBlock := do
  let kvh ← rdU32At tail
  let hd ← rdU32At tail
  let gs ← rdU32At tail
  if gs = 0 ∨ hd % gs ≠ 0 ∨ kvh ≠ block.numKvHeads ∨ hd ≠ block.headDim then
    Cursor.fail (s!"v3 allocation geometry mismatch: alloc {kvh}x{hd}/g{gs} vs block " ++
      s!"{block.numKvHeads}x{block.headDim}")
  else do
    let groups := hd / gs
    let rows ← StateT.lift (mul 2 kvh)
    let bytes ← StateT.lift (mul rows groups)
    let want ← StateT.lift (add 12 bytes)
    if tail.length ≠ want then
      Cursor.fail (allocMismatch want tail.length)
    else do
      let keyBits ← times (advance tail groups) kvh
      let valueBits ← times (advance tail groups) kvh
      pure { block with
        channelAlloc := some
          { numKvHeads := kvh, headDim := hd, groupSize := gs, keyBits, valueBits } }

def parseV3At (body : List UInt8) : Checked String CompressedKvBlock := do
  let (block, headLen) ← parseV2CoreAt body
  let tail ← range body headLen body.length
  if tail.length < 12 then
    throw "CompressedKvBlock::from_bytes: truncated v3 allocation section"
  else (parseAllocAt block tail).run' 0

def parseLegacyInnerAt (buf : List UInt8) (withModality : Bool) :
    Checked String CompressedKvBlock :=
  (do
    let numTokens ← rdHeader buf
    let numKvHeads ← rdHeader buf
    let headDim ← rdHeader buf
    let modality ← if withModality then do
        let tag ← advance buf 1
        pure (KvModality.fromU8 (tag.headD 0))
      else pure .text
    let keyMetaLen ← rdHeader buf
    let valueMetaLen ← rdHeader buf
    let keyBitsLen ← rdHeader buf
    let pos ← get
    let need ← StateT.lift (neededLength pos keyMetaLen valueMetaLen keyBitsLen)
    if buf.length < need then
      Cursor.fail s!"truncated legacy (need {need}, have {buf.length})"
    else do
      let keyMeta ← times (rdF32At buf) keyMetaLen
      let valueMeta ← times (rdF32At buf) valueMetaLen
      let keyBits ← advance buf keyBitsLen
      let pos ← get
      let valueBits ← StateT.lift (range buf pos buf.length)
      pure
        { keyBits, keyMeta, valueBits, valueMeta, numTokens, numKvHeads, headDim, modality
          channelAlloc := none } : Cursor String CompressedKvBlock).run' 0

def parseLegacyWithModalityAt (buf : List UInt8) : Checked String CompressedKvBlock :=
  if buf.length < 25 ∨ 2 < buf.getD 12 0 then throw "not legacy-A"
  else parseLegacyInnerAt buf true

def parseLegacyWithoutModalityAt (buf : List UInt8) : Checked String CompressedKvBlock :=
  if buf.length < 24 then throw "too short" else parseLegacyInnerAt buf false

/-- `from_bytes` with its products, sums and slices checked. -/
def fromBytesChecked (buf : List UInt8) : Checked String CompressedKvBlock :=
  if 5 ≤ buf.length ∧ buf.take 4 = magic then
    let version := buf.getD 4 0
    if version = 2 then parseV2At (buf.drop 5)
    else if version = 3 then parseV3At (buf.drop 5)
    else throw s!"CompressedKvBlock::from_bytes: unsupported format version {version}"
  else
    tryCatch (parseLegacyWithModalityAt buf) fun _ =>
      tryCatch (parseLegacyWithoutModalityAt buf) fun _ =>
        throw s!"CompressedKvBlock::from_bytes: malformed legacy buffer ({buf.length} bytes)"

def coreLength (body : List UInt8) : ℕ :=
  hdr + rdU32 body 13 * 4 + rdU32 body 17 * 4 + rdU32 body 21 + rdU32 body 25

theorem run_parseV2CoreAt (hbuf : buf.length < 2 ^ 63) :
    (parseV2CoreAt buf).run = some (parseV2Core buf) := by
  rw [parseV2CoreAt, parseV2Core]
  split_ifs with hshort
  · rfl
  · have hdr_eq : hdr = 29 := rfl
    have hlen : 29 ≤ buf.length := by omega
    have hroom : buf.length < 2 ^ 64 := by omega
    have hk := rdU32_lt buf 13
    have hv := rdU32_lt buf 17
    have hb := rdU32_lt buf 21
    have hw := rdU32_lt buf 25
    simp (disch := omega) only [StateT.run'_eq, StateT.run_bind, run_rdU32At, run_advance,
      pure_bind, Nat.reduceAdd, Nat.zero_add, StateT.run_lift, neededLength_eq, add_eq]
    by_cases hneed : buf.length < hdr + rdU32 buf 13 * 4 + rdU32 buf 17 * 4 + rdU32 buf 21
        + rdU32 buf 25
    · rw [if_pos hneed, if_pos hneed]
      rfl
    · rw [if_neg hneed, if_neg hneed]
      simp only [hdr_eq] at hneed ⊢
      simp (disch := omega) only [StateT.run_bind, run_times_rdF32At, run_advance, pure_bind,
        StateT.run_pure, headD_slice_one]
      rfl

theorem run_parseV2At (hbuf : buf.length < 2 ^ 63) :
    (parseV2At buf).run = some (parseV2 buf) := by
  rw [parseV2At, parseV2, ExceptT.run_bind, run_parseV2CoreAt hbuf]
  rcases parseV2Core buf with e | ⟨block, need⟩
  · rfl
  · change (if buf.length ≠ need then _ else _ : Checked String _).run = some (if _ then _ else _)
    split_ifs <;> rfl

theorem run_parseLegacyInnerAt {withModality : Bool} (hbuf : buf.length < 2 ^ 63)
    (hlong : (if withModality then 13 else 12) + 12 ≤ buf.length) :
    (parseLegacyInnerAt buf withModality).run = some (parseLegacyInner buf withModality) := by
  rw [parseLegacyInnerAt, parseLegacyInner]
  rcases withModality with _ | _
  all_goals
    simp only [Bool.false_eq_true, if_true, if_false] at hlong ⊢
    have hk := fun pos => rdU32_lt buf pos
    simp (disch := first | omega | exact hk _) only [StateT.run'_eq, StateT.run_bind,
      run_rdHeader, run_advance, pure_bind, Nat.reduceAdd, Nat.zero_add, StateT.run_lift,
      StateT.run_get, neededLength_eq, headD_slice_one]
    rw [if_neg (by omega : ¬buf.length < _ + 12)]
    split_ifs
    · rfl
    · simp (disch := omega) only [StateT.run_bind, run_times_rdF32At, run_advance, pure_bind,
        StateT.run_get, StateT.run_lift, range_drop]
      rfl

/-- The table is read, and takes more than a 64-bit number says. -/
structure TableOverflows (body : List UInt8) : Prop where
  room : coreLength body + 12 ≤ body.length
  numKvHeads : rdU32 (body.drop (coreLength body)) 0 = rdU32 body 4
  headDim : rdU32 (body.drop (coreLength body)) 4 = rdU32 body 8
  groupSize_pos : 0 < rdU32 (body.drop (coreLength body)) 8
  dvd : rdU32 (body.drop (coreLength body)) 8 ∣ rdU32 body 8
  passes : 2 ^ 64 ≤ 12 + 2 * rdU32 body 4 * (rdU32 body 8 / rdU32 (body.drop (coreLength body)) 8)

theorem parseV2Core_cases (body : List UInt8) :
    (∃ e, parseV2Core body = .error e ∧ body.length < coreLength body) ∨
      ∃ block, parseV2Core body = .ok (block, coreLength body) ∧ coreLength body ≤ body.length ∧
        block.numKvHeads = rdU32 body 4 ∧ block.headDim = rdU32 body 8 := by
  rw [parseV2Core]
  by_cases hshort : body.length < hdr
  · rw [if_pos hshort]
    refine .inl ⟨_, rfl, ?_⟩
    rw [coreLength]
    omega
  · rw [if_neg hshort]
    by_cases hneed : body.length < coreLength body
    · exact .inl ⟨_, if_pos hneed, hneed⟩
    · exact .inr ⟨_, if_neg hneed, Nat.not_lt.1 hneed, rfl, rfl⟩

def GeometryMatches (block : CompressedKvBlock) (tail : List UInt8) : Prop :=
  ¬(rdU32 tail 8 = 0 ∨ rdU32 tail 4 % rdU32 tail 8 ≠ 0 ∨ rdU32 tail 0 ≠ block.numKvHeads ∨
    rdU32 tail 4 ≠ block.headDim)

def tableLength (tail : List UInt8) : ℕ :=
  12 + 2 * rdU32 tail 0 * (rdU32 tail 4 / rdU32 tail 8)

section Alloc

variable {block : CompressedKvBlock} {tail : List UInt8}

/-- What `parseV3` does behind the core. -/
def parseAlloc (block : CompressedKvBlock) (tail : List UInt8) : Except String CompressedKvBlock :=
  let kvh := rdU32 tail 0
  let hd := rdU32 tail 4
  let gs := rdU32 tail 8
  if gs = 0 ∨ hd % gs ≠ 0 ∨ kvh ≠ block.numKvHeads ∨ hd ≠ block.headDim then
    .error (s!"v3 allocation geometry mismatch: alloc {kvh}x{hd}/g{gs} vs block " ++
      s!"{block.numKvHeads}x{block.headDim}")
  else
    let groups := hd / gs
    if tail.length ≠ tableLength tail then
      .error (allocMismatch (tableLength tail) tail.length)
    else
      .ok { block with
        channelAlloc := some
          { numKvHeads := kvh
            headDim := hd
            groupSize := gs
            keyBits := readRows tail groups 12 kvh
            valueBits := readRows tail groups (12 + kvh * groups) kvh } }

theorem parseV3_eq (body : List UInt8) : parseV3 body = (do
    let (block, headLen) ← parseV2Core body
    if (body.drop headLen).length < 12 then
      .error "CompressedKvBlock::from_bytes: truncated v3 allocation section"
    else parseAlloc block (body.drop headLen)) := rfl

theorem run_parseAllocAt (hroom : tail.length < 2 ^ 63) (hlong : 12 ≤ tail.length)
    (hfits : GeometryMatches block tail → tableLength tail < 2 ^ 64) :
    ((parseAllocAt block tail).run' 0).run = some (parseAlloc block tail) := by
  rw [parseAllocAt, parseAlloc]
  simp (disch := omega) only [StateT.run'_eq, StateT.run_bind, run_rdU32At, pure_bind,
    Nat.reduceAdd, Nat.zero_add]
  by_cases hgeo : rdU32 tail 8 = 0 ∨ rdU32 tail 4 % rdU32 tail 8 ≠ 0 ∨
      rdU32 tail 0 ≠ block.numKvHeads ∨ rdU32 tail 4 ≠ block.headDim
  · rw [if_pos hgeo, if_pos hgeo]
    rfl
  · have hlt := hfits hgeo
    have hheads := rdU32_lt tail 0
    rw [if_neg hgeo, if_neg hgeo]
    rw [tableLength] at hlt ⊢
    generalize rdU32 tail 4 / rdU32 tail 8 = groups at hlt ⊢
    simp (disch := omega) only [StateT.run_bind, StateT.run_lift, mul_eq, add_eq, pure_bind]
    by_cases hlen : tail.length ≠ 12 + 2 * rdU32 tail 0 * groups
    · rw [if_pos hlen, if_pos hlen]
      rfl
    · have hrows : 2 * rdU32 tail 0 * groups = rdU32 tail 0 * groups + rdU32 tail 0 * groups := by
        ring
      rw [hrows] at hlen
      rw [if_neg (by rwa [hrows]), if_neg (by rwa [hrows])]
      simp (disch := omega) only [StateT.run_bind, run_times_advance, pure_bind, StateT.run_pure]
      rfl

theorem parseAllocAt_fault (hroom : tail.length < 2 ^ 63) (hlong : 12 ≤ tail.length)
    (hgeo : GeometryMatches block tail) (hpasses : 2 ^ 64 ≤ tableLength tail) :
    ((parseAllocAt block tail).run' 0).run = none := by
  have hheads := rdU32_lt tail 0
  rw [parseAllocAt]
  rw [tableLength] at hpasses
  simp (disch := omega) only [StateT.run'_eq, StateT.run_bind, run_rdU32At, pure_bind,
    Nat.reduceAdd, Nat.zero_add]
  rw [if_neg hgeo]
  generalize rdU32 tail 4 / rdU32 tail 8 = groups at hpasses ⊢
  by_cases hproduct : 2 * rdU32 tail 0 * groups < 2 ^ 64
  · simp (disch := omega) only [StateT.run_bind, StateT.run_lift, mul_eq, add_fault, pure_bind]
    rfl
  · simp (disch := omega) only [StateT.run_bind, StateT.run_lift, mul_eq, mul_fault, pure_bind]
    rfl

end Alloc

theorem tableOverflows_iff {body : List UInt8} {block : CompressedKvBlock}
    (hheads : block.numKvHeads = rdU32 body 4) (hdim : block.headDim = rdU32 body 8) :
    TableOverflows body ↔ coreLength body + 12 ≤ body.length ∧
      GeometryMatches block (body.drop (coreLength body)) ∧
        2 ^ 64 ≤ tableLength (body.drop (coreLength body)) := by
  rw [GeometryMatches, tableLength, hheads, hdim]
  simp only [not_or, not_not]
  constructor
  · rintro ⟨hroom, hkvh, hhd, hpos, hdvd, hpasses⟩
    rw [hkvh, hhd]
    exact ⟨hroom, ⟨by omega, Nat.mod_eq_zero_of_dvd hdvd, rfl, rfl⟩, hpasses⟩
  · rintro ⟨hroom, ⟨hpos, hmod, hkvh, hhd⟩, hpasses⟩
    rw [hkvh, hhd] at hpasses
    rw [hhd] at hmod
    exact ⟨hroom, hkvh, hhd, by omega, Nat.dvd_of_mod_eq_zero hmod, hpasses⟩

theorem run_parseV3At (hbuf : buf.length < 2 ^ 63) :
    (TableOverflows buf → (parseV3At buf).run = none) ∧
      (¬TableOverflows buf → (parseV3At buf).run = some (parseV3 buf)) := by
  rw [parseV3At, parseV3_eq, ExceptT.run_bind, run_parseV2CoreAt hbuf]
  rcases parseV2Core_cases buf with ⟨e, hcore, hshort⟩ | ⟨block, hcore, hle, hheads, hdim⟩
  · rw [hcore]
    refine ⟨fun h => absurd h.room (by omega), fun _ => rfl⟩
  · have htail : (buf.drop (coreLength buf)).length = buf.length - coreLength buf :=
      length_drop
    rw [hcore, tableOverflows_iff hheads hdim]
    change (_ → (range buf (coreLength buf) buf.length >>= _ : Checked String _).run = none) ∧
      (_ → (range buf (coreLength buf) buf.length >>= _ : Checked String _).run =
        some (if _ then _ else _))
    rw [range_drop hle, pure_bind]
    by_cases hlong : (buf.drop (coreLength buf)).length < 12
    · rw [if_pos hlong, if_pos hlong]
      exact ⟨fun h => absurd h.1 (by omega), fun _ => rfl⟩
    · rw [if_neg hlong, if_neg hlong]
      have hroom : (buf.drop (coreLength buf)).length < 2 ^ 63 := by omega
      refine ⟨fun h => parseAllocAt_fault hroom (by omega) h.2.1 h.2.2, fun h => ?_⟩
      refine run_parseAllocAt hroom (by omega) fun hgeo => ?_
      by_contra hpasses
      exact h ⟨by omega, hgeo, by omega⟩

def Overflows (buf : List UInt8) : Prop :=
  5 ≤ buf.length ∧ buf.take 4 = magic ∧ buf.getD 4 0 = 3 ∧ TableOverflows (buf.drop 5)

theorem run_fromBytesChecked (hbuf : buf.length < 2 ^ 63) :
    (Overflows buf → (fromBytesChecked buf).run = none) ∧
      (¬Overflows buf → (fromBytesChecked buf).run = some (fromBytes buf)) := by
  have hbody : (buf.drop 5).length < 2 ^ 63 := by
    rw [length_drop]
    omega
  rw [fromBytesChecked, fromBytes, Overflows]
  by_cases hmagic : 5 ≤ buf.length ∧ buf.take 4 = magic
  · rw [if_pos hmagic, if_pos hmagic]
    have hv3 := run_parseV3At hbody
    dsimp only
    split_ifs with htwo hthree
    · rw [run_parseV2At hbody, htwo]
      exact ⟨fun h => absurd h.2.2.1 (by decide), fun _ => rfl⟩
    · exact ⟨fun h => hv3.1 h.2.2.2, fun h => hv3.2 fun ht => h ⟨hmagic.1, hmagic.2, hthree, ht⟩⟩
    · exact ⟨fun h => absurd h.2.2.1 hthree, fun _ => rfl⟩
  · rw [if_neg hmagic, if_neg hmagic]
    refine ⟨fun h => absurd ⟨h.1, h.2.1⟩ hmagic, fun _ => ?_⟩
    have hfirst : (parseLegacyWithModalityAt buf).run = some (parseLegacyWithModality buf) := by
      rw [parseLegacyWithModalityAt, parseLegacyWithModality]
      split_ifs with hshort
      · rfl
      · exact run_parseLegacyInnerAt hbuf (by simpa using (not_or.1 hshort).1)
    have hsecond : (parseLegacyWithoutModalityAt buf).run =
        some (parseLegacyWithoutModality buf) := by
      rw [parseLegacyWithoutModalityAt, parseLegacyWithoutModality]
      split_ifs with hshort
      · rfl
      · exact run_parseLegacyInnerAt hbuf (by simpa using hshort)
    rw [run_tryCatch, hfirst]
    rcases parseLegacyWithModality buf with e | b
    · change (tryCatch (parseLegacyWithoutModalityAt buf) _ : Checked String _).run = _
      rw [run_tryCatch, hsecond]
      rcases parseLegacyWithoutModality buf with e' | b <;> rfl
    · rfl

def tableBytes (b : CompressedKvBlock) : ℕ :=
  (b.channelAlloc.map fun a => a.keyBits.flatten.length + a.valueBits.flatten.length).getD 0

/-- The sections have the lengths that stand from `off` on, and the bytes have room for them. -/
structure Accepts (bytes : List UInt8) (off : ℕ) (b : CompressedKvBlock) : Prop where
  keyMeta : b.keyMeta.length = rdU32 bytes off
  valueMeta : b.valueMeta.length = rdU32 bytes (off + 4)
  keyBits : b.keyBits.length = rdU32 bytes (off + 8)
  fit : off + 12 + b.keyMeta.length * 4 + b.valueMeta.length * 4 + b.keyBits.length
    + b.valueBits.length + b.tableBytes ≤ bytes.length

/-- The block is accepted behind the magic, or in one of the two layouts before it. -/
def FitsIn (buf : List UInt8) (b : CompressedKvBlock) : Prop :=
  (Accepts (buf.drop 5) 13 b ∧ b.valueBits.length = rdU32 (buf.drop 5) 25) ∨
    Accepts buf 13 b ∨ Accepts buf 12 b

theorem length_unwords_slice {bytes : List UInt8} {off n : ℕ} (h : off + n * 4 ≤ bytes.length) :
    (unwords (slice bytes off (n * 4))).length = n := by
  rw [length_unwords, length_slice]
  omega

theorem accepts_parseV2Core {body : List UInt8} {b : CompressedKvBlock} {need : ℕ}
    (h : parseV2Core body = .ok (b, need)) :
    Accepts body 13 b ∧ b.valueBits.length = rdU32 body 25 ∧ b.channelAlloc = none ∧
      need = coreLength body ∧ need ≤ body.length := by
  rw [parseV2Core] at h
  by_cases hshort : body.length < hdr
  · rw [if_pos hshort] at h
    cases h
  · rw [if_neg hshort] at h
    by_cases hneed : body.length < coreLength body
    · have herror : Except.error _ = _ := (if_pos hneed).symm.trans h
      cases herror
    · obtain ⟨rfl, rfl⟩ := Prod.mk.inj (Except.ok.inj ((if_neg hneed).symm.trans h))
      have hdr_eq : hdr = 29 := rfl
      rw [coreLength, hdr_eq] at hneed
      have hkeyMeta : (unwords (slice body hdr (rdU32 body 13 * 4))).length = rdU32 body 13 :=
        length_unwords_slice (by omega)
      have hvalueMeta : (unwords (slice body (hdr + rdU32 body 13 * 4)
          (rdU32 body 17 * 4))).length = rdU32 body 17 := length_unwords_slice (by omega)
      have hkeyBits : (slice body (hdr + rdU32 body 13 * 4 + rdU32 body 17 * 4)
          (rdU32 body 21)).length = rdU32 body 21 := by
        rw [length_slice]
        omega
      have hvalueBits : (slice body (hdr + rdU32 body 13 * 4 + rdU32 body 17 * 4
          + rdU32 body 21) (rdU32 body 25)).length = rdU32 body 25 := by
        rw [length_slice]
        omega
      refine ⟨⟨hkeyMeta, hvalueMeta, hkeyBits, ?_⟩, hvalueBits, rfl, rfl, ?_⟩
      · simp only [hkeyMeta, hvalueMeta, hkeyBits, hvalueBits, tableBytes, Option.map_none,
          Option.getD_none]
        omega
      · omega

theorem length_flatten_readRows (tail : List UInt8) (g : ℕ) : ∀ (n : ℕ) {pos : ℕ},
    pos + n * g ≤ tail.length → (readRows tail g pos n).flatten.length = n * g
  | 0, _, _ => by simp [readRows]
  | n + 1, pos, h => by
    rw [Nat.succ_mul] at h ⊢
    rw [readRows, flatten_cons, length_append, length_slice,
      length_flatten_readRows tail g n (by omega)]
    omega

theorem accepts_parseV3 {body : List UInt8} {b : CompressedKvBlock} (h : parseV3 body = .ok b) :
    Accepts body 13 b ∧ b.valueBits.length = rdU32 body 25 := by
  rw [parseV3_eq] at h
  rcases hcore : parseV2Core body with e | ⟨block, need⟩
  · rw [hcore] at h
    cases h
  · obtain ⟨haccepts, hvalueBits, hnone, rfl, hle⟩ := accepts_parseV2Core hcore
    rw [hcore] at h
    change (if _ then _ else _) = _ at h
    split_ifs at h with hshort
    rw [parseAlloc] at h
    dsimp only at h
    split_ifs at h with hgeo hlen
    obtain rfl := Except.ok.inj h
    refine ⟨⟨haccepts.keyMeta, haccepts.valueMeta, haccepts.keyBits, ?_⟩, hvalueBits⟩
    set tail := body.drop (coreLength body) with htail
    rw [not_not, tableLength] at hlen
    generalize rdU32 tail 4 / rdU32 tail 8 = groups at hlen ⊢
    have hrows : 2 * rdU32 tail 0 * groups = rdU32 tail 0 * groups + rdU32 tail 0 * groups := by
      ring
    have hkeys : (readRows tail groups 12 (rdU32 tail 0)).flatten.length = rdU32 tail 0 * groups :=
      length_flatten_readRows tail groups _ (by omega)
    have hvalues : (readRows tail groups (12 + rdU32 tail 0 * groups) (rdU32 tail 0)).flatten.length
        = rdU32 tail 0 * groups := length_flatten_readRows tail groups _ (by omega)
    have hlength : tail.length = body.length - coreLength body := length_drop
    have hkeyMeta : block.keyMeta.length = rdU32 body 13 := haccepts.keyMeta
    have hvalueMeta : block.valueMeta.length = rdU32 body 17 := haccepts.valueMeta
    have hkeyBits : block.keyBits.length = rdU32 body 21 := haccepts.keyBits
    simp only [tableBytes, Option.map_some, Option.getD_some, hkeys, hvalues]
    rw [coreLength, show hdr = 29 from rfl] at hlength hle
    omega

theorem accepts_parseLegacyInner {withModality : Bool} {b : CompressedKvBlock}
    (h : parseLegacyInner buf withModality = .ok b) :
    Accepts buf (if withModality then 13 else 12) b := by
  rw [parseLegacyInner] at h
  generalize (if withModality then 13 else 12 : ℕ) = lens at h ⊢
  generalize (if withModality then KvModality.fromU8 (buf.getD 12 0) else .text) = modality at h
  dsimp only at h
  split_ifs at h with hshort hneed
  obtain rfl := Except.ok.inj h
  have hkeyMeta : (unwords (slice buf (lens + 12) (rdU32 buf lens * 4))).length =
      rdU32 buf lens := length_unwords_slice (by omega)
  have hvalueMeta : (unwords (slice buf (lens + 12 + rdU32 buf lens * 4)
      (rdU32 buf (lens + 4) * 4))).length = rdU32 buf (lens + 4) :=
    length_unwords_slice (by omega)
  have hkeyBits : (slice buf (lens + 12 + rdU32 buf lens * 4 + rdU32 buf (lens + 4) * 4)
      (rdU32 buf (lens + 8))).length = rdU32 buf (lens + 8) := by
    rw [length_slice]
    omega
  refine ⟨hkeyMeta, hvalueMeta, hkeyBits, ?_⟩
  simp only [hkeyMeta, hvalueMeta, hkeyBits, tableBytes, Option.map_none, Option.getD_none,
    length_drop]
  omega

theorem fitsIn_of_fromBytes {b : CompressedKvBlock} (h : fromBytes buf = .ok b) : FitsIn buf b := by
  rw [fromBytes] at h
  split_ifs at h with hmagic
  · dsimp only at h
    split_ifs at h with htwo hthree
    · rw [parseV2] at h
      rcases hcore : parseV2Core (buf.drop 5) with e | ⟨block, need⟩
      · rw [hcore] at h
        cases h
      · obtain ⟨haccepts, hvalueBits, -⟩ := accepts_parseV2Core hcore
        rw [hcore] at h
        change (if _ then _ else _) = _ at h
        split_ifs at h
        obtain rfl := Except.ok.inj h
        exact .inl ⟨haccepts, hvalueBits⟩
    · exact .inl (accepts_parseV3 h)
  · rcases hfirst : parseLegacyWithModality buf with e | b'
    · rw [hfirst] at h
      rcases hsecond : parseLegacyWithoutModality buf with e' | b'
      · rw [hsecond] at h
        cases h
      · rw [hsecond] at h
        obtain rfl := Except.ok.inj h
        rw [parseLegacyWithoutModality] at hsecond
        split_ifs at hsecond
        exact .inr (.inr (accepts_parseLegacyInner hsecond))
    · rw [hfirst] at h
      obtain rfl := Except.ok.inj h
      rw [parseLegacyWithModality] at hfirst
      split_ifs at hfirst
      exact .inr (.inl (accepts_parseLegacyInner hfirst))

/-- Reading any buffer is safe, and what it accepts fits, unless the table of widths overflows. -/
theorem fromBytes_safe_iff (buf : Buffer) :
    ((fromBytesChecked buf.bytes).Safe ∧
        ∀ b, (fromBytesChecked buf.bytes).run = some (.ok b) → FitsIn buf.bytes b) ↔
      ¬Overflows buf.bytes := by
  obtain ⟨hfault, hread⟩ := run_fromBytesChecked buf.fits
  constructor
  · exact fun h hover => h.1 (hfault hover)
  · intro hover
    rw [hread hover]
    exact ⟨safe_of_run (hread hover),
      fun b hb => fitsIn_of_fromBytes (Option.some.inj hb)⟩

/-- No sections, and a table of `2^32 - 1` heads and as many groups. -/
def wideTable : Buffer :=
  ⟨magic ++ [3] ++ (u32 0 ++ u32 (2 ^ 32 - 1) ++ u32 (2 ^ 32 - 1) ++ [0] ++ u32 0 ++ u32 0 ++ u32 0
    ++ u32 0) ++ (u32 (2 ^ 32 - 1) ++ u32 (2 ^ 32 - 1) ++ u32 1), by decide⟩

/-- The number of the bytes of its table is above 64 bits. -/
theorem wideTable_overflows : ¬∀ buf : Buffer, (fromBytesChecked buf.bytes).Safe ∧
    ∀ b, (fromBytesChecked buf.bytes).run = some (.ok b) → FitsIn buf.bytes b := by
  intro hall
  have hover : Overflows wideTable.bytes :=
    ⟨by decide, by decide, by decide, by decide, by decide, by decide, by decide, by decide,
      by decide⟩
  exact (hall wideTable).1 ((run_fromBytesChecked wideTable.fits).1 hover)

end CompressedKvBlock

end Grim.KvQuant
