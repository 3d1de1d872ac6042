import Grim.Format.Outliers
import Grim.Lib.Cursor

/-!
# The attachment index of any bytes

The parser adds numbers it finds in the file to positions.  Here each sum and each slice is checked,
so that what overflows or reads out of bounds is `none`.
-/

namespace Grim.Format

open LittleEndian Reader Slice Checked Cursor

/-- `need`, and then the slice. -/
def neededAt (buf : List UInt8) (what : String) (n : ℕ) : Cursor String (List UInt8) := do
  need buf s!"truncated attachment index while reading {what}" n
  advance buf n

/-- The offset and the size, which are asked for together and taken apart. -/
def rangeAt (buf : List UInt8) : Cursor String (List UInt8 × List UInt8) := do
  need buf "truncated attachment index while reading offset/size" 16
  let offset ← advance buf 8
  let size ← advance buf 8
  pure (offset, size)

def attachmentEntryAt (buf : List UInt8) : Cursor String EmbeddedAttachment := do
  let kindLen ← neededAt buf "kind length" 2
  let kind ← neededAt buf "kind name" (value kindLen)
  let (offset, size) ← rangeAt buf
  let sha256 ← neededAt buf "sha256" 32
  pure
    { kind := Utf8.lossy kind
      offset := UInt64.ofNat (value offset)
      size := UInt64.ofNat (value size)
      sha256 }

def attachmentEntriesAt (buf : List UInt8) : Cursor String (List EmbeddedAttachment) := do
  need buf "truncated attachment index: no count" 4
  let countBytes ← advance buf 4
  if 16 < value countBytes then
    Cursor.fail (s!"attachment index declares {value countBytes} entries; " ++
      "more than 16 is corruption")
  else times (attachmentEntryAt buf) (value countBytes)

def parseTrailer (buf : List UInt8) (base : UInt64) (stored : ℕ) :
    Checked String (List EmbeddedAttachment) :=
  if stored < base.toNat then pure []
  else do
    let trailerEnd ← add stored 15
    let bufEnd ← add base.toNat buf.length
    if bufEnd < trailerEnd then pure []
    else do
      let ts := stored - base.toNat
      let magicEnd ← add ts 7
      let magic ← range buf ts magicEnd
      if magic ≠ attachmentMagic then pure []
      else do
        let (entries, _) ← (attachmentEntriesAt buf).run magicEnd
        pure entries

/-- `parse_attachment_index` with its sums and slices checked. -/
def parseAttachmentIndexChecked (buf : List UInt8) (base : UInt64) :
    Checked String (List EmbeddedAttachment) :=
  if buf.length < 15 then pure []
  else do
    let tail ← range buf (buf.length - 8) buf.length
    parseTrailer buf base (value tail)

/-- The attachment's bytes in a buffer that holds the whole file. -/
def attachmentBytesFromBuf (sha256Bytes : List UInt8 → List UInt8) (buf : List UInt8)
    (a : EmbeddedAttachment) : Checked String (List UInt8) := do
  let start := a.offset.toNat
  let stop ← add start a.size.toNat
  if buf.length < stop ∨ stop < start then
    throw (s!"attachment '{String.ofList a.kind}' range {start}..{stop} exceeds file length " ++
      s!"{buf.length}")
  else do
    let bytes ← range buf start stop
    if sha256Bytes bytes ≠ a.sha256 then
      throw s!"attachment '{String.ofList a.kind}' failed SHA-256 verification"
    else pure bytes

variable {buf : List UInt8}

theorem follows_needed {what : String} {n : ℕ} (hroom : buf.length + n < 2 ^ 64) :
    Follows buf (neededAt buf what n) (needed what n) := follows_exact hroom

theorem follows_range (hroom : buf.length + 16 < 2 ^ 64) :
    Follows buf (rangeAt buf)
      (do let r ← needed "offset/size" 16; pure (r.take 8, r.drop 8)) := by
  intro pos hpos
  have hexact : (do let r ← needed "offset/size" 16; pure (r.take 8, r.drop 8)
      : Reader String _).run (buf.drop pos) =
      ((needed "offset/size" 16).run (buf.drop pos)).map
        fun p => ((p.1.take 8, p.1.drop 8), p.2) := by
    rw [StateT.run_bind]
    rcases (needed "offset/size" 16).run (buf.drop pos) with e | p <;> rfl
  have hneeded : (needed "offset/size" 16).run (buf.drop pos) =
      if 16 ≤ (buf.drop pos).length then .ok ((buf.drop pos).take 16, (buf.drop pos).drop 16)
      else .error "truncated attachment index while reading offset/size" := rfl
  have hrun : (rangeAt buf).run pos =
      (need buf "truncated attachment index while reading offset/size" 16).run pos >>= fun p =>
        (advance buf 8).run p.2 >>= fun q => (advance buf 8).run q.2 >>= fun r =>
          pure ((q.1, r.1), r.2) := rfl
  rw [hexact, hneeded, hrun, run_need hroom hpos, List.length_drop, List.drop_drop]
  by_cases hn : pos + 16 ≤ buf.length
  · rw [if_pos (by omega), if_neg (Nat.not_lt.mpr hn)]
    refine .inr ⟨(slice buf pos 8, slice buf (pos + 8) 8), pos + 16, hn, ?_, ?_⟩
    · have hsplit : slice buf pos (8 + 8) = slice buf pos 8 ++ slice buf (pos + 8) 8 :=
        slice_add 8 8
      have hlen : (slice buf pos 8).length = 8 := by
        rw [length_slice]
        omega
      have hslice : (buf.drop pos).take 16 = slice buf pos (8 + 8) := rfl
      rw [hslice, hsplit]
      simp only [Except.map, List.take_left' hlen, List.drop_left' hlen]
    · rw [pure_bind, run_advance (by omega) (by omega), pure_bind,
        run_advance (by omega) (by omega), pure_bind]
  · rw [if_neg (by omega), if_pos (Nat.not_le.mp hn)]
    exact .inl ⟨_, rfl, rfl⟩

theorem readAttachmentEntry_eq : readAttachmentEntry = (do
    let kindLen ← needed "kind length" 2
    let kind ← needed "kind name" (value kindLen)
    let (offset, size) ← (do let r ← needed "offset/size" 16; pure (r.take 8, r.drop 8))
    let sha256 ← needed "sha256" 32
    pure
      { kind := Utf8.lossy kind
        offset := UInt64.ofNat (value offset)
        size := UInt64.ofNat (value size)
        sha256 }) := by
  simp only [readAttachmentEntry, bind_assoc, pure_bind]

theorem follows_entry (hroom : buf.length + 2 ^ 16 < 2 ^ 64) :
    Follows buf (attachmentEntryAt buf) readAttachmentEntry := by
  rw [readAttachmentEntry_eq]
  refine (follows_needed (by omega)).bind (Yields.exact _ _) fun kindLen hkindLen => ?_
  have hlt : value kindLen < 2 ^ 16 := by
    have := value_lt kindLen
    rwa [hkindLen] at this
  refine (follows_needed (by omega)).bind (Yields.trivial _) fun kind _ => ?_
  refine (follows_range (by omega)).bind (Yields.trivial _) fun r _ => ?_
  exact (follows_needed (by omega)).bind (Yields.trivial _) fun sha256 _ => Follows.pure _

theorem follows_entries (hroom : buf.length + 2 ^ 16 < 2 ^ 64) :
    Follows buf (attachmentEntriesAt buf) readAttachmentEntries := by
  have hcount : Follows buf (do
      need buf "truncated attachment index: no count" 4
      advance buf 4) (exact "truncated attachment index: no count" 4) :=
    follows_exact (by omega)
  have hsplit : attachmentEntriesAt buf = ((do
      need buf "truncated attachment index: no count" 4
      advance buf 4) >>= fun countBytes =>
        if 16 < value countBytes then
          Cursor.fail (s!"attachment index declares {value countBytes} entries; " ++
            "more than 16 is corruption")
        else times (attachmentEntryAt buf) (value countBytes)) := by
    simp only [attachmentEntriesAt, bind_assoc]
  rw [hsplit]
  refine hcount.bind (Yields.trivial _) fun countBytes _ => ?_
  split_ifs
  · exact Follows.fail _
  · exact (follows_entry hroom).times _

def storedStart (buf : List UInt8) : ℕ := value (buf.drop (buf.length - 8))

/-- The sums with the trailer's start stay below 2^64, or are not made. -/
def TrailerInRange (buf : List UInt8) (base : UInt64) : Prop :=
  buf.length < 15 ∨ storedStart buf < base.toNat ∨
    (storedStart buf + 15 < 2 ^ 64 ∧ base.toNat + buf.length < 2 ^ 64)

variable {base : UInt64}

theorem parseAttachmentIndexChecked_long (h : 15 ≤ buf.length) :
    parseAttachmentIndexChecked buf base = parseTrailer buf base (storedStart buf) := by
  rw [parseAttachmentIndexChecked, if_neg (Nat.not_lt.mpr h), range_drop (Nat.sub_le _ _),
    pure_bind, storedStart]

theorem parseAttachmentIndex_long (h : 15 ≤ buf.length) (base : ℕ) :
    parseAttachmentIndex buf base =
      if storedStart buf < base ∨ base + buf.length < storedStart buf + 15 then .ok []
      else if slice buf (storedStart buf - base) 7 ≠ attachmentMagic then .ok []
      else (readAttachmentEntries.run (buf.drop (storedStart buf - base + 7))).map Prod.fst :=
  if_neg (Nat.not_lt.mpr h)

theorem parseAttachmentIndexChecked_eq (hbuf : buf.length < 2 ^ 63) (h : TrailerInRange buf base) :
    (parseAttachmentIndexChecked buf base).run = some (parseAttachmentIndex buf base.toNat) := by
  by_cases hshort : buf.length < 15
  · rw [parseAttachmentIndexChecked, parseAttachmentIndex, if_pos hshort, if_pos hshort]
    rfl
  have hlong := Nat.not_lt.mp hshort
  rw [parseAttachmentIndexChecked_long hlong, parseAttachmentIndex_long hlong, parseTrailer]
  by_cases hbelow : storedStart buf < base.toNat
  · rw [if_pos hbelow, if_pos (.inl hbelow)]
    rfl
  obtain ⟨hend, hbase⟩ := (h.resolve_left hshort).resolve_left hbelow
  rw [if_neg hbelow, add_eq hend, pure_bind, add_eq hbase, pure_bind]
  by_cases hout : base.toNat + buf.length < storedStart buf + 15
  · rw [if_pos hout, if_pos (.inr hout)]
    rfl
  have hts : storedStart buf - base.toNat + 7 ≤ buf.length := by omega
  rw [if_neg hout, if_neg (by simp only [hbelow, hout, or_self, not_false_eq_true])]
  dsimp only
  rw [add_eq (by omega), pure_bind, range_eq (Nat.le_add_right _ _) hts, pure_bind,
    Nat.add_sub_cancel_left]
  by_cases hmagic : slice buf (storedStart buf - base.toNat) 7 ≠ attachmentMagic
  · rw [if_pos hmagic, if_pos hmagic]
    rfl
  rw [if_neg hmagic, if_neg hmagic]
  rcases follows_entries (by omega) _ hts with ⟨e, hr, hc⟩ | ⟨entries, pos, -, hr, hc⟩
  · rw [hc, hr]
    rfl
  · rw [hc, hr]
    rfl

theorem parse_safe_iff (hbuf : buf.length < 2 ^ 63) :
    (parseAttachmentIndexChecked buf base).Safe ↔ TrailerInRange buf base := by
  refine ⟨fun hsafe => ?_, fun h => safe_of_run (parseAttachmentIndexChecked_eq hbuf h)⟩
  by_contra hout
  rw [TrailerInRange, not_or, not_or] at hout
  obtain ⟨hlong, habove, hsum⟩ := hout
  rw [parseAttachmentIndexChecked_long (Nat.not_lt.mp hlong), parseTrailer, if_neg habove] at hsafe
  by_cases hend : storedStart buf + 15 < 2 ^ 64
  · have hbase : 2 ^ 64 ≤ base.toNat + buf.length := Nat.not_lt.mp fun h => hsum ⟨hend, h⟩
    rw [add_eq hend, pure_bind, add_fault hbase] at hsafe
    exact not_safe_fault hsafe
  · rw [add_fault (Nat.not_lt.mp hend)] at hsafe
    exact not_safe_fault hsafe

theorem bytes_safe_iff (sha256Bytes : List UInt8 → List UInt8) (a : EmbeddedAttachment) :
    (attachmentBytesFromBuf sha256Bytes buf a).Safe ↔ a.offset.toNat + a.size.toNat < 2 ^ 64 := by
  rw [attachmentBytesFromBuf]
  by_cases hsum : a.offset.toNat + a.size.toNat < 2 ^ 64
  swap
  · rw [add_fault (Nat.not_lt.mp hsum)]
    exact iff_of_false not_safe_fault hsum
  refine iff_of_true ?_ hsum
  rw [add_eq hsum, pure_bind]
  split_ifs with hout
  · exact safe_of_run rfl
  rw [range_eq (Nat.le_add_right _ _) (by omega), pure_bind]
  split_ifs <;> exact safe_of_run rfl

/-- No sum overflows and no slice is out of bounds just when the trailer's start is in range, and
the attachment's end is below 2^64. -/
theorem attachments_safe_iff (sha256Bytes : List UInt8 → List UInt8) (buf : Buffer) (base : UInt64)
    (a : EmbeddedAttachment) :
    (parseAttachmentIndexChecked buf.bytes base).Safe ∧
        (attachmentBytesFromBuf sha256Bytes buf.bytes a).Safe ↔
      TrailerInRange buf.bytes base ∧ a.offset.toNat + a.size.toNat < 2 ^ 64 :=
  and_congr (parse_safe_iff buf.fits) (bytes_safe_iff sha256Bytes a)

def ones : Buffer := ⟨List.replicate 15 0xff, by decide⟩

theorem ones_overflow : ¬ ∀ (sha256Bytes : List UInt8 → List UInt8) (buf : Buffer) (base : UInt64)
    (a : EmbeddedAttachment), (parseAttachmentIndexChecked buf.bytes base).Safe ∧
      (attachmentBytesFromBuf sha256Bytes buf.bytes a).Safe := by
  intro hall
  have hrange := (parse_safe_iff ones.fits).mp (hall id ones 0 ⟨[], 0, 0, []⟩).1
  revert hrange
  unfold TrailerInRange
  decide

end Grim.Format
