import Grim.Format.AttachmentIndex

/-!
# Attachments that come back

Both readers find the trailer from the last eight bytes, and read its entries as they were written
where the number of entries and the lengths of their kinds fit.
-/

namespace Grim.Format

open LittleEndian Reader Slice Checked List

variable (sha256Bytes : List UInt8 → List UInt8)

/-- The entries have the kinds of the attachments, and their bytes are read from the file and from a
buffer that holds it. -/
structure Extracts (file : List UInt8) (index : List EmbeddedAttachment)
    (attachments : List (List Char × List UInt8)) : Prop where
  kinds : index.map EmbeddedAttachment.kind = attachments.map Prod.fst
  fromFile : index.map (readAttachmentBytes sha256Bytes file) = attachments.map fun a => .ok a.2
  fromBuf : (index.map fun a => (attachmentBytesFromBuf sha256Bytes file a).run)
    = attachments.map fun a => some (.ok a.2)

/-- What is written behind `file` is found by both readers of the index. -/
def RoundTrips (file : List UInt8) (attachments : List (List Char × List UInt8)) : Prop :=
  let written := writeAttachments sha256Bytes file attachments
  (∃ index, readAttachmentIndex written = .ok index ∧
      Extracts sha256Bytes written index attachments) ∧
    ∃ index, (parseAttachmentIndexChecked written 0).run = some (.ok index) ∧
      Extracts sha256Bytes written index attachments

variable {file : List UInt8} {attachments : List (List Char × List UInt8)}

theorem length_indexFrom : ∀ (offset : ℕ) (as : List (List Char × List UInt8)),
    (indexFrom sha256Bytes offset as).length = as.length
  | _, [] => rfl
  | offset, (kind, blob) :: as => by
    rw [indexFrom, length_cons, length_indexFrom _ as, length_cons]

theorem kinds_indexFrom : ∀ (offset : ℕ) (as : List (List Char × List UInt8)),
    (indexFrom sha256Bytes offset as).map EmbeddedAttachment.kind = as.map Prod.fst
  | _, [] => rfl
  | offset, (kind, blob) :: as => by
    rw [indexFrom, map_cons, kinds_indexFrom _ as, map_cons]

theorem sha256_indexFrom (hsha : ∀ bs, (sha256Bytes bs).length = 32) :
    ∀ (offset : ℕ) (as : List (List Char × List UInt8)),
      ∀ e ∈ indexFrom sha256Bytes offset as, e.sha256.length = 32
  | _, [] => by simp [indexFrom]
  | offset, (kind, blob) :: as => by
    intro e he
    rcases mem_cons.mp he with rfl | he
    · exact hsha blob
    · exact sha256_indexFrom hsha _ as e he

theorem read_blob (kind : List Char) {pre blob post : List UInt8}
    (h : (pre ++ blob ++ post).length < 2 ^ 63) :
    let a : EmbeddedAttachment := ⟨kind, .ofNat pre.length, .ofNat blob.length, sha256Bytes blob⟩
    readAttachmentBytes sha256Bytes (pre ++ blob ++ post) a = .ok blob ∧
      (attachmentBytesFromBuf sha256Bytes (pre ++ blob ++ post) a).run = some (.ok blob) := by
  intro a
  have hslice : slice (pre ++ blob ++ post) pre.length blob.length = blob := slice_append rfl rfl
  rw [length_append, length_append] at h
  have hoff : a.offset.toNat = pre.length := UInt64.toNat_ofNat_of_lt' (show _ < 2 ^ 64 by omega)
  have hsize : a.size.toNat = blob.length := UInt64.toNat_ofNat_of_lt' (show _ < 2 ^ 64 by omega)
  have hle : pre.length + blob.length ≤ (pre ++ blob ++ post).length := by
    rw [length_append, length_append]
    omega
  have hdigest : ¬ sha256Bytes blob ≠ a.sha256 := not_not.mpr rfl
  constructor
  · rw [readAttachmentBytes, hoff, hsize, readExactAt, if_pos hle, hslice]
    exact if_neg hdigest
  · rw [attachmentBytesFromBuf, hoff, hsize, add_eq (by omega), pure_bind, if_neg (by omega),
      range_eq (Nat.le_add_right _ _) hle, pure_bind, Nat.add_sub_cancel_left, hslice,
      if_neg hdigest]
    rfl

theorem extracts_indexFrom (post : List UInt8) :
    ∀ (pre : List UInt8) (as : List (List Char × List UInt8)),
      (pre ++ as.flatMap Prod.snd ++ post).length < 2 ^ 63 →
        Extracts sha256Bytes (pre ++ as.flatMap Prod.snd ++ post)
          (indexFrom sha256Bytes pre.length as) as
  | _, [], _ => ⟨rfl, rfl, rfl⟩
  | pre, (kind, blob) :: as, h => by
    have hfile : pre ++ ((kind, blob) :: as).flatMap Prod.snd ++ post
        = pre ++ blob ++ (as.flatMap Prod.snd ++ post) := by
      rw [flatMap_cons]
      simp only [append_assoc]
    have hnext : pre ++ blob ++ (as.flatMap Prod.snd ++ post)
        = (pre ++ blob) ++ as.flatMap Prod.snd ++ post := by
      simp only [append_assoc]
    rw [hfile] at h ⊢
    obtain ⟨hfile, hbuf⟩ := read_blob sha256Bytes kind h
    rw [hnext] at h
    have ih := extracts_indexFrom post (pre ++ blob) as h
    rw [← hnext, length_append] at ih
    rw [indexFrom]
    refine ⟨?_, ?_, ?_⟩
    · rw [map_cons, ih.kinds, map_cons]
    · rw [map_cons, ih.fromFile, map_cons, hfile]
    · rw [map_cons, ih.fromBuf, map_cons, hbuf]

def trailer (start : ℕ) (entries : List EmbeddedAttachment) : List UInt8 :=
  attachmentMagic ++ (bytes 4 entries.length ++
    (entries.flatMap EmbeddedAttachment.write ++ bytes 8 start))

theorem writeAttachments_eq : writeAttachments sha256Bytes file attachments =
    (file ++ attachments.flatMap Prod.snd) ++
      trailer (file ++ attachments.flatMap Prod.snd).length
        (indexFrom sha256Bytes file.length attachments) := by
  rw [writeAttachments, trailer, length_indexFrom]

theorem length_trailer (start : ℕ) (entries : List EmbeddedAttachment) :
    (trailer start entries).length
      = 19 + (entries.flatMap EmbeddedAttachment.write).length := by
  rw [trailer]
  simp only [length_append, length_bytes, attachmentMagic, length_cons, length_nil]
  omega

theorem storedStart_trailer (pre : List UInt8) {start : ℕ} (hroom : start < 2 ^ 64)
    (entries : List EmbeddedAttachment) : storedStart (pre ++ trailer start entries) = start := by
  have hsplit : pre ++ trailer start entries = (pre ++ attachmentMagic ++ bytes 4 entries.length
      ++ entries.flatMap EmbeddedAttachment.write) ++ bytes 8 start := by
    rw [trailer]
    simp only [append_assoc]
  rw [storedStart, hsplit, length_append, length_bytes, Nat.add_sub_cancel, drop_left,
    value_bytes 8 start hroom]

theorem parse_trailer (pre : List UInt8) {base start : ℕ} (entries : List EmbeddedAttachment)
    (hbase : base + pre.length = start) (hroom : start < 2 ^ 64) :
    parseAttachmentIndex (pre ++ trailer start entries) base =
      (readAttachmentEntries.run (bytes 4 entries.length ++
        (entries.flatMap EmbeddedAttachment.write ++ bytes 8 start))).map Prod.fst := by
  have hlen := length_trailer start entries
  have hpre : start - base = pre.length := by omega
  have hmagic : slice (pre ++ trailer start entries) (start - base) 7 = attachmentMagic := by
    rw [hpre, trailer, ← append_assoc]
    exact slice_append rfl rfl
  have hdrop : (pre ++ trailer start entries).drop (start - base + 7) = bytes 4 entries.length ++
      (entries.flatMap EmbeddedAttachment.write ++ bytes 8 start) := by
    rw [hpre, trailer, ← append_assoc]
    exact drop_left' (by rw [length_append]; rfl)
  rw [parseAttachmentIndex_long (by rw [length_append]; omega),
    storedStart_trailer pre hroom, hmagic, hdrop, if_neg (by rw [length_append]; omega),
    if_neg (not_not.mpr rfl)]

theorem readAttachmentIndex_trailer {pre : List UInt8} (entries : List EmbeddedAttachment)
    (hroom : pre.length < 2 ^ 64) :
    readAttachmentIndex (pre ++ trailer pre.length entries) =
      (readAttachmentEntries.run (bytes 4 entries.length ++
        (entries.flatMap EmbeddedAttachment.write ++ bytes 8 pre.length))).map Prod.fst := by
  have hlen := length_trailer pre.length entries
  have hstart : value ((pre ++ trailer pre.length entries).drop
      ((pre ++ trailer pre.length entries).length - 8)) = pre.length :=
    storedStart_trailer pre hroom entries
  have hparse := parse_trailer [] entries (Nat.add_zero _) hroom
  rw [nil_append] at hparse
  rw [readAttachmentIndex, if_neg (by rw [length_append]; omega), hstart,
    if_neg (by rw [length_append]; omega), drop_left, hparse]

variable {e : EmbeddedAttachment} {entries : List EmbeddedAttachment}

theorem reads_needed {what : String} {bs : List UInt8} {n : ℕ} (h : bs.length = n) :
    Reads (needed what n) bs bs := reads_exact _ h

theorem reads_attachmentEntry (hsha : e.sha256.length = 32) (hkind : Utf8.size e.kind < 2 ^ 16) :
    Reads readAttachmentEntry e.write e := by
  have hrange : (bytes 8 e.offset.toNat ++ bytes 8 e.size.toNat).length = 16 := by
    rw [length_append, length_bytes, length_bytes]
  have hsplit : e.write = bytes 2 (Utf8.size e.kind) ++ (Utf8.encode e.kind ++
      ((bytes 8 e.offset.toNat ++ bytes 8 e.size.toNat) ++ e.sha256)) := by
    simp only [EmbeddedAttachment.write, append_assoc]
  have hlen : value (bytes 2 (Utf8.size e.kind)) = Utf8.size e.kind := value_bytes 2 _ hkind
  rw [hsplit]
  refine (reads_needed (length_bytes 2 _)).bind ?_
  refine (reads_needed hlen.symm).bind ((reads_needed hrange).bind ?_)
  have hdigest : Reads (needed "sha256" 32) e.sha256 e.sha256 := reads_needed hsha
  have hlast := hdigest.map fun sha256 => { e with sha256 }
  rw [Utf8.lossy_encode, take_left' (length_bytes 8 _), drop_left' (length_bytes 8 _),
    value_bytes 8 _ e.offset.toNat_lt, value_bytes 8 _ e.size.toNat_lt, UInt64.ofNat_toNat,
    UInt64.ofNat_toNat]
  exact hlast

theorem kind_of_long {rest rest' : List UInt8} {e' : EmbeddedAttachment}
    (hkind : 2 ^ 16 ≤ Utf8.size e.kind)
    (hrun : readAttachmentEntry.run (e.write ++ rest) = .ok (e', rest')) : e'.kind ≠ e.kind := by
  have hsplit : e.write ++ rest = bytes 2 (Utf8.size e.kind) ++ (Utf8.encode e.kind ++
      ((bytes 8 e.offset.toNat ++ (bytes 8 e.size.toNat ++ e.sha256)) ++ rest)) := by
    simp only [EmbeddedAttachment.write, append_assoc]
  rw [hsplit] at hrun
  obtain ⟨kindLen, s₁, hlen, hrun⟩ := run_bind_ok hrun
  rw [reads_needed (length_bytes 2 _)] at hlen
  cases hlen
  obtain ⟨kind, s₂, hexact, hrun⟩ := run_bind_ok hrun
  obtain ⟨range, s₃, -, hrun⟩ := run_bind_ok hrun
  obtain ⟨sha256, s₄, -, hrun⟩ := run_bind_ok hrun
  cases hrun
  intro heq
  have hmod : value (bytes 2 (Utf8.size e.kind)) < 2 ^ 16 := by
    rw [value_bytes_mod]
    exact Nat.mod_lt _ (by decide)
  change (if _ then _ else _) = _ at hexact
  split_ifs at hexact
  cases hexact
  have henc : (Utf8.encode e.kind).length = Utf8.size e.kind := rfl
  rw [take_append_of_le_length (by omega)] at heq
  have hsize := Utf8.size_of_lossy_take heq
  rw [value_bytes_mod] at hsize
  have hdiv := Nat.div_add_mod (Utf8.size e.kind) (256 ^ 2)
  have hpos : 1 ≤ Utf8.size e.kind / 256 ^ 2 :=
    (Nat.le_div_iff_mul_le (by decide)).mpr (by rw [one_mul]; exact hkind)
  omega

theorem kinds_fit_of_items : ∀ {entries : List EmbeddedAttachment} {as : List EmbeddedAttachment}
    {rest rest' : List UInt8}, (∀ e ∈ entries, e.sha256.length = 32) →
      (items readAttachmentEntry entries.length).run
        (entries.flatMap EmbeddedAttachment.write ++ rest) = .ok (as, rest') →
      as.map EmbeddedAttachment.kind = entries.map EmbeddedAttachment.kind →
      ∀ e ∈ entries, Utf8.size e.kind < 2 ^ 16
  | [], _, _, _, _, _, _ => by simp
  | e :: entries, as, rest, rest', hsha, hrun, hkinds => by
    rw [length_cons, items, flatMap_cons, append_assoc] at hrun
    obtain ⟨e', s₁, hfirst, hrun⟩ := run_bind_ok hrun
    obtain ⟨as', s₂, hitems, hrun⟩ := run_bind_ok hrun
    cases hrun
    rw [map_cons, map_cons, List.cons.injEq] at hkinds
    by_cases hkind : Utf8.size e.kind < 2 ^ 16
    · rw [reads_attachmentEntry (hsha e (by simp)) hkind] at hfirst
      cases hfirst
      have ih := kinds_fit_of_items (fun d hd => hsha d (by simp [hd])) hitems hkinds.2
      intro d hd
      rcases mem_cons.mp hd with rfl | hd
      · exact hkind
      · exact ih d hd
    · exact absurd hkinds.1 (kind_of_long (Nat.not_lt.mp hkind) hfirst)

theorem readEntries_of_fits (hsha : ∀ e ∈ entries, e.sha256.length = 32)
    (hcount : entries.length ≤ 16) (hkinds : ∀ e ∈ entries, Utf8.size e.kind < 2 ^ 16)
    (rest : List UInt8) :
    readAttachmentEntries.run (bytes 4 entries.length ++
      (entries.flatMap EmbeddedAttachment.write ++ rest)) = .ok (entries, rest) := by
  have hlt : entries.length < 256 ^ 4 := lt_of_le_of_lt hcount (by decide)
  have hitems := reads_items entries fun e he => reads_attachmentEntry (hsha e he) (hkinds e he)
  have hreads : Reads readAttachmentEntries
      (bytes 4 entries.length ++ entries.flatMap EmbeddedAttachment.write) entries := by
    refine (reads_exact _ (length_bytes 4 _)).bind ?_
    rw [value_bytes 4 _ hlt, if_neg (Nat.not_lt.mpr hcount)]
    exact hitems
  rw [← append_assoc]
  exact hreads rest

theorem fits_of_readEntries (hsha : ∀ e ∈ entries, e.sha256.length = 32) {rest rest' : List UInt8}
    {as : List EmbeddedAttachment}
    (hrun : readAttachmentEntries.run (bytes 4 entries.length ++
      (entries.flatMap EmbeddedAttachment.write ++ rest)) = .ok (as, rest'))
    (hkinds : as.map EmbeddedAttachment.kind = entries.map EmbeddedAttachment.kind) :
    entries.length ≤ 16 ∧ ∀ e ∈ entries, Utf8.size e.kind < 2 ^ 16 := by
  obtain ⟨countBytes, s₁, hcount, hrun⟩ := run_bind_ok hrun
  rw [reads_exact _ (length_bytes 4 _)] at hcount
  cases hcount
  split_ifs at hrun with hmany
  · cases hrun
  have hlen := Yields.length_items _ _ _ _ _ hrun
  have hsame := congrArg List.length hkinds
  rw [length_map, length_map, hlen] at hsame
  rw [hsame] at hmany hrun
  exact ⟨Nat.not_lt.mp hmany, kinds_fit_of_items hsha hrun hkinds⟩

theorem trailer_found {pre : List UInt8} (entries : List EmbeddedAttachment)
    (hroom : (pre ++ trailer pre.length entries).length < 2 ^ 63) :
    let read := (readAttachmentEntries.run (bytes 4 entries.length ++
      (entries.flatMap EmbeddedAttachment.write ++ bytes 8 pre.length))).map Prod.fst
    readAttachmentIndex (pre ++ trailer pre.length entries) = read ∧
      (parseAttachmentIndexChecked (pre ++ trailer pre.length entries) 0).run = some read := by
  have hshort : pre.length + 19 < 2 ^ 63 := by
    rw [length_append, length_trailer] at hroom
    omega
  refine ⟨readAttachmentIndex_trailer entries (by omega), ?_⟩
  rw [parseAttachmentIndexChecked_eq hroom (.inr (.inr ⟨?_, ?_⟩)), UInt64.toNat_zero,
    parse_trailer pre entries (Nat.zero_add _) (by omega)]
  · rw [storedStart_trailer pre (by omega)]
    omega
  · rw [UInt64.toNat_zero]
    omega

theorem kinds_fit_iff (offset : ℕ) :
    (∀ e ∈ indexFrom sha256Bytes offset attachments, Utf8.size e.kind < 2 ^ 16) ↔
      ∀ a ∈ attachments, Utf8.size a.1 < 2 ^ 16 := by
  rw [← forall_mem_map (P := fun kind => Utf8.size kind < 2 ^ 16), kinds_indexFrom,
    forall_mem_map]

variable {sha256Bytes} (hsha : ∀ bs, (sha256Bytes bs).length = 32)
  (hroom : (writeAttachments sha256Bytes file attachments).length < 2 ^ 63)

include hsha hroom

theorem RoundTrips.fits (h : RoundTrips sha256Bytes file attachments) :
    attachments.length ≤ 16 ∧ ∀ a ∈ attachments, Utf8.size a.1 < 2 ^ 16 := by
  rw [writeAttachments_eq] at hroom
  rw [RoundTrips, writeAttachments_eq, (trailer_found _ hroom).1] at h
  rw [← kinds_fit_iff sha256Bytes file.length, ← length_indexFrom sha256Bytes file.length]
  obtain ⟨⟨index, hindex, hback⟩, -⟩ := h
  rcases hrun : readAttachmentEntries.run _ with err | ⟨as, rest⟩ <;> rw [hrun] at hindex
  · cases hindex
  cases hindex
  exact fits_of_readEntries (sha256_indexFrom _ hsha _ _) hrun
    (hback.kinds.trans (kinds_indexFrom _ _ _).symm)

theorem roundTrips_of_fits (hcount : attachments.length ≤ 16)
    (hkinds : ∀ a ∈ attachments, Utf8.size a.1 < 2 ^ 16) :
    RoundTrips sha256Bytes file attachments := by
  rw [writeAttachments_eq] at hroom
  rw [← length_indexFrom sha256Bytes file.length] at hcount
  rw [← kinds_fit_iff sha256Bytes file.length] at hkinds
  obtain ⟨hread, hparse⟩ := trailer_found _ hroom
  have hextracts := extracts_indexFrom sha256Bytes _ file attachments hroom
  rw [RoundTrips, writeAttachments_eq, hread, hparse,
    readEntries_of_fits (sha256_indexFrom _ hsha _ _) hcount hkinds]
  exact ⟨⟨_, rfl, hextracts⟩, ⟨_, rfl, hextracts⟩⟩

omit hsha hroom

/-- Attachments come back exactly when there are at most sixteen, and their kinds have fewer than
2^16 bytes each. -/
theorem roundTrips_iff (sha256Bytes : List UInt8 → List UInt8) (file : List UInt8)
    (attachments : List (List Char × List UInt8)) (hsha : ∀ bs, (sha256Bytes bs).length = 32)
    (hroom : (writeAttachments sha256Bytes file attachments).length < 2 ^ 63) :
    RoundTrips sha256Bytes file attachments ↔
      attachments.length ≤ 16 ∧ ∀ a ∈ attachments, Utf8.size a.1 < 2 ^ 16 :=
  ⟨fun h => h.fits hsha hroom, fun h => roundTrips_of_fits hsha hroom h.1 h.2⟩

/-- The attachment `b"abc"` behind three bytes. -/
theorem roundTrips_iff_abc :
    RoundTrips (fun _ => blobDigest) [1, 2, 3] [("imatrix".toList, [0x61, 0x62, 0x63])] :=
  (roundTrips_iff (fun _ => blobDigest) [1, 2, 3] [("imatrix".toList, [0x61, 0x62, 0x63])]
    (fun _ => rfl) (by decide)).mpr ⟨by decide, by decide⟩

/-- Seventeen attachments are taken for a damaged index. -/
theorem seventeen_lost : ¬ ∀ (sha256Bytes : List UInt8 → List UInt8) (file : List UInt8)
    (attachments : List (List Char × List UInt8)), (∀ bs, (sha256Bytes bs).length = 32) →
      (writeAttachments sha256Bytes file attachments).length < 2 ^ 63 →
        RoundTrips sha256Bytes file attachments := by
  intro hall
  have hroom : (writeAttachments (fun _ => blobDigest) []
      (List.replicate 17 ("imatrix".toList, [0x61, 0x62, 0x63]))).length < 2 ^ 63 := by
    decide +kernel
  have hback := hall (fun _ => blobDigest) [] _ (fun _ => rfl) hroom
  have hcount := (hback.fits (fun _ => rfl) hroom).1
  rw [length_replicate] at hcount
  omega

end Grim.Format
