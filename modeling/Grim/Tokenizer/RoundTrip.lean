import Grim.Lib.Folds
import Grim.Tokenizer.ByteLevel

/-!
# Decoding what was encoded

On the byte-level path with merges any text comes back but for its special tokens, which go past the
bytes: one that has no id is dropped, and one with a character that stands for some byte comes back
as that byte.  Without merges each character is looked up on its own.
-/

namespace Grim.Tokenizer

open Folds Utf8 List Option

variable {F : Type} {tk : GgufTokenizer F}

namespace GgufTokenizer

def segments (tk : GgufTokenizer F) (text : List Char) : Option (List Segment) :=
  ((if 8192 ≤ size text then chunks text 4096 else [text]).mapM
    (splitSpecials tk.specialTokens)).map List.flatten

def segmentIds (cls : CharClasses) (tk : GgufTokenizer F) : Segment → List UInt32
  | .text s => tk.bpeEncodeChunk cls s
  | .special st => (tk.idOf st).toList

theorem ByteLevel.encodeSerial_eq (h : tk.ByteLevel) (prims : Prims F) {text : List Char}
    (hne : text ≠ []) : tk.encodeSerial prims text =
      (splitSpecials tk.specialTokens text).map fun segs =>
        segs.flatMap (tk.segmentIds prims.toCharClasses) := by
  have hsegs : ∀ segs, encodeSegments (tk.bpeEncodeChunk prims.toCharClasses)
      (fun st => some (tk.idOf st).toList) segs =
        some (segs.flatMap (tk.segmentIds prims.toCharClasses)) := fun segs => by
    have hid : segs.mapM some = some segs := by
      simpa using mapM_pure (m := Option) (l := segs) (f := id)
    rw [encodeSegments, mapM_map (g := some) (k := tk.segmentIds prims.toCharClasses), hid]
    · rfl
    · intro seg _
      rcases seg with s | st <;> rfl
  rw [encodeSerial, if_neg hne, if_pos h.modelType]
  rcases splitSpecials tk.specialTokens text with _ | segs
  · rfl
  · exact hsegs segs

theorem ByteLevel.encode_eq (h : tk.ByteLevel) (prims : Prims F) {text : List Char}
    (hne : text ≠ []) : tk.encode prims text =
      (tk.segments text).map fun segs => segs.flatMap (tk.segmentIds prims.toCharClasses) := by
  rw [encode, if_neg hne, segments]
  split_ifs with hlong
  · have hchunks : ∀ chunk ∈ chunks text 4096, tk.encodeSerial prims chunk =
        (splitSpecials tk.specialTokens chunk).map fun segs =>
          segs.flatMap (tk.segmentIds prims.toCharClasses) := fun chunk hmem =>
      h.encodeSerial_eq prims (ne_nil_of_mem_chunks (by omega) hmem)
    rw [mapM_map hchunks]
    rcases (chunks text 4096).mapM (splitSpecials tk.specialTokens) with _ | parts
    · rfl
    · simp only [map_some]
      rw [flatMap_def, map_flatten, flatten_flatten, List.map_map]
      rfl
  · rw [h.encodeSerial_eq prims hne, mapM_cons, mapM_nil]
    rcases splitSpecials tk.specialTokens text with _ | segs
    · rfl
    · simp

/-- The segment comes back: a special token that has an id, and of the characters that are read as
themselves; without merges, characters that are so. -/
def Kept (tk : GgufTokenizer F) : Segment → Prop
  | .text s => tk.bpeMerges = none → ∀ c ∈ s, (∃ id, tk.idOf [c] = some id) ∧ Plain c
  | .special st => (∃ id, tk.idOf st = some id) ∧ ∀ c ∈ st, Plain c

def Lossless (tk : GgufTokenizer F) (text : List Char) : Prop :=
  text = [] ∨ tk.Fits ∧ ∃ segs, tk.segments text = some segs ∧ ∀ seg ∈ segs, tk.Kept seg

def RoundTrips (prims : Prims F) (tk : GgufTokenizer F) (text : List Char) : Prop :=
  (tk.encode prims text).map tk.decode = some text

/-- The unknown token is one character at most, and read as that. -/
def ShortUnk (tk : GgufTokenizer F) : Prop :=
  (tk.tokenText tk.unkId).length ≤ 1 ∧ ∀ c ∈ tk.tokenText tk.unkId, Plain c

def segmentParts (tk : GgufTokenizer F) : Segment → List Part
  | .text s =>
    match tk.bpeMerges with
    | some _ => s.map Part.whole
    | none => (s.flatMap tk.charText).map part
  | .special st => ((tk.idOf st).toList.flatMap tk.tokenText).map part

theorem ByteLevel.bytesOf_segmentParts (h : tk.ByteLevel) (hfits : tk.Fits) (cls : CharClasses)
    (seg : Segment) : bytesOf (tk.segmentParts seg) =
      bytesOf (((tk.segmentIds cls seg).flatMap tk.tokenText).map part) := by
  rcases seg with s | st
  · rcases hmerges : tk.bpeMerges with _ | merges
    · simp only [segmentParts, segmentIds, bpeEncodeChunk, hmerges, encodeFallback_text]
    · simp only [segmentParts, segmentIds, hmerges, h.bpeEncodeChunk_text hfits hmerges,
        bytesOf_whole, bytesOf_encoder]
  · rfl

theorem ByteLevel.bytesOf_kept (h : tk.ByteLevel) (hfits : tk.Fits) {seg : Segment}
    (hkept : tk.Kept seg) : bytesOf (tk.segmentParts seg) = Utf8.encode seg.spell := by
  rcases seg with s | st
  · rcases hmerges : tk.bpeMerges with _ | merges
    · have hchars := hkept hmerges
      have hsame := flatMap_charText fun c hc => h.inverse.charText_eq hfits (hchars c hc).1
      simp only [segmentParts, hmerges, hsame, Segment.spell]
      exact bytesOf_plain fun c hc => (hchars c hc).2
    · simp only [segmentParts, hmerges, Segment.spell, bytesOf_whole]
  · obtain ⟨⟨id, hid⟩, hplain⟩ := hkept
    simp only [segmentParts, hid, toList_some, flatMap_singleton, Segment.spell,
      h.inverse.tokenText_eq hfits hid]
    exact bytesOf_plain hplain

theorem eq_of_flatMap_eq {α β : Type*} {f g : α → List β} : ∀ {xs : List α},
    (∀ x ∈ xs, (f x).length ≤ (g x).length) → (xs.flatMap g).length ≤ (xs.flatMap f).length →
      xs.flatMap f = xs.flatMap g → ∀ x ∈ xs, f x = g x
  | [], _, _, _ => by simp
  | x :: xs, hle, hlen, heq => by
    have hrest : (xs.flatMap f).length ≤ (xs.flatMap g).length := by
      rw [length_flatMap, length_flatMap]
      exact sum_le_sum fun y hy => hle y (mem_cons_of_mem x hy)
    have hx := hle x mem_cons_self
    simp only [flatMap_cons, length_append] at hlen heq
    obtain ⟨hhead, htail⟩ := append_inj heq (by omega)
    intro y hy
    rcases mem_cons.1 hy with rfl | hy
    · exact hhead
    · exact eq_of_flatMap_eq (fun z hz => hle z (mem_cons_of_mem x hz)) (by omega) htail y hy

theorem ByteLevel.length_charText (h : tk.ByteLevel) (hfits : tk.Fits) (hunk : tk.ShortUnk)
    (c : Char) : (tk.charText c).length ≤ 1 := by
  rcases hid : tk.idOf [c] with _ | id
  · rw [charText, hid, getD_none]
    exact hunk.1
  · rw [h.inverse.charText_eq hfits ⟨id, hid⟩]
    rfl

theorem ByteLevel.char_of_face (h : tk.ByteLevel) (hfits : tk.Fits) (hunk : tk.ShortUnk) {c : Char}
    (hface : ((tk.charText c).map part).map Part.face = [c]) :
    (∃ id, tk.idOf [c] = some id) ∧ Plain c := by
  rcases hid : tk.idOf [c] with _ | id
  · rw [charText, hid, getD_none] at hface
    rcases htext : tk.tokenText tk.unkId with _ | ⟨d, ds⟩
    · rw [htext] at hface
      simp at hface
    · have hlen := hunk.1
      rw [htext, length_cons] at hlen
      obtain rfl : ds = [] := length_eq_zero_iff.1 (by omega)
      have hplain : Plain d := hunk.2 d (by simp [htext])
      rw [htext, map_singleton, map_singleton, face_of_plain hplain] at hface
      obtain ⟨id, hd⟩ := h.inverse.idOf_tokenText htext (by simp)
      rw [hface, hid] at hd
      exact absurd hd (by simp)
  · rw [h.inverse.charText_eq hfits ⟨id, hid⟩] at hface
    exact ⟨⟨id, rfl⟩, plain_of_face (by simpa using hface)⟩

theorem ByteLevel.length_segmentParts (h : tk.ByteLevel) (hfits : tk.Fits)
    (hunk : tk.bpeMerges = none → tk.ShortUnk) (seg : Segment) :
    (tk.segmentParts seg).length ≤ seg.spell.length := by
  rcases seg with s | st
  · rcases hmerges : tk.bpeMerges with _ | merges
    · simp only [segmentParts, hmerges, Segment.spell, length_map, length_flatMap]
      have hone := sum_le_card_nsmul (s.map fun c => (tk.charText c).length) 1 fun n hn => by
        obtain ⟨c, _, rfl⟩ := List.mem_map.1 hn
        exact h.length_charText hfits (hunk hmerges) c
      simpa using hone
    · simp [segmentParts, hmerges, Segment.spell]
  · rcases hid : tk.idOf st with _ | id
    · simp [segmentParts, hid]
    · simp [segmentParts, hid, h.inverse.tokenText_eq hfits hid, Segment.spell]

theorem ByteLevel.kept_of_face (h : tk.ByteLevel) (hfits : tk.Fits)
    (hunk : tk.bpeMerges = none → tk.ShortUnk) {seg : Segment} (hne : seg.spell ≠ [])
    (hface : (tk.segmentParts seg).map Part.face = seg.spell) : tk.Kept seg := by
  rcases seg with s | st
  · intro hmerges
    simp only [segmentParts, hmerges, Segment.spell, map_flatMap] at hface
    have hsingle : s.flatMap (fun c => [c]) = s := flatMap_singleton' s
    have hchars : ∀ c ∈ s, ((tk.charText c).map part).map Part.face = [c] :=
      eq_of_flatMap_eq (fun c _ => by simpa using h.length_charText hfits (hunk hmerges) c)
        (by rw [hface, hsingle]) (by rw [hface, hsingle])
    exact fun c hc => h.char_of_face hfits (hunk hmerges) (hchars c hc)
  · rcases hid : tk.idOf st with _ | id
    · simp [segmentParts, hid, Segment.spell] at hface
      exact absurd hface hne
    · refine ⟨⟨id, hid⟩, fun c hc => plain_of_face ?_⟩
      simp only [segmentParts, hid, toList_some, flatMap_singleton, Segment.spell,
        h.inverse.tokenText_eq hfits hid, List.map_map] at hface
      obtain ⟨i, hi, rfl⟩ := getElem_of_mem hc
      have := congrArg (fun l => l[i]?) hface
      simpa [hi] using this

theorem spell_of_mapM {specials : List (List Char)} : ∀ {parts : List (List Char)}
    {segss : List (List Segment)}, parts.mapM (splitSpecials specials) = some segss →
      segss.flatten.flatMap Segment.spell = parts.flatten ∧
        ∀ st, .special st ∈ segss.flatten → st ∈ specials ∧ [] ∉ specials
  | [], segss, h => by
    obtain rfl : [] = segss := Option.some.inj h
    simp
  | p :: parts, segss, h => by
    rw [mapM_cons] at h
    rcases hp : splitSpecials specials p with _ | segs
    · simp [hp] at h
    · rcases hparts : parts.mapM (splitSpecials specials) with _ | rest
      · simp [hp, hparts] at h
      · obtain rfl : segs :: rest = segss := by simpa [hp, hparts] using h
        obtain ⟨hspell, hmem⟩ := spell_of_mapM hparts
        refine ⟨?_, fun st hst => ?_⟩
        · rw [flatten_cons, flatMap_append, spell_splitSpecials hp, hspell,
            flatten_cons]
        · rw [flatten_cons, mem_append] at hst
          rcases hst with hst | hst
          · exact ⟨mem_of_splitAux hp hst, splitSpecials_isSome_iff.1 ⟨segs, hp⟩⟩
          · exact hmem st hst

theorem spell_segments {text : List Char} {segs : List Segment}
    (h : tk.segments text = some segs) : segs.flatMap Segment.spell = text ∧
      ∀ st, .special st ∈ segs → st ≠ [] := by
  obtain ⟨segss, hparts, rfl⟩ := map_eq_some_iff.1 h
  obtain ⟨hspell, hmem⟩ := spell_of_mapM hparts
  refine ⟨?_, fun st hst => ?_⟩
  · rw [hspell]
    split_ifs
    · exact flatten_chunks (by omega) text
    · exact flatten_singleton
  · obtain ⟨hspecial, hnil⟩ := hmem st hst
    exact fun hst => hnil (hst ▸ hspecial)

theorem bytesOf_flatMap {α : Type*} (f : α → List Part) (xs : List α) :
    bytesOf (xs.flatMap f) = xs.flatMap fun x => bytesOf (f x) := flatMap_assoc

theorem encode_flatMap {α : Type*} (f : α → List Char) (xs : List α) :
    Utf8.encode (xs.flatMap f) = xs.flatMap fun x => Utf8.encode (f x) := flatMap_assoc

theorem ByteLevel.decode_segments (h : tk.ByteLevel) (hfits : tk.Fits) (cls : CharClasses)
    (segs : List Segment) : tk.decode (segs.flatMap (tk.segmentIds cls)) =
      lossy (bytesOf (segs.flatMap tk.segmentParts)) := by
  rw [h.decode_eq, flatMap_assoc, map_flatMap, bytesOf_flatMap, bytesOf_flatMap]
  simp only [h.bytesOf_segmentParts hfits cls]

theorem ByteLevel.decode_of_kept (h : tk.ByteLevel) (hfits : tk.Fits) {segs : List Segment}
    (hkept : ∀ seg ∈ segs, tk.Kept seg) :
    lossy (bytesOf (segs.flatMap tk.segmentParts)) = segs.flatMap Segment.spell := by
  rw [bytesOf_flatMap, flatMap_congr fun seg hseg => h.bytesOf_kept hfits (hkept seg hseg),
    ← encode_flatMap, lossy_encode]

theorem ByteLevel.kept_of_decode (h : tk.ByteLevel) (hfits : tk.Fits)
    (hunk : tk.bpeMerges = none → tk.ShortUnk) {segs : List Segment}
    (hne : ∀ st, .special st ∈ segs → st ≠ [])
    (hsame : lossy (bytesOf (segs.flatMap tk.segmentParts)) = segs.flatMap Segment.spell) :
    ∀ seg ∈ segs, tk.Kept seg := by
  have hle : (segs.flatMap tk.segmentParts).length ≤ (segs.flatMap Segment.spell).length := by
    rw [length_flatMap, length_flatMap]
    exact sum_le_sum fun seg _ => h.length_segmentParts hfits hunk seg
  obtain ⟨hcount, hfaces⟩ := lossy_bytesOf (segs.flatMap tk.segmentParts)
  rw [hsame] at hcount hfaces
  have hall := hfaces (le_antisymm hcount hle)
  rw [map_flatMap] at hall
  have heach := eq_of_flatMap_eq
    (fun seg _ => by simpa using h.length_segmentParts hfits hunk seg)
    (by rw [hall]) hall.symm
  intro seg hseg
  rcases seg with s | st
  · rcases s with _ | ⟨c, s⟩
    · intro _ c hc
      simp at hc
    · exact h.kept_of_face hfits hunk (by simp [Segment.spell]) (heach _ hseg)
  · exact h.kept_of_face hfits hunk (hne st hseg) (heach _ hseg)

theorem ByteLevel.decode_of_not_fits (h : tk.ByteLevel) (hfits : ¬tk.Fits) (ids : List UInt32) :
    tk.decode ids = [] := by
  have htext : ids.flatMap tk.tokenText = [] :=
    flatMap_eq_nil_iff.2 fun id _ => h.inverse.tokenText_of_not_fits hfits id
  rw [h.decode_eq, htext]
  rfl

theorem ByteLevel.roundTrips (h : tk.ByteLevel) (prims : Prims F) {text : List Char}
    (hlossless : tk.Lossless text) : tk.RoundTrips prims text := by
  by_cases hne : text = []
  · rw [RoundTrips, encode, if_pos hne, map_some, h.decode_eq, hne]
    rfl
  · obtain ⟨hfits, segs, hsegs, hkept⟩ := hlossless.resolve_left hne
    rw [RoundTrips, h.encode_eq prims hne, hsegs, map_some, map_some,
      h.decode_segments hfits, h.decode_of_kept hfits hkept, (spell_segments hsegs).1]

theorem ByteLevel.lossless (h : tk.ByteLevel) {prims : Prims F} {text : List Char}
    (hunk : tk.bpeMerges = none → tk.ShortUnk) (hround : tk.RoundTrips prims text) :
    tk.Lossless text := by
  by_cases hne : text = []
  · exact .inl hne
  rw [RoundTrips, h.encode_eq prims hne] at hround
  rcases hsegs : tk.segments text with _ | segs
  · rw [hsegs] at hround
    simp at hround
  · rw [hsegs, map_some, map_some, Option.some.injEq] at hround
    by_cases hfits : tk.Fits
    · obtain ⟨hspell, hspecial⟩ := spell_segments hsegs
      rw [h.decode_segments hfits, ← hspell] at hround
      exact .inr ⟨hfits, segs, hsegs, h.kept_of_decode hfits hunk hspecial hround⟩
    · rw [h.decode_of_not_fits hfits] at hround
      exact absurd hround.symm hne

/-- What was encoded is decoded to the text where the text is empty or its segments come back; and
with merges, or with an unknown token of one character at most, only there. -/
theorem roundTrips_of_lossless (prims : Prims F) (h : tk.ByteLevel) (text : List Char) :
    (tk.Lossless text → tk.RoundTrips prims text) ∧
      ((tk.bpeMerges = none → tk.ShortUnk) → (tk.RoundTrips prims text ↔ tk.Lossless text)) :=
  ⟨h.roundTrips prims, fun hunk => ⟨h.lossless hunk, h.roundTrips prims⟩⟩

def ofTokens (tokens : List (List Char)) : GgufTokenizer ℤ where
  tokens := tokens
  tokenToId := tokens.zipIdx.map fun p => (p.1, UInt32.ofNat p.2)
  scores := none
  modelType := "bpe"
  bpeMerges := some []
  byteDecoder := some gpt2ByteDecoder
  unkTokenId := none
  addedTokens := []

theorem lookup_zipIdx {s : List Char} : ∀ {tokens : List (List Char)} {k : ℕ}, tokens.Nodup →
    ∀ n, List.lookup s (tokens.zipIdx k) = some n ↔
      k ≤ n ∧ tokens[n - k]? = some s
  | [], _, _, n => by simp
  | t :: tokens, k, hnodup, n => by
    obtain ⟨hnot, hnodup⟩ := nodup_cons.1 hnodup
    rw [zipIdx_cons, lookup_cons]
    by_cases hs : s = t
    · subst hs
      simp only [beq_self_eq_true, Option.some.injEq]
      constructor
      · rintro rfl
        simp
      · rintro ⟨hk, hn⟩
        rcases hpos : n - k with _ | m
        · omega
        · rw [hpos, getElem?_cons_succ] at hn
          exact absurd (mem_of_getElem? hn) hnot
    · have hne : (s == t) = false := by simpa using hs
      simp only [hne]
      rw [lookup_zipIdx hnodup n]
      constructor
      · rintro ⟨hk, hn⟩
        have hsucc : n - k = (n - (k + 1)) + 1 := by omega
        exact ⟨by omega, by rw [hsucc, getElem?_cons_succ]; exact hn⟩
      · rintro ⟨hk, hn⟩
        rcases hpos : n - k with _ | m
        · rw [hpos, getElem?_cons_zero, Option.some.injEq] at hn
          exact absurd hn.symm hs
        · have hm : n - (k + 1) = m := by omega
          rw [hpos, getElem?_cons_succ] at hn
          exact ⟨by omega, by rw [hm]; exact hn⟩

theorem lookup_map {α β γ : Type*} [BEq α] {a : α} (f : β → γ) : ∀ {xs : List (α × β)},
    List.lookup a (xs.map fun p => (p.1, f p.2)) = (List.lookup a xs).map f
  | [] => rfl
  | (a', b) :: xs => by
    rw [map_cons, lookup_cons, lookup_cons]
    rcases a == a' with _ | _
    · exact lookup_map f
    · rfl

variable {tokens : List (List Char)}

theorem idOf_ofTokens (hnodup : tokens.Nodup) (hlen : tokens.length < 2 ^ 32) {s : List Char}
    {id : UInt32} : (ofTokens tokens).idOf s = some id ↔ tokens[id.toNat]? = some s := by
  have hidOf : (ofTokens tokens).idOf s = (List.lookup s tokens.zipIdx).map UInt32.ofNat :=
    lookup_map UInt32.ofNat
  rw [hidOf, map_eq_some_iff]
  simp only [lookup_zipIdx hnodup, Nat.zero_le, true_and, Nat.sub_zero]
  constructor
  · rintro ⟨n, htoken, rfl⟩
    obtain ⟨hlt, _⟩ := List.getElem?_eq_some_iff.1 htoken
    rwa [UInt32.toNat_ofNat_of_lt' (hlt.trans hlen)]
  · exact fun htoken => ⟨id.toNat, htoken, UInt32.ofNat_toNat⟩

theorem inverse_ofTokens (hnodup : tokens.Nodup) (hlen : tokens.length < 2 ^ 32) :
    (ofTokens tokens).Inverse := by
  refine ⟨fun s id h => (idOf_ofTokens hnodup hlen).1 h, fun i s htoken => ?_⟩
  obtain ⟨hlt, _⟩ := List.getElem?_eq_some_iff.1 htoken
  have hsame := UInt32.toNat_ofNat_of_lt' (hlt.trans hlen)
  exact ⟨UInt32.ofNat i, (idOf_ofTokens hnodup hlen).2 (by rw [hsame]; exact htoken), hsame⟩

theorem Inverse.idOf_of_mem (h : tk.Inverse) {s : List Char} (hs : s ∈ tk.tokens) :
    ∃ id, tk.idOf s = some id := by
  obtain ⟨i, htoken⟩ := mem_iff_getElem?.1 hs
  obtain ⟨id, hid, _⟩ := h.id_of_token i _ htoken
  exact ⟨id, hid⟩

theorem byteLevel_ofTokens (hnodup : tokens.Nodup) (hlen : tokens.length < 2 ^ 32)
    (hsymbol : ∀ b, [gpt2ByteEncoder b] ∈ tokens) : (ofTokens tokens).ByteLevel := by
  have hinverse := inverse_ofTokens hnodup hlen
  exact ⟨rfl, rfl, hinverse.token_of_id, hinverse.id_of_token,
    fun b => hinverse.idOf_of_mem (hsymbol b)⟩

def byteSymbols : List (List Char) :=
    (List.range 256).map fun n => [gpt2ByteEncoder (UInt8.ofNat n)]

theorem mem_byteSymbols {s : List Char} : s ∈ byteSymbols ↔ ∃ b, s = [gpt2ByteEncoder b] := by
  constructor
  · intro h
    obtain ⟨n, _, rfl⟩ := List.mem_map.1 h
    exact ⟨_, rfl⟩
  · rintro ⟨b, rfl⟩
    exact List.mem_map.2 ⟨b.toNat, mem_range.2 b.toNat_lt, by rw [UInt8.ofNat_toNat]⟩

theorem byteLevel_byteSymbols : (ofTokens byteSymbols).ByteLevel := by
  refine byteLevel_ofTokens ?_ ?_ fun b => mem_byteSymbols.2 ⟨b, rfl⟩
  · refine List.Nodup.map_on (fun n hn m hm h => ?_) nodup_range
    have hbyte := gpt2ByteEncoder_injective (singleton_inj.1 h)
    have hnat := congrArg UInt8.toNat hbyte
    rwa [UInt8.toNat_ofNat_of_lt' (mem_range.1 hn),
      UInt8.toNat_ofNat_of_lt' (mem_range.1 hm)] at hnat
  · simp [byteSymbols]

/-- A word and a letter that is two bytes. -/
theorem roundTrips_byteSymbols :
    (ofTokens byteSymbols).RoundTrips samplePrims "caf\u00e9 au lait\n".toList := by
  refine (roundTrips_of_lossless samplePrims byteLevel_byteSymbols _).1 (.inr ⟨?_, ?_⟩)
  · rw [Fits]
    decide +kernel
  · refine ⟨[.text "caf\u00e9 au lait\n".toList], by decide +kernel, fun seg hseg => ?_⟩
    obtain rfl := mem_singleton.1 hseg
    intro hnone
    exact absurd hnone (by simp [ofTokens])

/-- A special token that the vocabulary lacks is dropped. -/
theorem not_roundTrips_special : (ofTokens byteSymbols).ByteLevel ∧
    ¬(ofTokens byteSymbols).RoundTrips samplePrims "a<s>".toList := by
  refine ⟨byteLevel_byteSymbols, fun h => ?_⟩
  have hlossless := byteLevel_byteSymbols.lossless (by simp [ofTokens]) h
  rcases hlossless with hnil | ⟨_, segs, hsegs, hkept⟩
  · simp at hnil
  · have hexpected : (ofTokens byteSymbols).segments "a<s>".toList =
        some [.text "a".toList, .special "<s>".toList] := by decide +kernel
    obtain rfl := Option.some.inj (hexpected.symm.trans hsegs)
    obtain ⟨⟨id, hid⟩, _⟩ := hkept (.special "<s>".toList) (by simp)
    have htoken := byteLevel_byteSymbols.token_of_id _ _ hid
    obtain ⟨b, hb⟩ := mem_byteSymbols.1 (mem_of_getElem? htoken)
    simp at hb

end GgufTokenizer

end Grim.Tokenizer
