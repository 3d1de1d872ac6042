import Grim.Tokenizer.Model

/-!
# Bytes as characters, and back

Each byte has a character; what is read of a token is a byte for each such character, and any other
character as it is.  On the byte-level path a text goes through the characters of its bytes, through
the merges, which keep them, and through ids that the maps take back.
-/

namespace Grim.Tokenizer

open Utf8 List

theorem rank_lt {q : ℕ → Bool} {n m : ℕ} (hq : q n = true) (h : n < m) :
    ((List.range n).filter q).length < ((List.range m).filter q).length := by
  have hstep : ((List.range (n + 1)).filter q).length = ((List.range n).filter q).length + 1 := by
    simp [range_succ, hq]
  have hmono : ((List.range (n + 1)).filter q).length ≤ ((List.range m).filter q).length :=
    ((range_sublist.2 h).filter q).length_le
  omega

theorem toNat_ofNat_of_lt {n : ℕ} (h : n < 512) : (Char.ofNat n).toNat = n := by
  have hvalid : n.isValidChar := .inl (by omega)
  rw [Char.ofNat, dif_pos hvalid]
  rfl

theorem gpt2ByteEncoder_toNat (b : UInt8) : (gpt2ByteEncoder b).toNat =
    if isDirect b then b.toNat
    else 256 + ((List.range b.toNat).filter fun n => !isDirect (UInt8.ofNat n)).length := by
  have hb := b.toNat_lt
  have hrank : ((List.range b.toNat).filter fun n => !isDirect (UInt8.ofNat n)).length ≤ b.toNat :=
    (length_filter_le _ _).trans_eq length_range
  rw [gpt2ByteEncoder]
  split_ifs
  · exact toNat_ofNat_of_lt (by omega)
  · exact toNat_ofNat_of_lt (by omega)

theorem gpt2ByteEncoder_injective : Function.Injective gpt2ByteEncoder := fun b b' h => by
  have hb := b.toNat_lt
  have hb' := b'.toNat_lt
  have hcode := congrArg Char.toNat h
  rw [gpt2ByteEncoder_toNat, gpt2ByteEncoder_toNat] at hcode
  split_ifs at hcode with hd hd' hd'
  · exact UInt8.toNat_inj.1 hcode
  · omega
  · omega
  · -- two bytes of one rank
    rcases lt_trichotomy b.toNat b'.toNat with hlt | heq | hgt
    · have := rank_lt (q := fun n => !isDirect (UInt8.ofNat n)) (by simpa using hd) hlt
      omega
    · exact UInt8.toNat_inj.1 heq
    · have := rank_lt (q := fun n => !isDirect (UInt8.ofNat n)) (by simpa using hd') hgt
      omega

@[simp] theorem gpt2ByteDecoder_encoder (b : UInt8) :
    gpt2ByteDecoder (gpt2ByteEncoder b) = some b := by
  rcases hfind : gpt2ByteDecoder (gpt2ByteEncoder b) with _ | b'
  · have hmem : b ∈ (List.range 256).map UInt8.ofNat :=
      mem_map.2 ⟨b.toNat, mem_range.2 b.toNat_lt, UInt8.ofNat_toNat⟩
    have := find?_eq_none.1 hfind b hmem
    simp at this
  · have hsame : gpt2ByteEncoder b' = gpt2ByteEncoder b := by
      simpa using find?_some hfind
    rw [gpt2ByteEncoder_injective hsame]

theorem gpt2ByteDecoder_eq_some {c : Char} {b : UInt8} (h : gpt2ByteDecoder c = some b) :
    gpt2ByteEncoder b = c := by simpa using find?_some h

def part (c : Char) : Part :=
  match gpt2ByteDecoder c with
  | some b => .lone b
  | none => .whole c

def Plain (c : Char) : Prop := (part c).bytes = String.utf8EncodeChar c

@[simp] theorem part_encoder (b : UInt8) : part (gpt2ByteEncoder b) = .lone b := by
  rw [part, gpt2ByteDecoder_encoder]

theorem bytesOf_whole (text : List Char) : bytesOf (text.map Part.whole) = encode text :=
  flatMap_map ..

theorem bytesOf_lone (bs : List UInt8) : bytesOf (bs.map Part.lone) = bs := by
  induction bs with
  | nil => rfl
  | cons b bs ih => rw [map_cons, bytesOf_cons, ih]; rfl

theorem bytesOf_encoder (bs : List UInt8) :
    bytesOf ((bs.map gpt2ByteEncoder).map part) = bs := by
  have hparts : (bs.map gpt2ByteEncoder).map part = bs.map Part.lone := by simp
  rw [hparts, bytesOf_lone]

theorem bytesOf_plain : ∀ {s : List Char}, (∀ c ∈ s, Plain c) → bytesOf (s.map part) = encode s
  | [], _ => rfl
  | c :: s, h => by
    have hrest := bytesOf_plain fun d hd => h d (mem_cons_of_mem c hd)
    have hc : Plain c := h c mem_cons_self
    rw [map_cons, bytesOf_cons, hrest, hc, encode_cons]

theorem plain_of_face {c : Char} (h : (part c).face = c) : Plain c := by
  rw [Plain]
  rcases hbyte : gpt2ByteDecoder c with _ | b
  · rw [part, hbyte, Part.bytes]
  · rw [part, hbyte] at h ⊢
    rw [Part.face] at h
    split_ifs at h with hb
    · rw [← h, Part.bytes, encodeChar_ascii hb]
    · have hcode := congrArg Char.toNat (gpt2ByteDecoder_eq_some hbyte)
      have hlt : (gpt2ByteEncoder b).toNat < 512 := by
        have hb := b.toNat_lt
        have hrank : ((List.range b.toNat).filter fun n => !isDirect (UInt8.ofNat n)).length ≤
            b.toNat := (length_filter_le _ _).trans_eq length_range
        rw [gpt2ByteEncoder_toNat]
        split_ifs <;> omega
      rw [← h] at hcode
      have : replacement.toNat = 0xFFFD := by decide
      omega

theorem face_of_plain {c : Char} (h : Plain c) : (part c).face = c := by
  rw [Plain] at h
  rcases hbyte : gpt2ByteDecoder c with _ | b
  · rw [part, hbyte, Part.face]
  · rw [part, hbyte] at h ⊢
    obtain ⟨hb, hc⟩ := ascii_of_encodeChar (Eq.symm h)
    rw [Part.face, if_pos hb, hc]

theorem flatten_mergeAt : ∀ (i : ℕ) (symbols : List (List Char)),
    (mergeAt i symbols).flatten = symbols.flatten
  | _, [] => by simp [mergeAt]
  | 0, [_] => rfl
  | 0, a :: b :: rest => by simp [mergeAt]
  | i + 1, a :: rest => by
    rw [mergeAt, flatten_cons, flatten_mergeAt i rest, flatten_cons]

theorem flatten_mergeAll (merges : List Char → Option UInt32) : ∀ (n : ℕ)
    (symbols : List (List Char)), (mergeAll merges n symbols).flatten = symbols.flatten
  | 0, _ => rfl
  | n + 1, symbols => by
    rw [mergeAll]
    rcases bestPair merges 0 none symbols with _ | ⟨_, i⟩
    · rfl
    · exact (flatten_mergeAll merges n _).trans (flatten_mergeAt i symbols)

theorem flatten_mergeSymbols (merges : List Char → Option UInt32) (word : List Char) :
    (mergeSymbols merges word).flatten = word := by
  rw [mergeSymbols, flatten_mergeAll]
  induction word with
  | nil => rfl
  | cons c word ih => rw [map_cons, flatten_cons, ih]; rfl

variable {F : Type} {tk : GgufTokenizer F}

namespace GgufTokenizer

/-- A byte-level tokenizer that has the byte symbols, and whose two maps are inverse. -/
structure ByteLevel (tk : GgufTokenizer F) : Prop where
  modelType : tk.modelType = "bpe"
  byteDecoder : tk.byteDecoder = some gpt2ByteDecoder
  token_of_id : ∀ s id, tk.idOf s = some id → tk.tokens[id.toNat]? = some s
  id_of_token : ∀ i s, tk.tokens[i]? = some s → ∃ id, tk.idOf s = some id ∧ id.toNat = i
  symbol : ∀ b, ∃ id, tk.idOf [gpt2ByteEncoder b] = some id

def tokenText (tk : GgufTokenizer F) (id : UInt32) : List Char :=
  if id < UInt32.ofNat tk.tokens.length then (tk.tokens[id.toNat]?).getD [] else []

/-- The number of tokens fits its `u32`. -/
def Fits (tk : GgufTokenizer F) : Prop := tk.tokens.length < 2 ^ 32

structure Inverse (tk : GgufTokenizer F) : Prop where
  token_of_id : ∀ s id, tk.idOf s = some id → tk.tokens[id.toNat]? = some s
  id_of_token : ∀ i s, tk.tokens[i]? = some s → ∃ id, tk.idOf s = some id ∧ id.toNat = i

theorem ByteLevel.inverse (h : tk.ByteLevel) : tk.Inverse := ⟨h.token_of_id, h.id_of_token⟩

theorem Inverse.tokenText_eq (h : tk.Inverse) (hfits : tk.Fits) {s : List Char} {id : UInt32}
    (hid : tk.idOf s = some id) : tk.tokenText id = s := by
  have htoken := h.token_of_id s id hid
  obtain ⟨hlt, _⟩ := List.getElem?_eq_some_iff.1 htoken
  have hid' : id < UInt32.ofNat tk.tokens.length := by
    rw [UInt32.lt_iff_toNat_lt, UInt32.toNat_ofNat_of_lt' hfits]
    exact hlt
  rw [tokenText, if_pos hid', htoken, Option.getD_some]

theorem Inverse.idOf_tokenText (h : tk.Inverse) {s : List Char} {id : UInt32}
    (hs : tk.tokenText id = s) (hne : s ≠ []) : ∃ id', tk.idOf s = some id' := by
  rw [tokenText] at hs
  split_ifs at hs
  · rcases htoken : tk.tokens[id.toNat]? with _ | t
    · rw [htoken] at hs
      exact absurd hs.symm hne
    · rw [htoken, Option.getD_some] at hs
      obtain ⟨id', hid', _⟩ := h.id_of_token _ _ htoken
      exact ⟨id', hs ▸ hid'⟩
  · exact absurd hs.symm hne

theorem Inverse.tokenText_of_not_fits (h : tk.Inverse) (hfits : ¬tk.Fits) (id : UInt32) :
    tk.tokenText id = [] := by
  have hlen : tk.tokens.length ≤ 2 ^ 32 := by
    by_contra hlong
    have hlt : 2 ^ 32 < tk.tokens.length := by omega
    obtain ⟨id, _, hid⟩ := h.id_of_token _ _ (getElem?_eq_getElem hlt)
    have := id.toNat_lt
    omega
  have hcount : tk.tokens.length = 2 ^ 32 := le_antisymm hlen (not_lt.1 hfits)
  have hzero : UInt32.ofNat tk.tokens.length = 0 := by
    rw [hcount]
    decide
  rw [tokenText, hzero, if_neg UInt32.not_lt_zero]

theorem ByteLevel.decode_eq (h : tk.ByteLevel) (ids : List UInt32) :
    tk.decode ids = lossy (bytesOf ((ids.flatMap tk.tokenText).map part)) := by
  have hpart : ∀ c, (part c).bytes = match gpt2ByteDecoder c with
      | some b => [b]
      | none => String.utf8EncodeChar c := fun c => by
    rw [part]
    rcases gpt2ByteDecoder c with _ | b <;> rfl
  rw [decode, h.byteDecoder, bytesOf, flatMap_map]
  simp only [hpart]
  rfl

/-! ### A word -/

/-- What a character that is looked up on its own is decoded to. -/
def charText (tk : GgufTokenizer F) (c : Char) : List Char :=
  tk.tokenText ((tk.idOf [c]).getD tk.unkId)

theorem Inverse.charText_eq (h : tk.Inverse) (hfits : tk.Fits) {c : Char}
    (hid : ∃ id, tk.idOf [c] = some id) : tk.charText c = [c] := by
  obtain ⟨id, hid⟩ := hid
  rw [charText, hid, Option.getD_some, h.tokenText_eq hfits hid]

theorem encodeFallback_text (tk : GgufTokenizer F) (text : List Char) :
    (tk.encodeFallback text).flatMap tk.tokenText = text.flatMap tk.charText := flatMap_map ..

theorem flatMap_charText : ∀ {text : List Char}, (∀ c ∈ text, tk.charText c = [c]) →
    text.flatMap tk.charText = text
  | [], _ => rfl
  | c :: text, h => by
    rw [flatMap_cons, h c mem_cons_self,
      flatMap_charText fun d hd => h d (mem_cons_of_mem c hd), singleton_append]

theorem ByteLevel.symbolIds_text (h : tk.ByteLevel) (hfits : tk.Fits) {sym : List Char}
    (hsym : ∀ c ∈ sym, ∃ b, c = gpt2ByteEncoder b) :
    (tk.symbolIds sym).flatMap tk.tokenText = sym := by
  rw [symbolIds]
  rcases hid : tk.idOf sym with _ | id
  · refine (tk.encodeFallback_text sym).trans (flatMap_charText fun c hc => ?_)
    obtain ⟨b, rfl⟩ := hsym c hc
    exact h.inverse.charText_eq hfits (h.symbol b)
  · simp [h.inverse.tokenText_eq hfits hid]

theorem ByteLevel.wordIds_text (h : tk.ByteLevel) (hfits : tk.Fits)
    (merges : List (List Char × UInt32)) (piece : List Char) :
    (tk.wordIds merges piece).flatMap tk.tokenText = (Utf8.encode piece).map gpt2ByteEncoder := by
  simp only [wordIds]
  rcases hid : tk.idOf ((Utf8.encode piece).map gpt2ByteEncoder) with _ | id
  · have hflat := flatten_mergeSymbols (fun s => List.lookup s merges)
      ((Utf8.encode piece).map gpt2ByteEncoder)
    have hsyms : ∀ sym ∈ mergeSymbols (fun s => List.lookup s merges)
        ((Utf8.encode piece).map gpt2ByteEncoder), (tk.symbolIds sym).flatMap tk.tokenText =
          sym := by
      intro sym hsym
      refine h.symbolIds_text hfits fun c hc => ?_
      have hmem : c ∈ (Utf8.encode piece).map gpt2ByteEncoder := by
        rw [← hflat]
        exact mem_flatten_of_mem hsym hc
      obtain ⟨b, _, rfl⟩ := mem_map.1 hmem
      exact ⟨b, rfl⟩
    simp only [flatMap_assoc]
    rw [flatMap_congr hsyms, flatMap_id']
    exact hflat
  · simp [h.inverse.tokenText_eq hfits hid]

theorem map_encode_flatten (pieces : List (List Char)) :
    pieces.flatMap (fun p => (Utf8.encode p).map gpt2ByteEncoder) =
      (Utf8.encode pieces.flatten).map gpt2ByteEncoder := by
  induction pieces with
  | nil => rfl
  | cons p pieces ih => rw [flatMap_cons, ih, flatten_cons, encode_append, map_append]

theorem ByteLevel.bpeEncodeChunk_text (h : tk.ByteLevel) (hfits : tk.Fits) {cls : CharClasses}
    {merges : List (List Char × UInt32)} (hmerges : tk.bpeMerges = some merges)
    (text : List Char) : (tk.bpeEncodeChunk cls text).flatMap tk.tokenText =
      (Utf8.encode text).map gpt2ByteEncoder := by
  simp only [bpeEncodeChunk, hmerges, flatMap_assoc, h.wordIds_text hfits]
  rw [map_encode_flatten, flatten_splitOnGpt2Pretokenize]

end GgufTokenizer

end Grim.Tokenizer
