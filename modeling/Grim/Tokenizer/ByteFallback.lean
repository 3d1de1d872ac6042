import Grim.Tokenizer.Parallel
import Grim.Tokenizer.RoundTrip

/-!
# Byte fallback

A Gemma text is cut into lines, and each line merged.  A symbol without an id becomes a token for
each of its bytes, and those are decoded to their spelling, six characters to a byte.  So a text
without marks and special tokens comes back when no symbol is left without an id, and only then.
-/

namespace Grim.Tokenizer

open Chop Folds Utf8 List

theorem length_le_encode : ∀ text : List Char, text.length ≤ (encode text).length
  | [] => le_rfl
  | c :: text => by
    have hrest := length_le_encode text
    obtain ⟨b, ts, hc, _⟩ := encodeChar_eq_cons c
    rw [encode_cons, hc, length_append, length_cons, length_cons]
    omega

theorem ne_nil_of_mem_mergeAt : ∀ {i : ℕ} {symbols : List (List Char)}, (∀ s ∈ symbols, s ≠ []) →
    ∀ s ∈ mergeAt i symbols, s ≠ []
  | _, [], _ => by simp [mergeAt]
  | 0, [_], h => h
  | 0, a :: b :: rest, h => by
    intro s hs
    rcases mem_cons.1 hs with rfl | hs
    · exact append_ne_nil_of_left_ne_nil (h a mem_cons_self) b
    · exact h s (by simp [hs])
  | i + 1, a :: rest, h => by
    intro s hs
    rw [mergeAt, mem_cons] at hs
    rcases hs with rfl | hs
    · exact h s mem_cons_self
    · exact ne_nil_of_mem_mergeAt (fun t ht => h t (mem_cons_of_mem a ht)) s hs

theorem ne_nil_of_mem_mergeAll (merges : List Char → Option UInt32) : ∀ {n : ℕ}
    {symbols : List (List Char)}, (∀ s ∈ symbols, s ≠ []) → ∀ s ∈ mergeAll merges n symbols, s ≠ []
  | 0, _, h => h
  | n + 1, symbols, h => by
    rw [mergeAll]
    rcases bestPair merges 0 none symbols with _ | ⟨_, i⟩
    · exact h
    · exact ne_nil_of_mem_mergeAll merges (ne_nil_of_mem_mergeAt h)

theorem ne_nil_of_mem_mergeSymbols {merges : List Char → Option UInt32} {word sym : List Char}
    (h : sym ∈ mergeSymbols merges word) : sym ≠ [] := by
  refine ne_nil_of_mem_mergeAll merges (fun s hs => ?_) sym h
  obtain ⟨c, _, rfl⟩ := mem_map.1 hs
  exact cons_ne_nil c []

theorem two_le_length_byteToken (n : ℕ) : 2 ≤ (byteToken n).length := by
  have hopen : ("<0x".toList).length = 3 := by decide
  rw [byteToken, length_append, length_append, hopen]
  omega

variable {F : Type} {tk : GgufTokenizer F}

namespace GgufTokenizer

structure ByteFallback (tk : GgufTokenizer F) : Prop extends tk.Inverse where
  modelType : tk.modelType = "gemma4"
  byteDecoder : tk.byteDecoder = none
  byte : ∀ b : UInt8, ∃ id, tk.idOf (byteToken b.toNat) = some id

def spmPieces (text : List Char) : List (List Char) :=
  (if 8192 ≤ size text then chunks text 4096 else [text]).flatMap newlineRuns.pieces

theorem flatten_spmPieces (text : List Char) : (spmPieces text).flatten = text := by
  have hpieces : ∀ parts : List (List Char), (parts.flatMap newlineRuns.pieces).flatten =
      parts.flatten := fun parts => by
    induction parts with
    | nil => rfl
    | cons part parts ih =>
      rw [flatMap_cons, flatten_append, ih, Cutter.flatten_pieces, flatten_cons]
  rw [spmPieces, hpieces]
  split_ifs
  · exact flatten_chunks (by omega) text
  · exact flatten_singleton

def NoSpecial (tk : GgufTokenizer F) (text : List Char) : Prop :=
  ∀ st ∈ tk.specialTokens, ∀ pos, ¬Occurs st pos text

theorem NoSpecial.nil_notMem {text : List Char} (h : tk.NoSpecial text) :
    [] ∉ tk.specialTokens := fun hnil => h [] hnil 0 (occurs_zero.2 nil_prefix)

theorem NoSpecial.part {pre part post : List Char} (h : tk.NoSpecial (pre ++ (part ++ post))) :
    tk.NoSpecial part := fun st hst _ hocc =>
  h st hst _ ((hocc.append post).append_left pre)

theorem NoSpecial.of_mem {parts : List (List Char)} (h : tk.NoSpecial parts.flatten)
    {part : List Char} (hpart : part ∈ parts) : tk.NoSpecial part := by
  obtain ⟨before, after, rfl⟩ := append_of_mem hpart
  rw [flatten_append, flatten_cons] at h
  exact h.part

def lineIds (tk : GgufTokenizer F) (piece : List Char) : List UInt32 :=
  tk.spmPieceIds (piece.map escapeSpace)

theorem ByteFallback.encodeSerial_eq (h : tk.ByteFallback) (prims : Prims F) {text : List Char}
    (hne : text ≠ []) (hspecial : tk.NoSpecial text) :
    tk.encodeSerial prims text = some ((newlineRuns.pieces text).flatMap tk.lineIds) := by
  have hmodel : ¬tk.modelType = "bpe" := by
    rw [h.modelType]
    decide
  have hsplit : splitSpecials tk.specialTokens text = some (textSegment text) :=
    (splitSpecials_eq_some hspecial.nil_notMem).2 (.last hspecial)
  rw [encodeSerial, if_neg hne, if_neg hmodel, if_pos h.modelType, hsplit, textSegment, if_neg hne]
  simp only [Option.bind_some, encodeSegments, mapM_cons, mapM_nil, encodeSpmBpeChunk,
    splitNewlineRuns_escape, flatMap_map]
  exact congrArg some flatten_singleton

theorem ByteFallback.encode_eq (h : tk.ByteFallback) (prims : Prims F) {text : List Char}
    (hne : text ≠ []) (hspecial : tk.NoSpecial text) :
    tk.encode prims text = some ((spmPieces text).flatMap tk.lineIds) := by
  rw [encode, if_neg hne, spmPieces]
  split_ifs with hlong
  · have hchunks : ∀ chunk ∈ chunks text 4096, tk.encodeSerial prims chunk =
        (some chunk).map fun chunk => (newlineRuns.pieces chunk).flatMap tk.lineIds := by
      intro chunk hmem
      refine h.encodeSerial_eq prims (ne_nil_of_mem_chunks (by omega) hmem) ?_
      have hflat : (chunks text 4096).flatten = text := flatten_chunks (by omega) text
      rw [← hflat] at hspecial
      exact hspecial.of_mem hmem
    have hid : (chunks text 4096).mapM some = some (chunks text 4096) := by
      simpa using mapM_pure (m := Option) (l := chunks text 4096) (f := id)
    rw [mapM_map hchunks, hid, flatMap_assoc]
    rfl
  · rw [h.encodeSerial_eq prims hne hspecial, flatMap_singleton]

def shown (c : Char) : Char :=
  let c := if c = '\u2581' then ' ' else c
  if c = '\u0120' then ' ' else if c = '\u010A' then '\n' else c

theorem ByteFallback.decode_eq (h : tk.ByteFallback) (ids : List UInt32) :
    tk.decode ids = (ids.flatMap tk.tokenText).map shown := by
  simp only [decode, h.byteDecoder]
  rw [if_pos (.inr (.inr h.modelType)), map_map]
  rfl

def lineText (tk : GgufTokenizer F) (piece : List Char) : List Char :=
  ((tk.lineIds piece).flatMap tk.tokenText).map shown

theorem ByteFallback.decode_lines (h : tk.ByteFallback) (pieces : List (List Char)) :
    tk.decode (pieces.flatMap tk.lineIds) = pieces.flatMap tk.lineText := by
  rw [h.decode_eq, flatMap_assoc, map_flatMap]
  rfl

/-- The character has an id and is not shown as another, or the unknown token is shown as it. -/
def CharKept (tk : GgufTokenizer F) (c : Char) : Prop :=
  (∃ id, tk.idOf [escapeSpace c] = some id) ∧ c ≠ '\u0120' ∧ c ≠ '\u010A' ∨
    tk.idOf [escapeSpace c] = none ∧ (tk.tokenText tk.unkId).map shown = [c]

/-- The line is a run of newlines with an id; or the merges leave symbols with ids, and no
character is shown as another; or without merges each character comes back. -/
def LineKept (tk : GgufTokenizer F) (piece : List Char) : Prop :=
  ((∀ c ∈ piece, c = '\n') ∧ ∃ id, tk.idOf piece = some id) ∨
    match tk.bpeMerges with
    | some merges => (∀ c ∈ piece, c ≠ '\u0120' ∧ c ≠ '\u010A') ∧
        ∀ sym ∈ mergeSymbols (fun s => List.lookup s merges) (piece.map escapeSpace),
          ∃ id, tk.idOf sym = some id
    | none => ∀ c ∈ piece, tk.CharKept c

theorem flatMap_eq_iff {α β : Type*} {f g : α → List β} (xs : List α)
    (h : (∀ x ∈ xs, (f x).length ≤ (g x).length) ∨ ∀ x ∈ xs, (g x).length ≤ (f x).length) :
    xs.flatMap f = xs.flatMap g ↔ ∀ x ∈ xs, f x = g x := by
  refine ⟨fun heq => ?_, fun heach => flatMap_congr heach⟩
  rcases h with hle | hle
  · exact eq_of_flatMap_eq hle (by rw [heq]) heq
  · exact fun x hx => (eq_of_flatMap_eq hle (by rw [heq]) heq.symm x hx).symm

theorem length_eq_of_flatMap {α β : Type*} {f g : α → List β} : ∀ {xs : List α},
    (∀ x ∈ xs, (f x).length ≤ (g x).length) →
      (xs.flatMap g).length ≤ (xs.flatMap f).length → ∀ x ∈ xs, (g x).length ≤ (f x).length
  | [], _, _ => by simp
  | x :: xs, hle, htotal => by
    have hrest : (xs.flatMap f).length ≤ (xs.flatMap g).length := by
      rw [length_flatMap, length_flatMap]
      exact sum_le_sum fun y hy => hle y (mem_cons_of_mem x hy)
    have hx := hle x mem_cons_self
    simp only [flatMap_cons, length_append] at htotal
    intro y hy
    rcases mem_cons.1 hy with rfl | hy
    · omega
    · exact length_eq_of_flatMap (fun z hz => hle z (mem_cons_of_mem x hz)) (by omega) y hy

theorem shown_escapeSpace {c : Char} (hmark : c ≠ '\u2581') :
    shown (escapeSpace c) = c ↔ c ≠ '\u0120' ∧ c ≠ '\u010A' := by
  by_cases hspace : c = ' '
  · subst hspace
    decide
  · rw [escapeSpace, if_neg hspace, shown]
    simp only [if_neg hmark]
    split_ifs with hword hline
    · subst hword
      decide
    · subst hline
      decide
    · exact ⟨fun _ => ⟨hword, hline⟩, fun _ => rfl⟩

theorem map_shown_escapeSpace {piece : List Char} (hmark : '\u2581' ∉ piece) :
    (piece.map escapeSpace).map shown = piece ↔ ∀ c ∈ piece, c ≠ '\u0120' ∧ c ≠ '\u010A' := by
  rw [map_map]
  conv_lhs => rw [← map_id piece, map_map, map_inj_left]
  refine forall₂_congr fun c hc => ?_
  exact shown_escapeSpace fun heq => hmark (heq ▸ hc)

theorem length_charText (h : tk.Inverse) (hfits : tk.Fits) (c : Char) :
    (tk.charText c).length = 1 ∨ (tk.charText c).length = (tk.tokenText tk.unkId).length := by
  rcases hid : tk.idOf [c] with _ | id
  · rw [charText, hid]
    exact .inr rfl
  · rw [h.charText_eq hfits ⟨id, hid⟩]
    exact .inl rfl

theorem charKept_iff (h : tk.Inverse) (hfits : tk.Fits) {c : Char} (hmark : c ≠ '\u2581') :
    (tk.charText (escapeSpace c)).map shown = [c] ↔ tk.CharKept c := by
  rw [CharKept]
  rcases hid : tk.idOf [escapeSpace c] with _ | id
  · simp [charText, hid]
  · rw [h.charText_eq hfits ⟨id, hid⟩, map_singleton, singleton_inj,
      shown_escapeSpace hmark]
    simp

theorem fallback_text (tk : GgufTokenizer F) (piece : List Char) :
    ((tk.encodeFallback (piece.map escapeSpace)).flatMap tk.tokenText).map shown =
      piece.flatMap fun c => (tk.charText (escapeSpace c)).map shown := by
  rw [encodeFallback_text, flatMap_map, map_flatMap]

def symbolText (tk : GgufTokenizer F) (sym : List Char) : List Char :=
  ((tk.spmSymbolIds sym).flatMap tk.tokenText).map shown

theorem symbolText_of_id (h : tk.Inverse) (hfits : tk.Fits) {sym : List Char} {id : UInt32}
    (hid : tk.idOf sym = some id) : tk.symbolText sym = sym.map shown := by
  rw [symbolText, spmSymbolIds, hid]
  simp only [flatMap_singleton, h.tokenText_eq hfits hid]

theorem ByteFallback.symbolText_of_none (h : tk.ByteFallback) (hfits : tk.Fits) {sym : List Char}
    (hid : tk.idOf sym = none) : 2 * sym.length ≤ (tk.symbolText sym).length := by
  have hbytes : ∀ bs : List UInt8, 2 * bs.length ≤
      ((bs.filterMap fun b => tk.idOf (byteToken b.toNat)).flatMap tk.tokenText).length :=
        fun bs => by
    induction bs with
    | nil => exact le_rfl
    | cons b bs ih =>
      obtain ⟨id, hb⟩ := h.byte b
      have htwo := two_le_length_byteToken b.toNat
      simp only [filterMap_cons, hb, flatMap_cons, length_append,
        h.tokenText_eq hfits hb, length_cons]
      omega
  have hchars := length_le_encode sym
  have hall := hbytes (Utf8.encode sym)
  simp only [symbolText, spmSymbolIds, hid, length_map]
  omega

theorem ByteFallback.length_symbolText (h : tk.ByteFallback) (hfits : tk.Fits) (sym : List Char) :
    sym.length ≤ (tk.symbolText sym).length := by
  rcases hid : tk.idOf sym with _ | id
  · have := h.symbolText_of_none hfits hid
    omega
  · rw [symbolText_of_id h.toInverse hfits hid, length_map]

theorem ByteFallback.idOf_of_length_le (h : tk.ByteFallback) (hfits : tk.Fits) {sym : List Char}
    (hne : sym ≠ []) (hle : (tk.symbolText sym).length ≤ sym.length) :
    ∃ id, tk.idOf sym = some id := by
  rcases hid : tk.idOf sym with _ | id
  · have hlong := h.symbolText_of_none hfits hid
    have hpos := length_pos_of_ne_nil hne
    omega
  · exact ⟨id, rfl⟩

section Merged

variable {merges : List (List Char × UInt32)}

def symbolsOf (merges : List (List Char × UInt32)) (piece : List Char) : List (List Char) :=
  mergeSymbols (fun s => List.lookup s merges) (piece.map escapeSpace)

theorem flatMap_shown_symbolsOf (merges : List (List Char × UInt32)) (piece : List Char) :
    ((symbolsOf merges piece).flatMap fun sym => sym.map shown) =
      (piece.map escapeSpace).map shown := by
  rw [← map_flatMap, flatMap_id', symbolsOf, flatten_mergeSymbols]

theorem ByteFallback.merged_eq_iff (h : tk.ByteFallback) (hfits : tk.Fits) {piece : List Char}
    (hmark : '\u2581' ∉ piece) : (symbolsOf merges piece).flatMap tk.symbolText = piece ↔
      (∀ c ∈ piece, c ≠ '\u0120' ∧ c ≠ '\u010A') ∧
        ∀ sym ∈ symbolsOf merges piece, ∃ id, tk.idOf sym = some id := by
  have hlength : ∀ sym ∈ symbolsOf merges piece,
      (sym.map shown).length ≤ (tk.symbolText sym).length := fun sym _ => by
    rw [length_map]
    exact h.length_symbolText hfits sym
  have hall : (∀ sym ∈ symbolsOf merges piece, ∃ id, tk.idOf sym = some id) →
      (symbolsOf merges piece).flatMap tk.symbolText = (piece.map escapeSpace).map shown := by
    intro hids
    rw [← flatMap_shown_symbolsOf]
    refine flatMap_congr fun sym hsym => ?_
    obtain ⟨id, hid⟩ := hids sym hsym
    exact symbolText_of_id h.toInverse hfits hid
  rw [← map_shown_escapeSpace hmark]
  constructor
  · intro heq
    have htotal : ((symbolsOf merges piece).flatMap tk.symbolText).length ≤
        ((symbolsOf merges piece).flatMap fun sym => sym.map shown).length := by
      rw [heq, flatMap_shown_symbolsOf, length_map, length_map]
    have hids : ∀ sym ∈ symbolsOf merges piece, ∃ id, tk.idOf sym = some id := fun sym hsym => by
      have hle := length_eq_of_flatMap hlength htotal sym hsym
      rw [length_map] at hle
      exact h.idOf_of_length_le hfits (ne_nil_of_mem_mergeSymbols hsym) hle
    exact ⟨(hall hids).symm.trans heq, hids⟩
  · rintro ⟨hshown, hids⟩
    rw [hall hids, hshown]

theorem ByteFallback.length_merged (h : tk.ByteFallback) (hfits : tk.Fits) (piece : List Char) :
    piece.length ≤ ((symbolsOf merges piece).flatMap tk.symbolText).length := by
  have htotal := congrArg List.length (flatMap_shown_symbolsOf merges piece)
  rw [length_map, length_map] at htotal
  rw [← htotal, length_flatMap, length_flatMap]
  refine sum_le_sum fun sym _ => ?_
  rw [length_map]
  exact h.length_symbolText hfits sym

end Merged

def NewlineToken (tk : GgufTokenizer F) (piece : List Char) : Prop :=
  (∀ c ∈ piece, c = '\n') ∧ ∃ id, tk.idOf piece = some id

theorem map_newlines {f : Char → Char} (hf : f '\n' = '\n') {piece : List Char}
    (h : ∀ c ∈ piece, c = '\n') : piece.map f = piece := by
  conv_rhs => rw [← map_id piece]
  refine map_congr_left fun c hc => ?_
  rw [h c hc, hf, id]

theorem lineText_newlines (h : tk.Inverse) (hfits : tk.Fits) {piece : List Char}
    (hline : tk.NewlineToken piece) : tk.lineText piece = piece := by
  obtain ⟨hall, id, hid⟩ := hline
  have hescape : piece.map escapeSpace = piece := map_newlines (by decide) hall
  have hpiece : piece.all (fun c => c = '\n') = true := by simpa using hall
  simp only [lineText, lineIds, hescape, spmPieceIds, hpiece, if_true, hid, flatMap_singleton,
    h.tokenText_eq hfits hid]
  exact map_newlines (by decide) hall

theorem lineText_of_not {piece : List Char} (hline : ¬tk.NewlineToken piece) : tk.lineText piece =
    match tk.bpeMerges with
    | some merges => (symbolsOf merges piece).flatMap tk.symbolText
    | none => piece.flatMap fun c => (tk.charText (escapeSpace c)).map shown := by
  have hids : tk.lineIds piece = tk.bpeMergeSpmPiece (piece.map escapeSpace) := by
    rw [lineIds, spmPieceIds]
    split_ifs with hall
    · have hnewlines : ∀ c ∈ piece, c = '\n' := fun c hc => by
        have hc' : escapeSpace c = '\n' := by
          simpa using all_eq_true.1 hall _ (mem_map_of_mem hc)
        rw [escapeSpace] at hc'
        split_ifs at hc' with hspace
        · exact absurd hc' (by decide)
        · exact hc'
      rw [map_newlines (by decide) hnewlines]
      rcases hid : tk.idOf piece with _ | id
      · rfl
      · exact absurd ⟨hnewlines, id, hid⟩ hline
    · rfl
  rw [lineText, hids, bpeMergeSpmPiece]
  rcases tk.bpeMerges with _ | merges
  · exact fallback_text tk piece
  · simp only [flatMap_assoc]
    rw [map_flatMap]
    rfl

theorem length_shown_charText (h : tk.Inverse) (hfits : tk.Fits) :
    (∀ c, 1 ≤ ((tk.charText (escapeSpace c)).map shown).length) ∨
      ∀ c, ((tk.charText (escapeSpace c)).map shown).length ≤ 1 := by
  simp only [length_map]
  rcases Nat.eq_zero_or_pos (tk.tokenText tk.unkId).length with hzero | hpos
  · refine .inr fun c => ?_
    rcases length_charText h hfits (escapeSpace c) with hlen | hlen <;> omega
  · refine .inl fun c => ?_
    rcases length_charText h hfits (escapeSpace c) with hlen | hlen <;> omega

theorem ByteFallback.length_lineText (h : tk.ByteFallback) (hfits : tk.Fits) :
    (∀ piece, piece.length ≤ (tk.lineText piece).length) ∨
      ∀ piece, (tk.lineText piece).length ≤ piece.length := by
  have hlines : ∀ {R : ℕ → ℕ → Prop}, (∀ n, R n n) →
      (∀ piece, ¬tk.NewlineToken piece → R piece.length (tk.lineText piece).length) →
      ∀ piece, R piece.length (tk.lineText piece).length := fun hrefl hrest piece => by
    by_cases hline : tk.NewlineToken piece
    · rw [lineText_newlines h.toInverse hfits hline]
      exact hrefl _
    · exact hrest piece hline
  rcases hmerges : tk.bpeMerges with _ | merges
  · have htext : ∀ piece, ¬tk.NewlineToken piece → (tk.lineText piece).length =
        (piece.map fun c => ((tk.charText (escapeSpace c)).map shown).length).sum := by
      intro piece hline
      rw [lineText_of_not hline, hmerges, length_flatMap]
    rcases length_shown_charText h.toInverse hfits with hlong | hshort
    · refine .inl (hlines (R := (· ≤ ·)) le_refl fun piece hline => ?_)
      have := card_nsmul_le_sum (piece.map fun c =>
        ((tk.charText (escapeSpace c)).map shown).length) 1 (by simpa using fun c _ => hlong c)
      rw [htext piece hline]
      simpa using this
    · refine .inr (hlines (R := (· ≥ ·)) le_refl fun piece hline => ?_)
      have := sum_le_card_nsmul (piece.map fun c =>
        ((tk.charText (escapeSpace c)).map shown).length) 1 (by simpa using fun c _ => hshort c)
      rw [htext piece hline]
      simpa using this
  · refine .inl (hlines (R := (· ≤ ·)) le_refl fun piece hline => ?_)
    rw [lineText_of_not hline, hmerges]
    exact h.length_merged hfits piece

theorem ByteFallback.lineText_eq_iff (h : tk.ByteFallback) (hfits : tk.Fits) {piece : List Char}
    (hmark : '\u2581' ∉ piece) : tk.lineText piece = piece ↔ tk.LineKept piece := by
  rw [LineKept, ← NewlineToken]
  by_cases hline : tk.NewlineToken piece
  · simp only [lineText_newlines h.toInverse hfits hline, hline, true_or]
  · rw [lineText_of_not hline, or_iff_right hline]
    rcases tk.bpeMerges with _ | merges
    · have hone : ∀ c ∈ piece, (tk.charText (escapeSpace c)).map shown = [c] ↔ tk.CharKept c :=
        fun c hc => charKept_iff h.toInverse hfits fun heq => hmark (heq ▸ hc)
      have hsingle : piece.flatMap (fun c => [c]) = piece := flatMap_singleton' piece
      have hiff := flatMap_eq_iff (f := fun c => (tk.charText (escapeSpace c)).map shown)
        (g := fun c => [c]) piece
        ((length_shown_charText h.toInverse hfits).symm.imp (fun hle c _ => hle c)
          fun hle c _ => hle c)
      rw [hsingle] at hiff
      exact hiff.trans (forall₂_congr hone)
    · exact h.merged_eq_iff hfits hmark

/-- A text without marks and special tokens is decoded to itself exactly when each of its lines
comes back. -/
theorem fallback_roundTrips_iff (prims : Prims F) (h : tk.ByteFallback) {text : List Char}
    (hmark : '\u2581' ∉ text) (hspecial : tk.NoSpecial text) :
    tk.RoundTrips prims text ↔
      text = [] ∨ tk.Fits ∧ ∀ piece ∈ spmPieces text, tk.LineKept piece := by
  by_cases hne : text = []
  · subst hne
    simp [RoundTrips, encode, h.decode_eq]
  rw [RoundTrips, h.encode_eq prims hne hspecial, Option.map_some, Option.some_inj, h.decode_lines,
    or_iff_right hne]
  have hspell : (spmPieces text).flatMap id = text := by
    rw [flatMap_id, flatten_spmPieces]
  by_cases hfits : tk.Fits
  · have hmem : ∀ piece ∈ spmPieces text, '\u2581' ∉ piece := fun piece hpiece hin => by
      refine hmark ?_
      rw [← flatten_spmPieces text]
      exact mem_flatten_of_mem hpiece hin
    have hiff := flatMap_eq_iff (f := tk.lineText) (g := id) (spmPieces text)
      ((h.length_lineText hfits).symm.imp (fun hle p _ => hle p) fun hle p _ => hle p)
    rw [hspell] at hiff
    rw [hiff, and_iff_right hfits]
    exact forall₂_congr fun piece hpiece => h.lineText_eq_iff hfits (hmem piece hpiece)
  · refine ⟨fun heq => absurd heq.symm ?_, fun hkept => absurd hkept.1 hfits⟩
    have hnone : (spmPieces text).flatMap tk.lineText = [] := by
      refine flatMap_eq_nil_iff.2 fun piece _ => ?_
      have hids : (tk.lineIds piece).flatMap tk.tokenText = [] :=
        flatMap_eq_nil_iff.2 fun id _ => h.tokenText_of_not_fits hfits id
      rw [lineText, hids]
      rfl
    rwa [hnone]

def byteTokens : List (List Char) := (List.range 256).map byteToken

/-- The byte tokens, and `a`. -/
def gemma : GgufTokenizer ℤ :=
  { ofTokens (byteTokens ++ [['a']]) with modelType := "gemma4", byteDecoder := none }

def byteValue (s : List Char) : ℕ :=
  (s.drop 3).dropLast.foldl
    (fun n c => 16 * n + if c.isDigit then c.toNat - '0'.toNat else c.toNat - 'A'.toNat + 10) 0

theorem map_byteValue : byteTokens.map byteValue = List.range 256 := by decide +kernel

theorem nodup_gemma : (byteTokens ++ [['a']]).Nodup := by
  have hbytes : byteTokens.Nodup := .of_map byteValue (map_byteValue ▸ nodup_range)
  refine hbytes.append (nodup_singleton _) (disjoint_singleton.2 fun hmem => ?_)
  obtain ⟨n, _, hn⟩ := mem_map.1 hmem
  have hlong := two_le_length_byteToken n
  rw [hn] at hlong
  exact absurd hlong (by decide)

theorem byteFallback_gemma : gemma.ByteFallback := by
  have hinverse : (ofTokens (byteTokens ++ [['a']])).Inverse :=
    inverse_ofTokens nodup_gemma (by simp [byteTokens])
  refine ⟨⟨hinverse.token_of_id, hinverse.id_of_token⟩, rfl, rfl, fun b => ?_⟩
  have hmem : byteToken b.toNat ∈ byteTokens ++ [['a']] :=
    mem_append_left _ (mem_map_of_mem (mem_range.2 b.toNat_lt))
  exact hinverse.idOf_of_mem hmem

theorem noSpecial_gemma {text : List Char} (h : '<' ∉ text) : gemma.NoSpecial text := by
  have hspecials : gemma.specialTokens = genericSpecials := rfl
  have hbracket : ∀ st ∈ genericSpecials, '<' ∈ st := by decide
  rw [NoSpecial, hspecials]
  rintro st hst pos ⟨before, after, rfl, _⟩
  exact h (by simp [hbracket st hst])

theorem fallback_roundTrips_iff_letters : gemma.RoundTrips samplePrims "aa".toList := by
  refine (fallback_roundTrips_iff samplePrims byteFallback_gemma (by decide)
    (noSpecial_gemma (by decide))).2 (.inr ⟨?_, fun piece hpiece => .inr ?_⟩)
  · rw [Fits]
    simp [gemma, ofTokens, byteTokens]
  · have hpieces : spmPieces "aa".toList = ["aa".toList] := by decide
    rw [hpieces, mem_singleton] at hpiece
    subst hpiece
    refine ⟨by simp, fun sym hsym => ?_⟩
    have hsymbols : mergeSymbols (fun s => List.lookup s ([] : List (List Char × UInt32)))
        ("aa".toList.map escapeSpace) = [['a'], ['a']] := by decide
    have hsym' : sym ∈ [['a'], ['a']] := hsymbols ▸ hsym
    obtain rfl : sym = ['a'] := by simpa using hsym'
    exact byteFallback_gemma.idOf_of_mem (mem_append_right _ (mem_singleton_self _))

/-- An accented letter that is no token comes back as the spelling of its bytes. -/
theorem letter_spelled_in_bytes : gemma.ByteFallback ∧ '\u2581' ∉ "a\u00e9".toList ∧
    gemma.NoSpecial "a\u00e9".toList ∧ ¬gemma.RoundTrips samplePrims "a\u00e9".toList := by
  refine ⟨byteFallback_gemma, by decide, noSpecial_gemma (by decide), ?_⟩
  have hback : (gemma.encode samplePrims "a\u00e9".toList).map gemma.decode =
      some "a<0xC3><0xA9>".toList := by decide +kernel
  rw [RoundTrips, hback]
  decide

end GgufTokenizer

end Grim.Tokenizer
