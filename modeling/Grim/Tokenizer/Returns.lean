import Grim.Lib.Fuel
import Grim.Tokenizer.Cuts
import Grim.Tokenizer.Parallel

/-!
# The loops of an encoding

Encoding with fuel for its loops: `none` is a run that panics, or whose loops have not come to their
end.  The scanners take a character at least and a merge takes a symbol away, so only the search for
special tokens can go on for ever.
-/

namespace Grim.Tokenizer

open Chop Fuel List

def mergeAllWithin (merges : List Char → Option UInt32) :
    ℕ → List (List Char) → Option (List (List Char))
  | 0, _ => none
  | n + 1, symbols =>
    match bestPair merges 0 none symbols with
    | none => some symbols
    | some (_, i) => mergeAllWithin merges n (mergeAt i symbols)

theorem bestPair_lt {merges : List Char → Option UInt32} : ∀ {symbols : List (List Char)} {i : ℕ}
    {best : Option (UInt32 × ℕ)} {rank : UInt32} {j : ℕ},
    bestPair merges i best symbols = some (rank, j) →
      best = some (rank, j) ∨ i ≤ j ∧ j + 1 < i + symbols.length
  | [], _, _, _, _, h => .inl h
  | [_], _, _, _, _, h => .inl h
  | a :: b :: rest, i, best, rank, j, h => by
    rw [bestPair] at h
    have hrest := bestPair_lt h
    simp only [length_cons] at hrest ⊢
    rcases hrest with hbest | ⟨hle, hlt⟩
    · rcases hm : merges (a ++ ' ' :: b) with _ | r
      · exact .inl (by simpa [hm] using hbest)
      · simp only [hm] at hbest
        split_ifs at hbest
        · obtain ⟨_, rfl⟩ := Prod.mk.inj (Option.some.inj hbest)
          exact .inr ⟨le_rfl, by omega⟩
        · exact .inl hbest
    · exact .inr ⟨by omega, by omega⟩

theorem length_mergeAt : ∀ {i : ℕ} {symbols : List (List Char)}, i + 1 < symbols.length →
    (mergeAt i symbols).length + 1 = symbols.length
  | _, [], h => by simp at h
  | 0, [_], h => by simp at h
  | 0, _ :: _ :: _, _ => rfl
  | i + 1, a :: rest, h => by
    rw [length_cons] at h
    rw [mergeAt, length_cons, length_cons, length_mergeAt (by omega)]

theorem mergeAllWithin_mono {merges : List Char → Option UInt32} : ∀ (n : ℕ)
    {symbols out : List (List Char)}, mergeAllWithin merges n symbols = some out →
      mergeAllWithin merges (n + 1) symbols = some out
  | 0, _, _, h => by simp [mergeAllWithin] at h
  | n + 1, symbols, out, h => by
    rw [mergeAllWithin] at h ⊢
    rcases hbest : bestPair merges 0 none symbols with _ | ⟨_, i⟩
    · rwa [hbest] at h
    · rw [hbest] at h
      exact mergeAllWithin_mono n h

theorem mergeAllWithin_of_lt {merges : List Char → Option UInt32} : ∀ (n : ℕ)
    {symbols : List (List Char)}, symbols.length < n →
      mergeAllWithin merges n symbols = some (mergeAll merges symbols.length symbols)
  | 0, _, h => absurd h (Nat.not_lt_zero _)
  | n + 1, symbols, h => by
    rw [mergeAllWithin]
    rcases hbest : bestPair merges 0 none symbols with _ | ⟨rank, i⟩
    · rcases symbols with _ | ⟨a, rest⟩
      · rfl
      · rw [length_cons, mergeAll, hbest]
    · obtain ⟨_, hlt⟩ := (bestPair_lt hbest).resolve_left (by simp)
      have hlen : (mergeAt i symbols).length + 1 = symbols.length := length_mergeAt (by omega)
      have hmerge : mergeAll merges symbols.length symbols =
          mergeAll merges (mergeAt i symbols).length (mergeAt i symbols) := by
        rw [← hlen, mergeAll, hbest]
      rw [hmerge]
      exact mergeAllWithin_of_lt n (by omega)

def mergeSymbolsWithin (merges : List Char → Option UInt32) (n : ℕ) (word : List Char) :
    Option (List (List Char)) := mergeAllWithin merges n (word.map fun c => [c])

theorem gives_mergeSymbols (merges : List Char → Option UInt32) (word : List Char) :
    Gives (fun n => mergeSymbolsWithin merges n word) (some (mergeSymbols merges word)) := by
  refine gives_of_mono (fun n _ => mergeAllWithin_mono n) (n := word.length + 1) ?_
  rw [mergeSymbolsWithin, mergeSymbols, mergeAllWithin_of_lt _ (by simp), length_map]

theorem gives_flatMap {α : Type*} {f : α → ℕ → Option (List UInt32)} {g : α → List UInt32}
    {xs : List α} (h : ∀ x ∈ xs, Gives (f x) (some (g x))) :
    Gives (fun n => (xs.mapM fun x => f x n).map List.flatten) (some (xs.flatMap g)) := by
  have hmap : xs.mapM (fun x => some (g x)) = some (xs.map g) := mapM_pure
  have hparts := (gives_mapM h).map List.flatten
  rwa [hmap, Option.map_some, ← flatMap_def] at hparts

variable {F : Type}

namespace GgufTokenizer

def charIdsWithin (tk : GgufTokenizer F) : ℕ → List Char → Option (List UInt32)
  | 0, _ => none
  | _ + 1, [] => some []
  | n + 1, c :: cs =>
    let special := if c = '<' then
        legacySpecials.find? fun st => st.isPrefixOf (c :: cs) && (tk.idOf st).isSome
      else none
    match special with
    | some st => (charIdsWithin tk n ((c :: cs).drop st.length)).map ((tk.idOf st).toList ++ ·)
    | none => (charIdsWithin tk n cs).map (tk.charId c :: ·)

def mergeIdsWithin (prims : Prims F) (tk : GgufTokenizer F) : ℕ → List UInt32 → Option (List UInt32)
  | 0, _ => none
  | n + 1, ids =>
    match tk.bestMerge prims prims.f32Min none ids with
    | none => some ids
    | some (a, b, merged) => mergeIdsWithin prims tk n (replacePairs a b merged ids)

theorem charIdsWithin_mono {tk : GgufTokenizer F} : ∀ (n : ℕ) {cs : List Char} {ids : List UInt32},
    tk.charIdsWithin n cs = some ids → tk.charIdsWithin (n + 1) cs = some ids
  | 0, _, _, h => by simp [charIdsWithin] at h
  | _ + 1, [], _, h => h
  | n + 1, c :: cs, ids, h => by
    rw [charIdsWithin] at h ⊢
    split at h
    all_goals
      obtain ⟨ids', hrest, rfl⟩ := Option.map_eq_some_iff.1 h
      rw [charIdsWithin_mono n hrest, Option.map_some]

theorem charIdsWithin_of_lt {tk : GgufTokenizer F} : ∀ (n m : ℕ) {cs : List Char},
    cs.length < n → cs.length ≤ m → tk.charIdsWithin n cs = some (tk.charIds m cs)
  | 0, _, _, h, _ => absurd h (Nat.not_lt_zero _)
  | n + 1, 0, [], _, _ => rfl
  | n + 1, m + 1, [], _, _ => rfl
  | n + 1, m + 1, c :: cs, hn, hm => by
    have hlong : ∀ st ∈ legacySpecials, 0 < st.length := by decide
    rw [length_cons] at hn hm
    simp only [charIdsWithin, charIds]
    generalize hspecial : (if c = '<' then
      legacySpecials.find? fun st => st.isPrefixOf (c :: cs) && (tk.idOf st).isSome
      else none) = special
    rcases special with _ | st
    · have hrest : tk.charIdsWithin n cs = _ := charIdsWithin_of_lt n m (by omega) (by omega)
      simp only [hrest, Option.map_some]
    · have hpos : 0 < st.length := by
        split_ifs at hspecial
        exact hlong st (mem_of_find?_eq_some hspecial)
      have hdrop : ((c :: cs).drop st.length).length = cs.length + 1 - st.length := by
        rw [length_drop, length_cons]
      have hrest : tk.charIdsWithin n ((c :: cs).drop st.length) = _ :=
        charIdsWithin_of_lt n m (by omega) (by omega)
      simp only [hrest, Option.map_some]

theorem gives_charIds (tk : GgufTokenizer F) (cs : List Char) :
    Gives (fun n => tk.charIdsWithin n cs) (some (tk.charIds cs.length cs)) :=
  gives_of_mono (fun n _ => charIdsWithin_mono n)
    (charIdsWithin_of_lt _ _ (Nat.lt_succ_self _) le_rfl)

theorem mergeIdsWithin_mono {prims : Prims F} {tk : GgufTokenizer F} : ∀ (n : ℕ)
    {ids out : List UInt32}, tk.mergeIdsWithin prims n ids = some out →
      tk.mergeIdsWithin prims (n + 1) ids = some out
  | 0, _, _, h => by simp [mergeIdsWithin] at h
  | n + 1, ids, out, h => by
    rw [mergeIdsWithin] at h ⊢
    rcases hbest : tk.bestMerge prims prims.f32Min none ids with _ | ⟨a, b, merged⟩
    · rwa [hbest] at h
    · rw [hbest] at h
      exact mergeIdsWithin_mono n h

theorem mergeIdsWithin_of_lt {prims : Prims F} {tk : GgufTokenizer F} : ∀ (n m : ℕ)
    {ids : List UInt32}, ids.length < n → ids.length ≤ m →
      tk.mergeIdsWithin prims n ids = some (tk.mergeIds prims m ids)
  | 0, _, _, h, _ => absurd h (Nat.not_lt_zero _)
  | n + 1, m, ids, hn, hm => by
    rw [mergeIdsWithin]
    rcases hbest : tk.bestMerge prims prims.f32Min none ids with _ | ⟨a, b, merged⟩
    · rcases m with _ | m
      · rfl
      · rw [mergeIds, hbest]
    · have hin : [a, b] <:+: ids := bestMerge_adjacent hbest
      have hlen := length_replacePairs_lt merged hin
      rcases m with _ | m
      · omega
      · rw [mergeIds, hbest]
        exact mergeIdsWithin_of_lt n m (by omega) (by omega)

theorem gives_mergeIds (prims : Prims F) (tk : GgufTokenizer F) (ids : List UInt32) :
    Gives (fun n => tk.mergeIdsWithin prims n ids) (some (tk.mergeIds prims ids.length ids)) :=
  gives_of_mono (fun n _ => mergeIdsWithin_mono n)
    (mergeIdsWithin_of_lt _ _ (Nat.lt_succ_self _) le_rfl)

def wordIdsWithin (tk : GgufTokenizer F) (merges : List (List Char × UInt32)) (n : ℕ)
    (piece : List Char) : Option (List UInt32) :=
  let word := (Utf8.encode piece).map gpt2ByteEncoder
  match tk.idOf word with
  | some id => some [id]
  | none =>
    (mergeSymbolsWithin (fun s => List.lookup s merges) n word).map (·.flatMap tk.symbolIds)

def bpeEncodeChunkWithin (cls : CharClasses) (tk : GgufTokenizer F) (n : ℕ) (text : List Char) :
    Option (List UInt32) :=
  match tk.bpeMerges with
  | none => some (tk.encodeFallback text)
  | some merges => (chopWithin (pieceLength cls) n text).bind fun pieces =>
    (pieces.mapM (tk.wordIdsWithin merges n)).map List.flatten

def bpeMergeSpmPieceWithin (tk : GgufTokenizer F) (n : ℕ) (piece : List Char) :
    Option (List UInt32) :=
  match tk.bpeMerges with
  | none => some (tk.encodeFallback piece)
  | some merges =>
    (mergeSymbolsWithin (fun s => List.lookup s merges) n piece).map (·.flatMap tk.spmSymbolIds)

def spmPieceIdsWithin (tk : GgufTokenizer F) (n : ℕ) (piece : List Char) : Option (List UInt32) :=
  if piece.all (fun c => c = '\n') then
    match tk.idOf piece with
    | some id => some [id]
    | none => tk.bpeMergeSpmPieceWithin n piece
  else tk.bpeMergeSpmPieceWithin n piece

def encodeSpmBpeChunkWithin (tk : GgufTokenizer F) (n : ℕ) (text : List Char) :
    Option (List UInt32) :=
  (chopWithin newlineRunLength n (text.map escapeSpace)).bind fun pieces =>
    (pieces.mapM (tk.spmPieceIdsWithin n)).map List.flatten

def encodeLegacyChunkWithin (prims : Prims F) (tk : GgufTokenizer F) (n : ℕ) (text : List Char) :
    Option (List UInt32) :=
  (tk.charIdsWithin n (tk.processed text)).bind (tk.mergeIdsWithin prims n)

theorem gives_wordIds (tk : GgufTokenizer F) (merges : List (List Char × UInt32))
    (piece : List Char) :
    Gives (fun n => tk.wordIdsWithin merges n piece) (some (tk.wordIds merges piece)) := by
  simp only [wordIdsWithin, wordIds]
  rcases tk.idOf ((Utf8.encode piece).map gpt2ByteEncoder) with _ | id
  · exact (gives_mergeSymbols _ _).map _
  · exact gives_const _

theorem gives_bpeEncodeChunk (cls : CharClasses) (tk : GgufTokenizer F) (text : List Char) :
    Gives (fun n => tk.bpeEncodeChunkWithin cls n text) (some (tk.bpeEncodeChunk cls text)) := by
  simp only [bpeEncodeChunkWithin, bpeEncodeChunk]
  rcases tk.bpeMerges with _ | merges
  · exact gives_const _
  · have hwords := gives_flatMap (f := fun piece n => tk.wordIdsWithin merges n piece)
      fun piece (_ : piece ∈ splitOnGpt2Pretokenize cls text) => tk.gives_wordIds merges piece
    exact (gives_chop pieceLength_progress text).andThen hwords

theorem gives_bpeMergeSpmPiece (tk : GgufTokenizer F) (piece : List Char) :
    Gives (fun n => tk.bpeMergeSpmPieceWithin n piece) (some (tk.bpeMergeSpmPiece piece)) := by
  simp only [bpeMergeSpmPieceWithin, bpeMergeSpmPiece]
  rcases tk.bpeMerges with _ | merges
  · exact gives_const _
  · exact (gives_mergeSymbols _ _).map _

theorem gives_spmPieceIds (tk : GgufTokenizer F) (piece : List Char) :
    Gives (fun n => tk.spmPieceIdsWithin n piece) (some (tk.spmPieceIds piece)) := by
  have hmerge := tk.gives_bpeMergeSpmPiece piece
  simp only [spmPieceIdsWithin, spmPieceIds]
  split_ifs
  · rcases tk.idOf piece with _ | id
    · exact hmerge
    · exact gives_const _
  · exact hmerge

theorem gives_encodeSpmBpeChunk (tk : GgufTokenizer F) (text : List Char) :
    Gives (fun n => tk.encodeSpmBpeChunkWithin n text) (some (tk.encodeSpmBpeChunk text)) := by
  have hpieces := gives_flatMap (f := fun piece n => tk.spmPieceIdsWithin n piece)
    fun piece (_ : piece ∈ splitNewlineRuns (text.map escapeSpace)) => tk.gives_spmPieceIds piece
  exact (gives_chop newlineRunLength_progress (text.map escapeSpace)).andThen hpieces

theorem gives_encodeLegacyChunk (prims : Prims F) (tk : GgufTokenizer F) (text : List Char) :
    Gives (fun n => tk.encodeLegacyChunkWithin prims n text)
      (some (tk.encodeLegacyChunk prims text)) :=
  (tk.gives_charIds (tk.processed text)).andThen (tk.gives_mergeIds prims _)

def encodeSegmentsWithin (chunk : ℕ → List Char → Option (List UInt32))
    (special : List Char → Option (List UInt32)) (n : ℕ) (segs : List Segment) :
    Option (List UInt32) :=
  (segs.mapM fun seg => match seg with
    | Segment.text s => chunk n s
    | Segment.special st => special st).map List.flatten

def encodeSerialWithin (prims : Prims F) (tk : GgufTokenizer F) (n : ℕ) (text : List Char) :
    Option (List UInt32) :=
  if text = [] then some []
  else (splitAux tk.specialTokens n text).bind
    (if tk.modelType = "bpe" then
      encodeSegmentsWithin (tk.bpeEncodeChunkWithin prims.toCharClasses)
        (fun st => some (tk.idOf st).toList) n
    else if tk.modelType = "gemma4" then
      encodeSegmentsWithin tk.encodeSpmBpeChunkWithin (fun st => some (tk.idOf st).toList) n
    else encodeSegmentsWithin (tk.encodeLegacyChunkWithin prims)
      (fun st => (tk.idOf st).map fun id => [id]) n)

def encodeWithin (prims : Prims F) (tk : GgufTokenizer F) (n : ℕ) (text : List Char) :
    Option (List UInt32) :=
  if text = [] then some []
  else if 8192 ≤ Utf8.size text then
    (chopWithin (chunkLength 4096) n text).bind fun parts =>
      (parts.mapM (tk.encodeSerialWithin prims n)).map List.flatten
  else tk.encodeSerialWithin prims n text

theorem splitAux_mono {specials : List (List Char)} : ∀ (n : ℕ) {rest : List Char}
    {segs : List Segment}, splitAux specials n rest = some segs →
      splitAux specials (n + 1) rest = some segs
  | 0, _, _, h => by simp [splitAux] at h
  | n + 1, rest, segs, h => by
    rcases splitAux_cases h with ⟨hnone, rfl⟩ | ⟨st, pos, segs', hnext, hrest, rfl⟩
    · exact splitAux_none hnone
    · exact splitAux_next hnext (splitAux_mono n hrest)

theorem gives_splitSpecials (specials : List (List Char)) (text : List Char) :
    Gives (fun n => splitAux specials n text) (splitSpecials specials text) := by
  by_cases hnil : [] ∈ specials
  · have hnone : ∀ n, splitAux specials n text = none := fun n => splitAux_of_nil_mem hnil n text
    simp only [splitSpecials, hnone]
    exact gives_const none
  · obtain ⟨segs, hsegs⟩ := splitAux_isSome hnil (Nat.lt_succ_self text.length)
    rw [splitSpecials, hsegs]
    exact gives_of_mono (fun n _ => splitAux_mono n) hsegs

theorem gives_encodeSegments {chunk : ℕ → List Char → Option (List UInt32)}
    {chunkIds : List Char → List UInt32}
    (h : ∀ s, Gives (fun n => chunk n s) (some (chunkIds s)))
    (special : List Char → Option (List UInt32)) (segs : List Segment) :
    Gives (fun n => encodeSegmentsWithin chunk special n segs)
      (encodeSegments chunkIds special segs) := by
  refine (gives_mapM fun seg _ => ?_).map List.flatten
  rcases seg with s | st
  · exact h s
  · exact gives_const (special st)

theorem gives_encodeSerial (prims : Prims F) (tk : GgufTokenizer F) (text : List Char) :
    Gives (fun n => tk.encodeSerialWithin prims n text) (tk.encodeSerial prims text) := by
  simp only [encodeSerialWithin, encodeSerial]
  split_ifs
  · exact gives_const _
  · exact (gives_splitSpecials _ text).bind fun segs _ =>
      gives_encodeSegments (tk.gives_bpeEncodeChunk prims.toCharClasses) _ segs
  · exact (gives_splitSpecials _ text).bind fun segs _ =>
      gives_encodeSegments tk.gives_encodeSpmBpeChunk _ segs
  · exact (gives_splitSpecials _ text).bind fun segs _ =>
      gives_encodeSegments (tk.gives_encodeLegacyChunk prims) _ segs

theorem gives_encode (prims : Prims F) (tk : GgufTokenizer F) (text : List Char) :
    Gives (fun n => tk.encodeWithin prims n text) (tk.encode prims text) := by
  simp only [encodeWithin, encode]
  split_ifs
  · exact gives_const _
  · have hparts := gives_mapM (f := fun part n => tk.encodeSerialWithin prims n part)
      fun part (_ : part ∈ chunks text 4096) => tk.gives_encodeSerial prims part
    have hprogress : Progress (chunkLength 4096) := chunkLength_progress (by decide)
    exact (gives_chop hprogress text).andThen (hparts.map List.flatten)
  · exact tk.gives_encodeSerial prims text

end GgufTokenizer

end Grim.Tokenizer
