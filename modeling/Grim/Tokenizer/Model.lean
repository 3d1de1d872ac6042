import Grim.Tokenizer.Chunks
import Grim.Tokenizer.Special

/-!
# The tokenizer

Text to ids and back, for the three kinds of tokenizer: byte-level BPE, Gemma's BPE over escaped
spaces, and the older one that merges by score.  A call that panics or does not return is `none`.
The Unicode classes and the scores' `f32` are parameters.  Two fields stand in for maps:
`tokenToId`, with its keys in some order, and the merges by their two symbols with a space between.
-/

namespace Grim.Tokenizer

open Chop

structure Prims (F : Type) extends CharClasses where
  /-- `f32::MIN` -/
  f32Min : F
  gt : F → F → Bool
  /-- `-(id as f32)` -/
  negOfId : UInt32 → F

/-- Letters of the first two blocks, digits, and scores as integers. -/
def samplePrims : Prims ℤ where
  isAlphabetic := fun c => c.isAlpha || (0xC0 ≤ c.toNat && c.toNat < 0x100)
  isNumeric := Char.isDigit
  f32Min := -(2 ^ 128)
  gt := fun a b => decide (b < a)
  negOfId := fun id => -(id.toNat : ℤ)

structure GgufTokenizer (F : Type) where
  tokens : List (List Char)
  tokenToId : List (List Char × UInt32)
  scores : Option (List F)
  modelType : String
  bpeMerges : Option (List (List Char × UInt32))
  byteDecoder : Option (Char → Option UInt8)
  unkTokenId : Option UInt32
  addedTokens : List (List Char)

def isDirect (b : UInt8) : Bool := (33 ≤ b && b ≤ 126) || (161 ≤ b && b ≤ 172) || 174 ≤ b

def gpt2ByteEncoder (b : UInt8) : Char :=
  if isDirect b then Char.ofNat b.toNat
  else Char.ofNat (256 + ((List.range b.toNat).filter fun n => !isDirect (UInt8.ofNat n)).length)

def gpt2ByteDecoder (c : Char) : Option UInt8 :=
  ((List.range 256).map UInt8.ofNat).find? fun b => gpt2ByteEncoder b == c

/-- A byte, or a character's number, in the vocabulary's hexadecimal form. -/
def byteToken (n : ℕ) : List Char :=
  let digits := (Nat.toDigits 16 n).map Char.toUpper
  "<0x".toList ++ (if digits.length < 2 then '0' :: digits else digits) ++ ['>']

/-- The adjacent pair of the lowest rank, the first of them, from the `i`-th symbol on. -/
def bestPair (merges : List Char → Option UInt32) : ℕ → Option (UInt32 × ℕ) →
    List (List Char) → Option (UInt32 × ℕ)
  | i, best, a :: b :: rest =>
    let best := match merges (a ++ ' ' :: b) with
      | some rank => if best.all (fun br => rank < br.1) then some (rank, i) else best
      | none => best
    bestPair merges (i + 1) best (b :: rest)
  | _, best, _ => best

def mergeAt : ℕ → List (List Char) → List (List Char)
  | 0, a :: b :: rest => (a ++ b) :: rest
  | i + 1, a :: rest => a :: mergeAt i rest
  | _, symbols => symbols

def mergeAll (merges : List Char → Option UInt32) : ℕ → List (List Char) → List (List Char)
  | 0, symbols => symbols
  | n + 1, symbols =>
    match bestPair merges 0 none symbols with
    | none => symbols
    | some (_, i) => mergeAll merges n (mergeAt i symbols)

def mergeSymbols (merges : List Char → Option UInt32) (word : List Char) : List (List Char) :=
  mergeAll merges word.length (word.map fun c => [c])

variable {F : Type}

namespace GgufTokenizer

def idOf (tk : GgufTokenizer F) (s : List Char) : Option UInt32 := tk.tokenToId.lookup s

def unkId (tk : GgufTokenizer F) : UInt32 :=
  (((tk.unkTokenId.or (tk.idOf "<unk>".toList)).or (tk.idOf "<|unk|>".toList)).or
    (tk.idOf "<|unknown|>".toList)).getD 0

def genericSpecials : List (List Char) :=
  ["<|startoftext|>".toList, "<|endoftext|>".toList, "<|pad|>".toList, "<|im_start|>".toList,
    "<|im_end|>".toList, "<|system|>".toList, "<|user|>".toList, "<|assistant|>".toList,
    "<s>".toList, "</s>".toList]

def specialTokens (tk : GgufTokenizer F) : List (List Char) :=
  tk.addedTokens.filter (fun s => (tk.idOf s).isSome) ++ genericSpecials

def encodeFallback (tk : GgufTokenizer F) (text : List Char) : List UInt32 :=
  text.map fun c => (tk.idOf [c]).getD tk.unkId

/-! ### Byte-level BPE -/

def symbolIds (tk : GgufTokenizer F) (sym : List Char) : List UInt32 :=
  match tk.idOf sym with
  | some id => [id]
  | none => sym.map fun c => (tk.idOf [c]).getD tk.unkId

def wordIds (tk : GgufTokenizer F) (merges : List (List Char × UInt32)) (piece : List Char) :
    List UInt32 :=
  let word := (Utf8.encode piece).map gpt2ByteEncoder
  match tk.idOf word with
  | some id => [id]
  | none => (mergeSymbols (fun s => List.lookup s merges) word).flatMap tk.symbolIds

def bpeEncodeChunk (cls : CharClasses) (tk : GgufTokenizer F) (text : List Char) : List UInt32 :=
  match tk.bpeMerges with
  | none => tk.encodeFallback text
  | some merges => (splitOnGpt2Pretokenize cls text).flatMap (tk.wordIds merges)

/-! ### Gemma -/

def newlineRunLength : List Char → ℕ
  | [] => 0
  | c :: cs => run (fun d => decide (d = '\n') == decide (c = '\n')) (c :: cs)

def splitNewlineRuns (text : List Char) : List (List Char) := chop newlineRunLength text

/-- The ids of a symbol, or of those of its bytes that have one. -/
def spmSymbolIds (tk : GgufTokenizer F) (sym : List Char) : List UInt32 :=
  match tk.idOf sym with
  | some id => [id]
  | none => (Utf8.encode sym).filterMap fun b => tk.idOf (byteToken b.toNat)

def bpeMergeSpmPiece (tk : GgufTokenizer F) (piece : List Char) : List UInt32 :=
  match tk.bpeMerges with
  | none => tk.encodeFallback piece
  | some merges => (mergeSymbols (fun s => List.lookup s merges) piece).flatMap tk.spmSymbolIds

def spmPieceIds (tk : GgufTokenizer F) (piece : List Char) : List UInt32 :=
  if piece.all (fun c => c = '\n') then
    match tk.idOf piece with
    | some id => [id]
    | none => tk.bpeMergeSpmPiece piece
  else tk.bpeMergeSpmPiece piece

def escapeSpace (c : Char) : Char := if c = ' ' then '\u2581' else c

def encodeSpmBpeChunk (tk : GgufTokenizer F) (text : List Char) : List UInt32 :=
  (splitNewlineRuns (text.map escapeSpace)).flatMap tk.spmPieceIds

/-! ### Merges by score -/

def processed (tk : GgufTokenizer F) (text : List Char) : List Char :=
  if tk.tokenToId.any (fun kv => kv.1.contains '\u0120') then
    let p := text.map fun c => if c = ' ' then '\u0120' else if c = '\n' then '\u010A' else c
    if p.head? ≠ some '\u0120' ∧ p.head? ≠ some '\u010A' ∧ p.head? ≠ some '<' then '\u0120' :: p
    else p
  else if tk.tokenToId.any (fun kv => kv.1.contains '\u2581') ∨ tk.modelType = "llama" then
    let p := text.map escapeSpace
    if p.head? ≠ some '\u2581' then '\u2581' :: p else p
  else text

def legacySpecials : List (List Char) :=
  ["<|im_start|>".toList, "<|im_end|>".toList, "<|startoftext|>".toList]

def charId (tk : GgufTokenizer F) (c : Char) : UInt32 :=
  ((tk.idOf [c]).or (tk.idOf (byteToken c.toNat))).getD tk.unkId

def charIds (tk : GgufTokenizer F) : ℕ → List Char → List UInt32
  | 0, _ => []
  | _, [] => []
  | n + 1, c :: cs =>
    let special := if c = '<' then
        legacySpecials.find? fun st => st.isPrefixOf (c :: cs) && (tk.idOf st).isSome
      else none
    match special with
    | some st => (tk.idOf st).toList ++ charIds tk n ((c :: cs).drop st.length)
    | none => tk.charId c :: charIds tk n cs

def mergedId (tk : GgufTokenizer F) (a b : UInt32) : Option UInt32 :=
  match tk.tokens[a.toNat]?, tk.tokens[b.toNat]? with
  | some s, some t => tk.idOf (s ++ t)
  | _, _ => none

def score (prims : Prims F) (tk : GgufTokenizer F) (id : UInt32) : F :=
  (tk.scores.bind fun s => s[id.toNat]?).getD (prims.negOfId id)

/-- The pair with the best score, the first of them, and what it merges to. -/
def bestMerge (prims : Prims F) (tk : GgufTokenizer F) :
    F → Option (UInt32 × UInt32 × UInt32) → List UInt32 → Option (UInt32 × UInt32 × UInt32)
  | top, best, a :: b :: ids =>
    match tk.mergedId a b with
    | none => bestMerge prims tk top best (b :: ids)
    | some merged =>
      let score := tk.score prims merged
      if prims.gt score top then bestMerge prims tk score (some (a, b, merged)) (b :: ids)
      else bestMerge prims tk top best (b :: ids)
  | _, best, _ => best

def replacePairs (a b merged : UInt32) : List UInt32 → List UInt32
  | x :: y :: ids =>
    if x = a ∧ y = b then merged :: replacePairs a b merged ids
    else x :: replacePairs a b merged (y :: ids)
  | ids => ids

/-- Merges while there is a pair; each pass takes an id away at least. -/
def mergeIds (prims : Prims F) (tk : GgufTokenizer F) : ℕ → List UInt32 → List UInt32
  | 0, ids => ids
  | n + 1, ids =>
    match tk.bestMerge prims prims.f32Min none ids with
    | none => ids
    | some (a, b, merged) => mergeIds prims tk n (replacePairs a b merged ids)

def encodeLegacyChunk (prims : Prims F) (tk : GgufTokenizer F) (text : List Char) : List UInt32 :=
  let chars := tk.processed text
  let ids := tk.charIds chars.length chars
  tk.mergeIds prims ids.length ids

/-! ### The whole text -/

def encodeSegments (chunk : List Char → List UInt32) (special : List Char → Option (List UInt32))
    (segs : List Segment) : Option (List UInt32) :=
  (segs.mapM fun seg => match seg with
    | Segment.text s => some (chunk s)
    | Segment.special st => special st).map List.flatten

def encodeSerial (prims : Prims F) (tk : GgufTokenizer F) (text : List Char) :
    Option (List UInt32) :=
  if text = [] then some []
  else (splitSpecials tk.specialTokens text).bind
    (if tk.modelType = "bpe" then
      encodeSegments (tk.bpeEncodeChunk prims.toCharClasses) fun st => some (tk.idOf st).toList
    else if tk.modelType = "gemma4" then
      encodeSegments tk.encodeSpmBpeChunk fun st => some (tk.idOf st).toList
    else encodeSegments (tk.encodeLegacyChunk prims) fun st => (tk.idOf st).map fun id => [id])

/-- A chunk is shorter than the threshold, so each is encoded as one piece. -/
def encode (prims : Prims F) (tk : GgufTokenizer F) (text : List Char) : Option (List UInt32) :=
  if text = [] then some []
  else if 8192 ≤ Utf8.size text then
    ((chunks text 4096).mapM (tk.encodeSerial prims)).map List.flatten
  else tk.encodeSerial prims text

def decode (tk : GgufTokenizer F) (ids : List UInt32) : List Char :=
  let text := ids.flatMap fun id =>
    if id < UInt32.ofNat tk.tokens.length then (tk.tokens[id.toNat]?).getD [] else []
  match tk.byteDecoder with
  | some decoder =>
    Utf8.lossy (text.flatMap fun c =>
      match decoder c with
      | some b => [b]
      | none => String.utf8EncodeChar c)
  | none =>
    let out := if tk.modelType = "llama" ∨ tk.modelType = "lfm2" ∨ tk.modelType = "gemma4" then
        text.map fun c => if c = '\u2581' then ' ' else c
      else text
    out.map fun c => if c = '\u0120' then ' ' else if c = '\u010A' then '\n' else c

end GgufTokenizer

end Grim.Tokenizer
