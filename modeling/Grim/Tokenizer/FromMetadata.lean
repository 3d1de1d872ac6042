import Grim.Format.GgufKeys
import Grim.Lib.Folds
import Grim.Tokenizer.Returns

/-!
# A tokenizer from the metadata of a file

The tokens that the file marks as special are tokens, and so have ids; the ten that every tokenizer
knows of need not be there.  Two of the three encoders pass over such a token, and the third looks
its id up without asking.
-/

namespace Grim

open List

namespace Format.GgufValue

def asI32 (value : GgufValue) : Option Int32 :=
  value.asInt.bind fun wide =>
    if -(2 ^ 31) ≤ wide ∧ wide < 2 ^ 31 then some (Int32.ofInt wide) else none

end Format.GgufValue

namespace Tokenizer

open Float.Model (UnpackedFloat)
open Folds Format Format.GgufValue Fuel

structure LoadedTokenizer extends GgufTokenizer UInt32 where
  eosTokenId : Option UInt32
  bosTokenId : Option UInt32
  addBosToken : Bool
  chatTemplate : Option String
  architecture : Option String

/-- The type in the vocabulary: 2 for unknown, 3 for control, 4 for one that a user defines. -/
def tokenType (value : GgufValue) : Int32 :=
  (value.asI32.or (value.asU32.map UInt32.toInt32)).getD 1

/-- The tokens that are matched before anything else; none when the types are not theirs. -/
def addedTokensFromTypes (metadata : Metadata) (tokens : List (List Char)) : List (List Char) :=
  match (metadata.get "tokenizer.ggml.token_type").bind asArray with
  | none => []
  | some types =>
    if types.length ≠ tokens.length then []
    else ((tokens.zip types).filter fun p => tokenType p.2 ∈ [2, 3, 4]).map Prod.fst

def readTokens (metadata : Metadata) : Except String (List (List Char)) :=
  match metadata.get "tokenizer.ggml.tokens" with
  | none => .error "tokenizer.ggml.tokens not found in GGUF metadata"
  | some value =>
    match value.asArray with
    | none => .error "tokenizer.ggml.tokens is not an array"
    | some items => items.mapM fun item =>
      match item.asStr with
      | some token => .ok token.toList
      | none => .error "tokenizer.ggml.tokens contains non-string element"

/-- The ids of the tokens; of two equal tokens the later is the one that is found. -/
def tokenIds (tokens : List (List Char)) : List (List Char × UInt32) :=
  (tokens.zipIdx.map fun p => (p.1, UInt32.ofNat p.2)).reverse

/-- The two symbols of a merge; an entry of another form is left out. -/
def mergePair : GgufValue → Option (List Char)
  | .array [a, b] => some ((a.asStr.getD "").toList ++ ' ' :: (b.asStr.getD "").toList)
  | .string pair => some pair.toList
  | _ => none

def mergeRanks (entries : List GgufValue) : List (List Char × UInt32) :=
  (entries.zipIdx.filterMap fun p =>
    (mergePair p.1).map fun pair => (pair, UInt32.ofNat p.2)).reverse

/-- The pre-tokenizers of the checkpoints that begin with a token for the beginning. -/
def addsBosByDefault (pre : Option String) : Bool :=
  pre ∈ ["llama3", "llama-v3", "llama-bpe", "falcon3", "falcon-h1", "pixtral", "midm-2.0", "lfm2",
    "jina-v5-nano"].map some

def fromMetadata (metadata : Metadata) : Except String LoadedTokenizer :=
  let str := fun key => (metadata.get key).bind asStr
  let u32 := fun key => (metadata.get key).bind asU32
  let items := fun key => (metadata.get key).bind asArray
  let modelType := (str "tokenizer.ggml.model").getD "llama"
  (readTokens metadata).map fun tokens =>
    { tokens := tokens
      tokenToId := tokenIds tokens
      scores := (items "tokenizer.ggml.scores").map (List.map fun v => v.asF32.getD 0)
      modelType := modelType
      bpeMerges :=
        if modelType = "bpe" ∨ modelType = "gpt2" ∨ modelType = "gemma4" then
          (items "tokenizer.ggml.merges").map mergeRanks
        else none
      byteDecoder := if modelType = "bpe" ∨ modelType = "gpt2" then some gpt2ByteDecoder else none
      unkTokenId := u32 "tokenizer.ggml.unknown_token_id"
      addedTokens := addedTokensFromTypes metadata tokens
      eosTokenId := u32 "tokenizer.ggml.eos_token_id"
      bosTokenId := u32 "tokenizer.ggml.bos_token_id"
      addBosToken := ((metadata.get "tokenizer.ggml.add_bos_token").bind readBool).getD
        (addsBosByDefault (str "tokenizer.ggml.pre"))
      chatTemplate := str "tokenizer.chat_template"
      architecture := str "general.architecture" }

theorem mem_of_mem_addedTokensFromTypes {metadata : Metadata} {tokens : List (List Char)}
    {st : List Char} (h : st ∈ addedTokensFromTypes metadata tokens) : st ∈ tokens := by
  rw [addedTokensFromTypes] at h
  split at h
  · simp at h
  · split_ifs at h
    · simp at h
    · obtain ⟨p, hp, rfl⟩ := mem_map.1 h
      exact (of_mem_zip (mem_of_mem_filter hp)).1

theorem isSome_lookup_tokenIds {tokens : List (List Char)} {s : List Char} (h : s ∈ tokens) :
    (List.lookup s (tokenIds tokens)).isSome := by
  obtain ⟨i, hi⟩ := mem_iff_getElem?.1 h
  have hmem : (s, UInt32.ofNat i) ∈ tokenIds tokens := by
    rw [tokenIds, mem_reverse, mem_map]
    exact ⟨(s, i), mk_mem_zipIdx_iff_getElem?.2 hi, rfl⟩
  exact lookup_isSome_iff.2 ⟨_, hmem, beq_self_eq_true s⟩

theorem idOf_of_mem_addedTokens {metadata : Metadata} {tk : LoadedTokenizer}
    (h : fromMetadata metadata = .ok tk) {st : List Char} (hst : st ∈ tk.addedTokens) :
    (tk.idOf st).isSome := by
  rw [fromMetadata] at h
  rcases htokens : readTokens metadata with e | tokens
  · rw [htokens] at h
    cases h
  · rw [htokens] at h
    obtain rfl := Except.ok.inj h
    exact isSome_lookup_tokenIds (mem_of_mem_addedTokensFromTypes hst)

theorem nil_mem_specialTokens {metadata : Metadata} {tk : LoadedTokenizer}
    (h : fromMetadata metadata = .ok tk) : [] ∈ tk.specialTokens ↔ [] ∈ tk.addedTokens := by
  have hgeneric : [] ∉ GgufTokenizer.genericSpecials := by decide
  rw [GgufTokenizer.specialTokens, mem_append, or_iff_left hgeneric, mem_filter]
  exact and_iff_left_of_imp fun hadded => idOf_of_mem_addedTokens h hadded

namespace GgufTokenizer

variable {F : Type} {tk : GgufTokenizer F}

/-- The tokenizer merges by score, and takes a special token to have an id. -/
def Legacy (tk : GgufTokenizer F) : Prop := tk.modelType ≠ "bpe" ∧ tk.modelType ≠ "gemma4"

def Missing (tk : GgufTokenizer F) (st : List Char) : Prop :=
  st ∈ genericSpecials ∧ tk.idOf st = none

def parts (text : List Char) : List (List Char) :=
  if 8192 ≤ Utf8.size text then chunks text 4096 else [text]

theorem isSome_encodeSegments {chunk : List Char → List UInt32}
    {special : List Char → Option (List UInt32)} {segs : List Segment} :
    (encodeSegments chunk special segs).isSome ↔
      ∀ st, .special st ∈ segs → (special st).isSome := by
  rw [encodeSegments, Option.isSome_map, isSome_mapM]
  constructor
  · exact fun h st hst => h _ hst
  · intro h seg hseg
    rcases seg with s | st
    · rfl
    · exact h st hseg

theorem missing_iff {st : List Char} (hst : st ∈ tk.specialTokens) :
    tk.Missing st ↔ ¬(tk.idOf st).isSome := by
  rw [Option.not_isSome_iff_eq_none]
  refine ⟨fun h => h.2, fun hid => ⟨?_, hid⟩⟩
  rcases mem_append.1 hst with hadded | hgeneric
  · have hsome := (mem_filter.1 hadded).2
    rw [hid] at hsome
    cases hsome
  · exact hgeneric

theorem isSome_encodeSerial (prims : Prims F) {text : List Char} (hne : text ≠ []) :
    (tk.encodeSerial prims text).isSome ↔ [] ∉ tk.specialTokens ∧ (tk.Legacy →
      ∀ segs, Splits tk.specialTokens text segs → ∀ st, tk.Missing st → .special st ∉ segs) := by
  rw [encodeSerial, if_neg hne]
  by_cases hnil : [] ∈ tk.specialTokens
  · have hnone : splitSpecials tk.specialTokens text = none := splitAux_of_nil_mem hnil _ _
    simp [hnone, hnil]
  · obtain ⟨segs, hsegs⟩ := splitSpecials_isSome_iff.2 hnil
    have hsplits := (splitSpecials_eq_some hnil).1 hsegs
    rw [hsegs, Option.bind_some, and_iff_right hnil]
    split_ifs with hbpe hgemma
    · exact iff_of_true (isSome_encodeSegments.2 fun _ _ => rfl) fun h => absurd hbpe h.1
    · exact iff_of_true (isSome_encodeSegments.2 fun _ _ => rfl) fun h => absurd hgemma h.2
    · have hlegacy : tk.Legacy := ⟨hbpe, hgemma⟩
      rw [isSome_encodeSegments]
      simp only [Option.isSome_map]
      constructor
      · intro h _ segs' hsegs' st hmissing hst
        obtain rfl := hsplits.unique hsegs'
        exact (missing_iff (mem_of_splitAux hsegs hst)).1 hmissing (h st hst)
      · intro h st hst
        by_contra hid
        exact h hlegacy segs hsplits st ((missing_iff (mem_of_splitAux hsegs hst)).2 hid) hst

theorem parts_spec {text : List Char} (hne : text ≠ []) :
    parts text ≠ [] ∧ ∀ part ∈ parts text, part ≠ [] := by
  rw [parts]
  split_ifs
  · refine ⟨fun hnil => hne ?_, fun part hpart => ne_nil_of_mem_chunks (by decide) hpart⟩
    have hflatten : (chunks text 4096).flatten = text := flatten_chunks (by decide) text
    rw [hnil] at hflatten
    exact hflatten.symm
  · simpa using hne

theorem isSome_encode (prims : Prims F) {text : List Char} (hne : text ≠ []) :
    (tk.encode prims text).isSome ↔ [] ∉ tk.specialTokens ∧ (tk.Legacy → ∀ part ∈ parts text,
      ∀ segs, Splits tk.specialTokens part segs → ∀ st, tk.Missing st → .special st ∉ segs) := by
  obtain ⟨hparts, hpart⟩ := parts_spec hne
  obtain ⟨first, hfirst⟩ := exists_mem_of_ne_nil _ hparts
  have heach : (tk.encode prims text).isSome ↔
      ∀ part ∈ parts text, (tk.encodeSerial prims part).isSome := by
    rw [encode, if_neg hne, parts]
    split_ifs
    · rw [Option.isSome_map, isSome_mapM]
    · rw [forall_mem_singleton]
  rw [heach]
  constructor
  · intro h
    have hserial := fun part hin => (isSome_encodeSerial prims (hpart part hin)).1 (h part hin)
    exact ⟨(hserial first hfirst).1, fun hlegacy part hin => (hserial part hin).2 hlegacy⟩
  · rintro ⟨hnil, hmissing⟩ part hin
    exact (isSome_encodeSerial prims (hpart part hin)).2
      ⟨hnil, fun hlegacy => hmissing hlegacy part hin⟩

end GgufTokenizer

/-- Encoding with a tokenizer from a file returns unless an empty token is special, or the text has
one of the ten special tokens that the vocabulary of a tokenizer by score does not have. -/
theorem encode_returns_iff (prims : Prims UInt32) {metadata : Metadata} {tk : LoadedTokenizer}
    (h : fromMetadata metadata = .ok tk) (text : List Char) :
    (∃ fuel ids, tk.encodeWithin prims fuel text = some ids) ↔
      text = [] ∨ [] ∉ tk.addedTokens ∧ (tk.Legacy → ∀ part ∈ GgufTokenizer.parts text,
        ∀ segs, Splits tk.specialTokens part segs → ∀ st, tk.Missing st → .special st ∉ segs) := by
  rw [(tk.gives_encode prims text).returns_iff, ← Option.isSome_iff_exists]
  by_cases hne : text = []
  · subst hne
    exact iff_of_true rfl (.inl rfl)
  · rw [GgufTokenizer.isSome_encode prims hne, nil_mem_specialTokens h, or_iff_right hne]

/-- Scores that are compared as `f32`. -/
def f32Prims : Prims UInt32 where
  toCharClasses := samplePrims.toCharClasses
  f32Min := 0xFF7FFFFF
  gt := fun a b => UnpackedFloat.lt (UnpackedFloat.unpack .binary32 b.toBitVec)
    (UnpackedFloat.unpack .binary32 a.toBitVec)
  negOfId := fun id => FloatFormat.f32OfInt id.toNat ^^^ 0x80000000

def oneTokenFile : Metadata := [("tokenizer.ggml.tokens", .array [.string "a"])]

def oneToken : LoadedTokenizer where
  tokens := ["a".toList]
  tokenToId := [("a".toList, 0)]
  scores := none
  modelType := "llama"
  bpeMerges := none
  byteDecoder := none
  unkTokenId := none
  addedTokens := []
  eosTokenId := none
  bosTokenId := none
  addBosToken := false
  chatTemplate := none
  architecture := none

theorem fromMetadata_oneTokenFile : fromMetadata oneTokenFile = .ok oneToken := by rfl

theorem encode_returns_iff_letter :
    ∃ fuel ids, oneToken.encodeWithin f32Prims fuel "a".toList = some ids := by
  refine (encode_returns_iff f32Prims fromMetadata_oneTokenFile _).2 (.inr ⟨by decide, ?_⟩)
  intro _ part hpart segs hsegs st hmissing hst
  obtain rfl : part = "a".toList := mem_singleton.1 hpart
  have hlast : Splits oneToken.specialTokens "a".toList (textSegment "a".toList) :=
    .last (findSpecial_eq_none.1 (by decide))
  rw [hsegs.unique hlast] at hst
  simp [textSegment] at hst

/-- The sequence start is special, and has no id. -/
theorem encode_missing_special : fromMetadata oneTokenFile = .ok oneToken ∧
    ∀ prims : Prims UInt32,
      ¬∃ fuel ids, oneToken.encodeWithin prims fuel "<s>".toList = some ids := by
  refine ⟨fromMetadata_oneTokenFile, fun prims => ?_⟩
  rw [(oneToken.gives_encode prims _).returns_iff]
  have hnone : oneToken.encode prims "<s>".toList = none := by rfl
  rw [hnone]
  rintro ⟨ids, hids⟩
  cases hids

end Tokenizer

end Grim
