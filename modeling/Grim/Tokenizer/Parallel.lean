import Grim.Tokenizer.ScoreMerges

/-!
# Encoding a long text in chunks

From 8192 bytes on a text is cut into chunks, and each is encoded as if it were the whole text.  The
ids are those of the text where each cut comes between two pieces of it.  For the older tokenizer,
which looks at all there is between two special tokens, a cut within that does no harm where the
part behind it gets no mark of its own and the merges of the two parts do not meet.
-/

namespace Grim.Tokenizer

open Chop Folds Text List Option

section Concat

variable {α β γ : Type*}

def concatM (f : α → Option (List β)) : List α → Option (List β)
  | [] => some []
  | x :: xs => (f x).bind fun ys => (concatM f xs).map (ys ++ ·)

theorem mapM_flatten (f : α → Option (List β)) : ∀ xs : List α,
    (xs.mapM f).map List.flatten = concatM f xs
  | [] => rfl
  | x :: xs => by
    rw [mapM_cons, concatM, ← mapM_flatten f xs]
    rcases f x with _ | ys
    · rfl
    · rcases xs.mapM f with _ | yss <;> rfl

theorem concatM_append (f : α → Option (List β)) : ∀ xs ys : List α,
    concatM f (xs ++ ys) = (concatM f xs).bind fun a => (concatM f ys).map (a ++ ·)
  | [], ys => by
    rcases h : concatM f ys with _ | b <;> simp [concatM, h]
  | x :: xs, ys => by
    rw [cons_append, concatM, concatM, concatM_append f xs ys]
    rcases f x with _ | a
    · rfl
    · rcases concatM f xs with _ | b
      · rfl
      · rcases concatM f ys with _ | c <;> simp

theorem concatM_flatMap (f : β → Option (List γ)) (g : α → List β) : ∀ xs : List α,
    concatM f (xs.flatMap g) = concatM (fun x => concatM f (g x)) xs
  | [] => rfl
  | x :: xs => by rw [flatMap_cons, concatM_append, concatM, concatM_flatMap f g xs]

theorem concatM_congr {f g : α → Option (List β)} : ∀ {xs : List α}, (∀ x ∈ xs, f x = g x) →
    concatM f xs = concatM g xs
  | [], _ => rfl
  | x :: xs, h => by
    rw [concatM, concatM, h x mem_cons_self,
      concatM_congr fun y hy => h y (mem_cons_of_mem x hy)]

theorem concatM_some (f : α → List β) : ∀ xs : List α,
    concatM (fun x => some (f x)) xs = some (xs.flatMap f)
  | [] => rfl
  | x :: xs => by rw [concatM, concatM_some f xs]; rfl

theorem concatM_bind {f : β → Option (List γ)} {g : α → Option β} : ∀ {xs : List α} {ys : List β},
    xs.mapM g = some ys → concatM (fun x => (g x).bind f) xs = concatM f ys
  | [], ys, h => by
    obtain rfl : [] = ys := Option.some.inj h
    rfl
  | x :: xs, ys, h => by
    rw [mapM_cons] at h
    rcases hx : g x with _ | y
    · simp [hx] at h
    · rcases hxs : xs.mapM g with _ | ys'
      · simp [hx, hxs] at h
      · obtain rfl : y :: ys' = ys := by simpa [hx, hxs] using h
        rw [concatM, concatM, hx, concatM_bind hxs]
        rfl

end Concat

def words (cls : CharClasses) : Cutter Char where
  len := pieceLength cls
  bad := SplitRun
  progress := pieceLength_progress
  bad_cons := fun u _ => SplitRun.cons u
  steady := fun _ _ _ hu hne => pieceLength_steady hu hne

namespace GgufTokenizer

theorem newlineRunLength_progress : Progress newlineRunLength where
  pos := fun c cs => run_pos (by simp) cs
  le := fun cs => by
    rcases cs with _ | ⟨c, cs⟩
    · exact le_rfl
    · exact run_le _ _

def newlineRuns : Cutter Char where
  len := newlineRunLength
  bad := fun _ => False
  progress := newlineRunLength_progress
  bad_cons := fun _ _ h => h
  steady := fun u us r hu _ h _ => by
    rcases u with _ | ⟨c, cs⟩
    · exact absurd rfl hu
    · simp only [cons_append, newlineRunLength] at h ⊢
      rw [← cons_append] at h
      rw [run_append (r := r) (by rw [h]; simp), h]

theorem splitNewlineRuns_escape (text : List Char) :
    splitNewlineRuns (text.map escapeSpace) =
      (newlineRuns.pieces text).map (List.map escapeSpace) := by
  have hnewline : ∀ c, decide (escapeSpace c = '\n') = decide (c = '\n') := fun c => by
    rw [escapeSpace]
    split_ifs with hc
    · rw [hc]
      decide
    · rfl
  have hlen : ∀ xs, newlineRunLength (xs.map escapeSpace) = newlineRunLength xs := fun xs => by
    rcases xs with _ | ⟨c, cs⟩
    · rfl
    · rw [map_cons, newlineRunLength, newlineRunLength, ← map_cons, run, run,
        takeWhile_map, length_map]
      simp only [Function.comp_def, hnewline]
  have := chop_map hlen text.length text
  rw [splitNewlineRuns, chop, length_map, this]
  rfl

variable {F : Type}

def cutter (cls : CharClasses) (tk : GgufTokenizer F) : Cutter Char :=
  if tk.modelType = "bpe" then
    match tk.bpeMerges with
    | none => singles Char
    | some _ => words cls
  else newlineRuns

def pieceIds (tk : GgufTokenizer F) (piece : List Char) : List UInt32 :=
  if tk.modelType = "bpe" then
    match tk.bpeMerges with
    | none => tk.encodeFallback piece
    | some merges => tk.wordIds merges piece
  else tk.spmPieceIds (piece.map escapeSpace)

def unitIds (tk : GgufTokenizer F) : Segment → Option (List UInt32)
  | .text piece => some (tk.pieceIds piece)
  | .special st => some (tk.idOf st).toList

def units (cls : CharClasses) (tk : GgufTokenizer F) (text : List Char) : Option (List Segment) :=
  Tokenizer.units (tk.cutter cls) tk.specialTokens text

theorem encodeSegments_eq {k : Cutter Char} (ids : List Char → List UInt32)
    {chunk : List Char → List UInt32} {special : List Char → Option (List UInt32)}
    {f : Segment → Option (List UInt32)}
    (hchunk : ∀ s, s ≠ [] → chunk s = (k.pieces s).flatMap ids)
    (htext : ∀ p, f (.text p) = some (ids p)) (hspecial : ∀ st, f (.special st) = special st)
    {segs : List Segment} (hne : ∀ s, .text s ∈ segs → s ≠ []) :
    encodeSegments chunk special segs = concatM f (segs.flatMap (piecesOf k)) := by
  rw [encodeSegments, mapM_flatten, concatM_flatMap]
  refine concatM_congr fun seg hseg => ?_
  rcases seg with s | st
  · have hmap : ∀ ps : List (List Char), concatM f (ps.map Segment.text) = some (ps.flatMap ids) :=
      fun ps => by
        induction ps with
        | nil => rfl
        | cons p ps ih => rw [map_cons, concatM, ih, htext]; rfl
    rw [piecesOf, hmap]
    exact congrArg some (hchunk s (hne s hseg))
  · show special st = _
    rcases hst : special st with _ | ids <;> simp [piecesOf, concatM, hspecial, hst]

theorem encodeSerial_eq (prims : Prims F) {tk : GgufTokenizer F}
    (hpath : tk.modelType = "bpe" ∨ tk.modelType = "gemma4") {text : List Char} (hne : text ≠ []) :
    tk.encodeSerial prims text = (tk.units prims.toCharClasses text).bind (concatM tk.unitIds) := by
  have htext : ∀ {segs}, splitSpecials tk.specialTokens text = some segs →
      ∀ s, .text s ∈ segs → s ≠ [] := fun h => text_ne_nil (splits_of_splitAux h)
  rw [encodeSerial, if_neg hne, units, Tokenizer.units]
  rcases hsegs : splitSpecials tk.specialTokens text with _ | segs
  · rfl
  rw [bind_some, map_some, bind_some]
  have hspecial : ∀ st, tk.unitIds (.special st) = some (tk.idOf st).toList := fun _ => rfl
  by_cases hbpe : tk.modelType = "bpe"
  · rw [if_pos hbpe]
    rcases hmerges : tk.bpeMerges with _ | merges
    · refine encodeSegments_eq tk.encodeFallback (fun s _ => ?_)
        (fun p => by simp only [unitIds, pieceIds, if_pos hbpe, hmerges]) hspecial (htext hsegs)
      simp only [cutter, if_pos hbpe, hmerges, bpeEncodeChunk, pieces_singles, flatMap_map]
      exact map_eq_flatMap
    · refine encodeSegments_eq (tk.wordIds merges) (fun s _ => ?_)
        (fun p => by simp only [unitIds, pieceIds, if_pos hbpe, hmerges]) hspecial (htext hsegs)
      simp only [cutter, if_pos hbpe, hmerges, bpeEncodeChunk]
      rfl
  · rw [if_neg hbpe, if_pos (hpath.resolve_left hbpe)]
    refine encodeSegments_eq (fun p => tk.spmPieceIds (p.map escapeSpace)) (fun s _ => ?_)
      (fun p => by simp only [unitIds, pieceIds, if_neg hbpe]) hspecial (htext hsegs)
    simp only [cutter, if_neg hbpe, encodeSpmBpeChunk, splitNewlineRuns_escape, flatMap_map]

end GgufTokenizer

def glue (s : List Char) : List Segment → List Segment
  | [] => textSegment s
  | .text t :: segs => .text (s ++ t) :: segs
  | .special st :: segs => textSegment s ++ .special st :: segs

def fuse : List Segment → List Segment
  | [] => []
  | .text s :: segs => glue s (fuse segs)
  | .special st :: segs => .special st :: fuse segs

theorem glue_eq (s : List Char) {segs : List Segment} (h : ∀ u r, segs ≠ .text u :: r) :
    glue s segs = textSegment s ++ segs := by
  rcases segs with _ | ⟨u | st, segs⟩
  · exact (append_nil _).symm
  · exact absurd rfl (h u segs)
  · rfl

theorem glue_nil (segs : List Segment) : glue [] segs = segs := by
  rcases segs with _ | ⟨_ | _, _⟩ <;> rfl

theorem glue_glue (s t : List Char) (segs : List Segment) :
    glue s (glue t segs) = glue (s ++ t) segs := by
  have hrest : (∀ u r, segs ≠ .text u :: r) → glue s (glue t segs) = glue (s ++ t) segs := by
    intro hne
    rw [glue_eq t hne, glue_eq (s ++ t) hne, textSegment]
    split_ifs with ht
    · rw [ht, append_nil, nil_append, glue_eq s hne]
    · rw [textSegment, if_neg (by simp [ht])]
      rfl
  rcases segs with _ | ⟨u | st, segs⟩
  · exact hrest (by simp)
  · simp only [glue, append_assoc]
  · exact hrest (by simp)

theorem fuse_singles (s : List Char) (segs : List Segment) :
    fuse (s.map (fun c => .text [c]) ++ segs) = glue s (fuse segs) := by
  induction s with
  | nil => exact (glue_nil _).symm
  | cons c s ih => rw [map_cons, cons_append, fuse, ih, glue_glue, singleton_append]

theorem fuse_pieces : ∀ segs : List Segment,
    fuse (segs.flatMap (piecesOf (singles Char))) = fuse segs
  | [] => rfl
  | .text s :: segs => by
    rw [flatMap_cons, piecesOf, pieces_singles, List.map_map, fuse, ← fuse_pieces segs]
    exact fuse_singles s _
  | .special st :: segs => by
    rw [flatMap_cons, piecesOf, singleton_append, fuse, fuse, fuse_pieces segs]

theorem Splits.fuse {specials : List (List Char)} {text : List Char} {segs : List Segment}
    (h : Splits specials text segs) : fuse segs = segs := by
  have htext : ∀ (s : List Char) (segs : List Segment),
      Tokenizer.fuse (textSegment s ++ segs) = glue s (Tokenizer.fuse segs) := by
    intro s segs
    rw [textSegment]
    split_ifs with hs
    · rw [hs, glue_nil, nil_append]
    · rfl
  induction h with
  | @last rest _ =>
    have := htext rest []
    rw [append_nil] at this
    rw [this, Tokenizer.fuse, glue]
  | @next before st after segs _ _ ih =>
    rw [htext, Tokenizer.fuse, ih, glue]

theorem Splits.text_free {specials : List (List Char)} (hnil : [] ∉ specials) {text : List Char}
    {segs : List Segment} (h : Splits specials text segs) {s : List Char} (hs : .text s ∈ segs) :
    ∀ st ∈ specials, ∀ pos, ¬Occurs st pos s := by
  have htext : ∀ {u : List Char}, .text s ∈ textSegment u → s = u := fun {u} hu => by
    rw [textSegment] at hu
    split_ifs at hu
    · simp at hu
    · simpa using hu
  induction h with
  | last hnone =>
    obtain rfl := htext hs
    exact hnone
  | @next before st after segs hnext _ ih =>
    rcases mem_append.1 hs with hs | hs
    · obtain rfl := htext hs
      exact hnext.none_before hnil le_rfl
    · exact ih (by simpa using hs)

namespace GgufTokenizer

variable {F : Type} {prims : Prims F} {tk : GgufTokenizer F}

/-- Where two texts are adjacent, the first is apart from the whole stretch behind it. -/
def JoinsApart (prims : Prims F) (tk : GgufTokenizer F) : List Segment → Prop
  | [] => True
  | .text s :: segs =>
    (∀ t rest, fuse segs = .text t :: rest → tk.Apart prims s t) ∧ tk.JoinsApart prims segs
  | .special _ :: segs => tk.JoinsApart prims segs

def legacyIds (prims : Prims F) (tk : GgufTokenizer F) : Segment → Option (List UInt32)
  | .text s => some (tk.encodeLegacyChunk prims s)
  | .special st => (tk.idOf st).map fun id => [id]

theorem concatM_fuse (hord : Ordered prims.gt prims.f32Min) : ∀ {segs : List Segment},
    (∀ s, .text s ∈ segs → s ≠ []) → (∀ s, .text s ∈ fuse segs → Free s) →
      tk.JoinsApart prims segs →
        concatM (tk.legacyIds prims) (fuse segs) = concatM (tk.legacyIds prims) segs
  | [], _, _, _ => rfl
  | .special st :: segs, hne, hfree, happart => by
    rw [fuse, concatM, concatM, concatM_fuse hord (fun s hs => hne s (mem_cons_of_mem _ hs))
      (fun s hs => hfree s (mem_cons_of_mem _ hs)) happart]
  | .text s :: segs, hne, hfree, happart => by
    obtain ⟨hnext, hrest⟩ := happart
    have hs : s ≠ [] := hne s mem_cons_self
    have hne' : ∀ u, .text u ∈ segs → u ≠ [] := fun u hu => hne u (mem_cons_of_mem _ hu)
    rw [fuse] at hfree ⊢
    rw [concatM]
    rcases hfuse : fuse segs with _ | ⟨t | st, rest⟩
    · have hfree' : ∀ u, .text u ∈ fuse segs → Free u := by simp [hfuse]
      rw [← concatM_fuse hord hne' hfree' hrest, hfuse, glue, textSegment, if_neg hs]
      rfl
    · rw [hfuse, glue] at hfree
      have hboth : Free (s ++ t) := hfree _ mem_cons_self
      have hfree' : ∀ u, .text u ∈ fuse segs → Free u := fun u hu => by
        rw [hfuse] at hu
        rcases mem_cons.1 hu with heq | hu
        · obtain rfl := Segment.text.inj heq
          exact fun st hst pos hocc => hboth st hst _ (hocc.append_left s)
        · exact hfree u (mem_cons_of_mem _ hu)
      rw [← concatM_fuse hord hne' hfree' hrest, hfuse, glue, concatM, concatM, legacyIds,
        encodeLegacyChunk_append hord hboth (hnext t rest hfuse), legacyIds, legacyIds]
      rcases concatM (tk.legacyIds prims) rest with _ | ids <;> simp
    · rw [hfuse, glue, textSegment, if_neg hs] at hfree
      have hfree' : ∀ u, .text u ∈ fuse segs → Free u := fun u hu => by
        rw [hfuse] at hu
        exact hfree u (mem_append_right _ hu)
      rw [← concatM_fuse hord hne' hfree' hrest, hfuse, glue, textSegment, if_neg hs]
      rfl

theorem encodeSerial_legacy (prims : Prims F) {tk : GgufTokenizer F}
    (hpath : ¬(tk.modelType = "bpe" ∨ tk.modelType = "gemma4")) {text : List Char}
    (hne : text ≠ []) : tk.encodeSerial prims text =
      (splitSpecials tk.specialTokens text).bind (concatM (tk.legacyIds prims)) := by
  obtain ⟨hbpe, hgemma⟩ := not_or.1 hpath
  rw [encodeSerial, if_neg hne, if_neg hbpe, if_neg hgemma]
  refine congrArg _ (funext fun segs => ?_)
  rw [encodeSegments, mapM_flatten]
  refine concatM_congr fun seg _ => ?_
  cases seg <;> rfl

/-- No cut is within a special token, and where one is within a stretch, the part up to it is apart
from what is behind it. -/
structure CutApart (prims : Prims F) (tk : GgufTokenizer F) (text : List Char) : Prop where
  specials : ∀ us, Tokenizer.units (singles Char) tk.specialTokens text = some us →
    CutsBetween (singles Char) (chunks text 4096) us
  stretches : ∀ segs, concatM (splitSpecials tk.specialTokens) (chunks text 4096) = some segs →
    tk.JoinsApart prims segs

/-- Each cut of a long text comes between two of its pieces, and for words, after a piece that a run
of white space before it would not take in; or, on the older path, where the two sides are apart. -/
def CutBetween (prims : Prims F) (tk : GgufTokenizer F) (text : List Char) : Prop :=
  8192 ≤ Utf8.size text →
    if tk.modelType = "bpe" ∨ tk.modelType = "gemma4" then
      ∀ us, tk.units prims.toCharClasses text = some us →
        CutsBetween (tk.cutter prims.toCharClasses) (chunks text 4096) us
    else tk.CutApart prims text

theorem concatM_chunks {tk : GgufTokenizer F} {text : List Char}
    (hpath : tk.modelType = "bpe" ∨ tk.modelType = "gemma4") (hnil : [] ∉ tk.specialTokens)
    (hne : text ≠ []) (hparts : ∀ chunk ∈ chunks text 4096, chunk ≠ [])
    (hcuts : ∀ us, tk.units prims.toCharClasses text = some us →
      CutsBetween (tk.cutter prims.toCharClasses) (chunks text 4096) us) :
    concatM (tk.encodeSerial prims) (chunks text 4096) = tk.encodeSerial prims text := by
  have hflat : (chunks text 4096).flatten = text := flatten_chunks (by omega) text
  rw [encodeSerial_eq prims hpath hne,
    concatM_congr fun chunk hmem => encodeSerial_eq prims hpath (hparts chunk hmem)]
  have hsome : ∃ segs, splitSpecials tk.specialTokens text = some segs :=
    splitSpecials_isSome_iff.2 hnil
  obtain ⟨segs, hsegs⟩ := hsome
  have hunits : tk.units prims.toCharClasses text =
      some (segs.flatMap (piecesOf (tk.cutter prims.toCharClasses))) := by
    rw [units, Tokenizer.units, hsegs, map_some]
  have hwhole := hunits
  rw [← hflat] at hwhole
  obtain ⟨uss, hmap, huss⟩ := units_parts hnil hparts hwhole (hcuts _ hunits)
  rw [hunits, bind_some, ← huss, ← flatMap_id, concatM_flatMap]
  exact concatM_bind hmap

theorem mapM_units {k : Cutter Char} {specials : List (List Char)} :
    ∀ {parts : List (List Char)} {uss : List (List Segment)},
      parts.mapM (Tokenizer.units k specials) = some uss →
        ∃ segss, parts.mapM (splitSpecials specials) = some segss ∧
          uss.flatten = segss.flatten.flatMap (piecesOf k) ∧
            ∀ segs ∈ segss, ∃ part, Splits specials part segs
  | [], uss, h => by
    obtain rfl : [] = uss := Option.some.inj h
    exact ⟨[], rfl, rfl, fun segs hsegs => absurd hsegs not_mem_nil⟩
  | part :: parts, uss, h => by
    rw [mapM_cons, Tokenizer.units] at h
    rcases hpart : splitSpecials specials part with _ | segs
    · simp [hpart] at h
    · rcases hrest : parts.mapM (Tokenizer.units k specials) with _ | uss'
      · simp [hpart, hrest] at h
      · obtain rfl : segs.flatMap (piecesOf k) :: uss' = uss := by simpa [hpart, hrest] using h
        obtain ⟨segss, hmap, hflat, hsplits⟩ := mapM_units hrest
        refine ⟨segs :: segss, by rw [mapM_cons, hpart, hmap]; rfl, ?_, ?_⟩
        · rw [flatten_cons, hflat, flatten_cons, flatMap_append]
        · exact forall_mem_cons.2 ⟨⟨part, splits_of_splitAux hpart⟩, hsplits⟩

theorem concatM_legacy {tk : GgufTokenizer F} {text : List Char}
    (hord : Ordered prims.gt prims.f32Min)
    (hpath : ¬(tk.modelType = "bpe" ∨ tk.modelType = "gemma4")) (hnil : [] ∉ tk.specialTokens)
    (hne : text ≠ []) (hparts : ∀ chunk ∈ chunks text 4096, chunk ≠ [])
    (hcuts : tk.CutApart prims text) :
    concatM (tk.encodeSerial prims) (chunks text 4096) = tk.encodeSerial prims text := by
  have hflat : (chunks text 4096).flatten = text := flatten_chunks (by omega) text
  rw [encodeSerial_legacy prims hpath hne,
    concatM_congr fun chunk hmem => encodeSerial_legacy prims hpath (hparts chunk hmem)]
  have hsome : ∃ segs, splitSpecials tk.specialTokens text = some segs :=
    splitSpecials_isSome_iff.2 hnil
  obtain ⟨segs, hsegs⟩ := hsome
  have hsplits := (splitSpecials_eq_some hnil).1 hsegs
  -- the special tokens found in the chunks are those of the text
  have hunits : Tokenizer.units (singles Char) tk.specialTokens text =
      some (segs.flatMap (piecesOf (singles Char))) := by
    rw [Tokenizer.units, hsegs, map_some]
  have hwhole := hunits
  rw [← hflat] at hwhole
  obtain ⟨uss, hmap, huss⟩ := units_parts hnil hparts hwhole (hcuts.specials _ hunits)
  obtain ⟨segss, hsegss, hpieces, hfound⟩ := mapM_units hmap
  have hfuse : fuse segss.flatten = segs := by
    rw [← fuse_pieces, ← hpieces, huss, fuse_pieces, hsplits.fuse]
  have hjoins := hcuts.stretches segss.flatten (by rw [← mapM_flatten, hsegss]; rfl)
  have hlegacy : concatM (tk.legacyIds prims) (fuse segss.flatten) =
      concatM (tk.legacyIds prims) segss.flatten := by
    refine concatM_fuse hord (fun s hs => ?_) (fun s hs st hst => ?_) hjoins
    · obtain ⟨segs', hmem, hs⟩ := mem_flatten.1 hs
      obtain ⟨part, hpart⟩ := hfound segs' hmem
      exact text_ne_nil hpart s hs
    · have hlegacies : legacySpecials ⊆ genericSpecials := by decide
      rw [hfuse] at hs
      exact hsplits.text_free hnil hs st (mem_append_right _ (hlegacies hst))
  rw [hsegs, bind_some, ← hfuse, hlegacy, concatM_bind hsegss, ← flatMap_id,
    concatM_flatMap]
  rfl

/-- A tokenizer of the mark and the letter, with nothing to merge them to. -/
def letterTokenizer (modelType : String) : GgufTokenizer ℤ where
  tokens := [['\u2581'], ['a']]
  tokenToId := [(['\u2581'], 0), (['a'], 1)]
  scores := none
  modelType := modelType
  bpeMerges := none
  byteDecoder := none
  unkTokenId := none
  addedTokens := []

theorem splits_letters (modelType : String) {text : List Char} (h : '<' ∉ text) :
    splitSpecials (letterTokenizer modelType).specialTokens text = some (textSegment text) := by
  have hspecials : (letterTokenizer modelType).specialTokens = genericSpecials := rfl
  have hbracket : ∀ st ∈ genericSpecials, '<' ∈ st := by decide
  rw [hspecials]
  refine (splitSpecials_eq_some (by decide)).2 (.last fun st hst pos hocc => ?_)
  obtain ⟨before, after, rfl, _⟩ := hocc
  exact h (by simp [hbracket st hst])

theorem cutsBetween_singles {parts : List (List Char)} {text : List Char}
    (h : parts.flatten = text) :
    CutsBetween (singles Char) parts ((text.map fun c => [c]).map Segment.text) := by
  rintro pre suf rfl _ _
  rw [flatten_append] at h
  refine ⟨(pre.flatten.map fun c => [c]).map Segment.text,
    (suf.flatten.map fun c => [c]).map Segment.text, ?_, ?_, ?_⟩
  · rw [← map_append, ← map_append, h]
  · rw [spell_map_text]
    exact flatMap_singleton' _
  · rintro ⟨_, _, _, hbad⟩
    exact hbad

theorem units_letters (modelType : String) {text : List Char} (h : '<' ∉ text) :
    Tokenizer.units (singles Char) (letterTokenizer modelType).specialTokens text =
      some ((text.map fun c => [c]).map Segment.text) := by
  rw [Tokenizer.units, splits_letters modelType h, map_some, pieces_textSegment,
    pieces_singles]

theorem mergedId_letters (modelType : String) (a b : UInt32) :
    (letterTokenizer modelType).mergedId a b = none := by
  have htoken : ∀ {i : ℕ} {s : List Char}, (letterTokenizer modelType).tokens[i]? = some s →
      s.length = 1 := fun h => by
      have hmem := mem_of_getElem? h
      simp only [letterTokenizer, mem_cons, not_mem_nil, or_false] at hmem
      rcases hmem with rfl | rfl <;> rfl
  have hid : ∀ s : List Char, s.length = 2 → (letterTokenizer modelType).idOf s = none := by
    intro s hs
    obtain ⟨c, d, rfl⟩ := length_eq_two.1 hs
    simp [idOf, letterTokenizer, lookup_cons]
  rw [mergedId]
  rcases ha : (letterTokenizer modelType).tokens[a.toNat]? with _ | s
  · rfl
  · rcases hb : (letterTokenizer modelType).tokens[b.toNat]? with _ | t
    · rfl
    · exact hid _ (by rw [length_append, htoken ha, htoken hb])

theorem mergeable_letters (modelType : String) (ids : List UInt32) :
    (letterTokenizer modelType).mergeable ids = [] := by
  refine eq_nil_iff_forall_not_mem.2 fun p hp => ?_
  have hmerged := (of_mem_mergeable hp).2
  rw [mergedId_letters] at hmerged
  cases hmerged

theorem bestMerge_letters (modelType : String) (ids : List UInt32) :
    (letterTokenizer modelType).bestMerge samplePrims samplePrims.f32Min none ids = none := by
  rw [bestMerge_eq, mergeable_letters]
  rfl

theorem mergeIds_letters (modelType : String) (n : ℕ) (ids : List UInt32) :
    (letterTokenizer modelType).mergeIds samplePrims n ids = ids :=
  mergeIds_of_none (bestMerge_letters modelType ids) n

theorem mergesApart_letters (modelType : String) (l r : List UInt32) :
    (letterTokenizer modelType).MergesApart samplePrims l r where
  across _ _ _ _ _ _ := mergedId_letters modelType _ _
  order i j p q hp _ _ := by
    rw [bestMerge_letters] at hp
    cases hp

theorem joinsApart_spaces : ∀ {parts : List (List Char)}, (∀ part ∈ parts, part ≠ []) →
    (∀ part ∈ parts, ∀ c ∈ part, c = ' ') →
      fuse (parts.map Segment.text) = textSegment parts.flatten ∧
        (letterTokenizer "llama").JoinsApart samplePrims (parts.map Segment.text)
  | [], _, _ => ⟨rfl, trivial⟩
  | part :: parts, hne, h => by
    obtain ⟨hpart, hrest⟩ := forall_mem_cons.1 hne
    obtain ⟨hspaces, hspaces'⟩ := forall_mem_cons.1 h
    obtain ⟨hfuse, hjoins⟩ := joinsApart_spaces hrest hspaces'
    have hglue : ∀ u, textSegment u = glue u [] := fun _ => rfl
    refine ⟨?_, fun t rest ht => ?_, hjoins⟩
    · rw [map_cons, fuse, hfuse, hglue, glue_glue, flatten_cons]
      rfl
    · have hmarked : ∀ u : List Char, u ≠ [] → (∀ c ∈ u, c = ' ') →
          (letterTokenizer "llama").processed u = u.map escapeSpace := by
        intro u hu hc
        obtain ⟨c, u, rfl⟩ := exists_cons_of_ne_nil hu
        obtain rfl := hc c mem_cons_self
        rfl
      rw [hfuse, textSegment] at ht
      split_ifs at ht with hnil
      obtain ⟨heq, -⟩ := List.cons.inj ht
      obtain rfl := Segment.text.inj heq
      have hflat : ∀ c ∈ parts.flatten, c = ' ' := fun c hc => by
        obtain ⟨u, hu, hc⟩ := mem_flatten.1 hc
        exact hspaces' u hu c hc
      refine ⟨?_, mergesApart_letters _ _ _⟩
      rw [hmarked part hpart hspaces, hmarked _ hnil hflat, ← map_append]
      exact hmarked _ (by simp [hpart]) fun c hc =>
        (mem_append.1 hc).elim (hspaces c) (hflat c)

theorem length_encodeLegacyChunk_letters {text : List Char} (h : ∀ c ∈ text, c = 'a') :
    ((letterTokenizer "llama").encodeLegacyChunk samplePrims text).length = text.length + 1 := by
  have hchars : ∀ (cs : List Char) (n : ℕ), cs.length ≤ n → '<' ∉ cs →
      ((letterTokenizer "llama").charIds n cs).length = cs.length := by
    intro cs
    induction cs with
    | nil => intro n _ _; cases n <;> rfl
    | cons c cs ih =>
      intro n hn hc
      rcases n with _ | n
      · simp at hn
      · rw [mem_cons, not_or] at hc
        have hnot : ¬c = '<' := fun heq => hc.1 heq.symm
        simp only [charIds, if_neg hnot, length_cons]
        rw [ih n (by simpa using hn) hc.2]
  have hprocessed : (letterTokenizer "llama").processed text = '\u2581' :: text := by
    have hsame : text.map escapeSpace = text := by
      refine (map_congr_left fun c hc => ?_).trans (List.map_id text)
      rw [h c hc]
      rfl
    have hhead : text.head? ≠ some '\u2581' := fun hhead => by
      have := h _ (mem_of_mem_head? hhead)
      exact absurd this (by decide)
    have hgpt2 : ((letterTokenizer "llama").tokenToId.any fun kv => kv.1.contains '\u0120') =
        false := by
      decide
    rw [processed, hgpt2, if_neg (by simp), if_pos (.inr rfl)]
    simp only [hsame, if_pos hhead]
  rw [encodeLegacyChunk, mergeIds_letters, hprocessed, hchars _ _ le_rfl, length_cons]
  intro hmem
  rcases mem_cons.1 hmem with heq | hmem
  · exact absurd heq (by decide)
  · exact absurd (h _ hmem) (by decide)

theorem length_flatMap_succ {f : List Char → List UInt32} : ∀ {cs : List (List Char)},
    (∀ c ∈ cs, (f c).length = c.length + 1) →
      (cs.flatMap f).length = cs.flatten.length + cs.length
  | [], _ => rfl
  | c :: cs, h => by
    have hrest := length_flatMap_succ fun d hd => h d (mem_cons_of_mem c hd)
    rw [flatMap_cons, length_append, h c mem_cons_self, hrest, flatten_cons,
      length_append, length_cons]
    omega

end GgufTokenizer

end Grim.Tokenizer
