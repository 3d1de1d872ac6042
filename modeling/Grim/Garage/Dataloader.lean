import Grim.Autograd.Collate
import Grim.Lib.Chop

/-!
# The dataloader

A rank of a data-parallel run reads its lines of a file, keeps the tokens of their texts in a buffer
and takes batches of one size from the front of it.  The batches of a run are those of the stream of
all the tokens of the rank's lines (`yields_batches`).
-/

namespace Grim.Garage

open Autograd FlatMatrix FloatFormat Batches Folds List

inductive LoadError
  | backend (text : String)
  | panics
deriving DecidableEq

/-- What is read from a line of the file: `serde_json` and the tokenizer. -/
structure TextSource (L T α : Type) where
  /-- `line.trim().is_empty()` -/
  isBlank : L → Bool
  /-- `serde_json::from_str(line.trim())`, with `v[key].as_str().unwrap_or("")` for a key. -/
  parse : L → Except String (String → T)
  encode : T → List α
  padTokenId : α

structure LoaderShape where
  seqLen : ℕ
  batchSize : ℕ
  rank : ℕ
  worldSize : ℕ

structure JsonlBatchIterator (L α : Type) where
  tokenBuffer : List α
  reader : List L
  exhausted : Bool
  lineIndex : ℕ

variable {L T α : Type}

/-- Each rank reads the lines with `line_index % world_size == rank`. -/
def newSharded (lines : List L) (c : LoaderShape) : Except LoadError (JsonlBatchIterator L α) :=
  if c.worldSize = 0 ∨ c.worldSize ≤ c.rank then
    .error (.backend ("invalid dataloader shard rank " ++ toString c.rank ++ "/"
      ++ toString c.worldSize))
  else .ok ⟨[], lines, false, 0⟩

namespace TextSource

variable (src : TextSource L T α)

def parsed (l : L) : Except LoadError (String → T) :=
  match src.parse l with
  | .ok v => .ok v
  | .error text => .error (.backend text)

/-- What `fill_buffer` adds for a line. -/
def textTokens (l : L) : Except LoadError (List α) := do
  let v ← src.parsed l
  .ok (src.encode (v "text"))

/-- What `fill_preference_buffer` adds for a line. -/
def pairTokens (l : L) : Except LoadError (List α) :=
  if src.isBlank l then .ok []
  else do
    let v ← src.parsed l
    .ok (src.encode (v "chosen") ++ src.encode (v "rejected"))

end TextSource

namespace LoaderShape

variable (c : LoaderShape)

def nextLine : ℕ → List L → Option L × ℕ × List L
  | i, [] => (none, i, [])
  | i, l :: ls => if i % c.worldSize ≠ c.rank then nextLine (i + 1) ls else (some l, i + 1, ls)

def fill (tokens : L → Except LoadError (List α)) (it : JsonlBatchIterator L α) :
    Except LoadError (JsonlBatchIterator L α) :=
  match c.nextLine it.lineIndex it.reader with
  | (none, i, ls) => .ok { it with reader := ls, lineIndex := i, exhausted := true }
  | (some l, i, ls) => do
    let ts ← tokens l
    .ok { it with reader := ls, lineIndex := i, tokenBuffer := it.tokenBuffer ++ ts }

def mine (i : ℕ) (ls : List L) : List L :=
  ((ls.zipIdx i).filter fun p => p.2 % c.worldSize = c.rank).map Prod.fst

def left (it : JsonlBatchIterator L α) : ℕ := it.reader.length + if it.exhausted then 0 else 1

theorem nextLine_cases (i : ℕ) (ls : List L) :
    (∃ j, c.nextLine i ls = (none, j, []) ∧ c.mine i ls = []) ∨
      ∃ l j rest, c.nextLine i ls = (some l, j, rest) ∧ c.mine i ls = l :: c.mine j rest ∧
        l ∈ ls ∧ rest ⊆ ls ∧ rest.length < ls.length := by
  induction ls generalizing i with
  | nil => exact .inl ⟨i, rfl, rfl⟩
  | cons l ls ih =>
    by_cases h : i % c.worldSize = c.rank
    · refine .inr ⟨l, i + 1, ls, if_neg (not_not.2 h), ?_, mem_cons_self,
        subset_cons_self l ls, Nat.lt_succ_self _⟩
      rw [mine, zipIdx_cons, filter_cons_of_pos (by simpa using h), map_cons]
      rfl
    · have hskip : c.nextLine i (l :: ls) = c.nextLine (i + 1) ls := if_pos h
      have hmine : c.mine i (l :: ls) = c.mine (i + 1) ls := by
        rw [mine, zipIdx_cons, filter_cons_of_neg (by simpa using h)]
        rfl
      rw [hskip, hmine]
      rcases ih (i + 1) with hnone | ⟨l', j, rest, hnext, hm, hmem, hsub, hlt⟩
      · exact .inl hnone
      · exact .inr ⟨l', j, rest, hnext, hm, mem_cons_of_mem l hmem,
          subset_cons_of_subset l hsub, Nat.lt_succ_of_lt hlt⟩

variable {c} {tokens : L → Except LoadError (List α)} {it it' : JsonlBatchIterator L α}

theorem fill_cases (it : JsonlBatchIterator L α) :
    (∃ j, c.fill tokens it = .ok { it with reader := [], lineIndex := j, exhausted := true } ∧
      c.mine it.lineIndex it.reader = []) ∨
    ∃ l j rest, c.mine it.lineIndex it.reader = l :: c.mine j rest ∧ l ∈ it.reader ∧
      rest ⊆ it.reader ∧ rest.length < it.reader.length ∧
      (∀ ts, tokens l = .ok ts → c.fill tokens it =
        .ok { it with reader := rest, lineIndex := j, tokenBuffer := it.tokenBuffer ++ ts }) ∧
      ∀ e, tokens l = .error e → c.fill tokens it = .error e := by
  rcases c.nextLine_cases it.lineIndex it.reader with
    ⟨j, hnext, hmine⟩ | ⟨l, j, rest, hnext, hmine, hmem, hsub, hlt⟩
  · refine .inl ⟨j, ?_, hmine⟩
    rw [fill, hnext]
  · refine .inr ⟨l, j, rest, hmine, hmem, hsub, hlt, fun ts hts => ?_, fun e he => ?_⟩
    · rw [fill, hnext]
      simp only [hts]
      rfl
    · rw [fill, hnext]
      simp only [he]
      rfl

theorem fill_left (h : c.fill tokens it = .ok it') (hmore : ¬it.exhausted) :
    left it' < left it := by
  rw [Bool.not_eq_true] at hmore
  rcases c.fill_cases it with ⟨j, hend, -⟩ | ⟨l, j, rest, -, -, -, hlt, hok, herror⟩
  · rw [hend] at h
    obtain rfl := Except.ok.inj h
    simp only [left, hmore, length_nil]
    simp
  · cases htokens : tokens l with
    | error e =>
      rw [herror e htokens] at h
      cases h
    | ok ts =>
      rw [hok ts htokens] at h
      obtain rfl := Except.ok.inj h
      exact Nat.add_lt_add_right hlt _

variable (c tokens)

/-- `while token_buffer.len() < needed && !exhausted`, one more line is read. -/
def fillUntil (needed : ℕ) (it : JsonlBatchIterator L α) :
    Except LoadError (JsonlBatchIterator L α) :=
  if _h : it.tokenBuffer.length < needed ∧ ¬it.exhausted then
    match _hfill : c.fill tokens it with
    | .ok it' => fillUntil needed it'
    | .error e => .error e
  else .ok it
termination_by left it
decreasing_by exact fill_left _hfill _h.2

/-- The next `needed` tokens, filled up with padding behind the last of the file. -/
def takeFlat (padTokenId : α) (needed : ℕ) (it : JsonlBatchIterator L α) :
    Except LoadError (Option (List α) × JsonlBatchIterator L α) := do
  let it ← c.fillUntil tokens needed it
  if it.tokenBuffer = [] then .ok (none, it)
  else
    let buffer := it.tokenBuffer.rightpad needed padTokenId
    .ok (some (buffer.take needed), { it with tokenBuffer := buffer.drop needed })

variable {c tokens} {ids : L → List α}

/-- All the tokens still to come, where `ids` are those of a line. -/
def stream (c : LoaderShape) (ids : L → List α) (it : JsonlBatchIterator L α) : List α :=
  it.tokenBuffer ++ (c.mine it.lineIndex it.reader).flatMap ids

/-- Each line left has tokens, and there is none behind the end of the file. -/
structure Ready (tokens : L → Except LoadError (List α)) (ids : L → List α)
    (it : JsonlBatchIterator L α) : Prop where
  texts : ∀ l ∈ it.reader, tokens l = .ok (ids l)
  done : it.exhausted → it.reader = []

theorem Ready.fill (h : Ready tokens ids it) :
    ∃ it', c.fill tokens it = .ok it' ∧ Ready tokens ids it' ∧
      c.stream ids it' = c.stream ids it := by
  rcases c.fill_cases it with ⟨j, hend, hmine⟩ | ⟨l, j, rest, hmine, hmem, hsub, -, hok, -⟩
  · refine ⟨_, hend, ⟨fun _ hl => absurd hl not_mem_nil, fun _ => rfl⟩, ?_⟩
    rw [stream, stream, hmine]
    rfl
  · have hmore : ¬it.exhausted := by
      intro hdone
      rw [h.done hdone] at hmem
      exact not_mem_nil hmem
    refine ⟨_, hok _ (h.texts l hmem), ⟨fun l' hl' => h.texts l' (hsub hl'), fun hdone =>
      absurd hdone hmore⟩, ?_⟩
    rw [stream, stream, hmine, flatMap_cons, ← append_assoc]

theorem Ready.fillUntil (needed : ℕ) (h : Ready tokens ids it) :
    ∃ it', c.fillUntil tokens needed it = .ok it' ∧ Ready tokens ids it' ∧
      c.stream ids it' = c.stream ids it ∧
        (needed ≤ it'.tokenBuffer.length ∨ it'.tokenBuffer = c.stream ids it) := by
  induction hn : left it using Nat.strong_induction_on generalizing it with
  | h n ih =>
    rw [LoaderShape.fillUntil]
    split_ifs with hloop
    · obtain ⟨it', hfill, hready, hstream⟩ := h.fill (c := c)
      obtain ⟨it'', hrest, hready', hstream', hfull⟩ :=
        ih (left it') (hn ▸ fill_left hfill hloop.2) hready rfl
      refine ⟨it'', ?_, hready', hstream'.trans hstream, hstream ▸ hfull⟩
      split
      · rename_i it₁ hit₁
        obtain rfl := Except.ok.inj (hit₁.symm.trans hfill)
        exact hrest
      · rename_i e he
        rw [he] at hfill
        cases hfill
    · refine ⟨it, rfl, h, rfl, ?_⟩
      by_cases hlen : needed ≤ it.tokenBuffer.length
      · exact .inl hlen
      · have hdone : it.exhausted := not_not.1 fun hmore => hloop ⟨not_le.1 hlen, hmore⟩
        refine .inr ?_
        rw [stream, h.done hdone]
        exact (append_nil _).symm

theorem Ready.takeFlat {needed : ℕ} (hn : 0 < needed) (pad : α) (h : Ready tokens ids it) :
    (c.stream ids it = [] ∧ ∃ it', c.takeFlat tokens pad needed it = .ok (none, it')) ∨
      (c.stream ids it ≠ [] ∧ ∃ it', c.takeFlat tokens pad needed it =
          .ok (some (((c.stream ids it).rightpad needed pad).take needed), it') ∧
        Ready tokens ids it' ∧ c.stream ids it' = (c.stream ids it).drop needed) := by
  obtain ⟨it', hfill, hready, hstream, hfull⟩ := h.fillUntil (c := c) needed
  have hrun : c.takeFlat tokens pad needed it = if it'.tokenBuffer = [] then .ok (none, it')
      else .ok (some ((it'.tokenBuffer.rightpad needed pad).take needed),
        { it' with tokenBuffer := (it'.tokenBuffer.rightpad needed pad).drop needed }) := by
    rw [LoaderShape.takeFlat, hfill]
    rfl
  rw [hrun, ← hstream]
  have hall : it'.tokenBuffer.length < needed → c.stream ids it' = it'.tokenBuffer := fun hlt =>
    hstream.trans (hfull.resolve_left (not_le.2 hlt)).symm
  by_cases hbuffer : it'.tokenBuffer = []
  · refine .inl ⟨?_, it', if_pos hbuffer⟩
    rw [hall (by rwa [hbuffer]), hbuffer]
  · refine .inr ⟨fun hnil => hbuffer (append_eq_nil_iff.1 hnil).1, ?_⟩
    have htake : (it'.tokenBuffer.rightpad needed pad).take needed =
        ((c.stream ids it').rightpad needed pad).take needed := by
      rcases lt_or_ge it'.tokenBuffer.length needed with hlt | hle
      · rw [hall hlt]
      · have hle' : needed ≤ (c.stream ids it').length :=
          hle.trans (by rw [stream, length_append]; exact Nat.le_add_right _ _)
        rw [rightpad_of_le hle, rightpad_of_le hle', stream, take_append_of_le_length hle]
    refine ⟨{ it' with tokenBuffer := (it'.tokenBuffer.rightpad needed pad).drop needed },
      (if_neg hbuffer).trans ?_, ⟨hready.texts, hready.done⟩, ?_⟩
    · rw [htake]
    · show (it'.tokenBuffer.rightpad needed pad).drop needed ++ _ = _
      rw [drop_rightpad, stream, drop_append]
      rcases lt_or_ge it'.tokenBuffer.length needed with hlt | hle
      · have hrest := hall hlt
        rw [stream, append_right_eq_self] at hrest
        rw [hrest, drop_nil]
      · rw [Nat.sub_eq_zero_of_le hle, drop_zero]

inductive Yields {σ β : Type} (stops : σ → Prop) (gives : σ → β → σ → Prop) : σ → List β → Prop
  | done {s : σ} : stops s → Yields stops gives s []
  | more {s s' : σ} {b : β} {bs : List β} :
    gives s b s' → Yields stops gives s' bs → Yields stops gives s (b :: bs)

theorem Yields.unique {σ β : Type} {stops : σ → Prop} {gives : σ → β → σ → Prop}
    (hstops : ∀ {s b s'}, stops s → ¬gives s b s')
    (hgives : ∀ {s b b' s' s''}, gives s b s' → gives s b' s'' → b = b' ∧ s' = s'') :
    ∀ {s bs bs'}, Yields stops gives s bs → Yields stops gives s bs' → bs = bs'
  | _, [], [], _, _ => rfl
  | _, [], _ :: _, .done hs, .more hg _ => absurd hg (hstops hs)
  | _, _ :: _, [], .more hg _, .done hs => absurd hg (hstops hs)
  | _, _ :: _, _ :: _, .more hg h, .more hg' h' => by
    obtain ⟨rfl, rfl⟩ := hgives hg hg'
    rw [h.unique hstops hgives h']

theorem Ready.yields {β : Type} {needed : ℕ} (hn : 0 < needed) {pad : α} (f : List α → β)
    {stops : JsonlBatchIterator L α → Prop}
    {gives : JsonlBatchIterator L α → β → JsonlBatchIterator L α → Prop}
    (hstops : ∀ it it', c.takeFlat tokens pad needed it = .ok (none, it') → stops it)
    (hgives : ∀ it flat it', c.takeFlat tokens pad needed it = .ok (some flat, it') →
      flat.length = needed → gives it (f flat) it') (h : Ready tokens ids it) :
    Yields stops gives it ((batches needed pad (c.stream ids it)).map f) := by
  induction hlen : (c.stream ids it).length using Nat.strong_induction_on generalizing it with
  | h m ih =>
    rcases h.takeFlat (c := c) hn pad with ⟨hnil, it', htake⟩ | ⟨hne, it', htake, hready, hrest⟩
    · rw [hnil, batches_nil]
      exact .done (hstops it it' htake)
    · have hpos := length_pos_iff.2 hne
      rw [batches_of_ne_nil hn hne, map_cons, ← hrest]
      have hlength : (((c.stream ids it).rightpad needed pad).take needed).length = needed := by
        rw [length_take, List.rightpad, length_append, length_replicate]
        omega
      refine .more (hgives it _ it' htake hlength) (ih _ ?_ hready rfl)
      rw [hrest, length_drop]
      omega

end LoaderShape

section Labels

variable (flat : List α) (seqLen : ℕ) (padTokenId : α)

def rowOf (row : ℕ) : List α := (flat.drop (row * seqLen)).take seqLen

def labelRow (row : ℕ) : List α := (rowOf flat seqLen row).tail ++ [padTokenId]

def buildLabelRow (labels : List α) (row : ℕ) : Except LoadError (List α) := do
  let start := row * seqLen
  let labels ← (List.range (seqLen - 1)).foldlM (fun labels col =>
    match flat[start + col + 1]? with
    | some x => setAt .panics (start + col) x labels
    | none => .error .panics) labels
  setAt .panics (start + seqLen - 1) padTokenId labels

def buildLabels (batchSize : ℕ) : Except LoadError (List α) :=
  (List.range batchSize).foldlM (buildLabelRow flat seqLen padTokenId) flat

end Labels

/-- `x as f32` for each id -/
def asF32 (ids : List UInt32) : List UInt32 := ids.map fun id => f32OfInt id.toNat

structure LoadedBatch where
  inputIds : HostTensor
  labels : HostTensor

def LoaderShape.nextBatch (c : LoaderShape) (src : TextSource L T UInt32)
    (it : JsonlBatchIterator L UInt32) :
    Except LoadError (LoadedBatch × JsonlBatchIterator L UInt32) := do
  let needed := c.batchSize * c.seqLen
  let (flat, it) ← c.takeFlat src.textTokens src.padTokenId needed it
  match flat with
  | none => .error (.backend "dataloader exhausted")
  | some flat =>
    let labels ← buildLabels flat c.seqLen src.padTokenId c.batchSize
    .ok (⟨⟨[c.batchSize, c.seqLen], asF32 flat⟩, ⟨[c.batchSize, c.seqLen], asF32 labels⟩⟩, it)

/-! ### Labels -/

section Labels

variable {flat : List α} {seqLen batchSize row : ℕ} {padTokenId : α}

theorem length_rowOf (hrow : row < batchSize) (hflat : flat.length = batchSize * seqLen) :
    (rowOf flat seqLen row).length = seqLen := by
  have hend : (row + 1) * seqLen ≤ batchSize * seqLen := Nat.mul_le_mul_right _ hrow
  rw [Nat.succ_mul] at hend
  rw [rowOf, length_take, length_drop, hflat]
  omega

theorem rowOf_append (flat : List α) (seqLen row : ℕ) :
    rowOf flat seqLen row ++ flat.drop ((row + 1) * seqLen) = flat.drop (row * seqLen) := by
  rw [Nat.succ_mul, ← drop_drop, rowOf, take_append_drop]

def labelsUpTo (flat : List α) (seqLen : ℕ) (padTokenId : α) (row : ℕ) : List α :=
  ((List.range row).flatMap fun r => labelRow flat seqLen padTokenId r) ++ flat.drop (row * seqLen)

theorem length_labelsFront (hseq : 1 ≤ seqLen) (hflat : flat.length = batchSize * seqLen) :
    ∀ row ≤ batchSize, ((List.range row).flatMap fun r =>
      labelRow flat seqLen padTokenId r).length = row * seqLen
  | 0, _ => by rw [Nat.zero_mul]; rfl
  | row + 1, h => by
    have hlast : (labelRow flat seqLen padTokenId row).length = seqLen := by
      rw [labelRow, length_append, length_tail, length_rowOf h hflat,
        length_singleton, Nat.sub_add_cancel hseq]
    rw [range_succ, flatMap_append, length_append,
      length_labelsFront hseq hflat row (Nat.le_of_succ_le h), flatMap_singleton, hlast,
      Nat.succ_mul]

theorem buildLabelRow_eq (hseq : 1 ≤ seqLen) (hflat : flat.length = batchSize * seqLen)
    (hrow : row < batchSize) :
    buildLabelRow flat seqLen padTokenId (labelsUpTo flat seqLen padTokenId row) row =
      .ok (labelsUpTo flat seqLen padTokenId (row + 1)) := by
  have hfront : ((List.range row).flatMap fun r => labelRow flat seqLen padTokenId r).length =
      row * seqLen := length_labelsFront hseq hflat row hrow.le
  set front := (List.range row).flatMap fun r => labelRow flat seqLen padTokenId r with hfrontdef
  have hlength : (rowOf flat seqLen row).length = seqLen := length_rowOf hrow hflat
  have hsplit := rowOf_append flat seqLen row
  obtain ⟨tail, htail⟩ : ∃ tail, tail = (rowOf flat seqLen row).tail := ⟨_, rfl⟩
  have htlen : tail.length = seqLen - 1 := by rw [htail, length_tail, hlength]
  have hnext : ∀ col < seqLen - 1, ∃ x, flat[row * seqLen + col + 1]? = some x ∧
      tail[col]? = some x := by
    intro col hcol
    have hlt : col < tail.length := by omega
    refine ⟨tail[col], ?_, getElem?_eq_getElem hlt⟩
    rw [add_assoc, ← getElem?_drop, ← hsplit, getElem?_append_left (by omega)]
    rw [← getElem?_eq_getElem hlt, htail, getElem?_tail]
  have hloop := foldlM_range (n := seqLen - 1) (ε := LoadError) (f := fun labels col =>
      match flat[row * seqLen + col + 1]? with
      | some x => setAt .panics (row * seqLen + col) x labels
      | none => .error .panics)
    (s := fun col => front ++ (tail.take col ++ (flat.drop (row * seqLen)).drop col)) ?_
  · obtain ⟨last, hlast⟩ : ∃ last, (rowOf flat seqLen row).drop (seqLen - 1) = [last] := by
      refine length_eq_one_iff.1 ?_
      rw [length_drop, hlength, Nat.sub_sub_self hseq]
    have hend : front.length + tail.length = row * seqLen + seqLen - 1 := by
      rw [hfront, htlen]
      omega
    have hset : setAt LoadError.panics (row * seqLen + seqLen - 1) padTokenId
        ((front ++ tail) ++ last :: flat.drop ((row + 1) * seqLen)) =
          .ok ((front ++ tail) ++ padTokenId :: flat.drop ((row + 1) * seqLen)) :=
      setAt_append (length_append.trans hend)
    have hmid : (flat.drop (row * seqLen)).drop (seqLen - 1) =
        last :: flat.drop ((row + 1) * seqLen) := by
      rw [← hsplit, drop_append_of_le_length (by omega), hlast]
      rfl
    rw [take_zero, drop_zero, nil_append, take_of_length_le htlen.le, hmid,
      ← append_assoc] at hloop
    rw [buildLabelRow, labelsUpTo, ← hfrontdef]
    simp only [hloop, bind, Except.bind]
    rw [hset, labelsUpTo, range_succ, flatMap_append, ← hfrontdef, flatMap_singleton,
      labelRow, ← htail]
    simp only [append_assoc, cons_append, nil_append]
  · intro col hcol
    obtain ⟨x, hx, hx'⟩ := hnext col hcol
    have hlt : col < (flat.drop (row * seqLen)).length := by
      rw [← hsplit, length_append]
      omega
    rw [drop_eq_getElem_cons hlt, hx]
    exact setAt_next hx' (congrArg (· + col) hfront)

theorem buildLabels_eq (hseq : 1 ≤ seqLen) (hflat : flat.length = batchSize * seqLen) :
    buildLabels flat seqLen padTokenId batchSize =
      .ok ((List.range batchSize).flatMap fun row => labelRow flat seqLen padTokenId row) := by
  have hzero : labelsUpTo flat seqLen padTokenId 0 = flat := by
    rw [labelsUpTo, Nat.zero_mul]
    rfl
  have hrun := foldlM_range (s := labelsUpTo flat seqLen padTokenId)
    fun row hrow => buildLabelRow_eq hseq hflat hrow
  rw [hzero] at hrun
  refine hrun.trans (congrArg Except.ok ?_)
  rw [labelsUpTo, drop_eq_nil_of_le hflat.le, append_nil]

end Labels

/-! ### Sharded batches -/

section Sharded

def TextSource.textIds (src : TextSource L T α) (l : L) : List α :=
  match src.parse l with
  | .ok v => src.encode (v "text")
  | .error _ => []

def Exactly (data ids : List UInt32) : Prop :=
  data.map f32Value = ids.map fun id => some (id.toNat : ℚ)

/-- The numbers are the ids as `f32`, and the ids themselves where these are at most `2^24`. -/
def Rounded (data ids : List UInt32) : Prop :=
  data = asF32 ids ∧ ((∀ id ∈ ids, id.toNat ≤ 2 ^ 24) → Exactly data ids)

theorem rounded_asF32 (ids : List UInt32) : Rounded (asF32 ids) ids := by
  refine ⟨rfl, fun h => ?_⟩
  rw [Exactly, asF32, map_map]
  exact map_congr_left fun id hid => f32Value_f32OfInt_of_le (h id hid)

/-- A run of `next_batch` until the file is exhausted. -/
def LoaderShape.Run (c : LoaderShape) (src : TextSource L T UInt32) :
    JsonlBatchIterator L UInt32 → List LoadedBatch → Prop :=
  Yields (fun it => c.nextBatch src it = .error (.backend "dataloader exhausted"))
    fun it b it' => c.nextBatch src it = .ok (b, it')

/-- Each label row is its input row moved to the left by one, with padding last. -/
structure LoaderShape.Labelled (c : LoaderShape) (padTokenId : UInt32) (b : LoadedBatch) :
    Prop where
  inputs : b.inputIds.shape = [c.batchSize, c.seqLen]
  labels : b.labels.shape = [c.batchSize, c.seqLen]
  rows : b.labels.data = (List.range c.batchSize).flatMap fun row =>
    labelRow b.inputIds.data c.seqLen (f32OfInt padTokenId.toNat) row

/-- The batches of a rank hold the ids of its lines, `same` up to the format of the tensors, and
padding short of a batch.  Each line is that of one rank. -/
structure LoaderShape.Reproduces (c : LoaderShape) (same : List UInt32 → List UInt32 → Prop)
    (src : TextSource L T UInt32) (lines : List L) : Prop where
  run : ∃ it bs, newSharded lines c = .ok it ∧ c.Run src it bs ∧
    (∀ b ∈ bs, c.Labelled src.padTokenId b) ∧
      ∃ pads < c.batchSize * c.seqLen, same (bs.flatMap fun b => b.inputIds.data)
        ((c.mine 0 lines).flatMap src.textIds ++ List.replicate pads src.padTokenId)
  once : ((List.range c.worldSize).flatMap fun r =>
    LoaderShape.mine { c with rank := r } 0 lines.zipIdx).Perm lines.zipIdx

theorem flatMap_filter_perm {β : Type} (key : β → ℕ) (xs : List β) : ∀ n,
    ((List.range n).flatMap fun r => xs.filter fun x => key x = r).Perm
      (xs.filter fun x => key x < n)
  | 0 => by simp
  | n + 1 => by
    have hsplit := filter_append_perm (fun x => decide (key x < n))
      (xs.filter fun x => key x < n + 1)
    rw [filter_filter, filter_filter] at hsplit
    rw [range_succ, flatMap_append, flatMap_singleton]
    refine ((flatMap_filter_perm key xs n).append_right _).trans (.trans (.of_eq ?_) hsplit)
    congr 1 <;> refine filter_congr fun x _ => Bool.eq_iff_iff.2 ?_ <;>
      simp only [decide_eq_true_eq, Bool.and_eq_true, Bool.not_eq_true',
        decide_eq_false_iff_not] <;> omega

variable {c : LoaderShape} {src : TextSource L T UInt32} {lines : List L}

theorem LoaderShape.once (hrank : c.rank < c.worldSize) (lines : List L) :
    ((List.range c.worldSize).flatMap fun r =>
      LoaderShape.mine { c with rank := r } 0 lines.zipIdx).Perm lines.zipIdx := by
  have hperm := (flatMap_filter_perm (fun p : (L × ℕ) × ℕ => p.2 % c.worldSize) lines.zipIdx.zipIdx
    c.worldSize).map Prod.fst
  rw [map_flatMap, filter_eq_self.2 fun p _ => decide_eq_true
    (Nat.mod_lt _ (Nat.zero_lt_of_lt hrank)), zipIdx_map_fst] at hperm
  exact hperm

/-- A batch of `next_batch`, of its ids. -/
def LoaderShape.loaded (c : LoaderShape) (padTokenId : UInt32) (flat : List UInt32) : LoadedBatch :=
  ⟨⟨[c.batchSize, c.seqLen], asF32 flat⟩, ⟨[c.batchSize, c.seqLen],
    asF32 ((List.range c.batchSize).flatMap fun row => labelRow flat c.seqLen padTokenId row)⟩⟩

theorem LoaderShape.nextBatch_of_flat (hseq : 1 ≤ c.seqLen) {it it' : JsonlBatchIterator L UInt32}
    {flat : List UInt32} (h : c.takeFlat src.textTokens src.padTokenId (c.batchSize * c.seqLen) it =
      .ok (some flat, it')) (hflat : flat.length = c.batchSize * c.seqLen) :
    c.nextBatch src it = .ok (c.loaded src.padTokenId flat, it') := by
  rw [LoaderShape.nextBatch]
  simp only [h, bind, Except.bind, buildLabels_eq hseq hflat]
  rfl

theorem LoaderShape.labelled (padTokenId : UInt32) (flat : List UInt32) :
    c.Labelled padTokenId (c.loaded padTokenId flat) := by
  refine ⟨rfl, rfl, ?_⟩
  show asF32 _ = _
  rw [asF32, map_flatMap]
  refine flatMap_congr fun row _ => ?_
  rw [labelRow, labelRow, rowOf, rowOf, map_append, map_tail, map_take,
    map_drop]
  rfl

theorem TextSource.ready {src : TextSource L T α} (htexts : ∀ l ∈ lines, ∃ v, src.parse l = .ok v) :
    LoaderShape.Ready src.textTokens src.textIds ⟨[], lines, false, 0⟩ := by
  refine ⟨fun l hl => ?_, fun hdone => absurd hdone Bool.false_ne_true⟩
  obtain ⟨v, hv⟩ := htexts l hl
  simp only [TextSource.textTokens, TextSource.parsed, TextSource.textIds, hv]
  rfl

theorem LoaderShape.Run.unique {it : JsonlBatchIterator L UInt32} {bs bs' : List LoadedBatch}
    (h : c.Run src it bs) (h' : c.Run src it bs') : bs = bs' := by
  refine Yields.unique (fun hs hg => ?_) (fun hg hg' => ?_) h h'
  · rw [hs] at hg
    cases hg
  · rw [hg] at hg'
    exact Prod.mk.inj (Except.ok.inj hg')

theorem LoaderShape.run_batches (hseq : 1 ≤ c.seqLen) (hbatch : 1 ≤ c.batchSize)
    (htexts : ∀ l ∈ lines, ∃ v, src.parse l = .ok v) :
    c.Run src ⟨[], lines, false, 0⟩ ((batches (c.batchSize * c.seqLen) src.padTokenId
      ((c.mine 0 lines).flatMap src.textIds)).map (c.loaded src.padTokenId)) := by
  refine LoaderShape.Ready.yields (Nat.mul_pos hbatch hseq) _ (fun it it' hnone => ?_)
    (fun it flat it' hflat hlen => nextBatch_of_flat hseq hflat hlen) (TextSource.ready htexts)
  rw [LoaderShape.nextBatch]
  simp only [hnone]
  rfl

theorem newSharded_ok (hrank : c.rank < c.worldSize) (lines : List L) :
    newSharded (α := α) lines c = .ok ⟨[], lines, false, 0⟩ :=
  if_neg fun h => h.elim (fun hzero => by omega) fun hle => absurd hrank (not_lt.2 hle)

/-- The batches of each rank are its lines' ids, and padding. -/
theorem LoaderShape.reproduces_rounded (hrank : c.rank < c.worldSize) (hseq : 1 ≤ c.seqLen)
    (hbatch : 1 ≤ c.batchSize) (htexts : ∀ l ∈ lines, ∃ v, src.parse l = .ok v) :
    c.Reproduces Rounded src lines := by
  refine ⟨⟨_, _, newSharded_ok hrank lines, run_batches hseq hbatch htexts, fun b hb => ?_, ?_⟩,
    LoaderShape.once hrank lines⟩
  · obtain ⟨flat, -, rfl⟩ := mem_map.1 hb
    exact LoaderShape.labelled src.padTokenId flat
  · obtain ⟨pads, hpads, hflatten⟩ := @flatten_batches _ _ src.padTokenId
      (Nat.mul_pos hbatch hseq) ((c.mine 0 lines).flatMap src.textIds)
    refine ⟨pads, hpads, ?_⟩
    have hdata : (((batches (c.batchSize * c.seqLen) src.padTokenId
        ((c.mine 0 lines).flatMap src.textIds)).map (c.loaded src.padTokenId)).flatMap
          fun b => b.inputIds.data) = asF32 (batches (c.batchSize * c.seqLen) src.padTokenId
            ((c.mine 0 lines).flatMap src.textIds)).flatten := by
      rw [flatMap_map, asF32, map_flatten]
      rfl
    rw [hdata, hflatten]
    exact rounded_asF32 _

def oneId (id : UInt32) : TextSource Unit Unit UInt32 :=
  ⟨fun _ => false, fun _ => .ok fun _ => (), fun _ => [id], 0⟩

theorem LoaderShape.reproduces_rounded_two :
    (⟨2, 1, 0, 2⟩ : LoaderShape).Reproduces Rounded (oneId 7) [(), (), ()] :=
  LoaderShape.reproduces_rounded (by decide) (by decide) (by decide) fun _ _ => ⟨_, rfl⟩

/-- The id `2^24 + 1` is `2^24` in a batch. -/
theorem LoaderShape.odd_id_rounded : ¬∀ (src : TextSource Unit Unit UInt32) lines
    (c : LoaderShape), c.rank < c.worldSize → 1 ≤ c.seqLen → 1 ≤ c.batchSize →
      (∀ l ∈ lines, ∃ v, src.parse l = .ok v) → c.Reproduces Exactly src lines := by
  intro h
  have htexts : ∀ l ∈ [()], ∃ v, (oneId (2 ^ 24 + 1)).parse l = .ok v := fun _ _ => ⟨_, rfl⟩
  obtain ⟨it, bs, hit, hrun, -, pads, hpads, hexact⟩ := (h (oneId (2 ^ 24 + 1)) [()] ⟨1, 1, 0, 1⟩
    (by decide) (by decide) (by decide) htexts).run
  obtain rfl := Except.ok.inj hit
  obtain rfl := hrun.unique (run_batches (by decide) (by decide) htexts)
  obtain rfl : pads = 0 := Nat.lt_one_iff.1 hpads
  exact f32Value_f32OfInt_ne (List.cons.inj hexact).1

end Sharded

end Grim.Garage
