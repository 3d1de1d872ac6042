import Grim.Lib.FlatMatrix
import Grim.Lib.FloatNat
import Grim.Lib.Folds

/-!
# Variable-length collation

Sequences are packed into one batch: as padded rows, the longest first (`VarLenCollator.collate`),
or one behind the other with a block-diagonal mask (`VarLenCollator.collate1dPacked`).  An `f32` is
its bits.
-/

namespace Grim.Autograd

open FlatMatrix FloatFormat List

structure TokenSequence where
  tokens : List UInt32
  labels : List UInt32
deriving DecidableEq

def TokenSequence.len (s : TokenSequence) : ℕ := s.tokens.length

structure VarLenCollator where
  maxSeqLen : ℕ
  maxSeqs : ℕ
  padTokenId : UInt32

inductive CollateError
  | backend (text : String)
  | shapeMismatch (expected got : List ℕ)
  | panics
deriving DecidableEq

structure HostTensor where
  shape : List ℕ
  data : List UInt32

structure PackedBatch where
  inputIds : HostTensor
  positions : HostTensor
  attentionMask : HostTensor
  labels : HostTensor
  cuSeqlens : List ℕ

structure Packed1DBatch where
  inputIds : HostTensor
  positions : HostTensor
  attentionMask : HostTensor
  labels : HostTensor
  cuSeqlens : List ℕ
  totalTokens : ℕ

/-- `1.0` -/
def attended : UInt32 := 0x3f800000

/-- `xs[i]` -/
def readAt (xs : List UInt32) (i : ℕ) : Except CollateError UInt32 :=
  match xs[i]? with
  | some x => .ok x
  | none => .error .panics

namespace VarLenCollator

variable (c : VarLenCollator)

/-- The longest first; sequences of one length stay in their order. -/
def sorted (sequences : List TokenSequence) : List (TokenSequence × ℕ) :=
  sequences.zipIdx.mergeSort fun a b => b.1.len ≤ a.1.len

def select : List (TokenSequence × ℕ) → List (TokenSequence × ℕ) → ℕ → List (TokenSequence × ℕ)
  | [], selected, _ => selected
  | (seq, idx) :: rest, selected, totalLen =>
    if c.maxSeqs ≤ selected.length then selected
    else if c.maxSeqLen < totalLen + seq.len then selected
    else select rest (selected ++ [(seq, idx)]) (totalLen + seq.len)

structure Rows where
  inputIds : List UInt32
  attentionMask : List UInt32
  labels : List UInt32

def fillToken (maxLen seqIdx : ℕ) (seq : TokenSequence) (b : Rows) (i : ℕ) :
    Except CollateError Rows := do
  let token ← readAt seq.tokens i
  let inputIds ← setAt .panics (seqIdx * maxLen + i) token b.inputIds
  let attentionMask ← setAt .panics (seqIdx * maxLen + i) attended b.attentionMask
  let label ← readAt seq.labels i
  let labels ← setAt .panics (seqIdx * maxLen + i) label b.labels
  .ok ⟨inputIds, attentionMask, labels⟩

def fillRow (maxLen : ℕ) (b : Rows) (row : TokenSequence × ℕ) : Except CollateError Rows :=
  (List.range row.1.len).foldlM (fillToken maxLen row.2 row.1) b

def collate (sequences : List TokenSequence) : Except CollateError PackedBatch := do
  if sequences = [] then .error (.backend "No sequences to collate") else
  let selected := c.select (sorted sequences) [] 0
  if selected = [] then .error (.backend "No sequences fit in batch") else
  let numSeqs := selected.length
  let maxLen := (selected.map fun p => p.1.len).max?.getD 0
  let filled ← ((selected.map Prod.fst).zipIdx).foldlM (fillRow maxLen)
    ⟨List.replicate (numSeqs * maxLen) c.padTokenId, List.replicate (numSeqs * maxLen) 0,
      List.replicate (numSeqs * maxLen) c.padTokenId⟩
  let totalTokens := numSeqs * maxLen
  .ok { inputIds := ⟨[numSeqs, maxLen], filled.inputIds⟩
        -- the row of each token
        positions := ⟨[totalTokens],
          (List.range totalTokens).map fun i : ℕ => f32OfInt (i / maxLen : ℕ)⟩
        attentionMask := ⟨[numSeqs, maxLen], filled.attentionMask⟩
        labels := ⟨[numSeqs, maxLen], filled.labels⟩
        cuSeqlens := selected.map fun p => p.1.len }

structure Packing where
  tokens : List UInt32
  labels : List UInt32
  positions : List UInt32
  cuSeqlens : List ℕ
  seqLens : List ℕ
  currentOffset : ℕ

def pushToken (seq : TokenSequence) (p : Packing) (i : ℕ) : Except CollateError Packing := do
  let token ← readAt seq.tokens i
  let label ← readAt seq.labels i
  .ok { p with
    tokens := p.tokens ++ [token]
    labels := p.labels ++ [label]
    positions := p.positions ++ [f32OfInt i] }

def pack : List TokenSequence → Packing → Except CollateError Packing
  | [], p => .ok p
  | seq :: rest, p =>
    if c.maxSeqLen < p.tokens.length + seq.len then .ok p
    else if c.maxSeqs ≤ p.seqLens.length then .ok p
    else do
      let p ← (List.range seq.len).foldlM (pushToken seq) p
      let currentOffset := p.currentOffset + seq.len
      pack rest { p with
        cuSeqlens := p.cuSeqlens ++ [currentOffset]
        seqLens := p.seqLens ++ [seq.len]
        currentOffset := currentOffset }

def markBlock (totalTokens : ℕ) (s : List UInt32 × ℕ) (len : ℕ) :
    Except CollateError (List UInt32 × ℕ) := do
  let (mask, seqStart) := s
  let mask ← (List.range len).foldlM (fun mask i =>
    (List.range (i + 1)).foldlM (fun mask j =>
      setAt .panics ((seqStart + i) * totalTokens + (seqStart + j)) attended mask) mask) mask
  .ok (mask, seqStart + len)

/-- `dev.from_cpu` -/
def fromCpu (data : List UInt32) (shape : List ℕ) : Except CollateError HostTensor :=
  if data.length = shape.prod then .ok ⟨shape, data⟩
  else .error (.shapeMismatch [shape.prod] [data.length])

def collate1dPacked (sequences : List TokenSequence) : Except CollateError Packed1DBatch := do
  if sequences = [] then .error (.backend "No sequences to collate") else
  let p ← c.pack sequences ⟨[], [], [], [0], [], 0⟩
  if p.tokens = [] then .error (.backend "No sequences fit in 1D packed batch") else
  let totalTokens := p.tokens.length
  let (mask, _) ← p.seqLens.foldlM (markBlock totalTokens)
    (List.replicate (totalTokens * totalTokens) 0, 0)
  let inputIds ← fromCpu p.tokens [1, totalTokens]
  let labels ← fromCpu p.labels [1, totalTokens]
  let positions ← fromCpu p.positions [1, totalTokens]
  let attentionMask ← fromCpu mask [totalTokens, totalTokens]
  .ok ⟨inputIds, positions, attentionMask, labels, p.cuSeqlens, totalTokens⟩

/-- From the front, the entries that fit behind `count` of them with `total` tokens. -/
def fit {α : Type} (len : α → ℕ) : ℕ → ℕ → List α → List α
  | _, _, [] => []
  | total, count, x :: rest =>
    if c.maxSeqs ≤ count ∨ c.maxSeqLen < total + len x then []
    else x :: fit len (total + len x) (count + 1) rest

section Fit

variable {c} {α : Type} {len : α → ℕ}

theorem fit_leading (c : VarLenCollator) (len : α → ℕ) :
    ∀ total count (xs : List α), c.fit len total count xs <+: xs
  | _, _, [] => nil_prefix
  | total, count, x :: xs => by
    rw [fit]
    split_ifs
    · exact nil_prefix
    · exact cons_prefix_cons.2 ⟨rfl, fit_leading c len ..⟩

theorem fit_bounds (c : VarLenCollator) (len : α → ℕ) :
    ∀ {total count : ℕ} (xs : List α), total ≤ c.maxSeqLen → count ≤ c.maxSeqs →
    count + (c.fit len total count xs).length ≤ c.maxSeqs ∧
      total + ((c.fit len total count xs).map len).sum ≤ c.maxSeqLen
  | _, _, [], htotal, hcount => ⟨hcount, htotal⟩
  | total, count, x :: xs, htotal, hcount => by
    rw [fit]
    split_ifs with hstop
    · exact ⟨hcount, htotal⟩
    · have htotal' : total + len x ≤ c.maxSeqLen := by omega
      have hcount' : count + 1 ≤ c.maxSeqs := by omega
      have hrest := fit_bounds c len xs htotal' hcount'
      simp only [length_cons, map_cons, sum_cons]
      omega

theorem select_eq : ∀ (rest selected : List (TokenSequence × ℕ)) (totalLen : ℕ),
    c.select rest selected totalLen =
      selected ++ c.fit (fun p => p.1.len) totalLen selected.length rest
  | [], selected, _ => (append_nil selected).symm
  | (seq, idx) :: rest, selected, totalLen => by
    rw [select, fit]
    by_cases hcount : c.maxSeqs ≤ selected.length
    · rw [if_pos hcount, if_pos (.inl hcount), append_nil]
    · by_cases hlen : c.maxSeqLen < totalLen + seq.len
      · rw [if_neg hcount, if_pos hlen, if_pos (.inr hlen), append_nil]
      · rw [if_neg hcount, if_neg hlen, if_neg (not_or.2 ⟨hcount, hlen⟩), select_eq,
          length_append, append_assoc]
        rfl

end Fit

structure Chosen (sequences : List TokenSequence) (chosen : List (TokenSequence × ℕ)) : Prop where
  count : chosen.length ≤ c.maxSeqs
  total : (chosen.map fun p => p.1.len).sum ≤ c.maxSeqLen
  mem : ∀ p ∈ chosen, sequences[p.2]? = some p.1
  once : (chosen.map Prod.snd).Nodup

theorem chosen_fit {sequences : List TokenSequence} {order : List (TokenSequence × ℕ)}
    (h : order.Perm sequences.zipIdx) :
    c.Chosen sequences (c.fit (fun p => p.1.len) 0 0 order) := by
  obtain ⟨hcount, htotal⟩ := fit_bounds c (fun p : TokenSequence × ℕ => p.1.len)
    order (Nat.zero_le _) (Nat.zero_le _)
  rw [Nat.zero_add] at hcount htotal
  have hsub := (fit_leading c (fun p : TokenSequence × ℕ => p.1.len) 0 0 order).sublist
  refine ⟨hcount, htotal, fun p hp => ?_, ?_⟩
  · exact mem_zipIdx_iff_getElem?.1 (h.subset (hsub.subset hp))
  · have hall : (order.map Prod.snd).Nodup := by
      rw [(h.map Prod.snd).nodup_iff, zipIdx_map_snd]
      exact nodup_range' ..
    exact hall.sublist (hsub.map _)

/-- A row for each sequence, filled up to `maxLen`. -/
def rows (maxLen : ℕ) (pad : UInt32) (row : TokenSequence → List UInt32)
    (chosen : List TokenSequence) : List UInt32 :=
  (chosen.map fun s => row s ++ List.replicate (maxLen - s.len) pad).flatten

/-- `1.0` for each of its tokens. -/
def mask (s : TokenSequence) : List UInt32 := List.replicate s.len attended

theorem readAt_of {xs : List UInt32} {i : ℕ} {x : UInt32} (h : xs[i]? = some x) :
    readAt xs i = .ok x := by
  rw [readAt, h]

section Rows

variable {c} {pad : UInt32} {maxLen idx R : ℕ} {seq : TokenSequence}
  {front₁ front₂ front₃ : List UInt32}

/-- The buffers behind `n` of a sequence's tokens, with room for `R`. -/
def behind (pad : UInt32) (R : ℕ) (seq : TokenSequence) (front₁ front₂ front₃ : List UInt32)
    (n : ℕ) : Rows :=
  ⟨front₁ ++ (seq.tokens.take n ++ List.replicate (R - n) pad),
    front₂ ++ ((mask seq).take n ++ List.replicate (R - n) 0),
    front₃ ++ (seq.labels.take n ++ List.replicate (R - n) pad)⟩

theorem rows_cons (row : TokenSequence → List UInt32) (chosen : List TokenSequence) :
    rows maxLen pad row (seq :: chosen) =
      (row seq ++ List.replicate (maxLen - seq.len) pad) ++ rows maxLen pad row chosen := by
  rw [rows, map_cons, flatten_cons]
  rfl

theorem fillToken_ok (hlabels : seq.labels.length = seq.len) (hR : seq.len ≤ R)
    (h₁ : front₁.length = idx * maxLen) (h₂ : front₂.length = idx * maxLen)
    (h₃ : front₃.length = idx * maxLen) {n : ℕ} (hn : n < seq.len) :
    fillToken maxLen idx seq (behind pad R seq front₁ front₂ front₃ n) n =
      .ok (behind pad R seq front₁ front₂ front₃ (n + 1)) := by
  have htoken : seq.tokens[n]? = some seq.tokens[n] := getElem?_eq_getElem hn
  have hn₁ : n < seq.labels.length := hlabels ▸ hn
  have hlabel : seq.labels[n]? = some seq.labels[n] := getElem?_eq_getElem hn₁
  have hmask : (mask seq)[n]? = some attended := by
    rw [mask, getElem?_replicate, if_pos hn]
  have hroom := hn.trans_le hR
  simp only [fillToken, behind, readAt_of htoken, readAt_of hlabel, bind, Except.bind]
  rw [← h₁, setAt_run htoken hroom, h₁, ← h₂]
  simp only [setAt_run hmask hroom]
  rw [h₂, ← h₃, setAt_run hlabel hroom]

theorem fillRow_ok (hlabels : seq.labels.length = seq.len) (hR : seq.len ≤ R)
    (h₁ : front₁.length = idx * maxLen) (h₂ : front₂.length = idx * maxLen)
    (h₃ : front₃.length = idx * maxLen) :
    fillRow maxLen ⟨front₁ ++ List.replicate R pad, front₂ ++ List.replicate R 0,
        front₃ ++ List.replicate R pad⟩ (seq, idx) =
      .ok (behind pad R seq front₁ front₂ front₃ seq.len) := by
  have hrun : ∀ n ≤ seq.len, (List.range n).foldlM (fillToken maxLen idx seq)
      (behind pad R seq front₁ front₂ front₃ 0) =
        .ok (behind pad R seq front₁ front₂ front₃ n) := by
    intro n hn
    induction n with
    | zero => rfl
    | succ n ih =>
      rw [range_succ, foldlM_append, ih (Nat.le_of_succ_le hn)]
      simp only [bind, Except.bind, foldlM_cons, foldlM_nil,
        fillToken_ok hlabels hR h₁ h₂ h₃ hn]
      rfl
  exact hrun seq.len le_rfl

theorem fillRows_ok (pad : UInt32) : ∀ {chosen : List TokenSequence} (idx : ℕ)
    {front₁ front₂ front₃ : List UInt32}, (∀ seq ∈ chosen, seq.labels.length = seq.len) →
    (∀ seq ∈ chosen, seq.len ≤ maxLen) → front₁.length = idx * maxLen →
    front₂.length = idx * maxLen → front₃.length = idx * maxLen →
    (chosen.zipIdx idx).foldlM (fillRow maxLen)
      ⟨front₁ ++ List.replicate (chosen.length * maxLen) pad,
        front₂ ++ List.replicate (chosen.length * maxLen) 0,
        front₃ ++ List.replicate (chosen.length * maxLen) pad⟩ =
      .ok ⟨front₁ ++ rows maxLen pad (·.tokens) chosen, front₂ ++ rows maxLen 0 mask chosen,
        front₃ ++ rows maxLen pad (·.labels) chosen⟩
  | [], idx, front₁, front₂, front₃, _, _, _, _, _ => by
    simp only [length_nil, Nat.zero_mul, replicate_zero, rows, map_nil,
      flatten_nil]
    rfl
  | seq :: chosen, idx, front₁, front₂, front₃, hlabels, hlens, h₁, h₂, h₃ => by
    have hlabel := hlabels seq mem_cons_self
    have hlen := hlens seq mem_cons_self
    have hroom : (chosen.length + 1) * maxLen - seq.len =
        (maxLen - seq.len) + chosen.length * maxLen := by
      rw [Nat.add_mul, Nat.one_mul]
      omega
    have hrow : seq.len ≤ (chosen.length + 1) * maxLen := by
      rw [Nat.add_mul, Nat.one_mul]
      omega
    have hfront : ∀ {front row : List UInt32} (x : UInt32), front.length = idx * maxLen →
        row.length = seq.len →
          (front ++ (row ++ List.replicate (maxLen - seq.len) x)).length = (idx + 1) * maxLen := by
      intro front row x hf hr
      simp only [length_append, length_replicate, hf, hr, Nat.add_mul]
      omega
    have hmask : (mask seq).length = seq.len := length_replicate
    have hrest := fillRows_ok pad (idx + 1)
      (fun s hs => hlabels s (mem_cons_of_mem _ hs))
      (fun s hs => hlens s (mem_cons_of_mem _ hs))
      (hfront pad h₁ rfl) (hfront 0 h₂ hmask) (hfront pad h₃ hlabel)
    rw [zipIdx_cons, foldlM_cons, length_cons,
      fillRow_ok hlabel hrow h₁ h₂ h₃]
    simp only [behind, hroom, replicate_add, bind, Except.bind, rows_cons]
    have htokens : seq.tokens.take seq.len = seq.tokens := take_length
    rw [htokens, take_of_length_le hmask.le, take_of_length_le hlabel.le]
    simp only [append_assoc] at hrest ⊢
    exact hrest

end Rows

def offsets (chosen : List TokenSequence) : List ℕ := (chosen.map TokenSequence.len).scanl (· + ·) 0

@[simp] theorem length_offsets (chosen : List TokenSequence) :
    (offsets chosen).length = chosen.length + 1 := by
  rw [offsets, length_scanl, length_map]

structure Placed (sequences : List TokenSequence) (b : PackedBatch)
    (chosen : List (TokenSequence × ℕ)) (maxLen : ℕ) : Prop where
  choice : c.Chosen sequences chosen
  lens : ∀ p ∈ chosen, p.1.len ≤ maxLen
  inputIds : b.inputIds = ⟨[chosen.length, maxLen],
    rows maxLen c.padTokenId (·.tokens) (chosen.map Prod.fst)⟩
  attentionMask : b.attentionMask = ⟨[chosen.length, maxLen],
    rows maxLen 0 mask (chosen.map Prod.fst)⟩
  labels : b.labels = ⟨[chosen.length, maxLen],
    rows maxLen c.padTokenId (·.labels) (chosen.map Prod.fst)⟩

/-- And a token's position is its place in its sequence, and the boundaries are those of the chosen
sequences. -/
structure FaithfulRows (sequences : List TokenSequence) (b : PackedBatch)
    (chosen : List (TokenSequence × ℕ)) (maxLen : ℕ) : Prop
    extends c.Placed sequences b chosen maxLen where
  positions : ∀ r p i, chosen[r]? = some p → i < p.1.len →
    b.positions.data[r * maxLen + i]?.bind f32Value = some (i : ℚ)
  cuSeqlens : b.cuSeqlens = offsets (chosen.map Prod.fst)

/-- No batch of rows: there is no sequence, none is allowed, or the longest is too long. -/
def NoRows (sequences : List TokenSequence) : Prop :=
  sequences = [] ∨ c.maxSeqs = 0 ∨ ∃ seq ∈ sequences, c.maxSeqLen < seq.len

section FaithfulRows

variable {c} {sequences : List TokenSequence}

theorem sorted_perm (sequences : List TokenSequence) :
    (sorted sequences).Perm sequences.zipIdx := mergeSort_perm _ _

theorem longest_first {p : TokenSequence × ℕ} {rest : List (TokenSequence × ℕ)}
    (h : sorted sequences = p :: rest) :
    p.1 ∈ sequences ∧ ∀ seq ∈ sequences, seq.len ≤ p.1.len := by
  have hpairwise : (sorted sequences).Pairwise fun a b => decide (b.1.len ≤ a.1.len) :=
    pairwise_mergeSort (fun x y z hxy hyz => by simp only [decide_eq_true_eq] at *; omega)
    (fun x y => by simp only [Bool.or_eq_true, decide_eq_true_eq]; omega) sequences.zipIdx
  have hmem : ∀ q, q ∈ sorted sequences ↔ q ∈ sequences.zipIdx :=
    fun q => (sorted_perm sequences).mem_iff
  rw [h] at hmem hpairwise
  refine ⟨fst_mem_of_mem_zipIdx ((hmem p).1 mem_cons_self), fun seq hseq => ?_⟩
  obtain ⟨i, hi, rfl⟩ := getElem_of_mem hseq
  have hq : (sequences[i], i) ∈ p :: rest :=
    (hmem _).2 (mem_zipIdx_iff_getElem?.2 (getElem?_eq_getElem hi))
  rcases mem_cons.1 hq with rfl | hq
  · exact le_rfl
  · exact of_decide_eq_true (rel_of_pairwise_cons hpairwise hq)

theorem fit_sorted_eq_nil :
    c.fit (fun p => p.1.len) 0 0 (sorted sequences) = [] ↔ c.NoRows sequences := by
  cases hsorted : sorted sequences with
  | nil =>
    have hnil : sequences = [] := by
      have hlen := (sorted_perm sequences).length_eq
      rw [hsorted, length_zipIdx] at hlen
      exact length_eq_zero_iff.1 hlen.symm
    exact iff_of_true rfl (.inl hnil)
  | cons p rest =>
    obtain ⟨hmem, hlongest⟩ := longest_first hsorted
    rw [fit, Nat.zero_add, NoRows]
    split_ifs with hstop
    · exact iff_of_true rfl (.inr (hstop.imp Nat.le_zero.1 fun h => ⟨p.1, hmem, h⟩))
    · refine iff_of_false id ?_
      rintro (rfl | hmax | ⟨seq, hseq, hlong⟩)
      · exact absurd hmem not_mem_nil
      · exact hstop (.inl hmax.le)
      · exact hstop (.inr (hlong.trans_le (hlongest seq hseq)))

/-- The sequences that `collate` selects. -/
def selection (c : VarLenCollator) (sequences : List TokenSequence) : List (TokenSequence × ℕ) :=
  c.fit (fun p => p.1.len) 0 0 (sorted sequences)

theorem select_sorted (c : VarLenCollator) (sequences : List TokenSequence) :
    c.select (sorted sequences) [] 0 = c.selection sequences := select_eq ..

theorem collate_of_noRows (h : c.NoRows sequences) (b : PackedBatch) :
    c.collate sequences ≠ .ok b := by
  have hnone : c.selection sequences = [] := fit_sorted_eq_nil.2 h
  rw [collate, select_sorted]
  by_cases hnil : sequences = []
  · rw [if_pos hnil]
    exact nofun
  · simp only [if_neg hnil, if_pos hnone]
    exact nofun

theorem collate_of_rows (hlabels : ∀ seq ∈ sequences, seq.labels.length = seq.len)
    (h : ¬c.NoRows sequences) : ∃ b maxLen, c.collate sequences = .ok b ∧
      c.Placed sequences b (c.selection sequences) maxLen ∧
      b.cuSeqlens = (c.selection sequences).map fun p => p.1.len := by
  have hnil : sequences ≠ [] := fun hnil => h (.inl hnil)
  have hnone : c.selection sequences ≠ [] := fun hnone => h (fit_sorted_eq_nil.1 hnone)
  have hchosen : c.Chosen sequences (c.selection sequences) :=
    chosen_fit c (sorted_perm sequences)
  have hmem : ∀ seq ∈ (c.selection sequences).map Prod.fst, seq ∈ sequences := by
    intro seq hseq
    obtain ⟨p, hp, rfl⟩ := mem_map.1 hseq
    exact mem_of_getElem? (hchosen.mem p hp)
  have hlens : ∀ p ∈ c.selection sequences,
      p.1.len ≤ ((c.selection sequences).map fun p => p.1.len).max?.getD 0 :=
    fun p hp => le_max?_getD_of_mem (mem_map.2 ⟨p, hp, rfl⟩)
  have hlong : ∀ seq ∈ (c.selection sequences).map Prod.fst,
      seq.len ≤ ((c.selection sequences).map fun p => p.1.len).max?.getD 0 := by
    intro seq hseq
    obtain ⟨p, hp, rfl⟩ := mem_map.1 hseq
    exact hlens p hp
  have hnone' : ([] : List UInt32).length =
      0 * ((c.selection sequences).map fun p => p.1.len).max?.getD 0 := (Nat.zero_mul _).symm
  have hfill := fillRows_ok c.padTokenId 0 (fun seq hseq => hlabels seq (hmem seq hseq)) hlong
    hnone' hnone' hnone'
  simp only [length_map, nil_append] at hfill
  rw [collate, if_neg hnil, select_sorted]
  simp only [if_neg hnone, hfill, bind, Except.bind]
  exact ⟨_, _, rfl, ⟨hchosen, hlens, rfl, rfl, rfl⟩, rfl⟩

end FaithfulRows

def positions (s : TokenSequence) : List UInt32 := (List.range s.len).map fun i : ℕ => f32OfInt i

/-- What has been packed of the sequences `done`. -/
def packing (done : List TokenSequence) : Packing where
  tokens := (done.map (·.tokens)).flatten
  labels := (done.map (·.labels)).flatten
  positions := (done.map positions).flatten
  cuSeqlens := offsets done
  seqLens := done.map TokenSequence.len
  currentOffset := (done.map TokenSequence.len).sum

section Packing

variable {c} {seq : TokenSequence}

theorem length_tokens (done : List TokenSequence) :
    (packing done).tokens.length = (done.map TokenSequence.len).sum := by
  rw [packing, length_flatten, map_map]
  rfl

theorem pushTokens_ok (hlabels : seq.labels.length = seq.len) (p : Packing) :
    (List.range seq.len).foldlM (pushToken seq) p = .ok { p with
      tokens := p.tokens ++ seq.tokens
      labels := p.labels ++ seq.labels
      positions := p.positions ++ positions seq } := by
  have hrun : ∀ n ≤ seq.len, (List.range n).foldlM (pushToken seq) p = .ok { p with
      tokens := p.tokens ++ seq.tokens.take n
      labels := p.labels ++ seq.labels.take n
      positions := p.positions ++ (List.range n).map fun i : ℕ => f32OfInt i } := by
    intro n hn
    induction n with
    | zero =>
      simp only [range_zero, take_zero, map_nil, append_nil]
      rfl
    | succ n ih =>
      have htoken : seq.tokens[n]? = some seq.tokens[n] := getElem?_eq_getElem hn
      have hn₁ : n < seq.labels.length := hlabels ▸ hn
      have hlabel : seq.labels[n]? = some seq.labels[n] := getElem?_eq_getElem hn₁
      rw [range_succ, foldlM_append, ih (Nat.le_of_succ_le hn)]
      simp only [bind, Except.bind, foldlM_cons, foldlM_nil, pushToken,
        readAt_of htoken, readAt_of hlabel, append_assoc, map_append, map_cons,
        map_nil, take_succ_eq_append_getElem (Nat.lt_of_succ_le hn),
        take_succ_eq_append_getElem (l := seq.labels) (hlabels ▸ Nat.lt_of_succ_le hn)]
      rfl
  have htokens : seq.tokens.take seq.len = seq.tokens := take_length
  have hall := hrun seq.len le_rfl
  rwa [htokens, take_of_length_le hlabels.le] at hall

theorem offsets_concat (done : List TokenSequence) (seq : TokenSequence) :
    offsets (done ++ [seq]) = offsets done ++ [(done.map TokenSequence.len).sum + seq.len] := by
  rw [offsets, map_append, scanl_append, map_singleton, scanl_cons,
    scanl_nil, tail_cons, ← sum_eq_foldl_nat]
  rfl

theorem pack_ok : ∀ {rest : List TokenSequence} (done : List TokenSequence),
    (∀ seq ∈ rest, seq.labels.length = seq.len) → c.pack rest (packing done) =
      .ok (packing (done ++ c.fit TokenSequence.len (done.map TokenSequence.len).sum done.length
        rest))
  | [], done, _ => by rw [pack, fit, append_nil]
  | seq :: rest, done, hlabels => by
    have hlabel := hlabels seq mem_cons_self
    have hlens : (packing done).seqLens.length = done.length := length_map _
    rw [pack, fit, length_tokens, hlens]
    by_cases hlen : c.maxSeqLen < (done.map TokenSequence.len).sum + seq.len
    · rw [if_pos hlen, if_pos (.inr hlen), append_nil]
    · by_cases hcount : c.maxSeqs ≤ done.length
      · rw [if_neg hlen, if_pos hcount, if_pos (.inl hcount), append_nil]
      · have hrest := pack_ok (done ++ [seq])
          fun s (hs : s ∈ rest) => hlabels s (mem_cons_of_mem _ hs)
        have hnext : packing (done ++ [seq]) = ⟨(packing done).tokens ++ seq.tokens,
            (packing done).labels ++ seq.labels, (packing done).positions ++ positions seq,
            (packing done).cuSeqlens ++ [(packing done).currentOffset + seq.len],
            (packing done).seqLens ++ [seq.len], (packing done).currentOffset + seq.len⟩ := by
          simp only [packing, map_append, flatten_append, offsets_concat, sum_append]
          simp
        rw [if_neg hlen, if_neg hcount, if_neg (not_or.2 ⟨hcount, hlen⟩), pushTokens_ok hlabel]
        simp only [bind, Except.bind, ← hnext, hrest]
        simp

end Packing

/-- The entries between two neighbouring boundaries, on and below the diagonal. -/
def InBlock (bounds : List ℕ) (i j : ℕ) : Prop :=
  ∃ k lo hi, bounds[k]? = some lo ∧ bounds[k + 1]? = some hi ∧ lo ≤ j ∧ j ≤ i ∧ i < hi

theorem inBlock_cons (lo hi : ℕ) (bounds : List ℕ) (i j : ℕ) :
    InBlock (lo :: hi :: bounds) i j ↔ (lo ≤ j ∧ j ≤ i ∧ i < hi) ∨ InBlock (hi :: bounds) i j := by
  constructor
  · rintro ⟨_ | k, lo', hi', hlo, hhi, hij⟩
    · obtain rfl := Option.some.inj hlo
      obtain rfl := Option.some.inj hhi
      exact .inl hij
    · exact .inr ⟨k, lo', hi', hlo, hhi, hij⟩
  · rintro (hij | ⟨k, lo', hi', hlo, hhi, hij⟩)
    · exact ⟨0, lo, hi, rfl, rfl, hij⟩
    · exact ⟨k + 1, lo', hi', hlo, hhi, hij⟩

theorem scanl_head (start : ℕ) (lens : List ℕ) :
    ∃ bounds, lens.scanl (· + ·) start = start :: bounds := by
  cases lens with
  | nil => exact ⟨[], rfl⟩
  | cons len lens => exact ⟨_, scanl_cons⟩

theorem marks_block {N seqStart len : ℕ} (hfits : seqStart + len ≤ N) :
    Marks N attended 0 (fun i j => seqStart ≤ j ∧ j ≤ i ∧ i < seqStart + len) fun buf =>
      (List.range len).foldlM (fun mask i => (List.range (i + 1)).foldlM (fun mask j =>
        setAt CollateError.panics ((seqStart + i) * N + (seqStart + j)) attended mask) mask)
        buf := by
  have hloops : Marks N attended 0
      (fun i j => ∃ k < len, ∃ l < k + 1, i = seqStart + k ∧ j = seqStart + l) fun buf =>
      (List.range len).foldlM (fun mask i => (List.range (i + 1)).foldlM (fun mask j =>
        setAt CollateError.panics ((seqStart + i) * N + (seqStart + j)) attended mask) mask) buf :=
    Marks.loop fun k hk => Marks.loop fun l hl S buf hbuf => hbuf.set (by omega) (by omega)
  intro S buf hbuf
  obtain ⟨buf', hrun, hbuf'⟩ := hloops S buf hbuf
  refine ⟨buf', hrun, hbuf'.congr fun i j _ _ => or_congr_right ⟨?_, fun ⟨hj, hji, hi⟩ => ?_⟩⟩
  · rintro ⟨k, hk, l, hl, rfl, rfl⟩
    omega
  · exact ⟨i - seqStart, by omega, j - seqStart, by omega, by omega, by omega⟩

theorem markBlocks_ok {N : ℕ} : ∀ {lens : List ℕ} {seqStart : ℕ} {S : ℕ → ℕ → Prop}
    {mask : List UInt32}, seqStart + lens.sum ≤ N → Marked N attended 0 S mask →
      ∃ mask', lens.foldlM (markBlock N) (mask, seqStart) = .ok (mask', seqStart + lens.sum) ∧
        Marked N attended 0 (fun i j => S i j ∨ InBlock (lens.scanl (· + ·) seqStart) i j) mask'
  | [], seqStart, S, mask, _, h => by
    refine ⟨mask, rfl, h.congr fun i j _ _ => ⟨.inl, fun hor => hor.resolve_right ?_⟩⟩
    rintro ⟨k, lo, hi, -, hhi, -⟩
    simp at hhi
  | len :: lens, seqStart, S, mask, hfits, h => by
    rw [sum_cons, ← Nat.add_assoc] at hfits
    have hblockFits : seqStart + len ≤ N := by omega
    obtain ⟨mid, hblock, hmid⟩ := marks_block hblockFits S mask h
    obtain ⟨mask', hrun, hmask'⟩ := markBlocks_ok hfits hmid
    obtain ⟨bounds, hbounds⟩ := scanl_head (seqStart + len) lens
    refine ⟨mask', ?_, hmask'.congr fun i j _ _ => ?_⟩
    · rw [foldlM_cons, markBlock]
      simp only at hblock
      simp only [hblock, bind, Except.bind, hrun, sum_cons, Nat.add_assoc]
    · rw [scanl_cons, hbounds, inBlock_cons, or_assoc]

/-- The batch has the chosen sequences one behind the other, and each token attends to those before
it in its sequence. -/
structure FaithfulPacked (sequences : List TokenSequence) (b : Packed1DBatch)
    (chosen : List (TokenSequence × ℕ)) : Prop where
  choice : c.Chosen sequences chosen
  inputIds : b.inputIds = ⟨[1, b.totalTokens], (chosen.map fun p => p.1.tokens).flatten⟩
  labels : b.labels = ⟨[1, b.totalTokens], (chosen.map fun p => p.1.labels).flatten⟩
  positions : b.positions.shape = [1, b.totalTokens] ∧ b.positions.data.map f32Value =
    (chosen.map fun p => (List.range p.1.len).map fun i : ℕ => some (i : ℚ)).flatten
  attentionMask : b.attentionMask.shape = [b.totalTokens, b.totalTokens] ∧
    Marked b.totalTokens attended 0 (InBlock b.cuSeqlens) b.attentionMask.data
  cuSeqlens : b.cuSeqlens = offsets (chosen.map Prod.fst)
  totalTokens : b.totalTokens = (chosen.map fun p => p.1.len).sum

def packed (sequences : List TokenSequence) : List TokenSequence :=
  c.fit TokenSequence.len 0 0 sequences

section FaithfulPacked

variable {c} {sequences : List TokenSequence}

theorem fit_zipIdx : ∀ (total count start : ℕ) (sequences : List TokenSequence),
    (c.fit (fun p : TokenSequence × ℕ => p.1.len) total count (sequences.zipIdx start)).map
      Prod.fst = c.fit TokenSequence.len total count sequences
  | _, _, _, [] => rfl
  | total, count, start, seq :: sequences => by
    rw [zipIdx_cons, fit, fit]
    split_ifs
    · rfl
    · rw [map_cons, fit_zipIdx]

theorem fromCpu_of {data : List UInt32} {shape : List ℕ} (h : data.length = shape.prod) :
    fromCpu data shape = .ok ⟨shape, data⟩ := if_pos h

theorem length_flatten_of {row : TokenSequence → List UInt32} {done : List TokenSequence}
    (h : ∀ seq ∈ done, (row seq).length = seq.len) :
    (done.map row).flatten.length = (done.map TokenSequence.len).sum := by
  rw [length_flatten, map_map]
  exact congrArg List.sum (map_congr_left h)

def batch (done : List TokenSequence) (mask : List UInt32) : Packed1DBatch :=
  let p := packing done
  let total := (done.map TokenSequence.len).sum
  ⟨⟨[1, total], p.tokens⟩, ⟨[1, total], p.positions⟩, ⟨[total, total], mask⟩,
    ⟨[1, total], p.labels⟩, p.cuSeqlens, total⟩

theorem collate1dPacked_ok (hlabels : ∀ seq ∈ sequences, seq.labels.length = seq.len) :
    (∃ e, c.collate1dPacked sequences = .error e ∧ ∀ seq ∈ c.packed sequences, seq.len = 0) ∨
      ∃ mask, c.collate1dPacked sequences = .ok (batch (c.packed sequences) mask) ∧
        Marked ((c.packed sequences).map TokenSequence.len).sum attended 0
          (InBlock (offsets (c.packed sequences))) mask := by
  by_cases hnil : sequences = []
  · refine .inl ⟨.backend "No sequences to collate", ?_, fun seq hseq => ?_⟩
    · rw [collate1dPacked, if_pos hnil]
    · rw [packed, hnil, fit] at hseq
      exact absurd hseq not_mem_nil
  have hpack : c.pack sequences ⟨[], [], [], [0], [], 0⟩ = .ok (packing (c.packed sequences)) :=
    pack_ok [] hlabels
  have hlength := length_tokens (c.packed sequences)
  have hfit : ∀ seq ∈ c.packed sequences, seq.labels.length = seq.len :=
    fun seq hseq => hlabels seq ((fit_leading c _ 0 0 sequences).subset hseq)
  by_cases hnone : (packing (c.packed sequences)).tokens = []
  · refine .inl ⟨.backend "No sequences fit in 1D packed batch", ?_, fun seq hseq => ?_⟩
    · rw [collate1dPacked, if_neg hnil, hpack]
      simp only [bind, Except.bind, if_pos hnone]
    · rw [hnone, length_nil] at hlength
      exact List.sum_eq_zero_iff_forall_eq_nat.1 hlength.symm _ (mem_map_of_mem hseq)
  · obtain ⟨mask, hrun, hmask⟩ := markBlocks_ok (Nat.zero_add _).le
      (marked_replicate ((c.packed sequences).map TokenSequence.len).sum attended 0)
    have htokens : (packing (c.packed sequences)).tokens.length =
        [1, ((c.packed sequences).map TokenSequence.len).sum].prod := by
      rw [hlength, prod_pair, Nat.one_mul]
    have hlabel : (packing (c.packed sequences)).labels.length =
        [1, ((c.packed sequences).map TokenSequence.len).sum].prod := by
      rw [prod_pair, Nat.one_mul]
      exact length_flatten_of hfit
    have hpositions : (packing (c.packed sequences)).positions.length =
        [1, ((c.packed sequences).map TokenSequence.len).sum].prod := by
      rw [prod_pair, Nat.one_mul]
      exact length_flatten_of fun seq _ => by rw [positions, length_map, length_range]
    have hsquare : mask.length = [((c.packed sequences).map TokenSequence.len).sum,
        ((c.packed sequences).map TokenSequence.len).sum].prod := by
      rw [prod_pair, hmask.length]
    refine .inr ⟨mask, ?_, hmask.congr fun i j _ _ => ⟨fun h => h.resolve_left id, .inr⟩⟩
    have hlens : (packing (c.packed sequences)).seqLens =
        (c.packed sequences).map TokenSequence.len := rfl
    rw [collate1dPacked, if_neg hnil, hpack]
    simp only [bind, Except.bind, if_neg hnone, hlength, hlens, hrun, fromCpu_of htokens,
      fromCpu_of hlabel, fromCpu_of hpositions, fromCpu_of hsquare]
    rfl

theorem positions_iff (done : List TokenSequence) :
    (packing done).positions.map f32Value = ((done.map TokenSequence.len).map fun n =>
        (List.range n).map fun i : ℕ => some (i : ℚ)).flatten ↔
      ∀ seq ∈ done, seq.len ≤ 2 ^ 24 + 1 := by
  induction done with
  | nil => exact iff_of_true rfl fun _ h => absurd h not_mem_nil
  | cons seq done ih =>
    have hfirst : (positions seq).map f32Value =
        (List.range seq.len).map (fun i : ℕ => some (i : ℚ)) ↔ seq.len ≤ 2 ^ 24 + 1 := by
      rw [positions, map_map, map_inj_left]
      constructor
      · intro h
        by_contra hlong
        exact f32Value_f32OfInt_ne (h (2 ^ 24 + 1) (mem_range.2 (not_le.1 hlong)))
      · intro h i hi
        exact f32Value_f32OfInt_of_le (by have := mem_range.1 hi; omega)
    have hlength : ((positions seq).map f32Value).length =
        ((List.range seq.len).map fun i : ℕ => some (i : ℚ)).length := by simp [positions]
    rw [forall_mem_cons, ← hfirst, ← ih]
    simp only [packing, map_cons, flatten_cons, map_append]
    exact ⟨fun h => append_inj h hlength, fun ⟨h, h'⟩ => by rw [h, h']⟩

theorem scanl_add_injective : ∀ {start : ℕ} {lens lens' : List ℕ},
    lens.scanl (· + ·) start = lens'.scanl (· + ·) start → lens = lens'
  | _, [], [], _ => rfl
  | start, [], n :: lens, h | start, n :: lens, [], h => by
    have hlength := congrArg List.length h
    simp at hlength
  | start, n :: lens, n' :: lens', h => by
    rw [scanl_cons, scanl_cons] at h
    have htail := (List.cons.inj h).2
    obtain ⟨bounds, hbounds⟩ := scanl_head (start + n) lens
    obtain ⟨bounds', hbounds'⟩ := scanl_head (start + n') lens'
    have hhead : start + n = start + n' := by
      rw [hbounds, hbounds'] at htail
      exact (List.cons.inj htail).1
    obtain rfl := Nat.add_left_cancel hhead
    rw [scanl_add_injective htail]

theorem faithfulPacked_iff {mask : List UInt32}
    (hmask : Marked ((c.packed sequences).map TokenSequence.len).sum attended 0
      (InBlock (offsets (c.packed sequences))) mask) :
    (∃ chosen, c.FaithfulPacked sequences (batch (c.packed sequences) mask) chosen) ↔
      ∀ seq ∈ c.packed sequences, seq.len ≤ 2 ^ 24 + 1 := by
  rw [← positions_iff]
  constructor
  · rintro ⟨chosen, h⟩
    have hlens := scanl_add_injective h.cuSeqlens
    have hpositions := h.positions.2
    rw [hlens, map_map, map_map]
    exact hpositions
  · intro h
    have hfst : (c.fit (fun p : TokenSequence × ℕ => p.1.len) 0 0 sequences.zipIdx).map Prod.fst =
        c.packed sequences := fit_zipIdx 0 0 0 sequences
    have hmap : ∀ {β : Type} (f : TokenSequence → β),
        (c.fit (fun p : TokenSequence × ℕ => p.1.len) 0 0 sequences.zipIdx).map (fun p => f p.1) =
          (c.packed sequences).map f := fun f => by rw [← hfst, map_map]; rfl
    refine ⟨c.fit (fun p => p.1.len) 0 0 sequences.zipIdx, chosen_fit c (List.Perm.refl _),
      ?_, ?_, ⟨rfl, ?_⟩, ⟨rfl, hmask⟩, ?_, ?_⟩
    · rw [hmap TokenSequence.tokens]
      rfl
    · rw [hmap TokenSequence.labels]
      rfl
    · rw [hmap fun s => (List.range s.len).map fun i : ℕ => some (i : ℚ)]
      rw [map_map] at h
      exact h
    · rw [hfst]
      rfl
    · rw [hmap TokenSequence.len]
      rfl

end FaithfulPacked

def Faithful (sequences : List TokenSequence) : Prop :=
  (∀ b, c.collate sequences = .ok b → ∃ chosen maxLen, c.FaithfulRows sequences b chosen maxLen) ∧
    ∀ b, c.collate1dPacked sequences = .ok b → ∃ chosen, c.FaithfulPacked sequences b chosen

theorem rows_not_faithful {sequences : List TokenSequence} {b : PackedBatch}
    {chosen chosen' : List (TokenSequence × ℕ)} {maxLen maxLen' : ℕ}
    (h : c.Placed sequences b chosen maxLen) (hlens : b.cuSeqlens = chosen.map fun p => p.1.len)
    (h' : c.FaithfulRows sequences b chosen' maxLen') : False := by
  have hrows : chosen.length = chosen'.length := by
    have hshape := congrArg HostTensor.shape (h.inputIds.symm.trans h'.inputIds)
    exact (List.cons.inj hshape).1
  have hbounds := congrArg List.length (hlens.symm.trans h'.cuSeqlens)
  rw [length_map, length_offsets, length_map, hrows] at hbounds
  omega

/-- The collators are faithful exactly where there is no batch of rows, and no packed sequence is
longer than `2^24 + 1`. -/
theorem faithful_iff {sequences : List TokenSequence}
    (hlabels : ∀ seq ∈ sequences, seq.labels.length = seq.len) :
    c.Faithful sequences ↔
      c.NoRows sequences ∧ ∀ seq ∈ c.packed sequences, seq.len ≤ 2 ^ 24 + 1 := by
  refine and_congr ⟨fun h => ?_, fun h b hb => absurd hb (collate_of_noRows h b)⟩ ?_
  · by_contra hrows
    obtain ⟨b, maxLen, hb, hplaced, hlens⟩ := collate_of_rows hlabels hrows
    obtain ⟨chosen, maxLen', hfaithful⟩ := h b hb
    exact c.rows_not_faithful hplaced hlens hfaithful
  · rcases collate1dPacked_ok (c := c) hlabels with ⟨e, he, hempty⟩ | ⟨mask, hok, hmask⟩
    · refine iff_of_true (fun b hb => ?_) fun seq hseq => ?_
      · rw [he] at hb
        exact absurd hb nofun
      · rw [hempty seq hseq]
        exact Nat.zero_le _
    · rw [← faithfulPacked_iff hmask]
      refine ⟨fun h => h _ hok, fun h b hb => ?_⟩
      rw [hok] at hb
      obtain rfl := Except.ok.inj hb
      exact h

/-- Two sequences are packed, and the third is too long. -/
theorem faithful_iff_packed : (⟨4, 8, 0⟩ : VarLenCollator).Faithful
    [⟨[1, 2], [1, 2]⟩, ⟨[3], [3]⟩, ⟨[4, 5, 6, 7, 8], [4, 5, 6, 7, 8]⟩] :=
  (faithful_iff _ (by decide)).2
    ⟨.inr (.inr ⟨⟨[4, 5, 6, 7, 8], [4, 5, 6, 7, 8]⟩, by decide, by decide⟩), by decide⟩

/-- The boundaries of these rows are the three lengths `4`, `3` and `2`. -/
theorem boundaries_are_lengths : ¬(⟨64, 8, 0⟩ : VarLenCollator).Faithful
    [⟨[1, 2, 3], [1, 2, 3]⟩, ⟨[4, 5], [4, 5]⟩, ⟨[6, 7, 8, 9], [6, 7, 8, 9]⟩] := by
  intro h
  have hrows : ¬(⟨64, 8, 0⟩ : VarLenCollator).NoRows
      [⟨[1, 2, 3], [1, 2, 3]⟩, ⟨[4, 5], [4, 5]⟩, ⟨[6, 7, 8, 9], [6, 7, 8, 9]⟩] := by
    simp [NoRows, TokenSequence.len]
  obtain ⟨b, maxLen, hb, hplaced, hlens⟩ := collate_of_rows (by decide) hrows
  obtain ⟨chosen, maxLen', hfaithful⟩ := h.1 b hb
  exact rows_not_faithful _ hplaced hlens hfaithful

end VarLenCollator

end Grim.Autograd
