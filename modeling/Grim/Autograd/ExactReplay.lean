import Grim.Autograd.Replay
import Grim.Lib.FlatMatrix

/-!
# Replay with exact arithmetic

The operations that replay computes on the flat numbers of its operands, with the numbers of a field
and `num factor` the number of an `f32`.  An entry of a matrix product, a sum, a scaling, a LoRA
application or an embedding is replayed to its value (`IsValue`) exactly if its metadata is
`Replayable`.
-/

namespace Grim.Autograd

open FlatMatrix List

structure ExactTensor (K : Type) where
  shape : List ℕ
  data : List K
  fits : data.length = shape.prod

namespace ExactTensor

variable {K : Type}

/-- `cpu_f32(data, shape)` -/
def cpu (data : List K) (shape : List ℕ) : Except TapeError (ExactTensor K) :=
  if h : data.length = shape.prod then .ok ⟨shape, data, h⟩
  -- asserted there, which panics
  else .error .outOfBounds

/-- `v[i]` -/
def index (v : List K) (i : ℕ) : Except TapeError K :=
  match v[i]? with
  | some x => .ok x
  | none => .error .outOfBounds

variable [Field K] [DecidableEq K] (num : UInt32 → K)

def matMul (transposeA transposeB : Bool) (m k n : ℕ) (a b : ExactTensor K) :
    Except TapeError (ExactTensor K) :=
  let ar := if transposeA then k else m
  let ac := if transposeA then m else k
  let br := if transposeB then n else k
  let bc := if transposeB then k else n
  if a.data.length ≠ ar * ac ∨ b.data.length ≠ br * bc ∨ ac ≠ br then
    .error (.backend ("replay matmul: operands " ++ toString ar ++ "x" ++ toString ac ++ " ("
      ++ toString a.data.length ++ " els) and " ++ toString br ++ "x" ++ toString bc ++ " ("
      ++ toString b.data.length ++ " els) disagree with m=" ++ toString m ++ " k=" ++ toString k
      ++ " n=" ++ toString n))
  else do
    let out ← addProduct .outOfBounds
      (fun i l => index a.data (if transposeA then l * m + i else i * k + l))
      (fun l j => index b.data (if transposeB then j * k + l else l * n + j))
      m k n (List.replicate (m * n) 0)
    cpu out [m, n]

def add (lhs rhs : ExactTensor K) : Except TapeError (ExactTensor K) :=
  let n := lhs.shape.prod
  if rhs.data.length = n then cpu (List.zipWith (· + ·) lhs.data rhs.data) lhs.shape
  else if rhs.data ≠ [] ∧ n % rhs.data.length = 0 then do
    let out ← (List.range n).mapM fun i => do
      let l ← index lhs.data i
      let r ← index rhs.data (i % rhs.data.length)
      .ok (l + r)
    cpu out lhs.shape
  else .error (.backend ("replay add: lhs " ++ toString lhs.data.length ++ " els vs rhs "
    ++ toString rhs.data.length ++ " els not broadcastable"))

def scale (factor : UInt32) (inp : ExactTensor K) : Except TapeError (ExactTensor K) :=
  cpu (inp.data.map (· * num factor)) inp.shape

def loraApply (alpha : UInt32) (rank : ℕ) (base x a b : ExactTensor K) :
    Except TapeError (ExactTensor K) :=
  match x.shape.getLast? with
  | none => .error .outOfBounds
  | some inFeatures =>
    let batch := x.shape.dropLast.prod
    match a.shape, b.shape with
    | [aRank, aIn], [bOut, bRank] =>
      if aIn ≠ inFeatures ∨ aRank ≠ bRank then
        .error (.backend ("replay lora: shape mismatch x [" ++ toString batch ++ ","
          ++ toString inFeatures ++ "], A [" ++ toString aRank ++ "," ++ toString aIn ++ "], B ["
          ++ toString bOut ++ "," ++ toString bRank ++ "]"))
      else do
        let h ← addProduct .outOfBounds (fun bi l => index x.data (bi * inFeatures + l))
          (fun l rr => index a.data (rr * aIn + l)) batch inFeatures aRank
          (List.replicate (batch * aRank) 0)
        if base.data.length ≠ batch * bOut then
          .error (.backend ("replay lora: base " ++ toString base.data.length
            ++ " els vs expected " ++ toString (batch * bOut)))
        else do
          let scale := num alpha / rank
          let out ← addProduct .outOfBounds
            (fun bi rr => (index h (bi * aRank + rr)).map (· * scale))
            (fun rr oo => index b.data (oo * aRank + rr)) batch aRank bOut base.data
          cpu out base.shape
    | aDims, bDims => .error (.backend ("replay lora: A/B must be 2-D, got " ++ toString aDims
        ++ " / " ++ toString bDims))

def embeddingRow (vocabSize hiddenDim : ℕ) (w : ExactTensor K) (t : ℕ) :
    Except TapeError (List K) :=
  if vocabSize ≤ t then
    .error (.backend ("replay embedding: token " ++ toString t ++ " >= vocab "
      ++ toString vocabSize))
  else .ok ((w.data.drop (t * hiddenDim)).take hiddenDim)

def embedding (tokenIds : List ℕ) (vocabSize hiddenDim : ℕ) (w : ExactTensor K) :
    Except TapeError (ExactTensor K) :=
  if w.data.length ≠ vocabSize * hiddenDim then
    .error (.backend ("replay embedding: weight " ++ toString w.data.length
      ++ " els vs vocab*hidden " ++ toString (vocabSize * hiddenDim)))
  else do
    -- each token's row is copied behind the rows before it
    let out ← tokenIds.mapM (embeddingRow vocabSize hiddenDim w)
    cpu out.flatten [tokenIds.length, hiddenDim]

/-- The operations of replay, those with a root or an exponential left to `rest`. -/
def ops (rest : ReplayOps (ExactTensor K)) : ReplayOps (ExactTensor K) :=
  { rest with
    matMul := matMul
    add := add
    scale := scale num
    loraApply := loraApply num
    embedding := embedding }

end ExactTensor

def TapeMetadata.kind : TapeMetadata → TapeKind
  | .matMul .. => .matMul
  | .add => .add
  | .scale _ => .scale
  | .loraApply .. => .loraApply
  | .siluMul => .siluMul
  | .rmsNorm .. => .rmsNorm
  | .rope => .rope
  | .softmax => .softmax
  | .embedding .. => .embedding
  | .selectiveScan .. => .selectiveScan

def Tape.operands {T : Type} (tape : Tape T) (overlay : Overlay T) (entry : TapeEntry) :
    Except TapeError (List T) :=
  match entry.metadata with
  | .matMul .. | .add => do
    let a ← tape.resolveAt overlay entry 0 "entry"
    let b ← tape.resolveAt overlay entry 1 "entry"
    .ok [a, b]
  | .scale _ | .embedding .. => do
    let x ← tape.resolveAt overlay entry 0 "entry"
    .ok [x]
  | .loraApply _ _ metaA metaB => do
    let base ← tape.resolveAt overlay entry 0 "entry"
    let x ← tape.resolveAt overlay entry 1 "entry"
    let a ← tape.resolveOrParam overlay entry 2 "lora a" metaA "replay lora: missing a tensor"
    let b ← tape.resolveOrParam overlay entry 3 "lora b" metaB "replay lora: missing b tensor"
    .ok [base, x, a, b]
  | _ => .ok []

variable {K : Type}

def Sized : TapeMetadata → List (ExactTensor K) → Prop
  | .matMul _ _ m k n, [a, b] =>
    1 ≤ m ∧ 1 ≤ k ∧ 1 ≤ n ∧ a.data.length = m * k ∧ b.data.length = k * n
  -- of one shape (with no `dims`), or a row (of one dimension, `tail`)
  | .add, [lhs, rhs] => ∃ dims tail, lhs.shape = dims ++ tail ∧ rhs.data.length = tail.prod
  | .scale _, [_] => True
  | .loraApply _ rank _ _, [base, x, a, b] => ∃ dims inFeatures outFeatures,
    x.shape = dims ++ [inFeatures] ∧ a.shape = [rank, inFeatures] ∧
      b.shape = [outFeatures, rank] ∧ base.data.length = dims.prod * outFeatures
  | .embedding _ vocabSize hiddenDim _, [w] => w.data.length = vocabSize * hiddenDim
  | _, _ => False

variable [Field K]

def operand (transpose : Bool) (m n : ℕ) (v : List K) : Matrix (Fin m) (Fin n) K :=
  if transpose then (rows n m v).transpose else rows m n v

def addRow (r c : ℕ) (v row : List K) : Matrix (Fin r) (Fin c) K :=
  Matrix.of fun i j => rows r c v i j + row.getD j 0

def IsValue (num : UInt32 → K) : TapeMetadata → List (ExactTensor K) → ExactTensor K → Prop
  | .matMul transposeA transposeB m k n, [a, b], out => out.shape = [m, n] ∧
    out.data = flat (operand transposeA m k a.data * operand transposeB k n b.data)
  | .add, [lhs, rhs], out => out.shape = lhs.shape ∧ out.data =
    flat (addRow (lhs.data.length / rhs.data.length) rhs.data.length lhs.data rhs.data)
  | .scale factor, [x], out => out.shape = x.shape ∧ out.data = x.data.map (num factor * ·)
  | .loraApply alpha rank _ _, [base, x, a, b], out => out.shape = base.shape ∧
    ∀ dims inFeatures outFeatures, x.shape = dims ++ [inFeatures] →
      b.shape = [outFeatures, rank] → out.data = flat (rows dims.prod outFeatures base.data +
        (num alpha / rank) • (rows dims.prod inFeatures x.data *
          (rows rank inFeatures a.data).transpose * (rows outFeatures rank b.data).transpose))
  | .embedding tokenIds _ hiddenDim _, [w], out => out.shape = [tokenIds.length, hiddenDim] ∧
    out.data = flat (Matrix.of fun (i : Fin tokenIds.length) (j : Fin hiddenDim) =>
      w.data.getD (tokenIds[i] * hiddenDim + j) 0)
  | _, _, _ => False

/-- Where replay finds the operands in order: the matrices of a product can be multiplied also as
they are stored, and the tokens are in the vocabulary. -/
def Replayable : TapeMetadata → Prop
  | .matMul transposeA transposeB m k n =>
    (if transposeA then m else k) = if transposeB then n else k
  | .embedding tokenIds vocabSize _ _ => ∀ t ∈ tokenIds, t < vocabSize
  | _ => True

namespace ExactTensor

section Cpu

variable {K : Type}

theorem cpu_eq {data : List K} {shape : List ℕ} (h : data.length = shape.prod) :
    cpu data shape = .ok ⟨shape, data, h⟩ := dif_pos h

theorem cpu_flat {m n : ℕ} (M : Matrix (Fin m) (Fin n) K) :
    ∃ out, cpu (flat M) [m, n] = .ok out ∧ out.shape = [m, n] ∧ out.data = flat M :=
  ⟨_, cpu_eq (by rw [length_flat, prod_cons, prod_cons, prod_nil, mul_one]),
    rfl, rfl⟩

theorem index_eq {v : List K} {i : ℕ} {x : K} (h : v[i]? = some x) : index v i = .ok x := by
  rw [index, h]

end Cpu

theorem index_rows {v : List K} {m n : ℕ} (h : v.length = m * n) (i : Fin m) (j : Fin n) :
    index v (i * n + j) = .ok (rows m n v i j) := index_eq (getElem?_rows h i j)

theorem index_operand {t : Bool} {v : List K} {m n : ℕ} (h : v.length = m * n) (i : Fin m)
    (j : Fin n) : index v (if t then j * m + i else i * n + j) = .ok (operand t m n v i j) := by
  cases t
  · exact index_rows h i j
  · exact index_rows (h.trans (Nat.mul_comm m n)) j i

theorem flat_zero (m n : ℕ) : flat (0 : Matrix (Fin m) (Fin n) K) = List.replicate (m * n) 0 := by
  rw [flat]
  exact ofFn_const (m * n) 0

section MatMul

variable [DecidableEq K] {ta tb : Bool} {m k n : ℕ} {a b : ExactTensor K}

theorem extents_mul (t : Bool) (p q : ℕ) :
    (if t then q else p) * (if t then p else q) = p * q := by
  cases t
  · rfl
  · exact Nat.mul_comm q p

theorem matMul_ok (ha : a.data.length = m * k) (hb : b.data.length = k * n)
    (h : (if ta then m else k) = if tb then n else k) :
    ∃ out, matMul ta tb m k n a b = .ok out ∧ out.shape = [m, n] ∧
      out.data = flat (operand ta m k a.data * operand tb k n b.data) := by
  have hsizes : ¬(a.data.length ≠ (if ta then k else m) * (if ta then m else k) ∨
      b.data.length ≠ (if tb then n else k) * (if tb then k else n) ∨
      (if ta then m else k) ≠ if tb then n else k) := by
    rw [extents_mul, extents_mul, not_or, not_or, not_not, not_not, not_not]
    exact ⟨ha, hb, h⟩
  unfold matMul
  simp only
  rw [if_neg hsizes, ← flat_zero, addProduct_flat (fun i l => index_operand ha i l)
    (fun l j => index_operand hb l j), zero_add]
  exact cpu_flat _

theorem matMul_error (h : (if ta then m else k) ≠ if tb then n else k) :
    ∃ message, matMul ta tb m k n a b = .error (.backend message) := by
  unfold matMul
  simp only
  rw [if_pos (.inr (.inr h))]
  exact ⟨_, rfl⟩

end MatMul

section Add

variable {lhs rhs : ExactTensor K}

theorem zipWith_eq_flat {c : ℕ} {v row : List K} (hv : v.length = c) (hrow : row.length = c) :
    List.zipWith (· + ·) v row = flat (addRow 1 c v row) := by
  have hv' : v.length = 1 * c := by rw [hv, one_mul]
  have hrow' : row.length = 1 * c := by rw [hrow, one_mul]
  conv_lhs => rw [← flat_rows hv', ← flat_rows hrow', zipWith_flat]
  congr 1
  ext i j
  simp only [addRow, rows, Matrix.of_apply, Fin.val_eq_zero, zero_mul, zero_add]

theorem mapM_eq_flat {r c : ℕ} {v row : List K} (hv : v.length = r * c) (hrow : row.length = c) :
    ((List.range (r * c)).mapM fun i => do
      let x ← index v i
      let y ← index row (i % c)
      .ok (x + y)) = .ok (flat (addRow r c v row)) := by
  refine mapM_range (g := fun q : Fin (r * c) =>
    addRow r c v row (finProdFinEquiv.symm q).1 (finProdFinEquiv.symm q).2) fun q => ?_
  obtain ⟨⟨i, j⟩, rfl⟩ := finProdFinEquiv.surjective q
  have hval : ((finProdFinEquiv (i, j) : Fin (r * c)) : ℕ) = i * c + j := by
    rw [finProdFinEquiv_apply_val]
    ring
  have hj : (j : ℕ) < row.length := hrow ▸ j.isLt
  have hrow' : index row j = .ok (row.getD j 0) := by
    refine index_eq ?_
    rw [getD_eq_getElem?_getD, getElem?_eq_getElem hj, Option.getD_some]
  rw [hval, index_rows hv, Nat.mul_add_mod_of_lt j.isLt, hrow', Equiv.symm_apply_apply]
  rfl

theorem add_ok {dims tail : List ℕ} (hl : lhs.shape = dims ++ tail)
    (hr : rhs.data.length = tail.prod) :
    ∃ out, add lhs rhs = .ok out ∧ out.shape = lhs.shape ∧ out.data =
      flat (addRow (lhs.data.length / rhs.data.length) rhs.data.length lhs.data rhs.data) := by
  have hn : lhs.shape.prod = dims.prod * rhs.data.length := by rw [hl, prod_append, hr]
  have hlen : lhs.data.length = dims.prod * rhs.data.length := lhs.fits.trans hn
  suffices h : add lhs rhs = cpu (flat (addRow (lhs.data.length / rhs.data.length)
      rhs.data.length lhs.data rhs.data)) lhs.shape by
    rw [h, cpu_eq (by rw [length_flat, ← lhs.fits, Nat.div_mul_cancel ⟨_, by rw [hlen, mul_comm]⟩])]
    exact ⟨_, rfl, rfl, rfl⟩
  unfold add
  simp only
  split_ifs with hsame hrows
  · rcases Nat.eq_zero_or_pos rhs.data.length with hzero | hpos
    · have hlhs : lhs.data = [] := eq_nil_of_length_eq_zero (by rw [hlen, hzero, mul_zero])
      have hflat : flat (addRow (lhs.data.length / rhs.data.length) rhs.data.length lhs.data
          rhs.data) = [] := by
        refine eq_nil_of_length_eq_zero ?_
        rw [length_flat, hzero, mul_zero]
      rw [hflat, hlhs, zipWith_nil_left]
    · rw [zipWith_eq_flat (lhs.fits.trans hsame.symm) rfl, lhs.fits, ← hsame, Nat.div_self hpos]
  · have hpos : 0 < rhs.data.length := length_pos_iff.2 hrows.1
    have hdiv : lhs.data.length / rhs.data.length = dims.prod := by
      rw [hlen, Nat.mul_div_cancel _ hpos]
    rw [hdiv, hn, mapM_eq_flat hlen rfl]
    rfl
  · refine absurd ⟨fun hnil => hsame ?_, ?_⟩ hrows
    · rw [hn, hnil, length_nil, mul_zero]
    · rw [hn, Nat.mul_mod_left]

end Add

theorem scale_ok (num : UInt32 → K) (factor : UInt32) (x : ExactTensor K) :
    ∃ out, scale num factor x = .ok out ∧ out.shape = x.shape ∧
      out.data = x.data.map (num factor * ·) := by
  rw [scale, cpu_eq (by rw [length_map, x.fits])]
  exact ⟨_, rfl, rfl, map_congr_left fun v _ => mul_comm v _⟩

section Lora

variable [DecidableEq K] {base x a b : ExactTensor K} {dims : List ℕ}
  {rank inFeatures outFeatures : ℕ}

theorem loraApply_ok (num : UInt32 → K) (alpha : UInt32) (hx : x.shape = dims ++ [inFeatures])
    (ha : a.shape = [rank, inFeatures]) (hb : b.shape = [outFeatures, rank])
    (hbase : base.data.length = dims.prod * outFeatures) :
    ∃ out, loraApply num alpha rank base x a b = .ok out ∧ out.shape = base.shape ∧
      out.data = flat (rows dims.prod outFeatures base.data +
        (num alpha / rank) • (rows dims.prod inFeatures x.data *
          (rows rank inFeatures a.data).transpose * (rows outFeatures rank b.data).transpose)) := by
  have hxlen : x.data.length = dims.prod * inFeatures := by
    rw [x.fits, hx, prod_append, prod_singleton]
  have halen : a.data.length = rank * inFeatures := by rw [a.fits, ha, prod_pair]
  have hblen : b.data.length = outFeatures * rank := by rw [b.fits, hb, prod_pair]
  have hh := addProduct_flat (e := TapeError.outOfBounds)
    (x := fun bi l => index x.data (bi * inFeatures + l)) (index_rows hxlen)
    (y := fun l rr => index a.data (rr * inFeatures + l))
    (Y := (rows rank inFeatures a.data).transpose) (fun l rr => index_rows halen rr l) 0
  rw [flat_zero, zero_add] at hh
  have hout := addProduct_flat (e := TapeError.outOfBounds)
    (x := fun bi rr => (index (flat (rows dims.prod inFeatures x.data *
      (rows rank inFeatures a.data).transpose)) (bi * rank + rr)).map (· * (num alpha / rank)))
    (X := (num alpha / rank) • (rows dims.prod inFeatures x.data *
      (rows rank inFeatures a.data).transpose))
    (fun bi rr => by
      rw [index_eq (getElem?_flat _ bi rr)]
      exact congrArg Except.ok (mul_comm _ _))
    (y := fun rr oo => index b.data (oo * rank + rr))
    (Y := (rows outFeatures rank b.data).transpose) (fun rr oo => index_rows hblen oo rr)
    (rows dims.prod outFeatures base.data)
  rw [flat_rows hbase, Matrix.smul_mul] at hout
  unfold loraApply
  rw [hx, ha, hb, getLast?_concat, dropLast_concat]
  simp only [ne_eq, not_true_eq_false, or_self, if_false, hh, bind, Except.bind, hbase, hout]
  rw [cpu_eq (by rw [length_flat, ← base.fits, hbase])]
  exact ⟨_, rfl, rfl, rfl⟩

end Lora

section Embedding

variable {tokenIds : List ℕ} {vocabSize hiddenDim : ℕ} {w : ExactTensor K}

theorem take_drop_eq_ofFn (hw : w.data.length = vocabSize * hiddenDim) {t : ℕ}
    (ht : t < vocabSize) : (w.data.drop (t * hiddenDim)).take hiddenDim =
      List.ofFn fun j : Fin hiddenDim => w.data.getD (t * hiddenDim + j) 0 := by
  refine ext_getElem? fun j => ?_
  rw [getElem?_take, getElem?_drop, List.getElem?_ofFn]
  split_ifs with hj
  · have hlt : t * hiddenDim + j < w.data.length := by
      rw [hw]
      calc t * hiddenDim + j < t * hiddenDim + hiddenDim := by omega
        _ = (t + 1) * hiddenDim := by ring
        _ ≤ vocabSize * hiddenDim := Nat.mul_le_mul_right _ ht
    rw [getD_eq_getElem?_getD, getElem?_eq_getElem hlt, Option.getD_some]
  · rfl

theorem mapM_embeddingRow (hw : w.data.length = vocabSize * hiddenDim)
    (h : ∀ t ∈ tokenIds, t < vocabSize) :
    tokenIds.mapM (embeddingRow vocabSize hiddenDim w) = .ok (tokenIds.map fun t =>
      List.ofFn fun j : Fin hiddenDim => w.data.getD (t * hiddenDim + j) 0) := by
  induction tokenIds with
  | nil => rfl
  | cons t ts ih =>
    obtain ⟨ht, hts⟩ := forall_mem_cons.1 h
    rw [mapM_cons, ih hts, embeddingRow, if_neg (not_le.2 ht), take_drop_eq_ofFn hw ht]
    rfl

theorem embedding_ok (hw : w.data.length = vocabSize * hiddenDim)
    (h : ∀ t ∈ tokenIds, t < vocabSize) :
    ∃ out, embedding tokenIds vocabSize hiddenDim w = .ok out ∧
      out.shape = [tokenIds.length, hiddenDim] ∧
      out.data = flat (Matrix.of fun (i : Fin tokenIds.length) (j : Fin hiddenDim) =>
        w.data.getD (tokenIds[i] * hiddenDim + j) 0) := by
  rw [embedding, if_neg (not_not.2 hw), mapM_embeddingRow hw h]
  have hrows : (tokenIds.map fun t => List.ofFn fun j : Fin hiddenDim =>
      w.data.getD (t * hiddenDim + j) 0) = List.ofFn fun i : Fin tokenIds.length =>
        List.ofFn fun j : Fin hiddenDim => w.data.getD (tokenIds[i] * hiddenDim + j) 0 := by
    refine ext_getElem (by simp) fun i hi hi' => ?_
    rw [getElem_map, List.getElem_ofFn]
    rfl
  have hflat := flat_eq_flatten (Matrix.of fun (i : Fin tokenIds.length) (j : Fin hiddenDim) =>
    w.data.getD (tokenIds[i] * hiddenDim + j) 0)
  simp only [bind, Except.bind, hrows]
  rw [show (List.ofFn fun i : Fin tokenIds.length => List.ofFn fun j : Fin hiddenDim =>
    w.data.getD (tokenIds[i] * hiddenDim + j) 0).flatten = _ from hflat.symm]
  exact cpu_flat _

omit [Field K] in
theorem mapM_embeddingRow_error (h : ¬∀ t ∈ tokenIds, t < vocabSize) :
    ∃ message, tokenIds.mapM (embeddingRow vocabSize hiddenDim w) = .error (.backend message) := by
  induction tokenIds with
  | nil => exact absurd (forall_mem_nil _) h
  | cons t ts ih =>
    by_cases ht : t < vocabSize
    · obtain ⟨message, hts⟩ := ih fun hts => h (forall_mem_cons.2 ⟨ht, hts⟩)
      rw [mapM_cons, hts, embeddingRow, if_neg (not_le.2 ht)]
      exact ⟨message, rfl⟩
    · rw [mapM_cons, embeddingRow, if_pos (not_lt.1 ht)]
      exact ⟨_, rfl⟩

omit [Field K] in
theorem embedding_error (hw : w.data.length = vocabSize * hiddenDim)
    (h : ¬∀ t ∈ tokenIds, t < vocabSize) :
    ∃ message, embedding tokenIds vocabSize hiddenDim w = .error (.backend message) := by
  obtain ⟨message, hmap⟩ : ∃ message, tokenIds.mapM (embeddingRow vocabSize hiddenDim w) =
      .error (.backend message) := mapM_embeddingRow_error h
  rw [embedding, if_neg (not_not.2 hw), hmap]
  exact ⟨message, rfl⟩

end Embedding

end ExactTensor

section Entry

open ExactTensor

variable [DecidableEq K] {num : UInt32 → K} {rest : ReplayOps (ExactTensor K)}
  {tape : Tape (ExactTensor K)} {overlay : Overlay (ExactTensor K)} {e : TapeEntry}
  {operands : List (ExactTensor K)}

def compute {T : Type} (ops : ReplayOps T) : TapeMetadata → List T → Except TapeError T
  | .matMul transposeA transposeB m k n, [a, b] => ops.matMul transposeA transposeB m k n a b
  | .add, [lhs, rhs] => ops.add lhs rhs
  | .scale factor, [x] => ops.scale factor x
  | .loraApply alpha rank _ _, [base, x, a, b] => ops.loraApply alpha rank base x a b
  | .embedding tokenIds vocabSize hiddenDim _, [w] => ops.embedding tokenIds vocabSize hiddenDim w
  | _, _ => .error .outOfBounds

theorem replayEntry_of_operands {T : Type} {ops : ReplayOps T} {tape : Tape T}
    {overlay : Overlay T} {operands : List T} (hkind : e.kind = e.metadata.kind)
    (hread : tape.operands overlay e = .ok operands) (hsome : operands ≠ []) :
    tape.replayEntry ops e overlay = compute ops e.metadata operands := by
  unfold Tape.operands at hread
  unfold Tape.replayEntry
  rw [hkind]
  cases hmeta : e.metadata <;> simp only [hmeta, TapeMetadata.kind, bind, Except.bind] at hread ⊢
  case siluMul | rmsNorm | rope | softmax | selectiveScan =>
    exact absurd (Except.ok.inj hread).symm hsome
  all_goals
    -- without one of the operands nothing is read
    repeat' split at hread
    all_goals cases hread
    simp_all only [compute]

omit [Field K] [DecidableEq K] in
theorem not_ok_of_error {f : Except TapeError (ExactTensor K)} {P : ExactTensor K → Prop}
    (h : ∃ message, f = .error (.backend message)) : ¬∃ out, f = .ok out ∧ P out := by
  rintro ⟨out, hok, -⟩
  obtain ⟨message, herr⟩ := h
  rw [herr] at hok
  cases hok

theorem compute_isValue_iff {metadata : TapeMetadata} (hsized : Sized metadata operands) :
    (∃ out, compute (ops num rest) metadata operands = .ok out ∧
      IsValue num metadata operands out) ↔ Replayable metadata := by
  match metadata, operands, hsized with
  | .matMul ta tb m k n, [a, b], ⟨_, _, _, ha, hb⟩ =>
    by_cases h : (if ta then m else k) = if tb then n else k
    · exact iff_of_true (matMul_ok ha hb h) h
    · exact iff_of_false (not_ok_of_error (matMul_error h)) h
  | .add, [lhs, rhs], ⟨dims, tail, hl, hr⟩ => exact iff_of_true (add_ok hl hr) trivial
  | .scale factor, [x], _ => exact iff_of_true (scale_ok num factor x) trivial
  | .loraApply alpha rank _ _, [base, x, a, b],
      ⟨dims, inFeatures, outFeatures, hx, ha, hb, hbase⟩ =>
    obtain ⟨out, hok, hshape, hdata⟩ := loraApply_ok num alpha hx ha hb hbase
    refine iff_of_true ⟨out, hok, hshape, fun dims' inFeatures' outFeatures' hx' hb' => ?_⟩ trivial
    obtain ⟨rfl, hin⟩ := append_inj' (hx.symm.trans hx') rfl
    obtain rfl := singleton_inj.1 hin
    obtain ⟨rfl, -⟩ := List.cons.inj (hb.symm.trans hb')
    exact hdata
  | .embedding tokenIds vocabSize hiddenDim _, [w], hw =>
    by_cases h : ∀ t ∈ tokenIds, t < vocabSize
    · exact iff_of_true (embedding_ok hw h) h
    · exact iff_of_false (not_ok_of_error (embedding_error hw h)) h

/-- An entry whose operands have the sizes its metadata announces is replayed to the value of its
operation exactly if it is replayable. -/
theorem replayEntry_isValue_iff (hkind : e.kind = e.metadata.kind)
    (hread : tape.operands overlay e = .ok operands) (hsized : Sized e.metadata operands) :
    (∃ out, tape.replayEntry (ops num rest) e overlay = .ok out ∧
      IsValue num e.metadata operands out) ↔ Replayable e.metadata := by
  have hsome : operands ≠ [] := by
    rintro rfl
    cases hmeta : e.metadata <;> rw [hmeta] at hsized <;> exact hsized
  rw [replayEntry_of_operands hkind hread hsome]
  exact compute_isValue_iff hsized

end Entry

section Products

def ones (shape : List ℕ) : ExactTensor ℚ :=
  ⟨shape, List.replicate shape.prod 1, length_replicate⟩

/-- A product with a matrix stored as `n` rows of two. -/
def products (n : ℕ) : Tape (ExactTensor ℚ) :=
  let (tape, a) := Tape.new.register (ones [1, 2])
  let (tape, b) := tape.register (ones [n, 2])
  (tape.recordMatmul a b (ones [1, n]) false true 1 2 n none).1

def product (n : ℕ) : TapeEntry := ⟨.matMul, [0, 1], 2, none, .matMul false true 1 2 n, 0⟩

def noOps : ReplayOps (ExactTensor ℚ) where
  matMul _ _ _ _ _ _ _ := .error .outOfBounds
  add _ _ := .error .outOfBounds
  scale _ _ := .error .outOfBounds
  loraApply _ _ _ _ _ _ := .error .outOfBounds
  siluMul _ _ := .error .outOfBounds
  rmsNorm _ _ _ := .error .outOfBounds
  rope _ _ _ := .error .outOfBounds
  softmax _ := .error .outOfBounds
  embedding _ _ _ _ := .error .outOfBounds

theorem sized_product {n : ℕ} (hn : 1 ≤ n) :
    Sized (.matMul false true 1 2 n) [ones [1, 2], ones [n, 2]] := by
  refine ⟨le_rfl, one_le_two, hn, rfl, ?_⟩
  rw [(ones [n, 2]).fits]
  show [n, 2].prod = _
  rw [prod_pair, Nat.mul_comm]

theorem replayEntry_isValue_iff_square : (∃ out,
    (products 2).replayEntry (ExactTensor.ops (fun _ => 0) noOps) (product 2) (fun _ => none) =
        .ok out ∧
      IsValue (fun _ => 0) (.matMul false true 1 2 2) [ones [1, 2], ones [2, 2]] out) ↔
    Replayable (.matMul false true 1 2 2) :=
  replayEntry_isValue_iff (e := product 2) rfl rfl (sized_product one_le_two)

/-- A matrix of three rows of two, transposed, is not multiplied by a row of two. -/
theorem rectangular_refused : ¬∀ (tape : Tape (ExactTensor ℚ)) overlay e operands,
    e.kind = e.metadata.kind → tape.operands overlay e = .ok operands → Sized e.metadata operands →
      ∃ out, tape.replayEntry (ExactTensor.ops (fun _ => 0) noOps) e overlay = .ok out ∧
        IsValue (fun _ => 0) e.metadata operands out := by
  intro h
  have hread : (products 3).operands (fun _ => none) (product 3) =
      .ok [ones [1, 2], ones [3, 2]] := rfl
  have hout := h (products 3) (fun _ => none) (product 3) _ rfl hread (sized_product (by decide))
  rw [replayEntry_of_operands rfl hread (cons_ne_nil _ _)] at hout
  have hinner : (if false then 1 else 2) ≠ if true then 3 else 2 := by decide
  have herror : ∃ message, ExactTensor.matMul false true 1 2 3 (ones [1, 2]) (ones [3, 2]) =
      .error (.backend message) := ExactTensor.matMul_error hinner
  exact not_ok_of_error herror hout

end Products

end Grim.Autograd
