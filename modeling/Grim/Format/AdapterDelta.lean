import Grim.Format.BoltOn
import Grim.Lib.FlatMatrix

/-!
# The change an adapter makes

Attaching and merging each work out what an adapter adds to the weights, and the training worker
merges with a scale of its own when a job is done.  The arithmetic is a parameter, that of `f32` or
an exact one; what is added is seen before it is quantized.
-/

namespace Grim.Format

open FlatMatrix FloatFormat

structure Arith (K : Type) where
  zero : K
  add : K → K → K
  mul : K → K → K
  div : K → K → K
  /-- `n as f32` -/
  ofNat : ℕ → K
  /-- `a > 0.0` -/
  isPos : K → Bool

namespace Arith

def f32 : Arith UInt32 where
  zero := 0
  add := f32Op .add
  mul := f32Op .mul
  div := f32Op .div
  ofNat n := f32OfInt n
  isPos := f32Lt 0

def exact : Arith ℚ where
  zero := 0
  add := (· + ·)
  mul := (· * ·)
  div := (· / ·)
  ofNat n := n
  isPos a := 0 < a

end Arith

/-- A tensor of an adapter, with the numbers `to_vec_f32` gives. -/
structure AdapterNumbers (K : Type) where
  dims : List ℕ
  data : List K

def AdapterNumbers.dim {K : Type} (t : AdapterNumbers K) (i : ℕ) : Except Stop ℕ :=
  match t.dims[i]? with
  | some d => .ok d
  | none => .error .panics

section Paths

variable {K : Type} (ar : Arith K)

/-- `sum += b_vec[o * rank + r] * a_vec[r * in_features + i]` -/
def dotWith (aVec bVec : List K) (rank inFeatures o i : ℕ) : Option K :=
  (List.range rank).foldlM (fun sum r => do
    let x ← bVec[o * rank + r]?
    let y ← aVec[r * inFeatures + i]?
    pure (ar.add sum (ar.mul x y))) ar.zero

def deltaWith (aVec bVec : List K) (outFeatures rank inFeatures : ℕ) (factor : K) :
    Except Stop (List K) :=
  match (List.range outFeatures).mapM fun o => (List.range inFeatures).mapM fun i =>
      (dotWith ar aVec bVec rank inFeatures o i).map (ar.mul factor) with
  | some rows => .ok rows.flatten
  | none => .error .panics

/-- The `delta_w` of `attach_bolt_on`. -/
def attachDelta (a b : AdapterNumbers K) (scale : K) : Except Stop (List K) := do
  let outFeatures ← b.dim 0
  let rank ← b.dim 1
  let inFeatures ← a.dim 1
  deltaWith ar a.data b.data outFeatures rank inFeatures scale

def computeDeltaW (a b : AdapterNumbers K) (scale : K) : Except Stop (List K) :=
  if a.dims.length < 2 ∨ b.dims.length < 2 then
    .error (.err "LoRA adapter tensors must be 2-D")
  else do
    let outFeatures ← b.dim 0
    let rank ← b.dim 1
    let inFeatures ← a.dim 1
    let aRows ← a.dim 0
    if aRows ≠ rank then
      .error (.err s!"LoRA A rows {aRows} do not match B columns {rank}")
    else
      let adj := if 0 < rank then ar.div scale (ar.ofNat rank) else scale
      deltaWith ar a.data b.data outFeatures rank inFeatures adj

/-- The effective weights that `merge_bolt_on` packs. -/
def mergeWeights (effective : List K) (a b : AdapterNumbers K) (scale : K) :
    Except Stop (List K) := do
  let delta ← computeDeltaW ar a b scale
  if delta.length ≠ effective.length then
    .error (.err (s!"adapter delta size {delta.length} does not match tensor element count " ++
      s!"{effective.length}"))
  else .ok (List.zipWith ar.add effective delta)

structure AdapterJob (K : Type) where
  loraAlpha : Option K
  loraRank : ℕ

/-- Where `lora_alpha` is unset or not positive, twice the rank. -/
def AdapterJob.alpha (job : AdapterJob K) : K :=
  (job.loraAlpha.filter ar.isPos).getD (ar.mul (ar.ofNat 2) (ar.ofNat job.loraRank))

def bakeOnCompletion (job : AdapterJob K) (effective : List K) (a b : AdapterNumbers K) :
    Except Stop (List K) :=
  mergeWeights ar effective a b (ar.div (job.alpha ar) (ar.ofNat job.loraRank))

end Paths

variable {r m n : ℕ}

def AdapterNumbers.ofMatrix (M : Matrix (Fin m) (Fin n) ℚ) : AdapterNumbers ℚ := ⟨[m, n], flat M⟩

section Exact

variable (A : Matrix (Fin r) (Fin n) ℚ) (B : Matrix (Fin m) (Fin r) ℚ)
  (W : Matrix (Fin m) (Fin n) ℚ)

theorem dotWith_exact (o : Fin m) (i : Fin n) :
    dotWith .exact (flat A) (flat B) r n o i = some ((B * A) o i) := by
  have hterm : ∀ k : Fin r, ((flat B)[o * r + k]?.bind fun x =>
      (flat A)[k * n + i]?.map fun y => x * y) = some (B o k * A k i) := by
    intro k
    rw [getElem?_flat, getElem?_flat]
    rfl
  have hsum := foldlM_range_sum (f := fun k => (flat B)[o * r + k]?.bind fun x =>
    (flat A)[k * n + i]?.map fun y => x * y) hterm 0
  rw [zero_add] at hsum
  rw [Matrix.mul_apply, ← hsum, dotWith]
  congr 1
  funext sum k
  rcases (flat B)[o * r + k]? with _ | x
  · rfl
  · rcases (flat A)[k * n + i]? with _ | y <;> rfl

theorem deltaWith_exact (factor : ℚ) :
    deltaWith .exact (flat A) (flat B) m r n factor = .ok (flat (factor • (B * A))) := by
  have hrow : ∀ o : Fin m, ((List.range n).mapM fun i =>
      (dotWith .exact (flat A) (flat B) r n o i).map (Arith.exact.mul factor)) =
        some (List.ofFn ((factor • (B * A)) o)) := by
    intro o
    refine mapM_range fun i => ?_
    rw [dotWith_exact]
    rfl
  rw [deltaWith, mapM_range hrow, flat_eq_flatten]
  rfl

theorem attachDelta_exact (scale : ℚ) :
    attachDelta .exact (.ofMatrix A) (.ofMatrix B) scale = .ok (flat (scale • (B * A))) :=
  deltaWith_exact A B scale

theorem computeDeltaW_exact (hr : 0 < r) (scale : ℚ) :
    computeDeltaW .exact (.ofMatrix A) (.ofMatrix B) scale =
      .ok (flat ((scale / r) • (B * A))) := by
  have hdims : ¬((AdapterNumbers.ofMatrix A).dims.length < 2 ∨
      (AdapterNumbers.ofMatrix B).dims.length < 2) := by simp [AdapterNumbers.ofMatrix]
  rw [computeDeltaW, if_neg hdims, ← deltaWith_exact]
  show (if r ≠ r then _ else _) = _
  rw [if_neg (not_not.2 rfl), if_pos hr]
  rfl

theorem mergeWeights_exact (hr : 0 < r) (scale : ℚ) :
    mergeWeights .exact (flat W) (.ofMatrix A) (.ofMatrix B) scale =
      .ok (flat (W + (scale / r) • (B * A))) := by
  have hlen : ¬(flat ((scale / r) • (B * A))).length ≠ (flat W).length := by
    rw [length_flat, length_flat, not_not]
  rw [mergeWeights, computeDeltaW_exact A B hr]
  simp only [bind, Except.bind]
  rw [if_neg hlen, Arith.exact, zipWith_flat]
  rfl

theorem bakeOnCompletion_exact (hr : 0 < r) (loraAlpha : Option ℚ) :
    bakeOnCompletion .exact ⟨loraAlpha, r⟩ (flat W) (.ofMatrix A) (.ofMatrix B) =
      .ok (flat (W + (AdapterJob.alpha .exact ⟨loraAlpha, r⟩ / r / r) • (B * A))) :=
  mergeWeights_exact A B W hr _

end Exact

/-- The adapter of a job of rank `r` makes one change: what is baked is `(alpha / r) * B * A`, and
attaching and merging with one scale add the same to the weights `W`. -/
structure OneWeightChange (loraAlpha : Option ℚ) (A : Matrix (Fin r) (Fin n) ℚ)
    (B : Matrix (Fin m) (Fin r) ℚ) (W : Matrix (Fin m) (Fin n) ℚ) : Prop where
  baked : bakeOnCompletion .exact ⟨loraAlpha, r⟩ (flat W) (.ofMatrix A) (.ofMatrix B) =
    .ok (flat (W + (AdapterJob.alpha .exact ⟨loraAlpha, r⟩ / r) • (B * A)))
  same : ∀ scale, ∃ delta : Matrix (Fin m) (Fin n) ℚ,
    attachDelta .exact (.ofMatrix A) (.ofMatrix B) scale = .ok (flat delta) ∧
      mergeWeights .exact (flat W) (.ofMatrix A) (.ofMatrix B) scale = .ok (flat (W + delta))

section OneChange

variable {loraAlpha : Option ℚ} {A : Matrix (Fin r) (Fin n) ℚ} {B : Matrix (Fin m) (Fin r) ℚ}
  {W : Matrix (Fin m) (Fin n) ℚ}

theorem smul_div_eq_iff (hr : 1 ≤ r) {c : ℚ} (hc : c ≠ 0) (M : Matrix (Fin m) (Fin n) ℚ) :
    (c / r) • M = c • M ↔ r = 1 ∨ M = 0 := by
  have hr' : (r : ℚ) ≠ 0 := Nat.cast_ne_zero.2 (by omega)
  rw [← sub_eq_zero, ← sub_smul, smul_eq_zero, sub_eq_zero, div_eq_iff hr']
  refine or_congr_left ⟨fun h => ?_, fun h => ?_⟩
  · have hone : c * (r - 1) = 0 := by linarith
    have hsub := (mul_eq_zero.1 hone).resolve_left hc
    exact_mod_cast sub_eq_zero.1 hsub
  · rw [h, Nat.cast_one, mul_one]

theorem OneWeightChange.merged (h : OneWeightChange loraAlpha A B W) (hr : 1 ≤ r) (scale : ℚ) :
    (scale / r) • (B * A) = scale • (B * A) := by
  obtain ⟨delta, hattach, hmerge⟩ := h.same scale
  rw [attachDelta_exact, Except.ok.injEq] at hattach
  rw [mergeWeights_exact A B W hr, Except.ok.injEq] at hmerge
  have hdelta := add_left_cancel (flat_injective hmerge)
  rw [hdelta, ← flat_injective hattach]

/-- The three paths agree exactly on adapters of rank one and on those that change nothing. -/
theorem oneWeightChange_iff (hr : 1 ≤ r) (loraAlpha : Option ℚ) (A : Matrix (Fin r) (Fin n) ℚ)
    (B : Matrix (Fin m) (Fin r) ℚ) (W : Matrix (Fin m) (Fin n) ℚ) :
    OneWeightChange loraAlpha A B W ↔ r = 1 ∨ B * A = 0 := by
  constructor
  · intro h
    exact (smul_div_eq_iff hr one_ne_zero (B * A)).1 (h.merged hr 1)
  · intro h
    have hsame : ∀ c : ℚ, (c / r) • (B * A) = c • (B * A) := by
      intro c
      rcases eq_or_ne c 0 with rfl | hc
      · rw [zero_div]
      · exact (smul_div_eq_iff hr hc (B * A)).2 h
    refine ⟨?_, fun scale => ⟨scale • (B * A), attachDelta_exact A B scale, ?_⟩⟩
    · rw [bakeOnCompletion_exact A B W hr, hsame]
    · rw [mergeWeights_exact A B W hr, hsame]

end OneChange

def onesA : Matrix (Fin 2) (Fin 1) ℚ := fun _ _ => 1

def onesB : Matrix (Fin 1) (Fin 2) ℚ := fun _ _ => 1

theorem oneWeightChange_iff_ones :
    OneWeightChange (some 2) onesA onesB 0 ↔ 2 = 1 ∨ onesB * onesA = 0 :=
  oneWeightChange_iff (by decide) (some 2) onesA onesB 0

/-- A merge adds half of what an attached adapter adds. -/
theorem rank_two_halved : ¬OneWeightChange (some 2) onesA onesB 0 := by
  intro h
  have hentry := congrFun (congrFun (h.merged (by decide) 1) 0) 0
  norm_num [onesA, onesB, Matrix.mul_apply, Fin.sum_univ_two] at hentry

end Grim.Format
