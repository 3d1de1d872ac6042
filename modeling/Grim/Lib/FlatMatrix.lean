import Mathlib.Data.Matrix.Mul
import Mathlib.Logic.Equiv.Fin.Basic
import Mathlib.Tactic

/-!
# Matrices as flat lists

A matrix is kept as the list of its rows one after the other.  A loop that adds to the numbers of a
list of a fixed length adds what its steps add (`Adds.loop`); the three loops over two matrices add
their product (`addProduct_flat`).
-/

namespace FlatMatrix

open List

universe u v

variable {α K ε : Type*} {m n : ℕ}

def flat (M : Matrix (Fin m) (Fin n) α) : List α :=
  List.ofFn fun q : Fin (m * n) => M (finProdFinEquiv.symm q).1 (finProdFinEquiv.symm q).2

@[simp] theorem length_flat (M : Matrix (Fin m) (Fin n) α) : (flat M).length = m * n := by
  rw [flat, length_ofFn]

theorem getElem?_flat (M : Matrix (Fin m) (Fin n) α) (i : Fin m) (j : Fin n) :
    (flat M)[i * n + j]? = some (M i j) := by
  have hval : ((finProdFinEquiv (i, j) : Fin (m * n)) : ℕ) = i * n + j := by
    rw [finProdFinEquiv_apply_val]
    ring
  have hlt : (i : ℕ) * n + j < m * n := by
    rw [← hval]
    exact (finProdFinEquiv (i, j)).isLt
  rw [flat, List.getElem?_ofFn, dif_pos hlt]
  have hfin : (⟨i * n + j, hlt⟩ : Fin (m * n)) = finProdFinEquiv (i, j) := Fin.ext hval.symm
  rw [hfin, Equiv.symm_apply_apply]

theorem flat_injective {M N : Matrix (Fin m) (Fin n) α} (h : flat M = flat N) : M = N := by
  ext i j
  have hij := congrArg (fun l => l[(i : ℕ) * n + j]?) h
  simp only [getElem?_flat, Option.some.injEq] at hij
  exact hij

theorem flat_eq_flatten (M : Matrix (Fin m) (Fin n) α) :
    flat M = (List.ofFn fun i => List.ofFn (M i)).flatten := by
  rw [flat, ofFn_mul]
  congr 2
  funext i
  congr 1
  funext j
  have hfin : (⟨i * n + j, by
      calc (i : ℕ) * n + j < i * n + n := by omega
        _ = (i + 1) * n := by ring
        _ ≤ m * n := Nat.mul_le_mul_right n i.isLt⟩ : Fin (m * n)) = finProdFinEquiv (i, j) :=
    Fin.ext (by rw [finProdFinEquiv_apply_val]; ring)
  rw [hfin, Equiv.symm_apply_apply]

theorem zipWith_flat {β γ : Type*} (f : α → β → γ) (M : Matrix (Fin m) (Fin n) α)
    (N : Matrix (Fin m) (Fin n) β) :
    List.zipWith f (flat M) (flat N) = flat (Matrix.of fun i j => f (M i j) (N i j)) := by
  refine ext_getElem? fun q => ?_
  simp only [flat, getElem?_zipWith, List.getElem?_ofFn, Matrix.of_apply]
  split_ifs <;> rfl

def rows [Zero α] (m n : ℕ) (l : List α) : Matrix (Fin m) (Fin n) α :=
  Matrix.of fun i j => l.getD (i * n + j) 0

theorem flat_rows [Zero α] {l : List α} (h : l.length = m * n) : flat (rows m n l) = l := by
  refine ext_getElem? fun q => ?_
  rw [flat, List.getElem?_ofFn]
  split_ifs with hq
  · have hval := congrArg Fin.val (finProdFinEquiv.apply_symm_apply (⟨q, hq⟩ : Fin (m * n)))
    rw [finProdFinEquiv_apply_val, add_comm, mul_comm n] at hval
    have hlt : q < l.length := h ▸ hq
    rw [rows, Matrix.of_apply, hval, getD_eq_getElem?_getD, getElem?_eq_getElem hlt]
    rfl
  · rw [getElem?_eq_none (h ▸ not_lt.1 hq)]

theorem getElem?_rows [Zero α] {l : List α} (h : l.length = m * n) (i : Fin m) (j : Fin n) :
    l[i * n + j]? = some (rows m n l i j) := by
  conv_lhs => rw [← flat_rows h]
  exact getElem?_flat _ i j

theorem mapM_range {β : Type u} {F : Type u → Type v} [Monad F] [LawfulMonad F] {f : ℕ → F β}
    {g : Fin n → β} (h : ∀ i : Fin n, f i = pure (g i)) :
    (List.range n).mapM f = pure (List.ofFn g) := by
  induction n with
  | zero => rfl
  | succ n ih =>
    have hlast := h (Fin.last n)
    rw [Fin.val_last] at hlast
    rw [range_succ, mapM_append, ih (g := g ∘ Fin.castSucc) fun i => h i.castSucc,
      ofFn_succ_last]
    simp only [mapM_cons, mapM_nil, hlast, pure_bind]
    rfl

theorem foldlM_range_sum [AddCommMonoid K] {f : ℕ → Option K} {g : Fin n → K}
    (h : ∀ i : Fin n, f i = some (g i)) (s : K) :
    (List.range n).foldlM (fun sum i => (f i).map (sum + ·)) s = some (s + ∑ i, g i) := by
  induction n with
  | zero => simp
  | succ n ih =>
    have hlast := h (Fin.last n)
    rw [Fin.val_last] at hlast
    rw [range_succ, foldlM_append, ih (g := g ∘ Fin.castSucc) fun i => h i.castSucc]
    simp only [Option.bind_eq_bind, Option.bind_some, foldlM_cons, foldlM_nil, hlast,
      Option.map_some, Fin.sum_univ_castSucc, Function.comp_apply, add_assoc]
    rfl

section Adds

variable [AddCommMonoid K] {N : ℕ}

/-- Of a list of `N` numbers, `f` makes the one with `d` added. -/
def Adds (N : ℕ) (f : List K → Except ε (List K)) (d : Fin N → K) : Prop :=
  ∀ v : Fin N → K, f (List.ofFn v) = .ok (List.ofFn (v + d))

theorem Adds.loop {f : ℕ → List K → Except ε (List K)} {d : Fin n → Fin N → K}
    (h : ∀ i : Fin n, Adds N (f i) (d i)) :
    Adds N (fun out => (List.range n).foldlM (fun out i => f i out) out) (∑ i, d i) := by
  intro v
  induction n with
  | zero =>
    simp only [range_zero, foldlM_nil, Finset.univ_eq_empty, Finset.sum_empty, add_zero]
    rfl
  | succ n ih =>
    have hlast := h (Fin.last n)
    rw [Fin.val_last] at hlast
    have hrest := ih (d := d ∘ Fin.castSucc) fun i => h i.castSucc
    simp only at hrest ⊢
    rw [range_succ, foldlM_append, hrest, Fin.sum_univ_castSucc, ← add_assoc]
    simp only [foldlM_cons, foldlM_nil, bind, Except.bind, pure, Except.pure, hlast _]
    rfl

/-- `out[p] += x` -/
def addAt (e : ε) (p : ℕ) (x : K) (out : List K) : Except ε (List K) :=
  if p < out.length then .ok (out.modify p (· + x)) else .error e

theorem adds_addAt (e : ε) (p : Fin N) (x : K) : Adds N (addAt e p x) (Pi.single p x) := by
  intro v
  rw [addAt, length_ofFn, if_pos p.isLt]
  refine congrArg Except.ok (ext_getElem? fun q => ?_)
  simp only [getElem?_modify, List.getElem?_ofFn]
  by_cases hq : q < N
  · rw [dif_pos hq, dif_pos hq]
    by_cases heq : (p : ℕ) = q
    · have hp : p = ⟨q, hq⟩ := Fin.ext heq
      subst hp
      simp
    · have hne : (⟨q, hq⟩ : Fin N) ≠ p := fun h => heq (congrArg Fin.val h).symm
      simp [heq, Pi.single_eq_of_ne hne]
  · simp [hq]

end Adds

section Product

variable [NonUnitalNonAssocSemiring K] [DecidableEq K] {k : ℕ}

/-- `out[i][j] += u * y[l][j]` for each `j`, unless `u` is zero. -/
def addScaled (e : ε) (y : ℕ → ℕ → Except ε K) (n i l : ℕ) (u : K) (out : List K) :
    Except ε (List K) :=
  if u = 0 then .ok out
  else (List.range n).foldlM (fun out j => do
    let v ← y l j
    addAt e (i * n + j) (u * v) out) out

/-- `out[i][j] += x[i][l] * y[l][j]` for each `i`, `l` and `j`. -/
def addProduct (e : ε) (x y : ℕ → ℕ → Except ε K) (m k n : ℕ) (out : List K) :
    Except ε (List K) :=
  (List.range m).foldlM (fun out i =>
    (List.range k).foldlM (fun out l => do
      let u ← x i l
      addScaled e y n i l u out) out) out

variable {e : ε} {x y : ℕ → ℕ → Except ε K} {X : Matrix (Fin m) (Fin k) K}
  {Y : Matrix (Fin k) (Fin n) K}

theorem adds_addScaled (hy : ∀ (l : Fin k) (j : Fin n), y l j = .ok (Y l j)) (i : Fin m)
    (l : Fin k) (u : K) : Adds (m * n) (addScaled e y n i l u)
      (∑ j : Fin n, Pi.single (finProdFinEquiv (i, j)) (u * Y l j)) := by
  intro v
  by_cases hu : u = 0
  · rw [addScaled, if_pos hu]
    simp only [hu, zero_mul, Pi.single_zero, Finset.sum_const_zero, add_zero]
  · have hadd : ∀ j : Fin n, Adds (m * n) (fun out => do
        let w ← y l j
        addAt e (i * n + j) (u * w) out) (Pi.single (finProdFinEquiv (i, j)) (u * Y l j)) := by
      intro j
      have hval : (i : ℕ) * n + j = (finProdFinEquiv (i, j) : Fin (m * n)) := by
        rw [finProdFinEquiv_apply_val]
        ring
      rw [hy, hval]
      exact adds_addAt e _ _
    rw [addScaled, if_neg hu]
    exact Adds.loop (f := fun j out => do
      let w ← y l j
      addAt e (i * n + j) (u * w) out) hadd v

theorem addProduct_flat (hx : ∀ (i : Fin m) (l : Fin k), x i l = .ok (X i l))
    (hy : ∀ (l : Fin k) (j : Fin n), y l j = .ok (Y l j)) (M : Matrix (Fin m) (Fin n) K) :
    addProduct e x y m k n (flat M) = .ok (flat (M + X * Y)) := by
  have hstep : ∀ (i : Fin m) (l : Fin k), Adds (m * n) (fun out => do
      let u ← x i l
      addScaled e y n i l u out)
      (∑ j : Fin n, Pi.single (finProdFinEquiv (i, j)) (X i l * Y l j)) := by
    intro i l
    rw [hx]
    exact adds_addScaled hy i l (X i l)
  have hrow : ∀ i : Fin m, Adds (m * n) (fun out => (List.range k).foldlM (fun out l => do
      let u ← x i l
      addScaled e y n i l u out) out)
      (∑ l : Fin k, ∑ j : Fin n, Pi.single (finProdFinEquiv (i, j)) (X i l * Y l j)) :=
    fun i => Adds.loop (f := fun l out => do
      let u ← x i l
      addScaled e y n i l u out) (hstep i)
  have hloop := Adds.loop (f := fun i out => (List.range k).foldlM (fun out l => do
      let u ← x i l
      addScaled e y n i l u out) out) hrow
  rw [addProduct, flat]
  refine (hloop _).trans (congrArg Except.ok (congrArg List.ofFn (funext fun q => ?_)))
  obtain ⟨⟨i₀, j₀⟩, rfl⟩ := finProdFinEquiv.surjective q
  simp only [Pi.add_apply, Finset.sum_apply, Matrix.add_apply, Matrix.mul_apply,
    Equiv.symm_apply_apply, Pi.single_apply, EmbeddingLike.apply_eq_iff_eq, Prod.mk.injEq]
  congr 1
  rw [Finset.sum_eq_single i₀ (fun i _ hi => ?_) (by simp)]
  · refine Finset.sum_congr rfl fun l _ => ?_
    rw [Finset.sum_eq_single j₀ (fun j _ hj => ?_) (by simp)]
    · simp
    · simp [hj.symm]
  · simp [hi.symm]

end Product

section Writes

variable {x y pad on off : α} {e : ε}

/-- `out[p] = x` -/
def setAt (e : ε) (p : ℕ) (x : α) (out : List α) : Except ε (List α) :=
  if p < out.length then .ok (out.set p x) else .error e

theorem setAt_append {front back : List α} {p : ℕ} (hp : front.length = p) :
    setAt e p x (front ++ y :: back) = .ok (front ++ x :: back) := by
  have hroom : p < (front ++ y :: back).length := by
    rw [length_append, length_cons, hp]
    exact Nat.lt_add_of_pos_right (Nat.succ_pos _)
  rw [setAt, if_pos hroom, set_append_right _ _ hp.le, hp, Nat.sub_self, set_cons_zero]

theorem setAt_next {front xs back : List α} {i p : ℕ} (hx : xs[i]? = some x)
    (hp : front.length + i = p) : setAt e p x (front ++ (xs.take i ++ y :: back)) =
      .ok (front ++ (xs.take (i + 1) ++ back)) := by
  obtain ⟨hlt, rfl⟩ := List.getElem?_eq_some_iff.1 hx
  have hlength : (front ++ xs.take i).length = p := by
    rw [length_append, length_take_of_le hlt.le, hp]
  rw [← append_assoc, setAt_append hlength, take_succ_eq_append_getElem hlt,
    append_assoc, append_assoc]
  rfl

theorem setAt_run {front xs : List α} {R i : ℕ} (hx : xs[i]? = some x) (hi : i < R) :
    setAt e (front.length + i) x (front ++ (xs.take i ++ List.replicate (R - i) pad)) =
      .ok (front ++ (xs.take (i + 1) ++ List.replicate (R - (i + 1)) pad)) := by
  have hrest : List.replicate (R - i) pad = pad :: List.replicate (R - (i + 1)) pad := by
    rw [← replicate_succ]
    congr 1
    omega
  rw [hrest, setAt_next hx rfl]

/-- The entries `S` of a square matrix are `on`, the others `off`. -/
structure Marked (N : ℕ) (on off : α) (S : ℕ → ℕ → Prop) (buf : List α) : Prop where
  length : buf.length = N * N
  on_of : ∀ i j, i < N → j < N → S i j → buf[i * N + j]? = some on
  off_of : ∀ i j, i < N → j < N → ¬S i j → buf[i * N + j]? = some off

variable {N : ℕ} {S S' : ℕ → ℕ → Prop} {buf : List α}

theorem marked_replicate (N : ℕ) (on off : α) :
    Marked N on off (fun _ _ => False) (List.replicate (N * N) off) where
  length := length_replicate
  on_of _ _ _ _ h := h.elim
  off_of i j hi hj _ := by
    have hlt : i * N + j < N * N := by nlinarith
    rw [getElem?_replicate, if_pos hlt]

theorem Marked.congr (h : Marked N on off S buf)
    (hiff : ∀ i j, i < N → j < N → (S i j ↔ S' i j)) : Marked N on off S' buf where
  length := h.length
  on_of i j hi hj hS := h.on_of i j hi hj ((hiff i j hi hj).2 hS)
  off_of i j hi hj hS := h.off_of i j hi hj fun hS' => hS ((hiff i j hi hj).1 hS')

theorem Marked.set (h : Marked N on off S buf) {i₀ j₀ : ℕ} (hi₀ : i₀ < N) (hj₀ : j₀ < N) :
    ∃ buf', setAt e (i₀ * N + j₀) on buf = .ok buf' ∧
      Marked N on off (fun i j => S i j ∨ i = i₀ ∧ j = j₀) buf' := by
  have hlt : i₀ * N + j₀ < buf.length := by
    rw [h.length]
    nlinarith
  have hsame : ∀ i j, j < N → (i₀ * N + j₀ = i * N + j ↔ i = i₀ ∧ j = j₀) := by
    refine fun i j hj => ⟨fun heq => ?_, fun ⟨hi, hj⟩ => by rw [hi, hj]⟩
    have hpos : 0 < N := Nat.zero_lt_of_lt hj
    have hdiv := congrArg (· / N) heq
    have hmod := congrArg (· % N) heq
    simp only [Nat.mul_comm _ N, Nat.mul_add_div hpos, Nat.mul_add_mod, Nat.div_eq_of_lt hj,
      Nat.div_eq_of_lt hj₀, Nat.mod_eq_of_lt hj, Nat.mod_eq_of_lt hj₀] at hdiv hmod
    exact ⟨by omega, hmod.symm⟩
  refine ⟨_, if_pos hlt, ⟨by rw [length_set, h.length], fun i j hi hj hS => ?_,
    fun i j hi hj hS => ?_⟩⟩
  · rw [getElem?_set]
    split_ifs with heq
    · rfl
    · refine h.on_of i j hi hj (hS.resolve_right fun hij => heq ((hsame i j hj).2 hij))
  · rw [getElem?_set, if_neg fun heq => hS (.inr ((hsame i j hj).1 heq))]
    exact h.off_of i j hi hj fun hS' => hS (.inl hS')

/-- `f` marks the entries `T` beside those that are marked. -/
def Marks (N : ℕ) (on off : α) (T : ℕ → ℕ → Prop) (f : List α → Except ε (List α)) : Prop :=
  ∀ S buf, Marked N on off S buf →
    ∃ buf', f buf = .ok buf' ∧ Marked N on off (fun i j => S i j ∨ T i j) buf'

theorem Marks.loop {f : ℕ → List α → Except ε (List α)} {T : ℕ → ℕ → ℕ → Prop} {n : ℕ}
    (h : ∀ k < n, Marks N on off (T k) (f k)) :
    Marks N on off (fun i j => ∃ k < n, T k i j)
      (fun buf => (List.range n).foldlM (fun buf k => f k buf) buf) := by
  intro S buf hbuf
  induction n with
  | zero =>
    refine ⟨buf, rfl, hbuf.congr fun i j _ _ => ⟨.inl, fun hor => hor.resolve_right ?_⟩⟩
    rintro ⟨k, hk, -⟩
    exact absurd hk (Nat.not_lt_zero k)
  | succ n ih =>
    obtain ⟨mid, hrun, hmid⟩ := ih fun k hk => h k (Nat.lt_succ_of_lt hk)
    obtain ⟨buf', hlast, hbuf'⟩ := h n (Nat.lt_succ_self n) _ mid hmid
    refine ⟨buf', ?_, hbuf'.congr fun i j _ _ => ?_⟩
    · simp only at hrun ⊢
      rw [range_succ, foldlM_append, hrun]
      simp only [bind, Except.bind, foldlM_cons, foldlM_nil, hlast]
      rfl
    · simp only [or_assoc, Nat.exists_lt_succ_right]

end Writes

end FlatMatrix
