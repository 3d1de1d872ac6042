import Mathlib.Tactic

/-!
# Two families of intervals that tile a stretch

`Tiled hi xs ys`: the intervals of both families, each in order, cover `[0, hi)` and no two overlap.
`Consecutive lo xs hi`: the intervals of one family follow each other from `lo` to `hi`.
-/

namespace Tiling

open List

/-- `p` lies in one of the intervals `[x.1, x.2)`. -/
def Covers (xs : List (ℕ × ℕ)) (p : ℕ) : Prop := ∃ x ∈ xs, x.1 ≤ p ∧ p < x.2

def Ordered (xs : List (ℕ × ℕ)) : Prop := xs.Pairwise (fun x y => x.2 ≤ y.1)

structure Tiled (hi : ℕ) (xs ys : List (ℕ × ℕ)) : Prop where
  left : Ordered xs
  right : Ordered ys
  apart : ∀ x ∈ xs, ∀ y ∈ ys, x.2 ≤ y.1 ∨ y.2 ≤ x.1
  exact : ∀ p, Covers xs p ∨ Covers ys p ↔ p < hi

variable {hi stop p : ℕ} {x : ℕ × ℕ} {xs ys : List (ℕ × ℕ)}

theorem covers_append : Covers (xs ++ ys) p ↔ Covers xs p ∨ Covers ys p := by
  simp only [Covers, mem_append, or_and_right, exists_or]

theorem covers_singleton : Covers [x] p ↔ x.1 ≤ p ∧ p < x.2 := by
  simp [Covers]

theorem Tiled.le (h : Tiled hi xs ys) (hx : x ∈ xs ∨ x ∈ ys) (hpos : x.1 < x.2) : x.2 ≤ hi := by
  have hcover : Covers xs (x.2 - 1) ∨ Covers ys (x.2 - 1) :=
    hx.imp (fun hx => ⟨x, hx, by omega, by omega⟩) (fun hx => ⟨x, hx, by omega, by omega⟩)
  have hlt := (h.exact _).1 hcover
  omega

theorem Tiled.swap (h : Tiled hi xs ys) : Tiled hi ys xs :=
  ⟨h.right, h.left, fun y hy x hx => (h.apart x hx y hy).symm, fun p => by
    rw [or_comm]
    exact h.exact p⟩

theorem tiled_nil : Tiled 0 [] [] :=
  ⟨List.Pairwise.nil, List.Pairwise.nil, by simp, by simp [Covers]⟩

theorem Tiled.push (h : Tiled hi xs ys) (hle : hi ≤ stop) (hxs : ∀ x ∈ xs, x.1 < x.2)
    (hys : ∀ y ∈ ys, y.1 < y.2) : Tiled stop (xs ++ [(hi, stop)]) ys := by
  refine ⟨pairwise_append.2 ⟨h.left, by simp, ?_⟩, h.right, ?_, fun p => ?_⟩
  · intro x hx y hy
    rw [mem_singleton.1 hy]
    exact h.le (.inl hx) (hxs x hx)
  · intro x hx y hy
    rcases mem_append.1 hx with hx | hx
    · exact h.apart x hx y hy
    · rw [mem_singleton.1 hx]
      exact .inr (h.le (.inr hy) (hys y hy))
  · have hold := h.exact p
    rw [covers_append, covers_singleton, or_right_comm, hold]
    show p < hi ∨ hi ≤ p ∧ p < stop ↔ p < stop
    omega

theorem Tiled.extend {start : ℕ} (h : Tiled hi xs (ys ++ [(start, hi)])) (hstart : start < hi)
    (hle : hi ≤ stop) (hxs : ∀ x ∈ xs, x.1 < x.2) : Tiled stop xs (ys ++ [(start, stop)]) := by
  obtain ⟨hys, -, hlast⟩ := pairwise_append.1 h.right
  refine ⟨h.left, pairwise_append.2 ⟨hys, by simp, ?_⟩, ?_, fun p => ?_⟩
  · intro y hy z hz
    rw [mem_singleton.1 hz]
    exact hlast y hy (start, hi) (by simp)
  · intro x hx y hy
    rcases mem_append.1 hy with hy | hy
    · exact h.apart x hx y (mem_append_left _ hy)
    · rw [mem_singleton.1 hy]
      have hlt := hxs x hx
      have hend := h.le (.inl hx) hlt
      have hold := h.apart x hx (start, hi) (by simp)
      dsimp only at hold ⊢
      omega
  · have hold := h.exact p
    rw [covers_append, covers_singleton, ← or_assoc] at hold ⊢
    dsimp only at hold ⊢
    constructor
    · rintro (hp | hp)
      · exact (hold.1 (.inl hp)).trans_le hle
      · exact hp.2
    · intro hp
      by_cases hlt : p < hi
      · exact (hold.2 hlt).imp id fun hp' => ⟨hp'.1, hp⟩
      · exact .inr ⟨by omega, hp⟩

/-- The intervals go from `lo` to `hi`, each from the end of the one before, and none is empty. -/
def Consecutive : ℕ → List (ℕ × ℕ) → ℕ → Prop
  | lo, [], hi => lo = hi
  | lo, x :: xs, hi => x.1 = lo ∧ x.1 < x.2 ∧ Consecutive x.2 xs hi

theorem Consecutive.le {lo : ℕ} (h : Consecutive lo xs hi) : lo ≤ hi := by
  induction xs generalizing lo with
  | nil => exact Nat.le_of_eq h
  | cons x xs ih =>
    obtain ⟨rfl, hlt, h⟩ := h
    exact hlt.le.trans (ih h)

theorem Consecutive.eq_nil {lo : ℕ} (h : Consecutive lo xs hi) (hle : hi ≤ lo) : xs = [] := by
  cases xs with
  | nil => rfl
  | cons x xs =>
    obtain ⟨rfl, hlt, h⟩ := h
    have hend := Consecutive.le h
    omega

theorem Consecutive.push {lo : ℕ} (h : Consecutive lo xs hi) (hlt : hi < stop) :
    Consecutive lo (xs ++ [(hi, stop)]) stop := by
  induction xs generalizing lo with
  | nil =>
    cases h
    exact ⟨rfl, hlt, rfl⟩
  | cons x xs ih =>
    obtain ⟨hx, hpos, h⟩ := h
    exact ⟨hx, hpos, ih h⟩

theorem Consecutive.countP {lo : ℕ} (h : Consecutive lo xs hi) (p : ℕ) :
    xs.countP (fun x => x.1 ≤ p ∧ p < x.2) = if lo ≤ p ∧ p < hi then 1 else 0 := by
  induction xs generalizing lo with
  | nil =>
    cases h
    rw [countP_nil, if_neg (by omega)]
  | cons x xs ih =>
    obtain ⟨rfl, hlt, h⟩ := h
    have hend := Consecutive.le h
    rw [countP_cons, ih h]
    simp only [decide_eq_true_eq]
    split_ifs <;> omega

end Tiling
