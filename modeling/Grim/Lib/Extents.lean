import Mathlib.Tactic

/-!
# Extents one behind the other

An extent is a stretch of a file.  Extents are chained from `lo` on when each starts where the one
before it ends or later; rounding up to a segment keeps a chain.
-/

structure Extent where
  start : ℕ
  length : ℕ
deriving DecidableEq

namespace Extent

def stop (x : Extent) : ℕ := x.start + x.length

def Chained : ℕ → List Extent → Prop
  | _, [] => True
  | lo, x :: xs => lo ≤ x.start ∧ Chained x.stop xs

variable {lo : ℕ} {x : Extent} {xs ys : List Extent}

theorem Chained.le : ∀ {lo : ℕ} {xs : List Extent}, Chained lo xs → ∀ x ∈ xs, lo ≤ x.start
  | _, _ :: _, h, x, hx => by
    rcases List.mem_cons.1 hx with rfl | hx
    · exact h.1
    · have hstop := Chained.le h.2 x hx
      have hle := h.1
      unfold stop at hstop
      omega

theorem chained_iff : ∀ {lo : ℕ} {xs : List Extent}, Chained lo xs ↔
    xs.Pairwise (fun a b => a.stop ≤ b.start) ∧ ∀ x ∈ xs, lo ≤ x.start
  | _, [] => by simp [Chained]
  | lo, x :: xs => by
    constructor
    · intro h
      exact ⟨List.pairwise_cons.2 ⟨fun y hy => h.2.le y hy, (chained_iff.1 h.2).1⟩, h.le⟩
    · rintro ⟨hpair, hlo⟩
      obtain ⟨hx, hrest⟩ := List.pairwise_cons.1 hpair
      exact ⟨hlo x (by simp), chained_iff.2 ⟨hrest, hx⟩⟩

def Has (x : Extent) (k : ℕ) : Prop := x.start ≤ k ∧ k < x.stop

/-- The places from `lo` to `hi` are in one of the extents, or the second starts before the first
is over. -/
def Span (x y : Extent) (lo hi : ℕ) : Prop :=
  x.start ≤ lo ∧ hi ≤ x.stop ∨ x.start ≤ lo ∧ y.start ≤ x.stop ∧ hi ≤ y.stop

theorem span_iff {x y : Extent} {lo hi : ℕ} (hlt : lo < hi) :
    (∀ k, lo ≤ k → k < hi → x.Has k ∨ y.Has k) ↔ Span x y lo hi ∨ Span y x lo hi := by
  constructor
  · intro h
    have hfirst := h lo le_rfl hlt
    have hlast := h (hi - 1) (by omega) (by omega)
    have hx := h x.stop
    have hy := h y.stop
    simp only [Has, Span] at *
    omega
  · intro h k hlo hhi
    simp only [Has, Span] at *
    omega

/-- `n.div_ceil(segment) * segment` -/
def alignUp (n segment : ℕ) : ℕ := (n / segment + if n % segment = 0 then 0 else 1) * segment

variable {n m segment : ℕ}

theorem dvd_alignUp (n segment : ℕ) : segment ∣ alignUp n segment := Dvd.intro_left _ rfl

theorem alignUp_of_dvd (h : segment ∣ n) : alignUp n segment = n := by
  rw [alignUp, if_pos (Nat.mod_eq_zero_of_dvd h), add_zero, Nat.div_mul_cancel h]

theorem le_alignUp (h : 0 < segment) : n ≤ alignUp n segment := by
  have hdiv := Nat.div_add_mod n segment
  have hmod := Nat.mod_lt n h
  rw [mul_comm] at hdiv
  rw [alignUp, add_mul]
  split_ifs with hzero <;> omega

theorem alignUp_le (hle : n ≤ m) (h : segment ∣ m) :
    alignUp n segment ≤ m := by
  obtain ⟨k, rfl⟩ := h
  by_cases hdvd : segment ∣ n
  · rw [alignUp_of_dvd hdvd]
    exact hle
  · have hmod : n % segment ≠ 0 := fun h0 => hdvd (Nat.dvd_of_mod_eq_zero h0)
    have hdiv := Nat.div_add_mod n segment
    have hlt : n / segment < k := by
      by_contra hge
      have := Nat.mul_le_mul_left segment (not_lt.1 hge)
      omega
    rw [alignUp, if_neg hmod, mul_comm]
    exact Nat.mul_le_mul_left segment hlt

theorem alignUp_add (h : segment ∣ m) : alignUp (n + m) segment = alignUp n segment + m := by
  obtain ⟨k, rfl⟩ := h
  rcases Nat.eq_zero_or_pos segment with rfl | hpos
  · simp [alignUp]
  · rw [alignUp, alignUp, Nat.add_mul_div_left _ _ hpos, Nat.add_mul_mod_self_left]
    ring

theorem alignUp_mod (h : segment ∣ m) : alignUp (n % m) segment % m = alignUp n segment % m := by
  have hsplit : n % m + m * (n / m) = n := Nat.mod_add_div n m
  have hadd := alignUp_add (n := n % m) (h.mul_right (n / m))
  rw [hsplit] at hadd
  rw [hadd, Nat.add_mul_mod_self_left]

end Extent
