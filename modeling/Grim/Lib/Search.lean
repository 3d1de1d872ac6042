import Mathlib.Tactic

/-!
# Searches with a budget of steps

A search takes the steps used so far and gives its answer with the steps used then.  It decides a
property up to a limit when a "yes" is always right and a "no" below the limit is (`Decides`).
Trying alternatives one after the other, until one succeeds or the limit is met, decides whether
one of them holds (`Decides.tryAll`).
-/

namespace Search

/-- The `for` loop over alternatives with one shared counter. -/
def tryAll {ι : Type*} (limit : ℕ) (f : ι → ℕ → Bool × ℕ) : List ι → ℕ → Bool × ℕ
  | [], steps => (false, steps)
  | x :: xs, steps =>
    let (found, steps) := f x steps
    if found then (true, steps)
    else if limit ≤ steps then (false, steps)
    else tryAll limit f xs steps

structure Decides (limit : ℕ) (f : ℕ → Bool × ℕ) (P : Prop) : Prop where
  mono : ∀ steps, steps ≤ (f steps).2
  sound : ∀ steps, (f steps).1 = true → P
  complete : ∀ steps, (f steps).1 = false → (f steps).2 < limit → ¬ P

variable {ι : Type*} {limit limit' steps : ℕ} {f : ℕ → Bool × ℕ} {P Q : Prop}

theorem Decides.congr (h : Decides limit f P) (hPQ : P ↔ Q) : Decides limit f Q :=
  ⟨h.mono, fun s hs => hPQ.1 (h.sound s hs), fun s hs hlt => hPQ.not.1 (h.complete s hs hlt)⟩

theorem Decides.weaken (h : Decides limit f P) (hle : limit' ≤ limit) : Decides limit' f P :=
  ⟨h.mono, h.sound, fun s hs hlt => h.complete s hs (hlt.trans_le hle)⟩

theorem Decides.after (h : Decides limit f P) (n : ℕ) : Decides limit (fun s => f (s + n)) P :=
  ⟨fun s => (Nat.le_add_right s n).trans (h.mono _), fun s => h.sound (s + n),
    fun s => h.complete (s + n)⟩

theorem Decides.cut (h : Decides limit f P) :
    Decides limit (fun s => if limit ≤ s then (false, s) else f s) P := by
  constructor
  · intro s
    split_ifs
    · exact le_rfl
    · exact h.mono s
  · intro s hfound
    split_ifs at hfound
    exact h.sound s hfound
  · intro s hfound hlt
    split_ifs at hfound hlt with hcut
    · exact absurd hlt (not_lt.2 hcut)
    · exact h.complete s hfound hlt

theorem decides_of_iff {b : Bool} (h : b = true ↔ P) : Decides limit (fun s => (b, s)) P :=
  ⟨fun _ => le_rfl, fun _ hb => h.1 hb, fun _ hb _ hP => by
    rw [h.2 hP] at hb
    cases hb⟩

theorem Decides.tryAll {f : ι → ℕ → Bool × ℕ} {P : ι → Prop} :
    ∀ {xs : List ι}, (∀ x ∈ xs, Decides limit (f x) (P x)) →
      Decides limit (tryAll limit f xs) (∃ x ∈ xs, P x)
  | [], _ => decides_of_iff (by simp)
  | x :: xs, h => by
    obtain ⟨hx, hxs⟩ := List.forall_mem_cons.1 h
    have ih := Decides.tryAll hxs
    constructor
    · intro s
      have hmono := hx.mono s
      unfold Search.tryAll
      dsimp only
      split_ifs
      · exact hmono
      · exact hmono
      · exact hmono.trans (ih.mono _)
    · intro s hfound
      rw [List.exists_mem_cons_iff]
      unfold Search.tryAll at hfound
      dsimp only at hfound
      split_ifs at hfound with hb
      · exact .inl (hx.sound s hb)
      · exact .inr (ih.sound _ hfound)
    · intro s hfound hlt
      rw [List.exists_mem_cons_iff, not_or]
      unfold Search.tryAll at hfound hlt
      dsimp only at hfound hlt
      split_ifs at hfound hlt with hb hcut
      · exact absurd hlt (not_lt.2 hcut)
      · exact ⟨hx.complete s (Bool.not_eq_true _ ▸ hb) (not_le.1 hcut), ih.complete _ hfound hlt⟩

end Search

/-!
## How many pass in front

The numbers below `n` are tested in order, and the count stops at the first that fails.
-/

/-- The first `k` of the numbers below `n` pass, and the next one, if there is one, does not. -/
structure Leading (p : ℕ → Prop) (n k : ℕ) : Prop where
  le : k ≤ n
  pass : ∀ i < k, p i
  stop : k < n → ¬ p k

namespace Leading

variable {p q : ℕ → Prop} {n k : ℕ}

theorem isGreatest_iff : IsGreatest {k | k ≤ n ∧ ∀ i < k, p i} k ↔ Leading p n k := by
  constructor
  · rintro ⟨⟨hle, hpass⟩, hbound⟩
    refine ⟨hle, hpass, fun hlt hk => ?_⟩
    have hmem : k + 1 ∈ {k | k ≤ n ∧ ∀ i < k, p i} := by
      refine ⟨hlt, fun i hi => ?_⟩
      rcases Nat.lt_succ_iff_lt_or_eq.1 hi with hi | rfl
      · exact hpass i hi
      · exact hk
    have := hbound hmem
    omega
  · intro h
    refine ⟨⟨h.le, h.pass⟩, fun m hm => ?_⟩
    by_contra hlt
    exact h.stop (by have := hm.1; omega) (hm.2 k (by omega))

theorem iff_of_leading (h : Leading p n k) :
    Leading q n k ↔ ∀ i < n, (∀ j < i, q j ∧ p j) → (q i ↔ p i) := by
  constructor
  · intro h' i hi hboth
    rcases lt_trichotomy i k with hlt | rfl | hgt
    · exact iff_of_true (h'.pass i hlt) (h.pass i hlt)
    · exact iff_of_false (h'.stop hi) (h.stop hi)
    · exact absurd (hboth k hgt).2 (h.stop (hgt.trans hi))
  · intro hagree
    have hpass : ∀ i < k, q i := by
      intro i
      induction i using Nat.strong_induction_on with
      | _ i ih =>
        intro hi
        exact (hagree i (hi.trans_le h.le) fun j hj =>
          ⟨ih j hj (hj.trans hi), h.pass j (hj.trans hi)⟩).2 (h.pass i hi)
    refine ⟨h.le, hpass, fun hlt hk => h.stop hlt ?_⟩
    exact (hagree k hlt fun j hj => ⟨hpass j hj, h.pass j hj⟩).1 hk

theorem pos_iff (h : Leading p n k) : 0 < k ↔ 0 < n ∧ p 0 := by
  constructor
  · intro hk
    exact ⟨hk.trans_le h.le, h.pass 0 hk⟩
  · rintro ⟨hn, h0⟩
    by_contra hk
    obtain rfl : k = 0 := by omega
    exact h.stop hn h0

theorem eq_one_iff (h : Leading p n k) : k = 1 ↔ 0 < n ∧ p 0 ∧ (1 < n → ¬ p 1) := by
  constructor
  · rintro rfl
    exact ⟨h.le, h.pass 0 Nat.one_pos, h.stop⟩
  · rintro ⟨hn, h0, h1⟩
    have hk := h.pos_iff.2 ⟨hn, h0⟩
    by_contra hne
    have hlt : 1 < k := by omega
    exact h1 (hlt.trans_le h.le) (h.pass 1 hlt)

end Leading
