import Mathlib.Tactic

/-!
# Cutting a list into pieces

`len` says how long the next piece is; `chop len` cuts a list into pieces from the front.  At the
end of a piece a list can be cut in two and each part chopped on its own, where the pieces before
the cut are found without what comes after it (`chop_of_boundary`).
-/

open List

namespace Chop

variable {α : Type*} {len : List α → ℕ}

def chopAux (len : List α → ℕ) : ℕ → List α → List (List α)
  | 0, _ => []
  | _, [] => []
  | n + 1, x :: xs => (x :: xs).take (len (x :: xs)) :: chopAux len n
    ((x :: xs).drop (len (x :: xs)))

def chop (len : List α → ℕ) (xs : List α) : List (List α) := chopAux len xs.length xs

structure Progress (len : List α → ℕ) : Prop where
  pos : ∀ x xs, 0 < len (x :: xs)
  le : ∀ xs, len xs ≤ xs.length

theorem chopAux_cons (n : ℕ) (x : α) (xs : List α) : chopAux len (n + 1) (x :: xs) =
    (x :: xs).take (len (x :: xs)) :: chopAux len n ((x :: xs).drop (len (x :: xs))) := rfl

theorem chopAux_eq (hpos : Progress len) : ∀ {n m : ℕ} {xs : List α}, xs.length ≤ n →
    xs.length ≤ m → chopAux len n xs = chopAux len m xs
  | 0, 0, _, _, _ => rfl
  | 0, m + 1, [], _, _ => rfl
  | n + 1, 0, [], _, _ => rfl
  | n + 1, m + 1, [], _, _ => rfl
  | n + 1, m + 1, x :: xs, hn, hm => by
    have hlen := hpos.pos x xs
    rw [length_cons] at hn hm
    rw [chopAux_cons, chopAux_cons, chopAux_eq hpos (n := n) (m := m)]
    · rw [length_drop, length_cons]
      omega
    · rw [length_drop, length_cons]
      omega

@[simp] theorem chop_nil : chop len ([] : List α) = [] := rfl

theorem chop_cons (hpos : Progress len) (x : α) (xs : List α) : chop len (x :: xs) =
    (x :: xs).take (len (x :: xs)) :: chop len ((x :: xs).drop (len (x :: xs))) := by
  have hlen := hpos.pos x xs
  rw [chop, length_cons, chopAux_cons, chop, chopAux_eq hpos le_rfl]
  rw [length_drop, length_cons]
  omega

theorem chop_of_ne_nil (hpos : Progress len) {xs : List α} (h : xs ≠ []) :
    chop len xs = xs.take (len xs) :: chop len (xs.drop (len xs)) := by
  rcases xs with _ | ⟨x, xs⟩
  · exact absurd rfl h
  · exact chop_cons hpos x xs

theorem flatten_chopAux (hpos : Progress len) : ∀ {n : ℕ} {xs : List α}, xs.length ≤ n →
    (chopAux len n xs).flatten = xs
  | 0, [], _ => rfl
  | n + 1, [], _ => rfl
  | n + 1, x :: xs, h => by
    have hlen := hpos.pos x xs
    rw [length_cons] at h
    rw [chopAux_cons, flatten_cons, flatten_chopAux hpos, take_append_drop]
    rw [length_drop, length_cons]
    omega

@[simp] theorem flatten_chop (hpos : Progress len) (xs : List α) : (chop len xs).flatten = xs :=
  flatten_chopAux hpos le_rfl

theorem ne_nil_of_mem_chopAux (hpos : Progress len) : ∀ {n : ℕ} {xs p : List α},
    p ∈ chopAux len n xs → p ≠ []
  | 0, _, _, h => absurd h not_mem_nil
  | _ + 1, [], _, h => absurd h not_mem_nil
  | n + 1, x :: xs, p, h => by
    rw [chopAux_cons, mem_cons] at h
    rcases h with rfl | h
    · have hlen := hpos.pos x xs
      simp only [ne_eq, take_eq_nil_iff, reduceCtorEq, or_false]
      omega
    · exact ne_nil_of_mem_chopAux hpos h

theorem ne_nil_of_mem_chop (hpos : Progress len) {xs p : List α} (h : p ∈ chop len xs) : p ≠ [] :=
  ne_nil_of_mem_chopAux hpos h

theorem forall_mem_chop {P : List α → Prop} (h : ∀ x xs, P ((x :: xs).take (len (x :: xs)))) :
    ∀ {n : ℕ} {xs p : List α}, p ∈ chopAux len n xs → P p
  | 0, _, _, hp => absurd hp not_mem_nil
  | _ + 1, [], _, hp => absurd hp not_mem_nil
  | n + 1, x :: xs, p, hp => by
    rw [chopAux_cons, mem_cons] at hp
    rcases hp with rfl | hp
    · exact h x xs
    · exact forall_mem_chop h hp

theorem chop_of_boundary (hpos : Progress len) {bad : List (List α) → Prop}
    (hbad : ∀ u us, bad us → bad (u :: us))
    (hsteady : ∀ u us r, u ≠ [] → (∀ p ∈ us, p ≠ []) → len (u ++ us.flatten ++ r) = u.length →
      ¬bad (u :: us) → len (u ++ us.flatten) = u.length) :
    ∀ (us : List (List α)) {vs : List (List α)} {r : List α},
      chop len (us.flatten ++ r) = us ++ vs → ¬bad us → chop len us.flatten = us ∧ chop len r = vs
  | [], _, _, h, _ => ⟨rfl, h⟩
  | u :: us, vs, r, h, hgood => by
    have hne : ∀ p ∈ u :: (us ++ vs), p ≠ [] := fun p hp => by
      rw [← cons_append, ← h] at hp
      exact ne_nil_of_mem_chop hpos hp
    have hu : u ≠ [] := hne u mem_cons_self
    have hwhole : (u :: us).flatten ++ r ≠ [] := by simp [hu]
    have hpieces := h
    rw [chop_of_ne_nil hpos hwhole, cons_append] at hpieces
    obtain ⟨htake, hdrop⟩ := List.cons.inj hpieces
    have hlen : len (u ++ us.flatten ++ r) = u.length := by
      have hlength := congrArg List.length htake
      rw [length_take, min_eq_left (hpos.le _)] at hlength
      exact hlength
    have hrest : chop len (us.flatten ++ r) = us ++ vs := by
      have hcut : ((u :: us).flatten ++ r).drop u.length = us.flatten ++ r := by simp
      rw [← hdrop, ← hcut]
      exact congrArg (fun n => chop len (((u :: us).flatten ++ r).drop n)) hlen.symm
    obtain ⟨hus, hvs⟩ := chop_of_boundary hpos hbad hsteady us hrest fun hb => hgood (hbad u us hb)
    refine ⟨?_, hvs⟩
    have hsame := hsteady u us r hu
      (fun p hp => hne p (mem_cons_of_mem _ (mem_append_left _ hp))) hlen hgood
    have hleft : (u :: us).flatten ≠ [] := by simp [hu]
    rw [chop_of_ne_nil hpos hleft, flatten_cons, hsame, take_left, drop_left, hus]

/-- Pieces that the next one's length gives, and where a list can be cut between them: anywhere but
after pieces that are `bad`. -/
structure Cutter (α : Type*) where
  len : List α → ℕ
  bad : List (List α) → Prop
  progress : Progress len
  bad_cons : ∀ u us, bad us → bad (u :: us)
  steady : ∀ u us r, u ≠ [] → (∀ p ∈ us, p ≠ []) → len (u ++ us.flatten ++ r) = u.length →
    ¬bad (u :: us) → len (u ++ us.flatten) = u.length

namespace Cutter

variable {α : Type*} (k : Cutter α)

def pieces (xs : List α) : List (List α) := chop k.len xs

@[simp] theorem pieces_nil : k.pieces [] = [] := rfl

@[simp] theorem flatten_pieces (xs : List α) : (k.pieces xs).flatten = xs :=
  flatten_chop k.progress xs

variable {k}

theorem cut {us vs : List (List α)} {r : List α} (h : k.pieces (us.flatten ++ r) = us ++ vs)
    (hgood : ¬k.bad us) : k.pieces us.flatten = us ∧ k.pieces r = vs :=
  chop_of_boundary k.progress k.bad_cons k.steady us h hgood

end Cutter

def singles (α : Type*) : Cutter α where
  len := fun xs => min 1 xs.length
  bad := fun _ => False
  progress := ⟨fun _ _ => by simp, fun _ => min_le_right _ _⟩
  bad_cons := fun _ _ h => h
  steady := fun u us r hu _ h _ => by
    have hpos := length_pos_of_ne_nil hu
    simp only [length_append] at h ⊢
    omega

theorem pieces_singles (xs : List α) : (singles α).pieces xs = xs.map fun x => [x] := by
  induction xs with
  | nil => rfl
  | cons x xs ih =>
    have hlen : (singles α).len (x :: xs) = 1 := by simp [singles]
    rw [Cutter.pieces, chop_cons (singles α).progress, hlen]
    exact congrArg ([x] :: ·) ih

theorem chop_map {β : Type*} {len : List α → ℕ} {len' : List β → ℕ} {f : α → β}
    (hlen : ∀ xs, len' (xs.map f) = len xs) : ∀ (n : ℕ) (xs : List α),
      chopAux len' n (xs.map f) = (chopAux len n xs).map (List.map f)
  | 0, _ => rfl
  | n + 1, [] => rfl
  | n + 1, x :: xs => by
    have hx := hlen (x :: xs)
    rw [map_cons] at hx ⊢
    rw [chopAux, chopAux, hx, map_cons, ← map_cons, ← map_take, ← map_drop,
      chop_map hlen n]

end Chop

/-!
## Batches of one size

A stream cut into batches of `n`, the last one filled up with `pad`.
-/

namespace Batches

open Chop

variable {α β : Type*} {n : ℕ} {pad : α} {xs ys : List α}

def batches (n : ℕ) (pad : α) (xs : List α) : List (List α) :=
  (chop (fun xs => min n xs.length) xs).map (List.rightpad n pad)

theorem progress (hn : 0 < n) : Progress fun xs : List α => min n xs.length where
  pos _ _ := lt_min hn (Nat.succ_pos _)
  le _ := min_le_right _ _

@[simp] theorem batches_nil : batches n pad [] = [] := rfl

theorem drop_rightpad (n : ℕ) (pad : α) (xs : List α) : (xs.rightpad n pad).drop n = xs.drop n := by
  rw [List.rightpad, drop_append, drop_replicate, Nat.sub_self, replicate_zero,
    append_nil]

theorem rightpad_of_le (h : n ≤ xs.length) : xs.rightpad n pad = xs := by
  rw [List.rightpad, Nat.sub_eq_zero_of_le h, replicate_zero, append_nil]

theorem length_rightpad (h : xs.length ≤ n) : (xs.rightpad n pad).length = n := by
  rw [List.rightpad, length_append, length_replicate, Nat.add_sub_cancel' h]

theorem batches_of_ne_nil (hn : 0 < n) (h : xs ≠ []) :
    batches n pad xs = (xs.rightpad n pad).take n :: batches n pad (xs.drop n) := by
  rw [batches, chop_of_ne_nil (progress hn) h, map_cons]
  rcases le_total n xs.length with hle | hle
  · have htake : (xs.take n).length = n := length_take_of_le hle
    rw [min_eq_left hle, rightpad_of_le htake.ge, rightpad_of_le hle]
    rfl
  · rw [min_eq_right hle, take_length, drop_length, drop_eq_nil_of_le hle,
      take_of_length_le (length_rightpad hle).le]
    rfl

theorem batches_append (hn : 0 < n) (h : xs.length = n) :
    batches n pad (xs ++ ys) = xs :: batches n pad ys := by
  have hne : xs ++ ys ≠ [] := by
    intro hnil
    rw [(append_eq_nil_iff.1 hnil).1, length_nil] at h
    omega
  have hle : n ≤ (xs ++ ys).length := by
    rw [length_append]
    omega
  rw [batches_of_ne_nil hn hne, rightpad_of_le hle, take_left' h, drop_left' h]

theorem batches_short (hne : xs ≠ []) (h : xs.length ≤ n) :
    batches n pad xs = [xs.rightpad n pad] := by
  have hn : 0 < n := (length_pos_iff.2 hne).trans_le h
  rw [batches_of_ne_nil hn hne, drop_eq_nil_of_le h,
    take_of_length_le (length_rightpad h).le]
  rfl

theorem flatten_batches (hn : 0 < n) (xs : List α) :
    ∃ c < n, (batches n pad xs).flatten = xs ++ List.replicate c pad := by
  induction hlen : xs.length using Nat.strong_induction_on generalizing xs with
  | h m ih =>
    rcases eq_or_ne xs [] with rfl | hne
    · exact ⟨0, hn, rfl⟩
    · rcases le_total n xs.length with hle | hle
      · have hdrop : (xs.drop n).length < m := by
          rw [length_drop]
          omega
        obtain ⟨c, hc, hrest⟩ := ih _ hdrop (xs.drop n) rfl
        refine ⟨c, hc, ?_⟩
        conv_lhs => rw [← take_append_drop n xs]
        rw [batches_append hn (length_take_of_le hle), flatten_cons, hrest,
          ← append_assoc, take_append_drop]
      · have hpos := length_pos_iff.2 hne
        refine ⟨n - xs.length, by omega, ?_⟩
        rw [batches_short hne hle, flatten_singleton, List.rightpad]

theorem batches_map (f : α → β) (pad : α) (xs : List α) :
    batches n (f pad) (xs.map f) = (batches n pad xs).map (List.map f) := by
  have hchop : chopAux (fun ys : List β => min n ys.length) xs.length (xs.map f) =
      (chopAux (fun xs => min n xs.length) xs.length xs).map (List.map f) :=
    chop_map (fun xs => by rw [length_map]) xs.length xs
  rw [batches, batches, chop, length_map, hchop, map_map, map_map]
  refine map_congr_left fun p _ => ?_
  simp only [Function.comp_apply, List.rightpad, length_map, map_append,
    map_replicate]

end Batches
