import Grim.Lib.Chop

/-!
# Loops with fuel

A computation with loops takes fuel, and is `none` when the fuel runs out.  It gives an outcome when
no amount of fuel leads to another one and enough of it leads to this; the outcome `none` is that of
a computation that fails, or does not return, with any fuel.
-/

namespace Fuel

variable {α β : Type*} {f : ℕ → Option α} {o : Option α}

structure Gives (f : ℕ → Option α) (o : Option α) : Prop where
  only : ∀ n, f n = none ∨ f n = o
  enough : ∃ n, ∀ m, n ≤ m → f m = o

theorem gives_const (o : Option α) : Gives (fun _ => o) o := ⟨fun _ => .inr rfl, 0, fun _ _ => rfl⟩

theorem gives_of_mono {a : α} (hmono : ∀ n b, f n = some b → f (n + 1) = some b) {n : ℕ}
    (h : f n = some a) : Gives f (some a) := by
  have hmore : ∀ {n b} k, f n = some b → f (n + k) = some b := fun k hn => by
    induction k with
    | zero => exact hn
    | succ k ih => exact hmono _ _ ih
  refine ⟨fun m => ?_, n, fun m hm => ?_⟩
  · rcases hb : f m with _ | b
    · exact .inl rfl
    · have hleft := hmore m h
      rw [Nat.add_comm, hmore n hb] at hleft
      exact .inr hleft
  · obtain ⟨k, rfl⟩ := Nat.exists_eq_add_of_le hm
    exact hmore k h

theorem Gives.returns_iff (h : Gives f o) : (∃ n a, f n = some a) ↔ ∃ a, o = some a := by
  constructor
  · rintro ⟨n, a, hn⟩
    rcases h.only n with hnone | hsome
    · rw [hn] at hnone
      cases hnone
    · exact ⟨a, hsome ▸ hn⟩
  · rintro ⟨a, rfl⟩
    obtain ⟨n, hn⟩ := h.enough
    exact ⟨n, a, hn n le_rfl⟩

theorem Gives.bind {g : α → ℕ → Option β} {k : α → Option β} (h : Gives f o)
    (hg : ∀ a, o = some a → Gives (g a) (k a)) :
    Gives (fun n => (f n).bind fun a => g a n) (o.bind k) := by
  obtain ⟨n, hn⟩ := h.enough
  rcases o with _ | a
  · refine ⟨fun m => .inl ?_, n, fun m hm => ?_⟩
    · rcases h.only m with hm | hm <;> rw [hm, Option.bind_none]
    · rw [hn m hm, Option.bind_none, Option.bind_none]
  · have hga := hg a rfl
    obtain ⟨n', hn'⟩ := hga.enough
    refine ⟨fun m => ?_, max n n', fun m hm => ?_⟩
    · rcases h.only m with hm | hm
      · exact .inl (by rw [hm, Option.bind_none])
      · rw [hm, Option.bind_some, Option.bind_some]
        exact hga.only m
    · rw [hn m (le_trans (le_max_left _ _) hm), Option.bind_some, Option.bind_some]
      exact hn' m (le_trans (le_max_right _ _) hm)

theorem Gives.andThen {a : α} {g : α → ℕ → Option β} {o : Option β} (h : Gives f (some a))
    (hg : Gives (g a) o) : Gives (fun n => (f n).bind fun a => g a n) o :=
  h.bind (k := fun _ => o) fun _ ha => Option.some.inj ha ▸ hg

theorem Gives.map (h : Gives f o) (k : α → β) : Gives (fun n => (f n).map k) (o.map k) := by
  have hbind := h.bind (g := fun a _ => some (k a)) (k := fun a => some (k a))
    fun a _ => gives_const _
  simp only [Option.map_eq_bind]
  exact hbind

theorem gives_mapM {f : α → ℕ → Option β} {g : α → Option β} : ∀ {xs : List α},
    (∀ x ∈ xs, Gives (f x) (g x)) → Gives (fun n => xs.mapM fun x => f x n) (xs.mapM g)
  | [], _ => gives_const _
  | x :: xs, h => by
    have hrest := gives_mapM fun y hy => h y (List.mem_cons_of_mem x hy)
    simp only [List.mapM_cons]
    exact (h x List.mem_cons_self).bind fun y _ => hrest.bind fun ys _ => gives_const _

open Chop

/-- `chop`, where a piece may be empty and the loop then go on for ever. -/
def chopWithin (len : List α → ℕ) : ℕ → List α → Option (List (List α))
  | 0, _ => none
  | _ + 1, [] => some []
  | n + 1, x :: xs =>
    (chopWithin len n ((x :: xs).drop (len (x :: xs)))).map ((x :: xs).take (len (x :: xs)) :: ·)

theorem chopWithin_mono {len : List α → ℕ} : ∀ (n : ℕ) {xs : List α} {ps : List (List α)},
    chopWithin len n xs = some ps → chopWithin len (n + 1) xs = some ps
  | 0, _, _, h => by simp [chopWithin] at h
  | _ + 1, [], _, h => h
  | n + 1, x :: xs, ps, h => by
    rw [chopWithin, Option.map_eq_some_iff] at h ⊢
    obtain ⟨qs, hrest, rfl⟩ := h
    exact ⟨qs, chopWithin_mono n hrest, rfl⟩

theorem chopWithin_of_lt {len : List α → ℕ} (hpos : Progress len) : ∀ (n : ℕ) {xs : List α},
    xs.length < n → chopWithin len n xs = some (chop len xs)
  | 0, _, h => absurd h (Nat.not_lt_zero _)
  | n + 1, [], _ => rfl
  | n + 1, x :: xs, h => by
    have hlen := hpos.pos x xs
    rw [List.length_cons] at h
    rw [chopWithin, chop_cons hpos, chopWithin_of_lt hpos n, Option.map_some]
    rw [List.length_drop, List.length_cons]
    omega

theorem gives_chop {len : List α → ℕ} (hpos : Progress len) (xs : List α) :
    Gives (fun n => chopWithin len n xs) (some (chop len xs)) :=
  gives_of_mono (fun n _ => chopWithin_mono n) (chopWithin_of_lt hpos _ (Nat.lt_succ_self _))

end Fuel
