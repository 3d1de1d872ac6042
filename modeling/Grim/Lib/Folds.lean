import Mathlib.Tactic

/-!
# Folds

A fold in `Except` returns when each of its steps does (`foldlM_ok`), and two folds over one list
whose steps keep a relation of their states fail alike or end in related states (`Agree.foldlM`).
The first of the highest elements of two lists in one is the higher of theirs (`highest_append`).
-/

namespace Folds

open List

variable {σ τ ι ρ ε : Type}

theorem bind_ok {α β : Type} {x : Except ε α} {f : α → Except ε β} {b : β} :
    (x >>= f) = .ok b ↔ ∃ a, x = .ok a ∧ f a = .ok b := by
  cases x <;> simp [bind, Except.bind]

theorem foldlM_error_iff {f : σ → ι → Except ε σ} {e : ε} : ∀ {l : List ι} {s : σ},
    l.foldlM f s = .error e ↔ ∃ before i after s', l = before ++ i :: after ∧
      before.foldlM f s = .ok s' ∧ f s' i = .error e
  | [], s => by simp [pure, Except.pure]
  | j :: l, s => by
    rw [foldlM_cons]
    constructor
    · intro h
      rcases hj : f s j with e' | s₁
      · rw [hj] at h
        obtain rfl : e' = e := Except.error.inj h
        exact ⟨[], j, l, s, rfl, rfl, hj⟩
      · rw [hj] at h
        obtain ⟨before, i, after, s', rfl, hrun, hi⟩ := foldlM_error_iff.1 h
        refine ⟨j :: before, i, after, s', rfl, ?_, hi⟩
        rw [foldlM_cons, hj]
        exact hrun
    · rintro ⟨before, i, after, s', hl, hrun, hi⟩
      rcases before with _ | ⟨k, before⟩
      · obtain ⟨rfl, rfl⟩ := List.cons.inj hl
        obtain rfl : s = s' := Except.ok.inj hrun
        rw [hi]
        rfl
      · obtain ⟨rfl, rfl⟩ := List.cons.inj hl
        rw [foldlM_cons, bind_ok] at hrun
        obtain ⟨s₁, hj, hrun⟩ := hrun
        rw [hj]
        exact foldlM_error_iff.2 ⟨before, i, after, s', rfl, hrun, hi⟩

theorem foldlM_ok {f : σ → ι → Except ε σ} {I : List ι → σ → Prop}
    (hstep : ∀ i l s, I (i :: l) s → ∃ s', f s i = .ok s' ∧ I l s') :
    ∀ {l : List ι} {s : σ}, I l s → ∃ s', l.foldlM f s = .ok s' ∧ I [] s'
  | [], s, h => ⟨s, rfl, h⟩
  | i :: l, s, h => by
    obtain ⟨s₁, hf, hI⟩ := hstep i l s h
    obtain ⟨s₂, hrun, hI⟩ := foldlM_ok hstep hI
    refine ⟨s₂, ?_, hI⟩
    rw [foldlM_cons, hf]
    exact hrun

theorem foldlM_range {f : σ → ℕ → Except ε σ} {s : ℕ → σ} {n : ℕ}
    (h : ∀ i < n, f (s i) i = .ok (s (i + 1))) : (List.range n).foldlM f (s 0) = .ok (s n) := by
  induction n with
  | zero => rfl
  | succ n ih =>
    rw [range_succ, foldlM_append, ih fun i hi => h i (Nat.lt_succ_of_lt hi)]
    simp only [bind, Except.bind, foldlM_cons, foldlM_nil, h n (Nat.lt_succ_self n)]
    rfl

inductive Agree (R : σ → τ → Prop) : Except ε σ → Except ε τ → Prop
  | ok {s : σ} {t : τ} (h : R s t) : Agree R (.ok s) (.ok t)
  | error (e : ε) : Agree R (.error e) (.error e)

variable {R : σ → τ → Prop} {x : Except ε σ} {y : Except ε τ}

theorem Agree.bind {σ' τ' : Type} {R' : σ' → τ' → Prop} {f : σ → Except ε σ'}
    {g : τ → Except ε τ'} (h : Agree R x y) (hf : ∀ s t, R s t → Agree R' (f s) (g t)) :
    Agree R' (x >>= f) (y >>= g) := by
  cases h with
  | ok h => exact hf _ _ h
  | error e => exact .error e

theorem Agree.eq {x y : Except ε σ} (h : Agree (· = ·) x y) : x = y := by
  cases h with
  | ok h => rw [h]
  | error e => rfl

theorem agree_refl : ∀ x : Except ε σ, Agree (· = ·) x x
  | .ok _ => .ok rfl
  | .error e => .error e

theorem Agree.foldlM {f : σ → ι → Except ε σ} {g : τ → ι → Except ε τ} :
    ∀ {l : List ι}, (∀ i ∈ l, ∀ s t, R s t → Agree R (f s i) (g t i)) →
      ∀ {s : σ} {t : τ}, R s t → Agree R (l.foldlM f s) (l.foldlM g t)
  | [], _, s, t, h => .ok h
  | i :: l, hstep, s, t, h => by
    rw [foldlM_cons, foldlM_cons]
    refine (hstep i mem_cons_self s t h).bind fun s' t' h' => ?_
    exact Agree.foldlM (fun j hj => hstep j (mem_cons_of_mem _ hj)) h'

theorem isSome_mapM {α β : Type*} {g : α → Option β} : ∀ xs : List α,
    (xs.mapM g).isSome ↔ ∀ x ∈ xs, (g x).isSome
  | [] => by simp
  | x :: xs => by
    have ih := isSome_mapM (g := g) xs
    rw [mapM_cons, forall_mem_cons, ← ih]
    cases g x <;> cases xs.mapM g <;> simp

theorem length_mapM {α β : Type*} {g : α → Option β} : ∀ {xs : List α} {ys : List β},
    xs.mapM g = some ys → ys.length = xs.length
  | [], ys, h => by
    obtain rfl : [] = ys := Option.some.inj h
    rfl
  | x :: xs, ys, h => by
    rw [mapM_cons, Option.bind_eq_bind, Option.bind_eq_some_iff] at h
    obtain ⟨y, -, h⟩ := h
    rw [Option.bind_eq_bind, Option.bind_eq_some_iff] at h
    obtain ⟨ys', hxs, h⟩ := h
    obtain rfl : y :: ys' = ys := Option.some.inj h
    rw [length_cons, length_cons, length_mapM hxs]

theorem mapM_map {α β γ : Type*} {f : α → Option γ} {g : α → Option β} {k : β → γ} :
    ∀ {xs : List α}, (∀ x ∈ xs, f x = (g x).map k) → xs.mapM f = (xs.mapM g).map (List.map k)
  | [], _ => rfl
  | x :: xs, h => by
    rw [mapM_cons, mapM_cons, h x mem_cons_self,
      mapM_map fun y hy => h y (mem_cons_of_mem x hy)]
    rcases g x with _ | y
    · rfl
    · rcases xs.mapM g with _ | ys <;> rfl

theorem forall₂_of_mapM {α β : Type*} {g : α → Option β} : ∀ {xs : List α} {ys : List β},
    xs.mapM g = some ys ↔ List.Forall₂ (fun x y => g x = some y) xs ys
  | [], ys => by
    constructor
    · intro h
      obtain rfl : [] = ys := Option.some.inj h
      exact .nil
    · rintro ⟨⟩
      rfl
  | x :: xs, ys => by
    rw [mapM_cons]
    constructor
    · intro h
      obtain ⟨y, hx, hrest⟩ := Option.bind_eq_some_iff.1 h
      obtain ⟨ys', hxs, heq⟩ := Option.bind_eq_some_iff.1 hrest
      obtain rfl := Option.some.inj heq
      exact .cons hx (forall₂_of_mapM.1 hxs)
    · rintro (_ | ⟨hx, hxs⟩)
      rw [hx, forall₂_of_mapM.2 hxs]
      rfl

section Picks

variable {α F : Type*}

/-- An order of numbers, in which what is above nothing may be no number. -/
structure Ordered (gt : F → F → Bool) (low : F) : Prop where
  irrefl : ∀ a, ¬gt a a
  trans : ∀ {a b c}, gt a b → gt b c → gt a c
  between : ∀ {a b c}, (b = low ∨ ∃ d, gt b d) → gt a c → gt a b ∨ gt b c

def pick (gt : F → F → Bool) (key : α → F) (top : F × Option α) (x : α) : F × Option α :=
  if gt (key x) top.1 then (key x, some x) else top

variable {gt : F → F → Bool} {key : α → F} {low : F}

theorem foldl_pick_cases (h : Ordered gt low) : ∀ (xs : List α) (top : F × Option α),
    xs.foldl (pick gt key) top = top ∨ ∃ x ∈ xs, xs.foldl (pick gt key) top = (key x, some x) ∧
      gt (key x) top.1
  | [], _ => .inl rfl
  | x :: xs, top => by
    rw [foldl_cons, pick]
    split_ifs with hgt
    · refine .inr ?_
      rcases foldl_pick_cases h xs (key x, some x) with heq | ⟨y, hy, heq, hgt'⟩
      · exact ⟨x, mem_cons_self, heq, hgt⟩
      · exact ⟨y, mem_cons_of_mem x hy, heq, h.trans hgt' hgt⟩
    · rcases foldl_pick_cases h xs top with heq | ⟨y, hy, heq, hgt'⟩
      · exact .inl heq
      · exact .inr ⟨y, mem_cons_of_mem x hy, heq, hgt'⟩

theorem foldl_pick_mem {top : F × Option α} {x : α} : ∀ (xs : List α),
    (xs.foldl (pick gt key) top).2 = some x → top.2 = some x ∨ x ∈ xs
  | [], hx => .inl hx
  | y :: xs, hx => by
    rcases foldl_pick_mem xs hx with hstart | hin
    · rw [pick] at hstart
      split_ifs at hstart
      · obtain rfl := Option.some.inj hstart
        exact .inr mem_cons_self
      · exact .inl hstart
    · exact .inr (mem_cons_of_mem y hin)

theorem foldl_pick_max (h : Ordered gt low) : ∀ {xs : List α} {x : α} (top : F × Option α),
    x ∈ xs → ¬gt (key x) (xs.foldl (pick gt key) top).1
  | y :: xs, x, top, hx => by
    rw [foldl_cons]
    rcases mem_cons.1 hx with rfl | hx
    · have hfirst : ¬gt (key x) (pick gt key top x).1 := by
        rw [pick]
        split_ifs with hgt
        · exact h.irrefl _
        · exact hgt
      rcases foldl_pick_cases h xs (pick gt key top x) with heq | ⟨y, _, heq, hgt⟩
      · rwa [heq]
      · rw [heq]
        exact fun hgt' => hfirst (h.trans hgt' hgt)
    · exact foldl_pick_max h _ hx

theorem foldl_pick_from (h : Ordered gt low) (top : F × Option α) : ∀ (xs : List α)
    (start : F × Option α), (start.1 = low ∨ ∃ d, gt start.1 d) → ¬gt start.1 top.1 →
      xs.foldl (pick gt key) top =
        if gt (xs.foldl (pick gt key) start).1 top.1 then xs.foldl (pick gt key) start else top
  | [], _, _, hle => (if_neg hle).symm
  | x :: xs, start, hnum, hle => by
    rw [foldl_cons, foldl_cons]
    by_cases hgt : gt (key x) top.1
    · have hstart : gt (key x) start.1 := (h.between hnum hgt).resolve_right hle
      rw [pick, if_pos hgt, pick, if_pos hstart, if_pos]
      rcases foldl_pick_cases h xs (key x, some x) with heq | ⟨y, _, heq, hgt'⟩
      · rwa [heq]
      · rw [heq]
        exact h.trans hgt' hgt
    · rw [pick, if_neg hgt]
      by_cases hstart : gt (key x) start.1
      · rw [pick, if_pos hstart]
        exact foldl_pick_from h top xs _ (.inr ⟨_, hstart⟩) hgt
      · rw [pick, if_neg hstart]
        exact foldl_pick_from h top xs _ hnum hle

/-- The first of the highest, above `low`. -/
def highest (gt : F → F → Bool) (key : α → F) (low : F) (xs : List α) : Option α :=
  (xs.foldl (pick gt key) (low, none)).2

theorem highest_eq_some (h : Ordered gt low) {xs : List α} {x : α}
    (hx : highest gt key low xs = some x) :
    x ∈ xs ∧ gt (key x) low ∧ xs.foldl (pick gt key) (low, none) = (key x, some x) := by
  rw [highest] at hx
  rcases foldl_pick_cases h xs (low, none) with heq | ⟨y, hy, heq, hgt⟩
  · rw [heq] at hx
    cases hx
  · rw [heq] at hx
    obtain rfl := Option.some.inj hx
    exact ⟨hy, hgt, heq⟩

theorem highest_eq_none (h : Ordered gt low) {xs : List α} (hx : highest gt key low xs = none) :
    xs.foldl (pick gt key) (low, none) = (low, none) := by
  rw [highest] at hx
  rcases foldl_pick_cases h xs (low, none) with heq | ⟨y, _, heq, _⟩
  · exact heq
  · rw [heq] at hx
    cases hx

def higher (gt : F → F → Bool) (key : α → F) : Option α → Option α → Option α
  | some x, some y => if gt (key y) (key x) then some y else some x
  | some x, none => some x
  | none, y => y

theorem highest_append (h : Ordered gt low) (xs ys : List α) :
    highest gt key low (xs ++ ys) =
      higher gt key (highest gt key low xs) (highest gt key low ys) := by
  rw [highest, foldl_append]
  rcases hx : highest gt key low xs with _ | x
  · rw [highest_eq_none h hx]
    rfl
  · obtain ⟨_, hgt, hfold⟩ := highest_eq_some h hx
    have hle : ¬gt low (key x) := fun hgt' => h.irrefl _ (h.trans hgt hgt')
    rw [hfold, foldl_pick_from h (key x, some x) ys (low, none) (.inl rfl) hle]
    rcases hy : highest gt key low ys with _ | y
    · rw [highest_eq_none h hy, if_neg hle]
      rfl
    · rw [(highest_eq_some h hy).2.2, higher]
      split_ifs <;> rfl

end Picks

end Folds
