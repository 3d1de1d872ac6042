import Grim.Lib.Chop

/-!
# Regular expressions

Patterns as a backtracking matcher reads them: of two alternatives the first is preferred, and of
repetitions the longest.  `rests` has what is left of the input behind each match, the preferred
first, and `Successive` the matches that are found in a text one after another.
-/

inductive Regex (α : Type*)
  | empty
  | one (p : α → Bool)
  | seq (r s : Regex α)
  | alt (r s : Regex α)
  | star (r : Regex α)
  | notAhead (r : Regex α)

namespace Regex

open List

variable {α : Type*}

def repeats (f : List α → List (List α)) : ℕ → List α → List (List α)
  | 0, xs => [xs]
  | n + 1, xs => ((f xs).filter fun ys => ys.length < xs.length).flatMap (repeats f n) ++ [xs]

def rests : Regex α → List α → List (List α)
  | empty, xs => [xs]
  | one _, [] => []
  | one p, x :: xs => if p x then [xs] else []
  | seq r s, xs => (rests r xs).flatMap (rests s)
  | alt r s, xs => rests r xs ++ rests s xs
  | star r, xs => repeats (rests r) xs.length xs
  | notAhead r, xs => if rests r xs = [] then [xs] else []

def rest (r : Regex α) (xs : List α) : Option (List α) := (r.rests xs).head?

def never : Regex α := one fun _ => false

def opt (r : Regex α) : Regex α := alt r empty

def plus (r : Regex α) : Regex α := seq r (star r)

def choice (rs : List (Regex α)) : Regex α := rs.foldr alt never

def literal [DecidableEq α] (w : List α) : Regex α :=
  w.foldr (fun a r => seq (one fun b => decide (b = a)) r) empty

variable {r s : Regex α} {p : α → Bool}

theorem rests_seq (r s : Regex α) (xs : List α) :
    (seq r s).rests xs = (r.rests xs).flatMap s.rests := rfl

theorem rests_alt (r s : Regex α) (xs : List α) :
    (alt r s).rests xs = r.rests xs ++ s.rests xs := rfl

theorem rests_one_cons (p : α → Bool) (x : α) (xs : List α) :
    (one p).rests (x :: xs) = if p x then [xs] else [] := rfl

theorem rests_notAhead (r : Regex α) (xs : List α) :
    (notAhead r).rests xs = if r.rests xs = [] then [xs] else [] := rfl

theorem rest_seq (r s : Regex α) (xs : List α) :
    (seq r s).rest xs = (r.rests xs).findSome? s.rest := by
  rw [rest, rests_seq, head?_flatMap]
  rfl

theorem rest_alt (r s : Regex α) (xs : List α) :
    (alt r s).rest xs = (r.rest xs).or (s.rest xs) := by
  rw [rest, rests_alt, head?_append]
  rfl

theorem rest_choice (rs : List (Regex α)) (xs : List α) :
    (choice rs).rest xs = rs.findSome? fun r => r.rest xs := by
  induction rs with
  | nil => cases xs <;> rfl
  | cons r rs ih =>
    rw [choice, foldr_cons, rest_alt, findSome?_cons]
    change (r.rest xs).or ((choice rs).rest xs) = _
    rw [ih]
    rcases r.rest xs with _ | ys <;> rfl

theorem rest_literal [DecidableEq α] : ∀ (w xs : List α),
    (literal w).rest xs = if w.isPrefixOf xs then some (xs.drop w.length) else none
  | [], xs => rfl
  | a :: w, [] => rfl
  | a :: w, x :: xs => by
    change (seq (one fun b => decide (b = a)) (literal w)).rest (x :: xs) = _
    rw [rest_seq, rests_one_cons, List.isPrefixOf]
    by_cases hx : x = a
    · subst hx
      simp [rest_literal w xs]
    · simp [hx, Ne.symm hx]

theorem rests_star_one_cons (p : α → Bool) (x : α) (xs : List α) :
    (star (one p)).rests (x :: xs) =
      if p x then (star (one p)).rests xs ++ [x :: xs] else [x :: xs] := by
  change repeats (one p).rests (xs.length + 1) (x :: xs) =
    if p x then repeats (one p).rests xs.length xs ++ [x :: xs] else [x :: xs]
  rw [repeats, rests_one_cons]
  by_cases hx : p x
  · rw [if_pos hx, if_pos hx]
    simp
  · rw [if_neg hx, if_neg hx]
    rfl

theorem rest_star_one (p : α → Bool) : ∀ xs : List α,
    (star (one p)).rest xs = some (xs.dropWhile p)
  | [] => rfl
  | x :: xs => by
    rw [rest, rests_star_one_cons, dropWhile_cons]
    split_ifs
    · have ih := rest_star_one p xs
      rw [rest] at ih
      rw [head?_append, ih]
      rfl
    · rfl

theorem rest_plus_one (p : α → Bool) (x : α) (xs : List α) :
    (plus (one p)).rest (x :: xs) = if p x then some (xs.dropWhile p) else none := by
  rw [plus, rest_seq, rests_one_cons]
  split_ifs
  · rw [findSome?_singleton, rest_star_one]
  · rfl

theorem rest_notAhead_one (p : α → Bool) (xs : List α) :
    (notAhead (one p)).rest xs = if xs.head?.any p then none else some xs := by
  rcases xs with _ | ⟨x, xs⟩
  · rfl
  · rw [rest, rests_notAhead, rests_one_cons, head?_cons, Option.any_some]
    by_cases hx : p x = true <;> simp [hx]

/-- The matches in a text: each is the leftmost behind the one before, and none is empty. -/
inductive Successive (r : Regex α) : List α → List (List α) → Prop
  | last {xs : List α} (h : ∀ ys, ys <:+ xs → r.rest ys = none) : Successive r xs []
  | next {before found after : List α} {ms : List (List α)}
      (hbefore : ∀ ys, ys <:+ before → ys ≠ [] → r.rest (ys ++ (found ++ after)) = none)
      (hfound : r.rest (found ++ after) = some after) (hne : found ≠ [])
      (hms : Successive r after ms) : Successive r (before ++ (found ++ after)) (found :: ms)

theorem Successive.unique {xs : List α} {ms ms' : List (List α)} (h : Successive r xs ms)
    (h' : Successive r xs ms') : ms = ms' := by
  -- of two places where something is found neither is before the other
  have hplace : ∀ {before before' found after rest' : List α},
      r.rest (found ++ after) = some after →
      (∀ ys, ys <:+ before' → ys ≠ [] → r.rest (ys ++ rest') = none) →
      before ++ (found ++ after) = before' ++ rest' → before.length < before'.length → False := by
    intro before before' found after rest' hfound hbefore' heq hlt
    rcases append_eq_append_iff.1 heq with ⟨t, rfl, ht⟩ | ⟨t, rfl, -⟩
    · have hne : t ≠ [] := by
        rintro rfl
        simp at hlt
      have hnone := hbefore' t (suffix_append before t) hne
      rw [← ht, hfound] at hnone
      cases hnone
    · rw [length_append] at hlt
      omega
  induction h generalizing ms' with
  | last hnone =>
    cases h' with
    | last _ => rfl
    | next _ hfound _ _ =>
      rw [hnone _ (suffix_append _ _)] at hfound
      cases hfound
  | @next before found after ms hbefore hfound hne hms ih =>
    generalize htext : before ++ (found ++ after) = text at h'
    cases h' with
    | last hnone =>
      subst htext
      rw [hnone _ (suffix_append _ _)] at hfound
      cases hfound
    | @next before' found' after' ms' hbefore' hfound' hne' hms' =>
      have hlen : before.length = before'.length := by
        rcases lt_trichotomy before.length before'.length with hlt | heq | hlt
        · exact (hplace hfound hbefore' htext hlt).elim
        · exact heq
        · exact (hplace hfound' hbefore htext.symm hlt).elim
      obtain ⟨rfl, htail⟩ := append_inj htext hlen
      rw [htail, hfound'] at hfound
      obtain rfl := Option.some.inj hfound
      rw [append_cancel_right htail, ih hms']

theorem successive_chop {len : List α → ℕ} (hpos : Chop.Progress len) (hnil : r.rest [] = none)
    (hlen : ∀ x xs, r.rest (x :: xs) = some ((x :: xs).drop (len (x :: xs)))) :
    ∀ (n : ℕ) {xs : List α}, xs.length ≤ n → Successive r xs (Chop.chop len xs)
  | _, [], _ => .last fun ys hys => by rw [suffix_nil.1 hys, hnil]
  | n + 1, x :: xs, h => by
    have hone := hpos.pos x xs
    have hfit := hpos.le (x :: xs)
    have hsplit := take_append_drop (len (x :: xs)) (x :: xs)
    have hshort : ((x :: xs).drop (len (x :: xs))).length ≤ n := by
      rw [length_drop]
      omega
    have hnext : Successive r ([] ++ ((x :: xs).take (len (x :: xs)) ++
        (x :: xs).drop (len (x :: xs)))) ((x :: xs).take (len (x :: xs)) ::
          Chop.chop len ((x :: xs).drop (len (x :: xs)))) := by
      refine .next (fun ys hys hne => absurd (suffix_nil.1 hys) hne) ?_ ?_
        (successive_chop hpos hnil hlen n hshort)
      · rw [hsplit]
        exact hlen x xs
      · rw [Ne, take_eq_nil_iff]
        simp only [reduceCtorEq, or_false]
        omega
    rwa [nil_append, hsplit, ← Chop.chop_cons hpos] at hnext

end Regex
