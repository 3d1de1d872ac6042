import Grim.Lib.Slice

/-!
# Payloads laid out with filler

Payloads follow one another, each behind as much filler as `pad` asks for at its offset.  Read from
the base they were laid out from, every payload comes back; read from a base further on, the last
one runs over the end; read from one that lies in filler before it, only filler comes back whole.
-/

namespace Layout

open Slice List

variable {α : Type} (pad : ℕ → ℕ) (z : α)

def lay : ℕ → List (List α) → List α
  | _, [] => []
  | cur, p :: ps => List.replicate (pad cur) z ++ (p ++ lay (cur + pad cur + p.length) ps)

def placed : ℕ → List (List α) → List (ℕ × List α)
  | _, [] => []
  | cur, p :: ps => (cur + pad cur, p) :: placed (cur + pad cur + p.length) ps

variable {out front : List α} {base cur : ℕ} {ps : List (List α)}

theorem placed_snd : ∀ (cur : ℕ) (ps : List (List α)), (placed pad cur ps).map Prod.snd = ps
  | _, [] => rfl
  | cur, p :: ps => by rw [placed, map_cons, placed_snd _ ps]

theorem getElem?_slice {xs : List α} {off len j : ℕ} (h : j < len) :
    (slice xs off len)[j]? = xs[off + j]? := by
  rw [slice, getElem?_take_of_lt h, getElem?_drop]

theorem append_lay_cons (front : List α) (cur : ℕ) (p : List α) (ps : List (List α)) :
    front ++ lay pad z cur (p :: ps) = (front ++ (List.replicate (pad cur) z ++ p))
      ++ lay pad z (cur + pad cur + p.length) ps := by
  simp [lay]

theorem slice_placed : ∀ (ps : List (List α)) (front : List α) (cur : ℕ),
    front.length = base + cur → ∀ e ∈ placed pad cur ps,
      slice (front ++ lay pad z cur ps) (base + e.1) e.2.length = e.2 ∧
        base + e.1 + e.2.length ≤ (front ++ lay pad z cur ps).length
  | [], _, _, _ => fun _ he => absurd he (by simp [placed])
  | p :: ps, front, cur, h => by
    intro e he
    rcases mem_cons.1 he with rfl | he
    · have hoff : base + (cur + pad cur) = (front ++ List.replicate (pad cur) z).length := by
        simp [h]
        omega
      have hsplit : front ++ lay pad z cur (p :: ps) =
          (front ++ List.replicate (pad cur) z) ++
            (p ++ lay pad z (cur + pad cur + p.length) ps) := by
        simp [lay]
      rw [hsplit, slice, hoff, drop_left, take_left]
      refine ⟨rfl, ?_⟩
      simp only [length_append]
      omega
    · rw [append_lay_cons]
      refine slice_placed ps _ _ ?_ e he
      simp only [length_append, length_replicate]
      omega

theorem filler_or_placed : ∀ (ps : List (List α)) (front : List α) (cur : ℕ),
    front.length = base + cur → ∀ x, front.length ≤ x →
      x < (front ++ lay pad z cur ps).length →
      (front ++ lay pad z cur ps)[x]? = some z ∨
        ∃ e ∈ placed pad cur ps, base + e.1 ≤ x ∧ x < base + e.1 + e.2.length
  | [], front, _, _, x, hx, hlt => by
    simp [lay] at hlt
    omega
  | p :: ps, front, cur, h, x, hx, hlt => by
    by_cases hpad : x < front.length + pad cur
    · refine .inl ?_
      rw [lay, getElem?_append_right hx, getElem?_append_left (by simp; omega)]
      rw [getElem?_replicate_of_lt (by omega)]
    by_cases hin : x < front.length + pad cur + p.length
    · have hle : base + (cur + pad cur) ≤ x ∧ x < base + (cur + pad cur) + p.length := by omega
      exact .inr ⟨(cur + pad cur, p), mem_cons_self, hle⟩
    · have hlen : (front ++ (List.replicate (pad cur) z ++ p)).length =
          base + (cur + pad cur + p.length) := by
        simp only [length_append, length_replicate]
        omega
      rw [append_lay_cons] at hlt ⊢
      rcases filler_or_placed ps _ _ hlen x (by omega) hlt with hz | ⟨e, he, hle⟩
      · exact .inl hz
      · exact .inr ⟨e, mem_cons_of_mem _ he, hle⟩

theorem exists_last : ∀ (ps : List (List α)) (front : List α) (cur : ℕ),
    front.length = base + cur → ps ≠ [] → ∃ e ∈ placed pad cur ps,
      base + e.1 + e.2.length = (front ++ lay pad z cur ps).length
  | [], _, _, _, hne => absurd rfl hne
  | [p], front, cur, h, _ => by
    refine ⟨_, mem_cons_self, ?_⟩
    simp only [lay, length_append, length_replicate, length_nil]
    omega
  | p :: q :: ps, front, cur, h, _ => by
    have hlen : (front ++ (List.replicate (pad cur) z ++ p)).length =
        base + (cur + pad cur + p.length) := by
      simp only [length_append, length_replicate]
      omega
    obtain ⟨e, he, hend⟩ := exists_last (q :: ps) _ _ hlen (by simp)
    exact ⟨e, mem_cons_of_mem _ he, by rw [append_lay_cons]; exact hend⟩

variable {pad} in
theorem mem_of_placed {e : ℕ × List α} (he : e ∈ placed pad cur ps) : e.2 ∈ ps := by
  rw [← placed_snd pad cur ps]
  exact mem_map.2 ⟨e, he, rfl⟩

section Bases

variable (hfront : front.length = base)

include hfront

theorem getElem?_placed {e : ℕ × List α} (he : e ∈ placed pad 0 ps) {j : ℕ} (hj : j < e.2.length) :
    (front ++ lay pad z 0 ps)[base + e.1 + j]? = e.2[j]? := by
  obtain ⟨hown, -⟩ := slice_placed pad z ps front 0 hfront e he
  conv_rhs => rw [← hown]
  rw [getElem?_slice hj]

theorem filler_or_payload {x : ℕ} (hx : base ≤ x) (hlt : x < (front ++ lay pad z 0 ps).length) :
    (front ++ lay pad z 0 ps)[x]? = some z ∨ ∃ e ∈ placed pad 0 ps, ∃ j < e.2.length,
      x = base + e.1 + j ∧ (front ++ lay pad z 0 ps)[x]? = e.2[j]? := by
  rcases filler_or_placed pad z ps front 0 hfront x (by omega) hlt with hfill | ⟨e, he, h1, h2⟩
  · exact .inl hfill
  · obtain ⟨j, rfl⟩ : ∃ j, x = base + e.1 + j := ⟨x - (base + e.1), by omega⟩
    have hj : j < e.2.length := by omega
    exact .inr ⟨e, he, j, hj, rfl, getElem?_placed pad z hfront he hj⟩

variable {start : ℕ}

theorem over_the_end (hne : ps ≠ []) (h : base < start) :
    ∃ e ∈ placed pad 0 ps, (front ++ lay pad z 0 ps).length < start + e.1 + e.2.length := by
  obtain ⟨e, he, hend⟩ := exists_last pad z ps front 0 hfront hne
  exact ⟨e, he, by omega⟩

/-- From `start` on there is nothing but filler. -/
def Filled (z : α) (out : List α) (start : ℕ) : Prop :=
  ∀ x, start ≤ x → x < out.length → out[x]? = some z

variable {z} in
omit hfront in
theorem Filled.slice_eq (hall : Filled z out start) (off len : ℕ) (h : start ≤ off)
    (hend : off + len ≤ out.length) : slice out off len = List.replicate len z := by
  refine ext_getElem? fun j => ?_
  by_cases hj : j < len
  · rw [getElem?_slice hj, hall _ (by omega) (by omega), getElem?_replicate_of_lt hj]
  · rw [getElem?_eq_none (by rw [length_slice]; omega), getElem?_eq_none (by simp; omega)]

variable (hz : ∀ x, start ≤ x → x < base → front[x]? = some z)

include hz

theorem filled_of_payloads (hzero : ∀ p ∈ ps, ∀ b ∈ p, b = z) :
    Filled z (front ++ lay pad z 0 ps) start := by
  intro x hle hlt
  by_cases hx : x < base
  · rw [getElem?_append_left (by omega)]
    exact hz x hle hx
  rcases filler_or_payload pad z hfront (by omega) hlt with hfill | ⟨e, he, j, hj, -, hat⟩
  · exact hfill
  · rw [hat, getElem?_eq_getElem hj, hzero e.2 (mem_of_placed he) _ (getElem_mem hj)]

theorem filled_of_shifted (h : start < base)
    (hsame : ∀ e ∈ placed pad 0 ps,
      slice (front ++ lay pad z 0 ps) (start + e.1) e.2.length = e.2) :
    Filled z (front ++ lay pad z 0 ps) start := by
  intro x
  induction x using Nat.strong_induction_on with
  | _ x ih =>
    intro hle hlt
    by_cases hx : x < base
    · rw [getElem?_append_left (by omega)]
      exact hz x hle hx
    rcases filler_or_payload pad z hfront (by omega) hlt with hfill | ⟨e, he, j, hj, rfl, hat⟩
    · exact hfill
    · have hback : e.2[j]? = (front ++ lay pad z 0 ps)[start + e.1 + j]? := by
        conv_lhs => rw [← hsame e he]
        rw [getElem?_slice hj]
      rw [hat, hback]
      exact ih _ (by omega) (by omega) (by omega)

theorem slice_shifted_iff (h : start < base) :
    (∀ e ∈ placed pad 0 ps,
      slice (front ++ lay pad z 0 ps) (start + e.1) e.2.length = e.2) ↔
      ∀ p ∈ ps, ∀ b ∈ p, b = z := by
  constructor
  · intro hsame p hp b hb
    have hall := filled_of_shifted pad z hfront hz h hsame
    rw [← placed_snd pad 0 ps] at hp
    obtain ⟨e, he, rfl⟩ := mem_map.1 hp
    obtain ⟨-, hend⟩ := slice_placed pad z ps front 0 hfront e he
    have hfill := hall.slice_eq (start + e.1) e.2.length (by omega) (by omega)
    rw [hsame e he] at hfill
    rw [hfill] at hb
    exact eq_of_mem_replicate hb
  · intro hzero e he
    have hall := filled_of_payloads pad z hfront hz hzero
    obtain ⟨-, hend⟩ := slice_placed pad z ps front 0 hfront e he
    rw [hall.slice_eq _ _ (by omega) (by omega)]
    exact (eq_replicate_of_mem (hzero e.2 (mem_of_placed he))).symm

end Bases

end Layout
