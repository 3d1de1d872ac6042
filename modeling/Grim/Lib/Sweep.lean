import Mathlib.Tactic

/-!
# Passes over the keys of a state

A pass calls a step for each of a list of distinct keys.  When the step for a key reads and writes
that key's part of the state only (`Local`), the pass takes every part where the step would take
it alone, in any order (`Local.sweep`).
-/

namespace Sweep

open List

variable {σ κ γ ρ : Type*}

/-- The step `f` for a key does to the key's own part what `g` says, from what it finds there and
from what no step changes, and leaves every other part. -/
structure Local (view : σ → κ → γ) (fixed : σ → ρ) (f : σ → κ → Option σ)
    (g : ρ → κ → γ → Option γ) : Prop where
  step : ∀ {s k c}, g (fixed s) k (view s k) = some c →
    ∃ s', f s k = some s' ∧ fixed s' = fixed s ∧ view s' k = c ∧ ∀ j, j ≠ k → view s' j = view s j

variable {view : σ → κ → γ} {fixed : σ → ρ} {f : σ → κ → Option σ} {g : ρ → κ → γ → Option γ}

theorem Local.sweep (h : Local view fixed f g) {c : κ → γ} :
    ∀ {ks : List κ} {s : σ}, ks.Nodup → (∀ k ∈ ks, g (fixed s) k (view s k) = some (c k)) →
      ∃ s', ks.foldlM f s = some s' ∧ fixed s' = fixed s ∧ (∀ k ∈ ks, view s' k = c k) ∧
        ∀ j, j ∉ ks → view s' j = view s j
  | [], s, _, _ => ⟨s, rfl, rfl, by simp, fun _ _ => rfl⟩
  | k :: ks, s, hnodup, hall => by
    obtain ⟨hk, hks⟩ := nodup_cons.1 hnodup
    obtain ⟨s₁, hstep, hfixed, hview, hframe⟩ := h.step (hall k mem_cons_self)
    have hrest : ∀ j ∈ ks, g (fixed s₁) j (view s₁ j) = some (c j) := fun j hj => by
      rw [hfixed, hframe j (by rintro rfl; exact hk hj)]
      exact hall j (mem_cons_of_mem _ hj)
    obtain ⟨s₂, hrun, hfixed₂, hview₂, hframe₂⟩ := h.sweep hks hrest
    refine ⟨s₂, ?_, hfixed₂.trans hfixed, fun j hj => ?_, fun j hj => ?_⟩
    · rw [foldlM_cons, hstep]
      exact hrun
    · rcases mem_cons.1 hj with rfl | hj
      · rw [hframe₂ j hk, hview]
      · exact hview₂ j hj
    · rw [mem_cons, not_or] at hj
      rw [hframe₂ j hj.2, hframe j hj.1]

theorem Local.exists_of_sweep (h : Local view fixed f g)
    (hnone : ∀ s k, g (fixed s) k (view s k) = none → f s k = none) :
    ∀ {ks : List κ} {s s' : σ}, ks.Nodup → ks.foldlM f s = some s' →
      ∀ k ∈ ks, ∃ c, g (fixed s) k (view s k) = some c
  | [], _, _, _, _ => fun _ hk => absurd hk not_mem_nil
  | k :: ks, s, s', hnodup, hrun => by
    obtain ⟨hk, hks⟩ := nodup_cons.1 hnodup
    rw [foldlM_cons] at hrun
    obtain ⟨s₁, hstep, hrest⟩ := Option.bind_eq_some_iff.1 hrun
    rcases hc : g (fixed s) k (view s k) with _ | c
    · rw [hnone s k hc] at hstep
      exact nomatch hstep
    · obtain ⟨s₂, hs₂, hfixed, -, hframe⟩ := h.step hc
      obtain rfl : s₂ = s₁ := Option.some.inj (hs₂.symm.trans hstep)
      refine forall_mem_cons.2 ⟨⟨c, hc⟩, fun j hj => ?_⟩
      obtain ⟨d, hd⟩ := h.exists_of_sweep hnone hks hrest j hj
      rw [hfixed, hframe j (by rintro rfl; exact hk hj)] at hd
      exact ⟨d, hd⟩

section Writes

variable {α ι : Type*} {out : List α} {v : α} {p : ℕ}

def writes (out : List α) (ws : List (ℕ × α)) : List α :=
  ws.foldl (fun out w => out.set w.1 w.2) out

@[simp] theorem writes_nil : writes out [] = out := rfl

@[simp] theorem writes_cons (w : ℕ × α) (ws : List (ℕ × α)) :
    writes out (w :: ws) = writes (out.set w.1 w.2) ws := rfl

@[simp] theorem length_writes : ∀ (ws : List (ℕ × α)) (out : List α),
    (writes out ws).length = out.length
  | [], _ => rfl
  | w :: ws, out => by rw [writes_cons, length_writes ws, length_set]

theorem getElem?_writes_of_notMem : ∀ {ws : List (ℕ × α)} {out : List α},
    (∀ w ∈ ws, w.1 ≠ p) → (writes out ws)[p]? = out[p]?
  | [], _, _ => rfl
  | w :: ws, out, h => by
    rw [writes_cons, getElem?_writes_of_notMem fun w' hw' => h w' (mem_cons_of_mem _ hw'),
      getElem?_set_ne (h w mem_cons_self)]

theorem getElem?_writes_of_mem : ∀ {ws : List (ℕ × α)} {out : List α},
    (p, v) ∈ ws → (∀ w ∈ ws, w.1 = p → w.2 = v) → p < out.length → (writes out ws)[p]? = some v
  | w :: ws, out, hmem, hsame, hlt => by
    rw [writes_cons]
    by_cases hlater : ∃ w' ∈ ws, w'.1 = p
    · obtain ⟨w', hw', hp⟩ := hlater
      have hv := hsame w' (mem_cons_of_mem _ hw') hp
      have hpv : (p, v) ∈ ws := by
        rw [← hp, ← hv]
        exact hw'
      exact getElem?_writes_of_mem hpv (fun w' hw' => hsame w' (mem_cons_of_mem _ hw'))
        (by rwa [length_set])
    · have hlast : (p, v) = w := (mem_cons.1 hmem).resolve_right fun h => hlater ⟨_, h, rfl⟩
      subst hlast
      rw [getElem?_writes_of_notMem fun w' hw' hp => hlater ⟨w', hw', hp⟩,
        getElem?_set_self hlt]

theorem writes_append (out : List α) (ws ws' : List (ℕ × α)) :
    writes out (ws ++ ws') = writes (writes out ws) ws' := foldl_append

/-- `out[p] = v`, which fails behind the end. -/
def store (out : List α) (p : ℕ) (v : α) : Option (List α) :=
  if p < out.length then some (out.set p v) else none

theorem store_eq (h : p < out.length) : store out p v = some (writes out [(p, v)]) := if_pos h

theorem foldlM_writes {f : List α → ι → Option (List α)} {ws : ι → List (ℕ × α)} {n : ℕ} :
    ∀ {is : List ι} {out : List α}, out.length = n →
      (∀ i ∈ is, ∀ out : List α, out.length = n → f out i = some (writes out (ws i))) →
        is.foldlM f out = some (writes out (is.flatMap ws))
  | [], _, _, _ => rfl
  | i :: is, out, hlen, hstep => by
    rw [foldlM_cons, hstep i mem_cons_self out hlen, Option.bind_eq_bind,
      Option.bind_some, foldlM_writes (by rwa [length_writes]) fun j hj =>
        hstep j (mem_cons_of_mem i hj), flatMap_cons, writes_append]

theorem foldlM_pieces {f : List α → ι → Option (List α)} {g : ι → List α} :
    ∀ {is : List ι} {out : List α}, (∀ i ∈ is, ∀ out, f out i = some (out ++ g i)) →
      is.foldlM f out = some (out ++ is.flatMap g)
  | [], out, _ => by rw [flatMap_nil, append_nil]; rfl
  | i :: is, out, hstep => by
    rw [foldlM_cons, hstep i mem_cons_self, Option.bind_eq_bind, Option.bind_some,
      foldlM_pieces fun j hj => hstep j (mem_cons_of_mem i hj), flatMap_cons,
      append_assoc]

theorem getElem?_flatMap_range {f : ℕ → List α} {k i g : ℕ} (hf : ∀ g, (f g).length = k)
    (hi : i < k) : ∀ {n : ℕ}, g < n → ((List.range n).flatMap f)[g * k + i]? = (f g)[i]?
  | 0, hg => absurd hg (Nat.not_lt_zero g)
  | n + 1, hg => by
    have hlen : ((List.range n).flatMap f).length = n * k := by
      simp [length_flatMap, hf]
    rw [range_succ, flatMap_append, flatMap_singleton]
    rcases Nat.lt_succ_iff_lt_or_eq.1 hg with hg | rfl
    · have hle : (g + 1) * k ≤ n * k := Nat.mul_le_mul_right k hg
      rw [getElem?_append_left (by rw [hlen]; linarith), getElem?_flatMap_range hf hi hg]
    · rw [getElem?_append_right (by omega), hlen, Nat.add_sub_cancel_left]

theorem length_flatMap_range {f : ℕ → List α} {k : ℕ} (hf : ∀ g, (f g).length = k) (n : ℕ) :
    ((List.range n).flatMap f).length = n * k := by
  simp [length_flatMap, hf]

end Writes

end Sweep
