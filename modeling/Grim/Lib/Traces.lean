import Mathlib.Data.List.Infix

/-!
# Runs by their calls

A run of a step function `step : σ → ι → Option σ` as the list of its calls.  `Along` says something
of each step a run takes.  Where the steps that are good keep an invariant and a relation `P`, and a
step that is not good breaks `P`, a run has `P` at each step exactly if each of its steps is good
(`along_iff_good`).
-/

namespace Steps

variable {σ ι : Type*}

def run (step : σ → ι → Option σ) : σ → List ι → Option σ
  | s, [] => some s
  | s, i :: is => (step s i).bind fun s' => run step s' is

/-- `P` holds of each step of a run. -/
def Along (step : σ → ι → Option σ) (P : σ → ι → σ → Prop) : σ → List ι → Prop
  | _, [] => True
  | s, i :: is => ∀ s', step s i = some s' → P s i s' ∧ Along step P s' is

instance Along.decidable (step : σ → ι → Option σ) (P : σ → ι → σ → Prop)
    [∀ s i s', Decidable (P s i s')] : ∀ s is, Decidable (Along step P s is)
  | _, [] => isTrue trivial
  | s, i :: is =>
    match hs : step s i with
    | none => isTrue fun t ht => by rw [hs] at ht; cases ht
    | some t =>
      have := Along.decidable step P t is
      decidable_of_iff (P s i t ∧ Along step P t is)
        ⟨fun h _ ht => Option.some.inj (hs.symm.trans ht) ▸ h, fun h => h t hs⟩

variable {step : σ → ι → Option σ} {s s' : σ} {is : List ι}

theorem Along.of_append {P : σ → ι → σ → Prop} {is' : List ι} :
    ∀ {is s}, Along step P s (is ++ is') → run step s is = some s' → Along step P s' is'
  | [], _, h, hrun => by
    obtain rfl := Option.some.inj hrun
    exact h
  | i :: is, s, h, hrun => by
    obtain ⟨t, ht, hrun⟩ := Option.bind_eq_some_iff.1 hrun
    exact (h t ht).2.of_append hrun

theorem Along.left {P : σ → ι → σ → Prop} {is' : List ι} :
    ∀ {is s}, Along step P s (is ++ is') → Along step P s is
  | [], _, _ => trivial
  | _ :: _, _, h => fun t ht => ⟨(h t ht).1, (h t ht).2.left⟩

section Preorder

variable {R : σ → σ → Prop} (hrefl : ∀ s, R s s) (htrans : ∀ {s t u}, R s t → R t u → R s u)

include hrefl htrans

theorem Along.related :
    ∀ {is s}, Along step (fun s _ s' => R s s') s is → run step s is = some s' → R s s'
  | [], _, _, hrun => by
    obtain rfl := Option.some.inj hrun
    exact hrefl _
  | i :: is, s, h, hrun => by
    obtain ⟨t, ht, hrun⟩ := Option.bind_eq_some_iff.1 hrun
    exact htrans (h t ht).1 ((h t ht).2.related hrun)

theorem along_iff_related : Along step (fun s _ s' => R s s') s is ↔
    ∀ as bs cs, is = as ++ (bs ++ cs) → ∀ s₁, run step s as = some s₁ →
      ∀ s₂, run step s₁ bs = some s₂ → R s₁ s₂ := by
  refine ⟨fun h as bs cs his s₁ h₁ s₂ h₂ => ?_, fun h => ?_⟩
  · subst his
    exact (h.of_append h₁).left.related hrefl htrans h₂
  · induction is generalizing s with
    | nil => trivial
    | cons i is ih =>
      refine fun t ht => ⟨h [] [i] is rfl s rfl t ?_, ih fun as bs cs his s₁ h₁ s₂ h₂ => ?_⟩
      · rw [run, ht]
        rfl
      · refine h (i :: as) bs cs (by rw [his, List.cons_append]) s₁ ?_ s₂ h₂
        rw [run, ht]
        exact h₁

end Preorder

theorem along_iff_states (Q : σ → Prop) (h0 : Q s) : Along step (fun _ _ s' => Q s') s is ↔
    ∀ as bs, is = as ++ bs → ∀ s', run step s as = some s' → Q s' := by
  induction is generalizing s with
  | nil =>
    refine ⟨fun _ as bs his s' hrun => ?_, fun _ => trivial⟩
    obtain ⟨rfl, rfl⟩ := List.append_eq_nil_iff.1 his.symm
    obtain rfl := Option.some.inj hrun
    exact h0
  | cons i is ih =>
    refine ⟨fun h as bs his s' hrun => ?_, fun h t ht => ?_⟩
    · cases as with
      | nil =>
        obtain rfl := Option.some.inj hrun
        exact h0
      | cons a as =>
        obtain ⟨rfl, rfl⟩ := List.cons.inj his
        obtain ⟨t, ht, hrun⟩ := Option.bind_eq_some_iff.1 hrun
        exact (ih (h t ht).1).1 (h t ht).2 as bs rfl s' hrun
    · have hone : Q t := h [i] is rfl t (by rw [run, ht]; rfl)
      refine ⟨hone, (ih hone).2 fun as bs his s' hrun => ?_⟩
      refine h (i :: as) bs (by rw [his, List.cons_append]) s' ?_
      rw [run, ht]
      exact hrun

theorem Along.of_good {I : σ → Prop} {good : σ → ι → Prop} {P : σ → ι → σ → Prop}
    (hgood : ∀ s i s', I s → step s i = some s' → good s i → I s' ∧ P s i s') :
    ∀ {is s}, I s → Along step (fun s i _ => good s i) s is → Along step P s is
  | [], _, _, _ => trivial
  | i :: _, s, h0, h => fun t ht =>
    have ⟨hI, hP⟩ := hgood s i t h0 ht (h t ht).1
    ⟨hP, .of_good hgood hI (h t ht).2⟩

theorem along_iff_good {I : σ → Prop} {good : σ → ι → Prop} {P : σ → ι → σ → Prop}
    (hgood : ∀ s i s', I s → step s i = some s' → good s i → I s' ∧ P s i s')
    (hbad : ∀ s i s', I s → step s i = some s' → ¬good s i → ¬P s i s') (h0 : I s) :
    Along step P s is ↔ Along step (fun s i _ => good s i) s is := by
  induction is generalizing s with
  | nil => exact Iff.rfl
  | cons i is ih =>
    refine forall₂_congr fun t ht => ?_
    by_cases hg : good s i
    · obtain ⟨hI, hP⟩ := hgood s i t h0 ht hg
      exact and_congr (iff_of_true hP hg) (ih hI)
    · exact iff_of_false (fun h => hbad s i t h0 ht hg h.1) fun h => hg h.1

end Steps
