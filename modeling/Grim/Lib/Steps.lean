import Mathlib.Tactic

/-!
# Runs of a step function

A component is a step function `step : σ → ι → Option σ`; `none` is a call that does not return.
What holds at the start and is kept by every step the guard lets through holds of every state
reached (`Reach.invariant`).
-/

namespace Steps

variable {σ ι : Type*} {step : σ → ι → Option σ} {ok : σ → ι → Prop} {s₀ s s' : σ}

/-- The states reached from `s₀` by calls the guard `ok` lets through. -/
inductive Reach (step : σ → ι → Option σ) (ok : σ → ι → Prop) (s₀ : σ) : σ → Prop
  | start : Reach step ok s₀ s₀
  | next {s s' : σ} (i : ι) : Reach step ok s₀ s → ok s i → step s i = some s' →
      Reach step ok s₀ s'

theorem Reach.invariant {I : σ → Prop} (h0 : I s₀)
    (hstep : ∀ s i s', I s → ok s i → step s i = some s' → I s') :
    Reach step ok s₀ s → I s := by
  intro h
  induction h with
  | start => exact h0
  | next i _ hok hs ih => exact hstep _ i _ ih hok hs

/-- The state a list of calls leads to, if the guard lets each of them through. -/
def exec (step : σ → ι → Option σ) (ok : σ → ι → Prop) [∀ s i, Decidable (ok s i)] :
    σ → List ι → Option σ
  | s, [] => some s
  | s, i :: is => if ok s i then (step s i).bind fun s' => exec step ok s' is else none

theorem Reach.exec_of [∀ s i, Decidable (ok s i)] (is : List ι) :
    ∀ {s s' : σ}, Reach step ok s₀ s → exec step ok s is = some s' → Reach step ok s₀ s' := by
  induction is with
  | nil =>
    intro s s' h he
    simp only [exec, Option.some.injEq] at he
    exact he ▸ h
  | cons i is ih =>
    intro s s' h he
    simp only [exec] at he
    split_ifs at he with hok
    obtain ⟨t, ht, he⟩ := Option.bind_eq_some_iff.mp he
    exact ih (h.next i hok ht) he

theorem reach_of_exec [∀ s i, Decidable (ok s i)] {is : List ι}
    (h : exec step ok s₀ is = some s) : Reach step ok s₀ s :=
  Reach.exec_of is .start h

end Steps
