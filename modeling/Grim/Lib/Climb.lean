import Grim.Lib.Fuel

/-!
# Climbing on a budget

Items stand on tiers, from the first item on.  A pass goes through them and lets each climb a tier
where what it costs still fits the limit; passes are made until one changes nothing.  No item then
stands higher than one before it, the limit is kept, and none could climb for what is left.
-/

namespace Climb

open List

variable {K : Type*} [AddCommGroup K] [LinearOrder K]

/-- The costs of climbing from the tiers; from the top there is none. -/
structure Tiers (K : Type*) [AddCommGroup K] [LinearOrder K] where
  cost : ℕ → Option K
  top : ℕ
  pos : ∀ i c, cost i = some c → 0 ≤ c
  below : ∀ i c, cost i = some c → i < top

variable (t : Tiers K) (limit : K)

def one (i : ℕ) (spent : K) : ℕ × K :=
  match t.cost i with
  | none => (i, spent)
  | some c => if limit < spent + c then (i, spent) else (i + 1, spent + c)

def pass : List ℕ → K → List ℕ × K
  | [], spent => ([], spent)
  | i :: is, spent =>
    let first := one t limit i spent
    let rest := pass is first.2
    (first.1 :: rest.1, rest.2)

def loop : ℕ → List ℕ → K → Option (List ℕ × K)
  | 0, _, _ => none
  | n + 1, is, spent =>
    let next := pass t limit is spent
    if next.1 = is then some next else loop n next.1 next.2

def Stuck (i : ℕ) (spent : K) : Prop := ∀ c, t.cost i = some c → limit < spent + c

variable {t limit} {i : ℕ} {is : List ℕ} {spent spent' : K}

theorem one_cases (t : Tiers K) (limit : K) (i : ℕ) (spent : K) :
    one t limit i spent = (i, spent) ∧ Stuck t limit i spent ∨
      ∃ c, t.cost i = some c ∧ spent + c ≤ limit ∧ one t limit i spent = (i + 1, spent + c) := by
  rw [one]
  rcases hcost : t.cost i with _ | c
  · refine .inl ⟨rfl, fun c hc => ?_⟩
    rw [hcost] at hc
    cases hc
  · dsimp only
    split_ifs with hlimit
    · refine .inl ⟨rfl, fun c' hc => ?_⟩
      rw [hcost] at hc
      exact Option.some.inj hc ▸ hlimit
    · exact .inr ⟨c, rfl, not_lt.1 hlimit, rfl⟩

theorem length_pass : ∀ (is : List ℕ) (spent : K), (pass t limit is spent).1.length = is.length
  | [], _ => rfl
  | _ :: is, _ => congrArg (· + 1) (length_pass is _)

theorem sum_pass {w : ℕ → K} (hw : ∀ i c, t.cost i = some c → w (i + 1) = w i + c) :
    ∀ (is : List ℕ) (spent : K),
      (pass t limit is spent).2 + (is.map w).sum =
        spent + ((pass t limit is spent).1.map w).sum
  | [], _ => rfl
  | i :: is, spent => by
    have hrest := sum_pass hw is (one t limit i spent).2
    rw [pass, map_cons, map_cons, sum_cons, sum_cons]
    rcases one_cases t limit i spent with ⟨hone, -⟩ | ⟨c, hc, -, hone⟩
    · rw [hone] at hrest ⊢
      rw [add_left_comm, hrest, add_left_comm]
    · rw [hone] at hrest ⊢
      dsimp only at hrest ⊢
      rw [add_left_comm, hrest, hw i c hc]
      abel

theorem pass_le_limit : ∀ (is : List ℕ) {spent : K}, spent ≤ limit →
    (pass t limit is spent).2 ≤ limit
  | [], _, h => h
  | i :: is, spent, h => by
    rw [pass]
    refine pass_le_limit is ?_
    rcases one_cases t limit i spent with ⟨hone, -⟩ | ⟨c, -, hfits, hone⟩
    · rwa [hone]
    · rwa [hone]

theorem pass_le_succ : ∀ {is : List ℕ} (spent : K), (∀ j ∈ is, j ≤ i) →
    ∀ j ∈ (pass t limit is spent).1, j ≤ i + 1
  | [], _, _ => by simp [pass]
  | k :: is, spent, h => by
    obtain ⟨hk, hrest⟩ := forall_mem_cons.1 h
    rw [pass, forall_mem_cons]
    refine ⟨?_, pass_le_succ _ hrest⟩
    rcases one_cases t limit k spent with ⟨hone, -⟩ | ⟨c, -, -, hone⟩
    · rw [hone]
      exact Nat.le_succ_of_le hk
    · rw [hone]
      exact Nat.succ_le_succ hk

theorem pass_le_top : ∀ {is : List ℕ} (spent : K), (∀ j ∈ is, j ≤ t.top) →
    ∀ j ∈ (pass t limit is spent).1, j ≤ t.top
  | [], _, _ => by simp [pass]
  | k :: is, spent, h => by
    obtain ⟨hk, hrest⟩ := forall_mem_cons.1 h
    rw [pass, forall_mem_cons]
    refine ⟨?_, pass_le_top _ hrest⟩
    rcases one_cases t limit k spent with ⟨hone, -⟩ | ⟨c, hc, -, hone⟩
    · rwa [hone]
    · rw [hone]
      exact t.below k c hc

theorem pass_eq_or_lt : ∀ (is : List ℕ) (spent : K), (pass t limit is spent).1 = is ∨
    is.sum < (pass t limit is spent).1.sum
  | [], _ => .inl rfl
  | i :: is, spent => by
    rw [pass, sum_cons, sum_cons]
    rcases one_cases t limit i spent with ⟨hone, -⟩ | ⟨c, -, -, hone⟩
    · rw [hone]
      rcases pass_eq_or_lt is spent with heq | hlt
      · exact .inl (congrArg (i :: ·) heq)
      · exact .inr (Nat.add_lt_add_left hlt i)
    · rw [hone]
      refine .inr ?_
      rcases pass_eq_or_lt is (spent + c) with heq | hlt
      · rw [heq]
        omega
      · dsimp only
        omega

theorem stuck_of_pass_eq : ∀ {is : List ℕ} {spent : K}, (pass t limit is spent).1 = is →
    (pass t limit is spent).2 = spent ∧ ∀ i ∈ is, Stuck t limit i spent
  | [], _, _ => ⟨rfl, by simp⟩
  | i :: is, spent, h => by
    rw [pass] at h ⊢
    obtain ⟨hi, hrest⟩ := List.cons.inj h
    rcases one_cases t limit i spent with ⟨hone, hstuck⟩ | ⟨c, -, -, hone⟩
    · rw [hone] at hrest ⊢
      obtain ⟨hspent, hall⟩ := stuck_of_pass_eq hrest
      exact ⟨hspent, forall_mem_cons.2 ⟨hstuck, hall⟩⟩
    · rw [hone] at hi
      exact absurd hi (Nat.succ_ne_self i)

theorem isSome_loop : ∀ (n : ℕ) {is : List ℕ} (spent : K), (∀ j ∈ is, j ≤ t.top) →
    is.length * t.top < is.sum + n → (loop t limit n is spent).isSome
  | 0, is, _, h, hn => by
    have hsum : is.sum ≤ is.length * t.top := by
      simpa [Nat.mul_comm] using sum_le_card_nsmul is t.top h
    omega
  | n + 1, is, spent, h, hn => by
    rw [loop]
    split_ifs with hsame
    · rfl
    · refine isSome_loop n _ (pass_le_top spent h) ?_
      have hlt := (pass_eq_or_lt is spent).resolve_left hsame
      rw [length_pass]
      omega

variable [IsOrderedAddMonoid K]

theorem Stuck.mono (h : Stuck t limit i spent) (hle : spent ≤ spent') : Stuck t limit i spent' :=
  fun c hc => (h c hc).trans_le (add_le_add_left hle c)

theorem le_one (t : Tiers K) (limit : K) (i : ℕ) (spent : K) : spent ≤ (one t limit i spent).2 := by
  rcases one_cases t limit i spent with ⟨hone, -⟩ | ⟨c, hc, -, hone⟩
  · rw [hone]
  · rw [hone]
    exact le_add_of_nonneg_right (t.pos i c hc)

theorem pass_le_of_stuck (hstuck : Stuck t limit i spent) : ∀ {is : List ℕ} {spent' : K},
    spent ≤ spent' → (∀ j ∈ is, j ≤ i) → ∀ j ∈ (pass t limit is spent').1, j ≤ i
  | [], _, _, _ => by simp [pass]
  | k :: is, spent', hle, h => by
    obtain ⟨hk, hrest⟩ := forall_mem_cons.1 h
    rw [pass, forall_mem_cons]
    refine ⟨?_, pass_le_of_stuck hstuck (hle.trans (le_one t limit k spent')) hrest⟩
    rcases one_cases t limit k spent' with ⟨hone, -⟩ | ⟨c, hc, hfits, hone⟩
    · rwa [hone]
    · rw [hone]
      refine Nat.lt_of_le_of_ne hk fun heq => ?_
      exact absurd hfits (not_le.2 ((hstuck.mono hle) c (heq ▸ hc)))

theorem pairwise_pass : ∀ {is : List ℕ} (spent : K), is.Pairwise (fun i j => j ≤ i) →
    (pass t limit is spent).1.Pairwise (fun i j => j ≤ i)
  | [], _, _ => .nil
  | i :: is, spent, h => by
    obtain ⟨hi, hrest⟩ := pairwise_cons.1 h
    rw [pass, pairwise_cons]
    refine ⟨?_, pairwise_pass _ hrest⟩
    rcases one_cases t limit i spent with ⟨hone, hstuck⟩ | ⟨c, -, -, hone⟩
    · rw [hone]
      exact pass_le_of_stuck hstuck le_rfl hi
    · rw [hone]
      exact pass_le_succ _ hi

structure Settled (t : Tiers K) (limit : K) (w : ℕ → K) (is : List ℕ) (spent : K)
    (is' : List ℕ) (spent' : K) : Prop where
  length : is'.length = is.length
  le_top : ∀ i ∈ is', i ≤ t.top
  paid : spent' + (is.map w).sum = spent + (is'.map w).sum
  kept : spent' ≤ limit
  ordered : is'.Pairwise fun i j => j ≤ i
  stuck : ∀ i ∈ is', Stuck t limit i spent'

theorem settled_loop {w : ℕ → K} (hw : ∀ i c, t.cost i = some c → w (i + 1) = w i + c) :
    ∀ (n : ℕ) {is is' : List ℕ} {spent spent' : K}, (∀ i ∈ is, i ≤ t.top) → spent ≤ limit →
      is.Pairwise (fun i j => j ≤ i) → loop t limit n is spent = some (is', spent') →
        Settled t limit w is spent is' spent'
  | 0, _, _, _, _, _, _, _, h => by cases h
  | n + 1, is, is', spent, spent', htop, hlimit, hsorted, h => by
    rw [loop] at h
    split_ifs at h with hsame
    · obtain ⟨hspent, hstuck⟩ := stuck_of_pass_eq hsame
      obtain rfl : is = is' := hsame ▸ congrArg Prod.fst (Option.some.inj h)
      obtain rfl : spent = spent' := hspent ▸ congrArg Prod.snd (Option.some.inj h)
      exact ⟨rfl, htop, rfl, hlimit, hsorted, hstuck⟩
    · have hnext := settled_loop hw n (pass_le_top spent htop) (pass_le_limit is hlimit)
        (pairwise_pass spent hsorted) h
      refine ⟨hnext.length.trans (length_pass is spent), hnext.le_top, ?_, hnext.kept,
        hnext.ordered, hnext.stuck⟩
      have hpaid : (pass t limit is spent).2 + _ = _ := sum_pass hw is spent
      have hpaid' := hnext.paid
      set next := pass t limit is spent
      calc spent' + (is.map w).sum
          = (spent' + (next.1.map w).sum) + (next.2 + (is.map w).sum)
            - (next.2 + (next.1.map w).sum) := by abel
        _ = (next.2 + (is'.map w).sum) + (spent + (next.1.map w).sum)
            - (next.2 + (next.1.map w).sum) := by rw [hpaid, hpaid']
        _ = spent + (is'.map w).sum := by abel

end Climb
