import Grim.Lib.LittleEndian

/-!
# Readers of bytes

A reader takes bytes off the front of its input or fails.  `Reads r bs a`: on an input that begins
with `bs` the reader returns `a` and leaves what follows; `Yields r P`: all it returns satisfies
`P`.
-/

abbrev Reader (ε α : Type) := StateT (List UInt8) (Except ε) α

namespace Reader

open LittleEndian List

variable {ε α β : Type} {P : α → Prop} {Q : β → Prop}

/-- `read_exact`: `n` bytes, or the error `eof`. -/
def exact (eof : ε) (n : ℕ) : Reader ε (List UInt8) := fun s =>
  if n ≤ s.length then .ok (s.take n, s.drop n) else .error eof

def fail (e : ε) : Reader ε α := fun _ => .error e

/-- One reader `n` times over. -/
def items (r : Reader ε α) : ℕ → Reader ε (List α)
  | 0 => pure []
  | n + 1 => do
    let a ← r
    let as ← items r n
    pure (a :: as)

def Reads (r : Reader ε α) (bs : List UInt8) (a : α) : Prop :=
  ∀ rest, r.run (bs ++ rest) = .ok (a, rest)

theorem Reads.pure (a : α) : Reads (pure a : Reader ε α) [] a := fun _ => rfl

theorem Reads.bind {r : Reader ε α} {f : α → Reader ε β} {bs cs : List UInt8} {a : α} {b : β}
    (h : Reads r bs a) (hf : Reads (f a) cs b) : Reads (r >>= f) (bs ++ cs) b := by
  intro rest
  have h1 := h (cs ++ rest)
  have h2 := hf rest
  rw [append_assoc, StateT.run_bind, h1]
  exact h2

theorem Reads.map {r : Reader ε α} {bs : List UInt8} {a : α} (h : Reads r bs a) (g : α → β) :
    Reads (do let x ← r; Pure.pure (g x)) bs (g a) := by
  have := h.bind (f := fun x => Pure.pure (g x)) (Reads.pure (g a))
  rwa [append_nil] at this

theorem reads_exact (eof : ε) {n : ℕ} {bs : List UInt8} (h : bs.length = n) :
    Reads (exact eof n) bs bs := by
  intro rest
  have hle : n ≤ (bs ++ rest).length := by
    rw [length_append]
    omega
  change (if n ≤ (bs ++ rest).length then _ else _) = _
  rw [if_pos hle, ← h, take_left, drop_left]

theorem reads_items {r : Reader ε α} {enc : α → List UInt8} :
    ∀ as : List α, (∀ a ∈ as, Reads r (enc a) a) → Reads (items r as.length) (as.flatMap enc) as
  | [], _ => Reads.pure []
  | a :: as, h => by
    have ha := h a (by simp)
    have ih := reads_items as fun b hb => h b (by simp [hb])
    rw [flatMap_cons, length_cons, items]
    exact ha.bind (ih.map _)

def Yields (r : Reader ε α) (P : α → Prop) : Prop :=
  ∀ s a s', r.run s = .ok (a, s') → P a

theorem run_bind_ok {r : Reader ε α} {f : α → Reader ε β} {s s' : List UInt8} {b : β}
    (h : (r >>= f).run s = .ok (b, s')) :
    ∃ a s₁, r.run s = .ok (a, s₁) ∧ (f a).run s₁ = .ok (b, s') := by
  rw [StateT.run_bind] at h
  rcases hr : r.run s with e | ⟨a, s₁⟩ <;> rw [hr] at h
  · cases h
  · exact ⟨a, s₁, rfl, h⟩

theorem Yields.pure {a : α} (h : P a) : Yields (Pure.pure a : Reader ε α) P := by
  intro s a' s' hrun
  cases hrun
  exact h

theorem Yields.bind {r : Reader ε α} {f : α → Reader ε β} (h : Yields r P)
    (hf : ∀ a, P a → Yields (f a) Q) : Yields (r >>= f) Q := by
  intro s b s' hrun
  obtain ⟨a, s₁, hr, hfa⟩ := run_bind_ok hrun
  exact hf a (h s a s₁ hr) s₁ b s' hfa

theorem Yields.fail (e : ε) : Yields (Reader.fail e) P := by
  intro s a s' hrun
  cases hrun

theorem Yields.exact (eof : ε) (n : ℕ) : Yields (exact eof n) fun bs => bs.length = n := by
  intro s a s' hrun
  change (if n ≤ s.length then _ else _) = _ at hrun
  split_ifs at hrun with hle
  cases hrun
  rw [length_take, Nat.min_eq_left hle]

theorem Yields.and {r : Reader ε α} {P' : α → Prop} (h : Yields r P) (h' : Yields r P') :
    Yields r fun a => P a ∧ P' a := fun s a s' hrun => ⟨h s a s' hrun, h' s a s' hrun⟩

theorem Yields.trivial (r : Reader ε α) : Yields r fun _ => True := fun _ _ _ _ => True.intro

theorem Yields.items {r : Reader ε α} (h : Yields r P) :
    ∀ n, Yields (items r n) fun as => ∀ a ∈ as, P a
  | 0 => Yields.pure (by simp)
  | n + 1 => by
    rw [Reader.items]
    refine h.bind fun a ha => (Yields.items h n).bind fun as has => Yields.pure ?_
    intro b hb
    rcases mem_cons.1 hb with rfl | hb
    · exact ha
    · exact has b hb

theorem Yields.length_items (r : Reader ε α) :
    ∀ n, Yields (Reader.items r n) fun as => as.length = n
  | 0 => Yields.pure rfl
  | n + 1 => by
    rw [Reader.items]
    refine (Yields.trivial r).bind fun a _ => (Yields.length_items r n).bind fun as has => ?_
    exact Yields.pure (by rw [length_cons, has])

/-- Whatever the reader returns, it has taken `n` bytes at least. -/
def Takes (r : Reader ε α) (n : ℕ) : Prop :=
  ∀ s a s', r.run s = .ok (a, s') → s'.length + n ≤ s.length

theorem Takes.pure (a : α) : Takes (Pure.pure a : Reader ε α) 0 := by
  intro s a' s' hrun
  cases hrun
  exact le_rfl

theorem Takes.fail (e : ε) (n : ℕ) : Takes (Reader.fail e : Reader ε α) n := by
  intro s a s' hrun
  cases hrun

theorem Takes.exact (eof : ε) (n : ℕ) : Takes (exact eof n) n := by
  intro s a s' hrun
  change (if n ≤ s.length then _ else _) = _ at hrun
  split_ifs at hrun with hle
  cases hrun
  rw [length_drop]
  omega

theorem Takes.mono {r : Reader ε α} {m n : ℕ} (h : Takes r m) (hle : n ≤ m) : Takes r n := by
  intro s a s' hrun
  have := h s a s' hrun
  omega

theorem Takes.bind {r : Reader ε α} {f : α → Reader ε β} {n : ℕ} (h : Takes r n)
    (hf : ∀ a, Takes (f a) 0) : Takes (r >>= f) n := by
  intro s b s' hrun
  obtain ⟨a, s₁, hr, hfa⟩ := run_bind_ok hrun
  have hfirst := h s a s₁ hr
  have hsecond := hf a s₁ b s' hfa
  omega

theorem Takes.items {r : Reader ε α} (h : Takes r 0) : ∀ n, Takes (Reader.items r n) 0
  | 0 => Takes.pure []
  | n + 1 => by
    rw [Reader.items]
    exact h.bind fun a => (Takes.items h n).bind fun as => Takes.pure (a :: as)

def untilEnd (r : Reader ε α) (h : Takes r 1) (s : List UInt8) : Except ε (List α) :=
  if s = [] then .ok []
  else
    match _hr : r.run s with
    | .error e => .error e
    | .ok (a, s') => (untilEnd r h s').map (a :: ·)
termination_by s.length
decreasing_by
  have := h s a s' _hr
  omega

theorem untilEnd_nil {r : Reader ε α} (h : Takes r 1) : untilEnd r h [] = .ok [] := by
  rw [untilEnd, if_pos rfl]

theorem untilEnd_append {r : Reader ε α} (h : Takes r 1) {bs rest : List UInt8} {a : α}
    (hr : Reads r bs a) : untilEnd r h (bs ++ rest) = (untilEnd r h rest).map (a :: ·) := by
  have hrun := hr rest
  have hne : bs ++ rest ≠ [] := by
    intro hnil
    have := h _ _ _ hrun
    rw [hnil, length_nil] at this
    omega
  rw [untilEnd, if_neg hne]
  split
  · rename_i e he
    rw [hrun] at he
    cases he
  · rename_i b s' hb
    rw [hrun] at hb
    cases hb
    rfl

theorem untilEnd_flatMap {r : Reader ε α} (h : Takes r 1) {enc : α → List UInt8} :
    ∀ as : List α, (∀ a ∈ as, Reads r (enc a) a) → untilEnd r h (as.flatMap enc) = .ok as
  | [], _ => untilEnd_nil h
  | a :: as, has => by
    rw [flatMap_cons, untilEnd_append h (has a (by simp)),
      untilEnd_flatMap h as fun b hb => has b (by simp [hb])]
    rfl

theorem untilEnd_yields {r : Reader ε α} (h : Takes r 1) (hP : Yields r P) (s : List UInt8) :
    ∀ as, untilEnd r h s = .ok as → ∀ a ∈ as, P a := by
  induction hn : s.length using Nat.strong_induction_on generalizing s with
  | _ n ih =>
    intro as has
    rw [untilEnd] at has
    split_ifs at has with hnil
    · cases has
      simp
    split at has
    · cases has
    rename_i a s' hr
    obtain ⟨as', hrest, rfl⟩ : ∃ as', untilEnd r h s' = .ok as' ∧ as = a :: as' := by
      rcases hu : untilEnd r h s' with e | as' <;> rw [hu] at has <;> cases has
      exact ⟨as', rfl, rfl⟩
    have hlt : s'.length < n := by
      have := h s a s' hr
      omega
    intro b hb
    rcases mem_cons.1 hb with rfl | hb
    · exact hP s b s' hr
    · exact ih _ hlt s' rfl as' hrest b hb

/-- On an input that begins with `bs` the reader returns nothing. -/
def Refuses (r : Reader ε α) (bs : List UInt8) : Prop :=
  ∀ rest a s', r.run (bs ++ rest) ≠ .ok (a, s')

theorem Refuses.fail (e : ε) (bs : List UInt8) : Refuses (Reader.fail (α := α) e) bs := by
  intro rest a s' h
  cases h

theorem Refuses.append {r : Reader ε α} {bs : List UInt8} (h : Refuses r bs) (cs : List UInt8) :
    Refuses r (bs ++ cs) := by
  intro rest a s' hrun
  rw [append_assoc] at hrun
  exact h _ a s' hrun

theorem Refuses.bind {r : Reader ε α} (f : α → Reader ε β) {bs : List UInt8} (h : Refuses r bs) :
    Refuses (r >>= f) bs := by
  intro rest b s' hrun
  obtain ⟨a, s₁, hr, -⟩ := run_bind_ok hrun
  exact h rest a s₁ hr

theorem Reads.refuses {r : Reader ε α} {f : α → Reader ε β} {bs cs : List UInt8} {a : α}
    (h : Reads r bs a) (hf : Refuses (f a) cs) : Refuses (r >>= f) (bs ++ cs) := by
  intro rest b s' hrun
  rw [append_assoc, StateT.run_bind, h] at hrun
  exact hf rest b s' hrun

theorem refuses_items {r : Reader ε α} {enc : α → List UInt8} {bad : α} :
    ∀ as : List α, (∀ a ∈ as, Refuses r (enc a) ∨ Reads r (enc a) a) → bad ∈ as →
      Refuses r (enc bad) → Refuses (items r as.length) (as.flatMap enc)
  | [], _, hmem, _ => absurd hmem (by simp)
  | a :: as, h, hmem, hbad => by
    rw [flatMap_cons, length_cons, items]
    rcases h a (by simp) with ha | ha
    · exact (ha.bind _).append _
    refine ha.refuses ?_
    rcases mem_cons.1 hmem with rfl | hmem
    · exact absurd (ha []) (hbad [] bad [])
    · exact (refuses_items as (fun b hb => h b (by simp [hb])) hmem hbad).bind _

end Reader
