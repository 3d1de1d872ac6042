import Grim.Engine.Hits
import Grim.Lib.Tiling

/-!
# The chunks of a prompt

A pass begins its chunk where the request's progress stands, and moves the progress to the chunk's
end if the forward went through.  So the chunks whose forward did follow each other from the end of
the prefix taken from the tree, whatever failed in between.
-/

namespace Grim.Engine

open KvTransport Memory PagedKvCache Tiling
open Function (update update_self update_of_ne)

variable {e e₁ e' : Engine} {q : Pass} {full : List UInt32} {id prompt a : ℕ}

def progress (e : Engine) (id : ℕ) : ℕ := (e.prefillProgress id).getD 0

def prefills (e : Engine) (q : Pass) : Option Chunk :=
  (e.beginPass q).bind fun (e, chunk) =>
    match chunk, e.modelForRequest q.id with
    | some ch, some modelId =>
      match e.driveForward modelId q ch.tokens with
      | some (_, .ok ()) => some ch
      | _ => none
    | _, _ => none

def Pass.whole (q : Pass) : Bool := q.promptTokens.any (· ≤ q.consumedTokens)

/-- Where a pass of a prompt of `n` tokens begins: at the progress, or, if there is none, behind
the whole blocks of the prompt that it takes; `seeded` is what it counts as taken. -/
def Begins (e : Engine) (id n a : ℕ) (seeded : Option ℕ) : Prop :=
  a = e.progress id ∧ seeded = e.radixSeededBlocks id
    ∨ e.progress id = 0 ∧ ∃ k, seeded = some k ∧ a = k * blockSize ∧ 0 < a ∧ a < n

theorem skipTokens_lt (h : full ≠ []) (n : ℕ) : skipTokens full n < full.length := by
  have hpos := List.length_pos_iff.mpr h
  unfold skipTokens
  simp only []
  omega

theorem claimPrefix_begins {real : Bool}
    (h : e.claimPrefix q full real (e.progress q.id) = some (e₁, a)) :
    e₁.modelForRequest = e.modelForRequest ∧ e₁.progress q.id = a
      ∧ Begins e q.id full.length a (e₁.radixSeededBlocks q.id) := by
  unfold claimPrefix at h
  split_ifs at h with hguard
  · obtain ⟨⟨p, matched, n, promoted⟩, -, h⟩ := Option.bind_eq_some_iff.mp h
    dsimp only at h
    split_ifs at h with hseed hslice
    · obtain ⟨p', -, h⟩ := Option.map_eq_some_iff.mp h
      rcases hs : e.sessions q.id with - | kv <;> simp only [hs, Prod.mk.injEq] at h <;>
        obtain ⟨rfl, rfl⟩ := h
      · exact ⟨rfl, rfl, .inl ⟨rfl, rfl⟩⟩
      · have hwhole := skipTokens_whole full n
        refine ⟨rfl, ?_, .inr ⟨hguard.2.1, skipTokens full n / blockSize, ?_, hwhole.symm,
          lt_of_lt_of_le (by decide) hseed.1, skipTokens_lt hguard.2.2.2 n⟩⟩
        · simp [progress]
        · have hle := not_lt.mp (not_or.mp hslice).1
          simp [hle]
    · cases h
      exact ⟨rfl, rfl, .inl ⟨rfl, rfl⟩⟩
  · cases h
    exact ⟨rfl, rfl, .inl ⟨rfl, rfl⟩⟩

theorem length_of_real (h : (e.realIds q.id prompt).isSome) :
    (e.fullInput q.id prompt).length = prompt := by
  obtain ⟨v, hv⟩ := Option.isSome_iff_exists.mp h
  unfold fullInput
  rw [hv]
  unfold realIds at hv
  have hlen := (Option.filter_eq_some_iff.mp hv).2
  simp only [ne_eq, decide_eq_true_eq] at hlen
  exact hlen.2

def Pass.Of (q : Pass) (prompt : ℕ) : Prop := ∀ r ∈ q.copies, r.promptTokens = prompt

theorem Pass.Of.eq (h : q.Of prompt) {n : ℕ} (hn : q.promptTokens = some n) : n = prompt := by
  obtain ⟨r, hr, rfl⟩ := Option.map_eq_some_iff.mp hn
  exact h r (List.mem_of_getLast? hr)

theorem whole_iff : q.whole ↔ ∃ n, q.promptTokens = some n ∧ n ≤ q.consumedTokens := by
  unfold Pass.whole
  rcases q.promptTokens with - | n <;> simp

theorem Pass.Of.consumed (h : q.Of prompt) (hw : q.whole) : prompt ≤ q.consumedTokens := by
  obtain ⟨n, hn, hle⟩ := whole_iff.mp hw
  exact h.eq hn ▸ hle

theorem beginPass_cases {chunk : Option Chunk} (h : e.beginPass q = some (e₁, chunk)) :
    (e₁ = e ∧ chunk = none ∧ ∀ n, q.promptTokens = some n → n = 0)
      ∨ ∃ n a, q.promptTokens = some n
        ∧ e.claimPrefix q (e.fullInput q.id n) (e.realIds q.id n).isSome (e.progress q.id)
          = some (e₁, a)
        ∧ (min q.consumedTokens n ≤ a ∧ chunk = none
          ∨ a < min q.consumedTokens n ∧ min q.consumedTokens n ≤ (e.fullInput q.id n).length
            ∧ chunk = some ⟨e.fullInput q.id n, a, min q.consumedTokens n⟩) := by
  unfold beginPass at h
  rcases hn : q.promptTokens with - | n <;> simp only [hn] at h
  · cases h
    exact .inl ⟨rfl, rfl, fun n hn => by cases hn⟩
  by_cases hzero : n = 0
  · rw [if_pos hzero] at h
    cases h
    exact .inl ⟨rfl, rfl, fun m hm => Option.some.inj hm ▸ hzero⟩
  rw [if_neg hzero] at h
  obtain ⟨⟨e₂, a⟩, hclaim, h⟩ := Option.bind_eq_some_iff.mp h
  dsimp only at h
  split_ifs at h with hle hfit
  · cases h
    exact .inr ⟨n, a, rfl, hclaim, .inl ⟨hle, rfl⟩⟩
  · cases h
    exact .inr ⟨n, a, rfl, hclaim, .inr ⟨Nat.lt_of_not_le hle, Nat.le_of_not_lt hfit, rfl⟩⟩

theorem beginPass_begins (hq : q.Of prompt) {chunk : Option Chunk}
    (h : e.beginPass q = some (e₁, chunk)) :
    ∃ a, e₁.modelForRequest = e.modelForRequest ∧ e₁.progress q.id = a
      ∧ Begins e q.id prompt a (e₁.radixSeededBlocks q.id)
      ∧ match chunk with
        | none => q.whole → prompt ≤ a
        | some ch => ch.already = a ∧ a < ch.target ∧ ch.target = min q.consumedTokens prompt := by
  rcases beginPass_cases h with ⟨rfl, rfl, hzero⟩ | ⟨n, a, hn, hclaim, hchunk⟩
  · refine ⟨_, rfl, rfl, .inl ⟨rfl, rfl⟩, fun hw => ?_⟩
    obtain ⟨n, hn, -⟩ := whole_iff.mp hw
    rw [← hq.eq hn, hzero n hn]
    exact Nat.zero_le _
  obtain rfl := hq.eq hn
  obtain ⟨hmodel, hprog, hbegins⟩ := claimPrefix_begins hclaim
  have hbegins' : Begins e q.id n a (e₁.radixSeededBlocks q.id) := by
    by_cases hreal : (e.realIds q.id n).isSome
    · rwa [length_of_real hreal] at hbegins
    · -- without token ids nothing is taken
      unfold claimPrefix at hclaim
      rw [if_neg fun hg => hreal hg.2.2.1] at hclaim
      cases hclaim
      exact .inl ⟨rfl, rfl⟩
  refine ⟨a, hmodel, hprog, hbegins', ?_⟩
  rcases hchunk with ⟨hle, rfl⟩ | ⟨hlt, -, rfl⟩
  · intro hw
    have hconsumed := hq.consumed hw
    omega
  · exact ⟨rfl, hlt, rfl⟩

theorem driveForward_marks {modelId : String} {tokens : List UInt32} {res : Except String Unit}
    (h : e.driveForward modelId q tokens = some (e', res)) :
    e'.prefillProgress = e.prefillProgress ∧ e'.radixSeededBlocks = e.radixSeededBlocks := by
  unfold driveForward at h
  split at h
  · cases h
    exact ⟨rfl, rfl⟩
  · split at h
    · cases h
      exact ⟨rfl, rfl⟩
    · obtain ⟨⟨kv, p, res'⟩, -, h⟩ := Option.map_eq_some_iff.mp h
      cases h
      exact ⟨rfl, rfl⟩

theorem endPass_marks {ch : Chunk} (h : e.endPass q ch = some e') :
    e'.prefillProgress = update e.prefillProgress q.id (some ch.target)
      ∧ e'.radixSeededBlocks = e.radixSeededBlocks := by
  obtain ⟨e₁, h₁, h⟩ := Option.bind_eq_some_iff.mp h
  obtain ⟨e₂, h₂, rfl⟩ := Option.map_eq_some_iff.mp h
  have hreg : e₁.prefillProgress = update e.prefillProgress q.id (some ch.target)
      ∧ e₁.radixSeededBlocks = e.radixSeededBlocks := by
    unfold registerPrefix at h₁
    simp only [] at h₁
    split_ifs at h₁
    · obtain ⟨p, -, rfl⟩ := Option.map_eq_some_iff.mp h₁
      exact ⟨rfl, rfl⟩
    · cases h₁
      exact ⟨rfl, rfl⟩
  have hdem : e₂.prefillProgress = e₁.prefillProgress
      ∧ e₂.radixSeededBlocks = e₁.radixSeededBlocks := by
    unfold demoteWatermark at h₂
    simp only [] at h₂
    split at h₂
    · cases h₂
      exact ⟨rfl, rfl⟩
    · split_ifs at h₂
      · obtain ⟨p, -, rfl⟩ := Option.map_eq_some_iff.mp h₂
        exact ⟨rfl, rfl⟩
      · cases h₂
        exact ⟨rfl, rfl⟩
  have hpin : (e₂.pinSession q).prefillProgress = e₂.prefillProgress
      ∧ (e₂.pinSession q).radixSeededBlocks = e₂.radixSeededBlocks := by
    unfold pinSession
    split_ifs <;> exact ⟨rfl, rfl⟩
  exact ⟨hpin.1.trans (hdem.1.trans hreg.1), hpin.2.trans (hdem.2.trans hreg.2)⟩

/-- What a pass does to its request's progress: it runs its chunk, or none. -/
theorem drivePrefillInner_cases (hq : q.Of prompt) {res : Except String ℕ}
    (h : e.drivePrefillInner q = some (e', res)) :
    ∃ a, Begins e q.id prompt a (e'.radixSeededBlocks q.id)
      ∧ ((e.prefills q = none ∧ e'.progress q.id = a
          ∧ (q.whole → res.isOk → e.modelForRequest q.id ≠ none → prompt ≤ a))
        ∨ ∃ ch, e.prefills q = some ch ∧ ch.already = a ∧ a < ch.target
          ∧ ch.target = min q.consumedTokens prompt ∧ e'.progress q.id = ch.target) := by
  obtain ⟨⟨e₁, chunk⟩, hbegin, h⟩ := Option.bind_eq_some_iff.mp h
  obtain ⟨a, hmodel, hprog, hbegins, hchunk⟩ := beginPass_begins hq hbegin
  refine ⟨a, ?_⟩
  rcases chunk with - | ch
  · cases h
    refine ⟨hbegins, .inl ⟨?_, hprog, fun hwhole _ _ => hchunk hwhole⟩⟩
    unfold prefills
    rw [hbegin]
    rfl
  rcases hm : e₁.modelForRequest q.id with - | modelId <;> simp only [hm] at h
  · cases h
    refine ⟨hbegins, .inl ⟨?_, hprog, fun _ _ hne => absurd (hmodel ▸ hm) hne⟩⟩
    unfold prefills
    rw [hbegin]
    simp only [Option.bind_some, hm]
  obtain ⟨⟨e₂, outcome⟩, hforward, h⟩ := Option.bind_eq_some_iff.mp h
  obtain ⟨hprog₂, hseeded₂⟩ := driveForward_marks hforward
  have hran : e.prefills q = match outcome with
      | .ok () => some ch
      | .error _ => none := by
    unfold prefills
    rw [hbegin]
    simp only [Option.bind_some, hm, hforward]
    rcases outcome with err | u <;> rfl
  rcases outcome with err | u
  · cases h
    have hsame : e₂.progress q.id = e₁.progress q.id := by
      unfold progress
      rw [hprog₂]
    rw [hseeded₂]
    exact ⟨hbegins, .inl ⟨hran, hsame.trans hprog, fun _ hok => by cases hok⟩⟩
  · obtain ⟨e₃, hend, h⟩ := Option.map_eq_some_iff.mp h
    cases h
    obtain ⟨hprog₃, hseeded₃⟩ := endPass_marks hend
    rw [hseeded₃, hseeded₂]
    refine ⟨hbegins, .inr ⟨ch, hran, hchunk.1, hchunk.2.1, hchunk.2.2, ?_⟩⟩
    simp [progress, hprog₃]

/-- What happens to a request: a pass of its own, or what the engine does otherwise. -/
inductive Event
  | pass (q : Pass)
  | other (e : Engine)

structure Prefilling where
  engine : Engine
  chunks : List (ℕ × ℕ)
  complete : Bool

namespace Prefilling

def new (cfg : Config) : Prefilling where
  engine := .new cfg
  chunks := []
  complete := false

variable (s : Prefilling)

def step : Event → Option Prefilling
  | .pass q => (s.engine.drivePrefillInner q).map fun (e, res) =>
    { engine := e
      chunks := s.chunks ++ ((s.engine.prefills q).map fun ch => (ch.already, ch.target)).toList
      complete := s.complete ∨ q.whole ∧ res.isOk ∧ s.engine.modelForRequest q.id ≠ none }
  | .other e => some { s with engine := e }

/-- The events of request `id`, of `prompt` tokens: nothing but its passes touches its marks. -/
def Of (id prompt : ℕ) : Event → Prop
  | .pass q => q.id = id ∧ q.Of prompt
  | .other e => e.prefillProgress id = s.engine.prefillProgress id
    ∧ e.radixSeededBlocks id = s.engine.radixSeededBlocks id

/-- The chunks of request `id` follow each other from `seed` to its progress, and `seed` is where
the prefix ends that was taken from the tree. -/
structure Tiles (id prompt seed : ℕ) : Prop where
  seeded : s.engine.radixSeededBlocks id = none ∧ seed = 0
    ∨ ∃ k, s.engine.radixSeededBlocks id = some k ∧ seed = k * blockSize ∧ 0 < seed ∧ seed < prompt
  consecutive : Consecutive seed s.chunks (s.engine.progress id)
  within : s.engine.progress id ≤ prompt
  complete : s.complete → s.engine.progress id = prompt

end Prefilling

theorem Prefilling.Tiles.begins {s : Prefilling} {seed : ℕ} {seeded : Option ℕ}
    (h : s.Tiles id prompt seed) (hb : Begins s.engine id prompt a seeded) :
    ∃ seed', (seeded = none ∧ seed' = 0
        ∨ ∃ k, seeded = some k ∧ seed' = k * blockSize ∧ 0 < seed' ∧ seed' < prompt)
      ∧ Consecutive seed' s.chunks a ∧ a ≤ prompt ∧ s.engine.progress id ≤ a := by
  rcases hb with ⟨rfl, rfl⟩ | ⟨hzero, k, hseeded, hk, hpos, hlt⟩
  · exact ⟨seed, h.seeded, h.consecutive, h.within, le_rfl⟩
  · have hnil : s.chunks = [] := h.consecutive.eq_nil (by omega)
    refine ⟨a, .inr ⟨k, hseeded, hk, hpos, hlt⟩, ?_, hlt.le, by omega⟩
    rw [hnil]
    exact rfl

theorem Prefilling.Tiles.step {s s' : Prefilling} {seed : ℕ} {i : Event}
    (h : s.Tiles id prompt seed) (hi : s.Of id prompt i) (hstep : s.step i = some s') :
    ∃ seed', s'.Tiles id prompt seed' := by
  cases i with
  | other e =>
    cases hstep
    have hprog : e.progress id = s.engine.progress id := congrArg (·.getD 0) hi.1
    refine ⟨seed, ?_, ?_, ?_, ?_⟩
    · rw [hi.2]
      exact h.seeded
    · rw [hprog]
      exact h.consecutive
    · rw [hprog]
      exact h.within
    · rw [hprog]
      exact h.complete
  | pass q =>
    obtain ⟨rfl, hq⟩ := hi
    obtain ⟨⟨e', res⟩, hdrive, rfl⟩ := Option.map_eq_some_iff.mp hstep
    obtain ⟨a, hbegins, hcases⟩ := drivePrefillInner_cases hq hdrive
    obtain ⟨seed', hseeded, hcons, hle, hmono⟩ := h.begins hbegins
    refine ⟨seed', ?_⟩
    rcases hcases with ⟨hnone, hprog, hwhole⟩ | ⟨ch, hran, hat, hlt, htarget, hprog⟩
    · refine ⟨hseeded, ?_, hprog ▸ hle, fun hc => ?_⟩
      · simp only [hnone, hprog, Option.map_none, Option.toList_none, List.append_nil]
        exact hcons
      · simp only [Bool.decide_or, Bool.or_eq_true, decide_eq_true_eq] at hc
        rw [hprog]
        rcases hc with hc | ⟨h1, h2, h3⟩
        · have hend := h.complete hc
          omega
        · have hend := hwhole h1 h2 h3
          omega
    · refine ⟨hseeded, ?_, ?_, fun hc => ?_⟩
      · simp only [hran, hprog, Option.map_some, Option.toList_some, hat]
        exact hcons.push hlt
      · rw [hprog, htarget]
        exact min_le_right _ _
      · simp only [Bool.decide_or, Bool.or_eq_true, decide_eq_true_eq] at hc
        rw [hprog, htarget]
        rcases hc with hc | ⟨hwhole, -⟩
        · have hend := h.complete hc
          omega
        · exact min_eq_right (hq.consumed hwhole)

theorem Prefilling.Tiles.new (cfg : Config) : (Prefilling.new cfg).Tiles id prompt 0 :=
  ⟨.inl ⟨rfl, rfl⟩, rfl, Nat.zero_le _, fun h => by cases h⟩

/-- In every run of a request its chunks tile the prompt from the end of the prefix it took to its
progress, and to the prompt's end once a pass with the whole prompt went through. -/
theorem chunks_tile_prompt (cfg : Config) (id prompt : ℕ) (s : Prefilling)
    (hrun : Steps.Reach Prefilling.step (fun s => s.Of id prompt) (.new cfg) s) :
    ∃ seed, s.Tiles id prompt seed
      ∧ (∀ t, s.chunks.countP (fun ch => ch.1 ≤ t ∧ t < ch.2)
        = if seed ≤ t ∧ t < s.engine.progress id then 1 else 0)
      ∧ (prompt ≠ 0 → s.complete → s.chunks ≠ []) := by
  obtain ⟨seed, h⟩ := hrun.invariant (I := fun s => ∃ seed, s.Tiles id prompt seed) ⟨0, .new cfg⟩
    fun _ _ _ ⟨_, h⟩ hi hstep => h.step hi hstep
  refine ⟨seed, h, h.consecutive.countP, ?_⟩
  intro hprompt hcomplete hnil
  have hend := h.complete hcomplete
  have hcons := h.consecutive
  rw [hnil] at hcons
  have hseed : seed = s.engine.progress id := hcons
  rcases h.seeded with ⟨-, hzero⟩ | ⟨-, -, -, -, hlt⟩ <;> omega

instance : Decidable (q.Of prompt) := by
  unfold Pass.Of
  infer_instance

instance (s : Prefilling) (i : Event) : Decidable (s.Of id prompt i) := by
  cases i <;> unfold Prefilling.Of <;> infer_instance

def Pass.failing (q : Pass) : Pass := { q with forward := { q.forward with failAt := some 0 } }

/-- Request 1 takes the block of request 0, and fails once on the way. -/
theorem two_chunks_tile : ∃ s, Steps.Reach Prefilling.step (fun s => s.Of 1 40)
      (.new (.tiny [List.replicate 16 7, List.replicate 40 7])) s
    ∧ s.chunks = [(16, 20), (20, 40)] ∧ s.complete
    ∧ ∃ seed, s.Tiles 1 40 seed
      ∧ (∀ t, s.chunks.countP (fun ch => ch.1 ≤ t ∧ t < ch.2)
        = if seed ≤ t ∧ t < s.engine.progress 1 then 1 else 0)
      ∧ ((40 : ℕ) ≠ 0 → s.complete → s.chunks ≠ []) := by
  have hchunks : (((Engine.new (.tiny [List.replicate 16 7, List.replicate 40 7])).drivePrefillInner
      (.tiny 0 16 16)).bind fun (e, _) =>
        Steps.exec Prefilling.step (fun s => s.Of 1 40)
          (.new (.tiny [List.replicate 16 7, List.replicate 40 7]))
          [.other e, .pass (.tiny 1 40 20), .pass (Pass.tiny 1 40 30).failing,
            .pass (.tiny 1 40 40)]).map (fun s => (s.chunks, s.complete))
      = some ([(16, 20), (20, 40)], true) := by decide +kernel
  obtain ⟨s, hrun, hs⟩ := Option.map_eq_some_iff.mp hchunks
  obtain ⟨⟨e, res⟩, -, hrun⟩ := Option.bind_eq_some_iff.mp hrun
  have hreach := Steps.reach_of_exec hrun
  exact ⟨s, hreach, congrArg Prod.fst hs, congrArg Prod.snd hs, chunks_tile_prompt _ 1 40 s hreach⟩

/-- A prompt without tokens: its pass goes through and runs no chunk. -/
theorem empty_prompt_no_chunk : ¬ ∀ (cfg : Config) (id prompt : ℕ) (s : Prefilling),
    Steps.Reach Prefilling.step (fun s => s.Of id prompt) (.new cfg) s →
      ∃ seed, s.Tiles id prompt seed ∧ (s.complete → s.chunks ≠ []) := by
  intro hall
  have hnone : (Steps.exec Prefilling.step (fun s => s.Of 0 0) (.new (.tiny [[]]))
      [.pass (.tiny 0 0 0)]).map (fun s => (s.chunks, s.complete)) = some ([], true) := by
    decide +kernel
  obtain ⟨s, hrun, hs⟩ := Option.map_eq_some_iff.mp hnone
  obtain ⟨-, -, hsome⟩ := hall _ 0 0 s (Steps.reach_of_exec hrun)
  exact hsome (congrArg Prod.snd hs) (congrArg Prod.fst hs)

end Grim.Engine
