import Grim.Memory.Cursors
import Grim.Speculative.Acceptance

/-!
# Speculation is invisible only where nothing is verified

The forward pass over the input and the drafts appends a row for each of them, and no commit takes
one back, so a step that verifies drafts leaves their rows behind in every layer.
-/

namespace Grim.Speculative

open Memory PagedKvCache

variable {σ ρ H F : Type}

structure Target.Appends (m : Target ρ H F) : Prop where
  layers : 0 < m.layers
  rows : ∀ {l ids positions h s h' k v}, m.project l ids positions h s = .ok (h', k, v) →
    ∃ stride, 0 < stride ∧ k.seqStride = (ids.length, stride)

namespace Target

variable {m : Target ρ H F} {o : Outside} {ids positions logits : List F} {s s' : Session ρ F}

theorem forwardLayers_cursor (happ : m.Appends) (hids : ids ≠ []) {pos : ℕ} {h' : H} :
    ∀ {n l : ℕ} {h : H} {s : Session ρ F}, 0 < l →
      m.forwardLayers o ids positions n l h s = some (s', .ok h') →
      s.kv.layerCommittedTokens[0]? = some pos → s'.kv.layerCommittedTokens[0]? = some pos
  | 0, _, _, _, _, hrun, hpos => by
    cases hrun
    exact hpos
  | n + 1, l, h, s, hl, hrun, hpos => by
    unfold forwardLayers at hrun
    split at hrun
    · cases hrun
    · rename_i h₁ k v hproject
      obtain ⟨stride, hstride, hk⟩ := happ.rows hproject
      split at hrun
      · cases hrun
      · cases hrun
      · rename_i kv pool happend
        have hfirst := appendKvLayer_other hl hk (List.length_pos_iff.2 hids) hstride happend hpos
        exact forwardLayers_cursor happ hids l.succ_pos hrun hfirst

theorem forward_cursor (happ : m.Appends) (hids : ids ≠ [])
    (hrun : m.forward o ids positions s = some (s', .ok logits)) :
    ∃ pos, s.kv.firstCursor = some pos ∧
      s'.kv.layerCommittedTokens[0]? = some (pos + ids.length) := by
  unfold forward at hrun
  split at hrun
  · cases hrun
  · split at hrun
    · cases hrun
    · cases hrun
    · rename_i h s₁ h₁ hlayers
      have hkv : s'.kv = s₁.kv := by
        split at hrun <;> cases hrun
        rfl
      rw [hkv]
      obtain ⟨n, hn⟩ := Nat.exists_eq_succ_of_ne_zero happ.layers.ne'
      rw [hn, forwardLayers] at hlayers
      split at hlayers
      · cases hlayers
      · rename_i h₂ k v hproject
        obtain ⟨stride, hstride, hk⟩ := happ.rows hproject
        split at hlayers
        · cases hlayers
        · cases hlayers
        · rename_i kv pool happend
          obtain ⟨pos, hfirst, hcur⟩ :=
            appendKvLayer_first hk (List.length_pos_iff.2 hids) hstride happend
          exact ⟨pos, hfirst, forwardLayers_cursor happ hids Nat.one_pos hlayers hcur⟩

end Target

/-- The caches have the same length and the same rows in every layer. -/
structure SameKv (c c' : PagedKvCache) : Prop where
  len : c'.len = c.len
  cursors : c'.layerCommittedTokens = c.layerCommittedTokens
  rows : ∀ layer n, c.layerCommittedTokens[layer]? = some n →
    c'.gatherKvF32 layer n = c.gatherKvF32 layer n

def nextTokenLogits (vocabSize : ℕ) (logits : List F) : List F :=
  logits.drop (logits.length - vocabSize)

namespace SpeculativeCausalLm

variable {lm : SpeculativeCausalLm σ ρ H F} {o : Outside} {ids positions out : List F}
  {s s' : Session ρ F} {st st' : σ}

/-- The step has left what the target's own pass over the input leaves, and returned its next-token
logits. -/
def Invisible (lm : SpeculativeCausalLm σ ρ H F) (o : Outside) (ids positions : List F)
    (s s' : Session ρ F) (out : List F) : Prop :=
  ∃ s₂ logits, lm.target.forward o ids positions s = some (s₂, .ok logits) ∧
    SameKv s₂.kv s'.kv ∧
    nextTokenLogits lm.target.vocabSize out = nextTokenLogits lm.target.vocabSize logits

/-- How many drafted tokens the step verifies: none without a block. -/
def verifiedTokens (lm : SpeculativeCausalLm σ ρ H F) (ids : List F) (s : Session ρ F) (st : σ) :
    ℕ :=
  match lm.drafting.draftBlock st s ids (lm.drafting.currentDepth st) with
  | .error _ => 0
  | .ok block => lm.verifyLenFor block s st

theorem plain_invisible (h : lm.plain o ids positions s st = some (s', st', .ok out)) :
    lm.Invisible o ids positions s s' out := by
  obtain ⟨⟨s₂, logits⟩, hforward, hout⟩ := Option.map_eq_some_iff.1 h
  cases hout
  exact ⟨s', out, hforward, ⟨rfl, rfl, fun _ _ _ => rfl⟩, rfl⟩

theorem decodeDSpark_unverified (hnone : lm.verifiedTokens ids s st = 0)
    (h : lm.decodeDSpark o ids positions s st = some (s', st', .ok out)) :
    lm.plain o ids positions s st = some (s', st', .ok out) := by
  unfold decodeDSpark at h
  unfold verifiedTokens at hnone
  split at h
  · cases h
  · rename_i block hblock
    rw [hblock] at hnone
    dsimp only at hnone h
    rw [hnone] at h
    simpa using h

theorem settleDSpark_cursors {block : DraftBlock F} {contextLen verifyLen acceptedCount : ℕ}
    {targetLogits : List F} (h : lm.settleDSpark o block contextLen verifyLen acceptedCount
      targetLogits s st = some (s', st', .ok out)) :
    s'.kv.layerCommittedTokens = s.kv.layerCommittedTokens ∧ contextLen ≠ 0 := by
  unfold settleDSpark at h
  rw [if_neg] at h
  swap
  · intro hlt
    rw [if_pos hlt] at h
    cases h
  obtain ⟨⟨kv₁, pool₁⟩, hcommit, h⟩ := Option.bind_eq_some_iff.1 h
  dsimp only at h
  split at h
  · cases h
  · obtain ⟨⟨kv₂, pool₂⟩, hrollback, h⟩ := Option.map_eq_some_iff.1 h
    dsimp only at h hrollback
    split at h
    · cases h
    · rename_i row hrow
      cases h
      refine ⟨(commit_cursors hrollback).trans (commit_cursors hcommit), ?_⟩
      rintro rfl
      simp [nextTokenRow] at hrow

theorem verifyDSpark_cursor (happ : lm.target.Appends) {block : DraftBlock F} {verifyLen : ℕ}
    (hlen : verifyLen ≤ block.tokens.length)
    (h : lm.verifyDSpark o block verifyLen ids positions s st = some (s', st', .ok out)) :
    ids ≠ [] ∧ ∃ pos, s.kv.firstCursor = some pos ∧
      s'.kv.layerCommittedTokens[0]? = some (pos + ids.length + verifyLen) := by
  unfold verifyDSpark at h
  split at h
  · cases h
  · cases h
  · rename_i kv pool htentative
    dsimp only at h
    split at h
    · cases h
    · split at h
      · cases h
      · cases h
      · rename_i s₁ targetLogits hforward
        obtain ⟨accepted, -, hsettle⟩ := Option.bind_eq_some_iff.1 h
        obtain ⟨hcursors, hcontext⟩ := settleDSpark_cursors hsettle
        have hids : ids ≠ [] := fun hnil => hcontext (by rw [hnil, List.length_nil])
        obtain ⟨pos, hfirst, hcur⟩ := Target.forward_cursor happ (by simp [extendInputIds, hids])
          hforward
        dsimp only at hfirst
        rw [tentativeAppend_firstCursor htentative] at hfirst
        refine ⟨hids, pos, hfirst, ?_⟩
        rw [hcursors, hcur, extendInputIds, List.length_append, List.length_map, List.length_take,
          min_eq_left hlen]
        congr 1
        omega

theorem verifyDSpark_visible (happ : lm.target.Appends) {block : DraftBlock F} {verifyLen : ℕ}
    (hpos : 0 < verifyLen) (hlen : verifyLen ≤ block.tokens.length)
    (h : lm.verifyDSpark o block verifyLen ids positions s st = some (s', st', .ok out)) :
    ¬ lm.Invisible o ids positions s s' out := by
  rintro ⟨s₂, logits, hforward, hsame, -⟩
  obtain ⟨hids, pos, hfirst, hcur⟩ := verifyDSpark_cursor happ hlen h
  obtain ⟨pos', hfirst', hcur'⟩ := Target.forward_cursor happ hids hforward
  rw [hsame.cursors, hcur'] at hcur
  have hpos' : pos' = pos := Option.some.inj (hfirst'.symm.trans hfirst)
  have hsum : pos' + ids.length = pos + ids.length + verifyLen := Option.some.inj hcur
  omega

theorem decodeDSpark_invisible_iff (happ : lm.target.Appends)
    (h : lm.decodeDSpark o ids positions s st = some (s', st', .ok out)) :
    lm.Invisible o ids positions s s' out ↔ lm.verifiedTokens ids s st = 0 := by
  constructor
  · intro hinv
    by_contra hpos
    unfold decodeDSpark at h
    unfold verifiedTokens at hpos
    split at h
    · cases h
    · rename_i block hblock
      rw [hblock] at hpos
      dsimp only at hpos h
      have hlen : lm.verifyLenFor block s st ≤ block.tokens.length := min_le_right _ _
      have htokens : block.tokens ≠ [] := by
        intro hnil
        rw [hnil, List.length_nil] at hlen
        exact hpos (Nat.le_zero.1 hlen)
      rw [if_neg htokens, if_neg hpos] at h
      exact verifyDSpark_visible happ (Nat.pos_of_ne_zero hpos) hlen h hinv
  · intro hnone
    exact plain_invisible (decodeDSpark_unverified hnone h)

end SpeculativeCausalLm

/-- `n` greedy steps from the `k`-th on: each emits a token, which is the next input.  `next` are
the positions of the inputs. -/
def greedyRun (step : ℕ → List F → List F → Session ρ F → σ →
      SpeculativeCausalLm.Outcome σ ρ F) (pick : List F → F) (next : ℕ → List F) :
    ℕ → ℕ → List F → List F → Session ρ F → σ → Option (List F × Session ρ F)
  | 0, _, _, _, s, _ => some ([], s)
  | n + 1, k, ids, positions, s, st =>
    match step k ids positions s st with
    | some (s, st, .ok out) =>
      (greedyRun step pick next n (k + 1) [pick out] (next k) s st).map fun (tokens, s) =>
        (pick out :: tokens, s)
    | _ => none

namespace SpeculativeCausalLm

variable (lm : SpeculativeCausalLm σ ρ H F) (o : ℕ → Outside) (pick : List F → F)
  (next : ℕ → List F)

def VerifiesNothing : ℕ → ℕ → List F → List F → Session ρ F → σ → Prop
  | 0, _, _, _, _, _ => True
  | n + 1, k, ids, positions, s, st =>
    lm.verifiedTokens ids s st = 0 ∧ ∀ s' st' out,
      lm.decodeOne (o k) ids positions s st = some (s', st', .ok out) →
        VerifiesNothing n (k + 1) [pick out] (next k) s' st'

variable {lm}

theorem greedyRun_unverified (hstrategy : lm.strategy = .dSpark) {s' : Session ρ F} :
    ∀ {n k : ℕ} {ids positions : List F} {s : Session ρ F} {st : σ}
      {tokens : List F}, lm.VerifiesNothing o pick next n k ids positions s st →
      greedyRun (fun k => lm.decodeOne (o k)) pick next n k ids positions s st =
        some (tokens, s') →
      greedyRun (fun k => lm.plain (o k)) pick next n k ids positions s st = some (tokens, s')
  | 0, _, _, _, _, _, _, _, h => h
  | n + 1, k, ids, positions, s, st, tokens, hnone, h => by
    unfold greedyRun at h ⊢
    split at h
    · rename_i s₁ st₁ out hstep
      obtain ⟨⟨rest, s₂⟩, hrest, heq⟩ := Option.map_eq_some_iff.1 h
      have hplain : lm.plain (o k) ids positions s st = some (s₁, st₁, .ok out) := by
        have hdspark := hstep
        rw [decodeOne, hstrategy] at hdspark
        exact decodeDSpark_unverified hnone.1 hdspark
      cases heq
      simp only [hplain, greedyRun_unverified hstrategy (hnone.2 _ _ _ hstep) hrest,
        Option.map_some]
    · cases h

/-- A step is invisible exactly when it verifies no drafted token, and runs without such a step emit
the tokens of the target alone. -/
theorem invisible_iff (lm : SpeculativeCausalLm σ ρ H F) (hstrategy : lm.strategy = .dSpark)
    (happ : lm.target.Appends) :
    (∀ o ids positions s st s' st' out,
      lm.decodeOne o ids positions s st = some (s', st', .ok out) →
        (lm.Invisible o ids positions s s' out ↔ lm.verifiedTokens ids s st = 0)) ∧
    ∀ (o : ℕ → Outside) (pick : List F → F) (next : ℕ → List F) n k ids positions s st tokens s',
      lm.VerifiesNothing o pick next n k ids positions s st →
      greedyRun (fun k => lm.decodeOne (o k)) pick next n k ids positions s st =
        some (tokens, s') →
      greedyRun (fun k => lm.plain (o k)) pick next n k ids positions s st = some (tokens, s') := by
  refine ⟨fun o ids positions s st s' st' out h => ?_, ?_⟩
  · rw [decodeOne, hstrategy] at h
    exact decodeDSpark_invisible_iff happ h
  · intro o pick next n k ids positions s st tokens s' hnone h
    exact greedyRun_unverified o pick next hstrategy hnone h

end SpeculativeCausalLm

/-- One layer of one number a token, and one token in the vocabulary. -/
def oneLayer : Target Unit Unit ℚ where
  layers := 1
  vocabSize := 1
  embed := fun _ _ _ => .ok ()
  project := fun _ ids _ _ _ =>
    let rows : Tensor := ⟨[ids.length, 1], List.replicate ids.length 0⟩
    .ok ((), rows, rows)
  head := fun ids _ _ _ => .ok ((), List.replicate ids.length 0)

theorem oneLayer_appends : oneLayer.Appends := by
  refine ⟨Nat.one_pos, ?_⟩
  intro l ids positions h s h' k v hrows
  cases hrows
  exact ⟨1, Nat.one_pos, rfl⟩

/-- The drafter proposes one token, and the scheduler wants `verifyLen` verified. -/
def oneDraft (verifyLen : ℕ) : SpeculativeCausalLm Unit Unit Unit ℚ where
  ops := ratOps
  target := oneLayer
  strategy := .dSpark
  drafting :=
    { currentDepth := fun _ => 1
      draftBlock := fun _ _ _ _ =>
        .ok { tokens := [0], baseLogits := [0], vocabSize := 1, confidence := [] }
      score := fun _ _ => [1]
      chooseVerifyLen := fun _ _ _ _ => verifyLen
      bias := fun _ _ base => .ok base
      observe := fun _ _ _ _ => .ok () }
  mtp := { mtpDepth := 0, predictMulti := fun _ _ s => some (s, .error "no heads") }
  gpuVerifier := none

def quietEnv : Env where
  now := fun _ _ => 0
  io := fun _ => .ok ()
  quantize := fun _ => none

def quiet : Outside where
  tentative := quietEnv
  layer := fun _ => quietEnv
  commit := fun _ => .ok ()
  rollback := fun _ => .ok ()

def newSession : Session Unit ℚ where
  kv := .new (.new 2 1 1 false 0) 1 1 blockSize
  pool := .new 2 1 1 false 0
  rng := fun _ => 1 / 2
  liveGpuUtilization := 0
  batchPressure := 0
  lastAcceptedTokens := 0
  rest := ()

/-- The first input, of one token, and whether the step succeeds. -/
def firstStep (verifyLen : ℕ) : SpeculativeCausalLm.Outcome Unit Unit ℚ :=
  (oneDraft verifyLen).decodeOne quiet [0] [0] newSession ()

theorem firstStep_ok (verifyLen : ℕ) (h : (firstStep verifyLen).any fun r => r.2.2.isOk) :
    ∃ s' out, firstStep verifyLen = some (s', (), .ok out) := by
  rcases hstep : firstStep verifyLen with _ | ⟨s', ⟨⟩, e | out⟩
  · simp [hstep] at h
  · simp [hstep, Except.isOk, Except.toBool] at h
  · exact ⟨s', out, rfl⟩

theorem firstStep_invisible : ∃ s' out, firstStep 0 = some (s', (), .ok out) ∧
    (oneDraft 0).Invisible quiet [0] [0] newSession s' out := by
  obtain ⟨s', out, hstep⟩ := firstStep_ok 0 (by decide +kernel)
  have hiff := (SpeculativeCausalLm.invisible_iff (oneDraft 0) rfl oneLayer_appends).1
    quiet [0] [0] newSession () s' () out hstep
  exact ⟨s', out, hstep, hiff.2 rfl⟩

/-- The drafted token is accepted, and its row stays in the cache. -/
theorem firstStep_visible : ∃ s' out, firstStep 1 = some (s', (), .ok out) ∧
    ¬ (oneDraft 1).Invisible quiet [0] [0] newSession s' out := by
  obtain ⟨s', out, hstep⟩ := firstStep_ok 1 (by decide +kernel)
  refine ⟨s', out, hstep, fun hinv => ?_⟩
  have hdspark : (oneDraft 1).decodeDSpark quiet [0] [0] newSession () = some (s', (), .ok out) :=
    hstep
  have hnone := (SpeculativeCausalLm.decodeDSpark_invisible_iff oneLayer_appends hdspark).1 hinv
  exact Nat.one_ne_zero hnone

end Grim.Speculative
