import Grim.Memory.Writes

/-!
# The speculative wrapper

A target model, and around it the decode steps that draft tokens, verify them with one forward pass
and keep what the rejection test accepts.  The models are parameters, and so are the operations on
`f32`; a tensor is its numbers, row by row.  A panic is `none`, and a call that fails leaves what it
did so far.
-/

namespace Grim.Speculative

open Memory Slice

/-- The operations on `f32`, and its constants. -/
structure FloatOps (F : Type) where
  zero : F
  one : F
  negOne : F
  negInfinity : F
  /-- `1e-10` -/
  tiny : F
  add : F → F → F
  sub : F → F → F
  div : F → F → F
  min : F → F → F
  max : F → F → F
  exp : F → F
  lt : F → F → Bool
  /-- `as f32` -/
  ofNat : ℕ → F

variable {σ ρ H F : Type}

def softmaxF32Row (ops : FloatOps F) (logits : List F) : List F :=
  let maxVal := logits.foldl ops.max ops.negInfinity
  let exps := logits.map fun x => ops.exp (ops.sub x maxVal)
  let expSum := exps.foldl ops.add ops.zero
  exps.map fun e => ops.div e expSum

/-- The `r`-th row; a row that is not all there panics. -/
def rowOf (data : List F) (vocabSize r : ℕ) : Option (List F) :=
  if r * vocabSize + vocabSize ≤ data.length then some (slice data (r * vocabSize) vocabSize)
  else none

/-- The probability with which a draft token is accepted, by the target's row and the draft's. -/
def pAccept (ops : FloatOps F) (target draft : List F) (draftTok : UInt32) : Option F :=
  (softmaxF32Row ops target)[draftTok.toNat]?.bind fun pTarget =>
    (softmaxF32Row ops draft)[draftTok.toNat]?.map fun pDraft =>
      if ops.lt ops.tiny pDraft then ops.min (ops.div pTarget pDraft) ops.one else ops.zero

/-- The test of the `i`-th draft token with the target's row `r`. -/
def ratioTest (ops : FloatOps F) (target draft : List F) (vocabSize : ℕ) (tokens : List UInt32)
    (draws : ℕ → F) (r i : ℕ) : Option Bool :=
  tokens[i]?.bind fun tok => (rowOf target vocabSize r).bind fun t =>
    (rowOf draft vocabSize i).bind fun d => (pAccept ops t d tok).map fun p => ops.lt (draws i) p

/-- The CPU loop from the `i`-th draft token on, `n` of them. -/
def verifyLoop (test : ℕ → Option Bool) : ℕ → ℕ → Option ℕ
  | 0, _ => some 0
  | n + 1, i => (test i).bind fun pass =>
    if pass then (verifyLoop test n (i + 1)).map (· + 1) else some 0

/-- The verifier on the GPU, with the logits, the context length, the vocabulary, the draft tokens
and the uniforms. -/
abbrev SpeculativeVerifier (F : Type) :=
  List F → List F → ℕ → ℕ → List UInt32 → List F → Except String ℕ

/-- `gpu` is the verifier where it is attached and both logits are on its device; `draws` are the
numbers of the caller's generator. -/
def verifyAcceptedCount (ops : FloatOps F) (gpu : Option (SpeculativeVerifier F))
    (target draft : List F) (contextLen vocabSize : ℕ) (tokens : List UInt32) (verifyLen : ℕ)
    (uniforms : List F) (draws : ℕ → F) : Option ℕ :=
  let cpu := verifyLoop (fun i =>
    ratioTest ops target draft vocabSize tokens draws (contextLen + i) i) verifyLen 0
  match gpu with
  | some verify =>
    if verifyLen + 1 ≤ uniforms.length then
      match verify target draft contextLen vocabSize tokens uniforms with
      | .ok count => some count
      | .error _ => cpu
    else cpu
  | none => cpu

/-- The rows `contextLen` to `contextLen + acceptedCount`. -/
def extractAcceptedLogits {α : Type} (targetLogits : List α)
    (acceptedCount vocabSize contextLen : ℕ) : Except String (List α) :=
  let start := contextLen * vocabSize
  let stop := start + acceptedCount * vocabSize
  if targetLogits.length < stop then
    .error (s!"extract_accepted_logits: slice [{start}..{stop}] out of bounds " ++
      s!"(logits len={targetLogits.length})")
  else .ok (slice targetLogits start (acceptedCount * vocabSize))

/-- A session with a paged cache; `rng` are the numbers its generator returns next, and `rest` is
what else the models keep in it. -/
structure Session (ρ F : Type) where
  kv : PagedKvCache
  pool : KvBlockPool
  rng : ℕ → F
  liveGpuUtilization : F
  batchPressure : ℕ
  lastAcceptedTokens : ℕ
  rest : ρ

/-- What the calls of one step find outside, `append_kv_layer` for each layer. -/
structure Outside where
  tentative : Env
  layer : ℕ → Env
  commit : ℕ → Except String Unit
  rollback : ℕ → Except String Unit

/-- A causal model: the input becomes a hidden state, each layer its keys and values and the next
state, with the rows appended so far in the session, and the last state the logits. -/
structure Target (ρ H F : Type) where
  layers : ℕ
  vocabSize : ℕ
  embed : List F → List F → Session ρ F → Except String H
  project : ℕ → List F → List F → H → Session ρ F → Except String (H × Tensor × Tensor)
  head : List F → List F → H → Session ρ F → Except String (ρ × List F)

namespace Target

variable (m : Target ρ H F) (o : Outside)

/-- `n` layers from the `l`-th on. -/
def forwardLayers (ids positions : List F) :
    ℕ → ℕ → H → Session ρ F → Option (Session ρ F × Except String H)
  | 0, _, h, s => some (s, .ok h)
  | n + 1, l, h, s =>
    match m.project l ids positions h s with
    | .error e => some (s, .error e)
    | .ok (h, k, v) =>
      match s.kv.appendKvLayer (o.layer l) l k v s.pool with
      | none => none
      | some (kv, pool, .error e) => some ({ s with kv, pool }, .error e)
      | some (kv, pool, .ok ()) => forwardLayers ids positions n (l + 1) h { s with kv, pool }

def forward (ids positions : List F) (s : Session ρ F) :
    Option (Session ρ F × Except String (List F)) :=
  match m.embed ids positions s with
  | .error e => some (s, .error e)
  | .ok h =>
    match m.forwardLayers o ids positions m.layers 0 h s with
    | none => none
    | some (s, .error e) => some (s, .error e)
    | some (s, .ok h) =>
      match m.head ids positions h s with
      | .error e => some (s, .error e)
      | .ok (rest, logits) => some ({ s with rest }, .ok logits)

end Target

/-- `vocabSize` is the second dimension of the base logits. -/
structure DraftBlock (F : Type) where
  tokens : List UInt32
  baseLogits : List F
  vocabSize : ℕ
  confidence : List F

/-- The drafter, the heads, the scheduler and the depth tuner, whose state is `σ`.  No drafter
writes to the session. -/
structure Drafting (σ ρ F : Type) where
  currentDepth : σ → ℕ
  draftBlock : σ → Session ρ F → List F → ℕ → Except String (DraftBlock F)
  score : σ → DraftBlock F → List F
  chooseVerifyLen : σ → DraftBlock F → F → ℕ → ℕ
  bias : σ → List UInt32 → List F → Except String (List F)
  /-- `record_acceptance`, the refresh of the draft model and the tuner's update. -/
  observe : σ → Session ρ F → List UInt32 → ℕ → Except String σ

/-- A target that drafts with its own heads, and may write to the session for it. -/
structure NativeMtp (ρ F : Type) where
  mtpDepth : ℕ
  predictMulti : List F → List F → Session ρ F →
    Option (Session ρ F × Except String (DraftBlock F))

inductive Strategy
  | plain
  | dSpark
  | nativeMtp
deriving DecidableEq, Repr

structure SpeculativeCausalLm (σ ρ H F : Type) where
  ops : FloatOps F
  target : Target ρ H F
  strategy : Strategy
  drafting : Drafting σ ρ F
  mtp : NativeMtp ρ F
  gpuVerifier : Option (SpeculativeVerifier F)

def extendInputIds (ops : FloatOps F) (ids : List F) (draftTokens : List UInt32) : List F :=
  ids ++ draftTokens.map fun tok => ops.ofNat tok.toNat

def extendPositions (ops : FloatOps F) (positions : List F) (numNew : ℕ) : List F :=
  let lastPos := positions.getLast?.getD ops.negOne
  if positions = [] ∧ 0 < numNew then (List.range numNew).map ops.ofNat
  else positions ++ (List.range numNew).map fun i => ops.add (ops.add lastPos ops.one) (ops.ofNat i)

namespace SpeculativeCausalLm

variable (lm : SpeculativeCausalLm σ ρ H F) (o : Outside)

/-- The session, the drafting state and the logits after a step. -/
abbrev Outcome (σ ρ F : Type) := Option (Session ρ F × σ × Except String (List F))

def plain (ids positions : List F) (s : Session ρ F) (st : σ) : Outcome σ ρ F :=
  (lm.target.forward o ids positions s).map fun (s, logits) => (s, st, logits)

/-- The accepted tokens among the drafts, by the target's logits on the extended input.  The
generator is a copy, and the uniforms are drawn first. -/
def acceptedOf (block : DraftBlock F) (contextLen verifyLen : ℕ) (targetLogits : List F)
    (s : Session ρ F) : Option ℕ :=
  verifyAcceptedCount lm.ops lm.gpuVerifier targetLogits block.baseLogits contextLen
    block.vocabSize (block.tokens.take verifyLen) verifyLen
    ((List.range (verifyLen + 1)).map s.rng) fun i => s.rng (verifyLen + 1 + i)

def nextTokenRow (targetLogits : List F) (contextLen vocabSize : ℕ) : Except String (List F) :=
  if contextLen = 0 then .error "DSpark decode: empty input has no next-token logits row"
  else
    let start := (contextLen - 1) * vocabSize
    let stop := start + vocabSize
    if targetLogits.length < stop then
      .error (s!"DSpark decode: next-token row [{start}..{stop}] out of bounds " ++
        s!"(len {targetLogits.length})")
    else .ok (slice targetLogits start vocabSize)

/-- The part of a DSpark step behind the verification: what the cache and the scheduler keep. -/
def settleDSpark (block : DraftBlock F) (contextLen verifyLen acceptedCount : ℕ)
    (targetLogits : List F) (s : Session ρ F) (st : σ) : Outcome σ ρ F :=
  if verifyLen < acceptedCount then
    some (s, st, .error (s!"speculative KV contract violation: accepted_count " ++
      s!"({acceptedCount}) > verify_len ({verifyLen})"))
  else
    (s.kv.commit o.commit acceptedCount s.pool).bind fun (kv, pool) =>
      let s := { s with kv, pool }
      match lm.drafting.observe st s (block.tokens.take verifyLen) acceptedCount with
      | .error e => some (s, st, .error e)
      | .ok st =>
        (s.kv.commit o.rollback 0 s.pool).map fun (kv, pool) =>
          let s := { s with kv, pool }
          match nextTokenRow targetLogits contextLen block.vocabSize with
          | .error e => (s, st, .error e)
          | .ok row => ({ s with lastAcceptedTokens := acceptedCount }, st, .ok row)

/-- A DSpark step with `verifyLen` drafted tokens to verify. -/
def verifyDSpark (block : DraftBlock F) (verifyLen : ℕ) (ids positions : List F)
    (s : Session ρ F) (st : σ) : Outcome σ ρ F :=
  match s.kv.tentativeAppend o.tentative verifyLen s.pool with
  | none => none
  | some (kv, pool, .error e) => some ({ s with kv, pool }, st, .error e)
  | some (kv, pool, .ok ()) =>
    let s := { s with kv, pool }
    match lm.drafting.bias st (block.tokens.take verifyLen) block.baseLogits with
    | .error e => some (s, st, .error e)
    | .ok _ =>
      match lm.target.forward o (extendInputIds lm.ops ids (block.tokens.take verifyLen))
        (extendPositions lm.ops positions verifyLen) s with
      | none => none
      | some (s, .error e) => some (s, st, .error e)
      | some (s, .ok targetLogits) =>
        (lm.acceptedOf block ids.length verifyLen targetLogits s).bind fun acceptedCount =>
          lm.settleDSpark o block ids.length verifyLen acceptedCount targetLogits s st

def scored (block : DraftBlock F) (st : σ) : DraftBlock F :=
  { block with confidence := lm.drafting.score st block }

def verifyLenFor (block : DraftBlock F) (s : Session ρ F) (st : σ) : ℕ :=
  min (lm.drafting.chooseVerifyLen st (lm.scored block st) s.liveGpuUtilization s.batchPressure)
    block.tokens.length

def decodeDSpark (ids positions : List F) (s : Session ρ F) (st : σ) : Outcome σ ρ F :=
  match lm.drafting.draftBlock st s ids (lm.drafting.currentDepth st) with
  | .error e => some (s, st, .error e)
  | .ok block =>
    if block.tokens = [] then lm.plain o ids positions s st
    else
      let verifyLen := lm.verifyLenFor block s st
      if verifyLen = 0 then lm.plain o ids positions s st
      else lm.verifyDSpark o block verifyLen ids positions s st

def settleNativeMtp (block : DraftBlock F) (contextLen verifyLen acceptedCount : ℕ)
    (targetLogits : List F) (s : Session ρ F) (st : σ) : Outcome σ ρ F :=
  if verifyLen < acceptedCount then
    some (s, st, .error (s!"speculative KV contract violation (NativeMTP): accepted_count " ++
      s!"({acceptedCount}) > verify_len ({verifyLen})"))
  else
    (s.kv.commit o.commit acceptedCount s.pool).map fun (kv, pool) =>
      let s := { s with kv, pool }
      match extractAcceptedLogits targetLogits acceptedCount block.vocabSize contextLen with
      | .error e => (s, st, .error e)
      | .ok logits => ({ s with lastAcceptedTokens := acceptedCount }, st, .ok logits)

def verifyNativeMtp (block : DraftBlock F) (ids positions : List F) (s : Session ρ F) (st : σ) :
    Outcome σ ρ F :=
  let verifyLen := min block.tokens.length lm.mtp.mtpDepth
  match s.kv.tentativeAppend o.tentative verifyLen s.pool with
  | none => none
  | some (kv, pool, .error e) => some ({ s with kv, pool }, st, .error e)
  | some (kv, pool, .ok ()) =>
    match lm.target.forward o (extendInputIds lm.ops ids (block.tokens.take verifyLen))
      (extendPositions lm.ops positions verifyLen) { s with kv, pool } with
    | none => none
    | some (s, .error e) => some (s, st, .error e)
    | some (s, .ok targetLogits) =>
      (lm.acceptedOf block ids.length verifyLen targetLogits s).bind fun acceptedCount =>
        settleNativeMtp o block ids.length verifyLen acceptedCount targetLogits s st

def decodeNativeMtp (ids positions : List F) (s : Session ρ F) (st : σ) : Outcome σ ρ F :=
  if lm.mtp.mtpDepth = 0 then lm.plain o ids positions s st
  else
    match lm.mtp.predictMulti ids positions s with
    | none => none
    | some (s, .error e) => some (s, st, .error e)
    | some (s, .ok block) =>
      if block.tokens = [] then lm.plain o ids positions s st
      else lm.verifyNativeMtp o block ids positions s st

def decodeOne (ids positions : List F) (s : Session ρ F) (st : σ) : Outcome σ ρ F :=
  match lm.strategy with
  | .plain => lm.plain o ids positions s st
  | .nativeMtp => lm.decodeNativeMtp o ids positions s st
  | .dSpark => lm.decodeDSpark o ids positions s st

end SpeculativeCausalLm

end Grim.Speculative
