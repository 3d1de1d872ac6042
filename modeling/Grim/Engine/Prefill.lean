import Grim.Memory.Paged
import Grim.Scheduler.Model

/-!
# The prefill pass

`drive_prefill_inner` runs the tokens that the scheduler budgeted for a request through its model:
a first pass takes the matched prefix from the tree, and a pass that went through registers the
request's blocks there.  A pass that panics is `none`; what the environment's variables say is
part of the engine.
-/

namespace Grim.Engine

open KvTransport Memory
open Function (update)

/-- `hybrid` says whether it is an `Lfm2`. -/
structure LoadedModel where
  hybrid : Bool
deriving DecidableEq, Repr

/-- The forward pass of a model: the keys and values each layer makes of a chunk, and the layer
before which it fails, if it does; after the last one stands `num_layers`. -/
structure Forward where
  k : ℕ → List UInt32 → Tensor
  v : ℕ → List UInt32 → Tensor
  env : ℕ → Env
  failAt : Option ℕ
  error : String
  fits : ∀ layer chunk, (k layer chunk).seqStride.1 = chunk.length
    ∧ 0 < (k layer chunk).seqStride.2

/-- The layers from `layer` on, `n` of them: each appends the chunk's keys and values. -/
def Forward.run (f : Forward) (chunk : List UInt32) :
    ℕ → ℕ → PagedKvCache → KvBlockPool → PagedKvCache.Outcome
  | 0, layer, c, p => some (c, p, if f.failAt = some layer then .error f.error else .ok ())
  | n + 1, layer, c, p =>
    if f.failAt = some layer then some (c, p, .error f.error)
    else
      (c.appendKvLayer (f.env layer) layer (f.k layer chunk) (f.v layer chunk) p).andThen fun c p =>
        f.run chunk n (layer + 1) c p

end Engine

open Engine KvTransport Memory
open Function (update)

/-- `numLayers` are the layers of the models, which share the pool. -/
structure Engine where
  pool : KvBlockPool
  radixEnabled : Bool
  numLayers : ℕ
  models : String → Option LoadedModel
  modelForRequest : ℕ → Option String
  requestInputIds : ℕ → Option (List UInt32)
  requestSession : ℕ → Bool
  sessions : ℕ → Option PagedKvCache
  prefillProgress : ℕ → Option ℕ
  radixSeededBlocks : ℕ → Option ℕ
  radixRegisteredBlocks : ℕ → Option ℕ
  kvWatermarkBlocks : Option ℕ
  kvKeepTailBlocks : ℕ
  sessionPinSecs : ℕ

namespace Engine

/-- What a pass for request `id` finds: the scheduler's running copies, the forward pass, the
clocks of the calls it makes on the tree, and the file writes of its demotions. -/
structure Pass where
  id : ℕ
  running : List Scheduler.Request
  forward : Forward
  nowClaim : ℕ → ℕ
  nowRegister : ℕ → ℕ
  nowPin : ℕ
  io : ℕ → Except String Unit

namespace Pass

def copies (q : Pass) : List Scheduler.Request := q.running.filter (·.id = q.id)

def promptTokens (q : Pass) : Option ℕ := q.copies.getLast?.map (·.promptTokens)

def consumedTokens (q : Pass) : ℕ := q.copies.foldl (fun n r => max n r.consumedTokens) 0

end Pass

/-- The tokens `[already, target)` of `full_input`. -/
structure Chunk where
  full : List UInt32
  already : ℕ
  target : ℕ
deriving DecidableEq, Repr

def Chunk.tokens (ch : Chunk) : List UInt32 :=
    (ch.full.drop ch.already).take (ch.target - ch.already)

variable (e : Engine)

def realIds (id prompt : ℕ) : Option (List UInt32) :=
  (e.requestInputIds id).filter fun v => v ≠ [] ∧ v.length = prompt

def fullInput (id prompt : ℕ) : List UInt32 :=
  (e.realIds id prompt).getD ((List.range (prompt % 2 ^ 32)).map UInt32.ofNat)

def modelUsesHybridKv (id : ℕ) : Bool :=
  match (e.modelForRequest id).bind e.models with
  | some m => m.hybrid
  | none => true

/-- The tokens that a match of `n` lets a pass skip: whole blocks, and not the whole prompt. -/
def skipTokens (full : List UInt32) (n : ℕ) : ℕ :=
  let raw := min n (full.length - 1)
  raw - raw % blockSize

/-- Takes the matched blocks into the session, and returns the tokens prefilled by then. -/
def claimPrefix (q : Pass) (full : List UInt32) (real : Bool) (already : ℕ) :
    Option (Engine × ℕ) :=
  if e.radixEnabled ∧ already = 0 ∧ real ∧ full ≠ [] then
    (e.pool.matchPrefixPromoting full).bind fun (p, matched, n, _) =>
      let e := { e with pool := p }
      let skip := skipTokens full n
      if blockSize ≤ skip ∧ ¬ e.modelUsesHybridKv q.id then
        -- a slice that ends behind the blocks or the tokens panics
        if matched.length < skip / blockSize ∨ full.length < skip then none
        else
        let seeds := matched.take (skip / blockSize)
        (p.insertPrefix (full.take skip) seeds q.nowClaim).map fun p =>
          match e.sessions q.id with
          | some kv =>
            let (kv, p) := kv.seedPrefix seeds p
            ({ e with
                pool := p
                sessions := update e.sessions q.id (some kv)
                prefillProgress := update e.prefillProgress q.id (some skip)
                radixSeededBlocks := update e.radixSeededBlocks q.id (some seeds.length) }, skip)
          | none => ({ e with pool := p }, already)
      else some (e, already)
  else some (e, already)

/-- The pass up to its chunk; there is none where it budgeted no new prompt tokens. -/
def beginPass (q : Pass) : Option (Engine × Option Chunk) :=
  match q.promptTokens with
  | none => some (e, none)
  | some prompt =>
    if prompt = 0 then some (e, none)
    else
      let full := e.fullInput q.id prompt
      let target := min q.consumedTokens prompt
      (e.claimPrefix q full (e.realIds q.id prompt).isSome
          ((e.prefillProgress q.id).getD 0)).bind fun (e, already) =>
        if target ≤ already then some (e, none)
        else if full.length < target then none
        else some (e, some ⟨full, already, target⟩)

def driveForward (modelId : String) (q : Pass) (chunk : List UInt32) :
    Option (Engine × Except String Unit) :=
  match e.models modelId with
  | none => some (e, .error s!"unknown model {modelId}")
  | some _ =>
    match e.sessions q.id with
    | none => some (e, .error "no session for request")
    | some kv => (q.forward.run chunk e.numLayers 0 kv e.pool).map fun (kv, p, res) =>
        ({ e with pool := p, sessions := update e.sessions q.id (some kv) }, res)

def blockTable (id : ℕ) : List ℕ :=
  match e.sessions id with
  | some kv => kv.table
  | none => []

/-- The blocks of the table counted as in the tree: those seeded and those registered before. -/
def skipBlocks (id : ℕ) : ℕ :=
  (e.radixSeededBlocks id).getD 0 + (e.radixRegisteredBlocks id).getD 0

def registerPrefix (q : Pass) (full : List UInt32) : Option Engine :=
  let table := e.blockTable q.id
  let skip := e.skipBlocks q.id
  if e.radixEnabled ∧ full ≠ [] ∧ skip < table.length then
    (e.pool.insertPrefixWithRecurrentStateAt full table skip q.nowRegister).map fun p =>
      let registeredNow := table.length - skip
      { e with
        pool := p
        radixRegisteredBlocks :=
          update e.radixRegisteredBlocks q.id (some (skip + registeredNow)) }
  else some e

def demoteBlocks (io : ℕ → Except String Unit) : List ℕ → KvBlockPool → Option KvBlockPool
  | [], p => some p
  | bid :: blocks, p =>
    (p.demotePrefixBlock bid (io 0)).bind fun (p, _) =>
      demoteBlocks (fun k => io (k + 1)) blocks p

/-- The watermark policy: all but the last blocks of a long table go to the spill manager. -/
def demoteWatermark (q : Pass) : Option Engine :=
  let table := e.blockTable q.id
  match e.kvWatermarkBlocks with
  | none => some e
  | some watermark =>
    if watermark < table.length ∧ e.pool.spill.isSome then
      (demoteBlocks q.io (table.take (table.length - e.kvKeepTailBlocks)) e.pool).map fun p =>
        { e with pool := p }
    else some e

def pinSession (q : Pass) : Engine :=
  if e.requestSession q.id ∧ e.blockTable q.id ≠ [] then
    { e with pool := e.pool.pinBlocks (e.blockTable q.id) e.sessionPinSecs q.nowPin }
  else e

def endPass (q : Pass) (ch : Chunk) : Option Engine :=
  let e := { e with prefillProgress := update e.prefillProgress q.id (some ch.target) }
  (e.registerPrefix q ch.full).bind fun e => (e.demoteWatermark q).map fun e => e.pinSession q

def drivePrefillInner (q : Pass) : Option (Engine × Except String ℕ) :=
  (e.beginPass q).bind fun (e, chunk) =>
    match chunk, e.modelForRequest q.id with
    | some ch, some modelId =>
      (e.driveForward modelId q ch.tokens).bind fun (e, res) =>
        match res with
        | .error err => some (e, .error err)
        | .ok () => (e.endPass q ch).map fun e => (e, .ok ch.tokens.length)
    | _, _ => some (e, .ok 0)

end Grim.Engine
