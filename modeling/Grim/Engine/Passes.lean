import Grim.Engine.Prefill
import Grim.Lib.Steps
import Grim.Memory.Runs

/-!
# Runs of prefill passes

The passes of an engine, in any order, from its new sessions on.  `written` is what the forward
passes have written so far: the token whose row a layer has at an offset of a block.
-/

namespace Grim.Engine

open KvTransport Memory
open Function (update)

/-- The rows of `tokens` in one layer, the first at position `pos` of the table. -/
def wroteRows (table : List ℕ) :
    ℕ → List UInt32 → (ℕ → ℕ → Option UInt32) → ℕ → ℕ → Option UInt32
  | _, [], w => w
  | pos, token :: tokens, w =>
    wroteRows table (pos + 1) tokens <| match table[pos / blockSize]? with
      | some b => update w b (update (w b) (pos % blockSize) (some token))
      | none => w

/-- The rows of a forward pass from `c` to `c'`: in each layer as many of the chunk as its cursor
moved on.  The cursor of a layer that is new in the pass began at the end of the sequence. -/
def wrote (c c' : PagedKvCache) (chunk : List UInt32) (w : ℕ → ℕ → ℕ → Option UInt32) (l : ℕ) :
    ℕ → ℕ → Option UInt32 :=
  let start := c.layerCommittedTokens[l]?.getD c.committedTokens
  let stop := c'.layerCommittedTokens[l]?.getD start
  wroteRows c'.table start (chunk.take (stop - start)) (w l)

structure History where
  engine : Engine
  written : ℕ → ℕ → ℕ → Option UInt32

/-- What an engine starts with; `hasSession` are the requests with a session. -/
structure Config where
  pool : Setup
  numLayers : ℕ
  layers_pos : 0 < numLayers
  radixEnabled : Bool
  models : String → Option LoadedModel
  modelForRequest : ℕ → Option String
  requestInputIds : ℕ → Option (List UInt32)
  requestSession : ℕ → Bool
  hasSession : ℕ → Bool
  kvWatermarkBlocks : Option ℕ
  kvKeepTailBlocks : ℕ
  sessionPinSecs : ℕ

def new (cfg : Config) : Engine where
  pool := cfg.pool.pool
  radixEnabled := cfg.radixEnabled
  numLayers := cfg.numLayers
  models := cfg.models
  modelForRequest := cfg.modelForRequest
  requestInputIds := cfg.requestInputIds
  requestSession := cfg.requestSession
  sessions id := if cfg.hasSession id then
      some (.new cfg.pool.pool cfg.pool.numHeads cfg.pool.headDim blockSize)
    else none
  prefillProgress _ := none
  radixSeededBlocks _ := none
  radixRegisteredBlocks _ := none
  kvWatermarkBlocks := cfg.kvWatermarkBlocks
  kvKeepTailBlocks := cfg.kvKeepTailBlocks
  sessionPinSecs := cfg.sessionPinSecs

namespace History

def new (cfg : Config) : History where
  engine := .new cfg
  written _ _ _ := none

variable (h : History)

def step (q : Pass) : Option History :=
  (h.engine.beginPass q).bind fun (e, chunk) =>
    (h.engine.drivePrefillInner q).map fun (e', _) =>
      { engine := e'
        written := match e.sessions q.id, e'.sessions q.id, chunk with
          | some c, some c', some ch => wrote c c' ch.tokens h.written
          | _, _, _ => h.written }

/-- Block `b` has the rows of the `BLOCK_SIZE` tokens of a block with key `key`, in every layer. -/
def Computed (key : TokenKey) (b : ℕ) : Prop :=
  ∃ block : List UInt32, block.length = blockSize
    ∧ h.engine.pool.prefixTree.blockKey block 0 = key
    ∧ ∀ l < h.engine.numLayers, ∀ j < blockSize, h.written l b j = block[j]?

/-- What `match_prefix` returns for some tokens is computed for the keys of their blocks. -/
def HitsComputed : Prop :=
  ∀ tokens i b, (h.engine.pool.matchPrefix tokens).1[i]? = some b →
    h.Computed (h.engine.pool.prefixTree.blockKey tokens (i * blockSize)) b

/-- Every registered block is computed for the key it is registered under. -/
def RegistersComputed : Prop :=
  ∀ p key c, (key, c) ∈ (h.engine.pool.prefixTree.nodes p).children →
    h.Computed key (h.engine.pool.prefixTree.nodes c).blockId

end History

variable (e : Engine)

def RealIds (q : Pass) : Prop :=
  match e.requestInputIds q.id with
  | some full => full ≠ [] ∧ ∀ r ∈ q.copies, r.promptTokens = full.length
  | none => False

instance (q : Pass) : Decidable (e.RealIds q) := by
  unfold RealIds
  split <;> infer_instance

def takes (q : Pass) (full : List UInt32) : ℕ :=
  let skip := skipTokens full (e.pool.matchPrefix full).2
  if e.radixEnabled ∧ (e.prefillProgress q.id).getD 0 = 0 ∧ blockSize ≤ skip
      ∧ ¬ e.modelUsesHybridKv q.id then skip
  else 0

def start (q : Pass) (full : List UInt32) : ℕ :=
  if e.takes q full = 0 then (e.prefillProgress q.id).getD 0 else e.takes q full

def counted (q : Pass) (full : List UInt32) : ℕ :=
  if e.takes q full = 0 then e.skipBlocks q.id
  else e.takes q full / blockSize + (e.radixRegisteredBlocks q.id).getD 0

/-- Where a pass takes a prefix its session has no block yet; where it runs a chunk its session is
at the tokens prefilled before, and of the blocks it will have then, those that are not in the
tree end at the chunk's end at the latest. -/
def FillsBlocks (q : Pass) : Prop :=
  match e.sessions q.id, e.requestInputIds q.id with
  | some kv, some full =>
    let target := min q.consumedTokens full.length
    let blocks := max kv.table.length (PagedKvCache.blocksFor target)
    q.copies ≠ [] →
      (e.takes q full ≠ 0 → kv.table = [])
      ∧ (e.start q full < target → e.modelForRequest q.id ≠ none →
        (e.takes q full = 0 → kv.committedTokens = e.start q full)
        ∧ (e.radixEnabled → (∀ l ≤ e.numLayers, q.forward.failAt ≠ some l) →
          blocks ≤ e.counted q full ∨ blocks * blockSize ≤ target
            ∨ (e.pool.prefixTree.walk full blocks e.pool.prefixTree.root 0).length = blocks))
  | _, _ => True

instance (q : Pass) : Decidable (e.FillsBlocks q) := by
  unfold FillsBlocks
  split <;> infer_instance

end Grim.Engine
