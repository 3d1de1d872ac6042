import Grim.Memory.Paged

/-!
# Writes to a block, and the flush

What a handoff and `store_kv` write, block by block, and `flush_dirty_to_host`, which copies the
blocks written since to the spill manager and leaves them on the GPU.
-/

namespace Grim.Memory

open KvTransport Slice
open Function (update)

namespace KvBlockPool

variable (p : KvBlockPool)

def tokenElem : ℕ := p.numHeads * p.headDim

def layerElem (layer : ℕ) : ℕ := (p.layerGeoms layer).getD (blockSize * p.numHeads * p.headDim)

def markDirty (id : ℕ) : KvBlockPool :=
  if id < p.numBlocks then { p with dirtyBlocks := update p.dirtyBlocks id true } else p

def putDirty (id : ℕ) (b : KvBlock) : KvBlockPool :=
  { p.modify id fun _ => b with dirtyBlocks := update p.dirtyBlocks id true }

def writeKeys (id : ℕ) (keys : List UInt32) (numTokens : ℕ) : Option KvBlockPool :=
  if p.numBlocks ≤ id then none
  else
    let b := p.blocks id
    let n := min numTokens blockSize
    let len := min (n * p.tokenElem) keys.length
    (write b.keyData 0 (keys.take len)).map fun data =>
      p.putDirty id { b with
        keyData := data
        numTokens := n
        received := b.received || decide (0 < len) }

def writeValues (id : ℕ) (values : List UInt32) : Option KvBlockPool :=
  if p.numBlocks ≤ id then none
  else
    let b := p.blocks id
    let len := min (b.numTokens * p.tokenElem) values.length
    (write b.valueData 0 (values.take len)).map fun data =>
      p.putDirty id { b with valueData := data }

/-- The layers up to `layer`, the new ones zeroed and of their own size. -/
def growOwn (layer : ℕ) (layers : List (List UInt32)) : List (List UInt32) :=
  layers ++ (List.range' layers.length (layer + 1 - layers.length)).map fun i =>
    if i = 0 then [] else List.replicate (p.layerElem i) 0

/-- What the two `try_write_layer_` calls share: their checks, and the row put into one half of the
block, where `first` stores it in layer 0 and `layers` and `setLayers` are the other layers. -/
def tryWriteLayer (fn : String) (first : KvBlock → Option KvBlock)
    (layers : KvBlock → List (List UInt32)) (setLayers : KvBlock → List (List UInt32) → KvBlock)
    (id layer : ℕ) (row : List UInt32) : Option (KvBlockPool × Except String Unit) :=
  if p.numBlocks ≤ id then
    some (p, .error s!"{fn}: block id {id} out of bounds (capacity {p.numBlocks})")
  else if p.layerElem layer < row.length then
    some (p, .error (s!"{fn}: payload length {row.length} exceeds block elem capacity " ++
      s!"{p.layerElem layer} for layer {layer}"))
  else
    let b := p.blocks id
    let stored :=
      if layer = 0 then first b
      else
        let grown := p.growOwn layer (layers b)
        (write (grown.getD layer []) 0 row).map fun data => setLayers b (grown.set layer data)
    stored.map fun b => (p.putDirty id b, .ok ())

def tryWriteLayerKeys (id layer : ℕ) (keys : List UInt32) (numTokens : ℕ) :
    Option (KvBlockPool × Except String Unit) :=
  p.tryWriteLayer "write_layer_keys"
    (fun b => (write b.keyData 0 keys).map fun data => { b with
      keyData := data
      numTokens := min numTokens blockSize
      received := b.received || decide (0 < keys.length) })
    (·.layerKeys) (fun b layers => { b with layerKeys := layers }) id layer keys

def tryWriteLayerValues (id layer : ℕ) (values : List UInt32) :
    Option (KvBlockPool × Except String Unit) :=
  p.tryWriteLayer "write_layer_values"
    (fun b => (write b.valueData 0 values).map fun data => { b with valueData := data })
    (·.layerValues) (fun b layers => { b with layerValues := layers }) id layer values

def setReceived (id : ℕ) (received : Bool) : KvBlockPool :=
  if id < p.numBlocks then
    p.modify id fun b => { b with
      numTokens := if received then b.numTokens else 0
      received := received }
  else p

/-- The copies of the blocks `ids` on the GPU; the first that fails ends the flush. -/
def flushAll : List ℕ → LocalSpillManager → LocalSpillManager × Except String Unit
  | [], s => (s, .ok ())
  | id :: ids, s =>
    if id < p.numBlocks ∧ (p.blocks id).location = .gpu then
      match s.demoteToHost id (p.blocks id).keyData (p.blocks id).valueData with
      | (s, .error e) => (s, .error e)
      | (s, .ok ()) => flushAll ids s
    else flushAll ids s

def drained (order : List ℕ) : List ℕ := order.filter p.dirtyBlocks

def flushDirtyToHost (order : List ℕ) : KvBlockPool × Except String ℕ :=
  match p.spill with
  | none => ({ p with dirtyBlocks := fun _ => false }, .ok (p.drained order).length)
  | some s =>
    let (s, res) := p.flushAll (p.drained order) s
    ({ p with spill := some s, dirtyBlocks := fun _ => false },
      res.map fun _ => (p.drained order).length)

/-- The blocks that `reset_prefix_cache` takes: without references, and not free. -/
def unreferenced : List ℕ :=
  (List.range p.numBlocks).filter fun id => p.blockRefCount id = 0 ∧ id ∉ p.freeList

def resetPrefixCache (now : ℕ) : KvBlockPool × ℕ :=
  ({ p with
      blocks := fun id => if id ∈ p.unreferenced then
          { p.blocks id with numTokens := 0, received := false }
        else p.blocks id
      freeList := p.freeList ++ p.unreferenced
      prefixTree := .new blockSize now
      recentlyZero := [] }, p.unreferenced.length)

end KvBlockPool

namespace PagedKvCache

variable (c : PagedKvCache)

/-- `store_kv`; `rows` is the first dimension of the keys. -/
def storeKv (k v : List UInt32) (rows : ℕ) (p : KvBlockPool) : Option KvBlockPool :=
  match c.table.getLast? with
  | none => some p
  | some id => (p.writeKeys id k rows).bind fun p => p.writeValues id v

/-- `tentative_append`: the blocks for `n` more tokens, then their count. -/
def tentativeAppend (env : Env) (n : ℕ) (p : KvBlockPool) : Outcome :=
  if n = 0 then some (c, p, .ok ())
  else
    (reserve env (blocksFor (c.committedTokens + c.tentativeLen + n) - c.table.length) 0 c
        p).andThen fun c p => some ({ c with tentativeLen := c.tentativeLen + n }, p, .ok ())

/-- `commit`: the accepted of the tentative tokens, and the blocks behind them back. -/
def commit (io : ℕ → Except String Unit) (accepted : ℕ) (p : KvBlockPool) :
    Option (PagedKvCache × KvBlockPool) :=
  let committed := c.committedTokens + min accepted c.tentativeLen
  dropBlocks io (c.table.length - blocksFor committed)
    { c with committedTokens := committed, tentativeLen := 0 } p

end PagedKvCache

end Grim.Memory
