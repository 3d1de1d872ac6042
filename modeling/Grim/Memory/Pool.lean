import Grim.Memory.Radix
import Grim.KvTransport.Spill

/-!
# The block pool

The pages of the KV cache, the list of the free ones, the references to the others, the prefix
tree over them and the spill manager.  A call that indexes `blocks` out of range panics, which is
`none`; `now` is the clock and `io` the outcome of the one file write of a call.  The blocks are
numbered from 0, and those from `numBlocks` on are not there.
-/

namespace Grim.Memory

open KvTransport
open Function (update)

/-- `BLOCK_SIZE`, the tokens of a page. -/
def blockSize : ℕ := 16

inductive LayerStorage
  | denseF32 (keys values : List UInt32)
  | packed (format : UInt16) (bytes : List UInt8)
deriving DecidableEq, Repr

structure KvBlock where
  keyData : List UInt32
  valueData : List UInt32
  layerKeys : List (List UInt32)
  layerValues : List (List UInt32)
  layerPacked : List (Option LayerStorage)
  numTokens : ℕ
  received : Bool
  location : CacheTier
deriving DecidableEq, Repr

namespace KvBlock

/-- A block as `new` pushes it. -/
def fresh (elems : ℕ) : KvBlock where
  keyData := List.replicate elems 0
  valueData := List.replicate elems 0
  layerKeys := []
  layerValues := []
  layerPacked := []
  numTokens := 0
  received := false
  location := .gpu

def zeroed (b : KvBlock) : KvBlock :=
  { b with
    numTokens := 0
    received := false
    keyData := List.replicate b.keyData.length 0
    valueData := List.replicate b.valueData.length 0 }

end KvBlock

/-- `compress` with `to_bytes`, and `from_bytes` with `dequantize_for_attention`. -/
structure KvCompressor where
  compress : ℕ → List UInt32 → List UInt32 → Except String (List UInt8)
  dequantize : List UInt8 → Except String (List UInt32 × List UInt32)

structure SpillTelemetry where
  demotedBlocks : ℕ
  promotedBlocks : ℕ
  reclaimedForAlloc : ℕ
deriving DecidableEq, Repr

/-- `packedPool` is the environment's `GRIM_PACKED_POOL`. -/
structure KvBlockPool where
  blocks : ℕ → KvBlock
  numBlocks : ℕ
  freeList : List ℕ
  layerGeoms : ℕ → Option ℕ
  refCounts : ℕ → Option ℕ
  prefixTree : RadixTree
  anchorTokens : List UInt32
  recentlyZero : List ℕ
  dirtyBlocks : ℕ → Bool
  numHeads : ℕ
  headDim : ℕ
  compressor : Option KvCompressor
  spill : Option LocalSpillManager
  packedPool : Bool
  spillTelemetry : SpillTelemetry

namespace KvBlockPool

def new (capacity numHeads headDim : ℕ) (packedPool : Bool) (now : ℕ) : KvBlockPool where
  blocks _ := .fresh (blockSize * numHeads * headDim)
  numBlocks := capacity
  freeList := List.range capacity
  layerGeoms _ := none
  refCounts _ := none
  prefixTree := .new blockSize now
  anchorTokens := [151644, 151645, 32000, 32001]
  recentlyZero := []
  dirtyBlocks _ := false
  numHeads := numHeads
  headDim := headDim
  compressor := none
  spill := none
  packedPool := packedPool
  spillTelemetry := ⟨0, 0, 0⟩

variable (p : KvBlockPool)

def attachCompressor (c : KvCompressor) : KvBlockPool := { p with compressor := some c }

def attachSpill (s : LocalSpillManager) : KvBlockPool := { p with spill := some s }

def modify (id : ℕ) (f : KvBlock → KvBlock) : KvBlockPool :=
  { p with blocks := update p.blocks id (f (p.blocks id)) }

def recycle (id : ℕ) : KvBlockPool :=
  { p.modify id .zeroed with freeList := p.freeList ++ [id] }

def countDemoted : KvBlockPool :=
  { p with spillTelemetry :=
      { p.spillTelemetry with demotedBlocks := p.spillTelemetry.demotedBlocks + 1 } }

def pinBlocks (blocks : List ℕ) (secs now : ℕ) : KvBlockPool :=
  { p with prefixTree := (p.prefixTree.sweepExpiredPins now).pinBlocks secs now blocks }

def matchPrefix (tokens : List UInt32) : List ℕ × ℕ := p.prefixTree.matchPrefix tokens

def insertPrefix (tokens : List UInt32) (blocks : List ℕ) (now : ℕ → ℕ) :
    Option KvBlockPool :=
  (p.prefixTree.insert tokens blocks now).map fun t =>
    { p with prefixTree := t.touch tokens fun k => now (blocks.length + k) }

def findAnchors (tokens : List UInt32) : List ℕ :=
  tokens.zipIdx.filterMap fun (tok, idx) => if tok ∈ p.anchorTokens then some (idx + 1) else none

def insertPrefixWithRecurrentStateAt (tokens : List UInt32) (blocks : List ℕ)
    (skipBlocks : ℕ) (now : ℕ → ℕ) : Option KvBlockPool :=
  (p.prefixTree.insertAt tokens blocks skipBlocks now).map fun t =>
    let t := t.touch tokens fun k => now (blocks.length + k)
    match (p.findAnchors tokens).getLast? with
    | some offset =>
      match blocks[min (offset / blockSize) (blocks.length - 1)]? with
      | some target => { p with prefixTree := t.attachRecurrentState target target }
      | none => { p with prefixTree := t }
    | none => { p with prefixTree := t }

def removePrefix (blocks : List ℕ) : KvBlockPool :=
  { p with prefixTree := p.prefixTree.remove blocks }

/-- `compress_block` and its serialization; `none` without a compressor, without tokens, and where
the compressor fails. -/
def compressBlock (id : ℕ) : Option (List UInt8) :=
  match p.compressor with
  | none => none
  | some c =>
    let b := p.blocks id
    if b.numTokens = 0 then none
    else
      let rows := min (max b.numTokens 1) blockSize
      let elem := p.numHeads * p.headDim
      (c.compress rows (b.keyData.take (rows * elem)) (b.valueData.take (rows * elem))).toOption

/-- The packed copy of the first layer, where the pool keeps packed pages. -/
def demotePackedCopy (s : LocalSpillManager) (id : ℕ) (io : Except String Unit) :
    LocalSpillManager × Bool :=
  match p.packedPool, (p.blocks id).layerPacked.head? with
  | true, some (some (.packed format bytes)) =>
    match s.demotePacked id format bytes with
    | (s, .ok _) => ((s.demotePackedToNvme io id).1, true)
    | (s, .error _) => (s, false)
  | _, _ => (s, false)

def demoteCompressedCopy (s : LocalSpillManager) (id : ℕ) (io : Except String Unit) :
    LocalSpillManager × Bool :=
  match p.compressBlock id with
  | some blob =>
    match s.demoteCompressed id blob with
    | (s, .ok _) => ((s.demoteCompressedToNvme io id).1, true)
    | (s, .error _) => (s, false)
  | none => (s, false)

def demoteRawCopy (s : LocalSpillManager) (id : ℕ) (io : Except String Unit) :
    LocalSpillManager × Bool :=
  match s.demoteToHost id (p.blocks id).keyData (p.blocks id).valueData with
  | (s, .ok _) => ((s.demoteToNvme io id).1, true)
  | (s, .error _) => (s, false)

/-- What `evict_cold` tries: the compressed copy, then the raw one.  A failed write leaves the copy
in host RAM. -/
def demoteEvicted (s : LocalSpillManager) (id : ℕ) (io : Except String Unit) :
    LocalSpillManager × Bool :=
  match p.demoteCompressedCopy s id io with
  | (s, true) => (s, true)
  | (s, false) => p.demoteRawCopy s id io

/-- What `free_with_tier` tries: the packed copy first. -/
def demoteFreed (s : LocalSpillManager) (id : ℕ) (io : Except String Unit) :
    LocalSpillManager × Bool :=
  match p.demotePackedCopy s id io with
  | (s, true) => (s, true)
  | (s, false) => p.demoteEvicted s id io

/-- A block whose content went to the spill manager stays off the free list. -/
def markDemoted (id : ℕ) : KvBlockPool :=
  { (p.modify id fun b => { b with location := .hostRam }).countDemoted with
    recentlyZero := p.recentlyZero ++ [id] }

def demotePrefixBlock (id : ℕ) (io : Except String Unit) : Option (KvBlockPool × Bool) :=
  match p.spill with
  | none => some (p, false)
  | some s =>
    if p.numBlocks ≤ id then none
    else
      match s.demoteToHost id (p.blocks id).keyData (p.blocks id).valueData with
      | (s, .error _) => some ({ p with spill := some s }, false)
      | (s, .ok _) =>
        match s.demoteToNvme io id with
        | (s, .error _) =>
          some ({ p with spill := some s }.modify id fun b => { b with location := .hostRam },
            false)
        | (s, .ok _) =>
          some (({ p with spill := some s }.modify id fun b =>
            { b with location := .nvMe }).countDemoted, true)

def demoteColdPrefix (now : ℕ → ℕ) (io : Except String Unit) :
    Option (KvBlockPool × Option ℕ) :=
  match p.prefixTree.coldestLeaf now with
  | none => some (p, none)
  | some bid => (p.demotePrefixBlock bid io).map fun (p, demoted) =>
      (p, if demoted then some bid else none)

def freeAncestors : List ℕ → KvBlockPool → Option KvBlockPool
  | [], p => some p
  | ancestor :: chain, p =>
    if p.numBlocks ≤ ancestor then none
    else
      freeAncestors chain
        { (p.recycle ancestor).countDemoted with refCounts := update p.refCounts ancestor none }

def evictLeaf (id : ℕ) (io : Except String Unit) : Option KvBlockPool :=
  if p.numBlocks ≤ id then none
  else
    match p.spill with
    | none => some { p.recycle id with refCounts := update p.refCounts id none }
    | some s =>
      match p.demoteEvicted s id io with
      | (s, true) => some { { p with spill := some s }.markDemoted id with
          refCounts := update p.refCounts id none }
      | (s, false) => some { { p with spill := some s }.recycle id with
          refCounts := update p.refCounts id none }

def blockRefCount (id : ℕ) : ℕ := (p.refCounts id).getD 0

def evictCold (now : ℕ → ℕ) (io : Except String Unit) : Option (KvBlockPool × Bool) :=
  let (tree, chain) := p.prefixTree.evictColdestChain now
  let p := { p with prefixTree := tree }
  match chain with
  | [] => some (p, false)
  | bid :: ancestors =>
    -- the chain is detached by now, also where its leaf is still in use
    if 0 < p.blockRefCount bid then some (p, false)
    else (p.freeAncestors ancestors).bind fun p => (p.evictLeaf bid io).map fun p => (p, true)

/-- The page `reclaim_spilled_coldest` takes, the `k`-th block at `now k`. -/
def spilledColdest (now : ℕ → ℕ) : Option ℕ :=
  (List.range p.numBlocks).find? fun id =>
    (p.blocks id).location ≠ .gpu && (p.refCounts id).isNone && !p.prefixTree.isPinned id (now id)

def reclaimSpilledColdest (now : ℕ → ℕ) : KvBlockPool × Bool :=
  match p.spilledColdest now with
  | none => (p, false)
  | some id =>
    ({ p.modify id fun b => { b with numTokens := 0, received := false } with
        prefixTree := p.prefixTree.remove [id]
        refCounts := update p.refCounts id none
        dirtyBlocks := update p.dirtyBlocks id false
        freeList := p.freeList ++ [id]
        spillTelemetry := { p.spillTelemetry with
          reclaimedForAlloc := p.spillTelemetry.reclaimedForAlloc + 1 } }, true)

/-- The pool as `alloc` finds it after the eviction it starts without a free block. -/
def evictFor (now : ℕ → ℕ) (io : Except String Unit) : Option KvBlockPool :=
  if p.freeList = [] then (p.evictCold now io).map (·.1) else some p

def reclaimFor (now : ℕ → ℕ) : KvBlockPool :=
  if p.freeList = [] then (p.reclaimSpilledColdest now).1 else p

def popFree : KvBlockPool × Except String ℕ :=
  match p.freeList with
  | [] => (p, .error "block pool exhausted")
  | id :: rest => ({ p with freeList := rest, refCounts := update p.refCounts id (some 1) }, .ok id)

def alloc (now : ℕ → ℕ) (io : Except String Unit) :
    Option (KvBlockPool × Except String ℕ) :=
  (p.evictFor now io).map fun q =>
    (q.reclaimFor fun k => now (p.prefixTree.size + k)).popFree

def addRef (id : ℕ) : KvBlockPool :=
  { p with refCounts := update p.refCounts id (some (p.blockRefCount id + 1)) }

/-- The free pages, those that evictions could free, and the spilled ones.  The clock is read for
the sweep, then for the nodes, then for the pages. -/
def allocatableBlocks (now : ℕ → ℕ) : KvBlockPool × ℕ :=
  let tree := p.prefixTree.sweepExpiredPins (now 0)
  let spilled := (Finset.range p.numBlocks).filter fun bid =>
    (p.blocks bid).location ≠ .gpu ∧ p.refCounts bid = none
      ∧ tree.isPinned bid (now (tree.size + 1 + bid)) = false
  ({ p with prefixTree := tree },
    p.freeList.length + tree.evictableLeaves (fun idx => now (idx + 1)) + spilled.card)

/-- The release without a spilled copy; a block the tree maps is cached content and stays. -/
def dropInPlace (id : ℕ) : Option KvBlockPool :=
  if p.prefixTree.containsBlock id then some p
  else if p.numBlocks ≤ id then none
  else some ((p.recycle id).modify id fun b => { b with location := .gpu })

/-- The last part of `free_with_tier`, for a block without references (or forced out). -/
def release (id : ℕ) (io : Except String Unit) : Option KvBlockPool :=
  match p.spill with
  | none => p.dropInPlace id
  | some s =>
    if p.numBlocks ≤ id then none
    else
      match p.demoteFreed s id io with
      | (s, true) => some ({ p with spill := some s }.markDemoted id)
      | (s, false) => { p with spill := some s }.dropInPlace id

/-- The count with one reference less; a block without references has no entry. -/
def oneLess (cnt : ℕ) : Option ℕ := if cnt - 1 = 0 then none else some (cnt - 1)

def freeWithTier (id : ℕ) (forceTier : Bool) (io : Except String Unit) :
    Option KvBlockPool :=
  match p.refCounts id with
  | none => if forceTier then p.release id io else some p
  | some cnt =>
    if 1 < cnt ∧ ¬ forceTier then
      some { p with refCounts := update p.refCounts id (some (cnt - 1)) }
    else
      { p with refCounts := update p.refCounts id (oneLess cnt) }.release id io

def free (id : ℕ) (io : Except String Unit) : Option KvBlockPool := p.freeWithTier id false io

def install (id : ℕ) (k v : List UInt32) :
    Option (KvBlockPool × Except String (Option (List UInt32 × List UInt32))) :=
  let b := p.blocks id
  if k.length ≠ b.keyData.length ∨ v.length ≠ b.valueData.length then
    some (p, .error (s!"promote_to_gpu: spill geometry mismatch for block {id} " ++
      s!"(k {k.length} vs {b.keyData.length}, v {v.length} vs {b.valueData.length})"))
  else
    let elem := p.numHeads * p.headDim
    if elem = 0 then none
    else
      some ({ p.modify id fun b => { b with
              keyData := k
              valueData := v
              numTokens := min (k.length / elem) blockSize
              received := true
              location := .gpu } with
            spillTelemetry := { p.spillTelemetry with
              promotedBlocks := p.spillTelemetry.promotedBlocks + 1 }
            dirtyBlocks := update p.dirtyBlocks id false }, .ok (some (k, v)))

def promoteToGpu (id : ℕ) :
    Option (KvBlockPool × Except String (Option (List UInt32 × List UInt32))) :=
  match p.spill with
  | none => some (p, .ok none)
  | some s =>
    let (s, read) := s.promote id
    let p := { p with spill := some s }
    match read with
    | .error e => some (p, .error e)
    | .ok none => some (p, .ok none)
    | .ok (some (.raw k v)) => if p.numBlocks ≤ id then none else p.install id k v
    | .ok (some (.compressed blob)) =>
      match p.compressor with
      | none => some (p, .error "compressed spill block found but no compressor attached")
      | some c =>
        match c.dequantize blob with
        | .error e => some (p, .error e)
        | .ok (k, v) => if p.numBlocks ≤ id then none else p.install id k v

/-- Promotes those of `blocks` that are not on the GPU; the flag says whether one came back. -/
def promoteAll : List ℕ → KvBlockPool → Option (KvBlockPool × Bool)
  | [], p => some (p, false)
  | bid :: blocks, p =>
    if p.numBlocks ≤ bid then none
    else if (p.blocks bid).location = .gpu then promoteAll blocks p
    else
      (p.promoteToGpu bid).bind fun (p, copy) =>
        (promoteAll blocks p).map fun (p, promoted) =>
          (p, promoted || copy matches .ok (some _))

def matchPrefixPromoting (tokens : List UInt32) :
    Option (KvBlockPool × List ℕ × ℕ × Bool) :=
  let (matched, n) := p.prefixTree.matchPrefix tokens
  (p.promoteAll matched).map fun (p, promoted) => (p, matched, n, promoted)

/-- Pops the last block while it is free, at most `n` of them. -/
def shrink : ℕ → KvBlockPool → KvBlockPool
  | 0, p => p
  | n + 1, p =>
    if p.numBlocks - 1 ∈ p.freeList then
      shrink n { p with
        freeList := p.freeList.erase (p.numBlocks - 1)
        numBlocks := p.numBlocks - 1 }
    else p

def resizeCapacity (newCapacity : ℕ) : KvBlockPool :=
  if p.numBlocks < newCapacity then
    { p with
      blocks := fun id => if id < p.numBlocks then p.blocks id
        else .fresh (blockSize * p.numHeads * p.headDim)
      numBlocks := newCapacity
      freeList := p.freeList ++ List.range' p.numBlocks (newCapacity - p.numBlocks) }
  else p.shrink (p.numBlocks - newCapacity)

end KvBlockPool

end Grim.Memory
