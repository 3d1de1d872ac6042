import Grim.Lib.Slice
import Grim.Memory.Pool

/-!
# The paged cache of one sequence

Each layer has flat pages for all blocks of the pool, and the table says which of them hold the
sequence, in order.  `committed_tokens` counts its tokens and `layer_committed_tokens` where each
layer writes next.  A call that panics is `none`; one that fails leaves what it did so far.
-/

namespace Grim.Memory

open KvTransport Slice
open Function (update)

structure Tensor where
  dims : List ℕ
  data : List UInt32
deriving DecidableEq, Repr

/-- The tokens and the numbers per token, `[batch, seq, stride]` or `[seq, stride]`. -/
def Tensor.seqStride (k : Tensor) : ℕ × ℕ :=
  match k.dims with
  | [_, seq, stride] => (seq, stride)
  | [seq, stride] => (seq, stride)
  | _ => (1, k.data.length)

/-- What a call finds outside: the clock and the file writes of its `k`-th allocation, and the
quantizer of packed pages, with the format it picks. -/
structure Env where
  now : ℕ → ℕ → ℕ
  io : ℕ → Except String Unit
  quantize : List UInt32 → Option (UInt16 × List UInt8)

structure PagedKvCache where
  table : List ℕ
  numHeads : ℕ
  headDim : ℕ
  capacity : ℕ
  pageSize : ℕ
  committedTokens : ℕ
  tentativeLen : ℕ
  kPages : List (List UInt32)
  vPages : List (List UInt32)
  layerCommittedTokens : List ℕ
  seededBlocksPending : ℕ
  hydratedLayers : List ℕ

namespace KvBlockPool

variable (p : KvBlockPool)

def readLayerKeys (id layer : ℕ) : Option (List UInt32) :=
  if p.numBlocks ≤ id then none
  else if layer = 0 then some (p.blocks id).keyData
  else (p.blocks id).layerKeys[layer]?

def readLayerValues (id layer : ℕ) : Option (List UInt32) :=
  if p.numBlocks ≤ id then none
  else if layer = 0 then some (p.blocks id).valueData
  else (p.blocks id).layerValues[layer]?

def tryWriteLayerPacked (id layer : ℕ) (format : UInt16) (bytes : List UInt8) (numTokens : ℕ) :
    KvBlockPool × Except String Unit :=
  if p.numBlocks ≤ id then
    (p, .error s!"write_layer_packed: block id {id} out of bounds (capacity {p.numBlocks})")
  else
    let grow (l : List (Option LayerStorage)) := l ++ List.replicate (layer + 1 - l.length) none
    ({ p.modify id fun b => { b with
          layerPacked := (grow b.layerPacked).set layer (some (.packed format bytes))
          numTokens := min numTokens blockSize
          received := true } with
        dirtyBlocks := update p.dirtyBlocks id true }, .ok ())

/-- The layers up to `layer`, the new ones zeroed; layer 0 has its own storage. -/
def growLayers (elems layer : ℕ) (layers : List (List UInt32)) : List (List UInt32) :=
  layers ++ (List.range' layers.length (layer + 1 - layers.length)).map fun i =>
    if i = 0 then [] else List.replicate elems 0

/-- The part of a row that fits below `limit`, written at `within`. -/
def writeRow (data : List UInt32) (within limit : ℕ) (row : List UInt32) : Option (List UInt32) :=
  write data within (row.take (min (within + row.length) limit - within))

def storeFirst (id within : ℕ) (k v : List UInt32) (numTokens : ℕ) : Option KvBlockPool :=
  let b := p.blocks id
  if within < b.keyData.length then
    (writeRow b.keyData within b.keyData.length k).bind fun keys =>
      (writeRow b.valueData within b.keyData.length v).map fun values =>
        p.modify id fun b => { b with
          keyData := keys
          valueData := values
          numTokens := numTokens
          received := true }
  else some p

def storeLayer (id layer within : ℕ) (k v : List UInt32) : Option KvBlockPool :=
  let elems := blockSize * p.numHeads * p.headDim
  let p := p.modify id fun b => { b with
    layerKeys := growLayers elems layer b.layerKeys
    layerValues := growLayers elems layer b.layerValues }
  let b := p.blocks id
  if within < elems then
    (writeRow (b.layerKeys.getD layer []) within elems k).bind fun keys =>
      (writeRow (b.layerValues.getD layer []) within elems v).map fun values =>
        p.modify id fun b => { b with
          layerKeys := b.layerKeys.set layer keys
          layerValues := b.layerValues.set layer values }
  else some p

/-- The packed copy of the block's layer, with `GRIM_PACKED_POOL`. -/
def storePacked (id layer : ℕ) (quantize : List UInt32 → Option (UInt16 × List UInt8)) :
    KvBlockPool :=
  let b := p.blocks id
  let src := if layer = 0 then b.keyData else b.layerKeys.getD layer []
  if p.packedPool ∧ src ≠ [] then
    match quantize src with
    | some (format, bytes) => (p.tryWriteLayerPacked id layer format bytes b.numTokens).1
    | none => p
  else p

theorem storePacked_cases (id layer : ℕ)
    (quantize : List UInt32 → Option (UInt16 × List UInt8)) :
    p.storePacked id layer quantize = p ∨ ∃ format bytes numTokens,
      p.storePacked id layer quantize
        = (p.tryWriteLayerPacked id layer format bytes numTokens).1 := by
  simp only [storePacked]
  generalize (if layer = 0 then (p.blocks id).keyData
    else (p.blocks id).layerKeys.getD layer []) = src
  by_cases hsrc : p.packedPool ∧ src ≠ []
  · rw [if_pos hsrc]
    split
    · exact .inr ⟨_, _, _, rfl⟩
    · exact .inl rfl
  · rw [if_neg hsrc]
    exact .inl rfl

def storeToken (id layer within : ℕ) (k v : List UInt32) (numTokens : ℕ)
    (quantize : List UInt32 → Option (UInt16 × List UInt8)) : Option KvBlockPool :=
  if p.numBlocks ≤ id then none
  else
    (if layer = 0 then p.storeFirst id within k v numTokens
      else p.storeLayer id layer within k v).map fun p => p.storePacked id layer quantize

end KvBlockPool

namespace PagedKvCache

def new (p : KvBlockPool) (numHeads headDim pageSize : ℕ) : PagedKvCache where
  table := []
  numHeads := numHeads
  headDim := headDim
  capacity := p.numBlocks
  pageSize := if pageSize = 0 then blockSize else pageSize
  committedTokens := 0
  tentativeLen := 0
  kPages := []
  vPages := []
  layerCommittedTokens := []
  seededBlocksPending := 0
  hydratedLayers := []

variable (c : PagedKvCache)

abbrev Outcome := Option (PagedKvCache × KvBlockPool × Except String Unit)

def Outcome.andThen (o : Outcome) (f : PagedKvCache → KvBlockPool → Outcome) : Outcome :=
  match o with
  | some (c, p, .ok ()) => f c p
  | _ => o

def len : ℕ := c.committedTokens + c.tentativeLen

/-- The number of blocks for `n` tokens. -/
def blocksFor (n : ℕ) : ℕ := (n + blockSize - 1) / blockSize

/-- The pages and the cursor of the layers up to `layer` that are not there yet. -/
def growPages (layer seq stride : ℕ) : PagedKvCache :=
  let fresh := List.range' c.kPages.length (layer + 1 - c.kPages.length)
  let zeros := List.replicate (c.capacity * c.pageSize * stride) 0
  { c with
    kPages := c.kPages ++ fresh.map fun _ => zeros
    vPages := c.vPages ++ fresh.map fun _ => zeros
    layerCommittedTokens := c.layerCommittedTokens ++ fresh.map fun l =>
      if l = 0 then c.committedTokens else c.committedTokens - seq }

/-- Allocates `n` blocks for the end of the table, the first of them as the `k`-th allocation. -/
def reserve (env : Env) : ℕ → ℕ → PagedKvCache → KvBlockPool → Outcome
  | 0, _, c, p => some (c, p, .ok ())
  | n + 1, k, c, p =>
    (p.alloc (env.now k) (env.io k)).bind fun (p, id) =>
      match id with
      | .error e => some (c, p, .error e)
      | .ok id => reserve env n (k + 1) { c with table := c.table ++ [id] } p

/-- `append_slot`. -/
def appendSlot (env : Env) (k : ℕ) (p : KvBlockPool) : Outcome :=
  let c := { c with committedTokens := c.committedTokens + 1 }
  if c.table.length < blocksFor c.committedTokens then reserve env 1 k c p
  else some (c, p, .ok ())

/-- The seeded blocks of `layer`, copied from the pool into its pages. -/
def copySeeded (p : KvBlockPool) (layer elems : ℕ) : List ℕ → PagedKvCache → Option PagedKvCache
  | [], c => some c
  | bid :: seeded, c =>
    match p.readLayerKeys bid layer, p.readLayerValues bid layer with
    | some lk, some lv =>
      let put (page : List UInt32) (row : List UInt32) : Option (List UInt32) :=
        if bid * elems + row.length ≤ page.length then write page (bid * elems) row else some page
      (put (c.kPages.getD layer []) (lk.take elems)).bind fun k =>
        (put (c.vPages.getD layer []) (lv.take elems)).bind fun v =>
          copySeeded p layer elems seeded
            { c with kPages := c.kPages.set layer k, vPages := c.vPages.set layer v }
    | _, _ => copySeeded p layer elems seeded c

def hydrateSeededLayerFromPool (p : KvBlockPool) (layer stride : ℕ) : Option PagedKvCache :=
  if c.seededBlocksPending = 0 ∨ layer ∈ c.hydratedLayers then some c
  else if c.table.length < c.seededBlocksPending then none
  else
    copySeeded p layer (c.pageSize * stride) (c.table.take c.seededBlocksPending)
      { c with hydratedLayers := layer :: c.hydratedLayers }

/-- The row of the `t`-th token, at the layer's cursor. -/
def writeToken (layer stride : ℕ) (k v : List UInt32) (t seq : ℕ)
    (quantize : List UInt32 → Option (UInt16 × List UInt8)) (p : KvBlockPool) : Outcome :=
  match c.layerCommittedTokens[layer]?, c.kPages[layer]?, c.vPages[layer]? with
  | some pos, some kPage, some vPage =>
    match c.table[pos / c.pageSize]? with
    | none => some (c, p, .error (s!"append_kv_layer: block_idx {pos / c.pageSize} beyond table " ++
        s!"len {c.table.length} (layer {layer}, pos {pos}, seq {seq}) — KV layer desync"))
    | some physical =>
      let offset := (physical * c.pageSize + pos % c.pageSize) * stride
      let kRow := slice k (t * stride) stride
      let vRow := slice v (t * stride) stride
      -- a slice that ends behind the tensor's last number panics
      if kRow.length < stride ∨ vRow.length < stride then none
      else
        (write kPage offset kRow).bind fun kPage =>
          (write vPage offset vRow).bind fun vPage =>
            (p.storeToken physical layer (pos % c.pageSize * stride) kRow vRow
              (min (pos % c.pageSize + 1) blockSize) quantize).map fun p =>
                ({ c with
                    kPages := c.kPages.set layer kPage
                    vPages := c.vPages.set layer vPage
                    layerCommittedTokens := c.layerCommittedTokens.set layer (pos + 1) },
                  p, .ok ())
  | _, _, _ => none

variable {c} in
/-- A call without an error has written one row at the layer's cursor. -/
theorem writeToken_cases {layer stride t seq : ℕ} {k v : List UInt32}
    {quantize : List UInt32 → Option (UInt16 × List UInt8)} {p p' : KvBlockPool}
    {c' : PagedKvCache} {res : Except String Unit}
    (h : c.writeToken layer stride k v t seq quantize p = some (c', p', res)) :
    (c' = c ∧ p' = p ∧ ∃ e, res = .error e) ∨
      ∃ pos kPage vPage physical kPage' vPage', c.layerCommittedTokens[layer]? = some pos
        ∧ c.kPages[layer]? = some kPage ∧ c.vPages[layer]? = some vPage
        ∧ c.table[pos / c.pageSize]? = some physical
        ∧ stride ≤ (slice k (t * stride) stride).length
        ∧ stride ≤ (slice v (t * stride) stride).length
        ∧ write kPage ((physical * c.pageSize + pos % c.pageSize) * stride)
          (slice k (t * stride) stride) = some kPage'
        ∧ write vPage ((physical * c.pageSize + pos % c.pageSize) * stride)
          (slice v (t * stride) stride) = some vPage'
        ∧ p.storeToken physical layer (pos % c.pageSize * stride) (slice k (t * stride) stride)
          (slice v (t * stride) stride) (min (pos % c.pageSize + 1) blockSize) quantize = some p'
        ∧ c' = { c with
          kPages := c.kPages.set layer kPage'
          vPages := c.vPages.set layer vPage'
          layerCommittedTokens := c.layerCommittedTokens.set layer (pos + 1) }
        ∧ res = .ok () := by
  unfold writeToken at h
  split at h
  · rename_i pos kPage vPage hpos hk hv
    split at h
    · cases h
      exact .inl ⟨rfl, rfl, _, rfl⟩
    · rename_i physical hphysical
      dsimp only at h
      split_ifs at h with hlen
      obtain ⟨kPage', hkw, h⟩ := Option.bind_eq_some_iff.mp h
      obtain ⟨vPage', hvw, h⟩ := Option.bind_eq_some_iff.mp h
      obtain ⟨q, hq, h⟩ := Option.map_eq_some_iff.mp h
      cases h
      exact .inr ⟨pos, kPage, vPage, physical, kPage', vPage', hpos, hk, hv, hphysical, by omega,
        by omega, hkw, hvw, hq, rfl, rfl⟩
  · cases h

/-- The tokens of a chunk from the `t`-th on, `n` of them. -/
def writeTokens (env : Env) (reserved layer stride : ℕ) (k v : List UInt32) :
    ℕ → ℕ → PagedKvCache → KvBlockPool → Outcome
  | 0, _, c, p => some (c, p, .ok ())
  | n + 1, t, c, p =>
    ((if layer = 0 then c.appendSlot env (reserved + t) p
        else some (c, p, .ok ())).andThen fun c p =>
      c.writeToken layer stride k v t (t + n + 1) env.quantize p).andThen fun c p =>
      writeTokens env reserved layer stride k v n (t + 1) c p

def hostBlocks (s : LocalSpillManager) : List ℕ :=
  c.table.filter fun id => s.getTier id = some .hostRam ∨ s.getTier id = some .nvMe

/-- A promoted block's copy in the pages of the layers below `n`. -/
def copyPromoted (p : KvBlockPool) (bid elems : ℕ) (k v : List UInt32) :
    ℕ → PagedKvCache → Option PagedKvCache
  | 0, c => some c
  | l + 1, c =>
    (copyPromoted p bid elems k v l c).bind fun c =>
      let kPage := c.kPages.getD l []
      let vPage := c.vPages.getD l []
      let put (kRow vRow : List UInt32) : Option PagedKvCache :=
        (write kPage (bid * elems) kRow).bind fun kPage =>
          (write vPage (bid * elems) vRow).map fun vPage =>
            { c with kPages := c.kPages.set l kPage, vPages := c.vPages.set l vPage }
      if bid * elems + elems ≤ kPage.length ∧ bid * elems + elems ≤ vPage.length then
        match p.readLayerKeys bid l, p.readLayerValues bid l with
        | some lk, some lv => put (lk.take elems) (lv.take elems)
        | _, _ =>
          if l = 0 ∧ elems ≤ k.length then
            if v.length < elems then none else put (k.take elems) (v.take elems)
          else some c
      else some c

def repromote (elems : ℕ) : List ℕ → PagedKvCache → KvBlockPool → Outcome
  | [], c, p => some (c, p, .ok ())
  | bid :: blocks, c, p =>
    (p.promoteToGpu bid).bind fun (p, copy) =>
      match copy with
      | .error e => some (c, p, .error e)
      | .ok none => repromote elems blocks c p
      | .ok (some (k, v)) =>
        (copyPromoted p bid elems k v c.kPages.length c).bind fun c => repromote elems blocks c p

def checkAndRepromoteBlocks (stride : ℕ) (p : KvBlockPool) : Outcome :=
  match p.spill with
  | none => some (c, p, .ok ())
  | some s => repromote (c.pageSize * stride) (c.hostBlocks s) c p

/-- The blocks that an append of `seq` tokens to layer 0 lacks. -/
def lacking (seq : ℕ) : ℕ := blocksFor (c.committedTokens + seq) - c.table.length

def appendKvLayer (env : Env) (layer : ℕ) (k v : Tensor) (p : KvBlockPool) : Outcome :=
  let (seq, stride) := k.seqStride
  if stride = 0 ∨ seq = 0 then some (c, p, .ok ())
  else
    let c := c.growPages layer seq stride
    let reserved := if layer = 0 then c.lacking seq else 0
    (reserve env reserved 0 c p).andThen fun c p =>
      match c.hydrateSeededLayerFromPool p layer stride with
      | none => none
      | some c =>
        (writeTokens env reserved layer stride k.data v.data seq 0 c p).andThen fun c p =>
          c.checkAndRepromoteBlocks stride p

/-- Frees blocks from the end of the table until `keep` are left. -/
def dropBlocks (io : ℕ → Except String Unit) :
    ℕ → PagedKvCache → KvBlockPool → Option (PagedKvCache × KvBlockPool)
  | 0, c, p => some (c, p)
  | n + 1, c, p =>
    match c.table.getLast? with
    | none => some (c, p)
    | some pid => (p.freeWithTier pid false (io n)).bind fun p =>
        dropBlocks io n { c with table := c.table.dropLast } p

def rollbackTo (io : ℕ → Except String Unit) (len : ℕ) (p : KvBlockPool) :
    Option (PagedKvCache × KvBlockPool) :=
  let committed := min c.committedTokens len
  dropBlocks io (c.table.length - blocksFor committed)
    { c with committedTokens := committed, tentativeLen := 0 } p

def seedPrefix (blocks : List ℕ) (p : KvBlockPool) : PagedKvCache × KvBlockPool :=
  let table := c.table ++ blocks
  ({ c with
      table := table
      committedTokens := table.length * blockSize
      layerCommittedTokens := c.layerCommittedTokens.map fun _ => table.length * blockSize
      seededBlocksPending := blocks.length },
    blocks.foldl (fun p b => p.addRef b) p)

/-- The blocks of one layer, `none` where one of them begins behind the pages. -/
def gatherBlocks (page : List UInt32) (elems : ℕ) : List ℕ → Option (List UInt32)
  | [] => some []
  | pid :: blocks =>
    if min (pid * elems + elems) page.length ≤ pid * elems then none
    else (gatherBlocks page elems blocks).map fun rest => slice page (pid * elems) elems ++ rest

def gatherKvF32 (layer numTokens : ℕ) : Option (List UInt32 × List UInt32) :=
  if numTokens = 0 then some ([], [])
  else
    c.kPages[layer]?.bind fun kPage => c.vPages[layer]?.bind fun vPage =>
      if kPage = [] ∨ vPage = [] then none
      else
        let stride := kPage.length / (c.capacity * c.pageSize)
        if stride = 0 then none
        else
          let elems := c.pageSize * stride
          let nBlocks := min ((numTokens + c.pageSize - 1) / c.pageSize) c.table.length
          (gatherBlocks kPage elems (c.table.take nBlocks)).bind fun k =>
            (gatherBlocks vPage elems (c.table.take nBlocks)).map fun v =>
              (k.take (numTokens * stride), v.take (numTokens * stride))

end PagedKvCache

end Grim.Memory
