import Mathlib.Tactic

/-!
# The prefix tree

One node of the tree is one block of the pool; a child is found under the hash of the tokens of
its block.  Nodes are never taken out of `nodes`: an evicted node is unlinked from its parent and
its block from `block_to_node`.  The clock is read more than once in a call: `now k` is its `k`-th
reading, in nanoseconds.
-/

namespace Grim.Memory

abbrev TokenKey := UInt64

/-- `usize::MAX`, the block id of the root. -/
def usizeMax : ℕ := 2 ^ 64 - 1

structure RadixNode where
  blockId : ℕ
  tokenSpan : ℕ × ℕ
  children : List (TokenKey × ℕ)
  parent : Option ℕ
  refCount : ℕ
  pinnedUntil : Option ℕ
  lastAccess : ℕ
  recurrentStateId : Option ℕ
deriving DecidableEq, Repr

/-- The nodes are numbered from 0, the root, and those from `size` on are not there yet. -/
structure RadixTree where
  nodes : ℕ → RadixNode
  size : ℕ
  root : ℕ
  blockSize : ℕ
  blockToNode : ℕ → Option ℕ

namespace RadixNode

def isPinned (n : RadixNode) (now : ℕ) : Bool := n.pinnedUntil.any (now < ·)

end RadixNode

namespace RadixTree

open Function (update)

def rootNode (now : ℕ) : RadixNode where
  blockId := usizeMax
  tokenSpan := (0, 0)
  children := []
  parent := none
  refCount := 0
  pinnedUntil := none
  lastAccess := now
  recurrentStateId := none

def new (blockSize now : ℕ) : RadixTree where
  nodes _ := rootNode now
  size := 1
  root := 0
  blockSize := blockSize
  blockToNode _ := none

variable (t : RadixTree)

def blockKey (tokens : List UInt32) (offset : ℕ) : TokenKey :=
  ((tokens.drop offset).take t.blockSize).foldl
    (fun h token => (h ^^^ token.toUInt64) * 0x100000001b3) 0xcbf29ce484222325

def child (node : ℕ) (key : TokenKey) : Option ℕ := (t.nodes node).children.lookup key

def modify (idx : ℕ) (f : RadixNode → RadixNode) : RadixTree :=
  { t with nodes := update t.nodes idx (f (t.nodes idx)) }

/-- The nodes below `node` for the next `n` blocks of `tokens`, up to the first without a node. -/
def walk (tokens : List UInt32) : ℕ → ℕ → ℕ → List ℕ
  | 0, _, _ => []
  | n + 1, node, offset =>
    match t.child node (t.blockKey tokens offset) with
    | some child => child :: walk tokens n child (offset + t.blockSize)
    | none => []

/-- The nodes that the full blocks of `tokens` match. -/
def matched (tokens : List UInt32) : List ℕ := t.walk tokens (tokens.length / t.blockSize) t.root 0

def matchPrefixWithAnchor (tokens : List UInt32) : List ℕ × ℕ × Option ℕ :=
  let path := t.matched tokens
  (path.map fun idx => (t.nodes idx).blockId, path.length * t.blockSize,
    (path.filterMap fun idx => (t.nodes idx).recurrentStateId).getLast?)

def matchPrefix (tokens : List UInt32) : List ℕ × ℕ :=
  let (blocks, offset, _) := t.matchPrefixWithAnchor tokens
  (blocks, offset)

theorem length_matchPrefix (tokens : List UInt32) :
    (t.matchPrefix tokens).1.length = (t.matched tokens).length := List.length_map _

theorem matchPrefix_snd (tokens : List UInt32) :
    (t.matchPrefix tokens).2 = (t.matchPrefix tokens).1.length * t.blockSize := by
  rw [length_matchPrefix]
  rfl

def matchPrefixBlending (tokens : List UInt32) : List ℕ × ℕ × Bool :=
  let (blocks, fullTokens) := t.matchPrefix tokens
  (blocks, fullTokens, fullTokens < tokens.length && !blocks.isEmpty)

def containsBlock (bid : ℕ) : Bool := (t.blockToNode bid).isSome

def isPinned (bid now : ℕ) : Bool := (t.blockToNode bid).any fun idx => (t.nodes idx).isPinned now

def attachRecurrentState (bid stateId : ℕ) : RadixTree :=
  match t.blockToNode bid with
  | some idx => t.modify idx fun n => { n with recurrentStateId := some stateId }
  | none => t

/-- `last_access` of each of the nodes, the `k`-th of them at `now k`. -/
def touchNodes : List ℕ → (ℕ → ℕ) → RadixTree → RadixTree
  | [], _, t => t
  | idx :: path, now, t =>
    touchNodes path (fun k => now (k + 1)) (t.modify idx fun n => { n with lastAccess := now 0 })

def touch (tokens : List UInt32) (now : ℕ → ℕ) : RadixTree := touchNodes (t.matched tokens) now t

/-- A new node for block `bid` below `node`. -/
def addNode (node : ℕ) (key : TokenKey) (bid offset now : ℕ) : RadixTree :=
  let fresh : RadixNode :=
    { blockId := bid
      tokenSpan := (offset, offset + t.blockSize)
      children := []
      parent := some node
      refCount := 1
      pinnedUntil := none
      lastAccess := now
      recurrentStateId := none }
  let parent := t.nodes node
  { t with
    nodes := update (update t.nodes t.size fresh) node
      { parent with children := (key, t.size) :: parent.children }
    size := t.size + 1
    blockToNode := update t.blockToNode bid (some t.size) }

section AddNode

variable {t} {node : ℕ} {key : TokenKey} {bid offset now : ℕ}

theorem addNode_blockToNode : (t.addNode node key bid offset now).blockToNode
    = update t.blockToNode bid (some t.size) := rfl

theorem addNode_self (hne : t.size ≠ node) : (t.addNode node key bid offset now).nodes t.size
    = { blockId := bid
        tokenSpan := (offset, offset + t.blockSize)
        children := []
        parent := some node
        refCount := 1
        pinnedUntil := none
        lastAccess := now
        recurrentStateId := none } := by
  simp [addNode, hne]

theorem addNode_field {α : Type} {f : RadixNode → α}
    (hf : ∀ (n : RadixNode) children, f { n with children := children } = f n) {n : ℕ}
    (hn : n ≠ t.size) : f ((t.addNode node key bid offset now).nodes n) = f (t.nodes n) := by
  by_cases hnode : n = node
  · subst hnode
    simp [addNode, hf]
  · simp [addNode, hnode, hn]

theorem mem_addNode_children {p c : ℕ} {k : TokenKey}
    (hc : (k, c) ∈ ((t.addNode node key bid offset now).nodes p).children) :
    p = node ∧ k = key ∧ c = t.size ∨ (k, c) ∈ (t.nodes p).children := by
  by_cases hp : p = node
  · subst hp
    simpa [addNode] using hc
  · by_cases hps : p = t.size
    · subst hps
      simp [addNode, hp] at hc
    · exact .inr (by simpa [addNode, hp, hps] using hc)

theorem addNode_children (hfresh : (t.nodes t.size).children = []) (p : ℕ) :
    ((t.addNode node key bid offset now).nodes p).children
      = if p = node then (key, t.size) :: (t.nodes node).children else (t.nodes p).children := by
  by_cases hp : p = node
  · subst hp
    simp [addNode]
  · by_cases hps : p = t.size
    · subst hps
      simp [addNode, hp, hfresh]
    · simp [addNode, hp, hps]

end AddNode

/-- The loop of `insert_at` from its `i`-th block on, below `node`; `none` is the panic of a slice
that begins behind the last token. -/
def insertFrom (tokens : List UInt32) (skipBlocks : ℕ) (now : ℕ → ℕ) :
    List ℕ → ℕ → ℕ → ℕ → RadixTree → Option RadixTree
  | [], _, _, _, t => some t
  | bid :: blocks, i, node, offset, t =>
    if tokens.length < offset then none
    else
      let key := t.blockKey tokens offset
      match t.child node key with
      | some child =>
        -- a block claimed or registered before is passed without a new reference
        let t := if i < skipBlocks then t
          else t.modify child fun n => { n with refCount := n.refCount + 1 }
        insertFrom tokens skipBlocks now blocks (i + 1) child (offset + t.blockSize) t
      | none =>
        insertFrom tokens skipBlocks now blocks (i + 1) t.size (offset + t.blockSize)
          (t.addNode node key bid offset (now i))

def insertAt (tokens : List UInt32) (blocks : List ℕ) (skipBlocks : ℕ) (now : ℕ → ℕ) :
    Option RadixTree :=
  insertFrom tokens skipBlocks now blocks 0 t.root 0 t

def insert (tokens : List UInt32) (blocks : List ℕ) (now : ℕ → ℕ) : Option RadixTree :=
  t.insertAt tokens blocks 0 now

/-- Drops one reference to the node of each block; the nodes stay. -/
def remove : List ℕ → RadixTree → RadixTree
  | [], t => t
  | bid :: blocks, t =>
    remove blocks <| match t.blockToNode bid with
      | some idx => t.modify idx fun n => { n with refCount := n.refCount - 1 }
      | none => t

def pinBlocks (secs now : ℕ) : List ℕ → RadixTree → RadixTree
  | [], t => t
  | bid :: blocks, t =>
    let till := now + secs * 1000000000
    pinBlocks secs now blocks <| match t.blockToNode bid with
      | some idx => t.modify idx fun n => { n with
          pinnedUntil := some (match n.pinnedUntil with
            | some u => if till < u then u else till
            | none => till) }
      | none => t

def sweepExpiredPins (now : ℕ) : RadixTree :=
  { t with nodes := fun idx =>
      if (t.nodes idx).pinnedUntil.any (· ≤ now) then { t.nodes idx with pinnedUntil := none }
      else t.nodes idx }

def evictable (now : ℕ → ℕ) (idx : ℕ) : Bool :=
  idx ≠ t.root && t.blockToNode (t.nodes idx).blockId = some idx
    && (t.nodes idx).children.isEmpty && (t.nodes idx).refCount = 0
    && !(t.nodes idx).isPinned (now idx)

/-- The scan of the nodes for the evictable one with the oldest access. -/
def coldest (now : ℕ → ℕ) : Option ℕ :=
  (List.range t.size).foldl (fun cold idx =>
    if t.evictable now idx then
      match cold with
      | none => some idx
      | some best => if (t.nodes idx).lastAccess < (t.nodes best).lastAccess then some idx else cold
    else cold) none

def coldestLeaf (now : ℕ → ℕ) : Option ℕ := (t.coldest now).map fun idx => (t.nodes idx).blockId

/-- The attached nodes that are unreferenced and not pinned, leaves or not. -/
def evictableLeaves (now : ℕ → ℕ) : ℕ :=
  ((Finset.range t.size).filter fun idx =>
    idx ≠ t.root ∧ (t.nodes idx).refCount = 0 ∧ (t.nodes idx).isPinned (now idx) = false
      ∧ t.blockToNode (t.nodes idx).blockId = some idx).card

/-- Takes `n` out of the children of `p`, and its block out of `block_to_node`. -/
def unlink (p n : ℕ) : RadixTree :=
  let t' := match (t.nodes p).children.find? (·.2 = n) with
    | some (key, _) => t.modify p fun node =>
        { node with children := node.children.filter (·.1 ≠ key) }
    | none => t
  { t' with blockToNode := update t'.blockToNode (t.nodes n).blockId none }

/-- The walk up from the evicted leaf `idx`, in at most `fuel` steps; a parent's number is lower
than its child's, so `idx + 1` steps are enough. -/
def prune (idx : ℕ) : ℕ → ℕ → RadixTree → List ℕ → RadixTree × List ℕ
  | 0, _, t, detached => (t, detached)
  | fuel + 1, n, t, detached =>
    if n ≠ t.root ∧ (t.nodes n).children = [] then
      match (t.nodes n).parent with
      | some p =>
        prune idx fuel p (t.unlink p n)
          (if n ≠ idx then detached ++ [(t.nodes n).blockId] else detached)
      | none => (t, detached)
    else (t, detached)

/-- The tree without the coldest leaf and the ancestors this leaves childless, and the blocks of
all of them, the leaf's first. -/
def evictColdestChain (now : ℕ → ℕ) : RadixTree × List ℕ :=
  match t.coldest now with
  | none => (t, [])
  | some idx => prune idx (idx + 1) idx t [(t.nodes idx).blockId]

end RadixTree

end Grim.Memory
