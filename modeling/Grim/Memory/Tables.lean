import Grim.Memory.Writes
import Grim.Memory.Cursors

/-!
# The copies of the block table

`block_table_u32` is a second copy of the table, for the kernels, and `gpu_block_table` a third one
on the device.  Each call of the cache is here again with both, and is the call of the cache without
them (`forget`).
-/

namespace Grim.Memory

/-- The storage has a block's id and the page size for each entry. -/
structure GpuBlockTableCache where
  fingerprint : ℕ × UInt32 × UInt32
  storage : List UInt32

structure TabledKvCache extends PagedKvCache where
  blockTableU32 : List UInt32
  gpuBlockTable : Option GpuBlockTableCache

namespace TabledKvCache

open PagedKvCache (Outcome blocksFor)

def new (p : KvBlockPool) (numHeads headDim pageSize : ℕ) : TabledKvCache where
  toPagedKvCache := .new p numHeads headDim pageSize
  blockTableU32 := []
  gpuBlockTable := none

variable (c : TabledKvCache)

abbrev TabledOutcome := Option (TabledKvCache × KvBlockPool × Except String Unit)

def TabledOutcome.andThen (o : TabledOutcome) (f : TabledKvCache → KvBlockPool → TabledOutcome) :
    TabledOutcome :=
  match o with
  | some (c, p, .ok ()) => f c p
  | _ => o

def lift (o : Outcome) : TabledOutcome :=
  o.map fun r => ({ c with toPagedKvCache := r.1 }, r.2)

def push (id : ℕ) : TabledKvCache :=
  { c with
    table := c.table ++ [id]
    blockTableU32 := c.blockTableU32 ++ [UInt32.ofNat id] }

def reserve (env : Env) : ℕ → ℕ → TabledKvCache → KvBlockPool → TabledOutcome
  | 0, _, c, p => some (c, p, .ok ())
  | n + 1, k, c, p =>
    (p.alloc (env.now k) (env.io k)).bind fun (p, id) =>
      match id with
      | .error e => some (c, p, .error e)
      | .ok id => reserve env n (k + 1) (c.push id) p

def appendSlot (env : Env) (k : ℕ) (p : KvBlockPool) : TabledOutcome :=
  let c := { c with committedTokens := c.committedTokens + 1 }
  if c.table.length < blocksFor c.committedTokens then reserve env 1 k c p
  else some (c, p, .ok ())

def tentativeAppend (env : Env) (n : ℕ) (p : KvBlockPool) : TabledOutcome :=
  if n = 0 then some (c, p, .ok ())
  else
    (reserve env (blocksFor (c.committedTokens + c.tentativeLen + n) - c.table.length) 0 c
        p).andThen fun c p => some ({ c with tentativeLen := c.tentativeLen + n }, p, .ok ())

def writeTokens (env : Env) (reserved layer stride : ℕ) (k v : List UInt32) :
    ℕ → ℕ → TabledKvCache → KvBlockPool → TabledOutcome
  | 0, _, c, p => some (c, p, .ok ())
  | n + 1, t, c, p =>
    ((if layer = 0 then c.appendSlot env (reserved + t) p
        else some (c, p, .ok ())).andThen fun c p =>
      c.lift (c.writeToken layer stride k v t (t + n + 1) env.quantize p)).andThen fun c p =>
      writeTokens env reserved layer stride k v n (t + 1) c p

def appendKvLayer (env : Env) (layer : ℕ) (k v : Tensor) (p : KvBlockPool) : TabledOutcome :=
  let (seq, stride) := k.seqStride
  if stride = 0 ∨ seq = 0 then some (c, p, .ok ())
  else
    let c := { c with toPagedKvCache := c.growPages layer seq stride }
    let reserved := if layer = 0 then c.lacking seq else 0
    (reserve env reserved 0 c p).andThen fun c p =>
      match c.hydrateSeededLayerFromPool p layer stride with
      | none => none
      | some q =>
        (writeTokens env reserved layer stride k.data v.data seq 0 { c with toPagedKvCache := q }
          p).andThen fun c p => c.lift (c.checkAndRepromoteBlocks stride p)

def dropBlocks (io : ℕ → Except String Unit) :
    ℕ → TabledKvCache → KvBlockPool → Option (TabledKvCache × KvBlockPool)
  | 0, c, p => some (c, p)
  | n + 1, c, p =>
    match c.table.getLast? with
    | none => some (c, p)
    | some pid => (p.freeWithTier pid false (io n)).bind fun p =>
        dropBlocks io n { c with
          table := c.table.dropLast
          blockTableU32 := c.blockTableU32.dropLast } p

def commit (io : ℕ → Except String Unit) (accepted : ℕ) (p : KvBlockPool) :
    Option (TabledKvCache × KvBlockPool) :=
  let committed := c.committedTokens + min accepted c.tentativeLen
  dropBlocks io (c.table.length - blocksFor committed)
    { c with committedTokens := committed, tentativeLen := 0 } p

def rollbackTo (io : ℕ → Except String Unit) (len : ℕ) (p : KvBlockPool) :
    Option (TabledKvCache × KvBlockPool) :=
  let committed := min c.committedTokens len
  dropBlocks io (c.table.length - blocksFor committed)
    { c with committedTokens := committed, tentativeLen := 0 } p

def seedPrefix (blocks : List ℕ) (p : KvBlockPool) : TabledKvCache × KvBlockPool :=
  ({ c with
      toPagedKvCache := (c.toPagedKvCache.seedPrefix blocks p).1
      blockTableU32 := c.blockTableU32 ++ blocks.map UInt32.ofNat },
    (c.toPagedKvCache.seedPrefix blocks p).2)

def fingerprint (table : List UInt32) : ℕ × UInt32 × UInt32 :=
  (table.length, table.headD 0, table.getLastD 0)

/-- `upload` is whether there is a backend and it takes the copy. -/
def rebuild (upload : Bool) : TabledKvCache × Option (List UInt32) :=
  let pairs := c.blockTableU32.flatMap fun b => [b, UInt32.ofNat c.pageSize]
  if upload then
    ({ c with gpuBlockTable := some ⟨fingerprint c.blockTableU32, pairs⟩ }, some pairs)
  else (c, none)

def blockTableGpuHandle (upload : Bool) : TabledKvCache × Option (List UInt32) :=
  if c.blockTableU32 = [] then (c, none)
  else
    match c.gpuBlockTable with
    | some cached =>
      if cached.fingerprint = fingerprint c.blockTableU32 then (c, some cached.storage)
      else c.rebuild upload
    | none => c.rebuild upload

variable {c}

def TabledOutcome.forget (o : TabledOutcome) : Outcome :=
  o.map fun r => (r.1.toPagedKvCache, r.2)

def forgetDrop (o : Option (TabledKvCache × KvBlockPool)) : Option (PagedKvCache × KvBlockPool) :=
  o.map fun r => (r.1.toPagedKvCache, r.2)

theorem forget_andThen {o : TabledOutcome} {f : TabledKvCache → KvBlockPool → TabledOutcome}
    {g : PagedKvCache → KvBlockPool → Outcome}
    (h : ∀ c p, (f c p).forget = g c.toPagedKvCache p) :
    (o.andThen f).forget = o.forget.andThen g := by
  rcases o with - | ⟨c, p, e | ⟨⟩⟩
  · rfl
  · rfl
  · exact h c p

theorem forget_lift (c : TabledKvCache) (o : Outcome) : (c.lift o).forget = o := by
  rcases o with - | ⟨q, p, res⟩ <;> rfl

theorem reserve_forget (env : Env) : ∀ (n k : ℕ) (c : TabledKvCache) (p : KvBlockPool),
    (reserve env n k c p).forget = PagedKvCache.reserve env n k c.toPagedKvCache p
  | 0, _, _, _ => rfl
  | n + 1, k, c, p => by
    rw [reserve, PagedKvCache.reserve]
    rcases p.alloc (env.now k) (env.io k) with - | ⟨q, e | id⟩
    · rfl
    · rfl
    · exact reserve_forget env n (k + 1) (c.push id) q

theorem appendSlot_forget (env : Env) (k : ℕ) (c : TabledKvCache) (p : KvBlockPool) :
    (c.appendSlot env k p).forget = c.toPagedKvCache.appendSlot env k p := by
  unfold appendSlot PagedKvCache.appendSlot
  dsimp only
  split_ifs
  · exact reserve_forget env 1 k _ p
  · rfl

theorem tentativeAppend_forget (env : Env) (n : ℕ) (c : TabledKvCache) (p : KvBlockPool) :
    (c.tentativeAppend env n p).forget = c.toPagedKvCache.tentativeAppend env n p := by
  unfold tentativeAppend PagedKvCache.tentativeAppend
  split_ifs
  · rfl
  · rw [← reserve_forget]
    exact forget_andThen fun c p => rfl

theorem writeTokens_forget (env : Env) (reserved layer stride : ℕ) (k v : List UInt32) :
    ∀ (n t : ℕ) (c : TabledKvCache) (p : KvBlockPool),
      (writeTokens env reserved layer stride k v n t c p).forget
        = PagedKvCache.writeTokens env reserved layer stride k v n t c.toPagedKvCache p
  | 0, _, _, _ => rfl
  | n + 1, t, c, p => by
    rw [writeTokens, PagedKvCache.writeTokens]
    have hslot : (if layer = 0 then c.appendSlot env (reserved + t) p
          else some (c, p, .ok ())).forget
        = if layer = 0 then c.toPagedKvCache.appendSlot env (reserved + t) p
          else some (c.toPagedKvCache, p, .ok ()) := by
      split_ifs
      · exact appendSlot_forget env _ c p
      · rfl
    rw [← hslot, forget_andThen fun c p =>
      writeTokens_forget env reserved layer stride k v n (t + 1) c p]
    exact congrArg (Outcome.andThen · _) (forget_andThen fun c p => forget_lift c _)

theorem appendKvLayer_forget (env : Env) (layer : ℕ) (k v : Tensor) (c : TabledKvCache)
    (p : KvBlockPool) :
    (c.appendKvLayer env layer k v p).forget = c.toPagedKvCache.appendKvLayer env layer k v p := by
  unfold appendKvLayer PagedKvCache.appendKvLayer
  dsimp only
  split_ifs
  · rfl
  all_goals
    rw [← reserve_forget env _ 0
      { c with toPagedKvCache := c.growPages layer k.seqStride.1 k.seqStride.2 } p]
    refine forget_andThen fun c p => ?_
    rcases c.hydrateSeededLayerFromPool p layer k.seqStride.2 with - | q
    · rfl
    · dsimp only
      rw [← writeTokens_forget env _ layer k.seqStride.2 k.data v.data k.seqStride.1 0
        { c with toPagedKvCache := q } p]
      exact forget_andThen fun c p => forget_lift c _

theorem dropBlocks_forget (io : ℕ → Except String Unit) :
    ∀ (n : ℕ) (c : TabledKvCache) (p : KvBlockPool),
      forgetDrop (dropBlocks io n c p) = PagedKvCache.dropBlocks io n c.toPagedKvCache p
  | 0, _, _ => rfl
  | n + 1, c, p => by
    rw [dropBlocks, PagedKvCache.dropBlocks]
    rcases c.table.getLast? with - | pid
    · rfl
    · dsimp only
      rcases p.freeWithTier pid false (io n) with - | q
      · rfl
      · exact dropBlocks_forget io n _ q

theorem commit_forget (io : ℕ → Except String Unit) (accepted : ℕ) (c : TabledKvCache)
    (p : KvBlockPool) :
    forgetDrop (c.commit io accepted p) = c.toPagedKvCache.commit io accepted p :=
  dropBlocks_forget io _ _ p

theorem rollbackTo_forget (io : ℕ → Except String Unit) (len : ℕ) (c : TabledKvCache)
    (p : KvBlockPool) :
    forgetDrop (c.rollbackTo io len p) = c.toPagedKvCache.rollbackTo io len p :=
  dropBlocks_forget io _ _ p

end TabledKvCache

end Grim.Memory
