import Grim.Lib.Steps
import Grim.Memory.Books
import Grim.Memory.Links

/-!
# Runs of the pool

The calls on a pool, from a new one on.  `held` are the references the callers hold, `allocs` the
blocks handed out so far, each with the references held to it at that time.  The calls are
numbered from 1: `lastAlloc` is the last that handed the block out, `registered` the one that
registered the node.
-/

namespace Grim.Memory

open KvTransport
open Function (update)

/-- `addRef` is for a block that `match_prefix` just returned for `tokens`. -/
inductive Call
  | alloc (now : ℕ → ℕ) (io : Except String Unit)
  | addRef (tokens : List UInt32) (id : ℕ)
  | free (id : ℕ) (forceTier : Bool) (io : Except String Unit)
  | insertPrefix (tokens : List UInt32) (blocks : List ℕ) (now : ℕ → ℕ)
  | removePrefix (blocks : List ℕ)
  | pinBlocks (blocks : List ℕ) (secs now : ℕ)
  | demoteColdPrefix (now : ℕ → ℕ) (io : Except String Unit)
  | promoteToGpu (id : ℕ)
  | matchPrefixPromoting (tokens : List UInt32)
  | resizeCapacity (newCapacity : ℕ)

/-- These leave the free list, the references and the map of the tree as they are. -/
def Call.Steady : Call → Prop
  | .removePrefix .. | .pinBlocks .. | .demoteColdPrefix .. | .promoteToGpu ..
  | .matchPrefixPromoting .. => True
  | .alloc .. | .addRef .. | .free .. | .insertPrefix .. | .resizeCapacity .. => False

structure History where
  pool : KvBlockPool
  held : ℕ → ℕ
  allocs : List (ℕ × ℕ)
  calls : ℕ
  lastAlloc : ℕ → ℕ
  registered : ℕ → ℕ

structure Setup where
  capacity : ℕ
  numHeads : ℕ
  headDim : ℕ
  packedPool : Bool
  compressor : Option KvCompressor
  spill : Option LocalSpillManager
  now : ℕ

namespace Setup

def pool (c : Setup) : KvBlockPool :=
  { KvBlockPool.new c.capacity c.numHeads c.headDim c.packedPool c.now with
    compressor := c.compressor
    spill := c.spill }

def tiny (capacity : ℕ) (spill : Option LocalSpillManager) : Setup :=
  ⟨capacity, 1, 1, false, none, spill, 0⟩

end Setup

namespace History

def new (c : Setup) : History where
  pool := c.pool
  held _ := 0
  allocs := []
  calls := 0
  lastAlloc _ := 0
  registered _ := 0

variable (h : History)

/-- After a call that left the pool `p` and changed no reference. -/
def next (p : KvBlockPool) : History := { h with pool := p, calls := h.calls + 1 }

def allocated (p : KvBlockPool) : Except String ℕ → History
  | .ok id =>
    { h.next p with
      held := update h.held id (h.held id + 1)
      allocs := (id, h.held id) :: h.allocs
      lastAlloc := update h.lastAlloc id (h.calls + 1) }
  | .error _ => h.next p

@[simp] theorem allocated_pool {h : History} {p : KvBlockPool} {res : Except String ℕ} :
    (h.allocated p res).pool = p := by cases res <;> rfl

def step : Call → Option History
  | .alloc now io => (h.pool.alloc now io).map fun (p, res) => h.allocated p res
  | .addRef _ id => some
      { h.next (h.pool.addRef id) with held := update h.held id (h.held id + 1) }
  | .free id forceTier io => (h.pool.freeWithTier id forceTier io).map fun p =>
      { h.next p with held := update h.held id (h.held id - 1) }
  | .insertPrefix tokens blocks now => (h.pool.insertPrefix tokens blocks now).map fun p =>
      { h.next p with registered := fun n =>
          if n < h.pool.prefixTree.size then h.registered n else h.calls + 1 }
  | .removePrefix blocks => some (h.next (h.pool.removePrefix blocks))
  | .pinBlocks blocks secs now => some (h.next (h.pool.pinBlocks blocks secs now))
  | .demoteColdPrefix now io => (h.pool.demoteColdPrefix now io).map fun (p, _) => h.next p
  | .promoteToGpu id => (h.pool.promoteToGpu id).map fun (p, _) => h.next p
  | .matchPrefixPromoting tokens =>
    (h.pool.matchPrefixPromoting tokens).map fun (p, _) => h.next p
  | .resizeCapacity newCapacity => some (h.next (h.pool.resizeCapacity newCapacity))

variable {h} in
theorem step_steady {h' : History} {call : Call} (hs : h.step call = some h')
    (hcall : call.Steady) :
    ∃ p, h' = h.next p ∧ KvBlockPool.SameBooks h.pool p
      ∧ h.pool.prefixTree.SameShape p.prefixTree := by
  cases call with
  | removePrefix blocks =>
    cases hs
    exact ⟨_, rfl, .rfl, RadixTree.remove_shape⟩
  | pinBlocks blocks secs now =>
    cases hs
    exact ⟨_, rfl, .rfl, RadixTree.sweepExpiredPins_shape.trans RadixTree.pinBlocks_shape⟩
  | demoteColdPrefix now io =>
    obtain ⟨⟨p, res⟩, hp, rfl⟩ := Option.map_eq_some_iff.mp hs
    obtain ⟨hbooks, ht⟩ := KvBlockPool.demoteColdPrefix_books hp
    exact ⟨p, rfl, hbooks, .of_eq ht⟩
  | promoteToGpu id =>
    obtain ⟨⟨p, res⟩, hp, rfl⟩ := Option.map_eq_some_iff.mp hs
    obtain ⟨hbooks, ht⟩ := KvBlockPool.promoteToGpu_books hp
    exact ⟨p, rfl, hbooks, .of_eq ht⟩
  | matchPrefixPromoting tokens =>
    obtain ⟨⟨p, res⟩, hp, rfl⟩ := Option.map_eq_some_iff.mp hs
    obtain ⟨hbooks, ht, -⟩ := KvBlockPool.matchPrefixPromoting_books hp
    exact ⟨p, rfl, hbooks, .of_eq ht⟩
  | alloc | addRef | free | insertPrefix | resizeCapacity => exact hcall.elim

/-- The callers take references to matched blocks only, free what they hold, and register what
they hold. -/
def Contract : Call → Prop
  | .addRef tokens id => id ∈ (h.pool.matchPrefix tokens).1
  | .free id _ _ => 0 < h.held id
  | .insertPrefix _ blocks _ => ∀ b ∈ blocks, 0 < h.held b
  | _ => True

instance (call : Call) : Decidable (h.Contract call) :=
  match call with
  | .addRef tokens id => inferInstanceAs (Decidable (id ∈ (h.pool.matchPrefix tokens).1))
  | .free id _ _ => inferInstanceAs (Decidable (0 < h.held id))
  | .insertPrefix _ blocks _ => inferInstanceAs (Decidable (∀ b ∈ blocks, 0 < h.held b))
  | .alloc .. | .removePrefix .. | .pinBlocks .. | .demoteColdPrefix .. | .promoteToGpu ..
  | .matchPrefixPromoting .. | .resizeCapacity .. => inferInstanceAs (Decidable True)

end History

end Grim.Memory
