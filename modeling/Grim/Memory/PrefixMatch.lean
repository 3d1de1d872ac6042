import Grim.Lib.Steps
import Grim.Memory.Paths

/-!
# A lookup returns the longest registered prefix

What is registered is the block of each path of token blocks: the first block given for the path,
until an eviction returns it.  The tree knows a block of tokens by its key only; where the key is
injective on the blocks of a run and no block is at two paths, a lookup reads this registry.
-/

namespace Grim.Memory

open List Option

def blockHash (block : List UInt32) : TokenKey :=
  block.foldl (fun h token => (h ^^^ token.toUInt64) * 0x100000001b3) 0xcbf29ce484222325

/-- The first `n` blocks of `tokens`; the last may be short. -/
def pathOf (blockSize : ℕ) (tokens : List UInt32) (n : ℕ) : List (List UInt32) :=
  (List.range n).map fun i => (tokens.drop (i * blockSize)).take blockSize

abbrev Registry := List (List UInt32) → Option ℕ

namespace Registry

def register (reg : Registry) (blockSize : ℕ) (tokens : List UInt32) (blocks : List ℕ) :
    Registry := fun path =>
  (reg path).or <|
    if path ≠ [] ∧ path = pathOf blockSize tokens path.length then blocks[path.length - 1]?
    else none

def evict (reg : Registry) (chain : List ℕ) : Registry := fun path =>
  (reg path).filter (· ∉ chain)

def Exclusive (reg : Registry) : Prop :=
  ∀ path path' b, reg path = some b → reg path' = some b → path = path'

/-- The first `k` blocks of `q` are a path, no more full blocks are, and the result is the blocks
registered for its prefixes and their number of tokens. -/
def IsLongest (reg : Registry) (blockSize : ℕ) (q : List UInt32) (k : ℕ) (result : List ℕ × ℕ) :
    Prop :=
  k * blockSize ≤ q.length
    ∧ (k = 0 ∨ (reg (pathOf blockSize q k)).isSome)
    ∧ (∀ k', k' * blockSize ≤ q.length → (reg (pathOf blockSize q k')).isSome → k' ≤ k)
    ∧ result.1.map some = (List.range k).map (fun i => reg (pathOf blockSize q (i + 1)))
    ∧ result.2 = k * blockSize

end Registry

/-- The calls on a tree; each `now` is the clock during the call. -/
inductive TreeCall
  | insert (tokens : List UInt32) (blocks : List ℕ) (now : ℕ → ℕ)
  | insertAt (tokens : List UInt32) (blocks : List ℕ) (skipBlocks : ℕ) (now : ℕ → ℕ)
  | remove (blocks : List ℕ)
  | touch (tokens : List UInt32) (now : ℕ → ℕ)
  | pinBlocks (blocks : List ℕ) (secs now : ℕ)
  | sweepExpiredPins (now : ℕ)
  | attachRecurrentState (bid stateId : ℕ)
  | evictColdestChain (now : ℕ → ℕ)

structure Ledger where
  tree : RadixTree
  reg : Registry

namespace Ledger

def new (blockSize now : ℕ) : Ledger := ⟨.new blockSize now, fun _ => none⟩

variable (s : Ledger)

def step : TreeCall → Option Ledger
  | .insert tokens blocks now => (s.tree.insert tokens blocks now).map fun t =>
      ⟨t, s.reg.register s.tree.blockSize tokens blocks⟩
  | .insertAt tokens blocks skipBlocks now => (s.tree.insertAt tokens blocks skipBlocks now).map
      fun t => ⟨t, s.reg.register s.tree.blockSize tokens blocks⟩
  | .remove blocks => some { s with tree := s.tree.remove blocks }
  | .touch tokens now => some { s with tree := s.tree.touch tokens now }
  | .pinBlocks blocks secs now => some { s with tree := s.tree.pinBlocks secs now blocks }
  | .sweepExpiredPins now => some { s with tree := s.tree.sweepExpiredPins now }
  | .attachRecurrentState bid stateId => some
      { s with tree := s.tree.attachRecurrentState bid stateId }
  | .evictColdestChain now =>
    let (tree, chain) := s.tree.evictColdestChain now
    some ⟨tree, s.reg.evict chain⟩

/-- The blocks of tokens registered are of `K`, and no block of the pool comes to be at two
paths. -/
def Sound (K : Set (List UInt32)) : TreeCall → Prop
  | .insert tokens blocks _ | .insertAt tokens blocks _ _ =>
    (∀ block ∈ pathOf s.tree.blockSize tokens blocks.length, block ∈ K)
      ∧ (s.reg.register s.tree.blockSize tokens blocks).Exclusive
  | _ => True

end Ledger

theorem Registry.Exclusive.register {reg : Registry} (h : reg.Exclusive) {blockSize : ℕ}
    {tokens : List UInt32} {blocks : List ℕ} (hnodup : blocks.Nodup)
    (hfresh : ∀ b ∈ blocks, ∀ path, reg path ≠ some b) :
    (reg.register blockSize tokens blocks).Exclusive := by
  intro path path' b hb hb'
  simp only [Registry.register, or_eq_some_iff] at hb hb'
  rcases hb with hb | ⟨-, hb⟩ <;> rcases hb' with hb' | ⟨-, hb'⟩
  · exact h path path' b hb hb'
  · split_ifs at hb'
    exact absurd hb (hfresh b (mem_of_getElem? hb') path)
  · split_ifs at hb
    exact absurd hb' (hfresh b (mem_of_getElem? hb) path')
  · split_ifs at hb hb' with hown hown'
    have hlen := length_pos_of_ne_nil hown.1
    have hlen' := length_pos_of_ne_nil hown'.1
    have hlt := (List.getElem?_eq_some_iff.mp hb).1
    have heq := (getElem?_inj hlt hnodup).mp (hb.trans hb'.symm)
    rw [hown.2, hown'.2, show path.length = path'.length by omega]

@[simp] theorem pathOf_length {blockSize : ℕ} {tokens : List UInt32} {n : ℕ} :
    (pathOf blockSize tokens n).length = n := by
  simp [pathOf]

theorem mem_pathOf {blockSize : ℕ} {tokens block : List UInt32} {n m : ℕ} (h : n ≤ m)
    (hb : block ∈ pathOf blockSize tokens n) : block ∈ pathOf blockSize tokens m := by
  obtain ⟨i, hi, rfl⟩ := List.mem_map.mp hb
  exact List.mem_map.mpr ⟨i, mem_range.mpr ((mem_range.mp hi).trans_le h), rfl⟩

theorem map_pathOf {t : RadixTree} {tokens : List UInt32} {n : ℕ} :
    (pathOf t.blockSize tokens n).map blockHash = t.blockKeys tokens n := by
  unfold pathOf RadixTree.blockKeys
  rw [List.map_map]
  rfl

theorem map_blockHash_inj {K : Set (List UInt32)} (hK : Set.InjOn blockHash K)
    {path path' : List (List UInt32)} (hp : ∀ block ∈ path, block ∈ K)
    (hp' : ∀ block ∈ path', block ∈ K) (h : path.map blockHash = path'.map blockHash) :
    path = path' := by
  induction path generalizing path' with
  | nil => exact (map_eq_nil_iff.mp h.symm).symm
  | cons block path ih =>
    rcases path' with - | ⟨block', path'⟩
    · cases h
    · obtain ⟨hhead, htail⟩ := cons_eq_cons.mp h
      rw [hK (hp _ (.head _)) (hp' _ (.head _)) hhead,
        ih (fun b hb => hp b (.tail _ hb)) (fun b hb => hp' b (.tail _ hb)) htail]

namespace RadixTree

theorem Extended.blockAt {t t' : RadixTree} {tokens : List UInt32} {blocks : List ℕ}
    (h : Extended t t' tokens blocks 0) {keys : List TokenKey} (hne : keys ≠ []) :
    t'.blockAt keys = (t.blockAt keys).or
      (if keys = t.blockKeys tokens keys.length then blocks[keys.length - 1]? else none) := by
  have hkeep : ∀ c, t.find t.root keys = some c → t'.blockAt keys = t.blockAt keys := by
    intro c hc
    obtain ⟨h1, h2⟩ := h.old _ _ hc
    simp [RadixTree.blockAt, h.root, h1, h2, hc]
  rcases hc : t.find t.root keys with - | c
  · have hnone : t.blockAt keys = none := by simp [RadixTree.blockAt, hc]
    rw [hnone, none_or]
    rcases hc' : t'.find t.root keys with - | c
    · have hnone' : t'.blockAt keys = none := by simp [RadixTree.blockAt, h.root, hc']
      rw [hnone']
      split_ifs with hown
      · -- a path of these tokens without a node is longer than the blocks
        refine (getElem?_eq_none ?_).symm
        by_contra hlt
        have := h.all (keys.length - 1) (by omega)
        have hpos := length_pos_of_ne_nil hne
        rw [show 0 + (keys.length - 1) + 1 = keys.length by omega, ← hown, hc'] at this
        simp at this
      · rfl
    · rcases h.new _ _ hc' with hold | ⟨-, j, hj, hb⟩
      · rw [hc] at hold
        cases hold
      · have hlen : keys.length = j + 1 := by simp [hj]
        rw [hlen, if_pos (by simpa using hj), Nat.add_sub_cancel, hb]
        simp [RadixTree.blockAt, h.root, hc']
  · rw [hkeep c hc]
    simp [RadixTree.blockAt, hc]

end RadixTree

namespace Ledger

variable {s s' : Ledger} {K : Set (List UInt32)} {call : TreeCall}

/-- The registry is what the tree holds at the keys of the paths. -/
structure Agrees (s : Ledger) (K : Set (List UInt32)) : Prop where
  linked : s.tree.Linked
  blockAt : ∀ path, path ≠ [] → (∀ block ∈ path, block ∈ K) →
    s.reg path = s.tree.blockAt (path.map blockHash)
  known : ∀ path b, s.reg path = some b → path ≠ [] ∧ ∀ block ∈ path, block ∈ K
  exclusive : s.reg.Exclusive
  mapped : ∀ b, s.tree.blockToNode b ≠ none → ∃ path, s.reg path = some b

theorem agrees_new (blockSize now : ℕ) : (new blockSize now).Agrees K := by
  refine ⟨RadixTree.linked_new blockSize now, ?_, by simp [new], by simp [new, Registry.Exclusive],
    by simp [new, RadixTree.new]⟩
  intro path hne _
  obtain ⟨block, path, rfl⟩ := exists_cons_of_ne_nil hne
  simp [new, RadixTree.new, RadixTree.rootNode, RadixTree.blockAt, RadixTree.find, RadixTree.child]

theorem Agrees.of_shape {t : RadixTree} (h : s.Agrees K) (hs : s.tree.SameShape t) :
    Agrees { s with tree := t } K := by
  refine ⟨hs.linked h.linked, ?_, h.known, h.exclusive, ?_⟩
  · intro path hne hpath
    rw [hs.blockAt]
    exact h.blockAt path hne hpath
  · intro b hb
    rw [hs.blockToNode] at hb
    exact h.mapped b hb

theorem Agrees.unregistered (h : s.Agrees K) {tokens : List UInt32} {blocks : List ℕ}
    (hblocks : ∀ block ∈ pathOf s.tree.blockSize tokens blocks.length, block ∈ K) {j b : ℕ}
    (hj : (s.tree.unregistered tokens blocks s.tree.root 0)[j]? = some b) :
    ∃ n, n = (s.tree.walk tokens blocks.length s.tree.root 0).length + j + 1
      ∧ s.reg (pathOf s.tree.blockSize tokens n) = none
      ∧ s.reg.register s.tree.blockSize tokens blocks (pathOf s.tree.blockSize tokens n)
        = some b := by
  obtain ⟨w, hw⟩ : ∃ w, w = (s.tree.walk tokens blocks.length s.tree.root 0).length := ⟨_, rfl⟩
  rw [RadixTree.unregistered, getElem?_drop, ← hw] at hj
  have hlt : w + j < blocks.length := (List.getElem?_eq_some_iff.mp hj).1
  refine ⟨_, rfl, ?_⟩
  rw [← hw]
  have hne : pathOf s.tree.blockSize tokens (w + j + 1) ≠ [] := by
    intro hnil
    have := congrArg List.length hnil
    simp at this
  have hnone : s.reg (pathOf s.tree.blockSize tokens (w + j + 1)) = none := by
    rw [h.blockAt _ hne fun block hb => hblocks block (mem_pathOf hlt hb), map_pathOf]
    have hwalk :
        (s.tree.walk tokens blocks.length s.tree.root (0 * s.tree.blockSize))[w + j]? = _ :=
      RadixTree.walk_getElem? hlt
    rw [Nat.zero_mul, getElem?_eq_none (by omega)] at hwalk
    simp only [Nat.zero_add] at hwalk
    rw [RadixTree.blockAt, RadixTree.blockKeys, ← hwalk]
    rfl
  refine ⟨hnone, ?_⟩
  simp [Registry.register, hnone, hne, hj]

theorem Agrees.insertAt (h : s.Agrees K) (hK : Set.InjOn blockHash K) {tokens : List UInt32}
    {blocks : List ℕ} {skipBlocks : ℕ} {now : ℕ → ℕ} {t : RadixTree}
    (hblocks : ∀ block ∈ pathOf s.tree.blockSize tokens blocks.length, block ∈ K)
    (hexcl : (s.reg.register s.tree.blockSize tokens blocks).Exclusive)
    (ht : s.tree.insertAt tokens blocks skipBlocks now = some t) :
    Agrees ⟨t, s.reg.register s.tree.blockSize tokens blocks⟩ K := by
  have hkeep : ∀ path b, s.reg path = some b →
      s.reg.register s.tree.blockSize tokens blocks path = some b := by
    intro path b hb
    simp [Registry.register, hb]
  have hnew : ∀ b ∈ s.tree.unregistered tokens blocks s.tree.root 0,
      s.tree.blockToNode b = none := by
    intro b hb
    obtain ⟨j, hj⟩ := mem_iff_getElem?.mp hb
    obtain ⟨n, -, hnone, hreg⟩ := h.unregistered hblocks hj
    by_contra hmap
    obtain ⟨path, hpath⟩ := h.mapped b hmap
    rw [hexcl _ _ b hreg (hkeep path b hpath), hpath] at hnone
    cases hnone
  have hnodup : (s.tree.unregistered tokens blocks s.tree.root 0).Nodup := by
    rw [nodup_iff_getElem?_ne_getElem?]
    intro i j hij hj heq
    obtain ⟨b, hb⟩ : ∃ b, (s.tree.unregistered tokens blocks s.tree.root 0)[j]? = some b :=
      ⟨_, getElem?_eq_getElem hj⟩
    obtain ⟨n, hn, -, hreg⟩ := h.unregistered hblocks hb
    obtain ⟨m, hm, -, hreg'⟩ := h.unregistered hblocks (heq.trans hb)
    have := congrArg List.length (hexcl _ _ b hreg hreg')
    rw [pathOf_length, pathOf_length] at this
    omega
  have hlinked := h.linked.insertFrom (.inl rfl) hnodup hnew t ht
  have hext := h.linked.rooted.insertAt ht
  refine ⟨hlinked.linked, ?_, ?_, hexcl, ?_⟩
  · intro path hne hpath
    have hkeys : path.map blockHash ≠ [] := by simpa using hne
    rw [hext.blockAt hkeys, ← h.blockAt path hne hpath, length_map]
    unfold Registry.register
    by_cases hlen : path.length ≤ blocks.length
    · have hown : path = pathOf s.tree.blockSize tokens path.length ↔
          path.map blockHash = s.tree.blockKeys tokens path.length := by
        rw [← map_pathOf]
        refine ⟨fun he => congrArg _ he, map_blockHash_inj hK hpath fun block hb => ?_⟩
        exact hblocks block (mem_pathOf hlen hb)
      simp only [hne, ne_eq, not_false_eq_true, true_and, hown]
    · have hnone : blocks[path.length - 1]? = none := getElem?_eq_none (by omega)
      simp [hnone]
  · intro path b hb
    simp only [Registry.register, or_eq_some_iff] at hb
    rcases hb with hb | ⟨-, hb⟩
    · exact h.known path b hb
    · split_ifs at hb with hown
      refine ⟨hown.1, fun block hmem => hblocks block ?_⟩
      have hlt := (List.getElem?_eq_some_iff.mp hb).1
      have hpos := length_pos_of_ne_nil hown.1
      rw [hown.2] at hmem
      exact mem_pathOf (by omega) hmem
  · intro b hb
    obtain ⟨n, hn⟩ := ne_none_iff_exists'.mp hb
    rcases hlinked.mapped b n hn with hold | ⟨hmem, -⟩
    · obtain ⟨path, hpath⟩ := h.mapped b (by rw [hold]; simp)
      exact ⟨path, hkeep path b hpath⟩
    · obtain ⟨j, hj⟩ := mem_iff_getElem?.mp hmem
      obtain ⟨m, -, -, hreg⟩ := h.unregistered hblocks hj
      exact ⟨_, hreg⟩

theorem Agrees.evict (h : s.Agrees K) (now : ℕ → ℕ) :
    Agrees ⟨(s.tree.evictColdestChain now).1, s.reg.evict (s.tree.evictColdestChain now).2⟩ K := by
  have hev := h.linked.evictColdestChain now
  have hsub : ∀ path b, s.reg.evict (s.tree.evictColdestChain now).2 path = some b ↔
      s.reg path = some b ∧ b ∉ (s.tree.evictColdestChain now).2 := by
    intro path b
    simp [Registry.evict, filter_eq_some_iff]
  refine ⟨hev.linked, ?_, ?_, ?_, ?_⟩
  · intro path hne hpath
    refine Option.ext fun b => ?_
    rw [hsub, h.blockAt path hne hpath,
      h.linked.evictColdestChain_blockAt now (by simpa using hne) b]
  · intro path b hb
    exact h.known path b ((hsub path b).mp hb).1
  · intro path path' b hb hb'
    exact h.exclusive path path' b ((hsub path b).mp hb).1 ((hsub path' b).mp hb').1
  · intro b hb
    obtain ⟨n, hn⟩ := ne_none_iff_exists'.mp hb
    have hold := hev.mapped b n hn
    obtain ⟨path, hpath⟩ := h.mapped b (by rw [hold]; simp)
    refine ⟨path, (hsub path b).mpr ⟨hpath, fun hmem => ?_⟩⟩
    exact hb (hev.chain b hmem)

theorem Agrees.step (h : s.Agrees K) (hK : Set.InjOn blockHash K) (hok : s.Sound K call)
    (hs : s.step call = some s') : s'.Agrees K := by
  cases call with
  | insert tokens blocks now =>
    obtain ⟨t, ht, rfl⟩ := map_eq_some_iff.mp hs
    exact h.insertAt hK hok.1 hok.2 ht
  | insertAt tokens blocks skipBlocks now =>
    obtain ⟨t, ht, rfl⟩ := map_eq_some_iff.mp hs
    exact h.insertAt hK hok.1 hok.2 ht
  | remove blocks =>
    cases hs
    exact h.of_shape RadixTree.remove_shape
  | touch tokens now =>
    cases hs
    exact h.of_shape RadixTree.touchNodes_shape
  | pinBlocks blocks secs now =>
    cases hs
    exact h.of_shape RadixTree.pinBlocks_shape
  | sweepExpiredPins now =>
    cases hs
    exact h.of_shape RadixTree.sweepExpiredPins_shape
  | attachRecurrentState bid stateId =>
    cases hs
    exact h.of_shape RadixTree.attachRecurrentState_retains.shape
  | evictColdestChain now =>
    cases hs
    exact h.evict now

theorem Agrees.matched (h : s.Agrees K) {q : List UInt32}
    (hq : ∀ block ∈ pathOf s.tree.blockSize q (q.length / s.tree.blockSize), block ∈ K) {i : ℕ}
    (hi : i < q.length / s.tree.blockSize) :
    (s.tree.matchPrefix q).1[i]? = s.reg (pathOf s.tree.blockSize q (i + 1)) := by
  have hne : pathOf s.tree.blockSize q (i + 1) ≠ [] := by
    intro hnil
    have := congrArg List.length hnil
    simp at this
  rw [h.blockAt _ hne fun block hb => hq block (mem_pathOf hi hb), map_pathOf,
    RadixTree.matchPrefix, RadixTree.matchPrefixWithAnchor, RadixTree.blockAt,
    ← RadixTree.matched_getElem? hi, getElem?_map]

theorem step_blockSize (h : s.tree.Rooted) (hs : s.step call = some s') :
    s'.tree.blockSize = s.tree.blockSize := by
  cases call with
  | insert tokens blocks now =>
    obtain ⟨t, ht, rfl⟩ := map_eq_some_iff.mp hs
    exact (h.insertAt ht).blockSize
  | insertAt tokens blocks skipBlocks now =>
    obtain ⟨t, ht, rfl⟩ := map_eq_some_iff.mp hs
    exact (h.insertAt ht).blockSize
  | remove blocks =>
    cases hs
    exact RadixTree.remove_shape.blockSize
  | touch tokens now =>
    cases hs
    exact RadixTree.touchNodes_shape.blockSize
  | pinBlocks blocks secs now =>
    cases hs
    exact RadixTree.pinBlocks_shape.blockSize
  | sweepExpiredPins now =>
    cases hs
    rfl
  | attachRecurrentState bid stateId =>
    cases hs
    exact RadixTree.attachRecurrentState_retains.shape.blockSize
  | evictColdestChain now =>
    cases hs
    exact (RadixTree.evictColdestChain_narrowed _ now).blockSize

theorem reach_agrees {blockSize now : ℕ} (hK : Set.InjOn blockHash K)
    (hr : Steps.Reach step (fun s call => s.Sound K call) (new blockSize now) s) :
    s.Agrees K ∧ s.tree.blockSize = blockSize :=
  hr.invariant (I := fun s => s.Agrees K ∧ s.tree.blockSize = blockSize)
    ⟨agrees_new blockSize now, rfl⟩ fun _ _ _ h hok hs =>
      ⟨h.1.step hK hok hs, (step_blockSize h.1.linked.rooted hs).trans h.2⟩

/-- A lookup returns the longest registered path that the full blocks of the query start with. -/
theorem matchPrefix_longest {blockSize : ℕ} (hpos : 0 < blockSize) (now : ℕ)
    (K : Set (List UInt32)) (hK : Set.InjOn blockHash K) (s : Ledger)
    (hr : Steps.Reach step (fun s call => s.Sound K call) (new blockSize now) s)
    (q : List UInt32) (hq : ∀ block ∈ pathOf blockSize q (q.length / blockSize), block ∈ K) :
    ∃ k, s.reg.IsLongest blockSize q k (s.tree.matchPrefix q) := by
  obtain ⟨h, rfl⟩ := reach_agrees hK hr
  have hlen := s.tree.length_matchPrefix q
  have hle : (s.tree.matched q).length ≤ q.length / s.tree.blockSize := RadixTree.matched_length
  refine ⟨(s.tree.matched q).length, ?_, ?_, ?_, ?_, rfl⟩
  · exact (Nat.le_div_iff_mul_le hpos).mp hle
  · rcases hk : (s.tree.matched q).length with - | k
    · exact .inl rfl
    · right
      rw [← h.matched hq (by omega), getElem?_eq_getElem (by omega)]
      rfl
  · intro k' hk' hsome
    rcases k' with - | k'
    · exact Nat.zero_le _
    · have hlt : k' < q.length / s.tree.blockSize := (Nat.le_div_iff_mul_le hpos).mpr hk'
      rw [← h.matched hq hlt, isSome_iff_exists] at hsome
      obtain ⟨b, hb⟩ := hsome
      have := (List.getElem?_eq_some_iff.mp hb).1
      omega
  · refine ext_getElem? fun i => ?_
    rw [getElem?_map, getElem?_map]
    by_cases hi : i < (s.tree.matched q).length
    · rw [getElem?_range hi, map_some, ← h.matched hq (by omega),
        getElem?_eq_getElem (by omega)]
      rfl
    · rw [getElem?_eq_none (by omega), getElem?_eq_none (by simpa using hi)]
      rfl

/-- Two paths are registered, and the first of them is evicted. -/
theorem matchPrefix_longest_left : ∃ s k,
    Steps.Reach step (fun s call => s.Sound {[1, 2], [3, 4]} call) (new 2 0) s
      ∧ s.tree.matchPrefix [3, 4, 1, 2] = ([6], 2) ∧ s.tree.matchPrefix [1, 2] = ([], 0)
      ∧ s.reg.IsLongest 2 [3, 4, 1, 2] k (s.tree.matchPrefix [3, 4, 1, 2]) := by
  have hK : Set.InjOn blockHash {[1, 2], [3, 4]} := by
    rintro a (rfl | rfl) b (rfl | rfl) h <;> first | rfl | exact absurd h (by decide)
  have hpath₁ : ∀ block ∈ pathOf 2 [1, 2] 1, block ∈ ({[1, 2], [3, 4]} : Set (List UInt32)) := by
    simp [pathOf]
  have hpath₂ : ∀ block ∈ pathOf 2 [3, 4] 1, block ∈ ({[1, 2], [3, 4]} : Set (List UInt32)) := by
    simp [pathOf]
  have hex : Registry.Exclusive fun _ => none := by simp [Registry.Exclusive]
  have hex₁ : Registry.Exclusive (.register (fun _ => none) 2 [1, 2] [5]) :=
    hex.register (by decide) (by simp)
  have hex₂ :
      Registry.Exclusive (.register (.register (fun _ => none) 2 [1, 2] [5]) 2 [3, 4] [6]) :=
    hex₁.register (by decide) <| by
      intro b hb path hpath
      obtain rfl := mem_singleton.mp hb
      simp only [Registry.register, none_or] at hpath
      split_ifs at hpath
      exact absurd (mem_of_getElem? hpath) (by decide)
  obtain ⟨s₁, hs₁⟩ : ∃ s₁, (new 2 0).step (.insert [1, 2] [5] id) = some s₁ := ⟨_, rfl⟩
  obtain ⟨s₂, hs₂⟩ : ∃ s₂, s₁.step (.insert [3, 4] [6] id) = some s₂ := by
    cases hs₁
    exact ⟨_, rfl⟩
  have hok₂ : s₁.Sound {[1, 2], [3, 4]} (.insert [3, 4] [6] id) := by
    cases hs₁
    exact ⟨hpath₂, hex₂⟩
  have hr₁ : Steps.Reach step (fun s call => s.Sound {[1, 2], [3, 4]} call) (new 2 0) s₁ :=
    .next (.insert [1, 2] [5] id) .start ⟨hpath₁, hex₁⟩ hs₁
  have hr₂ := hr₁.next _ hok₂ hs₂
  have hok₃ : s₂.Sound {[1, 2], [3, 4]} (.remove [5]) := trivial
  have hok₄ : Sound { s₂ with tree := s₂.tree.remove [5] } {[1, 2], [3, 4]}
      (.evictColdestChain id) := trivial
  have hr := (hr₂.next _ hok₃ rfl).next _ hok₄ rfl
  obtain ⟨k, hk⟩ := matchPrefix_longest (by decide) 0 _ hK _ hr [3, 4, 1, 2]
    (by simp [pathOf, range_succ])
  refine ⟨_, k, hr, ?_, ?_, hk⟩
  · cases hs₁
    cases hs₂
    decide
  · cases hs₁
    cases hs₂
    decide

end Ledger

end Grim.Memory
