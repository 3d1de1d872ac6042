import Grim.Memory.Runs

/-!
# Recurrent checkpoints

A registration stores a checkpoint under the block of its last anchor and attaches the block's id
to the tree's node.  The checkpoints are evicted by their own recency, and a block can get another
node; the id on the node stays.  A lookup follows the deepest id alone, whatever became of it.
-/

namespace Grim.Memory

open List Option
open Function (update update_self update_of_ne)

/-- `layer_states` are of any type. -/
structure RecurrentStateCheckpoint (σ : Type) where
  id : ℕ
  tokenOffset : ℕ
  radixNodeId : ℕ
  layerStates : σ
  lastAccess : ℕ
deriving DecidableEq

structure RecurrentCheckpointPool (σ : Type) where
  maxCheckpoints : ℕ
  checkpoints : List (RecurrentStateCheckpoint σ)
  nodeToCheckpoint : ℕ → Option ℕ
  nextId : ℕ

variable {σ : Type}

def RecurrentStateCheckpoint.undated (cp : RecurrentStateCheckpoint σ) :
    RecurrentStateCheckpoint σ :=
  { cp with lastAccess := 0 }

namespace RecurrentCheckpointPool

def new (maxCheckpoints : ℕ) : RecurrentCheckpointPool σ where
  maxCheckpoints := maxCheckpoints
  checkpoints := []
  nodeToCheckpoint _ := none
  nextId := 1

variable (p : RecurrentCheckpointPool σ)

def get (id : ℕ) : Option (RecurrentStateCheckpoint σ) := p.checkpoints.find? (·.id = id)

def removeId (id : ℕ) : List (RecurrentStateCheckpoint σ) := p.checkpoints.filter (·.id ≠ id)

/-- The scan in the map's `order` of ids, for the oldest access. -/
def coldest (order : List ℕ) : Option (RecurrentStateCheckpoint σ) :=
  (order.filterMap p.get).foldl (fun cold cp =>
    match cold with
    | none => some cp
    | some best => if cp.lastAccess < best.lastAccess then some cp else cold) none

def evictColdest (order : List ℕ) : RecurrentCheckpointPool σ :=
  match p.coldest order with
  | some cp => { p with
      checkpoints := p.removeId cp.id
      nodeToCheckpoint := update p.nodeToCheckpoint cp.radixNodeId none }
  | none => p

/-- `invalidate_node`, and the first part of `store_checkpoint`. -/
def invalidateNode (node : ℕ) : RecurrentCheckpointPool σ :=
  match p.nodeToCheckpoint node with
  | some id => { p with
      checkpoints := p.removeId id
      nodeToCheckpoint := update p.nodeToCheckpoint node none }
  | none => p

/-- At the time `now`; the counter wraps past zero. -/
def insertCheckpoint (node tokenOffset : ℕ) (layerStates : σ) (now : ℕ) :
    RecurrentCheckpointPool σ × RecurrentStateCheckpoint σ :=
  let cp : RecurrentStateCheckpoint σ := ⟨p.nextId, tokenOffset, node, layerStates, now⟩
  ({ p with
      nextId := max ((p.nextId + 1) % 2 ^ 64) 1
      checkpoints := cp :: p.removeId cp.id
      nodeToCheckpoint := update p.nodeToCheckpoint node (some cp.id) }, cp)

def storeCheckpoint (node tokenOffset : ℕ) (layerStates : σ) (now : ℕ) (order : List ℕ) :
    RecurrentCheckpointPool σ × RecurrentStateCheckpoint σ :=
  let p := p.invalidateNode node
  let p := if p.maxCheckpoints ≤ p.checkpoints.length then p.evictColdest order else p
  p.insertCheckpoint node tokenOffset layerStates now

def getByNode (node now : ℕ) :
    RecurrentCheckpointPool σ × Option (RecurrentStateCheckpoint σ) :=
  match (p.nodeToCheckpoint node).bind p.get with
  | some cp =>
    let updated := { cp with lastAccess := now }
    ({ p with checkpoints := p.checkpoints.map fun c => if c.id = cp.id then updated else c },
      some updated)
  | none => (p, none)

/-- Each checkpoint stored has its id alone, its node maps to it, and no other node maps. -/
structure Indexed (p : RecurrentCheckpointPool σ) : Prop where
  ids : (p.checkpoints.map (·.id)).Nodup
  node : ∀ cp ∈ p.checkpoints, p.nodeToCheckpoint cp.radixNodeId = some cp.id
  stored : ∀ node id, p.nodeToCheckpoint node = some id →
    ∃ cp ∈ p.checkpoints, cp.id = id ∧ cp.radixNodeId = node

/-- The next id is that of no checkpoint stored; so always until the counter has wrapped. -/
def FreshId : Prop := ∀ cp ∈ p.checkpoints, cp.id ≠ p.nextId

instance : Decidable p.FreshId := inferInstanceAs (Decidable (∀ cp ∈ p.checkpoints, _))

variable {p}

theorem indexed_new (maxCheckpoints : ℕ) :
    (new maxCheckpoints : RecurrentCheckpointPool σ).Indexed where
  ids := nodup_nil
  node _ hcp := absurd hcp (not_mem_nil)
  stored _ _ h := by cases h

theorem Indexed.eq_of_id (h : p.Indexed) {c d : RecurrentStateCheckpoint σ}
    (hc : c ∈ p.checkpoints) (hd : d ∈ p.checkpoints) (hid : c.id = d.id) : c = d :=
  inj_on_of_nodup_map h.ids hc hd hid

theorem get_some {id : ℕ} {cp : RecurrentStateCheckpoint σ} (h : p.get id = some cp) :
    cp ∈ p.checkpoints ∧ cp.id = id :=
  ⟨mem_of_find?_eq_some h, by simpa using find?_some h⟩

theorem mem_removeId {id : ℕ} {cp : RecurrentStateCheckpoint σ} :
    cp ∈ p.removeId id ↔ cp ∈ p.checkpoints ∧ cp.id ≠ id := by
  unfold removeId
  simp

theorem Indexed.removeId (h : p.Indexed) (id : ℕ) : ((p.removeId id).map (·.id)).Nodup :=
  h.ids.sublist (filter_sublist.map _)

theorem Indexed.drop (h : p.Indexed) {node id : ℕ} (hnode : p.nodeToCheckpoint node = some id) :
    { p with
      checkpoints := p.removeId id
      nodeToCheckpoint := update p.nodeToCheckpoint node none }.Indexed where
  ids := h.removeId id
  node := by
    intro cp hcp
    obtain ⟨hmem, hne⟩ := mem_removeId.mp hcp
    have hother : cp.radixNodeId ≠ node := by
      intro hn
      have hid := h.node cp hmem
      rw [hn, hnode, Option.some.injEq] at hid
      exact hne hid.symm
    show update p.nodeToCheckpoint node none cp.radixNodeId = some cp.id
    rw [update_of_ne hother]
    exact h.node cp hmem
  stored := by
    intro other id' hid'
    change update p.nodeToCheckpoint node none other = some id' at hid'
    have hother : other ≠ node := by
      rintro rfl
      rw [update_self] at hid'
      cases hid'
    rw [update_of_ne hother] at hid'
    obtain ⟨cp, hcp, rfl, rfl⟩ := h.stored _ _ hid'
    refine ⟨cp, mem_removeId.mpr ⟨hcp, fun hsame => ?_⟩, rfl, rfl⟩
    obtain ⟨old, hold, hoid, hnode'⟩ := h.stored _ _ hnode
    obtain rfl := h.eq_of_id hold hcp (hoid.trans hsame.symm)
    exact hother hnode'

theorem coldest_mem {order : List ℕ} {cp : RecurrentStateCheckpoint σ}
    (h : p.coldest order = some cp) : cp ∈ p.checkpoints := by
  -- what the fold keeps: the candidate so far is stored
  refine List.foldlRecOn (motive := fun cold => ∀ c, cold = some c → c ∈ p.checkpoints) _ _
    (by simp) ?_ cp h
  intro cold hcold c hc c' hc'
  obtain ⟨id, -, hget⟩ := mem_filterMap.mp hc
  split at hc'
  · cases hc'
    exact (get_some hget).1
  · split_ifs at hc'
    · cases hc'
      exact (get_some hget).1
    · exact hcold c' hc'

theorem Indexed.evictColdest (h : p.Indexed) (order : List ℕ) : (p.evictColdest order).Indexed := by
  unfold RecurrentCheckpointPool.evictColdest
  split
  · rename_i cp hcp
    exact h.drop (h.node cp (coldest_mem hcp))
  · exact h

theorem Indexed.invalidateNode (h : p.Indexed) (node : ℕ) : (p.invalidateNode node).Indexed := by
  unfold RecurrentCheckpointPool.invalidateNode
  split
  · rename_i id hid
    exact h.drop hid
  · exact h

theorem invalidateNode_none (node : ℕ) : (p.invalidateNode node).nodeToCheckpoint node = none := by
  unfold invalidateNode
  split
  · exact update_self ..
  · assumption

theorem evictColdest_none {order : List ℕ} {node : ℕ} (h : p.nodeToCheckpoint node = none) :
    (p.evictColdest order).nodeToCheckpoint node = none := by
  unfold evictColdest
  split
  · rename_i cp hcp
    by_cases hn : node = cp.radixNodeId
    · rw [hn]
      exact update_self ..
    · exact (update_of_ne hn ..).trans h
  · exact h

theorem Indexed.insertCheckpoint (h : p.Indexed) (hfresh : p.FreshId) {node : ℕ}
    (hnode : p.nodeToCheckpoint node = none) (tokenOffset : ℕ) (layerStates : σ) (now : ℕ) :
    (p.insertCheckpoint node tokenOffset layerStates now).1.Indexed where
  ids := by
    refine nodup_cons.mpr ⟨fun hmem => ?_, h.removeId _⟩
    obtain ⟨cp, hcp, hid⟩ := List.mem_map.mp hmem
    exact (mem_removeId.mp hcp).2 hid
  node := by
    intro cp hcp
    show update p.nodeToCheckpoint node (some p.nextId) cp.radixNodeId = some cp.id
    rcases mem_cons.mp hcp with rfl | hcp
    · exact update_self ..
    · obtain ⟨hmem, -⟩ := mem_removeId.mp hcp
      have hid := h.node cp hmem
      have hother : cp.radixNodeId ≠ node := by
        rintro rfl
        rw [hnode] at hid
        cases hid
      rw [update_of_ne hother]
      exact hid
  stored := by
    intro other id hid
    change update p.nodeToCheckpoint node (some p.nextId) other = some id at hid
    by_cases hother : other = node
    · rw [hother, update_self, Option.some.injEq] at hid
      exact ⟨_, mem_cons_self .., hid, hother.symm⟩
    · rw [update_of_ne hother] at hid
      obtain ⟨cp, hcp, hcid, hcnode⟩ := h.stored _ _ hid
      exact ⟨cp, mem_cons_of_mem _ (mem_removeId.mpr ⟨hcp, hfresh cp hcp⟩), hcid, hcnode⟩

theorem FreshId.of_sublist (h : p.FreshId) {q : RecurrentCheckpointPool σ}
    (hsub : q.checkpoints.Sublist p.checkpoints) (hnext : q.nextId = p.nextId) : q.FreshId :=
  fun cp hcp => hnext ▸ h cp (hsub.subset hcp)

theorem FreshId.invalidateNode (h : p.FreshId) (node : ℕ) : (p.invalidateNode node).FreshId := by
  unfold RecurrentCheckpointPool.invalidateNode
  split
  · exact h.of_sublist filter_sublist rfl
  · exact h

theorem FreshId.evictColdest (h : p.FreshId) (order : List ℕ) : (p.evictColdest order).FreshId := by
  unfold RecurrentCheckpointPool.evictColdest
  split
  · exact h.of_sublist filter_sublist rfl
  · exact h

theorem Indexed.storeCheckpoint (h : p.Indexed) (hfresh : p.FreshId) (node tokenOffset : ℕ)
    (layerStates : σ) (now : ℕ)
    (order : List ℕ) : (p.storeCheckpoint node tokenOffset layerStates now order).1.Indexed := by
  have hnone := invalidateNode_none (p := p) node
  have hinv := h.invalidateNode node
  have hfresh := hfresh.invalidateNode node
  unfold RecurrentCheckpointPool.storeCheckpoint
  dsimp only
  split_ifs
  · exact (hinv.evictColdest order).insertCheckpoint (hfresh.evictColdest order)
      (evictColdest_none hnone) ..
  · exact hinv.insertCheckpoint hfresh hnone ..

theorem getByNode_eq (node now : ℕ) : (p.getByNode node now).2
    = ((p.nodeToCheckpoint node).bind p.get).map fun cp => { cp with lastAccess := now } := by
  unfold getByNode
  rcases (p.nodeToCheckpoint node).bind p.get with - | cp <;> rfl

theorem Indexed.getByNode (h : p.Indexed) (node now : ℕ) : (p.getByNode node now).1.Indexed := by
  unfold RecurrentCheckpointPool.getByNode
  split
  · rename_i cp hcp
    obtain ⟨id, -, hget⟩ := bind_eq_some_iff.mp hcp
    obtain ⟨hmem, -⟩ := get_some hget
    have hid : ∀ c : RecurrentStateCheckpoint σ,
        (if c.id = cp.id then { cp with lastAccess := now } else c).id = c.id := by
      intro c
      split_ifs with hc
      · exact hc.symm
      · rfl
    constructor
    · have hids : p.checkpoints.map (fun c => (if c.id = cp.id then { cp with lastAccess := now }
          else c).id) = p.checkpoints.map (·.id) := map_congr_left fun c _ => hid c
      show ((p.checkpoints.map _).map _).Nodup
      rw [List.map_map]
      exact hids ▸ h.ids
    · intro c' hc'
      obtain ⟨c, hc, rfl⟩ := List.mem_map.mp hc'
      rw [hid c]
      split_ifs with heq
      · rw [heq]
        exact h.node cp hmem
      · exact h.node c hc
    · intro other id' hid'
      obtain ⟨c, hc, hcid, hcnode⟩ := h.stored other id' hid'
      refine ⟨_, List.mem_map_of_mem hc, (hid c).trans hcid, ?_⟩
      split_ifs with heq
      · rw [← hcnode, h.eq_of_id hc hmem heq]
      · exact hcnode
  · exact h

theorem Indexed.bind_get (h : p.Indexed) {node : ℕ} {cp : RecurrentStateCheckpoint σ} :
    (p.nodeToCheckpoint node).bind p.get = some cp ↔
      cp ∈ p.checkpoints ∧ cp.radixNodeId = node := by
  constructor
  · intro hfound
    obtain ⟨id, hid, hget⟩ := bind_eq_some_iff.mp hfound
    obtain ⟨hmem, rfl⟩ := get_some hget
    obtain ⟨c, hc, hcid, hcnode⟩ := h.stored _ _ hid
    obtain rfl := h.eq_of_id hc hmem hcid
    exact ⟨hmem, hcnode⟩
  · rintro ⟨hmem, rfl⟩
    rw [h.node cp hmem, bind_some]
    have hsome : (p.get cp.id).isSome := find?_isSome.mpr ⟨cp, hmem, by simp⟩
    obtain ⟨c, hget⟩ := isSome_iff_exists.mp hsome
    obtain ⟨hc, hid⟩ := get_some hget
    rw [hget, h.eq_of_id hc hmem hid]

end RecurrentCheckpointPool

namespace RadixTree

variable {t t' : RadixTree}

def MappedLt (t : RadixTree) : Prop := ∀ b n, t.blockToNode b = some n → n < t.size

/-- The nodes keep their checkpoint ids, and the new ones have none. -/
structure KeepsIds (t t' : RadixTree) : Prop where
  size : t.size ≤ t'.size
  ids : ∀ n, (t'.nodes n).recurrentStateId = (t.nodes n).recurrentStateId
    ∨ t.size ≤ n ∧ (t'.nodes n).recurrentStateId = none
  mapped : t.MappedLt → t'.MappedLt

theorem KeepsIds.refl (t : RadixTree) : KeepsIds t t := ⟨le_refl _, fun _ => .inl rfl, id⟩

theorem KeepsIds.trans {t'' : RadixTree} (h : KeepsIds t t') (h' : KeepsIds t' t'') :
    KeepsIds t t'' := by
  refine ⟨h.size.trans h'.size, fun n => ?_, h'.mapped ∘ h.mapped⟩
  rcases h'.ids n with hn' | ⟨hn, hnone⟩
  · rw [hn']
    exact h.ids n
  · exact .inr ⟨h.size.trans hn, hnone⟩

theorem modify_keepsIds {idx : ℕ} {f : RadixNode → RadixNode}
    (hf : ∀ n, (f n).recurrentStateId = n.recurrentStateId) : KeepsIds t (t.modify idx f) := by
  refine ⟨le_refl _, fun n => .inl ?_, id⟩
  by_cases hn : n = idx
  · subst hn
    simpa [modify] using hf _
  · simp [modify, hn]

theorem addNode_keepsIds (node : ℕ) (key : TokenKey) (bid offset now : ℕ) :
    KeepsIds t (t.addNode node key bid offset now) := by
  refine ⟨Nat.le_succ _, fun n => ?_, fun hm b n hb => ?_⟩
  · by_cases hn : n = t.size
    · by_cases hnode : t.size = node
      · exact .inl (by simp [addNode, hn, hnode])
      · exact .inr ⟨hn.ge, by rw [hn, addNode_self hnode]⟩
    · exact .inl (addNode_field (f := RadixNode.recurrentStateId) (fun _ _ => rfl) hn)
  · show n < t.size + 1
    rw [addNode_blockToNode] at hb
    by_cases hbid : b = bid
    · rw [hbid, update_self, Option.some.injEq] at hb
      omega
    · rw [update_of_ne hbid] at hb
      exact (hm b n hb).trans (Nat.lt_succ_self _)

theorem insertFrom_keepsIds {tokens : List UInt32} {skipBlocks : ℕ} {now : ℕ → ℕ} :
    ∀ {blocks : List ℕ} {i node offset : ℕ} {t : RadixTree},
      insertFrom tokens skipBlocks now blocks i node offset t = some t' → KeepsIds t t'
  | [], _, _, _, _, h => by
    cases h
    exact .refl _
  | bid :: blocks, i, node, offset, t, h => by
    unfold insertFrom at h
    split at h
    · cases h
    dsimp only at h
    split at h
    · refine KeepsIds.trans ?_ (insertFrom_keepsIds h)
      split_ifs
      · exact .refl _
      · exact modify_keepsIds fun _ => rfl
    · exact (addNode_keepsIds ..).trans (insertFrom_keepsIds h)

theorem touchNodes_keepsIds : ∀ {path : List ℕ} {now : ℕ → ℕ} {t : RadixTree},
    KeepsIds t (touchNodes path now t)
  | [], _, _ => .refl _
  | _ :: _, _, _ => by
    unfold touchNodes
    refine KeepsIds.trans ?_ touchNodes_keepsIds
    exact modify_keepsIds fun _ => rfl

theorem attachRecurrentState_blockToNode {bid id : ℕ} :
    (t.attachRecurrentState bid id).blockToNode = t.blockToNode := by
  unfold attachRecurrentState
  split <;> rfl

theorem MappedLt.attachRecurrentState (h : t.MappedLt) {bid id : ℕ} :
    (t.attachRecurrentState bid id).MappedLt := by
  unfold RadixTree.attachRecurrentState
  split <;> exact h

end RadixTree

structure HybridKvBlockPool (σ : Type) extends KvBlockPool where
  recurrentCheckpoints : RecurrentCheckpointPool σ

/-- The block that covers the last anchor of `tokens`, and the anchor's offset. -/
def KvBlockPool.anchorTarget (p : KvBlockPool) (tokens : List UInt32) (blocks : List ℕ) :
    Option (ℕ × ℕ) :=
  (p.findAnchors tokens).getLast?.bind fun offset =>
    blocks[min (offset / blockSize) (blocks.length - 1)]?.map fun target => (target, offset)

/-- What a registration brings: the states of the layers, the time of the store and the order in
which the map is scanned for an eviction. -/
structure Snapshot (σ : Type) where
  layerStates : σ
  now : ℕ
  order : List ℕ

namespace HybridKvBlockPool

variable (p : HybridKvBlockPool σ)

def store (target : ℕ × ℕ) (snap : Snapshot σ) :
    RecurrentCheckpointPool σ × RecurrentStateCheckpoint σ :=
  p.recurrentCheckpoints.storeCheckpoint target.1 target.2 snap.layerStates snap.now snap.order

def insertPrefixWithRecurrentStateAt (tokens : List UInt32) (blocks : List ℕ) (skipBlocks : ℕ)
    (snap : Snapshot σ) (now : ℕ → ℕ) : Option (HybridKvBlockPool σ) :=
  (p.toKvBlockPool.insertPrefixWithRecurrentStateAt tokens blocks skipBlocks now).map fun q =>
    { toKvBlockPool := q
      recurrentCheckpoints := match p.anchorTarget tokens blocks with
        | some target => (p.store target snap).1
        | none => p.recurrentCheckpoints }

def matchPrefixWithRecurrent (tokens : List UInt32) (now : ℕ) :
    HybridKvBlockPool σ × List ℕ × ℕ × Option (RecurrentStateCheckpoint σ) :=
  let (matched, count, stateId) := p.prefixTree.matchPrefixWithAnchor tokens
  match stateId with
  | some id =>
    let (checkpoints, checkpoint) := p.recurrentCheckpoints.getByNode id now
    ({ p with recurrentCheckpoints := checkpoints }, matched, count, checkpoint)
  | none => (p, matched, count, none)

variable {p}

theorem insertPrefixWithRecurrentStateAt_tree {tokens : List UInt32} {blocks : List ℕ}
    {skipBlocks : ℕ} {snap : Snapshot σ} {now : ℕ → ℕ} {q : HybridKvBlockPool σ}
    (h : p.insertPrefixWithRecurrentStateAt tokens blocks skipBlocks snap now = some q) :
    ∃ t, RadixTree.KeepsIds p.prefixTree t
      ∧ q.prefixTree = (p.anchorTarget tokens blocks).elim t fun target =>
        t.attachRecurrentState target.1 target.1 := by
  obtain ⟨r, hr, rfl⟩ := map_eq_some_iff.mp h
  obtain ⟨t, ht, rfl⟩ := map_eq_some_iff.mp hr
  refine ⟨t.touch tokens fun k => now (blocks.length + k),
    (RadixTree.insertFrom_keepsIds ht).trans RadixTree.touchNodes_keepsIds, ?_⟩
  unfold KvBlockPool.anchorTarget
  dsimp only
  rcases (p.findAnchors tokens).getLast? with - | offset
  · rfl
  · dsimp only [bind_some]
    rcases blocks[min (offset / blockSize) (blocks.length - 1)]? with - | target <;> rfl

end HybridKvBlockPool

inductive HybridCall (σ : Type)
  | insert (tokens : List UInt32) (blocks : List ℕ) (skipBlocks : ℕ) (snap : Snapshot σ)
    (now : ℕ → ℕ)
  | lookup (tokens : List UInt32) (now : ℕ)

/-- `insert_prefix_with_recurrent_state` registers all blocks. -/
def HybridCall.Registers : HybridCall σ → Prop
  | .insert _ _ skipBlocks _ _ => skipBlocks = 0
  | .lookup .. => False

instance : (call : HybridCall σ) → Decidable call.Registers
  | .insert _ _ skipBlocks _ _ => inferInstanceAs (Decidable (skipBlocks = 0))
  | .lookup .. => inferInstanceAs (Decidable False)

/-- `attached` are the checkpoints whose store put an id on the node, the last of each. -/
structure HybridRun (σ : Type) where
  pool : HybridKvBlockPool σ
  attached : ℕ → Option (RecurrentStateCheckpoint σ)

namespace HybridRun

def new (c : Setup) (anchorTokens : List UInt32) (maxCheckpoints : ℕ) : HybridRun σ where
  pool :=
    { c.pool with
      anchorTokens := anchorTokens
      recurrentCheckpoints := .new maxCheckpoints }
  attached _ := none

variable (s : HybridRun σ)

abbrev checkpoints : RecurrentCheckpointPool σ := s.pool.recurrentCheckpoints

/-- The node the target is mapped to in the tree `t` gets the checkpoint. -/
def attach (t : RadixTree) (target : ℕ) (cp : RecurrentStateCheckpoint σ) :
    ℕ → Option (RecurrentStateCheckpoint σ) :=
  match t.blockToNode target with
  | some n => update s.attached n (some cp)
  | none => s.attached

def step : HybridCall σ → Option (HybridRun σ)
  | .insert tokens blocks skipBlocks snap now =>
    (s.pool.insertPrefixWithRecurrentStateAt tokens blocks skipBlocks snap now).map fun q =>
      { pool := q
        attached := (s.pool.anchorTarget tokens blocks).elim s.attached fun target =>
          s.attach q.prefixTree target.1 (s.pool.store target snap).2 }
  | .lookup tokens now => some { s with pool := (s.pool.matchPrefixWithRecurrent tokens now).1 }

variable {s} {s' : HybridRun σ} {call : HybridCall σ}

structure Labels (t : RadixTree) (attached : ℕ → Option (RecurrentStateCheckpoint σ)) : Prop where
  lt : ∀ n a, attached n = some a → n < t.size
  ids : ∀ n, (t.nodes n).recurrentStateId = (attached n).map (·.radixNodeId)

theorem Labels.keeps {t t' : RadixTree} {attached : ℕ → Option (RecurrentStateCheckpoint σ)}
    (h : Labels t attached) (hkeeps : RadixTree.KeepsIds t t') : Labels t' attached where
  lt n a ha := (h.lt n a ha).trans_le hkeeps.size
  ids n := by
    rcases hkeeps.ids n with hn | ⟨hn, hnone⟩
    · rw [hn, h.ids]
    · cases ha : attached n with
      | none => exact hnone
      | some a => exact absurd (h.lt n a ha) hn.not_gt

theorem Labels.attach {t : RadixTree} (h : Labels t s.attached) (hmapped : t.MappedLt)
    {target : ℕ} {cp : RecurrentStateCheckpoint σ} (hcp : cp.radixNodeId = target) :
    Labels (t.attachRecurrentState target target)
      (s.attach (t.attachRecurrentState target target) target cp) := by
  have hsame : (t.attachRecurrentState target target).blockToNode = t.blockToNode :=
    RadixTree.attachRecurrentState_blockToNode
  unfold HybridRun.attach
  rw [hsame]
  unfold RadixTree.attachRecurrentState
  rcases hnode : t.blockToNode target with - | idx
  · exact h
  · have hidx : idx < t.size := hmapped _ _ hnode
    dsimp only
    refine ⟨fun n a ha => ?_, fun n => ?_⟩
    · show n < t.size
      by_cases hn : n = idx
      · exact hn ▸ hidx
      · rw [update_of_ne hn] at ha
        exact h.lt n a ha
    · by_cases hn : n = idx
      · subst hn
        simp [RadixTree.modify, hcp]
      · rw [update_of_ne hn]
        simpa [RadixTree.modify, hn] using h.ids n

structure Labelled (s : HybridRun σ) : Prop where
  indexed : s.checkpoints.Indexed
  mapped : s.pool.prefixTree.MappedLt
  labels : Labels s.pool.prefixTree s.attached

theorem labelled_new (c : Setup) (anchorTokens : List UInt32) (maxCheckpoints : ℕ) :
    (new c anchorTokens maxCheckpoints : HybridRun σ).Labelled where
  indexed := RecurrentCheckpointPool.indexed_new _
  mapped _ _ hb := by cases hb
  labels :=
    { lt := fun _ _ ha => by cases ha
      ids := fun _ => rfl }

theorem Labelled.insert (h : s.Labelled) (hfresh : s.checkpoints.FreshId) {tokens : List UInt32}
    {blocks : List ℕ} {skipBlocks : ℕ}
    {snap : Snapshot σ} {now : ℕ → ℕ}
    (hs : s.step (.insert tokens blocks skipBlocks snap now) = some s') : s'.Labelled := by
  obtain ⟨q, hq, rfl⟩ := map_eq_some_iff.mp hs
  obtain ⟨t, hkeeps, htree⟩ := HybridKvBlockPool.insertPrefixWithRecurrentStateAt_tree hq
  obtain ⟨r, -, rfl⟩ := map_eq_some_iff.mp hq
  have hmapped := hkeeps.mapped h.mapped
  have hlabels := h.labels.keeps hkeeps
  dsimp only at htree
  generalize s.pool.anchorTarget tokens blocks = found at htree ⊢
  rcases found with - | target
  · obtain rfl : r.prefixTree = t := htree
    exact ⟨h.indexed, hmapped, hlabels⟩
  · have htree : r.prefixTree = t.attachRecurrentState target.1 target.1 := htree
    refine ⟨h.indexed.storeCheckpoint hfresh .., ?_, ?_⟩
    · show r.prefixTree.MappedLt
      rw [htree]
      exact hmapped.attachRecurrentState
    · show Labels r.prefixTree (s.attach r.prefixTree target.1 _)
      rw [htree]
      exact hlabels.attach hmapped rfl

theorem Labelled.step (h : s.Labelled) (hfresh : s.checkpoints.FreshId)
    (hs : s.step call = some s') : s'.Labelled := by
  cases call with
  | insert tokens blocks skipBlocks snap now => exact h.insert hfresh hs
  | lookup tokens now =>
    cases hs
    unfold HybridKvBlockPool.matchPrefixWithRecurrent
    dsimp only
    split
    · exact ⟨h.indexed.getByNode _ _, h.mapped, h.labels⟩
    · exact h

variable (s)

/-- What was attached last to the deepest matched node that ever got a checkpoint. -/
def deepestAttached (tokens : List UInt32) : Option (RecurrentStateCheckpoint σ) :=
  (s.pool.prefixTree.matched tokens).reverse.findSome? s.attached

variable {s}

theorem Labelled.matchPrefixWithRecurrent_eq (h : s.Labelled) (tokens : List UInt32) (now : ℕ) :
    (s.pool.matchPrefixWithRecurrent tokens now).2.2.2
      = (s.deepestAttached tokens).bind fun a =>
        ((s.checkpoints.nodeToCheckpoint a.radixNodeId).bind s.checkpoints.get).map fun cp =>
          { cp with lastAccess := now } := by
  have hid : (s.pool.prefixTree.matchPrefixWithAnchor tokens).2.2
      = (s.deepestAttached tokens).map (·.radixNodeId) := by
    show ((s.pool.prefixTree.matched tokens).filterMap _).getLast? = _
    rw [filterMap_congr fun n _ => h.labels.ids n, getLast?_filterMap]
    exact map_findSome?.symm
  unfold HybridKvBlockPool.matchPrefixWithRecurrent
  dsimp only
  rw [hid]
  rcases s.deepestAttached tokens with - | a
  · rfl
  · exact RecurrentCheckpointPool.getByNode_eq a.radixNodeId now

variable (s) [DecidableEq σ]

def live (n : ℕ) : Option (RecurrentStateCheckpoint σ) :=
  (s.attached n).bind fun a => (s.checkpoints.get a.id).bind fun cp =>
    if cp.undated = a.undated then some a.undated else none

def deepestLive (tokens : List UInt32) : Option (RecurrentStateCheckpoint σ) :=
  (s.pool.prefixTree.matched tokens).reverse.findSome? s.live

/-- The deepest matched node that ever got a checkpoint got it under the block of the deepest one
that still has one; or, where no matched node has one, no checkpoint is stored for its block. -/
structure Unhidden (tokens : List UInt32) : Prop where
  live : ∀ a ∈ s.deepestAttached tokens, ∀ b ∈ s.deepestLive tokens, b.radixNodeId = a.radixNodeId
  dead : s.deepestLive tokens = none → ∀ a ∈ s.deepestAttached tokens,
    ∀ cp ∈ s.checkpoints.checkpoints, cp.radixNodeId ≠ a.radixNodeId

variable {s}

theorem deepestLive_stored {tokens : List UInt32} {b : RecurrentStateCheckpoint σ}
    (hb : s.deepestLive tokens = some b) : (s.deepestAttached tokens).isSome = true
      ∧ ∃ cp ∈ s.checkpoints.checkpoints, cp.undated = b := by
  obtain ⟨n, hn, hlive⟩ := exists_of_findSome?_eq_some hb
  obtain ⟨a, ha, hlive⟩ := bind_eq_some_iff.mp hlive
  obtain ⟨cp, hcp, hlive⟩ := bind_eq_some_iff.mp hlive
  split_ifs at hlive with hsame
  cases hlive
  refine ⟨?_, cp, (RecurrentCheckpointPool.get_some hcp).1, hsame⟩
  exact findSome?_isSome_iff.mpr ⟨n, hn, by rw [ha]; rfl⟩

theorem Labelled.lookup_iff (h : s.Labelled) (tokens : List UInt32) (now : ℕ) :
    (s.pool.matchPrefixWithRecurrent tokens now).2.2.2.map (·.undated) = s.deepestLive tokens
      ↔ s.Unhidden tokens := by
  rw [h.matchPrefixWithRecurrent_eq tokens now]
  rcases hlive : s.deepestLive tokens with - | b
  · rcases ha : s.deepestAttached tokens with - | a
    · refine iff_of_true rfl ⟨?_, ?_⟩ <;> simp [ha]
    · rw [bind_some, map_eq_none_iff, map_eq_none_iff,
        eq_none_iff_forall_ne_some]
      constructor
      · intro hnone
        refine ⟨by simp [hlive], fun _ a' ha' cp hcp hnode => ?_⟩
        obtain rfl : a = a' := Option.some.inj (ha.symm.trans ha')
        exact hnone cp (h.indexed.bind_get.mpr ⟨hcp, hnode⟩)
      · intro hl cp hfound
        obtain ⟨hcp, hnode⟩ := h.indexed.bind_get.mp hfound
        exact hl.dead hlive a ha cp hcp hnode
  · obtain ⟨hsome, cp, hcp, rfl⟩ := deepestLive_stored hlive
    obtain ⟨a, ha⟩ := isSome_iff_exists.mp hsome
    rw [ha, bind_some, Option.map_map]
    constructor
    · intro hfound
      obtain ⟨cp', hcp', hsame⟩ := map_eq_some_iff.mp hfound
      have hsame : cp'.radixNodeId = cp.undated.radixNodeId := congrArg (·.radixNodeId) hsame
      refine ⟨fun a' ha' b hb => ?_, fun hnone => ?_⟩
      · obtain rfl : a = a' := Option.some.inj (ha.symm.trans ha')
        obtain rfl : cp.undated = b := Option.some.inj (hlive.symm.trans hb)
        exact hsame.symm.trans (h.indexed.bind_get.mp hcp').2
      · rw [hlive] at hnone
        cases hnone
    · intro hl
      have hnode : cp.undated.radixNodeId = a.radixNodeId := hl.live a ha _ hlive
      rw [h.indexed.bind_get.mpr ⟨hcp, hnode⟩]
      rfl

/-- In every state that registrations and lookups reach, a lookup returns the live checkpoint of the
deepest matched node that has one, exactly when no node below it hides it. -/
theorem lookup_of_reach (c : Setup) (anchorTokens : List UInt32) (maxCheckpoints : ℕ)
    (hr : Steps.Reach step (fun t _ => t.checkpoints.FreshId) (new c anchorTokens maxCheckpoints) s)
    (tokens : List UInt32) (now : ℕ) :
    (s.pool.matchPrefixWithRecurrent tokens now).2.2.2.map (·.undated) = s.deepestLive tokens
      ↔ s.Unhidden tokens := by
  have hl : s.Labelled := hr.invariant (labelled_new c anchorTokens maxCheckpoints)
    fun _ _ _ hl hfresh hs => hl.step hfresh hs
  exact hl.lookup_iff tokens now

/-- One block with its anchor. -/
theorem lookup_of_reach_one : ∃ s : HybridRun Unit,
    Steps.Reach step (fun t _ => t.checkpoints.FreshId) (new (.tiny 4 none) [151644] 64) s
      ∧ s.deepestLive (List.replicate 16 151644) = some ⟨1, 16, 0, (), 0⟩
      ∧ ((s.pool.matchPrefixWithRecurrent (List.replicate 16 151644) 1).2.2.2.map (·.undated)
          = s.deepestLive (List.replicate 16 151644)
        ↔ s.Unhidden (List.replicate 16 151644)) := by
  obtain ⟨s, hs⟩ : ∃ s : HybridRun Unit, Steps.exec step (fun t _ => t.checkpoints.FreshId)
      (new (.tiny 4 none) [151644] 64)
      [.insert (List.replicate 16 151644) [0] 0 ⟨(), 0, []⟩ id] = some s := ⟨_, rfl⟩
  have hr := Steps.reach_of_exec hs
  have hiff := lookup_of_reach _ _ _ hr (List.replicate 16 151644) 1
  obtain rfl := Option.some.inj hs
  exact ⟨_, hr, rfl, hiff⟩

/-- The checkpoint of the deeper block is the first of 65, and is evicted; its node keeps the id,
and hides the checkpoint of the block before it. -/
theorem live_checkpoint_hidden : ¬ ∀ (c : Setup) (s : HybridRun Unit),
    Steps.Reach step (fun _ call => call.Registers) (new c [151644] 64) s →
      ∀ (tokens : List UInt32) (now : ℕ),
        (s.pool.matchPrefixWithRecurrent tokens now).2.2.2.map (·.undated)
          = s.deepestLive tokens := by
  intro hall
  have hrun : ((Steps.exec step (fun _ call => call.Registers) (new (.tiny 80 none) [151644] 64)
      (.insert (List.replicate 32 151644) [0, 1] 0 ⟨(), 0, []⟩ id
        :: .insert (List.replicate 16 151644) [0] 0 ⟨(), 1, []⟩ id
        :: (List.range 63).map fun k =>
          .insert [151644] [k + 2] 0 ⟨(), k + 2, List.range 66⟩ id)).map
        fun s : HybridRun Unit =>
          ((s.pool.matchPrefixWithRecurrent (List.replicate 32 151644) 65).2.2.2,
            s.deepestLive (List.replicate 32 151644)))
      = some (none, some ⟨2, 16, 0, (), 0⟩) := by decide +kernel
  obtain ⟨s, hs, hfound⟩ := map_eq_some_iff.mp hrun
  have hsame := hall _ s (Steps.reach_of_exec hs) (List.replicate 32 151644) 65
  obtain ⟨hnone, hlive⟩ := Prod.mk.inj hfound
  rw [hnone, hlive] at hsame
  cases hsame

end HybridRun

end Grim.Memory
