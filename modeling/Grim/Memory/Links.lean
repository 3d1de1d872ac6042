import Grim.Memory.Radix

/-!
# The links of the prefix tree

A child is mapped from its block and names its parent, and a mapped node is a child of its parent.
An eviction and a registration of new, distinct blocks keep this (`Linked`); so a node that a
lookup finds is the one its block is mapped to.
-/

namespace Grim.Memory

open List
open Function (update update_self update_of_ne)

namespace RadixTree

variable {t t' : RadixTree}

/-- The tree maps the block of `n` to `n`. -/
def Mapped (t : RadixTree) (n : ℕ) : Prop := t.blockToNode (t.nodes n).blockId = some n

structure Linked (t : RadixTree) : Prop where
  root_lt : t.root < t.size
  link : ∀ p k c, (k, c) ∈ (t.nodes p).children →
    (t.nodes c).parent = some p ∧ t.Mapped c ∧ c ≠ t.root
  keys : ∀ p, ((t.nodes p).children.map Prod.fst).Nodup
  values : ∀ p, ((t.nodes p).children.map Prod.snd).Nodup
  inner : ∀ p, (t.nodes p).children ≠ [] → p = t.root ∨ t.Mapped p
  mapped : ∀ b n, t.blockToNode b = some n →
    (t.nodes n).blockId = b ∧ n ≠ t.root ∧ n < t.size ∧ ∃ p k, (k, n) ∈ (t.nodes p).children

theorem linked_new (blockSize now : ℕ) : (new blockSize now).Linked := by
  constructor <;> simp [new, rootNode]

theorem Linked.mapped_lt (h : t.Linked) {n : ℕ} (hn : t.Mapped n) : n < t.size :=
  (h.mapped _ _ hn).2.2.1

theorem Linked.child_key (h : t.Linked) {p n : ℕ} {k k' : TokenKey}
    (hk : (k, n) ∈ (t.nodes p).children) (hk' : (k', n) ∈ (t.nodes p).children) : k' = k :=
  congrArg Prod.fst (inj_on_of_nodup_map (h.values p) hk' hk rfl)

theorem Linked.child_node (h : t.Linked) {p n n' : ℕ} {k : TokenKey}
    (hk : (k, n) ∈ (t.nodes p).children) (hk' : (k, n') ∈ (t.nodes p).children) : n' = n :=
  congrArg Prod.snd (inj_on_of_nodup_map (h.keys p) hk' hk rfl)

theorem Mapped.inj {n n' : ℕ} (hn : t.Mapped n) (hn' : t.Mapped n')
    (hb : (t.nodes n).blockId = (t.nodes n').blockId) : n = n' := by
  unfold Mapped at hn hn'
  rw [hb, hn'] at hn
  exact (Option.some.inj hn).symm

theorem mem_children {node c : ℕ} {key : TokenKey} (h : t.child node key = some c) :
    (key, c) ∈ (t.nodes node).children := by
  unfold child at h
  obtain ⟨l₁, l₂, heq, -⟩ := lookup_eq_some_iff.mp h
  rw [heq]
  simp

theorem notMem_keys {node : ℕ} {key : TokenKey} (h : t.child node key = none) :
    key ∉ (t.nodes node).children.map Prod.fst := by
  intro hmem
  unfold child at h
  obtain ⟨⟨k, c⟩, hc, rfl⟩ := mem_map.mp hmem
  have := lookup_eq_none_iff.mp h _ hc
  simp at this

theorem Linked.walk_mapped (h : t.Linked) {tokens : List UInt32} : ∀ {n node offset : ℕ},
    ∀ c ∈ t.walk tokens n node offset, t.Mapped c := by
  intro n
  induction n with
  | zero =>
    intro node offset c hc
    simp [walk] at hc
  | succ n ih =>
    intro node offset c hc
    unfold walk at hc
    split at hc
    · rename_i c' hchild
      rcases mem_cons.mp hc with rfl | hc
      · exact (h.link _ _ _ (mem_children hchild)).2.1
      · exact ih c hc
    · simp at hc

theorem Linked.matched_mapped (h : t.Linked) {tokens : List UInt32} :
    ∀ c ∈ t.matched tokens, t.Mapped c := h.walk_mapped

/-- Nodes, parents, children and the map of the blocks are the same. -/
structure SameShape (t t' : RadixTree) : Prop where
  root : t'.root = t.root
  size : t'.size = t.size
  blockSize : t'.blockSize = t.blockSize
  blockToNode : t'.blockToNode = t.blockToNode
  blockId : ∀ n, (t'.nodes n).blockId = (t.nodes n).blockId
  parent : ∀ n, (t'.nodes n).parent = (t.nodes n).parent
  children : ∀ n, (t'.nodes n).children = (t.nodes n).children

theorem SameShape.refl (t : RadixTree) : SameShape t t := by constructor <;> simp

theorem SameShape.of_eq (h : t' = t) : SameShape t t' := h ▸ .refl t

theorem SameShape.trans {t'' : RadixTree} (h : SameShape t t') (h' : SameShape t' t'') :
    SameShape t t'' where
  root := h'.root.trans h.root
  size := h'.size.trans h.size
  blockSize := h'.blockSize.trans h.blockSize
  blockToNode := h'.blockToNode.trans h.blockToNode
  blockId n := (h'.blockId n).trans (h.blockId n)
  parent n := (h'.parent n).trans (h.parent n)
  children n := (h'.children n).trans (h.children n)

theorem SameShape.mapped (h : SameShape t t') (n : ℕ) : t'.Mapped n ↔ t.Mapped n := by
  unfold Mapped
  rw [h.blockToNode, h.blockId n]

theorem SameShape.child (h : SameShape t t') (node : ℕ) (key : TokenKey) :
    t'.child node key = t.child node key := by
  unfold RadixTree.child
  rw [h.children]

theorem SameShape.blockKey (h : SameShape t t') (tokens : List UInt32) (offset : ℕ) :
    t'.blockKey tokens offset = t.blockKey tokens offset := by
  unfold RadixTree.blockKey
  rw [h.blockSize]

theorem SameShape.walk (h : SameShape t t') (tokens : List UInt32) : ∀ (n node offset : ℕ),
    t'.walk tokens n node offset = t.walk tokens n node offset := by
  intro n
  induction n with
  | zero => exact fun _ _ => rfl
  | succ n ih =>
    intro node offset
    unfold RadixTree.walk
    rw [h.child, h.blockKey, h.blockSize]
    simp only [ih]

theorem SameShape.linked (h : SameShape t t') (hl : t.Linked) : t'.Linked := by
  constructor
  · rw [h.root, h.size]
    exact hl.root_lt
  · intro p k c hc
    rw [h.children] at hc
    rw [h.parent, h.mapped, h.root]
    exact hl.link p k c hc
  · intro p
    rw [h.children]
    exact hl.keys p
  · intro p
    rw [h.children]
    exact hl.values p
  · intro p hp
    rw [h.children] at hp
    rw [h.root, h.mapped]
    exact hl.inner p hp
  · intro b n hb
    rw [h.blockToNode] at hb
    simp only [h.blockId, h.root, h.size, h.children]
    exact hl.mapped b n hb

theorem modify_shape {idx : ℕ} {f : RadixNode → RadixNode}
    (hb : ∀ n, (f n).blockId = n.blockId) (hp : ∀ n, (f n).parent = n.parent)
    (hc : ∀ n, (f n).children = n.children) : SameShape t (t.modify idx f) := by
  constructor <;> try rfl
  all_goals
    intro n
    by_cases hn : n = idx
    · subst hn
      simp [modify, hb, hp, hc]
    · simp [modify, hn]

theorem touchNodes_shape {path : List ℕ} : ∀ {now : ℕ → ℕ} {t : RadixTree},
    SameShape t (touchNodes path now t) := by
  induction path with
  | nil => exact fun {_ t} => .refl t
  | cons idx path ih =>
    intro now t
    unfold touchNodes
    refine SameShape.trans ?_ ih
    exact modify_shape (fun _ => rfl) (fun _ => rfl) fun _ => rfl

theorem remove_shape {blocks : List ℕ} : ∀ {t : RadixTree}, SameShape t (remove blocks t) := by
  induction blocks with
  | nil => exact fun {t} => .refl t
  | cons bid blocks ih =>
    intro t
    unfold remove
    split
    · refine SameShape.trans ?_ ih
      exact modify_shape (fun _ => rfl) (fun _ => rfl) fun _ => rfl
    · exact ih

theorem pinBlocks_shape {secs now : ℕ} {blocks : List ℕ} : ∀ {t : RadixTree},
    SameShape t (pinBlocks secs now blocks t) := by
  induction blocks with
  | nil => exact fun {t} => .refl t
  | cons bid blocks ih =>
    intro t
    unfold pinBlocks
    simp only []
    split
    · refine SameShape.trans ?_ ih
      exact modify_shape (fun _ => rfl) (fun _ => rfl) fun _ => rfl
    · exact ih

theorem sweepExpiredPins_shape {now : ℕ} : SameShape t (t.sweepExpiredPins now) := by
  constructor <;> try rfl
  all_goals
    intro n
    simp only [sweepExpiredPins]
    split_ifs <;> rfl

theorem Linked.fresh (h : t.Linked) : (t.nodes t.size).children = [] := by
  by_contra hc
  rcases h.inner _ hc with hr | hm
  · exact h.root_lt.ne' hr
  · exact lt_irrefl _ (h.mapped_lt hm)

theorem addNode_mapped {node bid offset now : ℕ} {key : TokenKey} (hne : t.size ≠ node) :
    (t.addNode node key bid offset now).Mapped t.size := by
  unfold Mapped
  rw [addNode_self hne, addNode_blockToNode]
  exact update_self ..

theorem Linked.addNode (h : t.Linked) {node bid offset now : ℕ} {key : TokenKey}
    (hnode : node = t.root ∨ t.Mapped node) (hkey : t.child node key = none)
    (hbid : t.blockToNode bid = none) : (t.addNode node key bid offset now).Linked := by
  have hlt : node < t.size := hnode.elim (fun hr => hr ▸ h.root_lt) h.mapped_lt
  have hself : (t.addNode node key bid offset now).nodes t.size = _ := addNode_self hlt.ne'
  have hchildren : ∀ p, ((t.addNode node key bid offset now).nodes p).children
      = if p = node then (key, t.size) :: (t.nodes node).children else (t.nodes p).children :=
    addNode_children h.fresh
  have hvalue : t.size ∉ (t.nodes node).children.map Prod.snd := by
    intro hmem
    obtain ⟨⟨k, c⟩, hc, rfl⟩ := mem_map.mp hmem
    exact lt_irrefl _ (h.mapped_lt (h.link _ _ _ hc).2.1)
  have hmap : ∀ n, t.Mapped n → (t.addNode node key bid offset now).Mapped n := by
    intro n hn
    have hnb : (t.nodes n).blockId ≠ bid := by
      intro heq
      rw [Mapped, heq, hbid] at hn
      cases hn
    unfold Mapped
    rw [addNode_field (f := RadixNode.blockId) (fun _ _ => rfl) (h.mapped_lt hn).ne,
      addNode_blockToNode, update_of_ne hnb]
    exact hn
  have hroot : t.size ≠ t.root := h.root_lt.ne'
  constructor
  · exact h.root_lt.trans (Nat.lt_succ_self _)
  · intro p k c hc
    rcases mem_addNode_children hc with ⟨rfl, rfl, rfl⟩ | hc
    · rw [hself]
      exact ⟨rfl, addNode_mapped hlt.ne', hroot⟩
    · obtain ⟨h1, h2, h3⟩ := h.link p k c hc
      rw [addNode_field (f := RadixNode.parent) (fun _ _ => rfl) (h.mapped_lt h2).ne]
      exact ⟨h1, hmap c h2, h3⟩
  · intro p
    rw [hchildren]
    split_ifs
    · exact nodup_cons.mpr ⟨notMem_keys hkey, h.keys node⟩
    · exact h.keys p
  · intro p
    rw [hchildren]
    split_ifs
    · exact nodup_cons.mpr ⟨hvalue, h.values node⟩
    · exact h.values p
  · intro p hp
    rw [hchildren] at hp
    split_ifs at hp with hpn
    · subst hpn
      exact hnode.imp_right (hmap p)
    · exact (h.inner p hp).imp_right (hmap p)
  · intro b n hb
    rw [addNode_blockToNode] at hb
    by_cases hbb : b = bid
    · rw [hbb, update_self, Option.some.injEq] at hb
      subst hb
      rw [hself]
      refine ⟨hbb.symm, hroot, Nat.lt_succ_self _, node, key, ?_⟩
      rw [hchildren, if_pos rfl]
      exact mem_cons_self
    · rw [update_of_ne hbb] at hb
      obtain ⟨h1, h2, h3, p, k, h4⟩ := h.mapped b n hb
      rw [addNode_field (f := RadixNode.blockId) (fun _ _ => rfl) h3.ne]
      refine ⟨h1, h2, h3.trans (Nat.lt_succ_self _), p, k, ?_⟩
      rw [hchildren]
      split_ifs with hp
      · exact mem_cons_of_mem _ (hp ▸ h4)
      · exact h4

theorem addNode_child {node bid offset now : ℕ} {key : TokenKey} (hne : t.size ≠ node)
    (key' : TokenKey) : (t.addNode node key bid offset now).child t.size key' = none := by
  simp [RadixTree.child, RadixTree.addNode, hne]

/-- The blocks of a registration below `node` that have no node yet. -/
def unregistered (t : RadixTree) (tokens : List UInt32) (blocks : List ℕ) (node offset : ℕ) :
    List ℕ :=
  blocks.drop (t.walk tokens blocks.length node offset).length

theorem unregistered_some {tokens : List UInt32} {bid : ℕ} {blocks : List ℕ} {node offset c : ℕ}
    (hc : t.child node (t.blockKey tokens offset) = some c) :
    t.unregistered tokens (bid :: blocks) node offset
      = t.unregistered tokens blocks c (offset + t.blockSize) := by
  simp [unregistered, RadixTree.walk, hc]

theorem unregistered_none {tokens : List UInt32} {blocks : List ℕ} {node offset : ℕ}
    (hc : t.child node (t.blockKey tokens offset) = none) :
    t.unregistered tokens blocks node offset = blocks := by
  cases blocks <;> simp [unregistered, RadixTree.walk, hc]

theorem SameShape.unregistered (h : SameShape t t') (tokens : List UInt32) (blocks : List ℕ)
    (node offset : ℕ) :
    t'.unregistered tokens blocks node offset = t.unregistered tokens blocks node offset := by
  unfold RadixTree.unregistered
  rw [h.walk]

/-- What a registration of new, distinct blocks does to the map: it maps each of them to a new
node. -/
structure Registered (t t' : RadixTree) (blocks : List ℕ) : Prop where
  linked : t'.Linked
  size : t.size ≤ t'.size
  mapped : ∀ b n, t'.blockToNode b = some n →
    t.blockToNode b = some n ∨ b ∈ blocks ∧ t.size ≤ n

theorem Registered.of_shape (h : SameShape t t') {t'' : RadixTree} {blocks : List ℕ}
    (hr : Registered t' t'' blocks) : Registered t t'' blocks := by
  obtain ⟨h1, h2, h3⟩ := hr
  rw [h.size] at h2
  rw [h.size, h.blockToNode] at h3
  exact ⟨h1, h2, h3⟩

theorem Linked.insertFrom {tokens : List UInt32} {skipBlocks : ℕ} {now : ℕ → ℕ}
    {blocks : List ℕ} : ∀ {i node offset : ℕ} {t : RadixTree}, t.Linked →
      (node = t.root ∨ t.Mapped node) → (t.unregistered tokens blocks node offset).Nodup →
      (∀ b ∈ t.unregistered tokens blocks node offset, t.blockToNode b = none) →
      ∀ t', insertFrom tokens skipBlocks now blocks i node offset t = some t' →
        Registered t t' (t.unregistered tokens blocks node offset) := by
  induction blocks with
  | nil =>
    intro i node offset t h _ _ _ t' ht'
    cases ht'
    exact ⟨h, le_refl _, fun b n hb => .inl hb⟩
  | cons bid blocks ih =>
    intro i node offset t h hnode hnodup hnew t' ht'
    unfold RadixTree.insertFrom at ht'
    split at ht'
    · cases ht'
    simp only [] at ht'
    split at ht'
    · rename_i c hc
      -- the block has its node already, and only a count changes
      rw [unregistered_some hc] at hnodup hnew ⊢
      have hmc : t.Mapped c := (h.link _ _ _ (mem_children hc)).2.1
      split_ifs at ht' with hskip
      · exact ih h (.inr hmc) hnodup hnew t' ht'
      · have hs : SameShape t (t.modify c fun n => { n with refCount := n.refCount + 1 }) :=
          modify_shape (fun _ => rfl) (fun _ => rfl) fun _ => rfl
        have hr := @ih (i + 1) c (offset + t.blockSize) _ (hs.linked h)
          (.inr ((hs.mapped c).mpr hmc))
        rw [hs.unregistered, hs.blockToNode] at hr
        exact .of_shape hs (hr hnodup hnew t' ht')
    · rename_i hc
      rw [unregistered_none hc] at hnodup hnew ⊢
      have hbid : t.blockToNode bid = none := hnew bid (.head _)
      have hne : t.size ≠ node :=
        (hnode.elim (fun hr => hr ▸ h.root_lt) h.mapped_lt).ne'
      obtain ⟨hbnot, hnodup⟩ := nodup_cons.mp hnodup
      have hfresh : (t.addNode node (t.blockKey tokens offset) bid offset (now i)).unregistered
          tokens blocks t.size (offset + t.blockSize) = blocks :=
        unregistered_none (addNode_child hne _)
      have hr := @ih (i + 1) t.size (offset + t.blockSize)
        (t.addNode node (t.blockKey tokens offset) bid offset (now i)) (h.addNode hnode hc hbid)
        (.inr (addNode_mapped hne))
      rw [hfresh] at hr
      have hunmapped : ∀ b ∈ blocks,
          (t.addNode node (t.blockKey tokens offset) bid offset (now i)).blockToNode b = none := by
        intro b hb
        have hbb : b ≠ bid := by
          rintro rfl
          exact hbnot hb
        simpa [RadixTree.addNode, hbb] using hnew b (.tail _ hb)
      obtain ⟨h1, h2, h3⟩ := hr hnodup hunmapped t' ht'
      have hsize : t.size + 1 ≤ t'.size := h2
      refine ⟨h1, by omega, ?_⟩
      intro b n hb
      rcases h3 b n hb with hold | ⟨hmem, hge⟩
      · by_cases hbb : b = bid
        · subst hbb
          obtain rfl : t.size = n := by simpa [RadixTree.addNode] using hold
          exact .inr ⟨.head _, le_refl _⟩
        · exact .inl (by simpa [RadixTree.addNode, hbb] using hold)
      · have hge : t.size + 1 ≤ n := hge
        exact .inr ⟨.tail _ hmem, by omega⟩

theorem Linked.insert (h : t.Linked) {tokens : List UInt32} {blocks : List ℕ} {now : ℕ → ℕ}
    (hnodup : (t.unregistered tokens blocks t.root 0).Nodup)
    (hnew : ∀ b ∈ t.unregistered tokens blocks t.root 0, t.blockToNode b = none)
    (ht' : t.insert tokens blocks now = some t') :
    Registered t t' (t.unregistered tokens blocks t.root 0) :=
  h.insertFrom (.inl rfl) hnodup hnew t' ht'

/-- The state of the tree after `n`, a childless node, was unlinked from its parent. -/
structure Unlinked (t t' : RadixTree) (p n : ℕ) : Prop where
  root : t'.root = t.root
  size : t'.size = t.size
  blockToNode : t'.blockToNode = update t.blockToNode (t.nodes n).blockId none
  blockId : ∀ m, (t'.nodes m).blockId = (t.nodes m).blockId
  parent : ∀ m, (t'.nodes m).parent = (t.nodes m).parent
  sublist : ∀ m, (t'.nodes m).children.Sublist (t.nodes m).children
  mem : ∀ m k c, (k, c) ∈ (t'.nodes m).children ↔ (k, c) ∈ (t.nodes m).children ∧ c ≠ n

theorem unlinked_of {p n : ℕ} {key : TokenKey} (hkey : (key, n) ∈ (t.nodes p).children)
    (hkeys : ((t.nodes p).children.map Prod.fst).Nodup)
    (hvalues : ((t.nodes p).children.map Prod.snd).Nodup)
    (hone : ∀ m k, (k, n) ∈ (t.nodes m).children → m = p) : Unlinked t (t.unlink p n) p n := by
  have hfind : (t.nodes p).children.find? (·.2 = n) = some (key, n) := by
    rcases hf : (t.nodes p).children.find? (·.2 = n) with - | ⟨k, c⟩
    · have := find?_eq_none.mp hf _ hkey
      simp at this
    · obtain rfl : c = n := by simpa using find?_some hf
      rw [hf, inj_on_of_nodup_map hvalues (mem_of_find?_eq_some hf) hkey rfl]
  have hnode : (t.unlink p n).nodes = update t.nodes p
      { t.nodes p with children := (t.nodes p).children.filter (·.1 ≠ key) } := by
    unfold unlink
    rw [hfind]
    rfl
  have hother : ∀ m, m ≠ p → (t.unlink p n).nodes m = t.nodes m := by
    intro m hm
    rw [hnode, update_of_ne hm]
  have hself : (t.unlink p n).nodes p
      = { t.nodes p with children := (t.nodes p).children.filter (·.1 ≠ key) } := by
    rw [hnode, update_self]
  constructor
  · unfold unlink
    rw [hfind]
    rfl
  · unfold unlink
    rw [hfind]
    rfl
  · unfold unlink
    rw [hfind]
    rfl
  · intro m
    by_cases hm : m = p
    · rw [hm, hself]
    · rw [hother m hm]
  · intro m
    by_cases hm : m = p
    · rw [hm, hself]
    · rw [hother m hm]
  · intro m
    by_cases hm : m = p
    · rw [hm, hself]
      exact filter_sublist
    · rw [hother m hm]
  · intro m k c
    by_cases hm : m = p
    · rw [hm, hself]
      simp only [mem_filter, decide_eq_true_eq]
      refine and_congr_right fun hc => not_congr ⟨?_, ?_⟩
      · rintro rfl
        exact congrArg Prod.snd (inj_on_of_nodup_map hkeys hc hkey rfl)
      · rintro rfl
        exact congrArg Prod.fst (inj_on_of_nodup_map hvalues hc hkey rfl)
    · rw [hother m hm]
      refine (and_iff_left_of_imp ?_).symm
      rintro hc rfl
      exact hm (hone m k hc)

theorem Linked.unlinked (h : t.Linked) {p n : ℕ} (hn : t.Mapped n)
    (hp : (t.nodes n).parent = some p) : Unlinked t (t.unlink p n) p n := by
  obtain ⟨-, -, -, p', key, hkey⟩ := h.mapped _ _ hn
  have hone : ∀ m k, (k, n) ∈ (t.nodes m).children → m = p := by
    intro m k hk
    have := (h.link m k n hk).1
    rw [hp] at this
    exact (Option.some.inj this).symm
  obtain rfl := hone p' key hkey
  exact unlinked_of hkey (h.keys p') (h.values p') hone

theorem Unlinked.mapped {p n m : ℕ} (hu : Unlinked t t' p n) (hn : t.Mapped n) (hm : t.Mapped m)
    (hne : m ≠ n) : t'.Mapped m := by
  have hb : (t.nodes m).blockId ≠ (t.nodes n).blockId := fun hb => hne (hm.inj hn hb)
  unfold Mapped
  rw [hu.blockToNode, hu.blockId, update_of_ne hb]
  exact hm

theorem Unlinked.linked {p n : ℕ} (hu : Unlinked t t' p n) (h : t.Linked) (hn : t.Mapped n)
    (hnil : (t.nodes n).children = []) : t'.Linked := by
  constructor
  · rw [hu.root, hu.size]
    exact h.root_lt
  · intro q k c hc
    obtain ⟨hc, hcn⟩ := (hu.mem q k c).mp hc
    obtain ⟨h1, h2, h3⟩ := h.link q k c hc
    rw [hu.parent, hu.root]
    exact ⟨h1, hu.mapped hn h2 hcn, h3⟩
  · intro q
    exact (h.keys q).sublist ((hu.sublist q).map _)
  · intro q
    exact (h.values q).sublist ((hu.sublist q).map _)
  · intro q hq
    have hq' : (t.nodes q).children ≠ [] := by
      intro hnil'
      have := hu.sublist q
      rw [hnil', sublist_nil] at this
      exact hq this
    rw [hu.root]
    refine (h.inner q hq').imp id fun hm => hu.mapped hn hm ?_
    rintro rfl
    exact hq' hnil
  · intro b m hb
    rw [hu.blockToNode] at hb
    by_cases hbn : b = (t.nodes n).blockId
    · rw [hbn, update_self] at hb
      cases hb
    · rw [update_of_ne hbn] at hb
      obtain ⟨h1, h2, h3, q, k, h4⟩ := h.mapped b m hb
      rw [hu.blockId, hu.root, hu.size]
      refine ⟨h1, h2, h3, q, k, (hu.mem q k m).mpr ⟨h4, ?_⟩⟩
      rintro rfl
      exact hbn h1.symm

/-- What an eviction does to the map: the blocks of the chain lose their nodes, nothing else
changes. -/
structure Evicted (t t' : RadixTree) (chain : List ℕ) : Prop where
  linked : t'.Linked
  size : t'.size = t.size
  mapped : ∀ b n, t'.blockToNode b = some n → t.blockToNode b = some n
  chain : ∀ b ∈ chain, t'.blockToNode b = none

theorem Unlinked.evicted {p n : ℕ} {t'' : RadixTree} {chain : List ℕ} (hu : Unlinked t t' p n)
    (he : Evicted t' t'' chain) : Evicted t t'' chain := by
  refine ⟨he.linked, he.size.trans hu.size, ?_, he.chain⟩
  intro b m hb
  have hb := he.mapped b m hb
  rw [hu.blockToNode] at hb
  by_cases hbn : b = (t.nodes n).blockId
  · rw [hbn, update_self] at hb
    cases hb
  · rwa [update_of_ne hbn] at hb

theorem unlink_blockId (p n m : ℕ) : ((t.unlink p n).nodes m).blockId = (t.nodes m).blockId := by
  unfold unlink
  split
  · by_cases hm : m = p
    · subst hm
      simp [modify]
    · simp [modify, hm]
  · rfl

theorem unlink_containsBlock {p n b : ℕ} (hb : t.containsBlock b) :
    (t.unlink p n).containsBlock b ∨ b = (t.nodes n).blockId := by
  by_cases hbn : b = (t.nodes n).blockId
  · exact .inr hbn
  · refine .inl ?_
    unfold containsBlock unlink at *
    split <;> simpa [modify, hbn] using hb

theorem prune_containsBlock {idx : ℕ} : ∀ {fuel n : ℕ} {t : RadixTree} {detached : List ℕ},
    (t.nodes idx).blockId ∈ detached →
    (∀ b ∈ detached, b ∈ (prune idx fuel n t detached).2)
      ∧ ∀ b, t.containsBlock b → (prune idx fuel n t detached).1.containsBlock b
        ∨ b ∈ (prune idx fuel n t detached).2 := by
  intro fuel
  induction fuel with
  | zero => exact fun _ => ⟨fun _ hb => hb, fun _ hb => .inl hb⟩
  | succ fuel ih =>
    intro n t detached hidx
    unfold RadixTree.prune
    by_cases hc : n ≠ t.root ∧ (t.nodes n).children = []
    · rw [if_pos hc]
      rcases hp : (t.nodes n).parent with - | p
      · exact ⟨fun _ hb => hb, fun _ hb => .inl hb⟩
      have hmem : ∀ b, b ∈ detached ∨ b = (t.nodes n).blockId →
          b ∈ if n ≠ idx then detached ++ [(t.nodes n).blockId] else detached := by
        intro b hb
        by_cases hn : n = idx
        · rw [if_neg (not_not.mpr hn)]
          rcases hb with hb | rfl
          · exact hb
          · rw [hn]
            exact hidx
        · rw [if_pos hn]
          simpa using hb
      obtain ⟨h1, h2⟩ := ih (n := p) (t := t.unlink p n)
        (by rw [unlink_blockId]; exact hmem _ (.inl hidx))
      refine ⟨fun b hb => h1 b (hmem b (.inl hb)), fun b hb => ?_⟩
      rcases unlink_containsBlock (p := p) (n := n) hb with hb | hb
      · exact h2 b hb
      · exact .inr (h1 b (hmem b (.inr hb)))
    · rw [if_neg hc]
      exact ⟨fun _ hb => hb, fun _ hb => .inl hb⟩

theorem Linked.parent (h : t.Linked) {n : ℕ} (hn : t.Mapped n) :
    ∃ p, (t.nodes n).parent = some p ∧ (t.nodes p).children ≠ [] := by
  obtain ⟨-, -, -, p, k, hk⟩ := h.mapped _ _ hn
  exact ⟨p, (h.link p k n hk).1, ne_nil_of_mem hk⟩

theorem Linked.unlink (h : t.Linked) {p n : ℕ} (hn : t.Mapped n) (hnil : (t.nodes n).children = [])
    (hp : (t.nodes n).parent = some p) (hne : (t.nodes p).children ≠ []) :
    Unlinked t (t.unlink p n) p n ∧ (t.unlink p n).Linked
      ∧ (p = (t.unlink p n).root ∨ (t.unlink p n).Mapped p) := by
  have hu := h.unlinked hn hp
  refine ⟨hu, hu.linked h hn hnil, ?_⟩
  rw [hu.root]
  refine (h.inner p hne).imp id fun hm => hu.mapped hn hm ?_
  rintro rfl
  exact hne hnil

theorem Unlinked.unmapped {p n : ℕ} (hu : Unlinked t t' p n) {b : ℕ}
    (hb : t.blockToNode b = none ∨ b = (t.nodes n).blockId) : t'.blockToNode b = none := by
  rw [hu.blockToNode]
  by_cases hbn : b = (t.nodes n).blockId
  · rw [hbn, update_self]
  · rw [update_of_ne hbn]
    exact hb.resolve_right hbn

theorem Unlinked.unmapped_detached {p n : ℕ} (hu : Unlinked t t' p n) {detached : List ℕ}
    (hdet : ∀ b ∈ detached, t.blockToNode b = none) {idx b : ℕ}
    (hb : b ∈ if n ≠ idx then detached ++ [(t.nodes n).blockId] else detached) :
    t'.blockToNode b = none := by
  split_ifs at hb
  · rcases mem_append.mp hb with hb | hb
    · exact hu.unmapped (.inl (hdet b hb))
    · exact hu.unmapped (.inr (mem_singleton.mp hb))
  · exact hu.unmapped (.inl (hdet b hb))

theorem Linked.prune {idx : ℕ} : ∀ {fuel n : ℕ} {t : RadixTree} {detached : List ℕ}, t.Linked →
    (n = t.root ∨ t.Mapped n) → (∀ b ∈ detached, t.blockToNode b = none) →
    Evicted t (prune idx fuel n t detached).1 (prune idx fuel n t detached).2 := by
  intro fuel
  induction fuel with
  | zero => exact fun h _ hdet => ⟨h, rfl, fun _ _ hb => hb, hdet⟩
  | succ fuel ih =>
    intro n t detached h hn hdet
    unfold RadixTree.prune
    by_cases hc : n ≠ t.root ∧ (t.nodes n).children = []
    · have hm := hn.resolve_left hc.1
      obtain ⟨p, hp, hne⟩ := h.parent hm
      obtain ⟨hu, hl, hroot⟩ := h.unlink hm hc.2 hp hne
      rw [if_pos hc, hp]
      exact hu.evicted (ih hl hroot fun b => hu.unmapped_detached hdet)
    · rw [if_neg hc]
      exact ⟨h, rfl, fun _ _ hb => hb, hdet⟩

theorem coldest_evictable {now : ℕ → ℕ} {idx : ℕ} (h : t.coldest now = some idx) :
    t.evictable now idx = true ∧ idx < t.size := by
  -- what the fold keeps: the candidate so far is evictable
  refine List.foldlRecOn (motive := fun cold => ∀ i, cold = some i →
    t.evictable now i = true ∧ i < t.size) _ _ (by simp) ?_ idx h
  intro cold hcold j hj i hi
  have hjlt := mem_range.mp hj
  split_ifs at hi with hev
  · split at hi
    · cases hi
      exact ⟨hev, hjlt⟩
    · split_ifs at hi
      · cases hi
        exact ⟨hev, hjlt⟩
      · exact hcold i hi
  · exact hcold i hi

theorem Linked.evict_cases (h : t.Linked) (now : ℕ → ℕ) :
    t.evictColdestChain now = (t, []) ∨ ∃ idx p, t.Mapped idx ∧ idx ≠ t.root
      ∧ (t.nodes idx).children = [] ∧ Unlinked t (t.unlink p idx) p idx ∧ (t.unlink p idx).Linked
      ∧ (p = (t.unlink p idx).root ∨ (t.unlink p idx).Mapped p)
      ∧ t.evictColdestChain now
        = RadixTree.prune idx idx p (t.unlink p idx) [(t.nodes idx).blockId] := by
  unfold RadixTree.evictColdestChain
  split
  · exact .inl rfl
  · rename_i idx hidx
    have hev := (coldest_evictable hidx).1
    simp only [evictable, Bool.and_eq_true, decide_eq_true_eq, List.isEmpty_iff] at hev
    obtain ⟨⟨⟨⟨hroot, hm⟩, hnil⟩, -⟩, -⟩ := hev
    have hm : t.Mapped idx := hm
    obtain ⟨p, hp, hne⟩ := h.parent hm
    obtain ⟨hu, hl, hproot⟩ := h.unlink hm hnil hp hne
    refine .inr ⟨idx, p, hm, hroot, hnil, hu, hl, hproot, ?_⟩
    rw [RadixTree.prune, if_pos ⟨hroot, hnil⟩, hp]
    simp only [ne_eq, not_true_eq_false, if_false]

theorem Linked.evictColdestChain (h : t.Linked) (now : ℕ → ℕ) :
    Evicted t (t.evictColdestChain now).1 (t.evictColdestChain now).2 := by
  obtain heq | ⟨idx, p, -, -, -, hu, hl, hproot, heq⟩ := h.evict_cases now <;> rw [heq]
  · exact ⟨h, rfl, fun _ _ hb => hb, by simp⟩
  · refine hu.evicted (hl.prune hproot ?_)
    intro b hb
    exact hu.unmapped (.inr (mem_singleton.mp hb))

end RadixTree

end Grim.Memory
