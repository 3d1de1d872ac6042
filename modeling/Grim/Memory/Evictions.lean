import Mathlib.Data.List.TakeWhile
import Grim.Memory.PrefixMatch

/-!
# What an eviction detaches

The nodes attached to the tree are a tree (`Parented`).  An eviction detaches the coldest leaf and
then every ancestor this leaves childless, without a look at the ancestors' references or pins; it
spares the live nodes if and only if all of these ancestors are cold (`evict_spares`).
-/

namespace Grim.Memory

open List
open Function (update update_self update_of_ne)

def RadixTree.step (t : RadixTree) : TreeCall → Option RadixTree
  | .insert tokens blocks now => t.insert tokens blocks now
  | .insertAt tokens blocks skipBlocks now => t.insertAt tokens blocks skipBlocks now
  | .remove blocks => some (t.remove blocks)
  | .touch tokens now => some (t.touch tokens now)
  | .pinBlocks blocks secs now => some (t.pinBlocks secs now blocks)
  | .sweepExpiredPins now => some (t.sweepExpiredPins now)
  | .attachRecurrentState bid stateId => some (t.attachRecurrentState bid stateId)
  | .evictColdestChain now => some (t.evictColdestChain now).1

namespace RadixTree

variable {t t' : RadixTree}

/-- `n` is a child of some node. -/
def Attached (t : RadixTree) (n : ℕ) : Prop := ∃ p k, (k, n) ∈ (t.nodes p).children

/-- No sequence references `n`, and no pin of it lasts. -/
def Cold (t : RadixTree) (now : ℕ → ℕ) (n : ℕ) : Prop :=
  (t.nodes n).refCount = 0 ∧ (t.nodes n).isPinned (now n) = false

instance (t : RadixTree) (now : ℕ → ℕ) : DecidablePred (t.Cold now) := fun n => by
  unfold Cold; infer_instance

/-- The ancestors of `n` below the root that have no child but the one on the way to `n`, from
`n` up, as far as they follow on each other; at most `fuel` of them. -/
def soleAncestorsFrom (t : RadixTree) : ℕ → ℕ → List ℕ
  | 0, _ => []
  | fuel + 1, n =>
    match (t.nodes n).parent with
    | some p =>
      if p ≠ t.root ∧ (t.nodes p).children.map Prod.snd = [n] then
        p :: soleAncestorsFrom t fuel p
      else []
    | none => []

/-- The ancestors of `n` that are childless once `n` is gone. -/
def soleAncestors (t : RadixTree) (n : ℕ) : List ℕ := t.soleAncestorsFrom n n

/-- The eviction at `now` detaches no live node: what it detaches, and returns the blocks of, is an
evictable leaf and the longest run of its ancestors that become childless and are cold. -/
def Spares (t : RadixTree) (now : ℕ → ℕ) : Prop :=
  (∀ n, t.Attached n → ¬ (t.evictColdestChain now).1.Attached n → t.Cold now n) ∧
    ((t.coldest now = none ∧ t.evictColdestChain now = (t, []))
      ∨ ∃ leaf, t.evictable now leaf
        ∧ (t.evictColdestChain now).2
          = (leaf :: (t.soleAncestors leaf).takeWhile (t.Cold now ·)).map
              fun n => (t.nodes n).blockId)

structure Parented (t : RadixTree) : Prop where
  root_zero : t.root = 0
  root_lt : t.root < t.size
  link : ∀ p k c, (k, c) ∈ (t.nodes p).children → (t.nodes c).parent = some p ∧ p < c ∧ c < t.size
  keys : ∀ p, ((t.nodes p).children.map Prod.fst).Nodup
  values : ∀ p, ((t.nodes p).children.map Prod.snd).Nodup
  inner : ∀ p, (t.nodes p).children ≠ [] → p = t.root ∨ t.Attached p
  mapped : ∀ b n, t.blockToNode b = some n → (t.nodes n).blockId = b ∧ t.Attached n

theorem parented_new (blockSize now : ℕ) : (new blockSize now).Parented := by
  constructor <;> simp [new, rootNode]

theorem Parented.lt (h : t.Parented) {n : ℕ} (hn : t.Attached n) : n < t.size :=
  let ⟨_, _, hk⟩ := hn
  (h.link _ _ _ hk).2.2

theorem Parented.ne_root (h : t.Parented) {n : ℕ} (hn : t.Attached n) : n ≠ t.root := by
  obtain ⟨p, k, hk⟩ := hn
  have := (h.link p k n hk).2.1
  rw [h.root_zero]
  omega

theorem SameShape.attached (h : SameShape t t') (n : ℕ) : t'.Attached n ↔ t.Attached n := by
  simp only [Attached, h.children]

theorem SameShape.parented (h : SameShape t t') (hp : t.Parented) : t'.Parented where
  root_zero := h.root.trans hp.root_zero
  root_lt := by
    rw [h.root, h.size]
    exact hp.root_lt
  link := by
    intro p k c hc
    rw [h.children] at hc
    rw [h.parent, h.size]
    exact hp.link p k c hc
  keys := by
    intro p
    rw [h.children]
    exact hp.keys p
  values := by
    intro p
    rw [h.children]
    exact hp.values p
  inner := by
    intro p hc
    rw [h.children] at hc
    rw [h.root, h.attached]
    exact hp.inner p hc
  mapped := by
    intro b n hb
    rw [h.blockToNode] at hb
    rw [h.blockId, h.attached]
    exact hp.mapped b n hb

theorem Parented.fresh (h : t.Parented) : (t.nodes t.size).children = [] := by
  by_contra hc
  rcases h.inner _ hc with hr | ha
  · exact h.root_lt.ne' hr
  · exact lt_irrefl _ (h.lt ha)

theorem Parented.addNode (h : t.Parented) {node bid offset now : ℕ} {key : TokenKey}
    (hnode : node = t.root ∨ t.Attached node) (hkey : t.child node key = none) :
    (t.addNode node key bid offset now).Parented := by
  have hlt : node < t.size := hnode.elim (fun hr => hr ▸ h.root_lt) h.lt
  have hself : (t.addNode node key bid offset now).nodes t.size = _ := addNode_self hlt.ne'
  have hchildren : ∀ p, ((t.addNode node key bid offset now).nodes p).children
      = if p = node then (key, t.size) :: (t.nodes node).children else (t.nodes p).children :=
    addNode_children h.fresh
  have hvalue : t.size ∉ (t.nodes node).children.map Prod.snd := by
    intro hmem
    obtain ⟨⟨k, c⟩, hc, rfl⟩ := mem_map.mp hmem
    exact lt_irrefl _ (h.link node k _ hc).2.2
  have hatt : ∀ n, t.Attached n → (t.addNode node key bid offset now).Attached n := by
    rintro n ⟨p, k, hk⟩
    refine ⟨p, k, ?_⟩
    rw [hchildren]
    split_ifs with hp
    · exact mem_cons_of_mem _ (hp ▸ hk)
    · exact hk
  have hnew : (t.addNode node key bid offset now).Attached t.size := by
    refine ⟨node, key, ?_⟩
    rw [hchildren, if_pos rfl]
    exact mem_cons_self
  constructor
  · exact h.root_zero
  · exact h.root_lt.trans (Nat.lt_succ_self _)
  · intro p k c hc
    rcases mem_addNode_children hc with ⟨rfl, rfl, rfl⟩ | hc
    · rw [hself]
      exact ⟨rfl, hlt, Nat.lt_succ_self _⟩
    · obtain ⟨h1, h2, h3⟩ := h.link p k c hc
      rw [addNode_field (f := RadixNode.parent) (fun _ _ => rfl) h3.ne]
      exact ⟨h1, h2, h3.trans (Nat.lt_succ_self _)⟩
  · intro p
    rw [hchildren]
    split_ifs
    · exact nodup_cons.mpr ⟨notMem_keys hkey, h.keys node⟩
    · exact h.keys p
  · intro p
    rw [hchildren]
    split_ifs
    · exact nodup_cons.mpr ⟨hvalue, h.values node⟩
    · exact h.values p
  · intro p hc
    rw [hchildren] at hc
    split_ifs at hc with hp
    · subst hp
      exact hnode.imp_right (hatt p)
    · exact (h.inner p hc).imp_right (hatt p)
  · intro b n hb
    rw [addNode_blockToNode] at hb
    by_cases hbb : b = bid
    · rw [hbb, update_self, Option.some.injEq] at hb
      subst hb
      rw [hself]
      exact ⟨hbb.symm, hnew⟩
    · rw [update_of_ne hbb] at hb
      obtain ⟨h1, h2⟩ := h.mapped b n hb
      rw [addNode_field (f := RadixNode.blockId) (fun _ _ => rfl) (h.lt h2).ne]
      exact ⟨h1, hatt n h2⟩

theorem addNode_attached {node bid offset now : ℕ} {key : TokenKey} :
    (t.addNode node key bid offset now).Attached t.size :=
  ⟨node, key, by simp [RadixTree.addNode]⟩

theorem Parented.insertFrom {tokens : List UInt32} {skipBlocks : ℕ} {now : ℕ → ℕ}
    {blocks : List ℕ} : ∀ {i node offset : ℕ} {t : RadixTree}, t.Parented →
      (node = t.root ∨ t.Attached node) →
      ∀ t', insertFrom tokens skipBlocks now blocks i node offset t = some t' → t'.Parented := by
  induction blocks with
  | nil =>
    intro i node offset t h _ t' ht'
    exact Option.some.inj ht' ▸ h
  | cons bid blocks ih =>
    intro i node offset t h hnode t' ht'
    unfold RadixTree.insertFrom at ht'
    split at ht'
    · cases ht'
    simp only [] at ht'
    split at ht'
    · rename_i c hc
      have hatt : t.Attached c := ⟨node, _, mem_children hc⟩
      split_ifs at ht' with hskip
      · exact ih h (.inr hatt) t' ht'
      · have hs : SameShape t (t.modify c fun n => { n with refCount := n.refCount + 1 }) :=
          modify_shape (fun _ => rfl) (fun _ => rfl) fun _ => rfl
        exact ih (hs.parented h) (.inr ((hs.attached c).mpr hatt)) t' ht'
    · rename_i hc
      exact ih (h.addNode hnode hc) (.inr addNode_attached) t' ht'

theorem Parented.parent (h : t.Parented) {n : ℕ} (hn : t.Attached n) :
    ∃ p, (t.nodes n).parent = some p ∧ p < n ∧ n ∈ (t.nodes p).children.map Prod.snd
      ∧ (p = t.root ∨ t.Attached p) := by
  obtain ⟨p, k, hk⟩ := hn
  obtain ⟨hp, hlt, -⟩ := h.link p k n hk
  exact ⟨p, hp, hlt, mem_map.mpr ⟨(k, n), hk, rfl⟩, h.inner p (ne_nil_of_mem hk)⟩

theorem Parented.unlinked (h : t.Parented) {p n : ℕ} (hn : t.Attached n)
    (hp : (t.nodes n).parent = some p) : Unlinked t (t.unlink p n) p n := by
  obtain ⟨q, k, hk⟩ := hn
  have hone : ∀ m k, (k, n) ∈ (t.nodes m).children → m = p := by
    intro m k hk
    have := (h.link m k n hk).1
    rw [hp] at this
    exact (Option.some.inj this).symm
  obtain rfl := hone q k hk
  exact unlinked_of hk (h.keys q) (h.values q) hone

theorem unlink_children {p n m : ℕ} (hm : m ≠ p) :
    ((t.unlink p n).nodes m).children = (t.nodes m).children := by
  unfold unlink
  split <;> simp [modify, hm]

theorem Unlinked.attached {p n : ℕ} (hu : Unlinked t t' p n) (m : ℕ) :
    t'.Attached m ↔ t.Attached m ∧ m ≠ n := by
  simp only [Attached, hu.mem]
  constructor
  · rintro ⟨q, k, hk, hne⟩
    exact ⟨⟨q, k, hk⟩, hne⟩
  · rintro ⟨⟨q, k, hk⟩, hne⟩
    exact ⟨q, k, hk, hne⟩

theorem Unlinked.parented {p n : ℕ} (hu : Unlinked t t' p n) (h : t.Parented)
    (hnil : (t.nodes n).children = []) : t'.Parented where
  root_zero := hu.root.trans h.root_zero
  root_lt := by
    rw [hu.root, hu.size]
    exact h.root_lt
  link := by
    intro q k c hc
    rw [hu.parent, hu.size]
    exact h.link q k c ((hu.mem q k c).mp hc).1
  keys := fun q => (h.keys q).sublist ((hu.sublist q).map _)
  values := fun q => (h.values q).sublist ((hu.sublist q).map _)
  inner := by
    intro q hq
    have hq' : (t.nodes q).children ≠ [] := by
      intro hnil'
      have := hu.sublist q
      rw [hnil', sublist_nil] at this
      exact hq this
    rw [hu.root, hu.attached]
    refine (h.inner q hq').imp_right fun ha => ⟨ha, ?_⟩
    rintro rfl
    exact hq' hnil
  mapped := by
    intro b m hb
    rw [hu.blockToNode] at hb
    by_cases hbn : b = (t.nodes n).blockId
    · rw [hbn, update_self] at hb
      cases hb
    · rw [update_of_ne hbn] at hb
      obtain ⟨h1, h2⟩ := h.mapped b m hb
      rw [hu.blockId, hu.attached]
      refine ⟨h1, h2, ?_⟩
      rintro rfl
      exact hbn h1.symm

theorem soleAncestorsFrom_congr (h : t.Parented) (hroot : t'.root = t.root)
    (hparent : ∀ m, (t'.nodes m).parent = (t.nodes m).parent) : ∀ {fuel n : ℕ}, t.Attached n →
      (∀ m < n, (t'.nodes m).children = (t.nodes m).children) →
      t'.soleAncestorsFrom fuel n = t.soleAncestorsFrom fuel n
  | 0, _, _, _ => rfl
  | fuel + 1, n, hn, hch => by
    obtain ⟨p, hp, hlt, -, hatt⟩ := h.parent hn
    simp only [soleAncestorsFrom, hparent, hp, hroot, hch p hlt]
    split_ifs with hsole
    · rw [soleAncestorsFrom_congr h hroot hparent (hatt.resolve_left hsole.1)
        fun m hm => hch m (hm.trans hlt)]
    · rfl

/-- The walk up from the childless `n` detaches `n` and its sole ancestors. -/
theorem Parented.prune {idx : ℕ} : ∀ {fuel fuel' n : ℕ} {t : RadixTree} (detached : List ℕ),
    t.Parented → t.Attached n → (t.nodes n).children = [] → n < fuel → n ≤ fuel' → n ≤ idx →
    (prune idx fuel n t detached).1.Parented
    ∧ (∀ m, (prune idx fuel n t detached).1.Attached m ↔
        t.Attached m ∧ m ∉ n :: t.soleAncestorsFrom fuel' n)
    ∧ (prune idx fuel n t detached).2
      = (if n ≠ idx then detached ++ [(t.nodes n).blockId] else detached)
        ++ (t.soleAncestorsFrom fuel' n).map fun m => (t.nodes m).blockId
  | 0, _, _, _, _, _, _, _, hlt, _, _ => absurd hlt (Nat.not_lt_zero _)
  | fuel + 1, 0, n, t, _, h, hn, _, _, hle, _ => by
    obtain ⟨p, -, hlt, -⟩ := h.parent hn
    omega
  | fuel + 1, fuel' + 1, n, t, detached, h, hn, hnil, hlt, hle, hidx => by
    obtain ⟨p, hp, hpn, hmem, hatt⟩ := h.parent hn
    have hu := h.unlinked hn hp
    have hpar := hu.parented h hnil
    have hsole : (t.nodes p).children.map Prod.snd = [n] ↔
        ((t.unlink p n).nodes p).children = [] := by
      constructor
      · intro hone
        refine eq_nil_iff_forall_not_mem.mpr fun ⟨k, c⟩ hc => ?_
        obtain ⟨hc, hcn⟩ := (hu.mem p k c).mp hc
        have : c ∈ (t.nodes p).children.map Prod.snd := mem_map.mpr ⟨(k, c), hc, rfl⟩
        rw [hone, mem_singleton] at this
        exact hcn this
      · intro hnone
        have hall : ∀ c ∈ (t.nodes p).children.map Prod.snd, c = n := by
          intro c hc
          obtain ⟨⟨k, c⟩, hkc, rfl⟩ := mem_map.mp hc
          by_contra hcn
          have := (hu.mem p k c).mpr ⟨hkc, hcn⟩
          rw [hnone] at this
          exact not_mem_nil this
        have hnodup := h.values p
        have hrep := eq_replicate_of_mem hall
        rw [hrep, nodup_replicate] at hnodup
        rw [hrep]
        have hpos := length_pos_of_mem hmem
        rw [show ((t.nodes p).children.map Prod.snd).length = 1 by omega]
        rfl
    unfold RadixTree.prune
    rw [if_pos ⟨h.ne_root hn, hnil⟩, hp]
    simp only [soleAncestorsFrom, hp]
    by_cases hgo : p ≠ t.root ∧ (t.nodes p).children.map Prod.snd = [n]
    · -- `p` is childless now, and the walk goes on there
      have hpa : (t.unlink p n).Attached p :=
        (hu.attached p).mpr ⟨hatt.resolve_left hgo.1, hpn.ne⟩
      have hrest : (t.unlink p n).soleAncestorsFrom fuel' p = t.soleAncestorsFrom fuel' p :=
        soleAncestorsFrom_congr h hu.root hu.parent (hatt.resolve_left hgo.1)
          fun m hm => unlink_children hm.ne
      obtain ⟨h1, h2, h3⟩ := prune
        (if n ≠ idx then detached ++ [(t.nodes n).blockId] else detached) hpar hpa
        (hsole.mp hgo.2) (show p < fuel by omega) (show p ≤ fuel' by omega)
        (show p ≤ idx by omega)
      rw [hrest] at h2 h3
      rw [if_pos hgo]
      refine ⟨h1, fun m => ?_, ?_⟩
      · rw [h2, hu.attached]
        simp only [mem_cons, not_or]
        tauto
      · rw [h3, if_pos (show p ≠ idx by omega)]
        simp [hu.blockId]
    · rw [if_neg hgo]
      have hstop : RadixTree.prune idx fuel p (t.unlink p n) (if n ≠ idx then
          detached ++ [(t.nodes n).blockId] else detached) = (t.unlink p n, if n ≠ idx then
          detached ++ [(t.nodes n).blockId] else detached) := by
        rcases fuel with _ | fuel
        · rfl
        · unfold RadixTree.prune
          rw [if_neg]
          rw [hu.root, ← hsole]
          exact hgo
      rw [hstop]
      refine ⟨hpar, fun m => ?_, by simp⟩
      rw [hu.attached, mem_singleton]

theorem Parented.soleAncestors_attached (h : t.Parented) : ∀ {fuel n : ℕ}, t.Attached n →
    ∀ a ∈ t.soleAncestorsFrom fuel n, t.Attached a
  | 0, _, _, a, ha => by simp [soleAncestorsFrom] at ha
  | fuel + 1, n, hn, a, ha => by
    obtain ⟨p, hp, -, -, hatt⟩ := h.parent hn
    simp only [soleAncestorsFrom, hp] at ha
    split_ifs at ha with hsole
    · have hpa := hatt.resolve_left hsole.1
      rcases mem_cons.mp ha with rfl | ha
      · exact hpa
      · exact h.soleAncestors_attached hpa a ha
    · simp at ha

theorem evictable_iff {now : ℕ → ℕ} {n : ℕ} : t.evictable now n = true ↔
    n ≠ t.root ∧ t.Mapped n ∧ (t.nodes n).children = [] ∧ t.Cold now n := by
  simp [evictable, Mapped, Cold, and_assoc]

/-- The walk up takes entries out of the children and out of the map, and changes nothing else. -/
structure Pruned (t t' : RadixTree) : Prop where
  root : t'.root = t.root
  size : t'.size = t.size
  nodes : ∀ n, ∃ children, children ⊆ (t.nodes n).children
    ∧ t'.nodes n = { t.nodes n with children := children }
  map : ∀ b n, t'.blockToNode b = some n → t.blockToNode b = some n

theorem Pruned.refl (t : RadixTree) : Pruned t t :=
  ⟨rfl, rfl, fun _ => ⟨_, List.Subset.refl _, rfl⟩, fun _ _ h => h⟩

theorem Pruned.trans {t'' : RadixTree} (h : Pruned t t') (h' : Pruned t' t'') : Pruned t t'' := by
  refine ⟨h'.root.trans h.root, h'.size.trans h.size, fun n => ?_,
    fun b n hb => h.map b n (h'.map b n hb)⟩
  obtain ⟨children, hsub, heq⟩ := h.nodes n
  obtain ⟨children', hsub', heq'⟩ := h'.nodes n
  rw [heq] at hsub' heq'
  exact ⟨children', List.Subset.trans hsub' hsub, heq'⟩

theorem unlink_pruned (t : RadixTree) (p n : ℕ) : Pruned t (t.unlink p n) := by
  have hmap : ∀ b m, (t.unlink p n).blockToNode b = some m → t.blockToNode b = some m := by
    intro b m hb
    have hb : update t.blockToNode (t.nodes n).blockId none b = some m := by
      unfold unlink at hb
      split at hb <;> exact hb
    by_cases hbn : b = (t.nodes n).blockId
    · rw [hbn, update_self] at hb
      cases hb
    · rwa [update_of_ne hbn] at hb
  refine ⟨(unlink_narrowed t p n).root, (unlink_narrowed t p n).size, fun m => ?_, hmap⟩
  unfold unlink
  split
  · by_cases hm : m = p
    · subst hm
      exact ⟨_, fun _ hc => mem_of_mem_filter hc, update_self ..⟩
    · exact ⟨_, List.Subset.refl _, by simp [modify, hm]⟩
  · exact ⟨_, List.Subset.refl _, rfl⟩

theorem prune_pruned {idx : ℕ} : ∀ {fuel n : ℕ} {t : RadixTree} {detached : List ℕ},
    Pruned t (RadixTree.prune idx fuel n t detached).1 := by
  intro fuel
  induction fuel with
  | zero => exact fun {_ t _} => .refl t
  | succ fuel ih =>
    intro n t detached
    unfold RadixTree.prune
    by_cases hc : n ≠ t.root ∧ (t.nodes n).children = []
    · rw [if_pos hc]
      rcases (t.nodes n).parent with - | p
      · exact .refl t
      · exact (unlink_pruned t p n).trans ih
    · rw [if_neg hc]
      exact .refl t

theorem evictColdestChain_pruned (t : RadixTree) (now : ℕ → ℕ) :
    Pruned t (t.evictColdestChain now).1 := by
  unfold RadixTree.evictColdestChain
  split
  · exact .refl t
  · exact prune_pruned

theorem coldest_isSome {now : ℕ → ℕ} {n : ℕ} (hn : t.evictable now n = true) (hlt : n < t.size) :
    (t.coldest now).isSome := by
  -- the scan as far as `m` has a candidate if an evictable node is below `m`
  have hscan : ∀ m, n < m → (RadixTree.coldest { t with size := m } now).isSome := by
    intro m
    induction m with
    | zero => exact fun h => absurd h (Nat.not_lt_zero _)
    | succ m ih =>
      intro hm
      unfold RadixTree.coldest at ih ⊢
      dsimp only at ih ⊢
      rw [range_succ, foldl_append, foldl_cons, foldl_nil]
      rcases Nat.lt_succ_iff_lt_or_eq.mp hm with hm | rfl
      · split_ifs with hev
        · split
          · rfl
          · split_ifs
            · rfl
            · exact ih hm
        · exact ih hm
      · have hev : RadixTree.evictable { t with size := n + 1 } now n = true := hn
        rw [if_pos hev]
        split
        · rfl
        · rename_i hbest
          split_ifs
          · rfl
          · rw [hbest]
            rfl
  exact hscan t.size hlt

theorem Parented.evict (h : t.Parented) {now : ℕ → ℕ} {leaf : ℕ}
    (hleaf : t.coldest now = some leaf) :
    (t.evictColdestChain now).1.Parented
    ∧ (∀ m, (t.evictColdestChain now).1.Attached m ↔
        t.Attached m ∧ m ∉ leaf :: t.soleAncestors leaf)
    ∧ (t.evictColdestChain now).2
      = (leaf :: t.soleAncestors leaf).map fun n => (t.nodes n).blockId := by
  obtain ⟨-, hmap, hnil, -⟩ := evictable_iff.mp (coldest_evictable hleaf).1
  obtain ⟨h1, h2, h3⟩ := h.prune [(t.nodes leaf).blockId] (h.mapped _ _ hmap).2 hnil
    (Nat.lt_succ_self leaf) (le_refl leaf) (le_refl leaf)
  simp only [RadixTree.evictColdestChain, hleaf]
  exact ⟨h1, h2, by simpa [soleAncestors] using h3⟩

theorem Parented.step (h : t.Parented) {call : TreeCall} (hs : t.step call = some t') :
    t'.Parented := by
  cases call with
  | insert tokens blocks now => exact h.insertFrom (.inl rfl) t' hs
  | insertAt tokens blocks skipBlocks now => exact h.insertFrom (.inl rfl) t' hs
  | remove blocks => exact Option.some.inj hs ▸ remove_shape.parented h
  | touch tokens now => exact Option.some.inj hs ▸ touchNodes_shape.parented h
  | pinBlocks blocks secs now => exact Option.some.inj hs ▸ pinBlocks_shape.parented h
  | sweepExpiredPins now => exact Option.some.inj hs ▸ sweepExpiredPins_shape.parented h
  | attachRecurrentState bid stateId =>
    obtain rfl := Option.some.inj hs
    unfold RadixTree.attachRecurrentState
    split
    · refine SameShape.parented ?_ h
      exact modify_shape (fun _ => rfl) (fun _ => rfl) fun _ => rfl
    · exact h
  | evictColdestChain now =>
    obtain rfl := Option.some.inj hs
    rcases hleaf : t.coldest now with - | leaf
    · simpa [RadixTree.evictColdestChain, hleaf] using h
    · exact (h.evict hleaf).1

theorem Parented.spares_iff (h : t.Parented) (now : ℕ → ℕ) :
    t.Spares now ↔ ∀ leaf, t.coldest now = some leaf → ∀ a ∈ t.soleAncestors leaf,
      t.Cold now a := by
  constructor
  · rintro ⟨hdet, -⟩ leaf hleaf a ha
    obtain ⟨-, hmap, -, -⟩ := evictable_iff.mp (coldest_evictable hleaf).1
    refine hdet a (h.soleAncestors_attached (h.mapped _ _ hmap).2 a ha) fun hatt => ?_
    exact (((h.evict hleaf).2.1 a).mp hatt).2 (mem_cons_of_mem _ ha)
  · intro hcold
    rcases hleaf : t.coldest now with - | leaf
    · have hsame : t.evictColdestChain now = (t, []) := by
        simp [RadixTree.evictColdestChain, hleaf]
      rw [Spares, hsame]
      exact ⟨fun n hn hno => absurd hn hno, .inl ⟨hleaf, rfl⟩⟩
    · obtain ⟨-, hatt, hchain⟩ := h.evict hleaf
      have hev := (coldest_evictable hleaf).1
      refine ⟨fun n hn hno => ?_, .inr ⟨leaf, hev, ?_⟩⟩
      · have hmem : n ∈ leaf :: t.soleAncestors leaf := by
          by_contra hnot
          exact hno ((hatt n).mpr ⟨hn, hnot⟩)
        rcases mem_cons.mp hmem with rfl | hmem
        · exact (evictable_iff.mp hev).2.2.2
        · exact hcold leaf hleaf n hmem
      · rw [hchain, takeWhile_eq_self_iff.mpr]
        intro a ha
        simpa using hcold leaf hleaf a ha

/-- In every state, the next eviction spares the live nodes if and only if each ancestor that it
leaves childless is cold. -/
theorem evict_spares (blockSize now₀ : ℕ)
    (hr : Steps.Reach RadixTree.step (fun _ _ => True) (new blockSize now₀) t) (now : ℕ → ℕ) :
    t.Spares now ↔ ∀ leaf, t.coldest now = some leaf → ∀ a ∈ t.soleAncestors leaf, t.Cold now a :=
  (hr.invariant (parented_new blockSize now₀) fun _ _ _ h _ => h.step).spares_iff now

def coldCalls : List TreeCall := [.insert [7, 8] [0, 1] fun _ => 0, .remove [0, 1]]

theorem evict_spares_cold : ∃ t, Steps.exec RadixTree.step (fun _ _ => True) (new 1 0) coldCalls
    = some t ∧ t.Spares fun _ => 0 := by
  obtain ⟨t, hrun, hleaf, hsole⟩ : ∃ t, Steps.exec RadixTree.step (fun _ _ => True) (new 1 0)
      coldCalls = some t ∧ t.coldest (fun _ => 0) = some 2
      ∧ ∀ a ∈ t.soleAncestors 2, t.Cold (fun _ => 0) a := ⟨_, rfl, by decide, by decide⟩
  refine ⟨t, hrun, (evict_spares 1 0 (Steps.reach_of_exec hrun) _).mpr fun leaf hl => ?_⟩
  obtain rfl := Option.some.inj (hleaf.symm.trans hl)
  exact hsole

/-- The first of the two blocks is a shorter request's too, which has not given it up. -/
def sharedCalls : List TreeCall :=
  [.insert [7, 8] [0, 1] fun _ => 0, .insert [7] [0] fun _ => 0, .remove [0, 1]]

/-- The eviction detaches the node the shorter request references. -/
theorem evict_detaches_live : ¬ ∀ blockSize now₀ t,
    Steps.Reach RadixTree.step (fun _ _ => True) (new blockSize now₀) t → ∀ now, t.Spares now := by
  intro hall
  obtain ⟨t, hrun, hleaf, hsole, hlive⟩ : ∃ t, Steps.exec RadixTree.step (fun _ _ => True) (new 1 0)
      sharedCalls = some t ∧ t.coldest (fun _ => 0) = some 2 ∧ 1 ∈ t.soleAncestors 2
      ∧ (t.nodes 1).refCount = 1 := ⟨_, rfl, by decide, by decide, by decide⟩
  have hpar := (Steps.reach_of_exec hrun).invariant (parented_new 1 0) fun _ _ _ h _ => h.step
  have hcold := (hpar.spares_iff _).mp (hall 1 0 t (Steps.reach_of_exec hrun) fun _ => 0)
    2 hleaf 1 hsole
  rw [Cold, hlive] at hcold
  exact absurd hcold.1 (by decide)

end RadixTree

end Grim.Memory
