import Grim.Memory.Claims

/-!
# Which nodes of a path a registration claims

After a registration the path of its tokens is the old one with the new nodes behind it
(`Parented.insertFrom_walk`).  The registration claims the path from the skipped blocks on, or from
the first new node where this comes before.
-/

namespace Grim.Memory

open List

namespace RadixTree

variable {t t' : RadixTree} {tokens : List UInt32}

/-- The nodes of `t` and their children are in `t'`, and the other children there are new. -/
structure Grows (t t' : RadixTree) : Prop where
  root : t'.root = t.root
  size : t.size ≤ t'.size
  blockSize : t'.blockSize = t.blockSize
  child : ∀ node key c, t.child node key = some c → t'.child node key = some c
  new : ∀ node key c, t'.child node key = some c → t.child node key = some c ∨ t.size ≤ c

theorem Grows.refl (t : RadixTree) : Grows t t :=
  ⟨rfl, le_rfl, rfl, fun _ _ _ h => h, fun _ _ _ h => .inl h⟩

theorem Grows.trans {t'' : RadixTree} (h : Grows t t') (h' : Grows t' t'') : Grows t t'' where
  root := h'.root.trans h.root
  size := h.size.trans h'.size
  blockSize := h'.blockSize.trans h.blockSize
  child node key c hc := h'.child node key c (h.child node key c hc)
  new node key c hc := (h'.new node key c hc).elim (h.new node key c) fun hle =>
    .inr (h.size.trans hle)

theorem SameShape.grows (h : SameShape t t') : Grows t t' where
  root := h.root
  size := h.size.ge
  blockSize := h.blockSize
  child node key c hc := by rwa [h.child]
  new node key c hc := .inl (by rwa [h.child] at hc)

theorem Grows.blockKey (h : Grows t t') (offset : ℕ) :
    t'.blockKey tokens offset = t.blockKey tokens offset := by
  unfold RadixTree.blockKey
  rw [h.blockSize]

theorem Grows.walk (h : Grows t t') {n : ℕ} : ∀ {node offset : ℕ},
    t.walk tokens n node offset <+: t'.walk tokens n node offset := by
  induction n with
  | zero => exact fun {_ _} => prefix_refl _
  | succ n ih =>
    intro node offset
    unfold RadixTree.walk
    rw [h.blockKey, h.blockSize]
    split
    · rename_i c hc
      rw [h.child _ _ _ hc]
      exact cons_prefix_cons.mpr ⟨rfl, ih⟩
    · exact nil_prefix

theorem addNode_grows {node bid offset ts : ℕ} {key : TokenKey} (h : t.Parented)
    (hc : t.child node key = none) : Grows t (t.addNode node key bid offset ts) := by
  have hchild : ∀ p k, (t.addNode node key bid offset ts).child p k
      = if p = node ∧ k = key then some t.size else t.child p k := by
    intro p k
    unfold RadixTree.child
    rw [addNode_children h.fresh]
    by_cases hp : p = node
    · subst hp
      by_cases hk : k = key
      · simp [hk]
      · simp [hk, lookup_cons, beq_eq_false_iff_ne.mpr hk]
    · simp [hp]
  refine ⟨rfl, Nat.le_succ _, rfl, ?_, ?_⟩
  · intro p k c hk
    rw [hchild, if_neg]
    · exact hk
    · rintro ⟨rfl, rfl⟩
      rw [hc] at hk
      cases hk
  · intro p k c hk
    rw [hchild] at hk
    split_ifs at hk
    · exact .inr (Option.some.inj hk).le
    · exact .inl hk

/-- What a registration makes of the path: the nodes it finds, and behind them the new ones. -/
theorem Parented.insertFrom_walk {skipBlocks : ℕ} {now : ℕ → ℕ} {blocks : List ℕ} :
    ∀ {i node offset : ℕ} {t : RadixTree}, t.Parented → (node = t.root ∨ t.Attached node) →
      ∀ t', RadixTree.insertFrom tokens skipBlocks now blocks i node offset t = some t' →
        Grows t t'
        ∧ t'.walk tokens blocks.length node offset = t.walk tokens blocks.length node offset
          ++ List.range' t.size (blocks.length - (t.walk tokens blocks.length node offset).length)
        ∧ (t.claimsFrom tokens skipBlocks blocks i node offset).map Prod.fst
          = (t.walk tokens blocks.length node offset).drop (skipBlocks - i)
            ++ List.range' t.size
              (blocks.length - (t.walk tokens blocks.length node offset).length) := by
  induction blocks with
  | nil =>
    intro i node offset t _ _ t' ht'
    obtain rfl := Option.some.inj ht'
    exact ⟨.refl t, rfl, by simp [RadixTree.walk, RadixTree.claimsFrom]⟩
  | cons bid blocks ih =>
    intro i node offset t h hnode t' ht'
    unfold RadixTree.insertFrom at ht'
    split at ht'
    · cases ht'
    simp only [] at ht'
    rw [length_cons]
    split at ht'
    · rename_i c hc
      have hatt : t.Attached c := ⟨node, _, mem_children hc⟩
      -- the tree in which the rest is registered
      generalize ht₁ : (if i < skipBlocks then t
        else t.modify c fun n => { n with refCount := n.refCount + 1 }) = t₁ at ht'
      have hs : SameShape t t₁ := by
        subst ht₁
        split_ifs
        · exact .refl t
        · exact modify_shape (fun _ => rfl) (fun _ => rfl) fun _ => rfl
      obtain ⟨hgrows, hwalk, hclaims⟩ :=
        ih (hs.parented h) (.inr ((hs.attached c).mpr hatt)) t' ht'
      have hgrows := hs.grows.trans hgrows
      rw [hs.walk, hs.size, hs.blockSize] at hwalk
      rw [hs.claimsFrom, hs.walk, hs.size, hs.blockSize] at hclaims
      have hcons : t.walk tokens (blocks.length + 1) node offset
          = c :: t.walk tokens blocks.length c (offset + t.blockSize) := by
        rw [RadixTree.walk, hc]
      refine ⟨hgrows, ?_, ?_⟩
      · rw [RadixTree.walk, hgrows.blockKey, hgrows.child _ _ _ hc, hgrows.blockSize]
        dsimp only
        rw [hwalk, hcons, length_cons, Nat.add_sub_add_right, cons_append]
      · rw [claimsFrom_some hc, map_append, hclaims, hcons, length_cons,
          Nat.add_sub_add_right, ← append_assoc]
        congr 1
        split_ifs with hskip
        · rw [show skipBlocks - i = skipBlocks - (i + 1) + 1 by omega]
          rfl
        · rw [show skipBlocks - i = 0 by omega, show skipBlocks - (i + 1) = 0 by omega]
          rfl
    · rename_i hc
      have hlt : node < t.size := hnode.elim (fun hr => hr ▸ h.root_lt) h.lt
      have hadd : Grows t (t.addNode node (t.blockKey tokens offset) bid offset (now i)) :=
        addNode_grows h hc
      obtain ⟨hgrows, hwalk, -⟩ := ih (h.addNode hnode hc) (.inr addNode_attached) t' ht'
      have hnil : t.walk tokens (blocks.length + 1) node offset = [] := by
        rw [RadixTree.walk, hc]
      have hnew : (t.addNode node (t.blockKey tokens offset) bid offset (now i)).child node
          (t.blockKey tokens offset) = some t.size := by
        unfold RadixTree.child
        rw [addNode_children h.fresh, if_pos rfl, lookup_cons, beq_self_eq_true]
      have hempty : (t.addNode node (t.blockKey tokens offset) bid offset (now i)).walk tokens
          blocks.length t.size (offset + t.blockSize) = [] := by
        cases blocks with
        | nil => rfl
        | cons b blocks =>
          rw [length_cons, RadixTree.walk, addNode_child hlt.ne']
      rw [hempty, nil_append, length_nil, Nat.sub_zero] at hwalk
      refine ⟨hadd.trans hgrows, ?_, ?_⟩
      · rw [RadixTree.walk, hgrows.blockKey, hgrows.blockSize]
        rw [show (t.addNode node (t.blockKey tokens offset) bid offset (now i)).blockKey tokens
          offset = t.blockKey tokens offset from rfl, hgrows.child _ _ _ hnew]
        dsimp only
        rw [show (t.addNode node (t.blockKey tokens offset) bid offset (now i)).blockSize
          = t.blockSize from rfl, hwalk, hnil, nil_append, length_nil, Nat.sub_zero,
          range'_succ]
        rfl
      · rw [claimsFrom_none hc, map_fst_created, hnil, drop_nil, nil_append,
          length_nil, Nat.sub_zero, length_cons]

theorem Parented.walk_sorted (h : t.Parented) {n : ℕ} : ∀ {node offset : ℕ},
    (∀ m ∈ t.walk tokens n node offset, node < m ∧ m < t.size)
      ∧ (t.walk tokens n node offset).Pairwise (· < ·) := by
  induction n with
  | zero => simp [RadixTree.walk]
  | succ n ih =>
    intro node offset
    unfold RadixTree.walk
    split
    · rename_i c hc
      obtain ⟨-, hlt, hsize⟩ := h.link _ _ _ (mem_children hc)
      obtain ⟨hbelow, hsorted⟩ := @ih c (offset + t.blockSize)
      refine ⟨fun m hm => ?_, pairwise_cons.mpr ⟨fun m hm => (hbelow m hm).1, hsorted⟩⟩
      rcases mem_cons.mp hm with rfl | hm
      · exact ⟨hlt, hsize⟩
      · exact ⟨hlt.trans (hbelow m hm).1, (hbelow m hm).2⟩
    · simp

/-- The node of the tokens' `i`-th block. -/
def nodeAt (t : RadixTree) (tokens : List UInt32) (i : ℕ) : Option ℕ :=
  (t.walk tokens (i + 1) t.root 0)[i]?

theorem SameShape.nodeAt (h : SameShape t t') (i : ℕ) :
    t'.nodeAt tokens i = t.nodeAt tokens i := by
  unfold RadixTree.nodeAt
  rw [h.walk, h.root]

theorem nodeAt_eq {n i : ℕ} (hi : i < n) :
    t.nodeAt tokens i = (t.walk tokens n t.root 0)[i]? := by
  unfold nodeAt
  rw [walk_take (Nat.succ_le_of_lt hi), getElem?_take_of_lt (Nat.lt_succ_self i)]

theorem Parented.nodeAt_lt (h : t.Parented) {i n : ℕ} (hn : t.nodeAt tokens i = some n) :
    n < t.size :=
  (h.walk_sorted.1 n (mem_of_getElem? hn)).2

theorem Grows.nodeAt (h : Grows t t') {i n : ℕ} (hn : t.nodeAt tokens i = some n) :
    t'.nodeAt tokens i = some n := by
  obtain ⟨rest, hrest⟩ : t.walk tokens (i + 1) t.root 0 <+: t'.walk tokens (i + 1) t.root 0 :=
    h.walk
  have hlt := (List.getElem?_eq_some_iff.mp hn).1
  unfold RadixTree.nodeAt
  rw [h.root, ← hrest, getElem?_append_left hlt]
  exact hn

theorem Grows.nodeAt_new (h : Grows t t') (hp : t'.Parented) {i n : ℕ}
    (hn : t'.nodeAt tokens i = some n) : t.nodeAt tokens i = some n ∨ t.size ≤ n := by
  have hwalk : ∀ {k node offset i : ℕ}, (t'.walk tokens k node offset)[i]? = some n →
      (t.walk tokens k node offset)[i]? = some n ∨ t.size ≤ n := by
    intro k
    induction k with
    | zero => simp [RadixTree.walk]
    | succ k ih =>
      intro node offset i hi
      unfold RadixTree.walk at hi ⊢
      rw [h.blockKey, h.blockSize] at hi
      split at hi
      swap
      · simp at hi
      rename_i c hc
      rcases h.new _ _ _ hc with hold | hnew
      · rw [hold]
        cases i with
        | zero => exact .inl hi
        | succ i => exact ih hi
      · refine .inr (hnew.trans ?_)
        cases i with
        | zero => exact (Option.some.inj hi).le
        | succ i => exact (hp.walk_sorted.1 n (mem_of_getElem? hi)).1.le
  unfold RadixTree.nodeAt at hn ⊢
  rw [h.root] at hn
  exact hwalk hn

theorem count_drop_take {l : List ℕ} (hl : l.Nodup) {i n : ℕ} (hi : l[i]? = some n) (k m : ℕ) :
    ((l.take m).drop k).count n = if k ≤ i ∧ i < m then 1 else 0 := by
  obtain ⟨hlt, rfl⟩ := List.getElem?_eq_some_iff.mp hi
  rw [(hl.sublist ((drop_sublist k _).trans (take_sublist m l))).count]
  refine if_congr ?_ rfl rfl
  rw [mem_drop_iff_getElem]
  constructor
  · rintro ⟨j, hj, heq⟩
    rw [length_take] at hj
    rw [getElem_take] at heq
    have := hl.getElem_inj_iff.mp heq
    omega
  · rintro ⟨hk, hm⟩
    refine ⟨i - k, ?_, ?_⟩
    · rw [length_take]
      omega
    · simp [Nat.add_sub_cancel' hk]

theorem Parented.insertAt_raises {blocks : List ℕ} {skipBlocks w : ℕ} {now : ℕ → ℕ}
    (h : t.Parented) (hw : (t.walk tokens blocks.length t.root 0).length = w)
    (ht' : t.insertAt tokens blocks skipBlocks now = some t') :
    Grows t t' ∧ t'.Parented
      ∧ (∀ i < blocks.length, ∃ n, t'.nodeAt tokens i = some n)
      ∧ ∀ i n, t'.nodeAt tokens i = some n → t'.refs n
        = t.refs n + if min skipBlocks w ≤ i ∧ i < blocks.length then 1 else 0 := by
  obtain ⟨hgrows, hwalk, hclaims⟩ := h.insertFrom_walk (.inl rfl) t' ht'
  have hpar := h.insertFrom (.inl rfl) t' ht'
  obtain ⟨hrefs, -⟩ := h.insertFrom_claims (.inl rfl) t' ht'
  have hle : w ≤ blocks.length := hw ▸ walk_length_le
  rw [hw, ← hgrows.root] at hwalk
  rw [hw, Nat.sub_zero] at hclaims
  refine ⟨hgrows, hpar, fun i hi => ?_, fun i n hn => ?_⟩
  · have hlen : i < (t'.walk tokens blocks.length t'.root 0).length := by
      rw [hwalk, length_append, length_range', hgrows.root, hw]
      omega
    exact ⟨_, (nodeAt_eq hi).trans (getElem?_eq_getElem hlen)⟩
  · -- the claims are an end of the new path, and this a begin of the way that goes on to the node
    have hdrop : (t.claimsFrom tokens skipBlocks blocks 0 t.root 0).map Prod.fst
        = ((t'.walk tokens (max blocks.length (i + 1)) t'.root 0).take blocks.length).drop
          (min skipBlocks w) := by
      rw [← walk_take (le_max_left _ _), hclaims, hwalk, hgrows.root]
      rcases le_total skipBlocks w with hskip | hskip
      · rw [min_eq_left hskip, drop_append_of_le_length (by omega)]
      · rw [min_eq_right hskip, drop_eq_nil_of_le (by omega), ← hw, drop_left]
        rfl
    have hget : (t'.walk tokens (max blocks.length (i + 1)) t'.root 0)[i]? = some n :=
      (nodeAt_eq (lt_max_of_lt_right (Nat.lt_succ_self i))).symm.trans hn
    rw [hrefs, hdrop, count_drop_take (hpar.walk_sorted.2.imp fun hlt => hlt.ne) hget]

theorem modify_refs {idx : ℕ} {f : RadixNode → RadixNode}
    (hf : ∀ node, (f node).refCount = node.refCount) (n : ℕ) :
    (t.modify idx f).refs n = t.refs n := by
  unfold refs modify
  by_cases hn : n = idx
  · subst hn
    simp [hf]
  · simp [hn]

theorem touchNodes_refs {path : List ℕ} : ∀ {now : ℕ → ℕ} {t : RadixTree} (n : ℕ),
    (touchNodes path now t).refs n = t.refs n := by
  induction path with
  | nil => exact fun _ => rfl
  | cons idx path ih =>
    intro now t n
    unfold touchNodes
    rw [ih, modify_refs]
    exact fun _ => rfl

theorem attachRecurrentState_refs {bid stateId : ℕ} (n : ℕ) :
    (t.attachRecurrentState bid stateId).refs n = t.refs n := by
  unfold attachRecurrentState
  split
  · rw [modify_refs]
    exact fun _ => rfl
  · rfl

end RadixTree

end Grim.Memory
