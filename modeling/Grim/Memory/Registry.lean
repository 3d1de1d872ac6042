import Grim.Memory.Links

/-!
# What a registration adds

A registration walks down the nodes that are there and adds one for each block behind them; what
it knows of these blocks and their keys, a later lookup gets back (`Grounded`).  Where all nodes
are there it counts references only (`Retains`).
-/

namespace Grim.Memory

open List
open Function (update update_self update_of_ne)

namespace RadixTree

variable {t t' : RadixTree} {tokens : List UInt32}

theorem walk_take {n m : ℕ} (h : n ≤ m) : ∀ {node offset : ℕ},
    t.walk tokens n node offset = (t.walk tokens m node offset).take n := by
  induction n generalizing m with
  | zero => exact fun {node offset} => by simp [walk]
  | succ n ih =>
    intro node offset
    obtain ⟨m, rfl⟩ : ∃ m', m = m' + 1 := ⟨m - 1, by omega⟩
    unfold walk
    split
    · rw [take_succ_cons, ih (Nat.le_of_succ_le_succ h)]
    · simp

theorem blockKey_take {n offset : ℕ} (h : offset + t.blockSize ≤ n) :
    t.blockKey (tokens.take n) offset = t.blockKey tokens offset := by
  unfold blockKey
  rw [drop_take, take_take, min_eq_left (by omega)]

theorem walk_of_take {k n : ℕ} : ∀ {node offset : ℕ}, offset + n * t.blockSize ≤ k →
    t.walk (tokens.take k) n node offset = t.walk tokens n node offset := by
  induction n with
  | zero => exact fun {_ _} _ => rfl
  | succ n ih =>
    intro node offset h
    rw [Nat.succ_mul] at h
    unfold walk
    rw [blockKey_take (by omega)]
    split
    · rw [ih (by omega)]
    · rfl

theorem walk_length_le {n : ℕ} : ∀ {node offset : ℕ},
    (t.walk tokens n node offset).length ≤ n := by
  induction n with
  | zero => exact fun {_ _} => by simp [walk]
  | succ n ih =>
    intro node offset
    unfold walk
    split
    · rw [length_cons]
      exact Nat.succ_le_succ ih
    · simp

structure Retains (t t' : RadixTree) : Prop where
  shape : SameShape t t'
  refs : ∀ n, (t.nodes n).refCount ≤ (t'.nodes n).refCount

theorem Retains.refl (t : RadixTree) : Retains t t := ⟨.refl t, fun _ => le_refl _⟩

theorem Retains.trans {t'' : RadixTree} (h : Retains t t') (h' : Retains t' t'') :
    Retains t t'' :=
  ⟨h.shape.trans h'.shape, fun n => (h.refs n).trans (h'.refs n)⟩

theorem modify_retains {idx : ℕ} {f : RadixNode → RadixNode}
    (hb : ∀ n, (f n).blockId = n.blockId) (hp : ∀ n, (f n).parent = n.parent)
    (hc : ∀ n, (f n).children = n.children) (hr : ∀ n, n.refCount ≤ (f n).refCount) :
    Retains t (t.modify idx f) := by
  refine ⟨modify_shape hb hp hc, ?_⟩
  intro n
  by_cases hn : n = idx
  · subst hn
    simpa [modify] using hr _
  · simp [modify, hn]

theorem touchNodes_retains {path : List ℕ} : ∀ {now : ℕ → ℕ} {t : RadixTree},
    Retains t (touchNodes path now t) := by
  induction path with
  | nil => exact fun {_ t} => .refl t
  | cons idx path ih =>
    intro now t
    unfold touchNodes
    refine Retains.trans ?_ ih
    exact modify_retains (fun _ => rfl) (fun _ => rfl) (fun _ => rfl) fun _ => le_refl _

theorem attachRecurrentState_retains {bid stateId : ℕ} :
    Retains t (t.attachRecurrentState bid stateId) := by
  unfold attachRecurrentState
  split
  · exact modify_retains (fun _ => rfl) (fun _ => rfl) (fun _ => rfl) fun _ => le_refl _
  · exact .refl t

theorem pinBlocks_retains {secs now : ℕ} {blocks : List ℕ} : ∀ {t : RadixTree},
    Retains t (pinBlocks secs now blocks t) := by
  induction blocks with
  | nil => exact fun {t} => .refl t
  | cons bid blocks ih =>
    intro t
    unfold pinBlocks
    simp only []
    split
    · refine Retains.trans ?_ ih
      exact modify_retains (fun _ => rfl) (fun _ => rfl) (fun _ => rfl) fun _ => le_refl _
    · exact ih

theorem sweepExpiredPins_retains {now : ℕ} : Retains t (t.sweepExpiredPins now) := by
  refine ⟨sweepExpiredPins_shape, ?_⟩
  intro n
  simp only [sweepExpiredPins]
  split_ifs <;> exact le_refl _

theorem insertFrom_retains {skipBlocks : ℕ} {now : ℕ → ℕ} {blocks : List ℕ} :
    ∀ {i node offset : ℕ} {t : RadixTree},
      (t.walk tokens blocks.length node offset).length = blocks.length →
      insertFrom tokens skipBlocks now blocks i node offset t = some t' → Retains t t' := by
  induction blocks with
  | nil =>
    intro i node offset t _ h
    cases h
    exact .refl _
  | cons bid blocks ih =>
    intro i node offset t hwalk h
    unfold insertFrom at h
    split at h
    · cases h
    simp only [] at h
    rw [length_cons] at hwalk
    unfold walk at hwalk
    split at hwalk
    · rename_i c hc
      rw [hc] at h
      simp only [length_cons, Nat.add_right_cancel_iff] at hwalk
      dsimp only at h
      split_ifs at h
      · exact ih hwalk h
      · have hr : Retains t (t.modify c fun n => { n with refCount := n.refCount + 1 }) :=
          modify_retains (fun _ => rfl) (fun _ => rfl) (fun _ => rfl) fun _ => Nat.le_succ _
        refine hr.trans (ih ?_ h)
        rw [hr.shape.walk]
        exact hwalk
    · simp at hwalk

def HasBlock (t : RadixTree) (b : ℕ) : Prop :=
  ∃ n < t.size, n ≠ t.root ∧ (t.nodes n).blockId = b

/-- Every node is claimed, and `P` holds of the key and the block of each child. -/
structure Grounded (t : RadixTree) (P : TokenKey → ℕ → Prop) : Prop where
  root_lt : t.root < t.size
  claimed : ∀ n < t.size, n ≠ t.root → 0 < (t.nodes n).refCount
  link : ∀ p k c, (k, c) ∈ (t.nodes p).children →
    c < t.size ∧ c ≠ t.root ∧ P k (t.nodes c).blockId

variable {P P' : TokenKey → ℕ → Prop}

theorem grounded_new (blockSize now : ℕ) : (new blockSize now).Grounded P := by
  refine ⟨Nat.one_pos, ?_, ?_⟩
  · intro n hn hne
    exact absurd (Nat.lt_one_iff.mp hn) hne
  · intro p k c hc
    simp [new, rootNode] at hc

theorem not_hasBlock_new {blockSize now b : ℕ} : ¬ (new blockSize now).HasBlock b := by
  rintro ⟨n, hn, hne, -⟩
  exact hne (Nat.lt_one_iff.mp hn)

theorem Grounded.mono (h : t.Grounded P) (hP : ∀ k b, t.HasBlock b → P k b → P' k b) :
    t.Grounded P' := by
  refine ⟨h.root_lt, h.claimed, ?_⟩
  intro p k c hc
  obtain ⟨h1, h2, h3⟩ := h.link p k c hc
  exact ⟨h1, h2, hP k _ ⟨c, h1, h2, rfl⟩ h3⟩

theorem Retains.hasBlock (h : Retains t t') (b : ℕ) : t'.HasBlock b ↔ t.HasBlock b := by
  unfold HasBlock
  simp only [h.shape.size, h.shape.root, h.shape.blockId]

theorem Retains.grounded (h : Retains t t') (hg : t.Grounded P) : t'.Grounded P := by
  constructor
  · rw [h.shape.root, h.shape.size]
    exact hg.root_lt
  · intro n hn hne
    rw [h.shape.size] at hn
    rw [h.shape.root] at hne
    exact lt_of_lt_of_le (hg.claimed n hn hne) (h.refs n)
  · intro p k c hc
    rw [h.shape.children] at hc
    rw [h.shape.size, h.shape.root, h.shape.blockId]
    exact hg.link p k c hc

theorem Grounded.child (h : t.Grounded P) {node c : ℕ} {key : TokenKey}
    (hc : t.child node key = some c) : c < t.size ∧ c ≠ t.root ∧ P key (t.nodes c).blockId :=
  h.link _ _ _ (mem_children hc)

theorem Grounded.walk (h : t.Grounded P) {n : ℕ} : ∀ {node offset i c : ℕ},
    (t.walk tokens n node offset)[i]? = some c →
      c < t.size ∧ c ≠ t.root ∧ P (t.blockKey tokens (offset + i * t.blockSize))
        (t.nodes c).blockId := by
  induction n with
  | zero =>
    intro node offset i c hc
    simp [RadixTree.walk] at hc
  | succ n ih =>
    intro node offset i c hc
    unfold RadixTree.walk at hc
    split at hc
    · rename_i c' hchild
      cases i with
      | zero =>
        obtain rfl : c' = c := by simpa using hc
        simpa using h.child hchild
      | succ i =>
        rw [getElem?_cons_succ] at hc
        have hi := ih hc
        rw [Nat.add_assoc, Nat.add_comm t.blockSize, ← Nat.succ_mul] at hi
        exact hi
    · simp at hc

theorem Grounded.matchPrefix (h : t.Grounded P) {i b : ℕ}
    (hb : (t.matchPrefix tokens).1[i]? = some b) :
    t.HasBlock b ∧ P (t.blockKey tokens (i * t.blockSize)) b := by
  rw [RadixTree.matchPrefix, matchPrefixWithAnchor, getElem?_map, Option.map_eq_some_iff] at hb
  obtain ⟨c, hc, rfl⟩ := hb
  obtain ⟨h1, h2, h3⟩ := h.walk hc
  rw [Nat.zero_add] at h3
  exact ⟨⟨c, h1, h2, rfl⟩, h3⟩

theorem Grounded.addNode (h : t.Grounded P) {node bid offset now : ℕ} {key : TokenKey}
    (hnode : node < t.size) (hP : P key bid) :
    (t.addNode node key bid offset now).Grounded P
      ∧ ∀ b, (t.addNode node key bid offset now).HasBlock b → t.HasBlock b ∨ b = bid := by
  have hself : (t.addNode node key bid offset now).nodes t.size = _ := addNode_self hnode.ne'
  have hblock : ∀ n, n ≠ t.size →
      ((t.addNode node key bid offset now).nodes n).blockId = (t.nodes n).blockId :=
    fun n => addNode_field fun _ _ => rfl
  have hroot := h.root_lt
  refine ⟨⟨hroot.trans (Nat.lt_succ_self _), ?_, ?_⟩, ?_⟩
  · intro n hn hnr
    have hn : n < t.size + 1 := hn
    by_cases hn' : n = t.size
    · rw [hn', hself]
      exact Nat.one_pos
    · rw [addNode_field (f := RadixNode.refCount) (fun _ _ => rfl) hn']
      exact h.claimed n (by omega) hnr
  · intro p k c hc
    rcases mem_addNode_children hc with ⟨rfl, rfl, rfl⟩ | hc
    · rw [hself]
      exact ⟨Nat.lt_succ_self _, hroot.ne', hP⟩
    · obtain ⟨h1, h2, h3⟩ := h.link p k c hc
      rw [hblock c h1.ne]
      exact ⟨Nat.lt_succ_of_lt h1, h2, h3⟩
  · rintro b ⟨n, hn, hnr, rfl⟩
    have hn : n < t.size + 1 := hn
    by_cases hn' : n = t.size
    · rw [hn', hself]
      exact .inr rfl
    · rw [hblock n hn']
      exact .inl ⟨n, by omega, hnr, rfl⟩

/-- A registration keeps `P` where it holds of the blocks behind the nodes that are there; no
other block gets a node. -/
theorem Grounded.insertFrom {skipBlocks : ℕ} {now : ℕ → ℕ} {blocks : List ℕ} :
    ∀ {i node offset : ℕ} {t : RadixTree}, t.Grounded P → node < t.size →
      (∀ j b, blocks[j]? = some b → (t.walk tokens blocks.length node offset).length ≤ j →
        P (t.blockKey tokens (offset + j * t.blockSize)) b) →
      insertFrom tokens skipBlocks now blocks i node offset t = some t' →
      t'.Grounded P ∧ t'.blockSize = t.blockSize
        ∧ ∀ b, t'.HasBlock b → t.HasBlock b ∨ ∃ j, blocks[j]? = some b
          ∧ (t.walk tokens blocks.length node offset).length ≤ j := by
  induction blocks with
  | nil =>
    intro i node offset t h _ _ ht'
    cases ht'
    exact ⟨h, rfl, fun _ hb => .inl hb⟩
  | cons bid blocks ih =>
    intro i node offset t h hnode hP ht'
    rw [length_cons] at hP ⊢
    unfold RadixTree.insertFrom at ht'
    split at ht'
    · cases ht'
    simp only [] at ht'
    unfold RadixTree.walk at hP ⊢
    have hoff : ∀ j, offset + (j + 1) * t.blockSize = offset + t.blockSize + j * t.blockSize := by
      intro j
      rw [Nat.succ_mul]
      omega
    split at ht'
    · rename_i c hc
      -- the walk goes on below the node, of which only a count changes
      rw [hc] at hP
      dsimp only [length_cons] at hP ⊢
      have hclt := (h.child hc).1
      have hP' : ∀ j b, blocks[j]? = some b →
          (t.walk tokens blocks.length c (offset + t.blockSize)).length ≤ j →
          P (t.blockKey tokens (offset + t.blockSize + j * t.blockSize)) b := by
        intro j b hb hj
        rw [← hoff]
        exact hP (j + 1) b (by simpa using hb) (Nat.succ_le_succ hj)
      have hshift : ∀ {b : ℕ}, (∃ j, blocks[j]? = some b
          ∧ (t.walk tokens blocks.length c (offset + t.blockSize)).length ≤ j) →
          ∃ j, (bid :: blocks)[j]? = some b
            ∧ (t.walk tokens blocks.length c (offset + t.blockSize)).length + 1 ≤ j := by
        rintro b ⟨j, hb, hj⟩
        exact ⟨j + 1, by simpa using hb, Nat.succ_le_succ hj⟩
      split_ifs at ht'
      · obtain ⟨h1, h2, h3⟩ := ih h hclt hP' ht'
        exact ⟨h1, h2, fun b hb => (h3 b hb).imp_right hshift⟩
      · have hr : Retains t (t.modify c fun n => { n with refCount := n.refCount + 1 }) :=
          modify_retains (fun _ => rfl) (fun _ => rfl) (fun _ => rfl) fun _ => Nat.le_succ _
        obtain ⟨h1, h2, h3⟩ := ih (hr.grounded h) hclt
          (by rw [hr.shape.walk]; exact hP') ht'
        rw [hr.shape.walk] at h3
        exact ⟨h1, h2, fun b hb => (h3 b hb).imp ((hr.hasBlock b).mp) hshift⟩
    · rename_i hc
      rw [hc] at hP
      dsimp only [length_nil] at hP ⊢
      have hbid : P (t.blockKey tokens offset) bid := by
        have := hP 0 bid rfl (Nat.zero_le _)
        rwa [Nat.zero_mul, Nat.add_zero] at this
      obtain ⟨hg, hb⟩ : (t.addNode node (t.blockKey tokens offset) bid offset (now i)).Grounded P
          ∧ ∀ b, (t.addNode node (t.blockKey tokens offset) bid offset (now i)).HasBlock b →
            t.HasBlock b ∨ b = bid := h.addNode hnode hbid
      obtain ⟨h1, h2, h3⟩ := ih hg (Nat.lt_succ_self t.size)
        (fun j b hb _ => by
          have := hP (j + 1) b (by simpa using hb) (Nat.zero_le _)
          rw [hoff] at this
          exact this) ht'
      refine ⟨h1, h2, ?_⟩
      intro b hb'
      rcases h3 b hb' with hold | ⟨j, hj, -⟩
      · refine (hb b hold).imp_right ?_
        rintro rfl
        exact ⟨0, rfl, Nat.zero_le _⟩
      · exact .inr ⟨j + 1, by simpa using hj, Nat.zero_le _⟩

end RadixTree

end Grim.Memory
