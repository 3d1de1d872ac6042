import Grim.Memory.Evictions

/-!
# Claims and their release

A registration finds the nodes it claims by the tokens' keys; its release finds the nodes it gives
up by the blocks' ids.  The two agree if and only if the blocks passed name the claimed nodes, each
as often as it was claimed, and no other node that is referenced (`Names`).
-/

namespace Grim.Memory

open List
open Function (update update_self update_of_ne)

namespace RadixTree

variable {t t' : RadixTree} {tokens : List UInt32} {skipBlocks : ℕ} {now : ℕ → ℕ}

/-- The references to node `n`; those of a node that is not there yet are none. -/
def refs (t : RadixTree) (n : ℕ) : ℕ := if n < t.size then (t.nodes n).refCount else 0

/-- New nodes from number `start` on, one for each of the blocks. -/
def created (start : ℕ) (blocks : List ℕ) : List (ℕ × ℕ) :=
  (List.range' start blocks.length).zip blocks

/-- What `insertFrom` claims: the nodes it takes a reference of, each with the block passed. -/
def claimsFrom (t : RadixTree) (tokens : List UInt32) (skipBlocks : ℕ) :
    List ℕ → ℕ → ℕ → ℕ → List (ℕ × ℕ)
  | [], _, _, _ => []
  | bid :: blocks, i, node, offset =>
    match t.child node (t.blockKey tokens offset) with
    | some child =>
      (if i < skipBlocks then [] else [(child, bid)])
        ++ claimsFrom t tokens skipBlocks blocks (i + 1) child (offset + t.blockSize)
    | none => created t.size (bid :: blocks)

/-- What `insertAt` claims. -/
def claims (t : RadixTree) (tokens : List UInt32) (blocks : List ℕ) (skipBlocks : ℕ) :
    List (ℕ × ℕ) :=
  t.claimsFrom tokens skipBlocks blocks 0 t.root 0

/-- The node that has block `bid` once `claimed` is registered: the last one created for it, or
the one it has. -/
def namedBy (t : RadixTree) (claimed : List (ℕ × ℕ)) (bid : ℕ) : Option ℕ :=
  ((claimed.filter fun c => t.size ≤ c.1 ∧ c.2 = bid).getLast?.map Prod.fst).or (t.blockToNode bid)

/-- How often the blocks of `claimed`, looked up by `named`, are `n`. -/
def timesNamed (named : ℕ → Option ℕ) (claimed : List (ℕ × ℕ)) (n : ℕ) : ℕ :=
  (claimed.map Prod.snd).countP fun bid => named bid = some n

/-- The blocks of `claimed` name its nodes, just once where references were held before, and no
other node that is referenced. -/
structure Names (t : RadixTree) (claimed : List (ℕ × ℕ)) : Prop where
  once : ∀ n ∈ claimed.map Prod.fst, 0 < timesNamed (t.namedBy claimed) claimed n
    ∧ (0 < t.refs n → timesNamed (t.namedBy claimed) claimed n = 1)
  other : ∀ bid ∈ claimed.map Prod.snd, ∀ n ∈ t.namedBy claimed bid,
    n ∈ claimed.map Prod.fst ∨ t.refs n = 0

instance (t : RadixTree) (claimed : List (ℕ × ℕ)) : Decidable (t.Names claimed) :=
  decidable_of_iff ((∀ n ∈ claimed.map Prod.fst, 0 < timesNamed (t.namedBy claimed) claimed n
      ∧ (0 < t.refs n → timesNamed (t.namedBy claimed) claimed n = 1))
    ∧ ∀ bid ∈ claimed.map Prod.snd, ∀ n ∈ t.namedBy claimed bid,
      n ∈ claimed.map Prod.fst ∨ t.refs n = 0) ⟨fun h => ⟨h.1, h.2⟩, fun h => ⟨h.1, h.2⟩⟩

theorem created_cons (start bid : ℕ) (blocks : List ℕ) :
    created start (bid :: blocks) = (start, bid) :: created (start + 1) blocks := by
  simp [created, range'_succ]

theorem map_fst_created (start : ℕ) (blocks : List ℕ) :
    (created start blocks).map Prod.fst = List.range' start blocks.length := by
  rw [created, map_fst_zip]
  simp

theorem SameShape.claimsFrom (h : SameShape t t') (blocks : List ℕ) : ∀ (i node offset : ℕ),
    t'.claimsFrom tokens skipBlocks blocks i node offset
      = t.claimsFrom tokens skipBlocks blocks i node offset := by
  induction blocks with
  | nil => exact fun _ _ _ => rfl
  | cons bid blocks ih =>
    intro i node offset
    unfold RadixTree.claimsFrom
    rw [h.child, h.blockKey, h.blockSize, h.size]
    simp only [ih]

theorem SameShape.namedBy (h : SameShape t t') (claimed : List (ℕ × ℕ)) (bid : ℕ) :
    t'.namedBy claimed bid = t.namedBy claimed bid := by
  unfold RadixTree.namedBy
  rw [h.size, h.blockToNode]

theorem Parented.claimsFrom_lt (h : t.Parented) {blocks : List ℕ} : ∀ {i node offset : ℕ},
    node < t.size →
    (∀ n ∈ (t.claimsFrom tokens skipBlocks blocks i node offset).map Prod.fst, node < n)
    ∧ ((t.claimsFrom tokens skipBlocks blocks i node offset).map Prod.fst).Pairwise (· < ·) := by
  induction blocks with
  | nil => simp [RadixTree.claimsFrom]
  | cons bid blocks ih =>
    intro i node offset hnode
    unfold RadixTree.claimsFrom
    split
    · rename_i c hc
      obtain ⟨-, hlt, hsize⟩ := h.link _ _ _ (mem_children hc)
      obtain ⟨hbelow, hsorted⟩ := ih hsize
      split_ifs
      · exact ⟨fun n hn => hlt.trans (hbelow n hn), hsorted⟩
      · rw [map_append, map_singleton, singleton_append]
        refine ⟨fun n hn => ?_, pairwise_cons.mpr ⟨hbelow, hsorted⟩⟩
        rcases mem_cons.mp hn with rfl | hn
        · exact hlt
        · exact hlt.trans (hbelow n hn)
    · rw [map_fst_created]
      refine ⟨fun n hn => ?_, pairwise_lt_range'⟩
      have := (mem_range'_1.mp hn).1
      omega

theorem refs_modify_add (idx n : ℕ) (hidx : idx < t.size) :
    (t.modify idx fun node => { node with refCount := node.refCount + 1 }).refs n
      = t.refs n + if n = idx then 1 else 0 := by
  by_cases hn : n = idx
  · subst hn
    simp [refs, modify, hidx]
  · simp [refs, modify, hn]

theorem refs_addNode {node bid offset ts : ℕ} {key : TokenKey} (hnode : node < t.size) (n : ℕ) :
    (t.addNode node key bid offset ts).refs n = t.refs n + if n = t.size then 1 else 0 := by
  have hsize : (t.addNode node key bid offset ts).size = t.size + 1 := rfl
  unfold refs
  rw [hsize]
  by_cases hn : n = t.size
  · subst hn
    simp [addNode_self hnode.ne']
  · have hlt : n < t.size + 1 ↔ n < t.size := by omega
    simp [addNode_field (f := RadixNode.refCount) (fun _ _ => rfl) hn, hn, hlt]

theorem namedBy_addNode {node bid offset ts : ℕ} {key : TokenKey} (blocks : List ℕ) (b : ℕ) :
    (t.addNode node key bid offset ts).namedBy (created (t.size + 1) blocks) b
      = t.namedBy (created t.size (bid :: blocks)) b := by
  have hsize : (t.addNode node key bid offset ts).size = t.size + 1 := rfl
  have hmap : (t.addNode node key bid offset ts).blockToNode b
      = if b = bid then some t.size else t.blockToNode b := by
    rw [addNode_blockToNode, Function.update_apply]
  have hge : ∀ c ∈ created (t.size + 1) blocks, t.size + 1 ≤ c.1 := by
    intro c hc
    have := mem_map_of_mem (f := Prod.fst) hc
    rw [map_fst_created] at this
    exact (mem_range'_1.mp this).1
  have hfilter : (created (t.size + 1) blocks).filter (fun c => t.size + 1 ≤ c.1 ∧ c.2 = b)
      = (created (t.size + 1) blocks).filter fun c => t.size ≤ c.1 ∧ c.2 = b := by
    refine filter_congr fun c hc => ?_
    have := hge c hc
    simp only [decide_eq_decide]
    refine and_congr_left fun _ => ⟨fun _ => by omega, fun _ => this⟩
  rw [namedBy, namedBy, hsize, hmap, hfilter, created_cons, filter_cons]
  generalize (created (t.size + 1) blocks).filter _ = later
  by_cases hb : bid = b
  · subst hb
    rcases later with - | ⟨c, later⟩
    · simp
    · simp [getLast?_cons]
  · have hb' : b ≠ bid := fun h => hb h.symm
    simp [hb, hb']

theorem claimsFrom_some {bid c i node offset : ℕ} {blocks : List ℕ}
    (hc : t.child node (t.blockKey tokens offset) = some c) :
    t.claimsFrom tokens skipBlocks (bid :: blocks) i node offset
      = (if i < skipBlocks then [] else [(c, bid)])
        ++ t.claimsFrom tokens skipBlocks blocks (i + 1) c (offset + t.blockSize) := by
  rw [RadixTree.claimsFrom, hc]

theorem claimsFrom_none {bid i node offset : ℕ} {blocks : List ℕ}
    (hc : t.child node (t.blockKey tokens offset) = none) :
    t.claimsFrom tokens skipBlocks (bid :: blocks) i node offset
      = created t.size (bid :: blocks) := by
  rw [RadixTree.claimsFrom, hc]

theorem Parented.insertFrom_claims {blocks : List ℕ} : ∀ {i node offset : ℕ} {t : RadixTree},
    t.Parented → (node = t.root ∨ t.Attached node) →
    ∀ t', RadixTree.insertFrom tokens skipBlocks now blocks i node offset t = some t' →
      (∀ n, t'.refs n = t.refs n
        + ((t.claimsFrom tokens skipBlocks blocks i node offset).map Prod.fst).count n)
      ∧ ∀ b, t'.blockToNode b = t.namedBy (t.claimsFrom tokens skipBlocks blocks i node offset) b
  := by
  induction blocks with
  | nil =>
    intro i node offset t h _ t' ht'
    obtain rfl := Option.some.inj ht'
    simp [RadixTree.claimsFrom, RadixTree.namedBy]
  | cons bid blocks ih =>
    intro i node offset t h hnode t' ht'
    unfold RadixTree.insertFrom at ht'
    split at ht'
    · cases ht'
    simp only [] at ht'
    split at ht'
    · rename_i c hc
      have hatt : t.Attached c := ⟨node, _, mem_children hc⟩
      rw [claimsFrom_some hc]
      split_ifs at ht' with hskip
      · simpa [hskip] using ih h (.inr hatt) t' ht'
      · have hs : SameShape t (t.modify c fun n => { n with refCount := n.refCount + 1 }) :=
          modify_shape (fun _ => rfl) (fun _ => rfl) fun _ => rfl
        rw [hs.blockSize] at ht'
        obtain ⟨hrefs, hmap⟩ := ih (hs.parented h) (.inr ((hs.attached c).mpr hatt)) t' ht'
        rw [if_neg hskip, singleton_append]
        refine ⟨fun n => ?_, fun b => ?_⟩
        · rw [hrefs, refs_modify_add c n (h.lt hatt), hs.claimsFrom, map_cons,
            count_cons]
          simp only [beq_iff_eq, eq_comm (a := n)]
          omega
        · have hold : ¬ t.size ≤ c := by
            have := h.lt hatt
            omega
          rw [hmap, hs.namedBy, hs.claimsFrom]
          simp [RadixTree.namedBy, hold]
    · rename_i hc
      have hlt : node < t.size := hnode.elim (fun hr => hr ▸ h.root_lt) h.lt
      obtain ⟨hrefs, hmap⟩ := ih (h.addNode hnode hc) (.inr addNode_attached) t' ht'
      -- below the new node every block is created
      have hrest : (t.addNode node (t.blockKey tokens offset) bid offset (now i)).claimsFrom tokens
          skipBlocks blocks (i + 1) t.size (offset + t.blockSize) =
            created (t.size + 1) blocks := by
        cases blocks with
        | nil => rfl
        | cons b blocks =>
          exact claimsFrom_none (addNode_child hlt.ne' _)
      rw [hrest] at hrefs hmap
      rw [claimsFrom_none hc]
      refine ⟨fun n => ?_, fun b => ?_⟩
      · rw [hrefs, refs_addNode hlt, created_cons, map_cons, count_cons]
        simp only [beq_iff_eq, eq_comm (a := n)]
        omega
      · rw [hmap, namedBy_addNode]

theorem refs_modify_sub (h : t.Parented) {bid idx : ℕ} (hidx : t.blockToNode bid = some idx)
    (n : ℕ) :
    (t.modify idx fun node => { node with refCount := node.refCount - 1 }).refs n
      = t.refs n - if n = idx then 1 else 0 := by
  have hlt := h.lt (h.mapped bid idx hidx).2
  by_cases hn : n = idx
  · subst hn
    simp [refs, modify, hlt]
  · simp [refs, modify, hn]

theorem Parented.remove_refs {blocks : List ℕ} : ∀ {t : RadixTree}, t.Parented → ∀ n,
    (remove blocks t).refs n = t.refs n - blocks.countP fun bid => t.blockToNode bid = some n := by
  induction blocks with
  | nil => exact fun _ _ => rfl
  | cons bid blocks ih =>
    intro t h n
    unfold RadixTree.remove
    rw [countP_cons]
    split
    · rename_i idx hidx
      have hs : SameShape t (t.modify idx fun node =>
          { node with refCount := node.refCount - 1 }) :=
        modify_shape (fun _ => rfl) (fun _ => rfl) fun _ => rfl
      rw [ih (hs.parented h), refs_modify_sub h hidx, hs.blockToNode, hidx]
      simp only [Option.some.injEq, decide_eq_true_eq, eq_comm (a := n)]
      omega
    · rename_i hnone
      rw [ih h, hnone]
      simp

theorem Parented.claims_nodup (h : t.Parented) (tokens : List UInt32) (blocks : List ℕ)
    (skipBlocks : ℕ) : ((t.claims tokens blocks skipBlocks).map Prod.fst).Nodup :=
  (h.claimsFrom_lt h.root_lt).2.imp fun hlt => hlt.ne

theorem timesNamed_pos {named : ℕ → Option ℕ} {claimed : List (ℕ × ℕ)} {n : ℕ} :
    0 < timesNamed named claimed n ↔ ∃ bid ∈ claimed.map Prod.snd, named bid = some n := by
  simp only [timesNamed, countP_pos_iff, decide_eq_true_eq]

theorem names_iff {claimed : List (ℕ × ℕ)} (hnodup : (claimed.map Prod.fst).Nodup) :
    t.Names claimed ↔ ∀ n,
      (claimed.map Prod.fst).count n ≤ timesNamed (t.namedBy claimed) claimed n
      ∧ (0 < t.refs n →
        timesNamed (t.namedBy claimed) claimed n = (claimed.map Prod.fst).count n) := by
  constructor
  · intro h n
    by_cases hn : n ∈ claimed.map Prod.fst
    · obtain ⟨hpos, hone⟩ := h.once n hn
      rw [count_eq_one_of_mem hnodup hn]
      exact ⟨hpos, hone⟩
    · rw [count_eq_zero.mpr hn]
      refine ⟨Nat.zero_le _, fun hrefs => ?_⟩
      by_contra hne
      obtain ⟨bid, hbid, hnamed⟩ := timesNamed_pos.mp (Nat.pos_of_ne_zero hne)
      have := (h.other bid hbid n hnamed).resolve_left hn
      omega
  · intro h
    refine ⟨fun n hn => ?_, fun bid hbid n hnamed => ?_⟩
    · have := h n
      rwa [count_eq_one_of_mem hnodup hn] at this
    · by_contra hnot
      obtain ⟨hn, hrefs⟩ := not_or.mp hnot
      have hpos := timesNamed_pos.mpr ⟨bid, hbid, hnamed⟩
      have := (h n).2 (Nat.pos_of_ne_zero hrefs)
      rw [count_eq_zero.mpr hn] at this
      omega

theorem Parented.release_iff (h : t.Parented) {blocks : List ℕ}
    (ht' : t.insertAt tokens blocks skipBlocks now = some t') :
    (∀ n, (t'.remove ((t.claims tokens blocks skipBlocks).map Prod.snd)).refs n = t.refs n)
      ↔ t.Names (t.claims tokens blocks skipBlocks) := by
  obtain ⟨hrefs, hmap⟩ := h.insertFrom_claims (.inl rfl) t' ht'
  have hpar := h.insertFrom (.inl rfl) t' ht'
  have hnodup := h.claims_nodup tokens blocks skipBlocks
  rw [names_iff hnodup]
  refine forall_congr' fun n => ?_
  rw [hpar.remove_refs, hrefs]
  simp only [hmap]
  have hcount := nodup_iff_count_le_one.mp hnodup n
  change _ - timesNamed (t.namedBy (t.claims tokens blocks skipBlocks)) _ n = _ ↔ _
  simp only [claims] at hcount ⊢
  omega

end RadixTree

inductive ClaimCall
  | claim (tokens : List UInt32) (blocks : List ℕ) (skipBlocks : ℕ) (now : ℕ → ℕ)
  | release (i : ℕ)

/-- A tree with the claims not released, each as the nodes claimed with the blocks passed. -/
structure Claimed where
  tree : RadixTree
  held : List (List (ℕ × ℕ))

namespace Claimed

open RadixTree

/-- A release drops exactly the blocks that were passed for the positions claimed. -/
def step (s : Claimed) : ClaimCall → Option Claimed
  | .claim tokens blocks skipBlocks now =>
    (s.tree.insertAt tokens blocks skipBlocks now).map fun t =>
      ⟨t, s.tree.claims tokens blocks skipBlocks :: s.held⟩
  | .release i =>
    s.held[i]?.map fun claimed =>
      ⟨s.tree.remove (claimed.map Prod.snd), s.held.eraseIdx i⟩

/-- A claim's blocks name its nodes, and it creates no node for a block of a claim held. -/
def NamesNodes (s : Claimed) : ClaimCall → Prop
  | .claim tokens blocks skipBlocks _ =>
    s.tree.Names (s.tree.claims tokens blocks skipBlocks)
      ∧ ∀ c ∈ s.tree.claims tokens blocks skipBlocks, s.tree.size ≤ c.1 →
        ∀ claimed ∈ s.held, c.2 ∉ claimed.map Prod.snd
  | .release _ => True

instance (s : Claimed) (call : ClaimCall) : Decidable (s.NamesNodes call) :=
  match call with
  | .claim tokens blocks skipBlocks _ =>
    inferInstanceAs (Decidable (s.tree.Names (s.tree.claims tokens blocks skipBlocks)
      ∧ ∀ c ∈ s.tree.claims tokens blocks skipBlocks, s.tree.size ≤ c.1 →
        ∀ claimed ∈ s.held, c.2 ∉ claimed.map Prod.snd))
  | .release _ => inferInstanceAs (Decidable True)

/-- How often the claims held have claimed `n`. -/
def holds (s : Claimed) (n : ℕ) : ℕ :=
  (s.held.map fun claimed => (claimed.map Prod.fst).count n).sum

/-- The count of a node is its count in `t`, where that is positive, plus the claims held; each of
these will be taken from it again. -/
structure Accounts (t : RadixTree) (s : Claimed) : Prop where
  parented : s.tree.Parented
  named : ∀ claimed ∈ s.held, ∀ n,
    (claimed.map Prod.fst).count n ≤ timesNamed s.tree.blockToNode claimed n
    ∧ (0 < t.refs n → timesNamed s.tree.blockToNode claimed n = (claimed.map Prod.fst).count n)
  exact : ∀ n, 0 < t.refs n → s.tree.refs n = t.refs n + s.holds n
  bound : ∀ n, t.refs n = 0 → s.tree.refs n ≤ s.holds n

theorem timesNamed_congr {named named' : ℕ → Option ℕ} {claimed : List (ℕ × ℕ)}
    (h : ∀ bid ∈ claimed.map Prod.snd, named bid = named' bid) (n : ℕ) :
    timesNamed named claimed n = timesNamed named' claimed n :=
  countP_congr fun bid hbid => by simp [h bid hbid]

theorem namedBy_of_not_created {t : RadixTree} {claimed : List (ℕ × ℕ)} {bid : ℕ}
    (h : ∀ c ∈ claimed, t.size ≤ c.1 → c.2 ≠ bid) :
    t.namedBy claimed bid = t.blockToNode bid := by
  have hnil : claimed.filter (fun c => t.size ≤ c.1 ∧ c.2 = bid) = [] := by
    simpa [filter_eq_nil_iff] using fun a b hc hle => h (a, b) hc hle
  rw [namedBy, hnil]
  simp

theorem accounts_claim {t : RadixTree} {s s' : Claimed} (ha : Accounts t s) {tokens : List UInt32}
    {blocks : List ℕ} {skipBlocks : ℕ} {now : ℕ → ℕ}
    (hok : s.NamesNodes (.claim tokens blocks skipBlocks now))
    (hs : s.step (.claim tokens blocks skipBlocks now) = some s') : Accounts t s' := by
  obtain ⟨t', ht', rfl⟩ := Option.map_eq_some_iff.mp hs
  obtain ⟨hnames, hfree⟩ := hok
  obtain ⟨hrefs, hmap⟩ := ha.parented.insertFrom_claims (.inl rfl) t' ht'
  have hnames := (names_iff (ha.parented.claims_nodup tokens blocks skipBlocks)).mp hnames
  have hholds : ∀ n, holds ⟨t', s.tree.claims tokens blocks skipBlocks :: s.held⟩ n
      = ((s.tree.claims tokens blocks skipBlocks).map Prod.fst).count n + s.holds n := fun n => by
    simp [holds]
  have hmap : t'.blockToNode = s.tree.namedBy (s.tree.claims tokens blocks skipBlocks) :=
    funext hmap
  refine ⟨ha.parented.insertFrom (.inl rfl) t' ht', fun claimed hc n => ?_, fun n hn => ?_,
    fun n hn => ?_⟩
  · simp only [hmap]
    rcases mem_cons.mp hc with rfl | hc
    · refine ⟨(hnames n).1, fun hpos => (hnames n).2 ?_⟩
      have := ha.exact n hpos
      omega
    · rw [timesNamed_congr fun bid hbid => namedBy_of_not_created fun c hcl hle heq =>
        hfree c hcl hle claimed hc (heq ▸ hbid)]
      exact ha.named claimed hc n
  · have := ha.exact n hn
    rw [hrefs, hholds, claims]
    omega
  · have := ha.bound n hn
    rw [hrefs, hholds, claims]
    omega

theorem accounts_release {t : RadixTree} {s s' : Claimed} (ha : Accounts t s) {i : ℕ}
    (hs : s.step (.release i) = some s') : Accounts t s' := by
  obtain ⟨claimed, hi, rfl⟩ := Option.map_eq_some_iff.mp hs
  have hmem := mem_of_getElem? hi
  have hshape : SameShape s.tree (s.tree.remove (claimed.map Prod.snd)) := remove_shape
  have hholds : ∀ n, s.holds n = (claimed.map Prod.fst).count n
      + holds ⟨s.tree.remove (claimed.map Prod.snd), s.held.eraseIdx i⟩ n := by
    intro n
    obtain ⟨hlt, rfl⟩ := List.getElem?_eq_some_iff.mp hi
    have hperm := getElem_cons_eraseIdx_perm hlt
    have := (hperm.map fun claimed => (claimed.map Prod.fst).count n).sum_eq
    simp only [map_cons, sum_cons] at this
    exact this.symm
  have hrefs : ∀ n, (s.tree.remove (claimed.map Prod.snd)).refs n
      = s.tree.refs n - timesNamed s.tree.blockToNode claimed n :=
    ha.parented.remove_refs
  refine ⟨hshape.parented ha.parented, fun other ho n => ?_, fun n hn => ?_, fun n hn => ?_⟩
  · simp only [hshape.blockToNode]
    exact ha.named other (mem_of_mem_eraseIdx ho) n
  · have h1 := ha.exact n hn
    have h2 := (ha.named claimed hmem n).2 hn
    have h3 := hholds n
    rw [hrefs]
    omega
  · have h1 := ha.bound n hn
    have h2 := (ha.named claimed hmem n).1
    have h3 := hholds n
    rw [hrefs]
    omega

theorem accounts_step {t : RadixTree} {s s' : Claimed} {call : ClaimCall} (ha : Accounts t s)
    (hok : s.NamesNodes call) (hs : s.step call = some s') : Accounts t s' := by
  cases call with
  | claim tokens blocks skipBlocks now => exact accounts_claim ha hok hs
  | release i => exact accounts_release ha hs

/-- From every tree, in every run whose claims name their nodes, the counts are back when no claim
is held; and the next claim, released at once, restores them if and only if its blocks name its
nodes. -/
theorem claims_restore (blockSize now₀ : ℕ) {t : RadixTree}
    (hr : Steps.Reach RadixTree.step (fun _ _ => True) (.new blockSize now₀) t) {s : Claimed}
    (hrun : Steps.Reach step NamesNodes ⟨t, []⟩ s) :
    (s.held = [] → ∀ n, s.tree.refs n = t.refs n)
    ∧ ∀ tokens blocks skipBlocks now t',
      s.tree.insertAt tokens blocks skipBlocks now = some t' →
      ((∀ n, (t'.remove ((s.tree.claims tokens blocks skipBlocks).map Prod.snd)).refs n
          = s.tree.refs n)
        ↔ s.tree.Names (s.tree.claims tokens blocks skipBlocks)) := by
  have hpar := hr.invariant (parented_new blockSize now₀) fun _ _ _ h _ => h.step
  have h0 : Accounts t ⟨t, []⟩ := ⟨hpar, by simp, by simp [holds], by simp [holds]⟩
  have ha := hrun.invariant h0 fun _ _ _ => accounts_step
  refine ⟨fun hnil n => ?_, fun tokens blocks skipBlocks now t' => ha.parented.release_iff⟩
  have hzero : s.holds n = 0 := by
    simp [holds, hnil]
  rcases Nat.eq_zero_or_pos (t.refs n) with hn | hn
  · have := ha.bound n hn
    omega
  · have := ha.exact n hn
    omega

/-- Two claims of one prefix, the second of a block more, released in the order they were made. -/
def sharedClaims : List ClaimCall :=
  [.claim [7] [0] 0 fun _ => 0, .claim [7, 8] [0, 1] 0 fun _ => 0, .release 1, .release 0]

theorem claims_restore_shared : ∃ s, Steps.exec step NamesNodes ⟨.new 1 0, []⟩ sharedClaims = some s
    ∧ ∀ n, s.tree.refs n = 0 := by
  obtain ⟨s, hrun, hnil⟩ : ∃ s, Steps.exec step NamesNodes ⟨.new 1 0, []⟩ sharedClaims = some s
      ∧ s.held = [] := ⟨_, rfl, rfl⟩
  refine ⟨s, hrun, fun n => ?_⟩
  rw [(claims_restore 1 0 .start (Steps.reach_of_exec hrun)).1 hnil n]
  simp [refs, RadixTree.new, rootNode]

/-- A second claim of a prefix by a block of its own leaves a reference behind. -/
theorem other_page_leaks : ¬ ∀ (blockSize now₀ : ℕ) (t t' : RadixTree) tokens blocks skipBlocks now,
    Steps.Reach RadixTree.step (fun _ _ => True) (.new blockSize now₀) t →
    t.insertAt tokens blocks skipBlocks now = some t' →
    ∀ n, (t'.remove ((t.claims tokens blocks skipBlocks).map Prod.snd)).refs n = t.refs n := by
  intro hall
  obtain ⟨t, hrun, t', ht', hleak⟩ : ∃ t,
      Steps.exec RadixTree.step (fun _ _ => True) (.new 1 0) [.insert [7] [0] fun _ => 0] = some t
      ∧ ∃ t', t.insertAt [7] [1] 0 (fun _ => 0) = some t'
      ∧ (t'.remove ((t.claims [7] [1] 0).map Prod.snd)).refs 1 ≠ t.refs 1 :=
    ⟨_, rfl, _, rfl, by decide⟩
  exact hleak (hall 1 0 t t' [7] [1] 0 _ (Steps.reach_of_exec hrun) ht' 1)

end Claimed

end Grim.Memory
