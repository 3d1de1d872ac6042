import Grim.Memory.Registry

/-!
# The paths of the prefix tree

A node is reached by the keys on its way down from the root.  A registration adds the paths of its
tokens' blocks that are not there yet; an eviction takes away the paths to the nodes of its chain,
and no other.
-/

namespace Grim.Memory

open List
open Function (update update_self update_of_ne)

namespace RadixTree

variable {t t' : RadixTree} {tokens : List UInt32}

/-- The node at the end of `keys` below `node`. -/
def find (t : RadixTree) : ℕ → List TokenKey → Option ℕ
  | node, [] => some node
  | node, key :: keys => (t.child node key).bind fun c => t.find c keys

/-- The keys of the first `n` blocks. -/
def blockKeys (t : RadixTree) (tokens : List UInt32) (n : ℕ) : List TokenKey :=
  (List.range n).map fun i => t.blockKey tokens (i * t.blockSize)

@[simp] theorem blockKeys_length {n : ℕ} : (t.blockKeys tokens n).length = n := by
  simp [blockKeys]

theorem blockKeys_succ {n : ℕ} : t.blockKeys tokens (n + 1)
    = t.blockKeys tokens n ++ [t.blockKey tokens (n * t.blockSize)] := by
  simp [blockKeys, range_succ]

theorem find_concat {node : ℕ} {keys : List TokenKey} {key : TokenKey} :
    t.find node (keys ++ [key]) = (t.find node keys).bind fun c => t.child c key := by
  induction keys generalizing node with
  | nil => simp [find]
  | cons k keys ih =>
    simp only [cons_append, find]
    rcases t.child node k with - | c
    · rfl
    · simpa using ih

theorem find_concat_eq_some {node c : ℕ} {keys : List TokenKey} {key : TokenKey} :
    t.find node (keys ++ [key]) = some c ↔
      ∃ x, t.find node keys = some x ∧ t.child x key = some c := by
  rw [find_concat, Option.bind_eq_some_iff]

theorem walk_getElem? {n i : ℕ} (hi : i < n) : ∀ {node k : ℕ},
    (t.walk tokens n node (k * t.blockSize))[i]?
      = t.find node ((List.range (i + 1)).map fun j =>
        t.blockKey tokens ((k + j) * t.blockSize)) := by
  induction n generalizing i with
  | zero => omega
  | succ n ih =>
    intro node k
    rw [range_succ_eq_map, map_cons, map_map]
    unfold walk find
    rw [Nat.add_zero]
    rcases hc : t.child node (t.blockKey tokens (k * t.blockSize)) with - | c
    · simp
    · rw [← Nat.succ_mul]
      dsimp only [Option.bind_some]
      rcases i with - | i
      · simp [find]
      · rw [getElem?_cons_succ, ih (by omega)]
        congr 1
        refine map_congr_left fun j _ => ?_
        simp only [Function.comp_apply]
        congr 2
        omega

theorem matched_getElem? {i : ℕ} (hi : i < tokens.length / t.blockSize) :
    (t.matched tokens)[i]? = t.find t.root (t.blockKeys tokens (i + 1)) := by
  have h : (t.walk tokens _ t.root (0 * t.blockSize))[i]? = _ := walk_getElem? hi
  simpa [matched, blockKeys] using h

theorem matched_length : (t.matched tokens).length ≤ tokens.length / t.blockSize :=
  walk_length_le

structure Rooted (t : RadixTree) : Prop where
  root_lt : t.root < t.size
  lt : ∀ keys c, t.find t.root keys = some c → c < t.size
  inj : ∀ keys keys' c, t.find t.root keys = some c → t.find t.root keys' = some c → keys = keys'

theorem rooted_new (blockSize now : ℕ) : (new blockSize now).Rooted := by
  have hroot : ∀ keys c, (new blockSize now).find 0 keys = some c → keys = [] ∧ c = 0 := by
    intro keys c h
    cases keys with
    | nil => exact ⟨rfl, (Option.some.inj h).symm⟩
    | cons key keys => simp [find, child, new, rootNode] at h
  refine ⟨Nat.one_pos, ?_, ?_⟩
  · intro keys c h
    rw [(hroot keys c h).2]
    exact Nat.one_pos
  · intro keys keys' c h h'
    rw [(hroot keys c h).1, (hroot keys' c h').1]

theorem SameShape.find (h : SameShape t t') (node : ℕ) (keys : List TokenKey) :
    t'.find node keys = t.find node keys := by
  induction keys generalizing node with
  | nil => rfl
  | cons key keys ih =>
    unfold RadixTree.find
    rw [h.child]
    simp only [ih]

theorem SameShape.blockKeys (h : SameShape t t') (tokens : List UInt32) (n : ℕ) :
    t'.blockKeys tokens n = t.blockKeys tokens n := by
  unfold RadixTree.blockKeys
  simp only [h.blockKey, h.blockSize]

theorem SameShape.rooted (h : SameShape t t') (hr : t.Rooted) : t'.Rooted := by
  constructor
  · rw [h.root, h.size]
    exact hr.root_lt
  · intro keys c hc
    rw [h.find, h.root] at hc
    rw [h.size]
    exact hr.lt keys c hc
  · intro keys keys' c hc hc'
    rw [h.find, h.root] at hc hc'
    exact hr.inj keys keys' c hc hc'

theorem addNode_child_eq {node bid offset now x : ℕ} {key k : TokenKey} (hne : t.size ≠ node)
    (hx : x ≠ t.size) : (t.addNode node key bid offset now).child x k
      = if x = node ∧ k = key then some t.size else t.child x k := by
  unfold child RadixTree.addNode
  by_cases hxn : x = node
  · subst hxn
    by_cases hk : k = key
    · simp [hk]
    · have hbeq : (k == key) = false := by simpa using hk
      simp [hk, lookup_cons, hbeq]
  · simp [hxn, hx]

theorem Rooted.addNode_find (h : t.Rooted) {node bid offset now : ℕ} {key : TokenKey}
    {path : List TokenKey} (hnode : t.find t.root path = some node)
    (hkey : t.child node key = none) (keys : List TokenKey) :
    (t.addNode node key bid offset now).find t.root keys
      = if keys = path ++ [key] then some t.size else t.find t.root keys := by
  have hne : t.size ≠ node := (h.lt _ _ hnode).ne'
  induction keys using List.reverseRecOn with
  | nil => simp [find]
  | append_singleton keys k ih =>
    rw [find_concat, ih]
    by_cases hown : keys = path ++ [key]
    · -- below the new node there is nothing
      have hlen : keys ++ [k] ≠ path ++ [key] := by
        intro heq
        have := congrArg List.length heq
        simp [hown] at this
      have hold : t.find t.root keys = none := by
        rw [hown, find_concat, hnode]
        exact hkey
      rw [if_pos hown, if_neg hlen, find_concat, hold]
      exact addNode_child hne k
    · rw [if_neg hown]
      rcases hx : t.find t.root keys with - | x
      · have hpath : keys ++ [k] ≠ path ++ [key] := by
          intro heq
          obtain ⟨rfl, -⟩ := append_inj' heq rfl
          rw [hnode] at hx
          cases hx
        rw [if_neg hpath, find_concat, hx]
        rfl
      · have hpath : x = node ∧ k = key ↔ keys ++ [k] = path ++ [key] := by
          constructor
          · rintro ⟨rfl, rfl⟩
            rw [h.inj _ _ _ hx hnode]
          · intro heq
            obtain ⟨rfl, hk⟩ := append_inj' heq rfl
            rw [hnode] at hx
            exact ⟨(Option.some.inj hx).symm, singleton_inj.mp hk⟩
        rw [Option.bind_some, addNode_child_eq hne (h.lt _ _ hx).ne, find_concat, hx]
        simp only [hpath, Option.bind_some]

theorem Rooted.addNode (h : t.Rooted) {node bid offset now : ℕ} {key : TokenKey}
    {path : List TokenKey} (hnode : t.find t.root path = some node)
    (hkey : t.child node key = none) : (t.addNode node key bid offset now).Rooted := by
  have hfind : ∀ keys, (t.addNode node key bid offset now).find t.root keys
      = if keys = path ++ [key] then some t.size else t.find t.root keys :=
    h.addNode_find hnode hkey
  constructor
  · exact Nat.lt_succ_of_lt h.root_lt
  · intro keys c hc
    have hc : (t.addNode node key bid offset now).find t.root keys = some c := hc
    rw [hfind] at hc
    show c < t.size + 1
    split_ifs at hc
    · cases hc
      exact Nat.lt_succ_self _
    · exact Nat.lt_succ_of_lt (h.lt _ _ hc)
  · intro keys keys' c hc hc'
    have hc : (t.addNode node key bid offset now).find t.root keys = some c := hc
    have hc' : (t.addNode node key bid offset now).find t.root keys' = some c := hc'
    rw [hfind] at hc hc'
    split_ifs at hc hc' with h1 h2 h2
    · rw [h1, h2]
    · cases hc
      exact absurd (h.lt _ _ hc') (lt_irrefl _)
    · cases hc'
      exact absurd (h.lt _ _ hc) (lt_irrefl _)
    · exact h.inj _ _ _ hc hc'

/-- What a registration from block `i` on does to the paths: the old ones keep their nodes, and a
new node ends a path of the tokens' blocks. -/
structure Extended (t t' : RadixTree) (tokens : List UInt32) (blocks : List ℕ) (i : ℕ) : Prop where
  rooted : t'.Rooted
  root : t'.root = t.root
  blockSize : t'.blockSize = t.blockSize
  size : t.size ≤ t'.size
  old : ∀ keys c, t.find t.root keys = some c →
    t'.find t.root keys = some c ∧ (t'.nodes c).blockId = (t.nodes c).blockId
  new : ∀ keys c, t'.find t.root keys = some c → t.find t.root keys = some c ∨
    t.size ≤ c ∧ ∃ j, keys = t.blockKeys tokens (i + j + 1)
      ∧ blocks[j]? = some (t'.nodes c).blockId
  all : ∀ j < blocks.length, (t'.find t.root (t.blockKeys tokens (i + j + 1))).isSome

theorem Extended.of_shape {t'' : RadixTree} {blocks : List ℕ} {i : ℕ} (hs : SameShape t t')
    (h : Extended t' t'' tokens blocks i) : Extended t t'' tokens blocks i := by
  constructor
  · exact h.rooted
  · rw [h.root, hs.root]
  · rw [h.blockSize, hs.blockSize]
  · rw [← hs.size]
    exact h.size
  · intro keys c hc
    rw [← hs.find, ← hs.root] at hc
    rw [← hs.root, ← hs.blockId]
    exact h.old keys c hc
  · intro keys c hc
    rw [← hs.root] at hc
    have hnew := h.new keys c hc
    simp only [hs.find, hs.root, hs.size, hs.blockKeys] at hnew
    exact hnew
  · intro j hj
    rw [← hs.root, ← hs.blockKeys]
    exact h.all j hj

theorem Extended.shared {blocks : List ℕ} {i c : ℕ} (bid : ℕ)
    (hfind : t.find t.root (t.blockKeys tokens (i + 1)) = some c)
    (h : Extended t t' tokens blocks (i + 1)) : Extended t t' tokens (bid :: blocks) i := by
  refine ⟨h.rooted, h.root, h.blockSize, h.size, h.old, ?_, ?_⟩
  · intro keys m hm
    refine (h.new keys m hm).imp_right ?_
    rintro ⟨hle, j, hj, hb⟩
    refine ⟨hle, j + 1, ?_, by simpa using hb⟩
    rw [hj]
    congr 1
    omega
  · intro j hj
    rcases j with - | j
    · rw [Nat.add_zero, (h.old _ _ hfind).1]
      rfl
    · have := h.all j (by simpa using hj)
      rwa [show i + 1 + j + 1 = i + (j + 1) + 1 by omega] at this

theorem Extended.added {blocks : List ℕ} {i node bid now : ℕ} (h : t.Rooted)
    (hnode : t.find t.root (t.blockKeys tokens i) = some node)
    (hc : t.child node (t.blockKey tokens (i * t.blockSize)) = none)
    (he : Extended (t.addNode node (t.blockKey tokens (i * t.blockSize)) bid (i * t.blockSize) now)
      t' tokens blocks (i + 1)) : Extended t t' tokens (bid :: blocks) i := by
  have hsucc : t.blockKeys tokens (i + 1)
      = t.blockKeys tokens i ++ [t.blockKey tokens (i * t.blockSize)] := blockKeys_succ
  have hfind : ∀ keys, (t.addNode node (t.blockKey tokens (i * t.blockSize)) bid
      (i * t.blockSize) now).find t.root keys
      = if keys = t.blockKeys tokens (i + 1) then some t.size else t.find t.root keys := by
    rw [hsucc]
    exact h.addNode_find hnode hc
  have hnone : t.find t.root (t.blockKeys tokens (i + 1)) = none := by
    rw [hsucc, find_concat, hnode]
    exact hc
  obtain ⟨hadded, hself⟩ := he.old _ _ ((hfind _).trans (if_pos rfl))
  have hne : t.size ≠ node := (h.lt _ _ hnode).ne'
  rw [addNode_self hne] at hself
  refine ⟨he.rooted, he.root, he.blockSize, Nat.le_of_succ_le he.size, ?_, ?_, ?_⟩
  · intro keys c hk
    have hkeys : keys ≠ t.blockKeys tokens (i + 1) := by
      rintro rfl
      rw [hnone] at hk
      cases hk
    obtain ⟨h1, h2⟩ := he.old keys c ((hfind keys).trans ((if_neg hkeys).trans hk))
    refine ⟨h1, h2.trans ?_⟩
    exact addNode_field (fun _ _ => rfl) (h.lt _ _ hk).ne
  · intro keys c hk
    rcases he.new keys c hk with hold | ⟨hle, j, hj, hb⟩
    · have hold := (hfind keys).symm.trans hold
      split_ifs at hold with hkeys
      · cases hold
        exact .inr ⟨le_refl _, 0, hkeys, by simp [hself]⟩
      · exact .inl hold
    · refine .inr ⟨Nat.le_of_succ_le hle, j + 1, ?_, by simpa using hb⟩
      rw [hj, show i + (j + 1) + 1 = i + 1 + j + 1 by omega]
      rfl
  · intro j hj
    rcases j with - | j
    · rw [Nat.add_zero]
      exact Option.isSome_of_eq_some hadded
    · have := he.all j (by simpa using hj)
      rwa [show i + 1 + j + 1 = i + (j + 1) + 1 by omega] at this

theorem Rooted.insertFrom {skipBlocks : ℕ} {now : ℕ → ℕ} {blocks : List ℕ} :
    ∀ {i node : ℕ} {t : RadixTree}, t.Rooted →
      t.find t.root (t.blockKeys tokens i) = some node →
      insertFrom tokens skipBlocks now blocks i node (i * t.blockSize) t = some t' →
      Extended t t' tokens blocks i := by
  induction blocks with
  | nil =>
    intro i node t h _ ht'
    cases ht'
    exact ⟨h, rfl, rfl, le_refl _, fun _ _ hc => ⟨hc, rfl⟩, fun _ _ hc => .inl hc, by simp⟩
  | cons bid blocks ih =>
    intro i node t h hnode ht'
    unfold RadixTree.insertFrom at ht'
    split at ht'
    · cases ht'
    simp only [] at ht'
    split at ht'
    · rename_i c hc
      have hfind : t.find t.root (t.blockKeys tokens (i + 1)) = some c := by
        rw [blockKeys_succ, find_concat, hnode]
        exact hc
      -- only a count changes
      have hrest : ∀ r : RadixTree, SameShape t r →
          RadixTree.insertFrom tokens skipBlocks now blocks (i + 1) c
            (i * t.blockSize + t.blockSize) r = some t' →
          Extended t t' tokens (bid :: blocks) i := by
        intro r hs hr
        rw [← Nat.succ_mul, ← hs.blockSize] at hr
        have hfind' : r.find r.root (r.blockKeys tokens (i + 1)) = some c := by
          rw [hs.find, hs.root, hs.blockKeys]
          exact hfind
        exact ((ih (hs.rooted h) hfind' hr).of_shape hs).shared bid hfind
      split_ifs at ht'
      · exact hrest t (.refl t) ht'
      · have hs : SameShape t (t.modify c fun n => { n with refCount := n.refCount + 1 }) :=
          modify_shape (fun _ => rfl) (fun _ => rfl) fun _ => rfl
        exact hrest _ hs ht'
    · rename_i hc
      have hadded : (t.addNode node (t.blockKey tokens (i * t.blockSize)) bid
          (i * t.blockSize) (now i)).find t.root (t.blockKeys tokens (i + 1)) = some t.size := by
        rw [h.addNode_find hnode hc, blockKeys_succ, if_pos rfl]
      rw [← Nat.succ_mul] at ht'
      exact .added h hnode hc (ih (h.addNode hnode hc) hadded ht')

theorem Rooted.insertAt (h : t.Rooted) {blocks : List ℕ} {skipBlocks : ℕ} {now : ℕ → ℕ}
    (ht' : t.insertAt tokens blocks skipBlocks now = some t') : Extended t t' tokens blocks 0 := by
  have ht' : RadixTree.insertFrom tokens skipBlocks now blocks 0 t.root (0 * t.blockSize) t
      = some t' := by
    rw [Nat.zero_mul]
    exact ht'
  exact h.insertFrom rfl ht'

structure Narrowed (t t' : RadixTree) : Prop where
  root : t'.root = t.root
  size : t'.size = t.size
  blockSize : t'.blockSize = t.blockSize
  find : ∀ node keys c, t'.find node keys = some c → t.find node keys = some c

theorem Narrowed.refl (t : RadixTree) : Narrowed t t := ⟨rfl, rfl, rfl, fun _ _ _ h => h⟩

theorem Narrowed.trans {t'' : RadixTree} (h : Narrowed t t') (h' : Narrowed t' t'') :
    Narrowed t t'' :=
  ⟨h'.root.trans h.root, h'.size.trans h.size, h'.blockSize.trans h.blockSize,
    fun node keys c hc => h.find node keys c (h'.find node keys c hc)⟩

theorem SameShape.narrowed (h : SameShape t t') : Narrowed t t' :=
  ⟨h.root, h.size, h.blockSize, fun node keys c hc => by rwa [h.find] at hc⟩

theorem Narrowed.rooted (h : Narrowed t t') (hr : t.Rooted) : t'.Rooted := by
  constructor
  · rw [h.root, h.size]
    exact hr.root_lt
  · intro keys c hc
    rw [h.root] at hc
    rw [h.size]
    exact hr.lt keys c (h.find _ _ _ hc)
  · intro keys keys' c hc hc'
    rw [h.root] at hc hc'
    exact hr.inj keys keys' c (h.find _ _ _ hc) (h.find _ _ _ hc')

theorem lookup_of_filter {l : List (TokenKey × ℕ)} {key key' : TokenKey} {c : ℕ}
    (h : (l.filter (·.1 ≠ key')).lookup key = some c) : l.lookup key = some c := by
  have hne : key ≠ key' := by
    rintro rfl
    obtain ⟨l₁, l₂, hl, -⟩ := lookup_eq_some_iff.mp h
    have hmem : (key, c) ∈ l.filter (·.1 ≠ key) := by
      rw [hl]
      exact mem_append_right _ (.head _)
    simp at hmem
  induction l with
  | nil => simp at h
  | cons e l ih =>
    by_cases he : e.1 = key'
    · have hbeq : (key == e.1) = false := by simpa [he] using hne
      rw [filter_cons_of_neg (by simpa using he)] at h
      rw [lookup_cons, hbeq]
      exact ih h
    · rw [filter_cons_of_pos (by simpa using he), lookup_cons] at h
      rw [lookup_cons]
      split at h
      · exact h
      · exact ih h

theorem unlink_child {p n x c : ℕ} {key : TokenKey} (h : (t.unlink p n).child x key = some c) :
    t.child x key = some c := by
  unfold unlink at h
  split at h
  · rename_i key' m hkey'
    by_cases hx : x = p
    · subst hx
      simp only [child, modify, update_self] at h ⊢
      exact lookup_of_filter h
    · simpa [child, modify, hx] using h
  · exact h

theorem unlink_find {p n : ℕ} {keys : List TokenKey} : ∀ {node c : ℕ},
    (t.unlink p n).find node keys = some c → t.find node keys = some c := by
  induction keys with
  | nil => exact fun h => h
  | cons key keys ih =>
    intro node c h
    unfold find at h ⊢
    obtain ⟨x, hx, h⟩ := Option.bind_eq_some_iff.mp h
    rw [unlink_child hx]
    exact ih h

theorem unlink_narrowed (t : RadixTree) (p n : ℕ) : Narrowed t (t.unlink p n) := by
  refine ⟨?_, ?_, ?_, fun _ _ _ => unlink_find⟩ <;>
  · unfold unlink
    split <;> rfl

theorem prune_narrowed {idx : ℕ} : ∀ {fuel n : ℕ} {t : RadixTree} {detached : List ℕ},
    Narrowed t (prune idx fuel n t detached).1 := by
  intro fuel
  induction fuel with
  | zero => exact fun {_ t _} => .refl t
  | succ fuel ih =>
    intro n t detached
    unfold prune
    by_cases hc : n ≠ t.root ∧ (t.nodes n).children = []
    · rw [if_pos hc]
      rcases (t.nodes n).parent with - | p
      · exact .refl t
      · exact (unlink_narrowed t p n).trans ih
    · rw [if_neg hc]
      exact .refl t

theorem evictColdestChain_narrowed (t : RadixTree) (now : ℕ → ℕ) :
    Narrowed t (t.evictColdestChain now).1 := by
  unfold evictColdestChain
  split
  · exact .refl t
  · exact prune_narrowed

def blockAt (t : RadixTree) (keys : List TokenKey) : Option ℕ :=
  (t.find t.root keys).map fun c => (t.nodes c).blockId

theorem blockAt_eq_some {keys : List TokenKey} {b : ℕ} : t.blockAt keys = some b ↔
    ∃ c, t.find t.root keys = some c ∧ (t.nodes c).blockId = b := Option.map_eq_some_iff

theorem SameShape.blockAt (h : SameShape t t') (keys : List TokenKey) :
    t'.blockAt keys = t.blockAt keys := by
  unfold RadixTree.blockAt
  simp only [h.find, h.root, h.blockId]

theorem Linked.mem_child (h : t.Linked) {node c : ℕ} {key : TokenKey} :
    t.child node key = some c ↔ (key, c) ∈ (t.nodes node).children := by
  refine ⟨mem_children, fun hmem => ?_⟩
  rcases hc : t.child node key with - | c'
  · unfold child at hc
    have := lookup_eq_none_iff.mp hc _ hmem
    simp at this
  · rw [h.child_node hmem (mem_children hc)]

theorem Linked.find_mapped (h : t.Linked) {keys : List TokenKey} {c : ℕ} (hne : keys ≠ [])
    (hc : t.find t.root keys = some c) : t.Mapped c := by
  obtain ⟨keys, key, rfl⟩ := (eq_nil_or_concat' keys).resolve_left hne
  rw [find_concat_eq_some] at hc
  obtain ⟨x, -, hc⟩ := hc
  exact (h.link _ _ _ (mem_children hc)).2.1

theorem Linked.rooted (h : t.Linked) : t.Rooted := by
  refine ⟨h.root_lt, ?_, ?_⟩
  · intro keys c hc
    by_cases hne : keys = []
    · subst hne
      exact Option.some.inj hc ▸ h.root_lt
    · exact h.mapped_lt (h.find_mapped hne hc)
  · intro keys keys'
    induction keys using List.reverseRecOn generalizing keys' with
    | nil =>
      intro c hc hc'
      obtain rfl : t.root = c := Option.some.inj hc
      rcases eq_nil_or_concat' keys' with rfl | ⟨keys', key, rfl⟩
      · rfl
      · obtain ⟨x, -, hx⟩ := find_concat_eq_some.mp hc'
        exact absurd rfl (h.link _ _ _ (mem_children hx)).2.2
    | append_singleton keys key ih =>
      intro c hc hc'
      obtain ⟨x, hx, hc⟩ := find_concat_eq_some.mp hc
      have hlink := h.link _ _ _ (mem_children hc)
      rcases eq_nil_or_concat' keys' with rfl | ⟨keys', key', rfl⟩
      · exact absurd (Option.some.inj hc').symm hlink.2.2
      · obtain ⟨x', hx', hc'⟩ := find_concat_eq_some.mp hc'
        have hpar := (h.link _ _ _ (mem_children hc')).1
        rw [hlink.1, Option.some.injEq] at hpar
        subst hpar
        rw [ih _ _ hx hx', h.child_key (mem_children hc') (mem_children hc)]

theorem Unlinked.find {p n : ℕ} (hu : Unlinked t t' p n) (h : t.Linked) (hl : t'.Linked)
    (hnroot : n ≠ t.root) (hnil : (t.nodes n).children = []) (keys : List TokenKey) (c : ℕ) :
    t'.find t.root keys = some c ↔ t.find t.root keys = some c ∧ c ≠ n := by
  induction keys using List.reverseRecOn generalizing c with
  | nil =>
    refine (and_iff_left_of_imp ?_).symm
    rintro hc rfl
    exact hnroot (Option.some.inj hc).symm
  | append_singleton keys key ih =>
    simp only [find_concat_eq_some, ih, hl.mem_child, h.mem_child, hu.mem]
    constructor
    · rintro ⟨x, ⟨hx, -⟩, hmem, hcn⟩
      exact ⟨⟨x, hx, hmem⟩, hcn⟩
    · rintro ⟨⟨x, hx, hmem⟩, hcn⟩
      refine ⟨x, ⟨hx, ?_⟩, hmem, hcn⟩
      rintro rfl
      simp [hnil] at hmem

theorem Unlinked.blockAt {p n : ℕ} (hu : Unlinked t t' p n) (h : t.Linked) (hl : t'.Linked)
    (hn : t.Mapped n) (hnroot : n ≠ t.root) (hnil : (t.nodes n).children = [])
    {keys : List TokenKey} (hne : keys ≠ []) (b : ℕ) :
    t'.blockAt keys = some b ↔ t.blockAt keys = some b ∧ b ≠ (t.nodes n).blockId := by
  simp only [blockAt_eq_some, hu.root, hu.blockId, hu.find h hl hnroot hnil]
  constructor
  · rintro ⟨c, ⟨hc, hcn⟩, rfl⟩
    exact ⟨⟨c, hc, rfl⟩, fun hb => hcn ((h.find_mapped hne hc).inj hn hb)⟩
  · rintro ⟨⟨c, hc, rfl⟩, hb⟩
    refine ⟨c, ⟨hc, ?_⟩, rfl⟩
    rintro rfl
    exact hb rfl

theorem Linked.blockAt_mapped (h : t.Linked) {keys : List TokenKey} (hne : keys ≠ []) {b : ℕ}
    (hb : t.blockAt keys = some b) : t.blockToNode b ≠ none := by
  obtain ⟨c, hc, rfl⟩ := blockAt_eq_some.mp hb
  rw [show t.blockToNode (t.nodes c).blockId = some c from h.find_mapped hne hc]
  simp

theorem Linked.prune_blockAt {idx : ℕ} : ∀ {fuel n : ℕ} {t : RadixTree} {detached : List ℕ},
    t.Linked → (n = t.root ∨ t.Mapped n) → (t.nodes idx).blockId ∈ detached →
    (∀ b ∈ detached, t.blockToNode b = none) → ∀ keys ≠ [], ∀ b,
    (RadixTree.prune idx fuel n t detached).1.blockAt keys = some b ↔
      t.blockAt keys = some b ∧ b ∉ (RadixTree.prune idx fuel n t detached).2 := by
  intro fuel
  induction fuel with
  | zero =>
    intro n t detached h _ _ hdet keys hne b
    refine (and_iff_left_of_imp fun hb hmem => ?_).symm
    exact h.blockAt_mapped hne hb (hdet b hmem)
  | succ fuel ih =>
    intro n t detached h hn hidx hdet keys hne b
    unfold RadixTree.prune
    by_cases hc : n ≠ t.root ∧ (t.nodes n).children = []
    · have hm := hn.resolve_left hc.1
      obtain ⟨p, hp, hpne⟩ := h.parent hm
      obtain ⟨hu, hl, hroot⟩ := h.unlink hm hc.2 hp hpne
      -- the block of `idx` is detached already, so `n` is an ancestor
      have hni : n ≠ idx := by
        rintro rfl
        have := hdet _ hidx
        rw [show t.blockToNode (t.nodes n).blockId = some n from hm] at this
        cases this
      rw [if_pos hc, hp]
      dsimp only
      rw [if_pos hni]
      have hdet' : ∀ b ∈ detached ++ [(t.nodes n).blockId],
          (t.unlink p n).blockToNode b = none := by
        intro b hb
        rcases mem_append.mp hb with hb | hb
        · exact hu.unmapped (.inl (hdet b hb))
        · exact hu.unmapped (.inr (mem_singleton.mp hb))
      have hidx' : ((t.unlink p n).nodes idx).blockId ∈ detached ++ [(t.nodes n).blockId] := by
        rw [hu.blockId]
        exact mem_append_left _ hidx
      have hkept := (@prune_containsBlock idx fuel p _ _ hidx').1
      rw [ih hl hroot hidx' hdet' keys hne b, hu.blockAt h hl hm hc.1 hc.2 hne, and_assoc]
      refine and_congr_right fun _ => and_iff_right_of_imp fun hb => ?_
      rintro rfl
      exact hb (hkept _ (mem_append_right _ (.head _)))
    · rw [if_neg hc]
      refine (and_iff_left_of_imp fun hb hmem => ?_).symm
      exact h.blockAt_mapped hne hb (hdet b hmem)

theorem Linked.evictColdestChain_blockAt (h : t.Linked) (now : ℕ → ℕ) {keys : List TokenKey}
    (hne : keys ≠ []) (b : ℕ) : (t.evictColdestChain now).1.blockAt keys = some b ↔
      t.blockAt keys = some b ∧ b ∉ (t.evictColdestChain now).2 := by
  obtain heq | ⟨idx, p, hm, hroot, hnil, hu, hl, hproot, heq⟩ := h.evict_cases now <;> rw [heq]
  · simp
  · have hidx' : ((t.unlink p idx).nodes idx).blockId ∈ [(t.nodes idx).blockId] := by
      rw [hu.blockId]
      exact .head _
    have hkept := (@prune_containsBlock idx idx p _ _ hidx').1
    rw [hl.prune_blockAt hproot hidx' (fun b hb => hu.unmapped (.inr (mem_singleton.mp hb)))
      keys hne b, hu.blockAt h hl hm hroot hnil hne, and_assoc]
    refine and_congr_right fun _ => and_iff_right_of_imp fun hb => ?_
    rintro rfl
    exact hb (hkept _ (.head _))

end RadixTree

end Grim.Memory
