import Grim.Memory.Paths
import Grim.Memory.Runs

/-!
# Whose tokens a hit was computed for

A node is known by the keys of its path, and the tokens it was registered for are not kept.  In a
run that keeps them (`origin`), a lookup returns a node of other tokens exactly where these have
the keys of the query's.
-/

namespace Grim.Memory

namespace RadixTree

variable {t t' : RadixTree} {origin : ℕ → List UInt32}

theorem blockKeys_congr (h : t'.blockSize = t.blockSize) (tokens : List UInt32) (n : ℕ) :
    t'.blockKeys tokens n = t.blockKeys tokens n := by
  unfold blockKeys blockKey
  rw [h]

structure Traced (t : RadixTree) (origin : ℕ → List UInt32) : Prop where
  rooted : t.Rooted
  own : ∀ keys c, t.find t.root keys = some c → keys = t.blockKeys (origin c) keys.length

theorem Traced.narrowed (h : t.Traced origin) (hn : Narrowed t t') : t'.Traced origin := by
  refine ⟨hn.rooted h.rooted, fun keys c hc => ?_⟩
  rw [hn.root] at hc
  rw [blockKeys_congr hn.blockSize]
  exact h.own keys c (hn.find _ _ _ hc)

theorem Traced.insertAt (h : t.Traced origin) {tokens : List UInt32} {blocks : List ℕ}
    {skipBlocks : ℕ} {now : ℕ → ℕ} (ht' : t.insertAt tokens blocks skipBlocks now = some t') :
    t'.Traced fun n => if n < t.size then origin n else tokens := by
  have he := h.rooted.insertAt ht'
  refine ⟨he.rooted, fun keys c hc => ?_⟩
  rw [he.root] at hc
  rw [blockKeys_congr he.blockSize]
  rcases he.new keys c hc with hold | ⟨hle, j, hj, -⟩
  · rw [if_pos (h.rooted.lt _ _ hold)]
    exact h.own keys c hold
  · rw [if_neg (Nat.not_lt.mpr hle)]
    have hlen : keys.length = 0 + j + 1 := by rw [hj, blockKeys_length]
    rw [hlen]
    exact hj

theorem Traced.matched (h : t.Traced origin) {q : List UInt32} {i c : ℕ}
    (hc : (t.matched q)[i]? = some c) :
    (i + 1) * t.blockSize ≤ q.length ∧ t.find t.root (t.blockKeys (origin c) (i + 1)) = some c
      ∧ t.blockKeys (origin c) (i + 1) = t.blockKeys q (i + 1) := by
  have hlt : i < q.length / t.blockSize :=
    (List.getElem?_eq_some_iff.mp hc).1.trans_le matched_length
  rw [matched_getElem? hlt] at hc
  have hkeys := h.own _ _ hc
  rw [blockKeys_length] at hkeys
  rw [hkeys] at hc
  exact ⟨(Nat.mul_le_mul_right _ hlt).trans (Nat.div_mul_le_self _ _), hc, hkeys.symm⟩

end RadixTree

namespace KvBlockPool

variable {p q : KvBlockPool}

theorem alloc_prefixTree {now : ℕ → ℕ} {io : Except String Unit} {res : Except String ℕ}
    (h : p.alloc now io = some (q, res)) :
    ∃ t, (t = p.prefixTree ∨ t = (p.prefixTree.evictColdestChain now).1)
      ∧ (q.prefixTree = t ∨ ∃ id, q.prefixTree = t.remove [id]) := by
  obtain ⟨r, hr, hq⟩ := Option.map_eq_some_iff.mp h
  obtain rfl : (r.reclaimFor fun k => now (p.prefixTree.size + k)).popFree.1 = q :=
    congrArg Prod.fst hq
  have hpop : ∀ r : KvBlockPool, r.popFree.1.prefixTree = r.prefixTree := by
    intro r
    unfold popFree
    split <;> rfl
  rw [hpop]
  refine ⟨r.prefixTree, ?_, ?_⟩
  · unfold evictFor at hr
    split_ifs at hr
    · obtain ⟨⟨r', b⟩, hr', rfl⟩ := Option.map_eq_some_iff.mp hr
      exact .inr (evictCold_books hr').1
    · exact .inl (congrArg prefixTree (Option.some.inj hr).symm)
  · unfold reclaimFor
    split_ifs
    · rcases @reclaimSpilledColdest_books r fun k => now (p.prefixTree.size + k) with
        heq | ⟨bid, -, -, -, -, -, -, ht⟩
      · exact .inl (by rw [heq])
      · exact .inr ⟨bid, ht⟩
    · exact .inl rfl

theorem alloc_narrowed {now : ℕ → ℕ} {io : Except String Unit} {res : Except String ℕ}
    (h : p.alloc now io = some (q, res)) : p.prefixTree.Narrowed q.prefixTree := by
  obtain ⟨t, ht, hq⟩ := alloc_prefixTree h
  have hevict : p.prefixTree.Narrowed t := by
    rcases ht with rfl | rfl
    · exact .refl _
    · exact p.prefixTree.evictColdestChain_narrowed now
  refine hevict.trans ?_
  rcases hq with hq | ⟨id, hq⟩ <;> rw [hq]
  · exact .refl _
  · exact RadixTree.remove_shape.narrowed

theorem freeWithTier_prefixTree {id : ℕ} {forceTier : Bool} {io : Except String Unit}
    (h : p.freeWithTier id forceTier io = some q) : q.prefixTree = p.prefixTree := by
  unfold freeWithTier at h
  split at h
  · split_ifs at h
    · exact (release_books h).2.2.1
    · cases h
      rfl
  · split_ifs at h
    · cases h
      rfl
    · have ht := (release_books h).2.2.1
      exact ht

theorem shrink_prefixTree {n : ℕ} : ∀ {p : KvBlockPool},
    (shrink n p).prefixTree = p.prefixTree := by
  induction n with
  | zero => exact fun {_} => rfl
  | succ n ih =>
    intro p
    unfold shrink
    split_ifs
    · exact ih
    · rfl

theorem resizeCapacity_prefixTree {newCapacity : ℕ} :
    (p.resizeCapacity newCapacity).prefixTree = p.prefixTree := by
  unfold resizeCapacity
  split_ifs
  · rfl
  · exact shrink_prefixTree

theorem insertPrefixWithRecurrentStateAt_tree {tokens : List UInt32} {blocks : List ℕ}
    {skipBlocks : ℕ} {now : ℕ → ℕ}
    (h : p.insertPrefixWithRecurrentStateAt tokens blocks skipBlocks now = some q) :
    ∃ t, p.prefixTree.insertAt tokens blocks skipBlocks now = some t
      ∧ t.SameShape q.prefixTree := by
  obtain ⟨t, ht, rfl⟩ := Option.map_eq_some_iff.mp h
  refine ⟨t, ht, ?_⟩
  have htouch : t.SameShape (t.touch tokens fun k => now (blocks.length + k)) :=
    RadixTree.touchNodes_shape
  dsimp only
  split
  · split
    · exact htouch.trans RadixTree.attachRecurrentState_retains.shape
    · exact htouch
  · exact htouch

theorem step_tree {h h' : History} {call : Call} (hs : h.step call = some h') :
    ((∀ tokens blocks now, call ≠ .insertPrefix tokens blocks now)
        ∧ (h.pool.prefixTree.SameShape h'.pool.prefixTree
          ∨ ∃ now io res, h.pool.alloc now io = some (h'.pool, res)))
      ∨ ∃ tokens blocks now t, call = .insertPrefix tokens blocks now
        ∧ h.pool.prefixTree.insertAt tokens blocks 0 now = some t
        ∧ t.SameShape h'.pool.prefixTree := by
  cases call with
  | alloc now io =>
    obtain ⟨⟨p, res⟩, hp, rfl⟩ := Option.map_eq_some_iff.mp hs
    exact .inl ⟨nofun, .inr ⟨now, io, res, by rw [History.allocated_pool, hp]⟩⟩
  | addRef tokens id =>
    cases hs
    exact .inl ⟨nofun, .inl (.refl _)⟩
  | free id forceTier io =>
    obtain ⟨p, hp, rfl⟩ := Option.map_eq_some_iff.mp hs
    exact .inl ⟨nofun, .inl (.of_eq (freeWithTier_prefixTree hp))⟩
  | insertPrefix tokens blocks now =>
    obtain ⟨p, hp, rfl⟩ := Option.map_eq_some_iff.mp hs
    obtain ⟨t, ht, rfl⟩ := Option.map_eq_some_iff.mp hp
    exact .inr ⟨tokens, blocks, now, t, rfl, ht, RadixTree.touchNodes_shape⟩
  | removePrefix | pinBlocks | demoteColdPrefix | promoteToGpu | matchPrefixPromoting =>
    obtain ⟨p, rfl, -, hshape⟩ := History.step_steady hs trivial
    exact .inl ⟨nofun, .inl hshape⟩
  | resizeCapacity newCapacity =>
    cases hs
    exact .inl ⟨nofun, .inl (.of_eq resizeCapacity_prefixTree)⟩

end KvBlockPool

/-- A call of the pool, or a registration that skips the claimed blocks. -/
inductive SharingCall
  | pool (call : Call)
  | insertPrefixAt (tokens : List UInt32) (blocks : List ℕ) (skipBlocks : ℕ) (now : ℕ → ℕ)

/-- `origin` are the tokens of the call that registered the node. -/
structure Sharing where
  history : History
  origin : ℕ → List UInt32

namespace Sharing

def new (c : Setup) : Sharing := ⟨.new c, fun _ => []⟩

variable (s : Sharing)

abbrev tree : RadixTree := s.history.pool.prefixTree

/-- The nodes that a call for `tokens` adds are theirs. -/
def registered (h : History) (tokens : List UInt32) : Sharing :=
  ⟨h, fun n => if n < s.tree.size then s.origin n else tokens⟩

def step : SharingCall → Option Sharing
  | .pool (.insertPrefix tokens blocks now) =>
    (s.history.step (.insertPrefix tokens blocks now)).map fun h => s.registered h tokens
  | .pool call => (s.history.step call).map fun h => { s with history := h }
  | .insertPrefixAt tokens blocks skipBlocks now =>
    (s.history.pool.insertPrefixWithRecurrentStateAt tokens blocks skipBlocks now).map fun p =>
      s.registered (s.history.next p) tokens

/-- What a lookup for `q` returns of the blocks registered for `p`, starts with the same tokens. -/
def ServesOwn (p q : List UInt32) : Prop :=
  ∀ i n, (s.tree.matched q)[i]? = some n → s.origin n = p →
    p.take ((i + 1) * blockSize) = q.take ((i + 1) * blockSize)

/-- Where `p` still has a block and `q` has the same keys up to it, the tokens are the same. -/
def KeysTell (p q : List UInt32) : Prop :=
  ∀ i n, s.tree.find s.tree.root (s.tree.blockKeys p (i + 1)) = some n → s.origin n = p →
    (i + 1) * blockSize ≤ q.length → s.tree.blockKeys p (i + 1) = s.tree.blockKeys q (i + 1) →
    p.take ((i + 1) * blockSize) = q.take ((i + 1) * blockSize)

variable {s} {s' : Sharing} {call : SharingCall}

/-- The nodes are traced, and the blocks are of the pool's size. -/
def Traced (s : Sharing) : Prop := s.tree.Traced s.origin ∧ s.tree.blockSize = blockSize

theorem traced_new (c : Setup) : (new c).Traced := by
  have hroot := RadixTree.rooted_new blockSize c.now
  refine ⟨⟨hroot, ?_⟩, rfl⟩
  intro keys n hn
  rcases keys with - | ⟨key, keys⟩
  · rfl
  · have hn : (RadixTree.new blockSize c.now).find 0 (key :: keys) = some n := hn
    simp [RadixTree.find, RadixTree.child, RadixTree.new, RadixTree.rootNode] at hn

theorem Traced.narrowed (h : s.Traced) {h' : History}
    (hn : s.tree.Narrowed h'.pool.prefixTree) : Traced { s with history := h' } :=
  ⟨h.1.narrowed hn, hn.blockSize.trans h.2⟩

theorem Traced.registered (h : s.Traced) {h' : History} {tokens : List UInt32} {blocks : List ℕ}
    {skipBlocks : ℕ} {now : ℕ → ℕ} {t : RadixTree}
    (ht : s.tree.insertAt tokens blocks skipBlocks now = some t)
    (hs : t.SameShape h'.pool.prefixTree) : (s.registered h' tokens).Traced :=
  ⟨(h.1.insertAt ht).narrowed hs.narrowed,
    hs.blockSize.trans ((h.1.rooted.insertAt ht).blockSize.trans h.2)⟩

theorem step_pool {call : Call} (hs : s.step (.pool call) = some s') :
    ∃ h', s.history.step call = some h'
      ∧ ((∃ tokens blocks now, call = .insertPrefix tokens blocks now
          ∧ s' = s.registered h' tokens)
        ∨ (∀ tokens blocks now, call ≠ .insertPrefix tokens blocks now)
          ∧ s' = { s with history := h' }) := by
  by_cases hc : ∃ tokens blocks now, call = .insertPrefix tokens blocks now
  · obtain ⟨tokens, blocks, now, rfl⟩ := hc
    obtain ⟨h', hh, rfl⟩ := Option.map_eq_some_iff.mp hs
    exact ⟨h', hh, .inl ⟨tokens, blocks, now, rfl, rfl⟩⟩
  · have hother : ∀ tokens blocks now, call ≠ .insertPrefix tokens blocks now :=
      fun tokens blocks now heq => hc ⟨tokens, blocks, now, heq⟩
    rw [step] at hs
    · obtain ⟨h', hh, rfl⟩ := Option.map_eq_some_iff.mp hs
      exact ⟨h', hh, .inr ⟨hother, rfl⟩⟩
    · exact hother

theorem Traced.step (h : s.Traced) (hs : s.step call = some s') : s'.Traced := by
  cases call with
  | insertPrefixAt tokens blocks skipBlocks now =>
    obtain ⟨p, hp, rfl⟩ := Option.map_eq_some_iff.mp hs
    obtain ⟨t, ht, hshape⟩ := KvBlockPool.insertPrefixWithRecurrentStateAt_tree hp
    exact h.registered ht hshape
  | pool call =>
    obtain ⟨h', hh, hcase⟩ := step_pool hs
    rcases hcase with ⟨tokens, blocks, now, rfl, rfl⟩ | ⟨hne, rfl⟩
    · rcases KvBlockPool.step_tree hh with ⟨hne, -⟩ | ⟨_, _, _, t, heq, ht, hshape⟩
      · exact absurd rfl (hne tokens blocks now)
      · cases heq
        exact h.registered ht hshape
    · rcases KvBlockPool.step_tree hh with ⟨-, hshape | ⟨now, io, res, hp⟩⟩ | ⟨_, _, _, t, heq, -⟩
      · exact h.narrowed hshape.narrowed
      · exact h.narrowed (KvBlockPool.alloc_narrowed hp)
      · exact absurd heq (hne _ _ _)

theorem reach_traced (c : Setup) (hr : Steps.Reach step (fun _ _ => True) (new c) s) : s.Traced :=
  hr.invariant (traced_new c) fun _ _ _ h _ hs => h.step hs

/-- In every run, a lookup serves `q` no block of `p` with other tokens, exactly where the keys tell
the two apart. -/
theorem servesOwn_iff (c : Setup) (s : Sharing)
    (hr : Steps.Reach step (fun _ _ => True) (new c) s) (p q : List UInt32) :
    s.ServesOwn p q ↔ s.KeysTell p q := by
  obtain ⟨h, hsize⟩ := reach_traced c hr
  constructor
  · intro hown i n hn horigin hlen hkeys
    have hlt : i < q.length / s.tree.blockSize := by
      rw [hsize]
      exact (Nat.le_div_iff_mul_le (by decide)).mpr hlen
    refine hown i n ?_ horigin
    rw [RadixTree.matched_getElem? hlt, ← hkeys]
    exact hn
  · rintro htell i n hn rfl
    obtain ⟨hlen, hfind, hkeys⟩ := h.matched hn
    rw [hsize] at hlen
    exact htell i n hfind rfl hlen hkeys

/-- A page registered for a prompt serves the same prompt. -/
theorem servesOwn_iff_same : ∃ s, Steps.Reach step (fun _ _ => True) (new (.tiny 1 none)) s
    ∧ (s.tree.matched (List.replicate 16 7)).length = 1
    ∧ (s.ServesOwn (List.replicate 16 7) (List.replicate 16 7) ↔
      s.KeysTell (List.replicate 16 7) (List.replicate 16 7)) := by
  obtain ⟨s, hrun⟩ : ∃ s, Steps.exec step (fun _ _ => True) (new (.tiny 1 none))
      [.pool (.alloc id (.ok ())), .pool (.insertPrefix (List.replicate 16 7) [0] id)]
        = some s := ⟨_, rfl⟩
  have hr := Steps.reach_of_exec hrun
  refine ⟨s, hr, ?_, servesOwn_iff _ s hr _ _⟩
  obtain rfl := Option.some.inj hrun
  decide

/-- Two prompts of one block with one key: the second is served the first's page. -/
theorem collision_served : ¬ ∀ (c : Setup) (s : Sharing),
    Steps.Reach step (fun _ _ => True) (new c) s → ∀ p q, s.ServesOwn p q := by
  intro hall
  obtain ⟨s, hrun⟩ : ∃ s, Steps.exec step (fun _ _ => True) (new (.tiny 1 none))
      [.pool (.alloc id (.ok ())),
        .pool (.insertPrefix ([37999, 41107, 0] ++ List.replicate 13 0) [0] id)] = some s :=
    ⟨_, rfl⟩
  have hown := hall _ s (Steps.reach_of_exec hrun) ([37999, 41107, 0] ++ List.replicate 13 0)
    ([37996, 41707, 206807] ++ List.replicate 13 0) 0 1
  obtain rfl := Option.some.inj hrun
  exact absurd (hown (by decide) (by decide)) (by decide)

end Sharing

end Grim.Memory
