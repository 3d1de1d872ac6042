import Grim.Engine.PromptChunks
import Grim.Memory.PathClaims

/-!
# The references a request's registrations take

A request counts the blocks it took from the tree and the blocks it registered.  In a run of passes
no node is evicted, so that the path of a prompt stays as far as these counts go, and the references
taken of its nodes can be read off them (`Booked`).
-/

namespace Grim.Engine

open KvTransport Memory PagedKvCache List
open Function (update update_self update_of_ne)

variable {e e₁ e' : Engine} {q : Pass} {full : List UInt32} {id prompt a L : ℕ}
  {p p' : KvBlockPool} {sessions : ℕ → Option PagedKvCache} {c c' : PagedKvCache} {r : ℕ → ℕ}

def seededBlocks (e : Engine) (id : ℕ) : ℕ := (e.radixSeededBlocks id).getD 0

def registeredBlocks (e : Engine) (id : ℕ) : ℕ := (e.radixRegisteredBlocks id).getD 0

def registering (e : Engine) (q : Pass) : Option (Engine × Engine) :=
  (e.beginPass q).bind fun (e, chunk) =>
    match chunk, e.modelForRequest q.id with
    | some ch, some modelId =>
      match e.driveForward modelId q ch.tokens with
      | some (e, .ok ()) =>
        let e := { e with prefillProgress := update e.prefillProgress q.id (some ch.target) }
        (e.registerPrefix q ch.full).map fun e' => (e, e')
      | _ => none
    | _, _ => none

/-- The references `r` taken of each node, and those that the registration of a pass takes. -/
def raisedBy (e : Engine) (q : Pass) (r : ℕ → ℕ) : ℕ → ℕ :=
  match e.registering q with
  | some (e₁, e₂) => fun n => r n + (e₂.pool.prefixTree.refs n - e₁.pool.prefixTree.refs n)
  | none => r

/-- An engine beside the references that the registrations of a request took of each node. -/
structure Claiming where
  engine : Engine
  raised : ℕ → ℕ → ℕ

namespace Claiming

def new (cfg : Config) : Claiming where
  engine := .new cfg
  raised _ _ := 0

variable (s : Claiming)

def step (q : Pass) : Option Claiming :=
  (s.engine.drivePrefillInner q).map fun (e, _) =>
    { engine := e
      raised := update s.raised q.id (s.engine.raisedBy q (s.raised q.id)) }

/-- Each full block of the prompt has a node; the registrations took no reference of those seeded,
and one of each other. -/
def RegistersOnce (id prompt : ℕ) : Prop :=
  ∀ i < prompt / blockSize,
    ∃ n, s.engine.pool.prefixTree.nodeAt (s.engine.fullInput id prompt) i = some n
      ∧ s.raised id n = if i < s.engine.seededBlocks id then 0 else 1

end Claiming

/-- Unless nothing is seeded, nothing registered or every full block of the prompt, the table that
a pass will have is either no longer than the blocks it skips, in a pass that does not end the
prompt, or longer, and the tree has no node for the first block not registered. -/
def KeepsCount (e : Engine) (q : Pass) (prompt : ℕ) : Prop :=
  let seeded := e.seededBlocks q.id
  let registered := e.registeredBlocks q.id
  let target := min q.consumedTokens prompt
  seeded = 0 ∨ registered = 0 ∨ prompt / blockSize ≤ registered ∨ target ≤ e.progress q.id
    ∨ (e.modelForRequest q.id).bind e.models = none ∨ (∃ l ≤ e.numLayers, q.forward.failAt = some l)
    ∨ match e.sessions q.id with
      | some kv =>
        if seeded + registered
            < max kv.table.length (blocksFor (kv.committedTokens + (target - e.progress q.id))) then
          e.pool.prefixTree.nodeAt (e.fullInput q.id prompt) registered = none
        else target < prompt
      | none => True

theorem keepsCount_iff : e.KeepsCount q prompt ↔
    e.seededBlocks q.id = 0 ∨ e.registeredBlocks q.id = 0
      ∨ prompt / blockSize ≤ e.registeredBlocks q.id
      ∨ min q.consumedTokens prompt ≤ e.progress q.id
      ∨ (e.modelForRequest q.id).bind e.models = none
      ∨ (∃ l ≤ e.numLayers, q.forward.failAt = some l)
      ∨ ∀ kv ∈ e.sessions q.id,
        if e.seededBlocks q.id + e.registeredBlocks q.id < max kv.table.length
            (blocksFor (kv.committedTokens + (min q.consumedTokens prompt - e.progress q.id))) then
          e.pool.prefixTree.nodeAt (e.fullInput q.id prompt) (e.registeredBlocks q.id) = none
        else min q.consumedTokens prompt < prompt := by
  unfold KeepsCount
  cases e.sessions q.id <;> simp

instance : Decidable (e.KeepsCount q prompt) := decidable_of_iff' _ keepsCount_iff

/-- What a pass keeps of the pool and the tables: nothing in the tree can be evicted, and the blocks
of the nodes and the tables are referenced. -/
structure Sound (p : KvBlockPool) (sessions : ℕ → Option PagedKvCache) : Prop where
  keySize : p.prefixTree.blockSize = blockSize
  parented : p.prefixTree.Parented
  grounded : p.prefixTree.Grounded fun _ _ => True
  nodup : p.freeList.Nodup
  free_ref : ∀ b ∈ p.freeList, p.refCounts b = none
  onGpu : ∀ b, p.refCounts b = none → (p.blocks b).location = .gpu
  tree_ref : ∀ b, p.prefixTree.HasBlock b → p.refCounts b ≠ none
  table_ref : ∀ id c, sessions id = some c → ∀ b ∈ c.table, p.refCounts b ≠ none

theorem Sound.quiet (h : Sound p sessions) : p.Quiet :=
  ⟨h.nodup, h.free_ref, h.onGpu, h.grounded.claimed⟩

theorem Sound.settle (h : Sound p sessions) (hs : Settles p p') : Sound p' sessions where
  keySize := hs.tree.shape.blockSize.trans h.keySize
  parented := hs.tree.shape.parented h.parented
  grounded := hs.tree.grounded h.grounded
  nodup := by
    rw [hs.free]
    exact h.nodup
  free_ref b hb := by
    rw [hs.free] at hb
    exact (hs.refs b).mpr (h.free_ref b hb)
  onGpu b hb := by
    have hb := (hs.refs b).mp hb
    exact hs.onGpu b hb (h.onGpu b hb)
  tree_ref b hb := by
    rw [hs.tree.hasBlock] at hb
    exact (hs.refs b).not.mpr (h.tree_ref b hb)
  table_ref id c hc b hb := (hs.refs b).not.mpr (h.table_ref id c hc b hb)

theorem Sound.session (h : Sound p sessions) (hc : ∀ b ∈ c.table, p.refCounts b ≠ none) :
    Sound p (update sessions id (some c)) := by
  refine ⟨h.keySize, h.parented, h.grounded, h.nodup, h.free_ref, h.onGpu, h.tree_ref, ?_⟩
  intro id' c' hc' b hb
  by_cases hid : id' = id
  · subst hid
    rw [update_self, Option.some.injEq] at hc'
    exact hc b (hc' ▸ hb)
  · rw [update_of_ne hid] at hc'
    exact h.table_ref id' c' hc' b hb

theorem Sound.extend (h : Sound p sessions) (hc : sessions id = some c)
    (hx : Extends L c c' p p') : Sound p' (update sessions id (some c')) := by
  obtain ⟨ids, hd, ht⟩ := hx.draws
  have hquiet := h.quiet.draws hd
  have hrefs : ∀ b, p.refCounts b ≠ none → p'.refCounts b ≠ none :=
    fun b hb hb' => hb ((hd.refs b).mp hb').1
  have hpool : Sound p' sessions := by
    refine ⟨?_, ?_, ?_, hquiet.nodup, hquiet.free_ref, hquiet.onGpu, ?_, ?_⟩
    · rw [hd.tree]
      exact h.keySize
    · rw [hd.tree]
      exact h.parented
    · rw [hd.tree]
      exact h.grounded
    · rw [hd.tree]
      exact fun b hb => hrefs b (h.tree_ref b hb)
    · exact fun id₁ c₁ hc₁ b hb => hrefs b (h.table_ref id₁ c₁ hc₁ b hb)
  refine hpool.session fun b hb => ?_
  rw [ht] at hb
  rcases mem_append.mp hb with hb | hb
  · exact hrefs b (h.table_ref id c hc b hb)
  · exact fun hnone => ((hd.refs b).mp hnone).2 hb

theorem Sound.register (h : Sound p sessions) (hc : sessions id = some c) {skip : ℕ}
    {now : ℕ → ℕ} (hp : p.insertPrefixWithRecurrentStateAt full c.table skip now = some p') :
    Sound p' sessions := by
  obtain ⟨t, t', ht, hret, rfl⟩ := insertRecurrent_tree hp
  obtain ⟨hg, hsize, hhas⟩ := h.grounded.insertFrom h.grounded.root_lt (fun _ _ _ _ => trivial) ht
  have hpar := h.parented.insertFrom (.inl rfl) t ht
  refine ⟨hret.shape.blockSize.trans (hsize.trans h.keySize), hret.shape.parented hpar,
    hret.grounded hg, h.nodup, h.free_ref, h.onGpu, ?_, h.table_ref⟩
  intro b hb
  rcases hhas b ((hret.hasBlock b).mp hb) with hold | ⟨j, hj, -⟩
  · exact h.tree_ref b hold
  · exact h.table_ref id c hc b (mem_of_getElem? hj)

theorem sound_new (cfg : Config) : Sound (Engine.new cfg).pool (Engine.new cfg).sessions := by
  refine ⟨rfl, RadixTree.parented_new _ _, RadixTree.grounded_new _ _, nodup_range,
    fun _ _ => rfl, fun _ _ => rfl, fun b hb => absurd hb RadixTree.not_hasBlock_new, ?_⟩
  intro id c hc b hb
  unfold Engine.new at hc
  dsimp only at hc
  split_ifs at hc
  rw [← Option.some.inj hc] at hb
  simp [PagedKvCache.new] at hb

/-- What a pass of request `id` leaves of the others. -/
structure Beside (e e' : Engine) (id : ℕ) : Prop where
  numLayers : e'.numLayers = e.numLayers
  radixEnabled : e'.radixEnabled = e.radixEnabled
  requestInputIds : e'.requestInputIds = e.requestInputIds
  tree : RadixTree.Grows e.pool.prefixTree e'.pool.prefixTree
  sessions : ∀ id' ≠ id, e'.sessions id' = e.sessions id'
  progress : ∀ id' ≠ id, e'.progress id' = e.progress id'
  seeded : ∀ id' ≠ id, e'.seededBlocks id' = e.seededBlocks id'
  registered : ∀ id' ≠ id, e'.registeredBlocks id' = e.registeredBlocks id'

theorem Beside.of_pool (h : RadixTree.Grows e.pool.prefixTree p.prefixTree) :
    Beside e { e with pool := p } id :=
  ⟨rfl, rfl, rfl, h, fun _ _ => rfl, fun _ _ => rfl, fun _ _ => rfl, fun _ _ => rfl⟩

theorem Beside.trans {e'' : Engine} (h : Beside e e' id) (h' : Beside e' e'' id) :
    Beside e e'' id where
  numLayers := h'.numLayers.trans h.numLayers
  radixEnabled := h'.radixEnabled.trans h.radixEnabled
  requestInputIds := h'.requestInputIds.trans h.requestInputIds
  tree := h.tree.trans h'.tree
  sessions id' hid := (h'.sessions id' hid).trans (h.sessions id' hid)
  progress id' hid := (h'.progress id' hid).trans (h.progress id' hid)
  seeded id' hid := (h'.seeded id' hid).trans (h.seeded id' hid)
  registered id' hid := (h'.registered id' hid).trans (h.registered id' hid)

theorem Beside.fullInput (h : Beside e e' id) (id' n : ℕ) :
    e'.fullInput id' n = e.fullInput id' n := by
  unfold Engine.fullInput realIds
  rw [h.requestInputIds]

/-- The registrations of a request took one reference of each full block from the seeded ones up to
the count of those registered, and of no other; all of these blocks have nodes. -/
structure Booked (e : Engine) (r : ℕ → ℕ) (id prompt : ℕ) : Prop where
  seeded : e.seededBlocks id * blockSize ≤ e.progress id
  cursor : e.registeredBlocks id = 0 ∨ e.seededBlocks id ≤ e.registeredBlocks id
  started : e.progress id = 0 → e.registeredBlocks id = 0
  path : ∀ i, i < e.seededBlocks id ∨ i < e.registeredBlocks id →
    ∃ n, e.pool.prefixTree.nodeAt (e.fullInput id prompt) i = some n
  raised : ∀ i < prompt / blockSize, ∀ n,
    e.pool.prefixTree.nodeAt (e.fullInput id prompt) i = some n →
      r n = if e.seededBlocks id ≤ i ∧ i < e.registeredBlocks id then 1 else 0
  fresh : ∀ n, e.pool.prefixTree.size ≤ n → r n = 0
  committed : ∀ c, e.sessions id = some c → e.progress id ≤ c.committedTokens
  whole : e.radixEnabled → e.progress id = prompt → prompt / blockSize ≤ e.registeredBlocks id

theorem Booked.raised_grown (h : Booked e r id prompt) (hpar : e.pool.prefixTree.Parented)
    {t : RadixTree} (hgrows : RadixTree.Grows e.pool.prefixTree t) (hpar' : t.Parented) {i n : ℕ}
    (hi : i < prompt / blockSize) (hn : t.nodeAt (e.fullInput id prompt) i = some n) :
    r n = if e.seededBlocks id ≤ i ∧ i < e.registeredBlocks id then 1 else 0 := by
  rcases hgrows.nodeAt_new hpar' hn with hold | hnew
  · exact h.raised i hi n hold
  · rw [h.fresh n hnew, if_neg]
    rintro ⟨-, hlt⟩
    obtain ⟨m, hm⟩ := h.path i (.inr hlt)
    obtain rfl := Option.some.inj ((hgrows.nodeAt hm).symm.trans hn)
    have hm := hpar.nodeAt_lt hm
    omega

theorem Booked.frame (h : Booked e r id prompt) (hpar : e.pool.prefixTree.Parented)
    (hpar' : e'.pool.prefixTree.Parented)
    (hids : e'.requestInputIds = e.requestInputIds) (hon : e'.radixEnabled = e.radixEnabled)
    (htree : RadixTree.Grows e.pool.prefixTree e'.pool.prefixTree)
    (hprog : e'.progress id = e.progress id) (hseeded : e'.seededBlocks id = e.seededBlocks id)
    (hreg : e'.registeredBlocks id = e.registeredBlocks id)
    (hsession : ∀ c', e'.sessions id = some c' →
      ∃ c, e.sessions id = some c ∧ c.committedTokens ≤ c'.committedTokens) :
    Booked e' r id prompt := by
  have hfull : e'.fullInput id prompt = e.fullInput id prompt := by
    unfold Engine.fullInput realIds
    rw [hids]
  refine ⟨?_, ?_, ?_, ?_, ?_, ?_, ?_, ?_⟩
  · rw [hseeded, hprog]
    exact h.seeded
  · rw [hreg, hseeded]
    exact h.cursor
  · rw [hprog, hreg]
    exact h.started
  · intro i hi
    rw [hseeded, hreg] at hi
    obtain ⟨n, hn⟩ := h.path i hi
    rw [hfull]
    exact ⟨n, htree.nodeAt hn⟩
  · intro i hi n hn
    rw [hfull] at hn
    rw [hseeded, hreg]
    exact h.raised_grown hpar htree hpar' hi hn
  · exact fun n hn => h.fresh n (htree.size.trans hn)
  · intro c' hc'
    obtain ⟨c, hc, hle⟩ := hsession c' hc'
    rw [hprog]
    exact (h.committed c hc).trans hle
  · rw [hon, hprog, hreg]
    exact h.whole

/-- The progress, the seeded blocks and the session of a request that took the first `a` tokens of
its prompt; all of the blocks have nodes. -/
structure Took (e e₁ : Engine) (id : ℕ) (full : List UInt32) (a : ℕ) : Prop where
  fresh : e.progress id = 0
  lt : a < full.length
  progress : e₁.progress id = a
  pos : 0 < a
  seeded : e₁.seededBlocks id * blockSize = a
  path : ∀ i < e₁.seededBlocks id, ∃ n, e.pool.prefixTree.nodeAt full i = some n
  committed : ∀ c, e₁.sessions id = some c → a ≤ c.committedTokens

structure Kept (e e₁ : Engine) (id : ℕ) : Prop where
  progress : e₁.progress id = e.progress id
  seeded : e₁.seededBlocks id = e.seededBlocks id
  sessions : e₁.sessions = e.sessions

/-- The tree and what is registered stay as a pass takes a prefix. -/
structure Claims (e e₁ : Engine) (id : ℕ) : Prop where
  beside : Beside e e₁ id
  shape : RadixTree.SameShape e.pool.prefixTree e₁.pool.prefixTree
  registered : e₁.registeredBlocks id = e.registeredBlocks id
  models : e₁.models = e.models
  modelForRequest : e₁.modelForRequest = e.modelForRequest

theorem Claims.of_settles (hs : Settles e.pool p) : Claims e { e with pool := p } id :=
  ⟨.of_pool hs.tree.shape.grows, hs.tree.shape, rfl, rfl, rfl⟩

theorem Sound.took (hs : Sound e.pool e.sessions) {matched : List ℕ} {n : ℕ}
    (hmatch : e.pool.matchPrefix full = (matched, n)) (hzero : e.progress id = 0)
    (hfull : full ≠ []) (hpos : 0 < skipTokens full n)
    (hprog : e₁.progress id = skipTokens full n)
    (hcount : e₁.seededBlocks id = (matched.take (skipTokens full n / blockSize)).length)
    (hsession : ∀ c, e₁.sessions id = some c → skipTokens full n ≤ c.committedTokens) :
    Took e e₁ id full (skipTokens full n) := by
  have hlen : n = matched.length * blockSize := by
    have hsnd := e.pool.prefixTree.matchPrefix_snd full
    rw [hs.keySize] at hsnd
    change (e.pool.matchPrefix full).2 = (e.pool.matchPrefix full).1.length * blockSize at hsnd
    rw [hmatch] at hsnd
    exact hsnd
  have hseeds := @length_seeds full _ _ hlen
  refine ⟨hzero, skipTokens_lt hfull n, hprog, hpos, ?_, ?_, hsession⟩
  · rw [hcount, hseeds]
    exact skipTokens_whole full n
  · intro i hi
    rw [hcount] at hi
    have hlt : i < (e.pool.prefixTree.matched full).length := by
      rw [← e.pool.prefixTree.length_matchPrefix]
      change i < (e.pool.matchPrefix full).1.length
      rw [hmatch]
      exact lt_of_lt_of_le hi (length_take_le' _ _)
    have hnode : e.pool.prefixTree.nodeAt full i = (e.pool.prefixTree.matched full)[i]? :=
      RadixTree.nodeAt_eq (lt_of_lt_of_le hlt RadixTree.matched_length)
    exact ⟨(e.pool.prefixTree.matched full)[i], hnode.trans (getElem?_eq_getElem hlt)⟩

theorem Sound.claimPrefix (hs : Sound e.pool e.sessions) {real : Bool}
    (hclaim : e.claimPrefix q full real (e.progress q.id) = some (e₁, a)) :
    Sound e₁.pool e₁.sessions ∧ Claims e e₁ q.id
      ∧ (Kept e e₁ q.id ∧ a = e.progress q.id ∨ real ∧ Took e e₁ q.id full a) := by
  unfold Engine.claimPrefix at hclaim
  split_ifs at hclaim with hguard
  swap
  · cases hclaim
    exact ⟨hs, .of_settles (.refl _), .inl ⟨⟨rfl, rfl, rfl⟩, rfl⟩⟩
  obtain ⟨⟨p, matched, n, promoted⟩, hp, hclaim⟩ := Option.bind_eq_some_iff.mp hclaim
  obtain ⟨hpromoted, hmatch⟩ := matchPrefixPromoting_settles hp
  have hmatched : (e.pool.matchPrefix full).1 = matched := by rw [← hmatch]
  have hn : (e.pool.matchPrefix full).2 = n := by rw [← hmatch]
  have hlen : n = matched.length * blockSize := by
    rw [← hn, ← hmatched, ← hs.keySize]
    exact e.pool.prefixTree.matchPrefix_snd full
  dsimp only at hclaim
  split_ifs at hclaim with hseed hslice
  swap
  · cases hclaim
    exact ⟨hs.settle hpromoted, .of_settles hpromoted, .inl ⟨⟨rfl, rfl, rfl⟩, rfl⟩⟩
  obtain ⟨p', hp', hclaim⟩ := Option.map_eq_some_iff.mp hclaim
  have hseeds := @length_seeds full _ _ hlen
  have hpos : 0 < skipTokens full n := lt_of_lt_of_le (by decide) hseed.1
  have hwalk : (p.prefixTree.walk (full.take (skipTokens full n))
      (matched.take (skipTokens full n / blockSize)).length p.prefixTree.root 0).length
      = (matched.take (skipTokens full n / blockSize)).length := by
    rw [hseeds, hpromoted.tree.shape.walk, hpromoted.tree.shape.root]
    exact walk_seeds hs.keySize (hmatched.symm ▸ hlen)
  have hsettles := hpromoted.trans (insertPrefix_settles hwalk hp')
  rcases hsession : e.sessions q.id with - | kv <;>
    simp only [hsession, Prod.mk.injEq] at hclaim <;> obtain ⟨rfl, rfl⟩ := hclaim
  · exact ⟨hs.settle hsettles, .of_settles hsettles, .inl ⟨⟨rfl, rfl, rfl⟩, rfl⟩⟩
  -- the blocks taken have nodes, so they are referenced
  have href : ∀ b ∈ matched.take (skipTokens full n / blockSize), p'.refCounts b ≠ none := by
    intro b hb
    obtain ⟨i, hi⟩ := getElem?_of_mem (mem_of_mem_take hb)
    rw [← hmatched] at hi
    refine (hs.settle hsettles).tree_ref b ((hsettles.tree.hasBlock b).mpr ?_)
    exact (hs.grounded.matchPrefix hi).1
  have hadd : Settles p' (kv.seedPrefix (matched.take (skipTokens full n / blockSize)) p').2 :=
    addRefs_settles href
  have hall := hsettles.trans hadd
  refine ⟨(hs.settle hall).session ?_, ?_, .inr ⟨hguard.2.2.1, ?_⟩⟩
  · intro b hb
    refine (hadd.refs b).not.mpr ?_
    rcases mem_append.mp hb with hb | hb
    · exact (hs.settle hsettles).table_ref q.id kv hsession b hb
    · exact href b hb
  · refine ⟨⟨rfl, rfl, rfl, hall.tree.shape.grows, ?_, ?_, ?_, fun _ _ => rfl⟩,
      hall.tree.shape, rfl, rfl, rfl⟩
    · exact fun id hid => update_of_ne hid _ _
    · exact fun id hid => by simp [progress, hid]
    · exact fun id hid => by simp [seededBlocks, hid]
  · refine hs.took (Prod.ext hmatched hn) hguard.2.1 hguard.2.2.2 hpos (by simp [progress])
      (by simp [seededBlocks]) fun c hc => ?_
    dsimp only at hc
    rw [update_self, Option.some.injEq] at hc
    subst hc
    show _ ≤ (kv.table ++ matched.take (skipTokens full n / blockSize)).length * blockSize
    rw [length_append, hseeds, Nat.add_mul, skipTokens_whole full n]
    exact Nat.le_add_left _ _

theorem Booked.claim (h : Booked e r id prompt) (hs : Sound e.pool e.sessions)
    (hs₁ : Sound e₁.pool e₁.sessions) (hc : Claims e e₁ id)
    (hstart : Kept e e₁ id ∨ full.length = prompt ∧ e.fullInput id prompt = full
      ∧ Took e e₁ id full a) : Booked e₁ r id prompt := by
  rcases hstart with hk | ⟨hlen, hfull, ht⟩
  · refine h.frame hs.parented hs₁.parented hc.beside.requestInputIds hc.beside.radixEnabled
      hc.beside.tree hk.progress hk.seeded hc.registered fun c hcs => ?_
    rw [hk.sessions] at hcs
    exact ⟨c, hcs, le_rfl⟩
  · have hzero := h.started ht.fresh
    have hfull' : e₁.fullInput id prompt = full := (hc.beside.fullInput _ _).trans hfull
    refine ⟨?_, ?_, ?_, ?_, ?_, ?_, ?_, ?_⟩
    · rw [ht.seeded, ht.progress]
    · rw [hc.registered]
      exact .inl hzero
    · intro hprog
      rw [ht.progress] at hprog
      exact absurd hprog ht.pos.ne'
    · intro i hi
      rw [hc.registered, hzero] at hi
      obtain ⟨n, hn⟩ := ht.path i (hi.resolve_right (Nat.not_lt_zero i))
      rw [hfull']
      exact ⟨n, hc.beside.tree.nodeAt hn⟩
    · intro i hi n hn
      rw [hfull'] at hn
      rw [hc.registered, hzero, if_neg fun hb => Nat.not_lt_zero i hb.2]
      have hold := h.raised i hi n
      rw [hzero, if_neg fun hb => Nat.not_lt_zero i hb.2, hfull] at hold
      rw [hc.shape.nodeAt] at hn
      exact hold hn
    · intro n hn
      rw [hc.shape.size] at hn
      exact h.fresh n hn
    · rw [ht.progress]
      exact ht.committed
    · intro _ hprog
      rw [ht.progress, ← hlen] at hprog
      exact absurd hprog ht.lt.ne

theorem run_rest {f : Forward} {chunk : List UInt32} (hchunk : chunk ≠ []) {m : ℕ} : ∀ {l : ℕ}
    {c : PagedKvCache} {p : KvBlockPool}, p.Quiet → 0 < l →
    f.run chunk m l c p = some (c', p', .ok ()) →
    c'.committedTokens = c.committedTokens
      ∧ c'.table.length ≤ max c.table.length (blocksFor c.committedTokens) := by
  induction m with
  | zero =>
    intro l c p _ _ hrun
    unfold Forward.run at hrun
    split_ifs at hrun <;> cases hrun
    exact ⟨rfl, le_max_left _ _⟩
  | succ m ih =>
    intro l c p hq hl hrun
    unfold Forward.run at hrun
    split_ifs at hrun
    · cases hrun
    · obtain ⟨c₁, p₁, h₁, hrun⟩ := Outcome.andThen_ok hrun
      obtain ⟨hlen, hs⟩ := f.fits l chunk
      obtain ⟨hx, hok, -⟩ := appendKvLayer_extends hq (Nat.lt_succ_self l) (Prod.ext hlen rfl)
        (length_pos_iff.mpr hchunk) hs h₁
      obtain ⟨hcommitted, -, htable, -⟩ := hok rfl
      rw [if_neg hl.ne', Nat.add_zero] at hcommitted
      obtain ⟨hcommitted', htable'⟩ := ih (hx.quiet hq) (Nat.succ_pos l) hrun
      rw [hcommitted] at hcommitted' htable htable'
      exact ⟨hcommitted', by omega⟩

theorem run_room {f : Forward} {chunk : List UInt32} {m : ℕ} (hq : p.Quiet) (hchunk : chunk ≠ [])
    (hm : 0 < m) (hrun : f.run chunk m 0 c p = some (c', p', .ok ())) :
    c'.committedTokens = c.committedTokens + chunk.length
      ∧ c'.table.length
        = max c.table.length (blocksFor (c.committedTokens + chunk.length)) := by
  obtain ⟨m, rfl⟩ : ∃ m', m = m' + 1 := ⟨m - 1, by omega⟩
  unfold Forward.run at hrun
  split_ifs at hrun
  · cases hrun
  obtain ⟨c₁, p₁, h₁, hrun⟩ := Outcome.andThen_ok hrun
  obtain ⟨hlen, hs⟩ := f.fits 0 chunk
  obtain ⟨hx, hok, -⟩ := appendKvLayer_extends hq Nat.one_pos (Prod.ext hlen rfl)
    (length_pos_iff.mpr hchunk) hs h₁
  obtain ⟨hcommitted, hroom, htable, -⟩ := hok rfl
  have hroom := hroom rfl
  rw [if_pos rfl] at hcommitted
  obtain ⟨hcommitted', htable'⟩ := run_rest hchunk (hx.quiet hq) Nat.one_pos hrun
  have hrest := Forward.run_extends (L := 1 + m) hchunk (hx.quiet hq) le_rfl hrun
  obtain ⟨ids, -, hids⟩ := hx.draws
  obtain ⟨ids', -, hids'⟩ := hrest.draws
  have hgrown : c.table.length ≤ c₁.table.length := by
    rw [hids, length_append]
    exact Nat.le_add_right _ _
  have hgrown' : c₁.table.length ≤ c'.table.length := by
    rw [hids', length_append]
    exact Nat.le_add_right _ _
  rw [hcommitted] at hcommitted' hroom htable htable'
  exact ⟨hcommitted', by omega⟩

theorem driveForward_cases {modelId : String} {tokens : List UInt32} {res : Except String Unit}
    (h : e.driveForward modelId q tokens = some (e', res)) :
    (e' = e ∧ res ≠ .ok ())
      ∨ ∃ c c' p', e.models modelId ≠ none ∧ e.sessions q.id = some c
        ∧ q.forward.run tokens e.numLayers 0 c e.pool = some (c', p', res)
        ∧ e' = { e with pool := p', sessions := update e.sessions q.id (some c') } := by
  unfold driveForward at h
  split at h
  · cases h
    exact .inl ⟨rfl, by simp⟩
  · rename_i m hm
    split at h
    · cases h
      exact .inl ⟨rfl, by simp⟩
    · rename_i c hc
      obtain ⟨⟨c', p', res'⟩, hrun, h⟩ := Option.map_eq_some_iff.mp h
      cases h
      exact .inr ⟨c, c', p', by simp [hm], hc, hrun, rfl⟩

theorem extends_tree (hx : Extends L c c' p p') : p'.prefixTree = p.prefixTree := by
  obtain ⟨ids, hd, -⟩ := hx.draws
  exact hd.tree

theorem Booked.forward (h : Booked e r id prompt) (hs : Sound e.pool e.sessions)
    (hc : e.sessions id = some c) (hx : Extends L c c' e.pool p') :
    Sound p' (update e.sessions id (some c'))
      ∧ Beside e { e with pool := p', sessions := update e.sessions id (some c') } id
      ∧ Booked { e with pool := p', sessions := update e.sessions id (some c') } r id prompt := by
  have hs' := hs.extend hc hx
  have htree : RadixTree.Grows e.pool.prefixTree p'.prefixTree :=
    (RadixTree.SameShape.of_eq (extends_tree hx)).grows
  refine ⟨hs', ⟨rfl, rfl, rfl, htree, fun id' hid => update_of_ne hid _ _, fun _ _ => rfl,
    fun _ _ => rfl, fun _ _ => rfl⟩, ?_⟩
  refine h.frame hs.parented hs'.parented rfl rfl htree rfl rfl rfl fun c₁ hc₁ => ⟨c, hc, ?_⟩
  dsimp only at hc₁
  rw [update_self, Option.some.injEq] at hc₁
  exact hc₁ ▸ hx.committed

end Grim.Engine
