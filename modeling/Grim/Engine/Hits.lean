import Grim.Engine.Registering

/-!
# A prefix hit serves computed blocks

The registration of a pass takes the whole table, its last block also where the chunk ends inside
it; a lookup then returns a block with rows still to be written.  In a run whose passes fill the
blocks they register (`FillsBlocks`) every hit is computed.
-/

namespace Grim.Engine

open KvTransport Memory PagedKvCache List Option
open Function (update update_self update_of_ne)

variable {e e₁ e' : Engine} {w : ℕ → ℕ → ℕ → Option UInt32} {c : PagedKvCache} {q : Pass}
  {full : List UInt32} {a : ℕ}

theorem fullInput_real (hfull : e.requestInputIds q.id = some full) (hne : full ≠ []) :
    e.fullInput q.id full.length = full ∧ (e.realIds q.id full.length).isSome := by
  have hreal : e.realIds q.id full.length = some full := by
    unfold realIds
    rw [hfull]
    simp [hne]
  unfold fullInput
  rw [hreal]
  exact ⟨rfl, rfl⟩

theorem promptTokens_real (hcopies : ∀ r ∈ q.copies, r.promptTokens = full.length) {n : ℕ}
    (h : q.promptTokens = some n) : n = full.length ∧ q.copies ≠ [] := by
  unfold Pass.promptTokens at h
  obtain ⟨r, hr, rfl⟩ := map_eq_some_iff.mp h
  have hmem := mem_of_getLast? hr
  exact ⟨hcopies r hmem, ne_nil_of_mem hmem⟩

theorem skipTokens_le (full : List UInt32) (n : ℕ) : skipTokens full n ≤ n := by
  unfold skipTokens
  simp only []
  omega

theorem skipTokens_whole (full : List UInt32) (n : ℕ) :
    skipTokens full n / blockSize * blockSize = skipTokens full n := by
  unfold skipTokens blockSize
  simp only []
  omega

/-- What a pass's begin leaves: the rest of the engine as it was, and in the session of the pass
the blocks it took. -/
structure Claimed (e e₁ : Engine) (q : Pass) (full : List UInt32) (a : ℕ) : Prop where
  models : e₁.models = e.models
  modelForRequest : e₁.modelForRequest = e.modelForRequest
  numLayers : e₁.numLayers = e.numLayers
  radixEnabled : e₁.radixEnabled = e.radixEnabled
  requestInputIds : e₁.requestInputIds = e.requestInputIds
  tree : RadixTree.Retains e.pool.prefixTree e₁.pool.prefixTree
  session : ∀ c₁, e₁.sessions q.id = some c₁ → ∃ c, e.sessions q.id = some c
    ∧ a = e.start q full ∧ (e₁.prefillProgress q.id).getD 0 = a
    ∧ e₁.skipBlocks q.id = e.counted q full
    ∧ (e.takes q full = 0 → c₁ = c)
    ∧ (e.takes q full ≠ 0 → c₁.committedTokens = a ∧ c₁.table.length * blockSize = a)

theorem Claimed.of_settled {p : KvBlockPool} (hs : Settles e.pool p)
    (h : ∀ c, e.sessions q.id = some c → e.takes q full = 0) :
    Claimed e { e with pool := p } q full ((e.prefillProgress q.id).getD 0) := by
  refine ⟨rfl, rfl, rfl, rfl, rfl, hs.tree, ?_⟩
  intro c hc
  have htakes := h c hc
  refine ⟨c, hc, ?_, rfl, ?_, fun _ => rfl, fun hne => absurd htakes hne⟩
  · unfold start
    rw [if_pos htakes]
  · unfold counted
    rw [if_pos htakes]
    rfl

theorem length_seeds {matched : List ℕ} {n : ℕ} (hn : n = matched.length * blockSize) :
    (matched.take (skipTokens full n / blockSize)).length = skipTokens full n / blockSize := by
  have hle := skipTokens_le full n
  have hwhole := skipTokens_whole full n
  rw [length_take]
  refine min_eq_left ?_
  unfold blockSize at hn hwhole ⊢
  omega

theorem walk_seeds {t : RadixTree} (ht : t.blockSize = blockSize) {n : ℕ}
    (hn : n = (t.matchPrefix full).1.length * blockSize) :
    (t.walk (full.take (skipTokens full n)) (skipTokens full n / blockSize) t.root 0).length
      = skipTokens full n / blockSize := by
  have hwhole := skipTokens_whole full n
  have hseeds := @length_seeds full _ _ hn
  have hfound : (t.walk full (full.length / blockSize) t.root 0).length
      = (t.matchPrefix full).1.length := by
    rw [t.length_matchPrefix, RadixTree.matched, ht]
  have hmle : (t.matchPrefix full).1.length ≤ full.length / blockSize :=
    hfound ▸ RadixTree.walk_length_le
  rw [length_take] at hseeds
  have hle : skipTokens full n / blockSize ≤ full.length / blockSize := by omega
  rw [RadixTree.walk_of_take (by rw [ht, hwhole]; omega), RadixTree.walk_take hle,
    length_take, hfound]
  omega

theorem Covered.claimPrefix (h : Covered e w) (hfull : e.requestInputIds q.id = some full)
    (hne : full ≠ []) (hempty : ∀ c, e.sessions q.id = some c → e.takes q full ≠ 0 → c.table = [])
    (hclaim : e.claimPrefix q full true ((e.prefillProgress q.id).getD 0) = some (e₁, a)) :
    Covered e₁ w ∧ Claimed e e₁ q full a := by
  unfold Engine.claimPrefix at hclaim
  by_cases hguard : e.radixEnabled ∧ (e.prefillProgress q.id).getD 0 = 0
  · rw [if_pos ⟨hguard.1, hguard.2, rfl, hne⟩] at hclaim
    obtain ⟨⟨p, matched, n, promoted⟩, hp, hclaim⟩ := bind_eq_some_iff.mp hclaim
    obtain ⟨hs, hmatch⟩ := matchPrefixPromoting_settles hp
    have hmatched : (e.pool.matchPrefix full).1 = matched := by rw [← hmatch]
    have hn : (e.pool.matchPrefix full).2 = n := by rw [← hmatch]
    have hlen : n = matched.length * blockSize := by
      rw [← hn, ← hmatched, ← h.keySize]
      exact e.pool.prefixTree.matchPrefix_snd full
    dsimp only at hclaim
    have hhybrid :
        Engine.modelUsesHybridKv { e with pool := p } q.id = e.modelUsesHybridKv q.id := rfl
    by_cases hseed : blockSize ≤ skipTokens full n ∧ ¬ e.modelUsesHybridKv q.id
    · rw [hhybrid, if_pos hseed] at hclaim
      have htakes : e.takes q full = skipTokens full n := by
        unfold takes
        simp only [hn]
        rw [if_pos ⟨hguard.1, hguard.2, hseed⟩]
      have hpos : skipTokens full n ≠ 0 := by
        have := hseed.1
        unfold blockSize at this
        omega
      split_ifs at hclaim with hslice
      obtain ⟨p', hp', hclaim⟩ := map_eq_some_iff.mp hclaim
      have hwhole := skipTokens_whole full n
      have hseeds := @length_seeds full _ _ hlen
      have hwalk : (p.prefixTree.walk (full.take (skipTokens full n))
          (matched.take (skipTokens full n / blockSize)).length p.prefixTree.root 0).length
          = (matched.take (skipTokens full n / blockSize)).length := by
        rw [hseeds, hs.tree.shape.walk, hs.tree.shape.root]
        exact walk_seeds h.keySize (hmatched.symm ▸ hlen)
      have hs' := hs.trans (insertPrefix_settles hwalk hp')
      rcases hsess : e.sessions q.id with - | c
      · simp only [hsess, Prod.mk.injEq] at hclaim
        obtain ⟨rfl, rfl⟩ := hclaim
        exact ⟨h.settle hs', .of_settled hs' fun c hc => by rw [hsess] at hc; cases hc⟩
      · simp only [hsess, Prod.mk.injEq] at hclaim
        obtain ⟨rfl, rfl⟩ := hclaim
        have htable : c.table = [] := hempty c hsess (by rw [htakes]; exact hpos)
        have hreg : ∀ i b, (matched.take (skipTokens full n / blockSize))[i]? = some b →
            p'.prefixTree.HasBlock b ∧ ∀ full₁, e.requestInputIds q.id = some full₁ →
              Rows w e.numLayers (keyOf (promptBlock full₁ i)) b := by
          intro i b hb
          rw [getElem?_take] at hb
          split_ifs at hb
          rw [← hmatched] at hb
          obtain ⟨h1, h2⟩ := h.grounded.matchPrefix hb
          refine ⟨(hs'.tree.hasBlock b).mpr h1, ?_⟩
          intro full₁ hfull₁
          obtain rfl : full = full₁ := Option.some.inj (hfull.symm.trans hfull₁)
          rw [blockKey_eq h.keySize, h.keySize] at h2
          exact h2
        have hcov := (h.settle hs').seed hsess htable hreg
        rw [hseeds, hwhole] at hcov
        refine ⟨hcov.congr rfl rfl rfl rfl rfl, rfl, rfl, rfl, rfl, rfl, ?_, ?_⟩
        · have hrefs : ∀ b ∈ matched.take (skipTokens full n / blockSize),
              p'.refCounts b ≠ none := by
            intro b hb
            obtain ⟨i, hi⟩ := getElem?_of_mem hb
            exact (h.settle hs').tree_ref b (hreg i b hi).1
          exact hs'.tree.trans (addRefs_settles hrefs).tree
        · intro c₁ hc₁
          dsimp only at hc₁
          rw [update_self, Option.some.injEq] at hc₁
          subst hc₁
          refine ⟨c, hsess, ?_, ?_, ?_, fun hz => absurd (htakes.symm.trans hz) hpos, fun _ => ?_⟩
          · unfold start
            rw [htakes, if_neg hpos]
          · dsimp only
            rw [update_self]
            rfl
          · unfold counted skipBlocks
            rw [htakes, if_neg hpos]
            dsimp only
            rw [update_self, hseeds]
            rfl
          · have htab : (c.seedPrefix (matched.take (skipTokens full n / blockSize)) p').1.table
                = matched.take (skipTokens full n / blockSize) := by
              show c.table ++ _ = _
              rw [htable, nil_append]
            refine ⟨?_, ?_⟩
            · show (c.table ++ _).length * blockSize = _
              rw [htable, nil_append, hseeds, hwhole]
            · rw [htab, hseeds, hwhole]
    · rw [hhybrid, if_neg hseed] at hclaim
      cases hclaim
      refine ⟨h.settle hs, .of_settled hs fun c _ => ?_⟩
      unfold takes
      simp only [hn]
      rw [if_neg]
      rintro ⟨-, -, hs⟩
      exact hseed hs
  · rw [if_neg fun hg => hguard ⟨hg.1, hg.2.1⟩] at hclaim
    cases hclaim
    refine ⟨h, .of_settled (.refl _) fun c _ => ?_⟩
    unfold takes
    simp only []
    rw [if_neg]
    rintro ⟨h1, h2, -⟩
    exact hguard ⟨h1, h2⟩

/-- The session of a pass stands where its chunk begins, and the blocks it will have are filled by
the chunk where they are not in the tree. -/
structure Ready (e : Engine) (q : Pass) (ch : Chunk) (c : PagedKvCache) : Prop where
  atProgress : AtProgress e q.id c
  committed : c.committedTokens = ch.already
  fills : e.radixEnabled → (∀ l ≤ e.numLayers, q.forward.failAt ≠ some l) →
    max c.table.length (blocksFor ch.target) ≤ e.skipBlocks q.id
      ∨ max c.table.length (blocksFor ch.target) * blockSize ≤ ch.target
      ∨ (e.pool.prefixTree.walk ch.full (max c.table.length (blocksFor ch.target))
          e.pool.prefixTree.root 0).length = max c.table.length (blocksFor ch.target)

theorem Covered.beginPass (h : Covered e w) (hreal : e.RealIds q) (hfills : e.FillsBlocks q)
    {chunk : Option Chunk} (hbegin : e.beginPass q = some (e₁, chunk)) :
    Covered e₁ w ∧ ∀ ch, chunk = some ch →
      e₁.requestInputIds q.id = some ch.full ∧ ch.already < ch.target
        ∧ ch.target ≤ ch.full.length ∧ ∀ c, e₁.sessions q.id = some c →
          e₁.modelForRequest q.id ≠ none → Ready e₁ q ch c := by
  unfold RealIds at hreal
  split at hreal
  swap
  · exact absurd hreal id
  rename_i full hfull
  obtain ⟨hne, hcopies⟩ := hreal
  unfold Engine.beginPass at hbegin
  split at hbegin
  · cases hbegin
    exact ⟨h, fun ch hch => by cases hch⟩
  rename_i prompt hprompt
  obtain ⟨rfl, hsome⟩ := promptTokens_real hcopies hprompt
  have hlen : full.length ≠ 0 := fun hz => hne (eq_nil_of_length_eq_zero hz)
  obtain ⟨hinput, hids⟩ := fullInput_real (e := e) hfull hne
  simp only [if_neg hlen, hinput, hids] at hbegin
  obtain ⟨⟨e₂, a⟩, hclaim, hbegin⟩ := bind_eq_some_iff.mp hbegin
  have hempty : ∀ c, e.sessions q.id = some c → e.takes q full ≠ 0 → c.table = [] := by
    intro c hc
    unfold FillsBlocks at hfills
    rw [hc, hfull] at hfills
    exact (hfills hsome).1
  obtain ⟨hcov, hcl⟩ := h.claimPrefix hfull hne hempty hclaim
  dsimp only at hbegin
  split_ifs at hbegin with hlt hfit
  · cases hbegin
    exact ⟨hcov, fun ch hch => by cases hch⟩
  cases hbegin
  refine ⟨hcov, ?_⟩
  rintro ch hch
  cases hch
  refine ⟨hcl.requestInputIds ▸ hfull, Nat.lt_of_not_le hlt, Nat.le_of_not_lt hfit, ?_⟩
  intro c₁ hc₁ hmodel
  obtain ⟨c, hc, ha, hprog, hskip, hkept, htaken⟩ := hcl.session c₁ hc₁
  unfold FillsBlocks at hfills
  rw [hc, hfull] at hfills
  rw [hcl.modelForRequest] at hmodel
  obtain ⟨hstart, hblocks⟩ := (hfills hsome).2 (by rw [← ha]; exact Nat.lt_of_not_le hlt) hmodel
  have hcommitted : c₁.committedTokens = a := by
    by_cases htakes : e.takes q full = 0
    · rw [hkept htakes, hstart htakes, ha]
    · exact (htaken htakes).1
  -- a pass that took a prefix has the blocks of its chunk's end, as it had none before
  have hmax : max c₁.table.length (blocksFor (min q.consumedTokens full.length))
      = max c.table.length (blocksFor (min q.consumedTokens full.length)) := by
    by_cases htakes : e.takes q full = 0
    · rw [hkept htakes]
    · have htable := (htaken htakes).2
      rw [hempty c hc htakes]
      have hle : c₁.table.length ≤ blocksFor (min q.consumedTokens full.length) := by
        unfold blocksFor
        unfold blockSize at htable ⊢
        omega
      rw [max_eq_right hle]
      simp
  refine ⟨hcommitted.trans hprog.symm, hcommitted, ?_⟩
  dsimp only
  rw [hmax, hskip, hcl.radixEnabled, hcl.numLayers, hcl.tree.shape.walk, hcl.tree.shape.root]
  exact hblocks

theorem Forward.run_ok_failAt {f : Forward} {chunk : List UInt32} {c' : PagedKvCache}
    {p' : KvBlockPool} {m : ℕ} : ∀ {l : ℕ} {c : PagedKvCache} {p : KvBlockPool},
    f.run chunk m l c p = some (c', p', .ok ()) → ∀ j, l ≤ j → j ≤ l + m → f.failAt ≠ some j := by
  induction m with
  | zero =>
    intro l c p h j hle hlt
    obtain rfl : l = j := by omega
    unfold Forward.run at h
    split_ifs at h with hf
    · cases h
    · exact hf
  | succ m ih =>
    intro l c p h j hle hlt
    unfold Forward.run at h
    split_ifs at h with hf
    · cases h
    · obtain ⟨c₁, p₁, -, h⟩ := Outcome.andThen_ok h
      rcases Nat.eq_or_lt_of_le hle with rfl | hle
      · exact hf
      · exact ih h j hle (by omega)

theorem Covered.registerPrefix (h : Covered e w) (hc : e.sessions q.id = some c)
    (hfull : e.requestInputIds q.id = some full) (hat : AtProgress e q.id c)
    (hfills : e.radixEnabled → e.skipBlocks q.id < c.table.length →
      c.table.length * blockSize ≤ c.committedTokens
        ∨ (e.pool.prefixTree.walk full c.table.length e.pool.prefixTree.root 0).length
          = c.table.length)
    (hreg : e.registerPrefix q full = some e') :
    Covered e' w ∧ e'.sessions = e.sessions := by
  unfold Engine.registerPrefix at hreg
  have htable : e.blockTable q.id = c.table := by
    unfold blockTable
    rw [hc]
  simp only [htable] at hreg
  split_ifs at hreg with hcond
  · obtain ⟨p, hp, rfl⟩ := map_eq_some_iff.mp hreg
    have hcov := h.register hc hfull hat (hfills hcond.1 hcond.2.2) hp
    exact ⟨hcov.congr rfl rfl rfl rfl rfl, rfl⟩
  · cases hreg
    exact ⟨h, rfl⟩

theorem Covered.demoteWatermark (h : Covered e w) (hd : e.demoteWatermark q = some e') :
    Covered e' w ∧ e'.sessions = e.sessions := by
  unfold Engine.demoteWatermark at hd
  simp only [] at hd
  split at hd
  · cases hd
    exact ⟨h, rfl⟩
  · split_ifs at hd
    · obtain ⟨p, hp, rfl⟩ := map_eq_some_iff.mp hd
      refine ⟨h.settle (demoteBlocks_settles ?_ hp), rfl⟩
      intro b hb
      have hb := mem_of_mem_take hb
      unfold blockTable at hb
      split at hb
      · rename_i c hc
        exact (h.seated q.id c hc).refs b hb
      · simp at hb
    · cases hd
      exact ⟨h, rfl⟩

theorem Covered.pinSession (h : Covered e w) :
    Covered (e.pinSession q) w ∧ (e.pinSession q).sessions = e.sessions := by
  unfold Engine.pinSession
  split_ifs
  · refine ⟨h.settle (.of_tree ?_), rfl⟩
    exact RadixTree.sweepExpiredPins_retains.trans RadixTree.pinBlocks_retains
  · exact ⟨h, rfl⟩

theorem Covered.endPass {ch : Chunk}
    (h : Covered { e with
      prefillProgress := update e.prefillProgress q.id (some ch.target) } w)
    (hc : e.sessions q.id = some c) (hfull : e.requestInputIds q.id = some ch.full)
    (hcommitted : c.committedTokens = ch.target)
    (hfills : e.radixEnabled → e.skipBlocks q.id < c.table.length →
      c.table.length * blockSize ≤ ch.target
        ∨ (e.pool.prefixTree.walk ch.full c.table.length e.pool.prefixTree.root 0).length
          = c.table.length)
    (hend : e.endPass q ch = some e') : Covered e' w ∧ e'.sessions = e.sessions := by
  unfold Engine.endPass at hend
  obtain ⟨e₁, h₁, hend⟩ := bind_eq_some_iff.mp hend
  obtain ⟨e₂, h₂, rfl⟩ := map_eq_some_iff.mp hend
  have hat : AtProgress { e with
      prefillProgress := update e.prefillProgress q.id (some ch.target) } q.id c := by
    unfold AtProgress
    dsimp only
    rw [update_self]
    exact hcommitted
  obtain ⟨hcov₁, hs₁⟩ := h.registerPrefix hc hfull hat (by rw [hcommitted]; exact hfills) h₁
  obtain ⟨hcov₂, hs₂⟩ := hcov₁.demoteWatermark h₂
  obtain ⟨hcov₃, hs₃⟩ := hcov₂.pinSession (q := q)
  exact ⟨hcov₃, hs₃.trans (hs₂.trans hs₁)⟩

/-- The chunk's forward pass, and the registration behind it. -/
theorem Covered.chunk (h : Covered e w) {ch : Chunk} (hfull : e.requestInputIds q.id = some ch.full)
    (hlt : ch.already < ch.target) (hle : ch.target ≤ ch.full.length)
    (hready : ∀ c, e.sessions q.id = some c → Ready e q ch c) {modelId : String}
    {res : Except String Unit} {r : Except String ℕ}
    (hrest : (match res with
      | .error err => some (e₁, .error err)
      | .ok () => (e₁.endPass q ch).map fun e => (e, .ok ch.tokens.length)) = some (e', r))
    (hdrive : e.driveForward modelId q ch.tokens = some (e₁, res)) :
    Covered e' (match e.sessions q.id, e'.sessions q.id with
      | some c, some c' => wrote c c' ch.tokens w
      | _, _ => w) := by
  have hnone : res ≠ .ok () → e₁ = e → Covered e' (match e.sessions q.id, e'.sessions q.id with
      | some c, some c' => wrote c c' ch.tokens w
      | _, _ => w) := by
    rintro hres rfl
    cases res with
    | ok u => exact absurd rfl hres
    | error err =>
      cases hrest
      rcases hc : e₁.sessions q.id with - | c
      · exact h
      · dsimp only
        rw [wrote_self]
        exact h
  unfold Engine.driveForward at hdrive
  split at hdrive
  · cases hdrive
    exact hnone (by simp) rfl
  split at hdrive
  · cases hdrive
    exact hnone (by simp) rfl
  rename_i c hc
  obtain ⟨⟨c', p', res'⟩, hrun, hdrive⟩ := map_eq_some_iff.mp hdrive
  cases hdrive
  obtain ⟨hat, hcommitted, hfills⟩ := hready c hc
  have htokens : ch.tokens
      = (ch.full.drop c.committedTokens).take (ch.target - c.committedTokens) := by
    rw [hcommitted]
    rfl
  rw [hc]
  cases res with
  | error err =>
    cases hrest
    dsimp only
    rw [update_self]
    refine h.forward_error hc hfull hat ?_ hrun
    intro hnil
    have := congrArg List.length hnil
    rw [Chunk.tokens, length_take, length_drop, length_nil] at this
    omega
  | ok u =>
    obtain ⟨e₂, hend, hr⟩ := map_eq_some_iff.mp hrest
    cases hr
    obtain ⟨hcov, hcommitted', htable, htree⟩ :=
      h.forward_ok hc hfull hat (by omega) hle htokens hrun
    have hsess : (update e.sessions q.id (some c')) q.id = some c' := update_self _ _ _
    have hfilled : e.radixEnabled → e.skipBlocks q.id < c'.table.length →
        c'.table.length * blockSize ≤ ch.target
          ∨ (p'.prefixTree.walk ch.full c'.table.length p'.prefixTree.root 0).length
            = c'.table.length := by
      intro henabled hskip
      rw [← htree]
      rcases hfills henabled (fun l hl => Forward.run_ok_failAt hrun l (Nat.zero_le _) (by omega))
        with hle' | hle' | hwalk
      · exact absurd (lt_of_lt_of_le hskip htable) (Nat.not_lt.mpr hle')
      · exact .inl ((Nat.mul_le_mul_right _ htable).trans hle')
      · refine .inr ?_
        rw [RadixTree.walk_take htable, length_take, hwalk]
        exact min_eq_left htable
    obtain ⟨hcov', hs⟩ := hcov.endPass (e := { e with
      pool := p', sessions := update e.sessions q.id (some c') }) (c := c') hsess hfull hcommitted'
      hfilled hend
    rw [hs]
    dsimp only
    rw [update_self]
    exact hcov'

theorem Covered.step {h h' : History} (hcov : Covered h.engine h.written)
    (hreal : h.engine.RealIds q) (hfills : h.engine.FillsBlocks q) (hstep : h.step q = some h') :
    Covered h'.engine h'.written := by
  unfold History.step at hstep
  obtain ⟨⟨e₁, chunk⟩, hbegin, hstep⟩ := bind_eq_some_iff.mp hstep
  obtain ⟨⟨e', r⟩, hdrive, rfl⟩ := map_eq_some_iff.mp hstep
  obtain ⟨hcov₁, hchunk⟩ := hcov.beginPass hreal hfills hbegin
  unfold Engine.drivePrefillInner at hdrive
  rw [hbegin] at hdrive
  dsimp only [bind_some] at hdrive
  cases chunk with
  | none =>
    cases hdrive
    dsimp only
    rcases e₁.sessions q.id with - | c <;> exact hcov₁
  | some ch =>
    obtain ⟨hfull, hlt, hle, hready⟩ := hchunk ch rfl
    rcases hmodel : e₁.modelForRequest q.id with - | modelId
    · -- no model runs the chunk, and the session stays as it is
      rw [hmodel] at hdrive
      cases hdrive
      dsimp only
      rcases e₁.sessions q.id with - | c
      · exact hcov₁
      · dsimp only
        rw [wrote_self]
        exact hcov₁
    · rw [hmodel] at hdrive
      obtain ⟨⟨e₂, res⟩, hforward, hrest⟩ := bind_eq_some_iff.mp hdrive
      have hcov' := hcov₁.chunk hfull hlt hle
        (fun c hc => hready c hc (by rw [hmodel]; simp)) hrest hforward
      dsimp only
      rcases he₁ : e₁.sessions q.id with - | c <;> rw [he₁] at hcov'
      · exact hcov'
      · rcases he' : e'.sessions q.id with - | c' <;> rw [he'] at hcov' <;> exact hcov'

theorem covered_new (cfg : Config) : Covered (.new cfg) fun _ _ _ => none := by
  have hfresh : ∀ id c, (Engine.new cfg).sessions id = some c →
      c = .new cfg.pool.pool cfg.pool.numHeads cfg.pool.headDim blockSize := by
    intro id c hc
    unfold Engine.new at hc
    dsimp only at hc
    split_ifs at hc
    exact (Option.some.inj hc).symm
  refine ⟨cfg.layers_pos, rfl, nodup_range, fun _ _ => rfl, fun _ _ => rfl,
    RadixTree.grounded_new _ _, fun b hb => absurd hb RadixTree.not_hasBlock_new, ?_, ?_, ?_⟩
  · intro id c hc
    rw [hfresh id c hc]
    exact ⟨rfl, Nat.zero_le _, fun b hb => by simp [PagedKvCache.new] at hb⟩
  · intro id c full hc _ _
    rw [hfresh id c hc]
    constructor <;> simp [PagedKvCache.new, blocksFor, blockSize]
  · intro id id' c c' i b _ hc _ _ _ hb
    rw [hfresh id c hc] at hb
    simp [PagedKvCache.new] at hb

theorem Covered.computed {h : History} (hcov : Covered h.engine h.written) {key : TokenKey} {b : ℕ}
    (hr : Rows h.written h.engine.numLayers key b) : h.Computed key b := by
  obtain ⟨block, hlen, hkey, hrows⟩ := hr
  refine ⟨block, hlen, ?_, hrows⟩
  rw [blockKey_eq hcov.keySize, drop_zero, take_of_length_le hlen.le]
  exact hkey

/-- In a run whose passes fill the blocks they register, every block that a lookup returns is
computed for the tokens looked up, and so is every block registered. -/
theorem reach_hitsComputed (cfg : Config) (h : History)
    (hrun : Steps.Reach History.step (fun h q => h.engine.RealIds q ∧ h.engine.FillsBlocks q)
      (.new cfg) h) : h.HitsComputed ∧ h.RegistersComputed := by
  have hcov : Covered h.engine h.written :=
    hrun.invariant (I := fun h => Covered h.engine h.written) (covered_new cfg)
      fun _ _ _ hcov hok hstep => hcov.step hok.1 hok.2 hstep
  refine ⟨?_, ?_⟩
  · intro tokens i b hb
    have hr := (hcov.grounded.matchPrefix hb).2
    rw [hcov.keySize] at hr
    exact hcov.computed hr
  · intro p key c hc
    exact hcov.computed (hcov.grounded.link p key c hc).2.2

namespace Forward

def tiny : Forward where
  k _ chunk := ⟨[chunk.length, 1], chunk⟩
  v _ chunk := ⟨[chunk.length, 1], chunk⟩
  env _ := ⟨fun _ _ => 0, fun _ => .ok (), fun _ => none⟩
  failAt := none
  error := ""
  fits _ _ := ⟨rfl, Nat.one_pos⟩

end Forward

namespace Config

/-- One layer, a pool of four pages, and the prompts of requests 0 and 1. -/
def tiny (prompts : List (List UInt32)) : Config where
  pool := .tiny 4 none
  numLayers := 1
  layers_pos := Nat.one_pos
  radixEnabled := true
  models _ := some ⟨false⟩
  modelForRequest _ := some "model"
  requestInputIds id := prompts[id]?
  requestSession _ := false
  hasSession _ := true
  kvWatermarkBlocks := none
  kvKeepTailBlocks := 2
  sessionPinSecs := 300

end Config

namespace Pass

/-- A pass after the scheduler has budgeted `consumed` tokens of the prompt. -/
def tiny (id prompt consumed : ℕ) : Pass where
  id := id
  running := [⟨id, prompt, 0, consumed, []⟩]
  forward := .tiny
  nowClaim _ := 0
  nowRegister _ := 0
  nowPin := 0
  io _ := .ok ()

end Pass

/-- Request 0 fills a block, and request 1 takes it. -/
theorem two_hitsComputed : ∃ h, Steps.Reach History.step
      (fun h q => h.engine.RealIds q ∧ h.engine.FillsBlocks q)
      (.new (.tiny [List.replicate 16 7, List.replicate 17 7])) h
    ∧ h.HitsComputed ∧ h.RegistersComputed
    ∧ (h.engine.pool.matchPrefix (List.replicate 16 7)).1 = [0] := by
  have hmatch : (Steps.exec History.step (fun h q => h.engine.RealIds q ∧ h.engine.FillsBlocks q)
      (.new (.tiny [List.replicate 16 7, List.replicate 17 7]))
      [.tiny 0 16 16, .tiny 1 17 16]).map (fun h =>
        (h.engine.pool.matchPrefix (List.replicate 16 7)).1) = some [0] := by decide +kernel
  obtain ⟨h, hrun, hh⟩ := map_eq_some_iff.mp hmatch
  have hreach := Steps.reach_of_exec hrun
  obtain ⟨h1, h2⟩ := reach_hitsComputed _ _ hreach
  exact ⟨h, hreach, h1, h2, hh⟩

/-- A chunk of one token of a prompt of 16, and the block is served. -/
theorem partial_block_served : ¬ ∀ (cfg : Config) (h : History),
    Steps.Reach History.step (fun h q => h.engine.RealIds q) (.new cfg) h → h.HitsComputed := by
  intro hall
  have hserved : (Steps.exec History.step (fun h q => h.engine.RealIds q)
      (.new (.tiny [List.replicate 16 7])) [.tiny 0 16 1]).map (fun h =>
        ((h.engine.pool.matchPrefix (List.replicate 16 7)).1, h.written 0 0 1, h.engine.numLayers))
      = some ([0], none, 1) := by decide +kernel
  obtain ⟨h, hrun, hh⟩ := map_eq_some_iff.mp hserved
  rw [Prod.mk.injEq, Prod.mk.injEq] at hh
  obtain ⟨hmatch, hwritten, hlayers⟩ := hh
  obtain ⟨block, hlen, -, hrows⟩ := hall _ _ (Steps.reach_of_exec hrun) (List.replicate 16 7) 0 0
    (by rw [hmatch]; rfl)
  have hrow := hrows 0 (by rw [hlayers]; exact Nat.one_pos) 1 (by decide)
  rw [hwritten, getElem?_eq_getElem (by rw [hlen]; decide)] at hrow
  cases hrow

end Grim.Engine
