import Grim.Engine.Claiming

/-!
# Which blocks of a prompt its passes register

A pass skips the blocks seeded and, added to these, the blocks registered before; but the count of
the latter has the seeded blocks in it already.  So a request that took a prefix skips as many
blocks too many from its second registration on.  A run in which no pass comes to that registers
each full block of a prompt behind the seeded ones once.
-/

namespace Grim.Engine

open KvTransport Memory PagedKvCache
open Function (update update_self update_of_ne)

variable {e e₁ e' : Engine} {q : Pass} {full : List UInt32} {id prompt a : ℕ}
  {p p' : KvBlockPool} {c c' : PagedKvCache} {r : ℕ → ℕ}

theorem insertRecurrent_refs {tokens : List UInt32} {blocks : List ℕ} {skip : ℕ} {now : ℕ → ℕ}
    (h : p.insertPrefixWithRecurrentStateAt tokens blocks skip now = some p') :
    ∃ t, p.prefixTree.insertAt tokens blocks skip now = some t
      ∧ RadixTree.SameShape t p'.prefixTree ∧ ∀ n, p'.prefixTree.refs n = t.refs n := by
  obtain ⟨t, ht, h⟩ := Option.map_eq_some_iff.mp h
  simp only [] at h
  have htouch : RadixTree.Retains t (t.touch tokens fun k => now (blocks.length + k)) :=
    RadixTree.touchNodes_retains
  refine ⟨t, ht, ?_⟩
  split at h
  · split at h <;> subst h
    · refine ⟨(htouch.trans RadixTree.attachRecurrentState_retains).shape, fun n => ?_⟩
      rw [RadixTree.attachRecurrentState_refs]
      exact RadixTree.touchNodes_refs n
    · exact ⟨htouch.shape, RadixTree.touchNodes_refs⟩
  · subst h
    exact ⟨htouch.shape, RadixTree.touchNodes_refs⟩

theorem registerPrefix_cases (hc : e.sessions q.id = some c)
    (h : e.registerPrefix q full = some e') :
    (e' = e ∧ ¬ (e.radixEnabled ∧ full ≠ []
        ∧ e.seededBlocks q.id + e.registeredBlocks q.id < c.table.length))
      ∨ ∃ p', (e.radixEnabled ∧ full ≠ []
          ∧ e.seededBlocks q.id + e.registeredBlocks q.id < c.table.length)
        ∧ e.pool.insertPrefixWithRecurrentStateAt full c.table
          (e.seededBlocks q.id + e.registeredBlocks q.id) q.nowRegister = some p'
        ∧ e' = { e with
          pool := p'
          radixRegisteredBlocks := update e.radixRegisteredBlocks q.id (some c.table.length) } := by
  have htable : e.blockTable q.id = c.table := by
    unfold blockTable
    rw [hc]
  unfold registerPrefix at h
  simp only [htable] at h
  split_ifs at h with hcond
  · obtain ⟨p', hp, rfl⟩ := Option.map_eq_some_iff.mp h
    refine .inr ⟨p', hcond, hp, ?_⟩
    rw [Nat.add_sub_cancel' (Nat.le_of_lt hcond.2.2)]
  · cases h
    exact .inl ⟨rfl, hcond⟩

theorem Booked.le_walk (h : Booked e r id prompt) {k i : ℕ} (hi : i ≤ k)
    (hb : i ≤ e.seededBlocks id ∨ i ≤ e.registeredBlocks id) :
    i ≤ (e.pool.prefixTree.walk (e.fullInput id prompt) k e.pool.prefixTree.root 0).length := by
  cases i with
  | zero => exact Nat.zero_le _
  | succ i =>
    obtain ⟨n, hn⟩ := h.path i hb
    rw [RadixTree.nodeAt_eq hi] at hn
    exact (List.getElem?_eq_some_iff.mp hn).1

theorem Booked.first_claimed (h : Booked e r id prompt) {k : ℕ}
    (hk : e.seededBlocks id + e.registeredBlocks id < k)
    (hkeeps : e.seededBlocks id = 0 ∨ e.registeredBlocks id = 0
      ∨ prompt / blockSize ≤ e.registeredBlocks id
      ∨ e.pool.prefixTree.nodeAt (e.fullInput id prompt) (e.registeredBlocks id) = none) {i : ℕ}
    (hi : i < prompt / blockSize) :
    min (e.seededBlocks id + e.registeredBlocks id)
        (e.pool.prefixTree.walk (e.fullInput id prompt) k e.pool.prefixTree.root 0).length ≤ i
      ↔ e.seededBlocks id ≤ i ∧ e.registeredBlocks id ≤ i := by
  have hseeded := h.le_walk (k := k) (by omega) (.inl le_rfl)
  have hreg := h.le_walk (k := k) (by omega) (.inr le_rfl)
  have hcursor := h.cursor
  rcases hkeeps with hz | hz | hz | hnone
  · omega
  · omega
  · omega
  · rw [RadixTree.nodeAt_eq (lt_of_le_of_lt (Nat.le_add_left _ _) hk)] at hnone
    have hle := List.getElem?_eq_none_iff.mp hnone
    omega

theorem Booked.raised_register (h : Booked e r id prompt) (hpar : e.pool.prefixTree.Parented)
    {table : List ℕ} {now : ℕ → ℕ} {t : RadixTree}
    (ht : e.pool.prefixTree.insertAt (e.fullInput id prompt) table
      (e.seededBlocks id + e.registeredBlocks id) now = some t)
    (hk : e.seededBlocks id + e.registeredBlocks id < table.length)
    (hkeeps : e.seededBlocks id = 0 ∨ e.registeredBlocks id = 0
      ∨ prompt / blockSize ≤ e.registeredBlocks id
      ∨ e.pool.prefixTree.nodeAt (e.fullInput id prompt) (e.registeredBlocks id) = none) {i n : ℕ}
    (hi : i < prompt / blockSize) (hn : t.nodeAt (e.fullInput id prompt) i = some n) :
    r n + (t.refs n - e.pool.prefixTree.refs n)
      = if e.seededBlocks id ≤ i ∧ i < table.length then 1 else 0 := by
  obtain ⟨hgrows, hpar', -, hraises⟩ := hpar.insertAt_raises rfl ht
  have hfirst := h.first_claimed hk hkeeps hi
  have hcursor := h.cursor
  rw [hraises i n hn, Nat.add_sub_cancel_left, h.raised_grown hpar hgrows hpar' hi hn,
    if_congr (and_congr_left' hfirst) rfl rfl]
  split_ifs <;> omega

theorem progress_mark {target : ℕ}
    (h : e'.prefillProgress = update e.prefillProgress id (some target)) :
    e'.progress id = target ∧ ∀ id' ≠ id, e'.progress id' = e.progress id' := by
  unfold progress
  rw [h]
  exact ⟨by simp, fun id' hid => by simp [hid]⟩

theorem blocks_le_blocksFor (n : ℕ) : n / blockSize ≤ blocksFor n := by
  unfold blocksFor blockSize
  omega

theorem Booked.mark (h : Booked e r id prompt) {target : ℕ} (hlt : e.progress id < target)
    (hcommitted : ∀ c, e.sessions id = some c → target ≤ c.committedTokens)
    (hwhole : e.radixEnabled → target = prompt → prompt / blockSize ≤ e.registeredBlocks id) :
    Beside e { e with prefillProgress := update e.prefillProgress id (some target) } id
      ∧ Booked { e with prefillProgress := update e.prefillProgress id (some target) } r id
        prompt := by
  have hmark : Engine.prefillProgress
      { e with prefillProgress := update e.prefillProgress id (some target) }
      = update e.prefillProgress id (some target) := rfl
  obtain ⟨htarget, hother⟩ := progress_mark hmark
  refine ⟨⟨rfl, rfl, rfl, .refl _, fun _ _ => rfl, hother, fun _ _ => rfl, fun _ _ => rfl⟩,
    ?_, h.cursor, ?_, h.path, h.raised, h.fresh, ?_, ?_⟩ <;> rw [htarget]
  · exact h.seeded.trans hlt.le
  · intro hzero
    omega
  · exact hcommitted
  · exact hwhole

theorem Booked.insert (h : Booked e r id prompt) (hpar : e.pool.prefixTree.Parented)
    {table : List ℕ} {now : ℕ → ℕ} {target : ℕ}
    (hp : e.pool.insertPrefixWithRecurrentStateAt (e.fullInput id prompt) table
      (e.seededBlocks id + e.registeredBlocks id) now = some p')
    (hk : e.seededBlocks id + e.registeredBlocks id < table.length)
    (hkeeps : e.seededBlocks id = 0 ∨ e.registeredBlocks id = 0
      ∨ prompt / blockSize ≤ e.registeredBlocks id
      ∨ e.pool.prefixTree.nodeAt (e.fullInput id prompt) (e.registeredBlocks id) = none)
    (hlt : e.progress id < target)
    (hcommitted : ∀ c, e.sessions id = some c → target ≤ c.committedTokens)
    (htable : blocksFor target ≤ table.length)
    (he' : e' = { e with
      pool := p'
      prefillProgress := update e.prefillProgress id (some target)
      radixRegisteredBlocks := update e.radixRegisteredBlocks id (some table.length) }) :
    Beside e e' id
      ∧ Booked e' (fun n => r n + (p'.prefixTree.refs n - e.pool.prefixTree.refs n)) id
        prompt := by
  obtain ⟨t, ht, hshape, hrefs⟩ := insertRecurrent_refs hp
  obtain ⟨hgrows, -, hnodes, -⟩ := hpar.insertAt_raises rfl ht
  have htree := hgrows.trans hshape.grows
  have hmark : e'.prefillProgress = update e.prefillProgress id (some target) := by rw [he']
  obtain ⟨htarget, hother⟩ := progress_mark hmark
  have hregistered : e'.registeredBlocks id = table.length := by
    rw [he']
    simp [registeredBlocks]
  have hseeded : e'.seededBlocks = e.seededBlocks := by
    rw [he']
    rfl
  have hpool : e'.pool = p' := by rw [he']
  have hsessions : e'.sessions = e.sessions := by rw [he']
  have hfull : e'.fullInput id prompt = e.fullInput id prompt := by
    rw [he']
    rfl
  have hbeside : Beside e e' id := by
    refine ⟨by rw [he'], by rw [he'], by rw [he'], hpool ▸ htree, fun _ _ => by rw [hsessions],
      hother, fun _ _ => by rw [hseeded], fun id' hid => ?_⟩
    rw [he']
    simp [registeredBlocks, hid]
  refine ⟨hbeside, ?_⟩
  refine ⟨?_, ?_, ?_, ?_, ?_, ?_, ?_, ?_⟩
  · rw [hseeded, htarget]
    exact h.seeded.trans hlt.le
  · rw [hseeded, hregistered]
    exact .inr ((Nat.le_add_right _ _).trans hk.le)
  · rw [htarget]
    intro hzero
    omega
  · intro i hi
    rw [hseeded, hregistered] at hi
    rw [hpool, hfull, hshape.nodeAt]
    exact hnodes i (by omega)
  · intro i hi n hn
    rw [hpool, hfull, hshape.nodeAt] at hn
    rw [hseeded, hregistered, hrefs]
    exact h.raised_register hpar ht hk hkeeps hi hn
  · intro n hn
    rw [hpool] at hn
    rw [h.fresh n (htree.size.trans hn)]
    unfold RadixTree.refs
    rw [if_neg (Nat.not_lt.mpr hn)]
    omega
  · intro c hc
    rw [hsessions] at hc
    rw [htarget]
    exact hcommitted c hc
  · rw [htarget, hregistered]
    rintro - rfl
    exact (blocks_le_blocksFor _).trans htable

theorem Booked.register (h : Booked e r q.id prompt) (hs : Sound e.pool e.sessions)
    (hc : e.sessions q.id = some c) (hfull : e.fullInput q.id prompt = full) (hne : full ≠ [])
    {target : ℕ} (hlt : e.progress q.id < target) (hcommitted : target ≤ c.committedTokens)
    (htable : blocksFor target ≤ c.table.length)
    (hkeeps : e.seededBlocks q.id = 0 ∨ e.registeredBlocks q.id = 0
      ∨ prompt / blockSize ≤ e.registeredBlocks q.id
      ∨ if e.seededBlocks q.id + e.registeredBlocks q.id < c.table.length then
          e.pool.prefixTree.nodeAt full (e.registeredBlocks q.id) = none
        else target < prompt)
    (hreg : registerPrefix { e with
      prefillProgress := update e.prefillProgress q.id (some target) } q full = some e') :
    Sound e'.pool e'.sessions ∧ Beside e e' q.id
      ∧ Booked e' (fun n => r n + (e'.pool.prefixTree.refs n - e.pool.prefixTree.refs n)) q.id
        prompt := by
  have hsession : ∀ c₁, e.sessions q.id = some c₁ → target ≤ c₁.committedTokens := by
    intro c₁ hc₁
    obtain rfl := Option.some.inj (hc.symm.trans hc₁)
    exact hcommitted
  subst hfull
  have hcases := registerPrefix_cases (e := { e with
    prefillProgress := update e.prefillProgress q.id (some target) }) hc hreg
  rcases hcases with ⟨rfl, hnot⟩ | ⟨p', ⟨-, -, hskip⟩, hp, rfl⟩
  · have hwhole : e.radixEnabled → target = prompt →
        prompt / blockSize ≤ e.registeredBlocks q.id := by
      rintro hon rfl
      have hle : c.table.length ≤ e.seededBlocks q.id + e.registeredBlocks q.id :=
        Nat.le_of_not_lt fun hlt => hnot ⟨hon, hne, hlt⟩
      rw [if_neg (Nat.not_lt.mpr hle)] at hkeeps
      -- with nothing seeded the count reaches the table's end; the seeded blocks alone do not
      have hseeded := h.seeded
      unfold blocksFor at htable
      unfold blockSize at hseeded hkeeps htable ⊢
      omega
    obtain ⟨hb, hbooked⟩ := h.mark hlt hsession hwhole
    have hr : (fun n => r n + (e.pool.prefixTree.refs n - e.pool.prefixTree.refs n)) = r := by
      funext n
      rw [Nat.sub_self, Nat.add_zero]
    refine ⟨hs, hb, ?_⟩
    dsimp only
    rw [hr]
    exact hbooked
  · have hskip : e.seededBlocks q.id + e.registeredBlocks q.id < c.table.length := hskip
    rw [if_pos hskip] at hkeeps
    exact ⟨hs.register hc hp, h.insert hs.parented hp hskip hkeeps hlt hsession htable rfl⟩

theorem Booked.settle (h : Booked e r id prompt) (hs : Sound e.pool e.sessions)
    (hset : Settles e.pool p') : Sound p' e.sessions ∧ Beside e { e with pool := p' } id
      ∧ Booked { e with pool := p' } r id prompt := by
  have hs' := hs.settle hset
  have htree := hset.tree.shape.grows
  exact ⟨hs', .of_pool htree,
    h.frame hs.parented hs'.parented rfl rfl htree rfl rfl rfl fun c hc => ⟨c, hc, le_rfl⟩⟩

theorem Sound.demoteWatermark (hs : Sound e.pool e.sessions) (hd : e.demoteWatermark q = some e') :
    ∃ p', Settles e.pool p' ∧ e' = { e with pool := p' } := by
  unfold Engine.demoteWatermark at hd
  simp only [] at hd
  split at hd
  · cases hd
    exact ⟨e.pool, .refl _, rfl⟩
  · split_ifs at hd
    · obtain ⟨p, hp, rfl⟩ := Option.map_eq_some_iff.mp hd
      refine ⟨p, demoteBlocks_settles ?_ hp, rfl⟩
      intro b hb
      have hb := List.mem_of_mem_take hb
      unfold blockTable at hb
      split at hb
      · rename_i c hc
        exact hs.table_ref q.id c hc b hb
      · simp at hb
    · cases hd
      exact ⟨e.pool, .refl _, rfl⟩

theorem pinSession_settles :
    ∃ p', Settles e.pool p' ∧ e.pinSession q = { e with pool := p' } := by
  unfold Engine.pinSession
  split_ifs
  · exact ⟨_, .of_tree (RadixTree.sweepExpiredPins_retains.trans RadixTree.pinBlocks_retains), rfl⟩
  · exact ⟨e.pool, .refl _, rfl⟩

theorem Booked.endPass (h : Booked e r q.id prompt) (hs : Sound e.pool e.sessions)
    (hc : e.sessions q.id = some c) {ch : Chunk} (hfull : e.fullInput q.id prompt = ch.full)
    (hne : ch.full ≠ []) (hlt : e.progress q.id < ch.target)
    (hcommitted : ch.target ≤ c.committedTokens) (htable : blocksFor ch.target ≤ c.table.length)
    (hkeeps : e.seededBlocks q.id = 0 ∨ e.registeredBlocks q.id = 0
      ∨ prompt / blockSize ≤ e.registeredBlocks q.id
      ∨ if e.seededBlocks q.id + e.registeredBlocks q.id < c.table.length then
          e.pool.prefixTree.nodeAt ch.full (e.registeredBlocks q.id) = none
        else ch.target < prompt)
    (hend : e.endPass q ch = some e') :
    ∃ e₁, registerPrefix { e with
        prefillProgress := update e.prefillProgress q.id (some ch.target) } q ch.full = some e₁
      ∧ Sound e'.pool e'.sessions ∧ Beside e e' q.id
      ∧ Booked e' (fun n => r n + (e₁.pool.prefixTree.refs n - e.pool.prefixTree.refs n)) q.id
        prompt := by
  obtain ⟨e₁, h₁, hend⟩ := Option.bind_eq_some_iff.mp hend
  obtain ⟨e₂, h₂, rfl⟩ := Option.map_eq_some_iff.mp hend
  obtain ⟨hs₁, hb₁, hbooked₁⟩ :=
    h.register hs hc hfull hne hlt hcommitted htable hkeeps h₁
  obtain ⟨p₂, hset₂, rfl⟩ := hs₁.demoteWatermark h₂
  obtain ⟨hs₂, hb₂, hbooked₂⟩ := hbooked₁.settle hs₁ hset₂
  obtain ⟨p₃, hset₃, hpin⟩ := pinSession_settles (e := { e₁ with pool := p₂ }) (q := q)
  obtain ⟨hs₃, hb₃, hbooked₃⟩ := hbooked₂.settle hs₂ hset₃
  rw [hpin]
  exact ⟨e₁, h₁, hs₃, hb₁.trans (hb₂.trans hb₃), hbooked₃⟩

theorem KeepsCount.after (hk : e.KeepsCount q prompt) (hcl : Claims e e₁ q.id)
    (hstart : Kept e e₁ q.id ∨ e₁.registeredBlocks q.id = 0) {modelId : String}
    (hmodel : e₁.modelForRequest q.id = some modelId) (hmodels : e₁.models modelId ≠ none)
    (hc : e₁.sessions q.id = some c) {tokens : List UInt32}
    (hrun : q.forward.run tokens e₁.numLayers 0 c p = some (c', p', .ok ()))
    (hlt : e₁.progress q.id < min q.consumedTokens prompt)
    (htable : c'.table.length = max c.table.length
      (blocksFor (c.committedTokens + (min q.consumedTokens prompt - e₁.progress q.id)))) :
    e₁.seededBlocks q.id = 0 ∨ e₁.registeredBlocks q.id = 0
      ∨ prompt / blockSize ≤ e₁.registeredBlocks q.id
      ∨ if e₁.seededBlocks q.id + e₁.registeredBlocks q.id < c'.table.length then
          e₁.pool.prefixTree.nodeAt (e₁.fullInput q.id prompt) (e₁.registeredBlocks q.id) = none
        else min q.consumedTokens prompt < prompt := by
  rcases hstart with hkept | hzero
  swap
  · exact .inr (.inl hzero)
  unfold KeepsCount at hk
  simp only [] at hk
  rw [hkept.progress] at hlt htable
  rw [hkept.sessions] at hc
  rw [hc] at hk
  rw [hkept.seeded, hcl.registered, hcl.beside.fullInput, hcl.shape.nodeAt, htable]
  rcases hk with hk | hk | hk | hk | hk | ⟨l, hl, hfail⟩ | hk
  · exact .inl hk
  · exact .inr (.inl hk)
  · exact .inr (.inr (.inl hk))
  · omega
  · rw [hcl.modelForRequest] at hmodel
    rw [hcl.models] at hmodels
    rw [hmodel] at hk
    exact absurd hk hmodels
  · rw [hcl.beside.numLayers] at hrun
    exact absurd hfail (Forward.run_ok_failAt hrun l (Nat.zero_le l) (by omega))
  · exact .inr (.inr (.inr hk))

theorem Chunk.length_tokens {ch : Chunk} (h : ch.target ≤ ch.full.length) :
    ch.tokens.length = ch.target - ch.already := by
  rw [Chunk.tokens, List.length_take, List.length_drop]
  omega

theorem Booked.beginPass (h : Booked e r q.id prompt) (hs : Sound e.pool e.sessions)
    (hq : q.Of prompt) {chunk : Option Chunk} (hbegin : e.beginPass q = some (e₁, chunk)) :
    Sound e₁.pool e₁.sessions ∧ Claims e e₁ q.id ∧ Booked e₁ r q.id prompt
      ∧ ∀ ch, chunk = some ch → (Kept e e₁ q.id ∨ e₁.registeredBlocks q.id = 0)
        ∧ e₁.fullInput q.id prompt = ch.full ∧ ch.already = e₁.progress q.id
        ∧ ch.already < ch.target ∧ ch.target ≤ ch.full.length
        ∧ ch.target = min q.consumedTokens prompt := by
  rcases beginPass_cases hbegin with ⟨rfl, rfl, -⟩ | ⟨n, a, hn, hclaim, hchunk⟩
  · exact ⟨hs, .of_settles (.refl _), h, fun ch hch => by cases hch⟩
  obtain rfl := hq.eq hn
  obtain ⟨hs₁, hcl, hstart⟩ := hs.claimPrefix hclaim
  have htook : Kept e e₁ q.id ∨ (e.fullInput q.id n).length = n ∧ e.fullInput q.id n
      = e.fullInput q.id n ∧ Took e e₁ q.id (e.fullInput q.id n) a := by
    rcases hstart with ⟨hkept, -⟩ | ⟨hreal, htook⟩
    · exact .inl hkept
    · exact .inr ⟨length_of_real hreal, rfl, htook⟩
  refine ⟨hs₁, hcl, h.claim hs hs₁ hcl htook, ?_⟩
  rintro ch rfl
  rcases hchunk with ⟨-, hch⟩ | ⟨hlt, hle, hch⟩ <;> cases hch
  refine ⟨?_, hcl.beside.fullInput _ _, ?_, hlt, hle, rfl⟩
  · rcases hstart with ⟨hkept, -⟩ | ⟨-, htook⟩
    · exact .inl hkept
    · exact .inr (hcl.registered.trans (h.started htook.fresh))
  · rcases hstart with ⟨hkept, rfl⟩ | ⟨-, htook⟩
    · exact hkept.progress.symm
    · exact htook.progress.symm

theorem raisedBy_none (h : e.registering q = none) : e.raisedBy q r = r := by
  unfold raisedBy
  rw [h]

theorem Booked.pass (h : Booked e r q.id prompt) (hs : Sound e.pool e.sessions)
    (hlayers : 0 < e.numLayers) (hq : q.Of prompt) (hk : e.KeepsCount q prompt)
    {res : Except String ℕ} (hdrive : e.drivePrefillInner q = some (e', res)) :
    Sound e'.pool e'.sessions ∧ Beside e e' q.id ∧ Booked e' (e.raisedBy q r) q.id prompt := by
  obtain ⟨⟨e₁, chunk⟩, hbegin, hdrive⟩ := Option.bind_eq_some_iff.mp hdrive
  obtain ⟨hs₁, hcl, hbooked₁, hchunk⟩ := h.beginPass hs hq hbegin
  rcases chunk with - | ch
  · cases hdrive
    have hnone : e.registering q = none := by
      unfold registering
      rw [hbegin]
      rfl
    rw [raisedBy_none hnone]
    exact ⟨hs₁, hcl.beside, hbooked₁⟩
  obtain ⟨hstart, hfull, hat, hlt, hfit, htarget⟩ := hchunk ch rfl
  rcases hm : e₁.modelForRequest q.id with - | modelId <;> simp only [hm] at hdrive
  · cases hdrive
    have hnone : e.registering q = none := by
      unfold registering
      rw [hbegin]
      simp only [Option.bind_some, hm]
    rw [raisedBy_none hnone]
    exact ⟨hs₁, hcl.beside, hbooked₁⟩
  obtain ⟨⟨e₂, outcome⟩, hforward, hdrive⟩ := Option.bind_eq_some_iff.mp hdrive
  have hfailed : ∀ err, outcome = .error err → e.raisedBy q r = r := by
    rintro err rfl
    refine raisedBy_none ?_
    unfold registering
    rw [hbegin]
    simp only [Option.bind_some, hm, hforward]
  rcases driveForward_cases hforward with ⟨rfl, hne⟩ | ⟨c, c', p', hmodels, hc, hrun, rfl⟩
  · rcases outcome with err | u
    · cases hdrive
      rw [hfailed err rfl]
      exact ⟨hs₁, hcl.beside, hbooked₁⟩
    · exact absurd rfl hne
  have hlen := Chunk.length_tokens hfit
  have htokens : ch.tokens ≠ [] := by
    rw [← List.length_pos_iff, hlen]
    omega
  have hx := Forward.run_extends (L := e₁.numLayers) htokens hs₁.quiet (by omega) hrun
  obtain ⟨hs₂, hb₂, hbooked₂⟩ := hbooked₁.forward hs₁ hc hx
  rcases outcome with err | u
  · cases hdrive
    rw [hfailed err rfl]
    exact ⟨hs₂, hcl.beside.trans hb₂, hbooked₂⟩
  obtain ⟨e₃, hend, hdrive⟩ := Option.map_eq_some_iff.mp hdrive
  cases hdrive
  obtain ⟨hcommitted, htable⟩ :=
    run_room hs₁.quiet htokens (hcl.beside.numLayers ▸ hlayers) hrun
  have hstand := hbooked₁.committed c hc
  rw [hlen, hat, htarget] at htable
  rw [hlen] at hcommitted
  have hkeeps := hk.after hcl hstart hm hmodels hc hrun (by omega) htable
  rw [← htarget, hfull, ← extends_tree hx] at hkeeps
  have hroom : blocksFor ch.target ≤ c'.table.length := by
    rw [htable, ← htarget]
    exact le_max_of_le_right (blocksFor_mono (by omega))
  obtain ⟨e₄, hreg, hs₄, hb₄, hbooked₄⟩ := hbooked₂.endPass hs₂ (update_self _ _ _) hfull
    (List.ne_nil_of_length_pos (by omega)) (hat ▸ hlt) (by omega) hroom hkeeps hend
  have hraised : e.registering q = some ({ e₁ with
      pool := p'
      sessions := update e₁.sessions q.id (some c')
      prefillProgress := update e₁.prefillProgress q.id (some ch.target) }, e₄) := by
    unfold registering
    rw [hbegin]
    simp only [Option.bind_some, hm, hforward, hreg, Option.map_some]
  unfold raisedBy
  rw [hraised]
  exact ⟨hs₄, hcl.beside.trans (hb₂.trans hb₄), hbooked₄⟩

structure Claiming.Accounts (s : Claiming) (prompts : ℕ → ℕ) : Prop where
  sound : Sound s.engine.pool s.engine.sessions
  layers_pos : 0 < s.engine.numLayers
  booked : ∀ id, Booked s.engine (s.raised id) id (prompts id)

theorem accounts_new (cfg : Config) (prompts : ℕ → ℕ) : (Claiming.new cfg).Accounts prompts := by
  refine ⟨sound_new cfg, cfg.layers_pos, fun id => ?_⟩
  refine ⟨Nat.zero_le _, .inl rfl, fun _ => rfl, ?_, ?_, fun _ _ => rfl,
    fun _ _ => Nat.zero_le _, ?_⟩
  · rintro i (hi | hi) <;> exact absurd hi (Nat.not_lt_zero i)
  · intro i _ n _
    rw [if_neg fun hb => Nat.not_lt_zero i hb.2]
    rfl
  · intro _ hz
    have hz : prompts id = 0 := hz.symm
    rw [hz]
    exact Nat.zero_le _

theorem Claiming.Accounts.step {s s' : Claiming} {prompts : ℕ → ℕ} (h : s.Accounts prompts)
    (hq : q.Of (prompts q.id)) (hk : s.engine.KeepsCount q (prompts q.id))
    (hstep : s.step q = some s') : s'.Accounts prompts := by
  obtain ⟨⟨e', res⟩, hdrive, rfl⟩ := Option.map_eq_some_iff.mp hstep
  obtain ⟨hs, hb, hbooked⟩ := (h.booked q.id).pass h.sound h.layers_pos hq hk hdrive
  refine ⟨hs, hb.numLayers ▸ h.layers_pos, fun id => ?_⟩
  dsimp only
  by_cases hid : id = q.id
  · subst hid
    rw [update_self]
    exact hbooked
  · rw [update_of_ne hid]
    refine (h.booked id).frame h.sound.parented hs.parented hb.requestInputIds hb.radixEnabled
      hb.tree (hb.progress id hid) (hb.seeded id hid) (hb.registered id hid) fun c hc => ?_
    rw [hb.sessions id hid] at hc
    exact ⟨c, hc, le_rfl⟩

/-- In a run whose passes keep the count each request whose prompt is prefilled has registered its
full blocks once, but for those it took from the tree. -/
theorem registers_once (cfg : Config) (prompts : ℕ → ℕ) (s : Claiming)
    (hrun : Steps.Reach Claiming.step
      (fun s q => q.Of (prompts q.id) ∧ s.engine.KeepsCount q (prompts q.id)) (.new cfg) s) :
    ∀ id, s.engine.radixEnabled → s.engine.progress id = prompts id →
      s.RegistersOnce id (prompts id) := by
  have hacc := hrun.invariant (I := fun s => s.Accounts prompts) (accounts_new cfg prompts)
    fun _ _ _ h hok hstep => h.step hok.1 hok.2 hstep
  intro id hon hend i hi
  have h := hacc.booked id
  have hreg := lt_of_lt_of_le hi (h.whole hon hend)
  obtain ⟨n, hn⟩ := h.path i (.inr hreg)
  refine ⟨n, hn, ?_⟩
  rw [h.raised i hi n hn]
  split_ifs <;> omega

/-- Request 1 takes the block of request 0, and its passes end where none of its blocks is left
out. -/
theorem two_register_once : ∃ s, Steps.Reach Claiming.step
      (fun s q => q.Of (if q.id = 0 then 16 else 64)
        ∧ s.engine.KeepsCount q (if q.id = 0 then 16 else 64))
      (.new (.tiny [List.replicate 16 7, List.replicate 64 7])) s
    ∧ s.engine.seededBlocks 1 = 1 ∧ s.engine.progress 1 = 64 ∧ s.RegistersOnce 1 64 := by
  have hsome : (Steps.exec Claiming.step (fun s q => q.Of (if q.id = 0 then 16 else 64)
        ∧ s.engine.KeepsCount q (if q.id = 0 then 16 else 64))
      (.new (.tiny [List.replicate 16 7, List.replicate 64 7]))
      [.tiny 0 16 16, .tiny 1 64 32, .tiny 1 64 64]).map (fun s =>
        (s.engine.seededBlocks 1, s.engine.progress 1, s.engine.radixEnabled))
      = some (1, 64, true) := by decide +kernel
  obtain ⟨s, hrun, hs⟩ := Option.map_eq_some_iff.mp hsome
  have hreach := Steps.reach_of_exec hrun
  simp only [Prod.mk.injEq] at hs
  exact ⟨s, hreach, hs.1, hs.2.1,
    registers_once _ (fun id => if id = 0 then 16 else 64) s hreach 1 hs.2.2 hs.2.1⟩

/-- A request that took one block, and then fills one block with each of two passes: the second one
skips what it filled. -/
theorem second_pass_skips : ¬ ∀ (cfg : Config) (prompts : ℕ → ℕ) (s : Claiming),
    Steps.Reach Claiming.step (fun _ q => q.Of (prompts q.id)) (.new cfg) s →
      ∀ id, s.engine.radixEnabled → s.engine.progress id = prompts id →
        s.RegistersOnce id (prompts id) := by
  intro hall
  have hsome : (Steps.exec Claiming.step (fun _ q => q.Of (if q.id = 0 then 16 else 48))
      (.new (.tiny [List.replicate 16 7, List.replicate 48 7]))
      [.tiny 0 16 16, .tiny 1 48 32, .tiny 1 48 48]).map (fun s =>
        (s.engine.radixEnabled, s.engine.progress 1,
          s.engine.pool.prefixTree.nodeAt (s.engine.fullInput 1 48) 2))
      = some (true, 48, none) := by decide +kernel
  obtain ⟨s, hrun, hs⟩ := Option.map_eq_some_iff.mp hsome
  simp only [Prod.mk.injEq] at hs
  obtain ⟨hon, hend, hnone⟩ := hs
  obtain ⟨n, hn, -⟩ := hall _ (fun id => if id = 0 then 16 else 48) s (Steps.reach_of_exec hrun) 1
    hon hend 2 (by decide)
  rw [show (if (1 : ℕ) = 0 then 16 else 48) = 48 from rfl, hnone] at hn
  cases hn

end Grim.Engine
