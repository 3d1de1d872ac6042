import Grim.Memory.Exclusive
import Grim.Memory.Handles
import Grim.Memory.Leaks

/-!
# The references behind the table

One cache on a pool that others use too: `others` are the references the others hold.  Each entry
of the table is one more reference, as long as no allocation evicts a chain in use.
-/

namespace Grim.Memory

open List Option
open Function (update update_self update_of_ne)

namespace KvBlockPool

variable {p q : KvBlockPool}

theorem Exclusive.lt_of_referenced (h : p.Exclusive) {b : ℕ} (hb : 0 < p.blockRefCount b) :
    b < p.numBlocks := by
  rcases hr : p.refCounts b with - | n
  · rw [blockRefCount, hr, getD_none] at hb
    exact absurd hb (Nat.lt_irrefl 0)
  · exact h.ref_lt b n hr

end KvBlockPool

namespace PagedKvCache

open KvBlockPool

variable {c c' : PagedKvCache} {p p' : KvBlockPool} {env : Env} {res : Except String Unit}

/-- None of the `n` allocations from the `k`-th on evicts a chain in use. -/
def AllocsFree (env : Env) (n k : ℕ) (p : KvBlockPool) : Prop :=
  ∀ m < n, ∀ r ∈ handsOut env m k p, r.2.freeList = [] → r.2.EvictsFree (env.now (k + m))

instance (n k : ℕ) : Decidable (AllocsFree env n k p) :=
  inferInstanceAs (Decidable (∀ m < n, ∀ r ∈ handsOut env m k p, _ → _))

theorem AllocsFree.tail {n k : ℕ} (h : AllocsFree env (n + 1) k p) {q : KvBlockPool} {id : ℕ}
    (hq : p.alloc (env.now k) (env.io k) = some (q, .ok id)) : AllocsFree env n (k + 1) q := by
  intro m hm r hr
  have hhands : (id :: r.1, r.2) ∈ handsOut env (m + 1) k p := by
    rw [handsOut, hq]
    simp only [mem_def] at hr
    simp only [hr, map_some, mem_def]
  have hmk : k + (m + 1) = k + 1 + m := by omega
  have hev := h (m + 1) (Nat.succ_lt_succ hm) (id :: r.1, r.2) hhands
  rw [hmk] at hev
  exact hev

theorem reserve_counts : ∀ {n k : ℕ} {c : PagedKvCache} {p : KvBlockPool}, p.Exclusive →
    AllocsFree env n k p → reserve env n k c p = some (c', p', res) →
      p'.Exclusive ∧ p'.numBlocks = p.numBlocks ∧ ∃ ids, ids.length ≤ n
        ∧ c'.table = c.table ++ ids ∧ ∀ b, p'.blockRefCount b = p.blockRefCount b + ids.count b
  | 0, _, _, _, hx, _, h => by
    cases h
    exact ⟨hx, rfl, [], by simp⟩
  | n + 1, k, c, p, hx, hfree, h => by
    unfold reserve at h
    obtain ⟨⟨q, id⟩, hq, h⟩ := bind_eq_some_iff.mp h
    have hev : p.freeList = [] → p.EvictsFree (env.now k) := hfree 0 (Nat.succ_pos n) ([], p) rfl
    obtain ⟨hqx, herr, hok⟩ := hx.alloc hev hq
    have hnum := alloc_numBlocks hq
    rcases id with e | id
    · cases h
      refine ⟨hqx, hnum, [], by simp, by simp, fun b => ?_⟩
      rw [blockRefCount, herr e rfl, blockRefCount, count_nil, Nat.add_zero]
    · obtain ⟨hnone, href⟩ := hok id rfl
      obtain ⟨hpx, hpnum, ids, hlen, htable, hcount⟩ := reserve_counts hqx (hfree.tail hq) h
      refine ⟨hpx, hpnum.trans hnum, id :: ids, Nat.succ_le_succ hlen, by simp [htable],
        fun b => ?_⟩
      rw [hcount b, count_cons, blockRefCount, href, blockRefCount]
      by_cases hb : b = id
      · subst hb
        simp [hnone]
        omega
      · simp [hb, Ne.symm hb]

theorem appendSlot_room {k : ℕ} (hroom : blocksFor (c.committedTokens + 1) ≤ c.table.length) :
    c.appendSlot env k p
      = some ({ c with committedTokens := c.committedTokens + 1 }, p, .ok ()) := by
  unfold appendSlot
  exact if_neg (not_lt.mpr hroom)

theorem appendSlot_lacking {k : ℕ} (hroom : blocksFor c.committedTokens ≤ c.table.length) :
    c.appendSlot env k p
      = reserve env (c.lacking 1) k { c with committedTokens := c.committedTokens + 1 } p := by
  have hone : blocksFor (c.committedTokens + 1) ≤ blocksFor c.committedTokens + 1 := by
    unfold blocksFor blockSize
    omega
  unfold appendSlot lacking
  dsimp only
  split_ifs with hlt
  · have hlack : blocksFor (c.committedTokens + 1) - c.table.length = 1 := by omega
    rw [hlack]
  · rw [Nat.sub_eq_zero_of_le (not_lt.mp hlt)]
    rfl

theorem writeTokens_room {reserved l stride : ℕ} {k v : List UInt32} : ∀ {n t : ℕ}
    {c : PagedKvCache} {p : KvBlockPool},
    (l = 0 → blocksFor (c.committedTokens + n) ≤ c.table.length) →
    writeTokens env reserved l stride k v n t c p = some (c', p', res) →
      Rewrites p p' ∧ c'.table = c.table ∧ c'.tentativeLen = c.tentativeLen
        ∧ (res = .ok () → c'.committedTokens = c.committedTokens + if l = 0 then n else 0)
  | 0, _, _, _, _, h => by
    cases h
    exact ⟨.refl _, rfl, rfl, fun _ => by simp⟩
  | n + 1, t, c, p, hroom, h => by
    unfold writeTokens at h
    have hslot : (if l = 0 then c.appendSlot env (reserved + t) p else some (c, p, .ok ()))
        = some ({ c with committedTokens := c.committedTokens + if l = 0 then 1 else 0 }, p,
          .ok ()) := by
      split_ifs with hl
      · have hone : c.committedTokens + 1 ≤ c.committedTokens + (n + 1) := by omega
        exact appendSlot_room ((blocksFor_mono hone).trans (hroom hl))
      · rfl
    rw [hslot] at h
    rcases Outcome.andThen_cases h with ⟨c₁, p₁, hwrite, h⟩ | ⟨hwrite, hne⟩
    · obtain ⟨hr, htable, hcommitted, htentative⟩ := writeToken_rewrites hwrite
      have hcommitted : c₁.committedTokens = c.committedTokens + if l = 0 then 1 else 0 :=
        hcommitted
      obtain ⟨hr', htable', htentative', hok⟩ := writeTokens_room (fun hl => by
        have hroom := hroom hl
        rw [hcommitted, htable, if_pos hl, Nat.add_assoc, Nat.add_comm 1 n]
        exact hroom) h
      refine ⟨hr.trans hr', htable'.trans htable, htentative'.trans htentative, fun hres => ?_⟩
      rw [hok hres, hcommitted]
      split_ifs <;> omega
    · obtain ⟨hr, htable, -, htentative⟩ := writeToken_rewrites hwrite
      exact ⟨hr, htable, htentative, fun hres => absurd hres hne⟩

/-- An append fails in its reservation, or changes neither table nor references after it. -/
theorem appendKvLayer_reserved {l n stride : ℕ} {k v : Tensor} (hk : k.seqStride = (n, stride))
    (hn : 0 < n) (hs : 0 < stride) (h : c.appendKvLayer env l k v p = some (c', p', res)) :
    (∃ e, res = .error e ∧ reserve env (if l = 0 then c.lacking n else 0) 0
        (c.growPages l n stride) p = some (c', p', res))
      ∨ ∃ c₁ p₁, reserve env (if l = 0 then c.lacking n else 0) 0 (c.growPages l n stride) p
          = some (c₁, p₁, .ok ())
        ∧ Rewrites p₁ p' ∧ c'.table = c₁.table ∧ c'.tentativeLen = c.tentativeLen
        ∧ (res = .ok () → c'.committedTokens = c.committedTokens + if l = 0 then n else 0) := by
  unfold appendKvLayer at h
  rw [hk] at h
  dsimp only at h
  rw [if_neg (by omega)] at h
  rcases Outcome.andThen_cases h with ⟨c₁, p₁, hreserve, h⟩ | ⟨hreserve, hne⟩
  · obtain ⟨ids, -, hlen, hc₁⟩ := reserve_ok hreserve
    have htable₁ : c₁.table = c.table ++ ids := by
      rw [hc₁]
      rfl
    have hcommitted₁ : c₁.committedTokens = c.committedTokens := by
      rw [hc₁]
      rfl
    have htentative₁ : c₁.tentativeLen = c.tentativeLen := by
      rw [hc₁]
      rfl
    refine .inr ⟨c₁, p₁, hreserve, ?_⟩
    split at h
    · cases h
    rename_i c₂ hhyd
    have hplan := hydrateSeededLayerFromPool_plan hhyd
    have hroom : l = 0 → blocksFor (c₂.committedTokens + n) ≤ c₂.table.length := by
      intro hl
      rw [hplan.committed, hplan.table, hcommitted₁, htable₁, length_append, hlen, if_pos hl]
      show blocksFor (c.committedTokens + n) ≤ c.table.length + c.lacking n
      unfold lacking
      omega
    rcases Outcome.andThen_cases h with ⟨c₃, p₃, hwrite, hcheck⟩ | ⟨hwrite, hne⟩
    · obtain ⟨hplan', hrewrites'⟩ := checkAndRepromoteBlocks_plan hcheck
      obtain ⟨hrewrites, htable, htentative, hok⟩ := writeTokens_room hroom hwrite
      refine ⟨hrewrites.trans hrewrites', ?_, ?_, fun _ => ?_⟩
      · rw [hplan'.table, htable, hplan.table]
      · rw [hplan'.tentative, htentative, hplan.tentative, htentative₁]
      · rw [hplan'.committed, hok rfl, hplan.committed, hcommitted₁]
    · obtain ⟨hrewrites, htable, htentative, -⟩ := writeTokens_room hroom hwrite
      refine ⟨hrewrites, ?_, ?_, fun hres => absurd hres hne⟩
      · rw [htable, hplan.table]
      · rw [htentative, hplan.tentative, htentative₁]
  · rcases res with e | ⟨⟩
    · exact .inl ⟨e, rfl, hreserve⟩
    · exact absurd rfl hne

theorem dropBlocks_counts {io : ℕ → Except String Unit} {off : ℕ → ℕ} : ∀ {n : ℕ}
    {c : PagedKvCache} {p : KvBlockPool}, p.Exclusive → dropBlocks io n c p = some (c', p') →
    (∀ b, p.blockRefCount b = off b + c.table.count b) →
      p'.Exclusive ∧ ∀ b, p'.blockRefCount b = off b + c'.table.count b
  | 0, _, _, hx, h, hcount => by
    cases h
    exact ⟨hx, hcount⟩
  | n + 1, c, p, hx, h, hcount => by
    unfold dropBlocks at h
    split at h
    · cases h
      exact ⟨hx, hcount⟩
    · rename_i pid hlast
      obtain ⟨q, hq, h⟩ := bind_eq_some_iff.mp h
      have htable : c.table = c.table.dropLast ++ [pid] :=
        (dropLast_append_getLast? pid hlast).symm
      have hcount' : ∀ b, p.blockRefCount b
          = off b + (c.table.dropLast.count b + if pid = b then 1 else 0) := by
        intro b
        rw [hcount b, htable, count_append, dropLast_concat, count_singleton]
        simp
      have href : p.refCounts pid ≠ none := by
        intro hnone
        have := hcount' pid
        rw [blockRefCount, hnone, getD_none, if_pos rfl] at this
        omega
      obtain ⟨hqx, hqcount⟩ := hx.freeWithTier href (fun hf => by cases hf) hq
      refine dropBlocks_counts hqx h fun b => ?_
      show q.blockRefCount b = off b + c.table.dropLast.count b
      rw [hqcount b]
      by_cases hb : b = pid
      · have := hcount' pid
        rw [hb, update_self]
        rw [if_pos rfl] at this
        omega
      · rw [update_of_ne hb, hcount' b, if_neg (Ne.symm hb), Nat.add_zero]

end PagedKvCache

structure Lease where
  tables : TabledKvCache
  others : History

inductive LeaseCall
  | appendSlot (env : Env)
  | tentativeAppend (env : Env) (n : ℕ)
  | appendKvLayer (env : Env) (layer : ℕ) (k v : Tensor)
  | commit (io : ℕ → Except String Unit) (accepted : ℕ)
  | rollbackTo (io : ℕ → Except String Unit) (len : ℕ)
  | seedPrefix (blocks : List ℕ)
  | others (call : Call)

namespace Lease

open PagedKvCache (blocksFor AllocsFree)
open TabledKvCache (TabledOutcome)
open TableRun (plainEnv)

def new (h : History) (numHeads headDim pageSize : ℕ) : Lease where
  tables := .new h.pool numHeads headDim pageSize
  others := h

variable (s : Lease)

def pool : KvBlockPool := s.others.pool

def after (o : TabledOutcome) : Option Lease :=
  match o with
  | some (c, p, .ok ()) => some ⟨c, s.others.next p⟩
  | _ => none

def step : LeaseCall → Option Lease
  | .appendSlot env => s.after (s.tables.appendSlot env 0 s.pool)
  | .tentativeAppend env n => s.after (s.tables.tentativeAppend env n s.pool)
  | .appendKvLayer env layer k v => s.after (s.tables.appendKvLayer env layer k v s.pool)
  | .commit io accepted => (s.tables.commit io accepted s.pool).map fun r =>
      ⟨r.1, s.others.next r.2⟩
  | .rollbackTo io len => (s.tables.rollbackTo io len s.pool).map fun r =>
      ⟨r.1, s.others.next r.2⟩
  | .seedPrefix blocks =>
    if s.tables.table = [] ∧ s.tables.len = 0 then
      some ⟨(s.tables.seedPrefix blocks s.pool).1,
        s.others.next (s.tables.seedPrefix blocks s.pool).2⟩
    else none
  | .others call => (s.others.step call).map fun h => { s with others := h }

/-- The copy is the table, which has a page for each token, and a reference of its own for each
page. -/
structure Covered : Prop where
  copy : s.tables.blockTableU32.map UInt32.toNat = s.tables.table
  room : blocksFor s.tables.len ≤ s.tables.table.length
  counts : ∀ b, s.pool.blockRefCount b = s.others.held b + s.tables.table.count b

/-- `n` allocations evict no chain in use, and hand out ids that fit the copy. -/
def Grows (env : Env) (n : ℕ) : Prop :=
  (0 < n → s.pool.numBlocks ≤ 2 ^ 32) ∧ AllocsFree env n 0 s.pool

instance (env : Env) (n : ℕ) : Decidable (s.Grows env n) := inferInstanceAs (Decidable (_ ∧ _))

/-- The pages for `n` tokens more leave room for the tentative ones behind them. -/
def Reserves (n : ℕ) : Prop :=
  blocksFor (s.tables.len + n)
    ≤ max s.tables.table.length (blocksFor (s.tables.committedTokens + n))

instance (n : ℕ) : Decidable (s.Reserves n) := inferInstanceAs (Decidable (_ ≤ _))

/-- No eviction of a chain in use, no append of committed tokens on a page short for the tentative
ones, and seeds that are not free; the others keep to what they hold. -/
def Careful : LeaseCall → Prop
  | .appendSlot env => s.Grows env (s.tables.lacking 1) ∧ s.Reserves 1
  | .tentativeAppend env n => 0 < n →
    s.Grows env (blocksFor (s.tables.len + n) - s.tables.table.length)
  | .appendKvLayer env layer k _ => layer = 0 → 0 < k.seqStride.1 → 0 < k.seqStride.2 →
    s.Grows env (s.tables.lacking k.seqStride.1) ∧ s.Reserves k.seqStride.1
  | .seedPrefix blocks =>
    ∀ b ∈ blocks, b ∉ s.pool.freeList ∧ b < s.pool.numBlocks ∧ b < 2 ^ 32
  | .others call => s.others.Unshared call
  | .commit .. | .rollbackTo .. => True

instance : ∀ s call, Decidable (Careful s call)
  | s, .appendSlot env => inferInstanceAs (Decidable (s.Grows env _ ∧ s.Reserves 1))
  | s, .tentativeAppend env n => inferInstanceAs (Decidable (0 < n → s.Grows env _))
  | s, .appendKvLayer env layer _ _ =>
    inferInstanceAs (Decidable (layer = 0 → _ → _ → s.Grows env _ ∧ s.Reserves _))
  | _, .seedPrefix blocks => inferInstanceAs (Decidable (∀ b ∈ blocks, _ ∧ _ ∧ _))
  | s, .others call => inferInstanceAs (Decidable (s.others.Unshared call))
  | _, .commit .. => inferInstanceAs (Decidable True)
  | _, .rollbackTo .. => inferInstanceAs (Decidable True)

variable {s} {s' : Lease}

structure Leased (s : Lease) : Prop where
  lent : s.others.Lent (s.tables.table.count ·)
  synced : s.tables.Synced
  words : ∀ id ∈ s.tables.table, id < 2 ^ 32
  room : blocksFor s.tables.len ≤ s.tables.table.length

theorem Leased.covered (h : s.Leased) : s.Covered where
  copy := by
    rw [TabledKvCache.map_toNat_eq_iff]
    exact ⟨h.synced, h.words⟩
  room := h.room
  counts := h.lent.count

theorem leased_new {h : History} (hb : h.Booked) (numHeads headDim pageSize : ℕ) :
    (new h numHeads headDim pageSize).Leased where
  lent := hb.lent
  synced := rfl
  words := by simp [new, TabledKvCache.new, PagedKvCache.new]
  room := by
    show blocksFor 0 ≤ 0
    decide

theorem after_some {o : TabledOutcome} (h : s.after o = some s') :
    ∃ c p, o = some (c, p, .ok ()) ∧ s' = ⟨c, s.others.next p⟩ := by
  rcases o with - | ⟨c, p, e | ⟨⟩⟩
  · cases h
  · cases h
  · cases h
    exact ⟨c, p, rfl, rfl⟩

theorem forget_some {o : TabledOutcome} {c : TabledKvCache} {p : KvBlockPool}
    {res : Except String Unit} (h : o = some (c, p, res)) :
    o.forget = some (c.toPagedKvCache, p, res) := by
  rw [h]
  rfl

theorem Leased.extend (h : s.Leased) {c : TabledKvCache} {p : KvBlockPool} {ids : List ℕ}
    (hcopied : TabledKvCache.Copied s.tables c) (hx : p.Exclusive)
    (htable : c.table = s.tables.table ++ ids)
    (hcount : ∀ b, p.blockRefCount b = s.pool.blockRefCount b + ids.count b)
    (hwords : ∀ id ∈ ids, id < 2 ^ 32) (hroom : blocksFor c.len ≤ c.table.length) :
    (⟨c, s.others.next p⟩ : Lease).Leased where
  lent := by
    refine ⟨hx, fun b => ?_⟩
    show p.blockRefCount b = s.others.held b + c.table.count b
    rw [hcount b, pool, h.lent.count b, htable, count_append, Nat.add_assoc]
  synced := hcopied.synced h.synced
  words := by
    intro id hid
    rcases mem_append.mp (htable ▸ hid) with hid | hid
    · exact h.words id hid
    · exact hwords id hid
  room := hroom

theorem Leased.grow (h : s.Leased) {env : Env} {n : ℕ} {c : TabledKvCache} {p p₁ : KvBlockPool}
    {q q₁ : PagedKvCache} (hg : s.Grows env n)
    (hres : PagedKvCache.reserve env n 0 q s.pool = some (q₁, p₁, .ok ()))
    (hq : q.table = s.tables.table)
    (hcopied : TabledKvCache.Copied s.tables c) (htable : c.table = q₁.table)
    (hp : KvBlockPool.SameBooks p₁ p) (hroom : blocksFor c.len ≤ s.tables.table.length + n) :
    (⟨c, s.others.next p⟩ : Lease).Leased := by
  obtain ⟨hx, hnum, ids, hlen, htable₁, hcount⟩ :=
    PagedKvCache.reserve_counts h.lent.exclusive hg.2 hres
  obtain ⟨ids', -, hlen', hq₁⟩ := PagedKvCache.reserve_ok hres
  have hids : ids.length = n := by
    have hsame : q.table ++ ids = q.table ++ ids' := by
      rw [← htable₁, hq₁]
    rw [append_cancel_left hsame, hlen']
  have htable' : c.table = s.tables.table ++ ids := by rw [htable, htable₁, hq]
  refine h.extend hcopied (hx.of_books hp) htable' ?_ ?_ ?_
  · intro b
    have hsame : p.blockRefCount b = p₁.blockRefCount b := by
      rw [KvBlockPool.blockRefCount, KvBlockPool.blockRefCount, hp.2.2]
    exact hsame.trans (hcount b)
  · intro id hid
    have hpos : 0 < p₁.blockRefCount id := by
      rw [hcount id]
      have := count_pos_iff.mpr hid
      omega
    have hlt := hx.lt_of_referenced hpos
    have hn : 0 < n := hids ▸ length_pos_of_mem hid
    exact lt_of_lt_of_le (hnum ▸ hlt) (hg.1 hn)
  · rw [htable', length_append, hids]
    exact hroom

theorem Leased.appendSlot (h : s.Leased) {env : Env} (hok : s.Careful (.appendSlot env))
    (hs : s.step (.appendSlot env) = some s') : s'.Leased := by
  obtain ⟨c, p, hc, rfl⟩ := after_some hs
  obtain ⟨hgrows, hreserves⟩ := hok
  have hroom : blocksFor s.tables.committedTokens ≤ s.tables.table.length :=
    (PagedKvCache.blocksFor_mono (Nat.le_add_right _ _)).trans h.room
  have hq := forget_some hc
  rw [TabledKvCache.appendSlot_forget, PagedKvCache.appendSlot_lacking hroom] at hq
  obtain ⟨ids, hids⟩ := PagedKvCache.reserve_table hq
  refine h.grow hgrows hq rfl (TabledKvCache.appendSlot_copied hc) rfl .rfl ?_
  have hlen : c.len = s.tables.len + 1 := by
    unfold PagedKvCache.len
    rw [hids]
    show s.tables.committedTokens + 1 + s.tables.tentativeLen = _
    omega
  unfold Reserves at hreserves
  unfold PagedKvCache.lacking
  rw [hlen]
  omega

theorem Leased.next (h : s.Leased) : (⟨s.tables, s.others.next s.pool⟩ : Lease).Leased :=
  ⟨⟨h.lent.exclusive, h.lent.count⟩, h.synced, h.words, h.room⟩

theorem Leased.tentativeAppend (h : s.Leased) {env : Env} {n : ℕ}
    (hok : s.Careful (.tentativeAppend env n))
    (hs : s.step (.tentativeAppend env n) = some s') : s'.Leased := by
  obtain ⟨c, p, hc, rfl⟩ := after_some hs
  rcases Nat.eq_zero_or_pos n with rfl | hn
  · cases hc
    exact h.next
  · have hq := forget_some hc
    rw [TabledKvCache.tentativeAppend_forget, PagedKvCache.tentativeAppend, if_neg hn.ne'] at hq
    obtain ⟨q, p₁, hreserve, hrest⟩ := PagedKvCache.Outcome.andThen_ok hq
    obtain ⟨hqc, hp⟩ := Prod.mk.inj (Option.some.inj hrest)
    obtain ⟨ids, hids⟩ := PagedKvCache.reserve_table hreserve
    have htable : c.table = q.table := by rw [← hqc]
    have hlen : c.len = s.tables.len + n := by
      unfold PagedKvCache.len
      rw [← hqc, hids]
      show s.tables.committedTokens + (s.tables.tentativeLen + n) = _
      omega
    obtain rfl := (Prod.mk.inj hp).1
    refine h.grow (hok hn) hreserve rfl (TabledKvCache.tentativeAppend_copied hc) htable .rfl ?_
    rw [hlen]
    omega

theorem grows_zero (env : Env) : s.Grows env 0 :=
  ⟨fun h => absurd h (lt_irrefl 0), fun _ h => absurd h (Nat.not_lt_zero _)⟩

theorem Leased.appendKvLayer (h : s.Leased) {env : Env} {layer : ℕ} {k v : Tensor}
    (hok : s.Careful (.appendKvLayer env layer k v))
    (hs : s.step (.appendKvLayer env layer k v) = some s') : s'.Leased := by
  obtain ⟨c, p, hc, rfl⟩ := after_some hs
  by_cases hempty : k.seqStride.2 = 0 ∨ k.seqStride.1 = 0
  · unfold TabledKvCache.appendKvLayer at hc
    dsimp only at hc
    rw [if_pos hempty] at hc
    cases hc
    exact h.next
  · have hn : 0 < k.seqStride.1 := Nat.pos_of_ne_zero fun h => hempty (.inr h)
    have hstride : 0 < k.seqStride.2 := Nat.pos_of_ne_zero fun h => hempty (.inl h)
    have hq := forget_some hc
    rw [TabledKvCache.appendKvLayer_forget] at hq
    have hk : k.seqStride = (k.seqStride.1, k.seqStride.2) := rfl
    obtain ⟨e, he, -⟩ | ⟨q, p₁, hreserve, hp, htable, htentative, hcommitted⟩ :=
      PagedKvCache.appendKvLayer_reserved hk hn hstride hq
    · cases he
    have hcopied := TabledKvCache.appendKvLayer_copied hc
    have hgrows : s.Grows env (if layer = 0 then s.tables.lacking k.seqStride.1 else 0) := by
      split_ifs with hl
      · exact (hok hl hn hstride).1
      · exact grows_zero env
    refine h.grow hgrows hreserve rfl hcopied htable hp.books ?_
    have hroom := h.room
    unfold PagedKvCache.len at hroom ⊢
    rw [htentative, hcommitted rfl]
    split_ifs with hl
    · have hreserves := (hok hl hn hstride).2
      unfold Reserves PagedKvCache.len at hreserves
      unfold PagedKvCache.lacking
      rw [Nat.add_right_comm] at hreserves
      omega
    · exact hroom

theorem Leased.drop (h : s.Leased) {io : ℕ → Except String Unit} {c : TabledKvCache}
    {p : KvBlockPool} {committed : ℕ} (hle : committed ≤ s.tables.len)
    (hcopied : TabledKvCache.Copied s.tables c)
    (hq : PagedKvCache.dropBlocks io (s.tables.table.length - blocksFor committed)
      { s.tables.toPagedKvCache with committedTokens := committed, tentativeLen := 0 } s.pool
        = some (c.toPagedKvCache, p)) :
    (⟨c, s.others.next p⟩ : Lease).Leased ∧ c.table.length = blocksFor c.len := by
  have hroom : blocksFor committed ≤ s.tables.table.length :=
    (PagedKvCache.blocksFor_mono hle).trans h.room
  obtain ⟨hx, hcount⟩ := PagedKvCache.dropBlocks_counts h.lent.exclusive hq h.lent.count
  have hcut := Session.dropBlocks_table _ hq
  have hlength : c.table.length = blocksFor committed := by
    rw [hcut]
    simp only [length_take]
    omega
  have hlen : c.len = committed := by
    unfold PagedKvCache.len
    rw [hcut]
    exact Nat.add_zero _
  refine ⟨⟨⟨hx, hcount⟩, hcopied.synced h.synced, fun id hid => ?_, ?_⟩, ?_⟩
  · rw [hcut] at hid
    exact h.words id (mem_of_mem_take hid)
  · show blocksFor c.len ≤ c.table.length
    rw [hlen, hlength]
  · rw [hlen, hlength]

theorem foldl_addRef_exclusive : ∀ {blocks : List ℕ} {p : KvBlockPool}, p.Exclusive →
    (∀ b ∈ blocks, b ∉ p.freeList ∧ b < p.numBlocks) →
    (blocks.foldl (fun p b => p.addRef b) p).Exclusive
  | [], _, hx, _ => hx
  | id :: blocks, p, hx, hb => by
    obtain ⟨hfree, hlt⟩ := hb id (.head _)
    rw [foldl_cons]
    exact foldl_addRef_exclusive (hx.addRef hfree hlt) fun b hmem => hb b (.tail _ hmem)

def Releases (call : LeaseCall) : Prop :=
  ∃ io n, call = .commit io n ∨ call = .rollbackTo io n

theorem Leased.release (h : s.Leased) {call : LeaseCall} (hcall : Releases call)
    (hs : s.step call = some s') :
    s'.Leased ∧ s'.tables.table.length = blocksFor s'.tables.len := by
  obtain ⟨io, n, rfl | rfl⟩ := hcall
  · obtain ⟨⟨c, p⟩, hc, rfl⟩ := map_eq_some_iff.mp hs
    have hq : TabledKvCache.forgetDrop (s.tables.commit io n s.pool)
        = some (c.toPagedKvCache, p) := by
      rw [hc]
      rfl
    rw [TabledKvCache.commit_forget] at hq
    refine h.drop ?_ (TabledKvCache.commit_copied hc) hq
    exact Nat.add_le_add_left (Nat.min_le_right _ _) _
  · obtain ⟨⟨c, p⟩, hc, rfl⟩ := map_eq_some_iff.mp hs
    have hq : TabledKvCache.forgetDrop (s.tables.rollbackTo io n s.pool)
        = some (c.toPagedKvCache, p) := by
      rw [hc]
      rfl
    rw [TabledKvCache.rollbackTo_forget] at hq
    refine h.drop ?_ (TabledKvCache.rollbackTo_copied hc) hq
    exact (Nat.min_le_left _ _).trans (Nat.le_add_right _ _)

theorem Leased.seedPrefix (h : s.Leased) {blocks : List ℕ} (hok : s.Careful (.seedPrefix blocks))
    (hs : s.step (.seedPrefix blocks) = some s') : s'.Leased := by
  unfold step at hs
  split_ifs at hs with hfresh
  obtain ⟨hnil, hzero⟩ := hfresh
  cases hs
  have hx := foldl_addRef_exclusive h.lent.exclusive fun b hb => ⟨(hok b hb).1, (hok b hb).2.1⟩
  refine h.extend TabledKvCache.seedPrefix_copied hx rfl KvBlockPool.blockRefCount_foldl_addRef
    (fun b hb => (hok b hb).2.2) ?_
  have htentative : s.tables.tentativeLen = 0 := (Nat.add_eq_zero_iff.mp hzero).2
  show blocksFor ((s.tables.table ++ blocks).length * blockSize + s.tables.tentativeLen)
    ≤ (s.tables.table ++ blocks).length
  rw [htentative]
  unfold blocksFor blockSize
  omega

theorem Leased.step (h : s.Leased) {call : LeaseCall} (hok : s.Careful call)
    (hs : s.step call = some s') : s'.Leased := by
  cases call with
  | appendSlot env => exact h.appendSlot hok hs
  | tentativeAppend env n => exact h.tentativeAppend hok hs
  | appendKvLayer env layer k v => exact h.appendKvLayer hok hs
  | commit io accepted => exact (h.release ⟨io, accepted, .inl rfl⟩ hs).1
  | rollbackTo io len => exact (h.release ⟨io, len, .inr rfl⟩ hs).1
  | seedPrefix blocks => exact h.seedPrefix hok hs
  | others call =>
    obtain ⟨o, ho, rfl⟩ := map_eq_some_iff.mp hs
    exact ⟨h.lent.step hok ho, h.synced, h.words, h.room⟩

/-- Through every run of careful calls the copy is the table, the table covers the tokens with a
reference for each page, and a release leaves no page more. -/
theorem covered_of_reach {c : Setup} {h : History}
    (hh : Steps.Reach History.step History.Unshared (.new c) h) {numHeads headDim pageSize : ℕ}
    (hr : Steps.Reach step Careful (new h numHeads headDim pageSize) s) :
    s.Covered ∧ ∀ call, Releases call → ∀ s', s.step call = some s' →
      s'.tables.table.length = blocksFor s'.tables.len := by
  have hb : h.Booked :=
    hh.invariant (History.booked_new c) fun _ _ _ hb hok hs => hb.step hok hs
  have hl : s.Leased := hr.invariant (leased_new hb numHeads headDim pageSize)
    fun _ _ _ hl hok hs => hl.step hok hs
  exact ⟨hl.covered, fun call hcall s' hs => (hl.release hcall hs).2⟩

/-- A page beside another sequence's, twenty tentative tokens, of which three are kept. -/
theorem covered_of_reach_three : ∃ h s,
    Steps.Reach History.step History.Unshared (.new (.tiny 4 none)) h
      ∧ Steps.Reach step Careful (new h 1 1 16) s
      ∧ s.tables.table = [1, 2] ∧ s.tables.len = 21 ∧ s.Covered
      ∧ ∀ call, Releases call → ∀ s', s.step call = some s' →
        s'.tables.table.length = blocksFor s'.tables.len := by
  have hh : Steps.exec History.step History.Unshared (.new (.tiny 4 none)) [.alloc id (.ok ())]
      = some ((History.new (.tiny 4 none)).allocated (Setup.tiny 4 none).pool.popFree.1 (.ok 0)) :=
    rfl
  have hreach := Steps.reach_of_exec hh
  obtain ⟨s, hs⟩ : ∃ s, Steps.exec step Careful
      (new ((History.new (.tiny 4 none)).allocated (Setup.tiny 4 none).pool.popFree.1 (.ok 0))
        1 1 16)
      [.appendSlot plainEnv, .tentativeAppend plainEnv 20] = some s := ⟨_, rfl⟩
  have hr := Steps.reach_of_exec hs
  have hall := covered_of_reach hreach hr
  obtain rfl := Option.some.inj hs
  exact ⟨_, _, hreach, hr, rfl, rfl, hall⟩

/-- Sixteen tentative tokens, and a committed one on their page: they need a second, also once they
are committed. -/
theorem appended_token_uncovered : ∃ s s',
    Steps.Reach step (fun _ _ => True) (new (.new (.tiny 4 none)) 1 1 16) s
      ∧ s.tables.len = 17 ∧ s.tables.table = [0]
      ∧ ¬ blocksFor s.tables.len ≤ s.tables.table.length
      ∧ s.step (.commit (fun _ => .ok ()) 16) = some s'
      ∧ s'.tables.len = 17 ∧ s'.tables.table = [0]
      ∧ s'.tables.table.length ≠ blocksFor s'.tables.len := by
  obtain ⟨s, hs⟩ : ∃ s, Steps.exec step (fun _ _ => True) (new (.new (.tiny 4 none)) 1 1 16)
      [.tentativeAppend plainEnv 16, .appendSlot plainEnv] = some s := ⟨_, rfl⟩
  have hr := Steps.reach_of_exec hs
  obtain rfl := Option.some.inj hs
  refine ⟨_, _, hr, rfl, rfl, ?_, rfl, rfl, rfl, ?_⟩
  · show ¬ blocksFor 17 ≤ 1
    decide
  · show 1 ≠ blocksFor 17
    decide

end Lease

end Grim.Memory
