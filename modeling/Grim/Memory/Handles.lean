import Grim.Memory.Runs
import Grim.Memory.Tables

/-!
# The table on the device

`uploaded` is the table that was copied to the device last.  The device's copy is taken again only
when the table's length, first or last entry has changed.
-/

namespace Grim.Memory

open List Option

namespace TabledKvCache

open PagedKvCache (Outcome blocksFor)

variable {c c' c'' : TabledKvCache} {p p' : KvBlockPool} {res : Except String Unit}

def Synced (c : TabledKvCache) : Prop := c.blockTableU32 = c.table.map UInt32.ofNat

/-- A call that keeps the copy for the kernels, and leaves the device's. -/
structure Copied (c c' : TabledKvCache) : Prop where
  synced : c.Synced → c'.Synced
  page : c'.pageSize = c.pageSize
  device : c'.gpuBlockTable = c.gpuBlockTable

theorem Copied.refl (c : TabledKvCache) : Copied c c := ⟨id, rfl, rfl⟩

theorem Copied.trans (h : Copied c c') (h' : Copied c' c'') : Copied c c'' :=
  ⟨h'.synced ∘ h.synced, h'.page.trans h.page, h'.device.trans h.device⟩

theorem Copied.lift {o : Outcome} (h : c.lift o = some (c', p', res))
    (ho : ∀ q p res, o = some (q, p, res) → q.table = c.table ∧ q.pageSize = c.pageSize) :
    Copied c c' := by
  obtain ⟨⟨q, r⟩, hq, heq⟩ := map_eq_some_iff.mp h
  cases heq
  obtain ⟨htable, hpage⟩ := ho _ _ _ hq
  refine ⟨fun hsync => ?_, hpage, rfl⟩
  show c.blockTableU32 = q.table.map UInt32.ofNat
  rw [htable]
  exact hsync

theorem Copied.andThen {o : TabledOutcome} {f : TabledKvCache → KvBlockPool → TabledOutcome}
    (h : o.andThen f = some (c', p', res))
    (ho : ∀ c₁ p₁ res₁, o = some (c₁, p₁, res₁) → Copied c c₁)
    (hf : ∀ c₁ p₁, Copied c c₁ → f c₁ p₁ = some (c', p', res) → Copied c₁ c') : Copied c c' := by
  rcases o with - | ⟨c₁, p₁, e | ⟨⟩⟩
  · cases h
  · cases h
    exact ho _ _ _ rfl
  · have h₁ := ho _ _ _ rfl
    exact h₁.trans (hf c₁ p₁ h₁ h)

theorem push_copied (id : ℕ) : Copied c (c.push id) := by
  refine ⟨fun hsync => ?_, rfl, rfl⟩
  unfold Synced push
  rw [map_append, ← hsync]
  rfl

theorem reserve_copied {env : Env} : ∀ {n k : ℕ} {c : TabledKvCache} {p : KvBlockPool},
    reserve env n k c p = some (c', p', res) → Copied c c'
  | 0, _, _, _, h => by
    cases h
    exact .refl _
  | n + 1, k, c, p, h => by
    unfold reserve at h
    obtain ⟨⟨q, id⟩, -, h⟩ := bind_eq_some_iff.mp h
    rcases id with e | id
    · cases h
      exact .refl _
    · exact (push_copied id).trans (reserve_copied h)

theorem appendSlot_copied {env : Env} {k : ℕ} (h : c.appendSlot env k p = some (c', p', res)) :
    Copied c c' := by
  have hcount : Copied c { c with committedTokens := c.committedTokens + 1 } := ⟨id, rfl, rfl⟩
  unfold appendSlot at h
  dsimp only at h
  split_ifs at h
  · exact hcount.trans (reserve_copied h)
  · cases h
    exact hcount

theorem tentativeAppend_copied {env : Env} {n : ℕ}
    (h : c.tentativeAppend env n p = some (c', p', res)) : Copied c c' := by
  unfold tentativeAppend at h
  split_ifs at h
  · cases h
    exact .refl _
  · refine Copied.andThen h (fun _ _ _ => reserve_copied) fun c₁ p₁ _ h₁ => ?_
    cases h₁
    exact ⟨id, rfl, rfl⟩

theorem writeToken_table {q : PagedKvCache} {q' : PagedKvCache} {l stride t seq : ℕ}
    {k v : List UInt32} {quantize : List UInt32 → Option (UInt16 × List UInt8)}
    (h : q.writeToken l stride k v t seq quantize p = some (q', p', res)) :
    q'.table = q.table ∧ q'.pageSize = q.pageSize := by
  obtain ⟨hext, -, htable, -⟩ := PagedKvCache.writeToken_extends (L := l + 1) h
  exact ⟨htable, hext.page⟩

theorem writeTokens_copied {env : Env} {reserved l stride : ℕ} {k v : List UInt32} :
    ∀ {n t : ℕ} {c : TabledKvCache} {p : KvBlockPool},
      writeTokens env reserved l stride k v n t c p = some (c', p', res) → Copied c c'
  | 0, _, _, _, h => by
    cases h
    exact .refl _
  | n + 1, t, c, p, h => by
    unfold writeTokens at h
    refine Copied.andThen h (fun c₁ p₁ res₁ h₁ => ?_) fun c₁ p₁ _ h₁ => writeTokens_copied h₁
    refine Copied.andThen h₁ (fun c₂ p₂ res₂ h₂ => ?_) fun c₂ p₂ _ h₂ =>
      Copied.lift h₂ fun _ _ _ => writeToken_table
    split_ifs at h₂
    · exact appendSlot_copied h₂
    · cases h₂
      exact .refl _

theorem appendKvLayer_copied {env : Env} {l : ℕ} {k v : Tensor}
    (h : c.appendKvLayer env l k v p = some (c', p', res)) : Copied c c' := by
  unfold appendKvLayer at h
  dsimp only at h
  rw [ite_eq_iff] at h
  rcases h with ⟨-, h⟩ | ⟨-, h⟩
  · cases h
    exact .refl _
  · have hgrow :
        Copied c { c with toPagedKvCache := c.growPages l k.seqStride.1 k.seqStride.2 } :=
      ⟨id, rfl, rfl⟩
    refine hgrow.trans (Copied.andThen h (fun _ _ _ => reserve_copied) fun c₁ p₁ _ h₁ => ?_)
    rcases hhyd : c₁.hydrateSeededLayerFromPool p₁ l k.seqStride.2 with - | q
    · rw [hhyd] at h₁
      cases h₁
    · have hplan := PagedKvCache.hydrateSeededLayerFromPool_plan hhyd
      have hq : Copied c₁ { c₁ with toPagedKvCache := q } := by
        refine ⟨fun hsync => ?_, hplan.page, rfl⟩
        show c₁.blockTableU32 = q.table.map UInt32.ofNat
        rw [hplan.table]
        exact hsync
      rw [hhyd] at h₁
      refine hq.trans (Copied.andThen h₁ (fun _ _ _ => writeTokens_copied) fun c₂ p₂ _ h₂ => ?_)
      refine Copied.lift h₂ fun q' p' res' hcheck => ?_
      have hplan' := (PagedKvCache.checkAndRepromoteBlocks_plan hcheck).1
      exact ⟨hplan'.table, hplan'.page⟩

theorem dropBlocks_copied {io : ℕ → Except String Unit} : ∀ {n : ℕ} {c : TabledKvCache}
    {p : KvBlockPool}, dropBlocks io n c p = some (c', p') → Copied c c'
  | 0, _, _, h => by
    cases h
    exact .refl _
  | n + 1, c, p, h => by
    unfold dropBlocks at h
    split at h
    · cases h
      exact .refl _
    · obtain ⟨q, -, h⟩ := bind_eq_some_iff.mp h
      have hpop : Copied c { c with
          table := c.table.dropLast
          blockTableU32 := c.blockTableU32.dropLast } := by
        refine ⟨fun hsync => ?_, rfl, rfl⟩
        unfold Synced
        rw [hsync, map_dropLast]
      exact hpop.trans (dropBlocks_copied h)

theorem commit_copied {io : ℕ → Except String Unit} {accepted : ℕ}
    (h : c.commit io accepted p = some (c', p')) : Copied c c' :=
  (⟨id, rfl, rfl⟩ : Copied c { c with
    committedTokens := c.committedTokens + min accepted c.tentativeLen
    tentativeLen := 0 }).trans (dropBlocks_copied h)

theorem rollbackTo_copied {io : ℕ → Except String Unit} {len : ℕ}
    (h : c.rollbackTo io len p = some (c', p')) : Copied c c' :=
  (⟨id, rfl, rfl⟩ : Copied c { c with
    committedTokens := min c.committedTokens len
    tentativeLen := 0 }).trans (dropBlocks_copied h)

theorem seedPrefix_copied {blocks : List ℕ} : Copied c (c.seedPrefix blocks p).1 := by
  refine ⟨fun hsync => ?_, rfl, rfl⟩
  show c.blockTableU32 ++ _ = (c.table ++ blocks).map UInt32.ofNat
  rw [hsync, map_append]

/-- The ids of the table and the page size, as the kernel reads them. -/
def pairs (pageSize : ℕ) (table : List ℕ) : List ℕ := table.flatMap fun id => [id, pageSize]

theorem toNat_pairs_iff {page : UInt32} {pageSize : ℕ} : ∀ {entries : List UInt32} {table : List ℕ},
    (entries.flatMap fun b => [b, page]).map UInt32.toNat = pairs pageSize table
      ↔ entries.map UInt32.toNat = table ∧ (table ≠ [] → page.toNat = pageSize)
  | [], table => by
    unfold pairs
    rcases table with - | ⟨id, table⟩ <;> simp
  | b :: entries, [] => by simp [pairs]
  | b :: entries, id :: table => by
    have ih := @toNat_pairs_iff page pageSize entries table
    unfold pairs at ih ⊢
    simp only [flatMap_cons, map_cons, cons_append, nil_append,
      List.cons.injEq, ih, ne_eq, reduceCtorEq, not_false_eq_true, true_imp_iff]
    tauto

theorem map_toNat_eq_iff : ∀ {entries : List UInt32} {table : List ℕ},
    entries.map UInt32.toNat = table
      ↔ entries = table.map UInt32.ofNat ∧ ∀ id ∈ table, id < 2 ^ 32
  | [], table => by rcases table with - | ⟨id, table⟩ <;> simp
  | b :: entries, [] => by simp
  | b :: entries, id :: table => by
    have hb : b.toNat = id ↔ b = UInt32.ofNat id ∧ id < 2 ^ 32 := by
      constructor
      · rintro rfl
        exact ⟨(UInt32.ofNat_toNat).symm, b.toNat_lt⟩
      · rintro ⟨rfl, hlt⟩
        exact UInt32.toNat_ofNat_of_lt' hlt
    have ih := @map_toNat_eq_iff entries table
    simp only [map_cons, List.cons.injEq, hb, ih, forall_mem_cons]
    tauto

theorem fingerprint_eq_iff {s t : List UInt32} (hs : s ≠ []) (ht : t ≠ []) :
    fingerprint s = fingerprint t
      ↔ s.length = t.length ∧ s.head? = t.head? ∧ s.getLast? = t.getLast? := by
  unfold fingerprint
  rw [Prod.mk.injEq, Prod.mk.injEq, headD_eq_head?_getD, headD_eq_head?_getD,
    getLastD_eq_getLast?, getLastD_eq_getLast?, head?_eq_some_head hs,
    head?_eq_some_head ht, getLast?_eq_some_getLast hs, getLast?_eq_some_getLast ht]
  simp

def Reuses (c : TabledKvCache) : Prop :=
  ∃ cached ∈ c.gpuBlockTable, cached.fingerprint = fingerprint c.blockTableU32

instance : Decidable c.Reuses := inferInstanceAs (Decidable (∃ cached ∈ c.gpuBlockTable, _))

theorem blockTableGpuHandle_cases (c : TabledKvCache) (upload : Bool) :
    c.blockTableU32 = [] ∧ c.blockTableGpuHandle upload = (c, none)
      ∨ c.blockTableU32 ≠ [] ∧ c.Reuses ∧ (∃ cached ∈ c.gpuBlockTable,
        cached.fingerprint = fingerprint c.blockTableU32
          ∧ c.blockTableGpuHandle upload = (c, some cached.storage))
      ∨ c.blockTableU32 ≠ [] ∧ ¬ c.Reuses ∧ c.blockTableGpuHandle upload = c.rebuild upload := by
  unfold blockTableGpuHandle Reuses
  by_cases hnil : c.blockTableU32 = []
  · exact .inl ⟨hnil, if_pos hnil⟩
  rw [if_neg hnil]
  rcases hg : c.gpuBlockTable with - | cached
  · exact .inr (.inr ⟨hnil, by simp, rfl⟩)
  · by_cases hf : cached.fingerprint = fingerprint c.blockTableU32
    · exact .inr (.inl ⟨hnil, ⟨cached, rfl, hf⟩, cached, rfl, hf, if_pos hf⟩)
    · exact .inr (.inr ⟨hnil, by simp [hf], if_neg hf⟩)

end TabledKvCache

inductive TableCall
  | appendSlot (env : Env)
  | tentativeAppend (env : Env) (n : ℕ)
  | appendKvLayer (env : Env) (layer : ℕ) (k v : Tensor)
  | commit (io : ℕ → Except String Unit) (accepted : ℕ)
  | rollbackTo (io : ℕ → Except String Unit) (len : ℕ)
  | seedPrefix (blocks : List ℕ)
  | blockTableGpuHandle (upload : Bool)
  | pool (p : KvBlockPool)

structure TableRun where
  tables : TabledKvCache
  pool : KvBlockPool
  uploaded : List UInt32

namespace TableRun

open TabledKvCache

def new (p : KvBlockPool) (numHeads headDim pageSize : ℕ) : TableRun where
  tables := .new p numHeads headDim pageSize
  pool := p
  uploaded := []

variable (s : TableRun)

/-- A call that fails leaves what it did so far; the others may do anything to the pool. -/
def step : TableCall → Option TableRun
  | .appendSlot env => (s.tables.appendSlot env 0 s.pool).map fun r =>
      { s with tables := r.1, pool := r.2.1 }
  | .tentativeAppend env n => (s.tables.tentativeAppend env n s.pool).map fun r =>
      { s with tables := r.1, pool := r.2.1 }
  | .appendKvLayer env layer k v => (s.tables.appendKvLayer env layer k v s.pool).map fun r =>
      { s with tables := r.1, pool := r.2.1 }
  | .commit io accepted => (s.tables.commit io accepted s.pool).map fun r =>
      { s with tables := r.1, pool := r.2 }
  | .rollbackTo io len => (s.tables.rollbackTo io len s.pool).map fun r =>
      { s with tables := r.1, pool := r.2 }
  | .seedPrefix blocks => some { s with
      tables := (s.tables.seedPrefix blocks s.pool).1
      pool := (s.tables.seedPrefix blocks s.pool).2 }
  | .blockTableGpuHandle upload => some { s with
      tables := (s.tables.blockTableGpuHandle upload).1
      uploaded := if upload ∧ s.tables.blockTableU32 ≠ [] ∧ ¬ s.tables.Reuses
        then s.tables.blockTableU32 else s.uploaded }
  | .pool p => some { s with pool := p }

/-- The table is not the one uploaded last with only entries between its ends changed. -/
def MiddleKept : Prop :=
  s.uploaded.length = s.tables.blockTableU32.length →
    s.uploaded.head? = s.tables.blockTableU32.head? →
    s.uploaded.getLast? = s.tables.blockTableU32.getLast? → s.uploaded = s.tables.blockTableU32

def Fits : Prop := (∀ id ∈ s.tables.table, id < 2 ^ 32) ∧ s.tables.pageSize < 2 ^ 32

variable {s} {s' : TableRun} {call : TableCall}

structure Shown (s : TableRun) : Prop where
  page : 0 < s.tables.pageSize
  synced : s.tables.Synced
  device : ∀ cached ∈ s.tables.gpuBlockTable, s.uploaded ≠ []
    ∧ cached.fingerprint = fingerprint s.uploaded
    ∧ cached.storage = s.uploaded.flatMap fun b => [b, UInt32.ofNat s.tables.pageSize]
  never : s.tables.gpuBlockTable = none → s.uploaded = []

theorem shown_new (p : KvBlockPool) (numHeads headDim pageSize : ℕ) :
    (new p numHeads headDim pageSize).Shown where
  page := by
    show 0 < if pageSize = 0 then blockSize else pageSize
    split_ifs with h
    · decide
    · exact Nat.pos_of_ne_zero h
  synced := rfl
  device _ h := absurd h (not_mem_none _)
  never _ := rfl

theorem Shown.copied (h : s.Shown) {c : TabledKvCache} (hc : Copied s.tables c) {p : KvBlockPool} :
    { s with tables := c, pool := p }.Shown := by
  refine ⟨hc.page ▸ h.page, hc.synced h.synced, ?_, ?_⟩
  · intro cached hcached
    show _ ∧ _ ∧ cached.storage = s.uploaded.flatMap fun b => [b, UInt32.ofNat c.pageSize]
    rw [hc.page]
    exact h.device cached (hc.device ▸ hcached)
  · intro hnone
    exact h.never (hc.device ▸ hnone)

theorem Shown.handle (h : s.Shown) (upload : Bool)
    (hs : s.step (.blockTableGpuHandle upload) = some s') : s'.Shown := by
  cases hs
  rcases blockTableGpuHandle_cases s.tables upload with
    ⟨hnil, heq⟩ | ⟨-, hreuse, cached, -, -, heq⟩ | ⟨hne, hnew, heq⟩
  · simpa only [heq, hnil, ne_eq, not_true_eq_false, false_and, and_false, if_false] using h
  · simpa only [heq, hreuse, not_true_eq_false, and_false, if_false] using h
  · have hpage : (s.tables.rebuild upload).1.pageSize = s.tables.pageSize := by
      unfold rebuild
      split_ifs <;> rfl
    rw [heq]
    cases upload with
    | false => simpa [rebuild] using h
    | true =>
      simp only [hne, hnew, ne_eq, not_false_eq_true, and_self, if_true]
      refine ⟨hpage ▸ h.page, h.synced, fun cached hcached => ?_,
        fun hnone => by simp [rebuild] at hnone⟩
      obtain rfl : ⟨fingerprint s.tables.blockTableU32, _⟩ = cached := Option.some.inj hcached
      exact ⟨hne, rfl, rfl⟩

theorem Shown.step (h : s.Shown) (hs : s.step call = some s') : s'.Shown := by
  cases call with
  | appendSlot env =>
    obtain ⟨r, hr, rfl⟩ := map_eq_some_iff.mp hs
    exact h.copied (appendSlot_copied hr)
  | tentativeAppend env n =>
    obtain ⟨r, hr, rfl⟩ := map_eq_some_iff.mp hs
    exact h.copied (tentativeAppend_copied hr)
  | appendKvLayer env layer k v =>
    obtain ⟨r, hr, rfl⟩ := map_eq_some_iff.mp hs
    exact h.copied (appendKvLayer_copied hr)
  | commit io accepted =>
    obtain ⟨r, hr, rfl⟩ := map_eq_some_iff.mp hs
    exact h.copied (commit_copied hr)
  | rollbackTo io len =>
    obtain ⟨r, hr, rfl⟩ := map_eq_some_iff.mp hs
    exact h.copied (rollbackTo_copied hr)
  | seedPrefix blocks =>
    cases hs
    exact h.copied seedPrefix_copied
  | blockTableGpuHandle upload => exact h.handle upload hs
  | pool p =>
    cases hs
    exact ⟨h.page, h.synced, h.device, h.never⟩

/-- A storage is of the table if the table fits the kernel's words and is not the uploaded one with
other entries between its ends; and only then. -/
theorem Shown.storage_iff (h : s.Shown) {upload : Bool} {storage : List UInt32}
    (hs : (s.tables.blockTableGpuHandle upload).2 = some storage) :
    storage.map UInt32.toNat = pairs s.tables.pageSize s.tables.table
      ↔ s.Fits ∧ s.MiddleKept := by
  have hfits : s.tables.table ≠ [] → ∀ entries : List UInt32,
      (entries.flatMap fun b => [b, UInt32.ofNat s.tables.pageSize]).map UInt32.toNat
          = pairs s.tables.pageSize s.tables.table
        ↔ s.Fits ∧ entries = s.tables.blockTableU32 := by
    intro hne entries
    have hpage : (UInt32.ofNat s.tables.pageSize).toNat = s.tables.pageSize
        ↔ s.tables.pageSize < 2 ^ 32 := by
      rw [UInt32.toNat_ofNat', Nat.mod_eq_iff_lt (by decide)]
    rw [toNat_pairs_iff, map_toNat_eq_iff, ← h.synced, Fits]
    tauto
  rcases blockTableGpuHandle_cases s.tables upload with
    ⟨-, heq⟩ | ⟨hne, -, cached, hcached, hf, heq⟩ | ⟨hne, hnew, heq⟩
  · rw [heq] at hs
    cases hs
  · have htable : s.tables.table ≠ [] := by
      intro hnil
      exact hne (h.synced.trans (by rw [hnil]; rfl))
    obtain ⟨hup, hfp, hstorage⟩ := h.device cached hcached
    have hends := (fingerprint_eq_iff hup hne).mp (hfp.symm.trans hf)
    have hmiddle : s.MiddleKept ↔ s.uploaded = s.tables.blockTableU32 :=
      ⟨fun hm => hm hends.1 hends.2.1 hends.2.2, fun heq _ _ _ => heq⟩
    rw [heq] at hs
    obtain rfl := Option.some.inj hs
    rw [hstorage, hfits htable, hmiddle]
  · have htable : s.tables.table ≠ [] := by
      intro hnil
      exact hne (h.synced.trans (by rw [hnil]; rfl))
    have hmiddle : s.MiddleKept := by
      intro hlen hhead hlast
      rcases hg : s.tables.gpuBlockTable with - | cached
      · rw [h.never hg] at hlen
        exact absurd (length_eq_zero_iff.mp hlen.symm) hne
      · obtain ⟨hup, hfp, -⟩ := h.device cached hg
        exact absurd ⟨cached, hg, hfp.trans ((fingerprint_eq_iff hup hne).mpr ⟨hlen, hhead, hlast⟩)⟩
          hnew
    rw [heq] at hs
    unfold rebuild at hs
    dsimp only at hs
    split_ifs at hs
    obtain rfl := Option.some.inj hs
    rw [hfits htable]
    tauto

theorem shown_of_reach {p : KvBlockPool} {numHeads headDim pageSize : ℕ}
    (hr : Steps.Reach step (fun _ _ => True) (new p numHeads headDim pageSize) s) : s.Shown :=
  hr.invariant (shown_new p numHeads headDim pageSize) fun _ _ _ h _ hs => h.step hs

/-- The device's storage is of the table exactly as long as the table is not cut back and grown
again to the same length and ends with other entries between. -/
theorem storage_current_iff {p : KvBlockPool} {numHeads headDim pageSize : ℕ}
    (hr : Steps.Reach step (fun _ _ => True) (new p numHeads headDim pageSize) s) {upload : Bool}
    {storage : List UInt32} (hs : (s.tables.blockTableGpuHandle upload).2 = some storage) :
    storage.map UInt32.toNat = pairs s.tables.pageSize s.tables.table
      ↔ s.Fits ∧ s.MiddleKept :=
  (shown_of_reach hr).storage_iff hs

def shownRun (env : Env) : List TableCall :=
  [.tentativeAppend env 48, .commit (fun _ => .ok ()) 48, .blockTableGpuHandle true]

def plainEnv : Env := ⟨fun _ => id, fun _ => .ok (), fun _ => none⟩

theorem storage_current_iff_shownRun :
    ∃ s storage, Steps.Reach step (fun _ _ => True) (new (Setup.tiny 4 none).pool 1 1 16) s
      ∧ s.tables.table = [0, 1, 2] ∧ (s.tables.blockTableGpuHandle true).2 = some storage
      ∧ storage = [0, 16, 1, 16, 2, 16]
      ∧ (storage.map UInt32.toNat = pairs s.tables.pageSize s.tables.table
        ↔ s.Fits ∧ s.MiddleKept) := by
  obtain ⟨s, hs⟩ : ∃ s, Steps.exec step (fun _ _ => True)
      (new (Setup.tiny 4 none).pool 1 1 16) (shownRun plainEnv) = some s := ⟨_, rfl⟩
  have hr := Steps.reach_of_exec hs
  have hrun := Option.some.inj hs
  have hhandle : (s.tables.blockTableGpuHandle true).2 = some [0, 16, 1, 16, 2, 16] := by
    rw [← hrun]
    rfl
  exact ⟨s, _, hr, by rw [← hrun]; rfl, hhandle, rfl, storage_current_iff hr hhandle⟩

/-- Two of the pages are given back and taken again, in the other order of the pool's free list: the
second block is another one now, and the device has the old one. -/
theorem storage_stale :
    ∃ s, Steps.Reach step (fun _ _ => True) (new (Setup.tiny 4 none).pool 1 1 16) s
      ∧ s.tables.table = [0, 3, 2]
      ∧ (s.tables.blockTableGpuHandle true).2 = some [0, 16, 1, 16, 2, 16] := by
  obtain ⟨s, hs⟩ : ∃ s, Steps.exec step (fun _ _ => True)
      (new (Setup.tiny 4 none).pool 1 1 16) (shownRun plainEnv ++
        [.rollbackTo (fun _ => .ok ()) 16, .tentativeAppend plainEnv 32]) = some s := ⟨_, rfl⟩
  have hr := Steps.reach_of_exec hs
  obtain rfl := Option.some.inj hs
  exact ⟨_, hr, rfl, rfl⟩

end TableRun

end Grim.Memory
