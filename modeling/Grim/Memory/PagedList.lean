import Grim.Memory.PagedRows

/-!
# The paged cache as a list of rows

The reference is a list of tokens: an append puts the chunk's tokens behind it, a rollback cuts
it.  The cache gathers this list as long as no chunk is appended after a cut: `rollback_to` takes
back the count of the sequence and leaves the cursors of the layers where they were.
-/

namespace Grim.Memory

open KvTransport Slice List Option

abbrev Token := ℕ → Row

/-- A chunk has `seq` tokens and its tensors one key and one value tensor for each layer. -/
inductive CacheStep
  | append (seq : ℕ) (k v : ℕ → Tensor) (env : ℕ → Env)
  | rollbackTo (len : ℕ) (io : ℕ → Except String Unit)

/-- A cache over a pool, the reference list, and whether a rollback has cut it yet. -/
structure Session where
  cache : PagedKvCache
  pool : KvBlockPool
  rows : List Token
  cut : Bool

namespace Session

open PagedKvCache

def new (p : KvBlockPool) (numHeads headDim pageSize : ℕ) : Session :=
  ⟨.new p numHeads headDim pageSize, p, [], false⟩

/-- The chunk of each of the first `n` layers in order, all of them successful. -/
def appendLayers (k v : ℕ → Tensor) (env : ℕ → Env) :
    ℕ → PagedKvCache → KvBlockPool → Option (PagedKvCache × KvBlockPool)
  | 0, c, p => some (c, p)
  | l + 1, c, p =>
    (appendLayers k v env l c p).bind fun (c, p) =>
      match c.appendKvLayer (env l) l (k l) (v l) p with
      | some (c, p, .ok ()) => some (c, p)
      | _ => none

def tokensOf (stride seq : ℕ) (k v : ℕ → Tensor) : List Token :=
  (List.range' 0 seq).map fun t l => rowOf stride (k l).data (v l).data t

/-- A step on the first `layers` layers, with `stride` numbers to a row. -/
def step (layers stride : ℕ) (s : Session) : CacheStep → Option Session
  | .append seq k v env => (appendLayers k v env layers s.cache s.pool).map fun (c, p) =>
      { s with cache := c, pool := p, rows := s.rows ++ tokensOf stride seq k v }
  | .rollbackTo len io => (s.cache.rollbackTo io len s.pool).map fun (c, p) =>
      { cache := c
        pool := p
        rows := s.rows.take len
        cut := s.cut || decide (len < s.rows.length) }

/-- The tensors of a chunk have as many rows for each layer, of one length. -/
def Uniform (layers stride : ℕ) (_ : Session) : CacheStep → Prop
  | .append seq k v _ => ∀ l < layers, (k l).seqStride = (seq, stride)
      ∧ (k l).data.length = seq * stride ∧ (v l).data.length = seq * stride
  | .rollbackTo _ _ => True

/-- A chunk is empty, or appended to a sequence that was never cut and to pages that are new to
its table and not spilled. -/
def Uncut (layers stride : ℕ) (s : Session) (call : CacheStep) : Prop :=
  Uniform layers stride s call ∧ match call with
    | .append seq _ _ env =>
      seq = 0 ∨ s.cut = false ∧ s.cache.CleanPages (env 0) (s.cache.lacking seq) s.pool
    | .rollbackTo _ _ => True

instance (layers stride : ℕ) (s : Session) (call : CacheStep) :
    Decidable (Uniform layers stride s call) := by
  cases call <;> unfold Uniform <;> infer_instance

instance (layers stride : ℕ) (s : Session) (call : CacheStep) :
    Decidable (Uncut layers stride s call) := by
  cases call <;> unfold Uncut <;> infer_instance

def Gathers (layers : ℕ) (s : Session) : Prop :=
  ∀ l < layers, s.cache.gatherKvF32 l s.cache.len
    = some (s.rows.flatMap fun r => (r l).1, s.rows.flatMap fun r => (r l).2)

variable {layers stride : ℕ} {s s' : Session}

/-- The rows of layer `l`. -/
def layerRows (rows : List Token) (l : ℕ) : List Row := rows.map (· l)

structure Listed (layers stride : ℕ) (s : Session) : Prop where
  shape : s.cache.Shape stride
  tentative : s.cache.tentativeLen = 0
  committed : s.cache.committedTokens = s.rows.length
  table : s.cache.table.length = blocksFor s.rows.length
  holds : ∀ l < layers, s.cache.Holds stride l (layerRows s.rows l)
  count : s.rows = [] ∧ s.cache.kPages = [] ∨ s.cache.kPages.length = layers
  cursor : s.cut = false → ∀ l pos : ℕ, s.cache.layerCommittedTokens[l]? = some pos →
    pos = s.rows.length

/-- The same after the first `n` layers of a chunk, which hold its rows already. -/
structure Chunk (layers stride n : ℕ) (old new : List Token) (c : PagedKvCache)
    (p : KvBlockPool) : Prop where
  shape : c.Shape stride
  tentative : c.tentativeLen = 0
  committed : c.committedTokens = (old ++ new).length
  table : c.table.length = blocksFor (old ++ new).length
  nodup : c.table.Nodup
  unspilled : c.Unspilled p
  count : c.kPages.length = n ∨ c.kPages.length = layers
  done : ∀ l < n, c.Holds stride l (layerRows (old ++ new) l)
    ∧ c.layerCommittedTokens[l]? = some (old ++ new).length
  left : ∀ l, n ≤ l → l < layers → c.Holds stride l (layerRows old l)
    ∧ ∀ pos : ℕ, c.layerCommittedTokens[l]? = some pos → pos = old.length

theorem listed_new (p : KvBlockPool) (numHeads headDim : ℕ) {pageSize : ℕ}
    (hp : pageSize = 0 ∨ pageSize = blockSize) :
    (new p numHeads headDim pageSize).Listed layers stride := by
  have hpage : (PagedKvCache.new p numHeads headDim pageSize).pageSize = 16 := by
    rcases hp with rfl | rfl <;> rfl
  have hzero : 0 = blocksFor 0 := by decide
  refine ⟨⟨hpage, rfl, ⟨?_, ?_⟩, rfl, rfl⟩, rfl, rfl, hzero, ?_, .inl ⟨rfl, rfl⟩, ?_⟩
  · intro page hpage
    cases hpage
  · intro page hpage
    cases hpage
  · intro l _
    exact holds_nil
  · intro _ l pos hpos
    simp [new, PagedKvCache.new] at hpos

theorem Listed.gathers (h : s.Listed layers stride) (hs : 0 < stride) : s.Gathers layers := by
  intro l hl
  have hlen : (layerRows s.rows l).length = s.rows.length := by simp [layerRows]
  have hg := (h.holds l hl).gather h.shape.fit hs h.shape.page (by rw [hlen]; exact h.table)
  have hcache : s.cache.len = (layerRows s.rows l).length := by
    rw [PagedKvCache.len, h.committed, h.tentative, hlen, Nat.add_zero]
  rw [hcache, hg]
  simp only [layerRows, flatMap_map]

section Append

variable {seq : ℕ} {k v : ℕ → Tensor} {env : ℕ → Env} {old : List Token} {c c' : PagedKvCache}
  {p p' : KvBlockPool} {n : ℕ}

theorem layerRows_append (old : List Token) (l : ℕ) :
    layerRows (old ++ tokensOf stride seq k v) l
      = layerRows old l ++ rowsOf stride (k l).data (v l).data 0 seq := by
  simp [layerRows, tokensOf, rowsOf]

theorem length_layerRows (rows : List Token) (l : ℕ) : (layerRows rows l).length = rows.length := by
  simp [layerRows]

theorem Chunk.of_appended
    (ha : Appended c c' p' stride n (layerRows (old ++ tokensOf stride seq k v) n))
    (ht : c.tentativeLen = 0) (hcount : c.kPages.length = n ∨ c.kPages.length = layers)
    (hn : n < layers)
    (hdone : ∀ l < n, c.Holds stride l (layerRows (old ++ tokensOf stride seq k v) l)
      ∧ c.layerCommittedTokens[l]? = some (old ++ tokensOf stride seq k v).length)
    (hleft : ∀ l, n < l → l < layers → c.Holds stride l (layerRows old l)
      ∧ ∀ pos : ℕ, c.layerCommittedTokens[l]? = some pos → pos = old.length) :
    Chunk layers stride (n + 1) old (tokensOf stride seq k v) c' p' := by
  obtain ⟨ids, hids⟩ := ha.keeps
  have hframe : ∀ {l : ℕ} {R : List Row}, l ≠ n → c.Holds stride l R → c'.Holds stride l R := by
    intro l R hl hR
    refine hR.frame ?_ ?_ ?_
    · intro i _ b hb
      rw [hids]
      exact (getElem?_append_left (List.getElem?_eq_some_iff.mp hb).1).trans hb
    · intro page hpage
      rw [ha.others.k l hl]
      exact hpage
    · intro page hpage
      rw [ha.others.v l hl]
      exact hpage
  have hlen := length_layerRows (old ++ tokensOf stride seq k v) n
  refine ⟨ha.shape, ha.tentative.trans ht, ?_, ?_, ha.nodup, ha.unspilled, ?_, ?_, ?_⟩
  · rw [ha.committed, hlen]
  · rw [ha.table, hlen]
  · rw [ha.count]
    omega
  · intro l hl
    by_cases hln : l = n
    · subst hln
      exact ⟨ha.holds, by rw [ha.cursor, hlen]⟩
    · obtain ⟨hh, hc⟩ := hdone l (by omega)
      refine ⟨hframe hln hh, ?_⟩
      rw [ha.others.cursor l hln]
      exact hc
  · intro l hl hll
    obtain ⟨hh, hc⟩ := hleft l (by omega) hll
    refine ⟨hframe (by omega) hh, ?_⟩
    rw [ha.others.cursor l (by omega)]
    exact hc

theorem Listed.first (h : s.Listed layers stride) (hs : 0 < stride) (hL : 0 < layers)
    (hseq : 0 < seq) (hcut : s.cut = false) (hk : (k 0).seqStride = (seq, stride))
    (hclean : s.cache.CleanPages (env 0) (s.cache.lacking seq) s.pool)
    (ha : s.cache.appendKvLayer (env 0) 0 (k 0) (v 0) s.pool = some (c', p', .ok ())) :
    Chunk layers stride 1 s.rows (tokensOf stride seq k v) c' p' := by
  have hlen := length_layerRows s.rows 0
  have happ := appendKvLayer_appended hs hseq hk h.shape (Nat.zero_le _) (h.holds 0 hL)
    (by rw [hlen]; exact h.cursor hcut 0) (by rw [hlen, if_pos rfl]; exact h.committed)
    (by rw [h.committed]; exact h.table) hclean ha
  rw [← layerRows_append] at happ
  refine .of_appended happ h.tentative ?_ hL (fun l hl => absurd hl (Nat.not_lt_zero l)) ?_
  · rcases h.count with ⟨-, hnil⟩ | hcount
    · exact .inl (by rw [hnil]; rfl)
    · exact .inr hcount
  · intro l _ hl
    exact ⟨h.holds l hl, h.cursor hcut l⟩

theorem Chunk.next (h : Chunk layers stride n old (tokensOf stride seq k v) c p) (hs : 0 < stride)
    (hn0 : 0 < n) (hn : n < layers) (hseq : 0 < seq) (hk : (k n).seqStride = (seq, stride))
    {env : Env} (ha : c.appendKvLayer env n (k n) (v n) p = some (c', p', .ok ())) :
    Chunk layers stride (n + 1) old (tokensOf stride seq k v) c' p' := by
  have hlen := length_layerRows old n
  have hne : n ≠ 0 := by omega
  obtain ⟨hh, hc⟩ := h.left n (le_refl n) hn
  have hclean : c.CleanPages env (if n = 0 then c.lacking seq else 0) p := by
    rw [if_neg hne]
    refine ⟨?_, ?_⟩
    · rw [append_nil]
      exact h.nodup
    · exact h.unspilled.congr (append_nil _) rfl
  have htokens : (tokensOf stride seq k v).length = seq := by simp [tokensOf]
  have happ := appendKvLayer_appended hs hseq hk h.shape (by have := h.count; omega) hh
    (by rw [hlen]; exact hc)
    (by rw [hlen, if_neg hne, h.committed, length_append, htokens])
    (by rw [h.committed]; exact h.table) hclean ha
  rw [← layerRows_append] at happ
  exact .of_appended happ h.tentative h.count hn h.done fun l hl hll => h.left l (by omega) hll

theorem Chunk.listed (h : Chunk layers stride layers s.rows (tokensOf stride seq k v) c p) :
    Listed layers stride
      { s with cache := c, pool := p, rows := s.rows ++ tokensOf stride seq k v } := by
  have hcount : c.kPages.length = layers := by
    have := h.count
    omega
  refine ⟨h.shape, h.tentative, h.committed, h.table, fun l hl => (h.done l hl).1, .inr hcount, ?_⟩
  intro _ l pos hpos
  have hlt := (List.getElem?_eq_some_iff.mp hpos).1
  rw [h.shape.cursorCount, hcount] at hlt
  have hdone := (h.done l hlt).2
  rw [hpos, Option.some.injEq] at hdone
  exact hdone

theorem Listed.appendLayers (h : s.Listed layers stride) (hs : 0 < stride) (hseq : 0 < seq)
    (hcut : s.cut = false)
    (hk : ∀ l < layers, (k l).seqStride = (seq, stride))
    (hclean : s.cache.CleanPages (env 0) (s.cache.lacking seq) s.pool) :
    ∀ (n : ℕ) (c : PagedKvCache) (p : KvBlockPool), n < layers →
      appendLayers k v env (n + 1) s.cache s.pool = some (c, p) →
      Chunk layers stride (n + 1) s.rows (tokensOf stride seq k v) c p := by
  intro n
  induction n with
  | zero =>
    intro c p hn ha
    obtain ⟨⟨c₀, p₀⟩, h₀, ha⟩ := bind_eq_some_iff.mp ha
    cases h₀
    dsimp only at ha
    split at ha
    · rename_i c₁ p₁ h₁
      cases ha
      exact h.first hs hn hseq hcut (hk 0 hn) hclean h₁
    · cases ha
  | succ n ih =>
    intro c p hn ha
    obtain ⟨⟨c₀, p₀⟩, h₀, ha⟩ := bind_eq_some_iff.mp ha
    dsimp only at ha
    split at ha
    · rename_i c₁ p₁ h₁
      cases ha
      exact (ih c₀ p₀ (by omega) h₀).next hs (by omega) hn hseq (hk (n + 1) hn) h₁
    · cases ha

theorem appendLayers_empty (hk : ∀ l < n, (k l).seqStride.1 = 0 ∨ (k l).seqStride.2 = 0) :
    Session.appendLayers k v env n c p = some (c, p) := by
  induction n with
  | zero => rfl
  | succ n ih =>
    have hnone : c.appendKvLayer (env n) n (k n) (v n) p = some (c, p, .ok ()) := by
      unfold appendKvLayer
      exact if_pos (hk n (by omega)).symm
    rw [Session.appendLayers, ih fun l hl => hk l (by omega), bind_some]
    simp only [hnone]

end Append

theorem dropBlocks_table {io : ℕ → Except String Unit} (n : ℕ) :
    ∀ {c c' : PagedKvCache} {p p' : KvBlockPool}, dropBlocks io n c p = some (c', p') →
      c' = { c with table := c.table.take (c.table.length - n) } := by
  induction n with
  | zero =>
    intro c c' p p' h
    cases h
    simp
  | succ n ih =>
    intro c c' p p' h
    unfold dropBlocks at h
    split at h
    · rename_i hlast
      cases h
      have hnil := getLast?_eq_none_iff.mp hlast
      have htake : c.table.take (c.table.length - (n + 1)) = c.table := by simp [hnil]
      rw [htake]
    · obtain ⟨q, -, h⟩ := bind_eq_some_iff.mp h
      rw [ih h]
      congr 1
      rw [dropLast_eq_take, take_take, length_take]
      congr 1
      omega

theorem Listed.rollbackTo (h : s.Listed layers stride) {len : ℕ} {io : ℕ → Except String Unit}
    (hs : s.step layers stride (.rollbackTo len io) = some s') : s'.Listed layers stride := by
  obtain ⟨⟨c, p⟩, hc, rfl⟩ := map_eq_some_iff.mp hs
  have hc := dropBlocks_table _ hc
  have hmin : min s.cache.committedTokens len = (s.rows.take len).length := by
    rw [h.committed, length_take, Nat.min_comm]
  have hle : (s.rows.take len).length ≤ s.rows.length := length_take_le' _ _
  have htable : c.table = s.cache.table.take (blocksFor (s.rows.take len).length) := by
    rw [hc]
    show s.cache.table.take (s.cache.table.length
      - (s.cache.table.length - blocksFor (min s.cache.committedTokens len))) = _
    rw [hmin, h.table]
    congr 1
    have : blocksFor (s.rows.take len).length ≤ blocksFor s.rows.length :=
      Nat.div_le_div_right (by omega)
    omega
  have hkeeps : blocksFor (s.rows.take len).length ≤ s.cache.table.length := by
    rw [h.table]
    exact Nat.div_le_div_right (by omega)
  have hk : c.kPages = s.cache.kPages := by rw [hc]
  have hv : c.vPages = s.cache.vPages := by rw [hc]
  have hcur : c.layerCommittedTokens = s.cache.layerCommittedTokens := by rw [hc]
  have hcap : c.capacity = s.cache.capacity := by rw [hc]
  refine ⟨⟨?_, ?_, ?_, ?_, ?_⟩, ?_, ?_, ?_, ?_, ?_, ?_⟩
  · show c.pageSize = 16
    rw [hc]
    exact h.shape.page
  · show c.seededBlocksPending = 0
    rw [hc]
    exact h.shape.pending
  · show c.PagesFit stride
    unfold PagesFit
    rw [hk, hv, hcap]
    exact h.shape.fit
  · show c.vPages.length = c.kPages.length
    rw [hk, hv]
    exact h.shape.vCount
  · show c.layerCommittedTokens.length = c.kPages.length
    rw [hcur, hk]
    exact h.shape.cursorCount
  · show c.tentativeLen = 0
    rw [hc]
  · show c.committedTokens = (s.rows.take len).length
    rw [hc]
    exact hmin
  · show c.table.length = blocksFor (s.rows.take len).length
    rw [htable, length_take]
    exact min_eq_left hkeeps
  · intro l hl
    have hrows : layerRows (s.rows.take len) l = (layerRows s.rows l).take len := by
      simp [layerRows]
    show c.Holds stride l (layerRows (s.rows.take len) l)
    have hlen := length_layerRows (s.rows.take len) l
    rw [hrows] at hlen ⊢
    refine ((h.holds l hl).take len).frame ?_ ?_ ?_
    · intro i hi b hb
      rw [htable, getElem?_take_of_lt]
      · exact hb
      · rw [hlen] at hi
        unfold blocksFor blockSize
        omega
    · rw [hk]
      exact fun _ hpage => hpage
    · rw [hv]
      exact fun _ hpage => hpage
  · show s.rows.take len = [] ∧ c.kPages = [] ∨ c.kPages.length = layers
    rw [hk]
    rcases h.count with ⟨hrows, hnil⟩ | hcount
    · exact .inl ⟨by rw [hrows, take_nil], hnil⟩
    · exact .inr hcount
  · intro hcut l pos hpos
    have hcut : (s.cut || decide (len < s.rows.length)) = false := hcut
    rw [Bool.or_eq_false_iff, decide_eq_false_iff_not] at hcut
    show pos = (s.rows.take len).length
    rw [take_of_length_le (by omega)]
    exact h.cursor hcut.1 l pos (hcur ▸ hpos)

theorem Listed.step {call : CacheStep} (h : s.Listed layers stride) (hs : 0 < stride)
    (hL : 0 < layers) (hok : Uncut layers stride s call)
    (hstep : s.step layers stride call = some s') : s'.Listed layers stride := by
  cases call with
  | append seq k v env =>
    obtain ⟨huniform, hok⟩ := hok
    obtain ⟨⟨c, p⟩, hc, rfl⟩ := map_eq_some_iff.mp hstep
    rcases Nat.eq_zero_or_pos seq with rfl | hseq
    · rw [appendLayers_empty fun l hl => .inl (by rw [(huniform l hl).1])] at hc
      cases hc
      have hnil : s.rows ++ tokensOf stride 0 k v = s.rows := append_nil _
      rw [hnil]
      exact h
    · obtain ⟨hcut, hclean⟩ := hok.resolve_left (by omega)
      obtain ⟨n, rfl⟩ : ∃ n, layers = n + 1 := ⟨layers - 1, by omega⟩
      exact (h.appendLayers hs hseq hcut (fun l hl => (huniform l hl).1) hclean n c p (by omega)
        hc).listed
  | rollbackTo len io => exact h.rollbackTo hstep

/-- Rows without numbers are never stored, and gathered as nothing. -/
structure Blank (layers : ℕ) (s : Session) : Prop where
  committed : s.cache.committedTokens = 0
  tentative : s.cache.tentativeLen = 0
  rows : ∀ r ∈ s.rows, ∀ l < layers, r l = ([], [])

theorem Blank.gathers (h : s.Blank layers) : s.Gathers layers := by
  intro l hl
  have hk : s.rows.flatMap (fun r => (r l).1) = [] :=
    flatMap_eq_nil_iff.mpr fun r hr => by rw [h.rows r hr l hl]
  have hv : s.rows.flatMap (fun r => (r l).2) = [] :=
    flatMap_eq_nil_iff.mpr fun r hr => by rw [h.rows r hr l hl]
  rw [PagedKvCache.len, h.committed, h.tentative, hk, hv]
  rfl

theorem Blank.step {call : CacheStep} (h : s.Blank layers) (hok : Uncut layers 0 s call)
    (hstep : s.step layers 0 call = some s') : s'.Blank layers := by
  cases call with
  | append seq k v env =>
    obtain ⟨huniform, -⟩ := hok
    obtain ⟨⟨c, p⟩, hc, rfl⟩ := map_eq_some_iff.mp hstep
    rw [appendLayers_empty fun l hl => .inr (by rw [(huniform l hl).1])] at hc
    cases hc
    refine ⟨h.committed, h.tentative, ?_⟩
    intro r hr l hl
    rcases mem_append.mp hr with hr | hr
    · exact h.rows r hr l hl
    · obtain ⟨t, -, rfl⟩ := List.mem_map.mp hr
      simp [rowOf]
  | rollbackTo len io =>
    obtain ⟨⟨c, p⟩, hc, rfl⟩ := map_eq_some_iff.mp hstep
    have hc := dropBlocks_table _ hc
    refine ⟨?_, ?_, fun r hr => h.rows r (mem_of_mem_take hr)⟩
    · show c.committedTokens = 0
      rw [hc]
      show min s.cache.committedTokens len = 0
      rw [h.committed, Nat.zero_min]
    · show c.tentativeLen = 0
      rw [hc]

/-- A cache that is not appended to after a cut gathers the rows of the list. -/
theorem gathers_list (p : KvBlockPool) (numHeads headDim pageSize layers stride : ℕ)
    (hp : pageSize = 0 ∨ pageSize = blockSize) (s : Session)
    (hr : Steps.Reach (step layers stride) (Uncut layers stride) (new p numHeads headDim pageSize)
      s) : s.Gathers layers := by
  rcases Nat.eq_zero_or_pos layers with rfl | hL
  · exact fun l hl => absurd hl (Nat.not_lt_zero l)
  rcases Nat.eq_zero_or_pos stride with rfl | hs
  · have hblank : s.Blank layers := by
      refine hr.invariant ⟨rfl, rfl, ?_⟩ fun _ _ _ h hok hstep => h.step hok hstep
      intro r hr
      cases hr
    exact hblank.gathers
  · have hlisted : s.Listed layers stride :=
      hr.invariant (listed_new p numHeads headDim hp) fun _ _ _ h hok hstep =>
        h.step hs hL hok hstep
    exact hlisted.gathers hs

def tinyPool : KvBlockPool := .new 2 1 1 false 0

def tinyEnv : Env := ⟨fun _ _ => 0, fun _ => .ok (), fun _ => none⟩

def tinyChunk (rows : List UInt32) : CacheStep :=
  .append rows.length (fun _ => ⟨[rows.length, 1], rows⟩) (fun _ => ⟨[rows.length, 1], rows⟩)
    fun _ => tinyEnv

/-- Two layers are filled across a block and cut back. -/
theorem gathers_list_cut : ∃ s, Steps.Reach (step 2 1) (Uncut 2 1) (new tinyPool 1 1 16) s
    ∧ s.rows.length = 5 ∧ s.Gathers 2 := by
  obtain ⟨s, hrun⟩ : ∃ s, Steps.exec (step 2 1) (Uncut 2 1) (new tinyPool 1 1 16)
      [tinyChunk [1, 2, 3], tinyChunk (List.replicate 14 7), .rollbackTo 5 fun _ => .ok ()]
        = some s := ⟨_, rfl⟩
  have hr := Steps.reach_of_exec hrun
  refine ⟨s, hr, ?_, gathers_list tinyPool 1 1 16 2 1 (.inr rfl) s hr⟩
  obtain rfl := Option.some.inj hrun
  rfl

/-- The token appended after a cut is written behind the rows cut off. -/
theorem append_after_cut_lost : ¬ ∀ (p : KvBlockPool)
    (numHeads headDim pageSize layers stride : ℕ), pageSize = 0 ∨ pageSize = blockSize →
    ∀ s, Steps.Reach (step layers stride) (Uniform layers stride)
      (new p numHeads headDim pageSize) s → s.Gathers layers := by
  intro hall
  obtain ⟨s, hrun⟩ : ∃ s, Steps.exec (step 1 1) (Uniform 1 1) (new tinyPool 1 1 16)
      [tinyChunk [10, 11], .rollbackTo 1 fun _ => .ok (), tinyChunk [12]] = some s := ⟨_, rfl⟩
  have hgather := hall tinyPool 1 1 16 1 1 (.inr rfl) s (Steps.reach_of_exec hrun) 0 (by omega)
  obtain rfl := Option.some.inj hrun
  have hrows : some (([10, 11], [10, 11]) : Row) = some ([10, 12], [10, 12]) := hgather
  simp at hrows

end Session

end Grim.Memory
