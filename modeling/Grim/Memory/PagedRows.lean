import Grim.Lib.Steps
import Grim.Memory.Paged

/-!
# The rows a paged cache holds

Token `i` of the sequence is at slot `i % 16` of the table's block `i / 16`.  An append puts its
rows behind those already there while the layer's cursor is at the end of the sequence and the
table has no block twice; what `gather_kv_f32` reads are the rows in the order of the table.
-/

namespace Grim.Memory

open KvTransport Slice List

abbrev Row := List UInt32 × List UInt32

namespace PagedKvCache

variable {c c' : PagedKvCache} {p p' : KvBlockPool} {stride l : ℕ} {R : List Row}

/-- Where the row of token `i` begins in the pages, in rows. -/
def slotIn (b i : ℕ) : ℕ := b * 16 + i % 16

/-- Layer `l` holds the rows `R` in its pages, each at the slot of its token. -/
def Holds (c : PagedKvCache) (stride l : ℕ) (R : List Row) : Prop :=
  ∀ i r, R[i]? = some r → r.1.length = stride ∧ r.2.length = stride
    ∧ ∃ b kPage vPage, c.table[i / 16]? = some b ∧ c.kPages[l]? = some kPage
      ∧ c.vPages[l]? = some vPage ∧ slice kPage (slotIn b i * stride) stride = r.1
      ∧ slice vPage (slotIn b i * stride) stride = r.2

theorem holds_nil : c.Holds stride l [] := by
  intro i r hr
  simp at hr

theorem Holds.take (h : c.Holds stride l R) (n : ℕ) : c.Holds stride l (R.take n) := by
  intro i r hr
  rw [getElem?_take] at hr
  split_ifs at hr
  exact h i r hr

theorem Holds.frame (h : c.Holds stride l R)
    (htable : ∀ i < R.length, ∀ b, c.table[i / 16]? = some b → c'.table[i / 16]? = some b)
    (hk : ∀ page, c.kPages[l]? = some page → c'.kPages[l]? = some page)
    (hv : ∀ page, c.vPages[l]? = some page → c'.vPages[l]? = some page) :
    c'.Holds stride l R := by
  intro i r hr
  obtain ⟨hr1, hr2, b, kPage, vPage, hb, hkp, hvp, hks, hvs⟩ := h i r hr
  have hi : i < R.length := (List.getElem?_eq_some_iff.mp hr).1
  exact ⟨hr1, hr2, b, kPage, vPage, htable i hi b hb, hk kPage hkp, hv vPage hvp, hks, hvs⟩

/-- The pages of layer `l` are those of all blocks. -/
def PagesFit (c : PagedKvCache) (stride : ℕ) : Prop :=
  (∀ page ∈ c.kPages, page.length = c.capacity * 16 * stride)
    ∧ ∀ page ∈ c.vPages, page.length = c.capacity * 16 * stride

theorem gatherBlocks_some {page : List UInt32} {elems : ℕ} (he : 0 < elems) : ∀ {table : List ℕ},
    (∀ b ∈ table, b * elems + elems ≤ page.length) →
    gatherBlocks page elems table = some (table.flatMap fun b => slice page (b * elems) elems)
  | [], _ => rfl
  | b :: table, hb => by
    have hlt := hb b (.head _)
    rw [gatherBlocks, if_neg (by omega), gatherBlocks_some he fun b hb' => hb b (.tail _ hb')]
    simp

theorem flatten_eq_slice {xs : List UInt32} {off : ℕ} {rows : List (List UInt32)}
    (h : ∀ i r, rows[i]? = some r → slice xs (off + i * stride) stride = r) :
    rows.flatten = slice xs off (rows.length * stride) := by
  rw [slice_rows, flatMap_def]
  congr 1
  apply ext_getElem?
  intro i
  by_cases hi : i < rows.length
  · rw [getElem?_map, getElem?_range hi, Option.map_some,
      h i _ (getElem?_eq_getElem hi), getElem?_eq_getElem hi]
  · rw [getElem?_eq_none (by omega), getElem?_eq_none (by simp; omega)]

theorem take_blocks {page : List UInt32} : ∀ {table : List ℕ} {rows : List (List UInt32)},
    rows.length ≤ 16 * table.length →
    (∀ b ∈ table, b * (16 * stride) + 16 * stride ≤ page.length) →
    (∀ i r, rows[i]? = some r → ∃ b, table[i / 16]? = some b
      ∧ slice page (slotIn b i * stride) stride = r) →
    (table.flatMap fun b => slice page (b * (16 * stride)) (16 * stride)).take
      (rows.length * stride) = rows.flatten
  | [], rows, hlen, _, _ => by
    obtain rfl : rows = [] := eq_nil_of_length_eq_zero (by simpa using hlen)
    simp
  | b :: table, rows, hlen, hfit, hrows => by
    have hb := hfit b (.head _)
    have hblock : (slice page (b * (16 * stride)) (16 * stride)).length = 16 * stride := by
      rw [length_slice]
      omega
    have hfirst : (rows.take 16).flatten
        = slice page (b * (16 * stride)) ((rows.take 16).length * stride) := by
      refine flatten_eq_slice ?_
      intro i r hr
      rw [getElem?_take] at hr
      split_ifs at hr with hi
      obtain ⟨b', hb', hs⟩ := hrows i r hr
      rw [Nat.div_eq_of_lt hi, getElem?_cons_zero, Option.some.injEq] at hb'
      subst hb'
      rw [slotIn, Nat.mod_eq_of_lt hi] at hs
      rw [← hs]
      congr 1
      ring
    rw [flatMap_cons]
    by_cases hle : rows.length ≤ 16
    · rw [take_of_length_le hle] at hfirst
      rw [hfirst, take_append_of_le_length (by rw [hblock]; exact Nat.mul_le_mul_right _ hle),
        take_slice, min_eq_left (Nat.mul_le_mul_right _ hle)]
    · have hrest : (rows.drop 16).length = rows.length - 16 := length_drop
      have hmul : rows.length * stride = 16 * stride + (rows.length - 16) * stride := by
        rw [← Nat.add_mul]
        congr 1
        omega
      have hlen16 : (rows.take 16).length = 16 := by
        rw [length_take]
        omega
      have htail : ∀ i r, (rows.drop 16)[i]? = some r → ∃ b, table[i / 16]? = some b
          ∧ slice page (slotIn b i * stride) stride = r := by
        intro i r hr
        rw [getElem?_drop] at hr
        obtain ⟨b', hb', hs⟩ := hrows (16 + i) r hr
        have hdiv : (16 + i) / 16 = i / 16 + 1 := by omega
        have hmod : (16 + i) % 16 = i % 16 := by omega
        rw [hdiv, getElem?_cons_succ] at hb'
        rw [slotIn, hmod] at hs
        exact ⟨b', hb', hs⟩
      have hrestlen : (rows.drop 16).length ≤ 16 * table.length := by
        rw [length_cons] at hlen
        omega
      have ih := take_blocks hrestlen (fun b hb => hfit b (.tail _ hb)) htail
      rw [hmul, take_append, take_of_length_le (by omega), hblock,
        Nat.add_sub_cancel_left, ← hrest, ih, ← take_append_drop 16 rows,
        flatten_append, take_append_drop, hfirst, hlen16]

theorem Holds.block_lt (h : c.Holds stride l R) (hfit : c.PagesFit stride) (hs : 0 < stride)
    {i b : ℕ} (hi : i < R.length) (hb : c.table[i / 16]? = some b) : b < c.capacity := by
  obtain ⟨hr1, -, b', kPage, vPage, hb', hkp, -, hks, -⟩ := h i R[i] (getElem?_eq_getElem hi)
  rw [hb, Option.some.injEq] at hb'
  subst hb'
  have hlen := congrArg List.length hks
  rw [hr1, length_slice, hfit.1 kPage (mem_of_getElem? hkp)] at hlen
  have hlt : slotIn b i * stride + stride ≤ c.capacity * 16 * stride := by omega
  rw [← Nat.succ_mul] at hlt
  have hle := Nat.le_of_mul_le_mul_right hlt hs
  unfold slotIn at hle
  omega

theorem Holds.keys (h : c.Holds stride l R) {kPage : List UInt32}
    (hkp : c.kPages[l]? = some kPage) : ∀ i r, (R.map (·.1))[i]? = some r →
      ∃ b, c.table[i / 16]? = some b ∧ slice kPage (slotIn b i * stride) stride = r := by
  intro i r hr
  rw [getElem?_map, Option.map_eq_some_iff] at hr
  obtain ⟨r', hr', rfl⟩ := hr
  obtain ⟨-, -, b, kPage', vPage, hb, hkp', -, hks, -⟩ := h i r' hr'
  rw [hkp, Option.some.injEq] at hkp'
  subst hkp'
  exact ⟨b, hb, hks⟩

theorem Holds.values (h : c.Holds stride l R) {vPage : List UInt32}
    (hvp : c.vPages[l]? = some vPage) : ∀ i r, (R.map (·.2))[i]? = some r →
      ∃ b, c.table[i / 16]? = some b ∧ slice vPage (slotIn b i * stride) stride = r := by
  intro i r hr
  rw [getElem?_map, Option.map_eq_some_iff] at hr
  obtain ⟨r', hr', rfl⟩ := hr
  obtain ⟨-, -, b, kPage, vPage', hb, -, hvp', -, hvs⟩ := h i r' hr'
  rw [hvp, Option.some.injEq] at hvp'
  subst hvp'
  exact ⟨b, hb, hvs⟩

/-- Where the table has the blocks of its rows and no others, gathering reads all rows. -/
theorem Holds.gather (h : c.Holds stride l R) (hfit : c.PagesFit stride) (hs : 0 < stride)
    (hpage : c.pageSize = 16) (htable : c.table.length = blocksFor R.length) :
    c.gatherKvF32 l R.length = some (R.flatMap (·.1), R.flatMap (·.2)) := by
  unfold gatherKvF32
  split_ifs with hzero
  · rw [length_eq_zero_iff] at hzero
    simp [hzero]
  · unfold blocksFor blockSize at htable
    have hpos : 0 < R.length := Nat.pos_of_ne_zero hzero
    obtain ⟨-, -, b, kPage, vPage, hb, hkp, hvp, -, -⟩ := h 0 R[0] (getElem?_eq_getElem hpos)
    have hcap := h.block_lt hfit hs hpos hb
    have hklen := hfit.1 kPage (mem_of_getElem? hkp)
    have hvlen := hfit.2 vPage (mem_of_getElem? hvp)
    have hblock : ∀ b ∈ c.table, b < c.capacity := by
      intro b hb
      obtain ⟨j, hj, rfl⟩ := getElem_of_mem hb
      have hlt : 16 * j < R.length := by omega
      refine h.block_lt hfit hs hlt ?_
      rw [Nat.mul_div_cancel_left _ (by omega)]
      exact getElem?_eq_getElem hj
    have hbound : ∀ b ∈ c.table, b * (16 * stride) + 16 * stride ≤ c.capacity * 16 * stride := by
      intro b hb
      have := Nat.mul_le_mul_right (16 * stride) (hblock b hb)
      rw [Nat.succ_mul] at this
      calc b * (16 * stride) + 16 * stride ≤ c.capacity * (16 * stride) := this
        _ = c.capacity * 16 * stride := by ring
    have hcap16 : 0 < c.capacity * 16 := by omega
    have hpos' : 0 < c.capacity * 16 * stride := Nat.mul_pos hcap16 hs
    have helems : 0 < 16 * stride := by omega
    have hne : ¬ (kPage = [] ∨ vPage = []) := by
      rintro (rfl | rfl)
      · rw [length_nil] at hklen
        omega
      · rw [length_nil] at hvlen
        omega
    have hstride : kPage.length / (c.capacity * 16) = stride := by
      rw [hklen]
      exact Nat.mul_div_cancel_left _ hcap16
    rw [hkp, hvp, hpage]
    simp only [Option.bind_some, if_neg hne, hstride, if_neg (Nat.pos_iff_ne_zero.mp hs)]
    rw [min_eq_right (by omega), take_length, gatherBlocks_some helems fun b hb => by
      rw [hklen]; exact hbound b hb, gatherBlocks_some helems fun b hb => by
      rw [hvlen]; exact hbound b hb]
    have hlen : R.length ≤ 16 * c.table.length := by omega
    have hk := take_blocks (by simpa using hlen) (fun b hb => by rw [hklen]; exact hbound b hb)
      (h.keys hkp)
    have hv := take_blocks (by simpa using hlen) (fun b hb => by rw [hvlen]; exact hbound b hb)
      (h.values hvp)
    rw [length_map] at hk hv
    simp only [Option.bind_some, Option.map_some]
    rw [hk, hv, flatMap_def, flatMap_def]

theorem Outcome.andThen_ok {o : Outcome} {f : PagedKvCache → KvBlockPool → Outcome}
    (h : o.andThen f = some (c', p', .ok ())) :
    ∃ c p, o = some (c, p, .ok ()) ∧ f c p = some (c', p', .ok ()) := by
  unfold Outcome.andThen at h
  split at h
  · exact ⟨_, _, rfl, h⟩
  · rename_i hno
    exact absurd h (hno _ _)

section Store

variable {id layer within n : ℕ} {k v : List UInt32}
  {quantize : List UInt32 → Option (UInt16 × List UInt8)}

theorem storeFirst_spill (h : p.storeFirst id within k v n = some p') : p'.spill = p.spill := by
  simp only [KvBlockPool.storeFirst] at h
  split_ifs at h
  · obtain ⟨keys, -, h⟩ := Option.bind_eq_some_iff.mp h
    obtain ⟨values, -, rfl⟩ := Option.map_eq_some_iff.mp h
    rfl
  · cases h
    rfl

theorem storeLayer_spill (h : p.storeLayer id layer within k v = some p') :
    p'.spill = p.spill := by
  simp only [KvBlockPool.storeLayer] at h
  split_ifs at h
  · obtain ⟨keys, -, h⟩ := Option.bind_eq_some_iff.mp h
    obtain ⟨values, -, rfl⟩ := Option.map_eq_some_iff.mp h
    rfl
  · cases h
    rfl

theorem storePacked_spill : (p.storePacked id layer quantize).spill = p.spill := by
  rcases p.storePacked_cases id layer quantize with heq | ⟨format, bytes, n, heq⟩ <;> rw [heq]
  unfold KvBlockPool.tryWriteLayerPacked
  split_ifs <;> rfl

theorem storeToken_spill (h : p.storeToken id layer within k v n quantize = some p') :
    p'.spill = p.spill := by
  unfold KvBlockPool.storeToken at h
  split at h
  · cases h
  · obtain ⟨q, hq, rfl⟩ := Option.map_eq_some_iff.mp h
    rw [storePacked_spill]
    split at hq
    · exact storeFirst_spill hq
    · exact storeLayer_spill hq

end Store

def Unspilled (c : PagedKvCache) (p : KvBlockPool) : Prop :=
  match p.spill with
  | none => True
  | some s => c.hostBlocks s = []

instance : Decidable (c.Unspilled p) := by
  unfold Unspilled
  split <;> infer_instance

structure Shape (c : PagedKvCache) (stride : ℕ) : Prop where
  page : c.pageSize = 16
  pending : c.seededBlocksPending = 0
  fit : c.PagesFit stride
  vCount : c.vPages.length = c.kPages.length
  cursorCount : c.layerCommittedTokens.length = c.kPages.length

structure OnlyLayer (c c' : PagedKvCache) (l : ℕ) : Prop where
  k : ∀ j, j ≠ l → c'.kPages[j]? = c.kPages[j]?
  v : ∀ j, j ≠ l → c'.vPages[j]? = c.vPages[j]?
  cursor : ∀ j, j ≠ l → c'.layerCommittedTokens[j]? = c.layerCommittedTokens[j]?

theorem OnlyLayer.refl (c : PagedKvCache) (l : ℕ) : OnlyLayer c c l :=
  ⟨fun _ _ => rfl, fun _ _ => rfl, fun _ _ => rfl⟩

theorem OnlyLayer.trans {c'' : PagedKvCache} (h : OnlyLayer c c' l) (h' : OnlyLayer c' c'' l) :
    OnlyLayer c c'' l :=
  ⟨fun j hj => (h'.k j hj).trans (h.k j hj), fun j hj => (h'.v j hj).trans (h.v j hj),
    fun j hj => (h'.cursor j hj).trans (h.cursor j hj)⟩

/-- What the writes of a layer's rows leave: the layer holds the rows `R`, its cursor behind them,
and nothing else moved. -/
structure Wrote (c c' : PagedKvCache) (p p' : KvBlockPool) (stride l : ℕ) (R : List Row) :
    Prop where
  shape : c'.Shape stride
  table : c'.table = c.table
  capacity : c'.capacity = c.capacity
  tentative : c'.tentativeLen = c.tentativeLen
  count : c'.kPages.length = c.kPages.length
  others : OnlyLayer c c' l
  cursor : c'.layerCommittedTokens[l]? = some R.length
  holds : c'.Holds stride l R
  spill : p'.spill = p.spill

theorem Wrote.trans {c'' : PagedKvCache} {p'' : KvBlockPool} {R' : List Row}
    (h : Wrote c c' p p' stride l R) (h' : Wrote c' c'' p' p'' stride l R') :
    Wrote c c'' p p'' stride l R' where
  shape := h'.shape
  table := h'.table.trans h.table
  capacity := h'.capacity.trans h.capacity
  tentative := h'.tentative.trans h.tentative
  count := h'.count.trans h.count
  others := h.others.trans h'.others
  cursor := h'.cursor
  holds := h'.holds
  spill := h'.spill.trans h.spill

theorem slotIn_ne {table : List ℕ} (hnodup : table.Nodup) {i j b b' : ℕ} (hij : i < j)
    (hb : table[i / 16]? = some b) (hb' : table[j / 16]? = some b') : slotIn b i ≠ slotIn b' j := by
  intro heq
  unfold slotIn at heq
  have hbb : b = b' := by omega
  subst hbb
  obtain ⟨hi, hbi⟩ := List.getElem?_eq_some_iff.mp hb
  obtain ⟨hj, hbj⟩ := List.getElem?_eq_some_iff.mp hb'
  have := (hnodup.getElem_inj_iff).mp (hbi.trans hbj.symm)
  omega

theorem slots_disjoint {a b : ℕ} (h : a ≠ b) :
    a * stride + stride ≤ b * stride ∨ b * stride + stride ≤ a * stride := by
  rcases Nat.lt_or_gt_of_ne h with hlt | hlt
  · left
    rw [← Nat.succ_mul]
    exact Nat.mul_le_mul_right _ hlt
  · right
    rw [← Nat.succ_mul]
    exact Nat.mul_le_mul_right _ hlt

/-- The row of token `t` in the tensors of a layer. -/
def rowOf (stride : ℕ) (k v : List UInt32) (t : ℕ) : Row :=
  (slice k (t * stride) stride, slice v (t * stride) stride)

theorem writeToken_wrote {k v : List UInt32} {t seq : ℕ}
    {quantize : List UInt32 → Option (UInt16 × List UInt8)} (hsh : c.Shape stride)
    (hnodup : c.table.Nodup) (hcur : c.layerCommittedTokens[l]? = some R.length)
    (hR : c.Holds stride l R)
    (h : c.writeToken l stride k v t seq quantize p = some (c', p', .ok ())) :
    Wrote c c' p p' stride l (R ++ [rowOf stride k v t])
      ∧ c'.committedTokens = c.committedTokens := by
  rcases writeToken_cases h with ⟨-, -, e, he⟩
    | ⟨pos, kPage, vPage, physical, kPage', vPage', hpos, hkp, hvp, hphys, hkle, hvle, hk, hv, hq,
        rfl, -⟩
  · cases he
  obtain rfl : R.length = pos := Option.some.inj (hcur.symm.trans hpos)
  rw [hsh.page] at hphys hk hv
  have hkl : (slice k (t * stride) stride).length = stride :=
    le_antisymm (length_take_le _ _) hkle
  have hvl : (slice v (t * stride) stride).length = stride :=
    le_antisymm (length_take_le _ _) hvle
  refine ⟨?_, rfl⟩
  have hl : l < c.kPages.length := (List.getElem?_eq_some_iff.mp hkp).1
  have hlv : l < c.vPages.length := (List.getElem?_eq_some_iff.mp hvp).1
  have hlc : l < c.layerCommittedTokens.length := (List.getElem?_eq_some_iff.mp hcur).1
  have hk' : (c.kPages.set l kPage')[l]? = some kPage' := getElem?_set_self hl
  have hv' : (c.vPages.set l vPage')[l]? = some vPage' := getElem?_set_self hlv
  refine ⟨⟨hsh.page, hsh.pending, ⟨?_, ?_⟩, ?_, ?_⟩, rfl, rfl, rfl, ?_, ?_, ?_, ?_,
    storeToken_spill hq⟩
  · intro page hpage
    rcases mem_or_eq_of_mem_set hpage with hpage | rfl
    · exact hsh.fit.1 page hpage
    · rw [length_write hk]
      exact hsh.fit.1 kPage (mem_of_getElem? hkp)
  · intro page hpage
    rcases mem_or_eq_of_mem_set hpage with hpage | rfl
    · exact hsh.fit.2 page hpage
    · rw [length_write hv]
      exact hsh.fit.2 vPage (mem_of_getElem? hvp)
  · simpa using hsh.vCount
  · simpa using hsh.cursorCount
  · simp
  · constructor <;> intro j hj <;> exact getElem?_set_ne hj.symm
  · rw [length_append, length_singleton]
    exact getElem?_set_self hlc
  · intro i r hr
    by_cases hi : i < R.length
    · -- an earlier row, beside the one written
      rw [getElem?_append_left hi] at hr
      obtain ⟨hr1, hr2, b, kPage₀, vPage₀, hb, hkp₀, hvp₀, hks, hvs⟩ := hR i r hr
      rw [hkp, Option.some.injEq] at hkp₀
      rw [hvp, Option.some.injEq] at hvp₀
      subst hkp₀ hvp₀
      have hne : slotIn b i * stride + stride ≤ slotIn physical R.length * stride
          ∨ slotIn physical R.length * stride + stride ≤ slotIn b i * stride :=
        slots_disjoint (slotIn_ne hnodup hi hb hphys)
      refine ⟨hr1, hr2, b, kPage', vPage', hb, hk', hv', ?_, ?_⟩
      · rw [slice_write_of_disjoint hk (by rw [hkl]; exact hne)]
        exact hks
      · rw [slice_write_of_disjoint hv (by rw [hvl]; exact hne)]
        exact hvs
    · have hiR : i = R.length := by
        have := (List.getElem?_eq_some_iff.mp hr).1
        rw [length_append, length_singleton] at this
        omega
      subst hiR
      rw [getElem?_append_right (le_refl _), Nat.sub_self, getElem?_cons_zero,
        Option.some.injEq] at hr
      subst hr
      refine ⟨hkl, hvl, physical, kPage', vPage', hphys, hk', hv', ?_, ?_⟩
      · have := slice_write hk
        rw [hkl] at this
        exact this
      · have := slice_write hv
        rw [hvl] at this
        exact this

/-- The rows of `n` tokens of the tensors, from the `t`-th on. -/
def rowsOf (stride : ℕ) (k v : List UInt32) (t n : ℕ) : List Row :=
  (List.range' t n).map (rowOf stride k v)

theorem rowsOf_succ (stride : ℕ) (k v : List UInt32) (t n : ℕ) :
    rowsOf stride k v t (n + 1) = rowOf stride k v t :: rowsOf stride k v (t + 1) n := by
  rw [rowsOf, range'_succ, map_cons]
  rfl

theorem writeTokens_wrote {env : Env} {reserved : ℕ} {k v : List UInt32} (n : ℕ) :
    ∀ {t : ℕ} {c : PagedKvCache} {p : KvBlockPool} {R : List Row}, c.Shape stride →
      c.table.Nodup → c.layerCommittedTokens[l]? = some R.length → c.Holds stride l R →
      (l = 0 → blocksFor (c.committedTokens + n) ≤ c.table.length) →
      writeTokens env reserved l stride k v n t c p = some (c', p', .ok ()) →
      Wrote c c' p p' stride l (R ++ rowsOf stride k v t n)
        ∧ c'.committedTokens = c.committedTokens + if l = 0 then n else 0 := by
  induction n with
  | zero =>
    intro t c p R hsh _ hcur hR _ h
    cases h
    refine ⟨⟨hsh, rfl, rfl, rfl, rfl, .refl _ _, ?_, ?_, rfl⟩, by simp⟩ <;> simpa [rowsOf]
  | succ n ih =>
    intro t c p R hsh hnodup hcur hR hroom h
    unfold writeTokens at h
    obtain ⟨c₂, p₂, htoken, hrest⟩ := Outcome.andThen_ok h
    obtain ⟨c₁, p₁, h₁, hwrite⟩ := Outcome.andThen_ok htoken
    -- the slot of the token is there, so nothing but the count changes first
    have hslot : p₁ = p
        ∧ c₁ = { c with committedTokens := c.committedTokens + if l = 0 then 1 else 0 } := by
      split_ifs at h₁ with hl
      · unfold appendSlot at h₁
        have hle : blocksFor (c.committedTokens + 1) ≤ c.table.length := by
          refine le_trans ?_ (hroom hl)
          unfold blocksFor
          exact Nat.div_le_div_right (by omega)
        rw [if_neg (Nat.not_lt.mpr hle)] at h₁
        cases h₁
        simp [hl]
      · cases h₁
        simp [hl]
    obtain ⟨rfl, hc₁⟩ := hslot
    have hw₀ : Wrote c c₁ p₁ p₁ stride l R := by
      rw [hc₁]
      exact ⟨⟨hsh.page, hsh.pending, hsh.fit, hsh.vCount, hsh.cursorCount⟩, rfl, rfl, rfl, rfl,
        ⟨fun _ _ => rfl, fun _ _ => rfl, fun _ _ => rfl⟩, hcur, hR, rfl⟩
    have hcount₁ : c₁.committedTokens = c.committedTokens + if l = 0 then 1 else 0 := by rw [hc₁]
    obtain ⟨hw₁, hcount₂⟩ :=
      writeToken_wrote hw₀.shape (hw₀.table ▸ hnodup) hw₀.cursor hw₀.holds hwrite
    have hw := hw₀.trans hw₁
    have hcount := hcount₂.trans hcount₁
    have hroom' : l = 0 → blocksFor (c₂.committedTokens + n) ≤ c₂.table.length := by
      intro hl
      rw [hcount, if_pos hl, hw.table, Nat.add_assoc, Nat.add_comm 1 n]
      exact hroom hl
    obtain ⟨hw', hcount'⟩ := ih hw.shape (hw.table ▸ hnodup) hw.cursor hw.holds hroom' hrest
    rw [rowsOf_succ, append_cons]
    refine ⟨hw.trans hw', ?_⟩
    rw [hcount', hcount]
    split_ifs <;> omega

/-- The pages that `n` allocations of the pool hand out, and the pool behind them. -/
def handsOut (env : Env) : ℕ → ℕ → KvBlockPool → Option (List ℕ × KvBlockPool)
  | 0, _, p => some ([], p)
  | n + 1, k, p =>
    match p.alloc (env.now k) (env.io k) with
    | some (p, .ok id) => (handsOut env n (k + 1) p).map fun (ids, p) => (id :: ids, p)
    | _ => none

theorem reserve_ok {env : Env} : ∀ {n k : ℕ} {c : PagedKvCache} {p : KvBlockPool},
    reserve env n k c p = some (c', p', .ok ()) →
      ∃ ids, handsOut env n k p = some (ids, p') ∧ ids.length = n
        ∧ c' = { c with table := c.table ++ ids }
  | 0, k, c, p, h => by
    cases h
    exact ⟨[], rfl, rfl, by simp⟩
  | n + 1, k, c, p, h => by
    unfold reserve at h
    obtain ⟨⟨q, res⟩, hq, h⟩ := Option.bind_eq_some_iff.mp h
    cases res with
    | error e => simp at h
    | ok id =>
      obtain ⟨ids, hids, hlen, hc⟩ := reserve_ok h
      refine ⟨id :: ids, ?_, by simp [hlen], ?_⟩
      · rw [handsOut, hq]
        simp only [hids, Option.map_some]
      · rw [hc]
        simp

/-- The pages handed out for the table are new to it, and none of its pages is spilled. -/
def CleanPages (c : PagedKvCache) (env : Env) (n : ℕ) (p : KvBlockPool) : Prop :=
  match handsOut env n 0 p with
  | some (ids, q) => (c.table ++ ids).Nodup ∧ { c with table := c.table ++ ids }.Unspilled q
  | none => True

instance (env : Env) (n : ℕ) : Decidable (c.CleanPages env n p) := by
  unfold CleanPages
  split <;> infer_instance

theorem growPages_shape {s : ℕ} (hsh : c.Shape stride) :
    (c.growPages l s stride).Shape stride := by
  have hzeros : ∀ page ∈ (List.range' c.kPages.length (l + 1 - c.kPages.length)).map
      (fun _ => List.replicate (c.capacity * c.pageSize * stride) (0 : UInt32)),
      page.length = c.capacity * 16 * stride := by
    intro page hpage
    obtain ⟨i, -, rfl⟩ := mem_map.mp hpage
    rw [length_replicate, hsh.page]
  refine ⟨hsh.page, hsh.pending, ⟨?_, ?_⟩, ?_, ?_⟩
  · intro page hpage
    exact (mem_append.mp hpage).elim (hsh.fit.1 page) (hzeros page)
  · intro page hpage
    exact (mem_append.mp hpage).elim (hsh.fit.2 page) (hzeros page)
  · simp [growPages, hsh.vCount]
  · simp [growPages, hsh.cursorCount]

theorem getElem?_grow {α : Type*} {xs ys : List α} (hl : l ≤ xs.length)
    (hys : ys.length = l + 1 - xs.length) {j : ℕ} (hj : j ≠ l) : (xs ++ ys)[j]? = xs[j]? := by
  by_cases hlt : j < xs.length
  · exact getElem?_append_left hlt
  · have hlong : (xs ++ ys).length ≤ j := by
      rw [length_append]
      omega
    rw [getElem?_eq_none hlong, getElem?_eq_none (by omega)]

theorem growPages_onlyLayer {s : ℕ} (hsh : c.Shape stride) (hl : l ≤ c.kPages.length) :
    OnlyLayer c (c.growPages l s stride) l := by
  constructor <;> intro j hj
  · exact getElem?_grow hl (by simp) hj
  · exact getElem?_grow (hsh.vCount ▸ hl) (by simp [hsh.vCount]) hj
  · exact getElem?_grow (hsh.cursorCount ▸ hl) (by simp [hsh.cursorCount]) hj

theorem growPages_count {s : ℕ} :
    (c.growPages l s stride).kPages.length = max c.kPages.length (l + 1) := by
  simp [growPages]
  omega

theorem growPages_holds {s : ℕ} (hR : c.Holds stride l R) :
    (c.growPages l s stride).Holds stride l R := by
  refine hR.frame (fun _ _ _ hb => hb) ?_ ?_ <;> intro page hpage <;>
    exact (getElem?_append_left (List.getElem?_eq_some_iff.mp hpage).1).trans hpage

theorem growPages_cursor {seq n : ℕ} (hsh : c.Shape stride) (hl : l ≤ c.kPages.length)
    (hcur : ∀ pos, c.layerCommittedTokens[l]? = some pos → pos = n)
    (hcommitted : c.committedTokens = n + if l = 0 then 0 else seq) :
    (c.growPages l seq stride).layerCommittedTokens[l]? = some n := by
  have hcount := hsh.cursorCount
  unfold growPages
  simp only []
  by_cases hlt : l < c.kPages.length
  · rw [getElem?_append_left (by omega), getElem?_eq_getElem (by omega)]
    exact congrArg some (hcur _ (getElem?_eq_getElem (by omega)))
  · have hlen : c.kPages.length = l := by omega
    rw [getElem?_append_right (by omega), hcount, hlen, Nat.sub_self, Nat.add_sub_cancel_left]
    show some (if l = 0 then c.committedTokens else c.committedTokens - seq) = some n
    congr 1
    split_ifs at hcommitted ⊢ <;> omega

/-- What an append of a chunk to layer `l` leaves: the layer holds the rows `R`, as many as there
are tokens. -/
structure Appended (c c' : PagedKvCache) (p' : KvBlockPool) (stride l : ℕ) (R : List Row) :
    Prop where
  shape : c'.Shape stride
  keeps : ∃ ids, c'.table = c.table ++ ids
  nodup : c'.table.Nodup
  unspilled : c'.Unspilled p'
  committed : c'.committedTokens = R.length
  table : c'.table.length = blocksFor R.length
  capacity : c'.capacity = c.capacity
  tentative : c'.tentativeLen = c.tentativeLen
  count : c'.kPages.length = max c.kPages.length (l + 1)
  others : OnlyLayer c c' l
  cursor : c'.layerCommittedTokens[l]? = some R.length
  holds : c'.Holds stride l R

theorem Unspilled.congr (h : c.Unspilled p) (ht : c'.table = c.table) (hp : p'.spill = p.spill) :
    c'.Unspilled p' := by
  unfold Unspilled at h ⊢
  rw [hp]
  split at h
  · trivial
  · rename_i s hs
    unfold hostBlocks at h ⊢
    rw [ht]
    exact h

theorem Unspilled.check (h : c.Unspilled p) :
    c.checkAndRepromoteBlocks stride p = some (c, p, .ok ()) := by
  unfold Unspilled at h
  unfold checkAndRepromoteBlocks
  rcases hs : p.spill with - | s
  · rfl
  · rw [hs] at h
    dsimp only at h ⊢
    rw [h]
    rfl

theorem appendKvLayer_appended {env : Env} {k v : Tensor} {seq : ℕ} (hs : 0 < stride)
    (hseq : 0 < seq) (hk : k.seqStride = (seq, stride)) (hsh : c.Shape stride)
    (hl : l ≤ c.kPages.length) (hR : c.Holds stride l R)
    (hcur : ∀ pos, c.layerCommittedTokens[l]? = some pos → pos = R.length)
    (hcommitted : c.committedTokens = R.length + if l = 0 then 0 else seq)
    (htable : c.table.length = blocksFor c.committedTokens)
    (hclean : c.CleanPages env (if l = 0 then c.lacking seq else 0) p)
    (h : c.appendKvLayer env l k v p = some (c', p', .ok ())) :
    Appended c c' p' stride l (R ++ rowsOf stride k.data v.data 0 seq) := by
  unfold appendKvLayer at h
  rw [hk] at h
  simp only [] at h
  rw [if_neg (by omega)] at h
  obtain ⟨c₁, p₁, hres, h⟩ := Outcome.andThen_ok h
  obtain ⟨ids, hids, hlen, hc₁⟩ := reserve_ok hres
  have hlack : (c.growPages l seq stride).lacking seq = c.lacking seq := rfl
  rw [hlack] at hids hlen h
  unfold CleanPages at hclean
  rw [hids] at hclean
  obtain ⟨hnodup, hunsp⟩ := hclean
  have hg := growPages_shape (l := l) (s := seq) hsh
  have htable₁ : c₁.table = c.table ++ ids := by rw [hc₁]; rfl
  have hcommitted₁ : c₁.committedTokens = c.committedTokens := by rw [hc₁]; rfl
  have hsh₁ : c₁.Shape stride := by
    rw [hc₁]
    exact ⟨hg.page, hg.pending, hg.fit, hg.vCount, hg.cursorCount⟩
  have hR₁ : c₁.Holds stride l R := by
    refine (growPages_holds (s := seq) hR).frame ?_ ?_ ?_
    · intro i _ b hb
      rw [htable₁]
      exact (getElem?_append_left (List.getElem?_eq_some_iff.mp hb).1).trans hb
    · rw [hc₁]
      exact fun _ hpage => hpage
    · rw [hc₁]
      exact fun _ hpage => hpage
  have hcur₁ : c₁.layerCommittedTokens[l]? = some R.length := by
    rw [hc₁]
    exact growPages_cursor hsh hl hcur hcommitted
  -- the blocks reserved are enough for the chunk
  have htable₂ : c₁.table.length = blocksFor (R.length + seq) := by
    rw [htable₁, length_append, htable, hlen, hcommitted]
    unfold lacking
    rw [htable, hcommitted]
    unfold blocksFor blockSize
    split_ifs <;> omega
  rw [show c₁.hydrateSeededLayerFromPool p₁ l stride = some c₁ from if_pos (.inl hsh₁.pending)] at h
  obtain ⟨c₂, p₂, hwrite, hcheck⟩ := Outcome.andThen_ok h
  have hroom : l = 0 → blocksFor (c₁.committedTokens + seq) ≤ c₁.table.length := by
    intro hl0
    rw [htable₂, hcommitted₁, hcommitted, if_pos hl0, Nat.add_zero]
  obtain ⟨hw, hcount⟩ :=
    writeTokens_wrote seq hsh₁ (htable₁ ▸ hnodup) hcur₁ hR₁ hroom hwrite
  have hunsp₂ : c₂.Unspilled p₂ := hunsp.congr (hw.table.trans htable₁) hw.spill
  rw [hunsp₂.check] at hcheck
  simp only [Option.some.injEq, Prod.mk.injEq, and_true] at hcheck
  obtain ⟨rfl, rfl⟩ := hcheck
  have hrows : (R ++ rowsOf stride k.data v.data 0 seq).length = R.length + seq := by
    simp [rowsOf]
  refine ⟨hw.shape, ⟨ids, hw.table.trans htable₁⟩, ?_, hunsp₂, ?_, ?_, ?_, ?_, ?_, ?_, hw.cursor,
    hw.holds⟩
  · rw [hw.table, htable₁]
    exact hnodup
  · rw [hcount, hcommitted₁, hcommitted, hrows]
    split_ifs <;> omega
  · rw [hw.table, htable₂, hrows]
  · rw [hw.capacity, hc₁]
    rfl
  · rw [hw.tentative, hc₁]
    rfl
  · rw [hw.count, hc₁]
    exact growPages_count (s := seq)
  · refine (growPages_onlyLayer (s := seq) hsh hl).trans ?_
    have ho := hw.others
    rw [hc₁] at ho
    exact ⟨ho.k, ho.v, ho.cursor⟩

end PagedKvCache

end Grim.Memory
