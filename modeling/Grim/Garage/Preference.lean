import Grim.Garage.Dataloader

/-!
# Preference batches

The chosen and the rejected text of each pair go into one buffer, one after the other; of a batch
cut from it the first half is taken for chosen tokens, the second half for rejected ones.  A run
keeps the sides and the pairs apart exactly if the lengths of its texts are `Aligned` to the
batches.
-/

namespace Grim.Garage

open Autograd Batches List

variable {L T α : Type}

namespace LoaderShape

variable (c : LoaderShape)

def nextPreferenceIds (src : TextSource L T α) (it : JsonlBatchIterator L α) :
    Except LoadError (Option (List α × List α) × JsonlBatchIterator L α) := do
  let needed := c.batchSize * c.seqLen
  let (flat, it) ← c.takeFlat src.pairTokens src.padTokenId (needed * 2) it
  match flat with
  | none => .ok (none, it)
  | some flat => .ok (some (flat.take needed, (flat.drop needed).take needed), it)

def preferenceTensors (b : List UInt32 × List UInt32) : HostTensor × HostTensor :=
  (⟨[c.batchSize, c.seqLen], asF32 b.1⟩, ⟨[c.batchSize, c.seqLen], asF32 b.2⟩)

def nextPreferenceBatch (src : TextSource L T UInt32) (it : JsonlBatchIterator L UInt32) :
    Except LoadError (Option (HostTensor × HostTensor) × JsonlBatchIterator L UInt32) := do
  let (ids, it) ← c.nextPreferenceIds src it
  .ok (ids.map c.preferenceTensors, it)

end LoaderShape

abbrev Origin := ℕ × String

def TextSource.tagged (src : TextSource L T α) :
    TextSource (L × ℕ) (T × Origin) (Option Origin × α) where
  isBlank l := src.isBlank l.1
  parse l := (src.parse l.1).map fun v key => (v key, (l.2, key))
  encode t := (src.encode t.1).map fun id => (some t.2, id)
  padTokenId := (none, src.padTokenId)

/-- A run of `next_preference_batch` until the file is exhausted. -/
def LoaderShape.PreferenceRun (c : LoaderShape) (src : TextSource L T UInt32) :
    JsonlBatchIterator L UInt32 → List (HostTensor × HostTensor) → Prop :=
  LoaderShape.Yields (fun it => ∃ it', c.nextPreferenceBatch src it = .ok (none, it'))
    fun it b it' => c.nextPreferenceBatch src it = .ok (some b, it')

def LoaderShape.PreferenceIds (c : LoaderShape) (src : TextSource L T α) :
    JsonlBatchIterator L α → List (List α × List α) → Prop :=
  LoaderShape.Yields (fun it => ∃ it', c.nextPreferenceIds src it = .ok (none, it'))
    fun it b it' => c.nextPreferenceIds src it = .ok (some b, it')

/-- The chosen half has tokens of chosen texts and padding only, the rejected half tokens of
rejected texts and padding, and one row of both has tokens of one pair. -/
structure LoaderShape.Apart (c : LoaderShape) (chosen rejected : List (Option Origin)) : Prop where
  onlyChosen : ∀ o : Origin, some o ∈ chosen → o.2 = "chosen"
  onlyRejected : ∀ o : Origin, some o ∈ rejected → o.2 = "rejected"
  onePair : ∀ row < c.batchSize, ∃ line, ∀ o : Origin,
    some o ∈ rowOf chosen c.seqLen row ++ rowOf rejected c.seqLen row → o.1 = line

/-- In each batch of the run of a rank chosen and rejected tokens are apart. -/
def LoaderShape.KeepsApart (c : LoaderShape) (src : TextSource L T UInt32) (lines : List L) :
    Prop :=
  ∀ it bs, newSharded lines c = .ok it → c.PreferenceRun src it bs →
    ∃ tagged : List (List (Option Origin × UInt32) × List (Option Origin × UInt32)),
      c.PreferenceIds src.tagged ⟨[], lines.zipIdx, false, 0⟩ tagged ∧
        bs = tagged.map (fun b => c.preferenceTensors (b.1.map Prod.snd, b.2.map Prod.snd)) ∧
          ∀ b ∈ tagged, c.Apart (b.1.map Prod.fst) (b.2.map Prod.fst)

def TextSource.pairIds (src : TextSource L T α) (l : L) : List α :=
  if src.isBlank l then []
  else match src.parse l with
    | .ok v => src.encode (v "chosen") ++ src.encode (v "rejected")
    | .error _ => []

def TextSource.Parses (src : TextSource L T α) (lines : List L) : Prop :=
  ∀ l ∈ lines, src.isBlank l ∨ ∃ v, src.parse l = .ok v

def LoaderShape.halves (c : LoaderShape) (flat : List α) : List α × List α :=
  (flat.take (c.batchSize * c.seqLen),
    (flat.drop (c.batchSize * c.seqLen)).take (c.batchSize * c.seqLen))

section Run

variable {c : LoaderShape} {src : TextSource L T α} {lines : List L}

theorem TextSource.Parses.ready (h : src.Parses lines) :
    LoaderShape.Ready src.pairTokens src.pairIds ⟨[], lines, false, 0⟩ := by
  refine ⟨fun l hl => ?_, fun hdone => absurd hdone Bool.false_ne_true⟩
  rw [TextSource.pairTokens, TextSource.pairIds]
  split_ifs with hblank
  · rfl
  · obtain ⟨v, hv⟩ := (h l hl).resolve_left hblank
    simp only [TextSource.parsed, hv]
    rfl

theorem LoaderShape.preferenceIds_batches (hn : 0 < c.batchSize * c.seqLen) (h : src.Parses lines) :
    c.PreferenceIds src ⟨[], lines, false, 0⟩ ((batches (c.batchSize * c.seqLen * 2) src.padTokenId
      ((c.mine 0 lines).flatMap src.pairIds)).map c.halves) := by
  refine LoaderShape.Ready.yields (Nat.mul_pos hn two_pos) c.halves (fun it it' hnone => ⟨it', ?_⟩)
    (fun it flat it' hflat _ => ?_) h.ready
  · rw [LoaderShape.nextPreferenceIds]
    simp only [hnone]
    rfl
  · rw [LoaderShape.nextPreferenceIds]
    simp only [hflat]
    rfl

end Run

/-- The texts of a pair: their line, and how many tokens they have. -/
structure PairLengths where
  line : ℕ
  chosen : ℕ
  rejected : ℕ

namespace PairLengths

def origins (p : PairLengths) : List Origin :=
  List.replicate p.chosen (p.line, "chosen") ++ List.replicate p.rejected (p.line, "rejected")

def originsOf (ps : List PairLengths) : List Origin := ps.flatMap origins

def marked (ps : List PairLengths) : List (Option Origin) := (originsOf ps).map some

variable {p : PairLengths} {ps : List PairLengths} {q : ℕ}

theorem originsOf_cons (p : PairLengths) (ps : List PairLengths) :
    originsOf (p :: ps) = origins p ++ originsOf ps := flatMap_cons

theorem length_origins (p : PairLengths) : p.origins.length = p.chosen + p.rejected := by
  rw [origins, length_append, length_replicate, length_replicate]

theorem getElem?_chosen (hq : q < p.chosen) (ps : List PairLengths) :
    (originsOf (p :: ps))[q]? = some (p.line, "chosen") := by
  rw [originsOf_cons, origins, append_assoc,
    getElem?_append_left (by rwa [length_replicate]), getElem?_replicate, if_pos hq]

theorem getElem?_rejected (hq : q < p.rejected) (ps : List PairLengths) :
    (originsOf (p :: ps))[p.chosen + q]? = some (p.line, "rejected") := by
  have hlen : p.chosen + q < p.origins.length := by
    rw [length_origins]
    omega
  rw [originsOf_cons, getElem?_append_left hlen, origins,
    getElem?_append_right (by rw [length_replicate]; exact Nat.le_add_right _ _),
    length_replicate, Nat.add_sub_cancel_left, getElem?_replicate, if_pos hq]

theorem getElem?_rest (q : ℕ) (p : PairLengths) (ps : List PairLengths) :
    (originsOf (p :: ps))[p.chosen + p.rejected + q]? = (originsOf ps)[q]? := by
  have hle : p.origins.length ≤ p.chosen + p.rejected + q := by
    rw [length_origins]
    exact Nat.le_add_right _ _
  rw [originsOf_cons, getElem?_append_right hle, length_origins, Nat.add_sub_cancel_left]

end PairLengths

section Halves

variable {c : LoaderShape} {S : List (Option Origin)} {o o' : Origin} {q q' : ℕ}

theorem mem_of_mem_rowOf {flat : List α} {seqLen row : ℕ} {x : α} (h : x ∈ rowOf flat seqLen row) :
    x ∈ flat := mem_of_mem_drop (mem_of_mem_take h)

theorem mem_rowOf {flat : List α} {seqLen : ℕ} {x : α} (hseq : 0 < seqLen)
    (h : flat[q]? = some x) : x ∈ rowOf flat seqLen (q / seqLen) := by
  refine mem_of_getElem? (i := q % seqLen) ?_
  rw [rowOf, getElem?_take_of_lt (Nat.mod_lt _ hseq), getElem?_drop,
    Nat.div_add_mod', h]

def LoaderShape.firstHalves (c : LoaderShape) (S : List (Option Origin)) :
    List (Option Origin) × List (Option Origin) :=
  c.halves ((S.rightpad (c.batchSize * c.seqLen * 2) none).take (c.batchSize * c.seqLen * 2))

theorem getElem?_firstHalves_fst (hq : q < c.batchSize * c.seqLen) (h : S[q]? = some (some o)) :
    (c.firstHalves S).1[q]? = some (some o) := by
  obtain ⟨hlt, -⟩ := List.getElem?_eq_some_iff.1 h
  rw [LoaderShape.firstHalves, LoaderShape.halves, getElem?_take_of_lt hq,
    getElem?_take_of_lt (by omega), List.rightpad, getElem?_append_left hlt, h]

theorem getElem?_firstHalves_snd (hq : q < c.batchSize * c.seqLen)
    (h : S[c.batchSize * c.seqLen + q]? = some (some o)) :
    (c.firstHalves S).2[q]? = some (some o) := by
  obtain ⟨hlt, -⟩ := List.getElem?_eq_some_iff.1 h
  rw [LoaderShape.firstHalves, LoaderShape.halves, getElem?_take_of_lt hq, getElem?_drop,
    getElem?_take_of_lt (by omega), List.rightpad, getElem?_append_left hlt, h]

/-- What the first batch says of the places in a stream of origins. -/
structure LoaderShape.Placed (c : LoaderShape) (O : List Origin) : Prop where
  chosen : ∀ q < c.batchSize * c.seqLen, ∀ o, O[q]? = some o → o.2 = "chosen"
  rejected : ∀ q < c.batchSize * c.seqLen, ∀ o, O[c.batchSize * c.seqLen + q]? = some o →
    o.2 = "rejected"
  row : ∀ q < c.batchSize * c.seqLen, ∀ q' < c.batchSize * c.seqLen, q / c.seqLen = q' / c.seqLen →
    ∀ o o', O[q]? = some o →
      (O[q']? = some o' ∨ O[c.batchSize * c.seqLen + q']? = some o') → o.1 = o'.1

theorem LoaderShape.Apart.placed {O : List Origin}
    (h : c.Apart (c.firstHalves (O.map some)).1 (c.firstHalves (O.map some)).2) : c.Placed O := by
  have hmap : ∀ {q : ℕ} {o : Origin}, O[q]? = some o → (O.map some)[q]? = some (some o) := by
    intro q o ho
    rw [getElem?_map, ho]
    rfl
  refine ⟨fun q hq o ho => ?_, fun q hq o ho => ?_, fun q hq q' hq' hrow o o' ho ho' => ?_⟩
  · exact h.onlyChosen o (mem_of_getElem? (getElem?_firstHalves_fst hq (hmap ho)))
  · exact h.onlyRejected o (mem_of_getElem? (getElem?_firstHalves_snd hq (hmap ho)))
  · have hseq : 0 < c.seqLen := Nat.pos_of_mul_pos_left (Nat.zero_lt_of_lt hq)
    have hlt : q / c.seqLen < c.batchSize := Nat.div_lt_of_lt_mul (by rwa [Nat.mul_comm])
    obtain ⟨line, hline⟩ := h.onePair _ hlt
    have hmem := mem_rowOf hseq (getElem?_firstHalves_fst hq (hmap ho))
    rw [hline o (mem_append_left _ hmem)]
    refine (hline o' ?_).symm
    rw [hrow]
    rcases ho' with ho' | ho'
    · exact mem_append_left _ (mem_rowOf hseq (getElem?_firstHalves_fst hq' (hmap ho')))
    · exact mem_append_right _ (mem_rowOf hseq (getElem?_firstHalves_snd hq' (hmap ho')))

end Halves

def Rowed (seqLen : ℕ) : List PairLengths → Prop
  | [] => True
  | [_] => True
  | p :: p' :: ps => seqLen ∣ p.chosen ∧ Rowed seqLen (p' :: ps)

/-- Pairs with `n` tokens on either side, and behind them a pair with as many chosen ones, or pairs
that have chosen tokens only and fit in one batch. -/
inductive Aligned (seqLen n : ℕ) : List PairLengths → Prop
  | full {p : PairLengths} {ps : List PairLengths} (hchosen : p.chosen = n)
    (hrejected : p.rejected = n) (h : Aligned seqLen n ps) : Aligned seqLen n (p :: ps)
  | last {p : PairLengths} (hchosen : p.chosen = n) (hrejected : p.rejected ≤ n) :
    Aligned seqLen n [p]
  | onlyChosen {ps : List PairLengths} (hrejected : ∀ p ∈ ps, p.rejected = 0)
    (hchosen : (ps.map PairLengths.chosen).sum ≤ n) (hrows : Rowed seqLen ps) : Aligned seqLen n ps

open PairLengths

section Aligned

variable {c : LoaderShape} {p : PairLengths} {ps : List PairLengths}

theorem sides_ne : "rejected" ≠ "chosen" := by decide

theorem length_originsOf (h : ∀ p ∈ ps, p.rejected = 0) :
    (originsOf ps).length = (ps.map PairLengths.chosen).sum := by
  rw [originsOf, length_flatMap]
  congr 1
  exact map_congr_left fun p hp => by rw [length_origins, h p hp, Nat.add_zero]

theorem side_of_mem (h : ∀ p ∈ ps, p.rejected = 0) {o : Origin} (ho : o ∈ originsOf ps) :
    o.2 = "chosen" := by
  obtain ⟨p, hp, hmem⟩ := mem_flatMap.1 ho
  rw [origins, h p hp, replicate_zero, append_nil] at hmem
  rw [eq_of_mem_replicate hmem]

theorem head_line (hp : 0 < p.chosen + p.rejected) (ps : List PairLengths) :
    ∃ o : Origin, (originsOf (p :: ps))[0]? = some o ∧ o.1 = p.line := by
  rcases Nat.eq_zero_or_pos p.chosen with hzero | hpos
  · have hr : 0 < p.rejected := by omega
    have hget := getElem?_rejected hr ps
    rw [hzero] at hget
    exact ⟨_, hget, rfl⟩
  · exact ⟨_, getElem?_chosen hpos ps, rfl⟩

/-! ### From batches to lengths -/

theorem LoaderShape.Placed.pair (h : c.Placed (originsOf (p :: ps)))
    (hlines : ((p :: ps).map PairLengths.line).Nodup)
    (hne : ∀ p' ∈ ps, 0 < p'.chosen + p'.rejected) (hn : 0 < c.batchSize * c.seqLen)
    (hr : 0 < p.rejected) : p.chosen = c.batchSize * c.seqLen ∧
      (p.rejected < c.batchSize * c.seqLen → ps = []) := by
  have hchosen : p.chosen = c.batchSize * c.seqLen := by
    rcases Nat.lt_trichotomy p.chosen (c.batchSize * c.seqLen) with hlt | heq | hgt
    · exact absurd (h.chosen _ hlt _ (getElem?_rejected hr ps)) sides_ne
    · exact heq
    · exact absurd (h.rejected 0 hn _ (getElem?_chosen hgt ps)) sides_ne.symm
  refine ⟨hchosen, fun hlt => ?_⟩
  rcases ps with _ | ⟨p', ps⟩
  · rfl
  · obtain ⟨o, ho, hline⟩ := head_line (hne p' mem_cons_self) ps
    have hnext := getElem?_rest 0 p (p' :: ps)
    rw [Nat.add_zero, hchosen, ho] at hnext
    have hfirst := getElem?_chosen (hchosen ▸ hlt) (p' :: ps)
    have hsame := h.row _ hlt _ hlt rfl _ _ hfirst (.inr hnext)
    rw [map_cons, map_cons, nodup_cons] at hlines
    exact absurd (mem_cons.2 (.inl (hsame.trans hline))) hlines.1

theorem LoaderShape.Placed.rejected_eq_zero (h : c.Placed (originsOf (p :: ps)))
    (hlines : ((p :: ps).map PairLengths.line).Nodup) (hn : 0 < c.batchSize * c.seqLen)
    (hc : 0 < p.chosen) (hr : p.rejected = 0) : ∀ p' ∈ p :: ps, p'.rejected = 0 := by
  by_contra hsome
  obtain ⟨p', hfind⟩ : ∃ p', ps.find? (fun p' => p'.rejected ≠ 0) = some p' := by
    rw [← Option.isSome_iff_exists, find?_isSome]
    by_contra hall
    refine hsome (forall_mem_cons.2 ⟨hr, fun p' hp' => ?_⟩)
    by_contra hne
    exact hall ⟨p', hp', by simpa using hne⟩
  obtain ⟨hp', front, back, rfl, hfront⟩ := find?_eq_some_iff_append.1 hfind
  have hr' : 0 < p'.rejected := Nat.pos_of_ne_zero (by simpa using hp')
  have hzero : ∀ x ∈ p :: front, x.rejected = 0 :=
    forall_mem_cons.2 ⟨hr, fun x hx => by simpa using hfront x hx⟩
  have hsplit : originsOf (p :: (front ++ p' :: back)) =
      originsOf (p :: front) ++ originsOf (p' :: back) := by
    rw [← cons_append, originsOf, flatMap_append]
    rfl
  set F := (originsOf (p :: front)).length with hF
  have hbehind : ∀ q, (originsOf (p :: (front ++ p' :: back)))[F + q]? =
      (originsOf (p' :: back))[q]? := by
    intro q
    rw [hsplit, getElem?_append_right (Nat.le_add_right _ _), Nat.add_sub_cancel_left]
  have hlow : ∀ q < F + p'.chosen, ∃ o : Origin,
      (originsOf (p :: (front ++ p' :: back)))[q]? = some o ∧ o.2 = "chosen" := by
    intro q hq
    rcases lt_or_ge q F with hlt | hge
    · refine ⟨_, by rw [hsplit, getElem?_append_left hlt, getElem?_eq_getElem hlt], ?_⟩
      exact side_of_mem hzero (getElem_mem hlt)
    · obtain ⟨k, rfl⟩ := Nat.exists_eq_add_of_le hge
      exact ⟨_, (hbehind k).trans (getElem?_chosen (by omega) back), rfl⟩
  have hat := (hbehind (p'.chosen + 0)).trans (getElem?_rejected hr' back)
  rw [Nat.add_zero] at hat
  rcases Nat.lt_trichotomy (F + p'.chosen) (c.batchSize * c.seqLen) with hlt | heq | hgt
  · exact absurd (h.chosen _ hlt _ hat) sides_ne
  · rw [heq] at hat
    have hsame := h.row 0 hn 0 hn rfl _ _ (getElem?_chosen hc _) (.inr hat)
    rw [map_cons, nodup_cons] at hlines
    refine hlines.1 (mem_map.2 ⟨p', ?_, hsame.symm⟩)
    exact mem_append_right _ mem_cons_self
  · obtain ⟨o, ho, hside⟩ := hlow _ hgt
    rw [h.rejected 0 hn o ho] at hside
    exact absurd hside sides_ne

theorem rowed_of_rows {seqLen : ℕ} (hlines : (ps.map PairLengths.line).Nodup)
    (hpos : ∀ p ∈ ps, 0 < p.chosen) (hzero : ∀ p ∈ ps, p.rejected = 0)
    (h : ∀ q q', q / seqLen = q' / seqLen → ∀ o o' : Origin, (originsOf ps)[q]? = some o →
      (originsOf ps)[q']? = some o' → o.1 = o'.1) : Rowed seqLen ps := by
  induction ps with
  | nil => trivial
  | cons p ps ih =>
    rcases ps with _ | ⟨p', ps⟩
    · trivial
    · have hp := hpos p mem_cons_self
      have hrest : ∀ q,
          (originsOf (p :: p' :: ps))[p.chosen + q]? = (originsOf (p' :: ps))[q]? := by
        intro q
        have hget := getElem?_rest q p (p' :: ps)
        rwa [hzero p mem_cons_self, Nat.add_zero] at hget
      have hp' := hpos p' (mem_cons_of_mem p mem_cons_self)
      have hdvd : seqLen ∣ p.chosen := by
        by_contra hndvd
        -- its last token and the first one behind it are in one row
        have hrow : (p.chosen - 1) / seqLen = p.chosen / seqLen := by
          have hsucc := Nat.succ_div_of_not_dvd (a := p.chosen - 1) (b := seqLen)
          rw [Nat.sub_add_cancel hp] at hsucc
          exact (hsucc hndvd).symm
        have hnext := (hrest 0).trans (getElem?_chosen hp' ps)
        have hsame := h _ _ hrow _ _ (getElem?_chosen (Nat.sub_lt hp one_pos) (p' :: ps)) hnext
        rw [map_cons, map_cons, nodup_cons] at hlines
        exact hlines.1 (mem_cons.2 (.inl hsame))
      refine ⟨hdvd, ih (nodup_cons.1 hlines).2 (fun x hx => hpos x (mem_cons_of_mem p hx))
        (fun x hx => hzero x (mem_cons_of_mem p hx)) fun q q' hrow o o' ho ho' => ?_⟩
      refine h (p.chosen + q) (p.chosen + q') ?_ o o' ((hrest q).trans ho) ((hrest q').trans ho')
      rw [Nat.add_div_of_dvd_right hdvd, Nat.add_div_of_dvd_right hdvd, hrow]

theorem LoaderShape.Placed.onlyChosen (h : c.Placed (originsOf ps))
    (hlines : (ps.map PairLengths.line).Nodup) (hn : 0 < c.batchSize * c.seqLen)
    (hpos : ∀ p ∈ ps, 0 < p.chosen) (hzero : ∀ p ∈ ps, p.rejected = 0) :
    Aligned c.seqLen (c.batchSize * c.seqLen) ps := by
  have hlen : (originsOf ps).length ≤ c.batchSize * c.seqLen := by
    by_contra hlong
    have hlt := not_le.1 hlong
    have hside := side_of_mem hzero (getElem_mem hlt)
    rw [h.rejected 0 hn _ (getElem?_eq_getElem hlt)] at hside
    exact sides_ne hside
  refine .onlyChosen hzero (length_originsOf hzero ▸ hlen) (rowed_of_rows hlines hpos hzero
    fun q q' hrow o o' ho ho' => ?_)
  obtain ⟨hq, -⟩ := List.getElem?_eq_some_iff.1 ho
  obtain ⟨hq', -⟩ := List.getElem?_eq_some_iff.1 ho'
  exact h.row q (hq.trans_le hlen) q' (hq'.trans_le hlen) hrow o o' ho (.inl ho')

/-- In each batch of the stream the sides and the pairs are apart. -/
def LoaderShape.AllApart (c : LoaderShape) (S : List (Option Origin)) : Prop :=
  ∀ b ∈ batches (c.batchSize * c.seqLen * 2) none S, c.Apart (c.halves b).1 (c.halves b).2

theorem LoaderShape.AllApart.split {O : List Origin} (hn : 0 < c.batchSize * c.seqLen) (hO : O ≠ [])
    (h : c.AllApart (O.map some)) :
    c.Placed O ∧ c.AllApart ((O.drop (c.batchSize * c.seqLen * 2)).map some) := by
  have hne : O.map some ≠ [] := fun hnil => hO (map_eq_nil_iff.1 hnil)
  rw [AllApart, batches_of_ne_nil (Nat.mul_pos hn two_pos) hne, forall_mem_cons,
    ← map_drop] at h
  exact ⟨LoaderShape.Apart.placed h.1, h.2⟩

theorem originsOf_ne_nil (hp : 0 < p.chosen + p.rejected) (ps : List PairLengths) :
    originsOf (p :: ps) ≠ [] := by
  obtain ⟨o, ho, -⟩ := head_line hp ps
  exact ne_nil_of_mem (mem_of_getElem? ho)

theorem aligned_of_allApart (hn : 0 < c.batchSize * c.seqLen)
    (hlines : (ps.map PairLengths.line).Nodup) (hne : ∀ p ∈ ps, 0 < p.chosen + p.rejected)
    (h : c.AllApart (marked ps)) : Aligned c.seqLen (c.batchSize * c.seqLen) ps := by
  induction ps with
  | nil => exact .onlyChosen (fun _ hp => absurd hp not_mem_nil) (Nat.zero_le _) trivial
  | cons p ps ih =>
    obtain ⟨hp, hps⟩ := forall_mem_cons.1 hne
    obtain ⟨hplaced, hrest⟩ := h.split hn (originsOf_ne_nil hp ps)
    rcases Nat.eq_zero_or_pos p.rejected with hr | hr
    · have hzero := hplaced.rejected_eq_zero hlines hn (by omega) hr
      refine hplaced.onlyChosen hlines hn (fun x hx => ?_) hzero
      have hx' := hne x hx
      rw [hzero x hx] at hx'
      exact hx'
    · obtain ⟨hchosen, hlast⟩ := hplaced.pair hlines hps hn hr
      have hdrop : ∀ q, ((originsOf (p :: ps)).drop (c.batchSize * c.seqLen * 2))[q]? =
          (originsOf (p :: ps))[p.chosen + (c.batchSize * c.seqLen + q)]? := by
        intro q
        rw [getElem?_drop, hchosen]
        congr 1
        omega
      rcases Nat.lt_trichotomy p.rejected (c.batchSize * c.seqLen) with hlt | heq | hgt
      · rw [hlast hlt]
        exact .last hchosen hlt.le
      · have hall : (originsOf (p :: ps)).drop (c.batchSize * c.seqLen * 2) = originsOf ps := by
          refine ext_getElem? fun q => ?_
          rw [hdrop, ← heq, ← add_assoc, getElem?_rest]
        rw [hall] at hrest
        exact .full hchosen heq (ih (nodup_cons.1 hlines).2 hps hrest)
      · -- the next batch starts with a rejected token
        have hnext := (hdrop 0).trans (getElem?_rejected hgt ps)
        obtain ⟨hplaced', -⟩ := hrest.split hn (ne_nil_of_mem (mem_of_getElem? hnext))
        exact absurd (hplaced'.chosen 0 hn _ hnext) sides_ne

/-! ### From lengths to batches -/

theorem LoaderShape.halves_append {A B : List α} (hA : A.length = c.batchSize * c.seqLen)
    (hB : B.length = c.batchSize * c.seqLen) : c.halves (A ++ B) = (A, B) := by
  rw [LoaderShape.halves, take_left' hA, drop_left' hA, take_of_length_le hB.le]

theorem eq_of_mem_replicate_some {n : ℕ} {o o' : Origin}
    (h : some o ∈ List.replicate n (some o')) : o = o' :=
  Option.some.inj (eq_of_mem_replicate h)

theorem not_mem_padding {n : ℕ} {o : Origin} : some o ∉ List.replicate n (none : Option Origin) :=
  fun h => Option.some_ne_none o (eq_of_mem_replicate h)

theorem apart_pair (line k r : ℕ) : c.Apart
    (List.replicate (c.batchSize * c.seqLen) (some (line, "chosen")))
    (List.replicate r (some (line, "rejected")) ++ List.replicate k none) := by
  have hrejected : ∀ o : Origin, some o ∈ List.replicate r (some (line, "rejected")) ++
      List.replicate k none → o = (line, "rejected") := fun o ho =>
    (mem_append.1 ho).elim eq_of_mem_replicate_some fun hpad => absurd hpad not_mem_padding
  refine ⟨fun o ho => ?_, fun o ho => ?_, fun row _ => ⟨line, fun o ho => ?_⟩⟩
  · rw [eq_of_mem_replicate_some ho]
  · rw [hrejected o ho]
  · rcases mem_append.1 ho with ho | ho
    · rw [eq_of_mem_replicate_some (mem_of_mem_rowOf ho)]
    · rw [hrejected o (mem_of_mem_rowOf ho)]

theorem marked_cons (p : PairLengths) (ps : List PairLengths) :
    marked (p :: ps) = (List.replicate p.chosen (some (p.line, "chosen")) ++
      List.replicate p.rejected (some (p.line, "rejected"))) ++ marked ps := by
  rw [marked, originsOf_cons, map_append, origins, map_append, map_replicate,
    map_replicate, marked]

theorem row_of_rowed {seqLen : ℕ} (hzero : ∀ p ∈ ps, p.rejected = 0) (h : Rowed seqLen ps) (k : ℕ) :
    ∀ row, ∃ line, ∀ o : Origin,
      some o ∈ rowOf (marked ps ++ List.replicate k none) seqLen row → o.1 = line := by
  induction ps with
  | nil => exact fun row => ⟨0, fun o ho => absurd (mem_of_mem_rowOf ho) not_mem_padding⟩
  | cons p ps ih =>
    have hp := hzero p mem_cons_self
    have hline : ∀ {o : Origin}, some o ∈ List.replicate p.chosen (some (p.line, "chosen")) →
        o.1 = p.line := fun ho => by rw [eq_of_mem_replicate_some ho]
    rw [marked_cons, hp, replicate_zero, append_nil]
    rcases ps with _ | ⟨p', ps⟩
    · refine fun row => ⟨p.line, fun o ho => ?_⟩
      rcases mem_append.1 (mem_of_mem_rowOf ho) with ho | ho
      · exact hline ((mem_append.1 ho).resolve_right not_mem_nil)
      · exact absurd ho not_mem_padding
    · obtain ⟨⟨m, hm⟩, hrest⟩ := h
      rw [Nat.mul_comm] at hm
      intro row
      rw [append_assoc]
      rcases lt_or_ge row m with hlt | hge
      · refine ⟨p.line, fun o ho => hline ?_⟩
        have hend : row * seqLen + seqLen ≤ p.chosen := by
          rw [hm, ← Nat.succ_mul]
          exact Nat.mul_le_mul_right _ hlt
        have hlen := @List.length_replicate (Option Origin) p.chosen (some (p.line, "chosen"))
        rw [rowOf, drop_append_of_le_length (by omega),
          take_append_of_le_length (by rw [length_drop]; omega)] at ho
        exact mem_of_mem_drop (mem_of_mem_take ho)
      · obtain ⟨d, rfl⟩ := Nat.exists_eq_add_of_le hge
        have hshift : rowOf (List.replicate p.chosen (some (p.line, "chosen")) ++
            (marked (p' :: ps) ++ List.replicate k none)) seqLen (m + d) =
              rowOf (marked (p' :: ps) ++ List.replicate k none) seqLen d := by
          have hlen : (List.replicate p.chosen (some (p.line, "chosen"))).length = m * seqLen := by
            rw [length_replicate, hm]
          rw [rowOf, rowOf, Nat.add_mul, ← drop_drop, drop_left' hlen]
        rw [hshift]
        exact ih (fun x hx => hzero x (mem_cons_of_mem p hx)) hrest d

theorem allApart_of_aligned (hn : 0 < c.batchSize * c.seqLen)
    (h : Aligned c.seqLen (c.batchSize * c.seqLen) ps) : c.AllApart (marked ps) := by
  induction h with
  | @full p ps hchosen hrejected h ih =>
    have hlen : (List.replicate p.chosen (some (p.line, "chosen")) ++
        List.replicate p.rejected (some (p.line, "rejected"))).length =
          c.batchSize * c.seqLen * 2 := by
      rw [length_append, length_replicate, length_replicate, hchosen, hrejected,
        Nat.mul_two]
    rw [LoaderShape.AllApart, marked_cons, batches_append (Nat.mul_pos hn two_pos) hlen,
      forall_mem_cons, LoaderShape.halves_append (by rw [length_replicate, hchosen])
        (by rw [length_replicate, hrejected])]
    refine ⟨?_, ih⟩
    have happart := apart_pair (c := c) p.line 0 p.rejected
    rw [replicate_zero, append_nil] at happart
    rwa [hchosen]
  | @last p hchosen hrejected =>
    have hmarked : marked [p] = List.replicate (c.batchSize * c.seqLen) (some (p.line, "chosen")) ++
        List.replicate p.rejected (some (p.line, "rejected")) := by
      rw [marked_cons, hchosen]
      exact append_nil _
    have hlen : (marked [p]).length = c.batchSize * c.seqLen + p.rejected := by
      rw [hmarked, length_append, length_replicate, length_replicate]
    have hne : marked [p] ≠ [] := length_pos_iff.1 (by omega)
    rw [LoaderShape.AllApart, batches_short hne (by omega), forall_mem_singleton,
      List.rightpad, hlen, hmarked, append_assoc,
      LoaderShape.halves_append length_replicate (by
        rw [length_append, length_replicate, length_replicate]
        omega)]
    exact apart_pair p.line _ p.rejected
  | @onlyChosen ps hrejected hchosen hrows =>
    rcases eq_or_ne (marked ps) [] with hnil | hne
    · rw [LoaderShape.AllApart, hnil]
      exact fun b hb => absurd hb not_mem_nil
    · have hlen : (marked ps).length ≤ c.batchSize * c.seqLen := by
        rw [marked, length_map, length_originsOf hrejected]
        exact hchosen
      have hpad : (marked ps).rightpad (c.batchSize * c.seqLen * 2) none =
          (marked ps ++ List.replicate (c.batchSize * c.seqLen - (marked ps).length) none) ++
            List.replicate (c.batchSize * c.seqLen) none := by
        rw [List.rightpad, append_assoc, replicate_append_replicate]
        congr 2
        omega
      rw [LoaderShape.AllApart, batches_short hne (by omega), forall_mem_singleton, hpad,
        LoaderShape.halves_append (by rw [length_append, length_replicate]; omega)
          length_replicate]
      refine ⟨fun o ho => ?_, fun o ho => absurd ho not_mem_padding, fun row _ => ?_⟩
      · obtain ⟨o', ho', heq⟩ :=
          mem_map.1 ((mem_append.1 ho).resolve_right not_mem_padding)
        rw [← Option.some.inj heq]
        exact side_of_mem hrejected ho'
      · obtain ⟨line, hline⟩ := row_of_rowed hrejected hrows _ row
        exact ⟨line, fun o ho => hline o ((mem_append.1 ho).resolve_right fun hpad =>
          not_mem_padding (mem_of_mem_rowOf hpad))⟩

end Aligned

def TextSource.lengths (src : TextSource L T α) (l : L × ℕ) : PairLengths :=
  if src.isBlank l.1 then ⟨l.2, 0, 0⟩
  else match src.parse l.1 with
    | .ok v => ⟨l.2, (src.encode (v "chosen")).length, (src.encode (v "rejected")).length⟩
    | .error _ => ⟨l.2, 0, 0⟩

/-- The pairs of a rank's lines with a token in one of the two texts. -/
def LoaderShape.pairs (c : LoaderShape) (src : TextSource L T α) (lines : List L) :
    List PairLengths :=
  ((c.mine 0 lines.zipIdx).map src.lengths).filter fun p => 0 < p.chosen + p.rejected

section Pairs

variable {c : LoaderShape} {src : TextSource L T α} {lines : List L}

theorem tagged_parse (l : L × ℕ) :
    src.tagged.parse l = (src.parse l.1).map fun v key => (v key, (l.2, key)) := rfl

theorem map_fst_pairIds (l : L × ℕ) :
    (src.tagged.pairIds l).map Prod.fst = (origins (src.lengths l)).map some := by
  rw [TextSource.pairIds, TextSource.lengths]
  by_cases hblank : src.isBlank l.1
  · rw [if_pos (show src.tagged.isBlank l from hblank), if_pos hblank]
    rfl
  · rw [if_neg (show ¬src.tagged.isBlank l from hblank), if_neg hblank]
    rw [tagged_parse]
    cases src.parse l.1 with
    | error e => rfl
    | ok v =>
      show List.map Prod.fst ((src.encode (v "chosen")).map _ ++
        (src.encode (v "rejected")).map _) = _
      rw [map_append, map_map, map_map, origins, map_append,
        map_replicate, map_replicate]
      exact congrArg₂ _ map_const' map_const'

theorem map_snd_pairIds (l : L × ℕ) : (src.tagged.pairIds l).map Prod.snd = src.pairIds l.1 := by
  rw [TextSource.pairIds, TextSource.pairIds]
  by_cases hblank : src.isBlank l.1
  · rw [if_pos (show src.tagged.isBlank l from hblank), if_pos hblank]
    rfl
  · rw [if_neg (show ¬src.tagged.isBlank l from hblank), if_neg hblank]
    rw [tagged_parse]
    cases src.parse l.1 with
    | error e => rfl
    | ok v =>
      show List.map Prod.snd ((src.encode (v "chosen")).map _ ++
        (src.encode (v "rejected")).map _) = _
      rw [map_append, map_map, map_map]
      exact congrArg₂ _ (map_id _) (map_id _)

theorem LoaderShape.mine_map {L' : Type} (f : L → L') (i : ℕ) (ls : List L) :
    c.mine i (ls.map f) = (c.mine i ls).map f := by
  rw [LoaderShape.mine, LoaderShape.mine, zipIdx_map, filter_map, map_map,
    map_map]
  rfl

def LoaderShape.taggedStream (c : LoaderShape) (src : TextSource L T α) (lines : List L) :
    List (Option Origin × α) := (c.mine 0 lines.zipIdx).flatMap src.tagged.pairIds

theorem map_snd_taggedStream :
    (c.taggedStream src lines).map Prod.snd = (c.mine 0 lines).flatMap src.pairIds := by
  have hmine := c.mine_map Prod.fst 0 lines.zipIdx
  rw [zipIdx_map_fst] at hmine
  rw [LoaderShape.taggedStream, map_flatMap, hmine, flatMap_map]
  exact flatMap_congr fun l _ => map_snd_pairIds l

theorem originsOf_filter (ps : List PairLengths) :
    originsOf (ps.filter fun p => 0 < p.chosen + p.rejected) = originsOf ps := by
  induction ps with
  | nil => rfl
  | cons p ps ih =>
    by_cases hp : 0 < p.chosen + p.rejected
    · rw [filter_cons_of_pos (by simpa using hp), originsOf_cons, originsOf_cons, ih]
    · have hnil : p.origins = [] := eq_nil_of_length_eq_zero (by rw [length_origins]; omega)
      rw [filter_cons_of_neg (by simpa using hp), originsOf_cons, hnil, ih, nil_append]

theorem map_fst_taggedStream :
    (c.taggedStream src lines).map Prod.fst = marked (c.pairs src lines) := by
  rw [LoaderShape.taggedStream, map_flatMap, marked, LoaderShape.pairs, originsOf_filter,
    originsOf, flatMap_map, map_flatMap]
  exact flatMap_congr fun l _ => map_fst_pairIds l

theorem line_lengths (l : L × ℕ) : (src.lengths l).line = l.2 := by
  rw [TextSource.lengths]
  split_ifs
  · rfl
  · cases src.parse l.1 <;> rfl

theorem nodup_pairs : ((c.pairs src lines).map PairLengths.line).Nodup := by
  have hmine : ((c.mine 0 lines.zipIdx).map Prod.snd).Nodup := by
    have hsub : (c.mine 0 lines.zipIdx).Sublist lines.zipIdx := by
      have hfilter := (filter_sublist (p := fun p : (L × ℕ) × ℕ =>
        decide (p.2 % c.worldSize = c.rank)) (l := lines.zipIdx.zipIdx)).map Prod.fst
      rwa [zipIdx_map_fst] at hfilter
    refine (hsub.map Prod.snd).nodup ?_
    rw [zipIdx_map_snd]
    exact nodup_range'
  have hlines : ((c.mine 0 lines.zipIdx).map src.lengths).map PairLengths.line =
      (c.mine 0 lines.zipIdx).map Prod.snd := by
    rw [map_map]
    exact map_congr_left fun l _ => line_lengths l
  rw [← hlines] at hmine
  exact (filter_sublist.map _).nodup hmine

end Pairs

section Runs

variable {c : LoaderShape} {src : TextSource L T UInt32} {lines : List L}

theorem yields_unique {σ β ε : Type} {next : σ → Except ε (Option β × σ)} {s : σ} {bs bs' : List β}
    (h : LoaderShape.Yields (fun s => ∃ s', next s = .ok (none, s'))
      (fun s b s' => next s = .ok (some b, s')) s bs)
    (h' : LoaderShape.Yields (fun s => ∃ s', next s = .ok (none, s'))
      (fun s b s' => next s = .ok (some b, s')) s bs') : bs = bs' := by
  refine h.unique (fun {s b s'} hs hg => ?_) (fun hg hg' => ?_) h'
  · obtain ⟨s'', hs⟩ := hs
    rw [hs] at hg
    cases hg
  · rw [hg] at hg'
    cases hg'
    exact ⟨rfl, rfl⟩

theorem LoaderShape.preferenceRun_batches (hn : 0 < c.batchSize * c.seqLen)
    (h : src.Parses lines) : c.PreferenceRun src ⟨[], lines, false, 0⟩
      ((batches (c.batchSize * c.seqLen * 2) src.padTokenId
        ((c.mine 0 lines).flatMap src.pairIds)).map
          fun flat => c.preferenceTensors (c.halves flat)) := by
  refine LoaderShape.Ready.yields (Nat.mul_pos hn two_pos)
    (fun flat => c.preferenceTensors (c.halves flat)) (fun it it' hnone => ⟨it', ?_⟩)
    (fun it flat it' hflat _ => ?_) h.ready
  · rw [LoaderShape.nextPreferenceBatch, LoaderShape.nextPreferenceIds]
    simp only [hnone]
    rfl
  · rw [LoaderShape.nextPreferenceBatch, LoaderShape.nextPreferenceIds]
    simp only [hflat]
    rfl

theorem TextSource.Parses.tagged (h : src.Parses lines) : src.tagged.Parses lines.zipIdx := by
  intro l hl
  have hmem : l.1 ∈ lines := by
    have hfst := mem_map_of_mem (f := Prod.fst) hl
    rwa [zipIdx_map_fst] at hfst
  rcases h l.1 hmem with hblank | ⟨v, hv⟩
  · exact .inl hblank
  · refine .inr ⟨fun key => (v key, (l.2, key)), ?_⟩
    rw [tagged_parse, hv]
    rfl

theorem LoaderShape.halves_map {β : Type} (f : α → β) (flat : List α) :
    c.halves (flat.map f) = ((c.halves flat).1.map f, (c.halves flat).2.map f) := by
  simp only [LoaderShape.halves, map_take, map_drop]

theorem erase_batches (m : ℕ) :
    (batches m src.padTokenId ((c.mine 0 lines).flatMap src.pairIds)).map
        (fun flat => c.preferenceTensors (c.halves flat)) =
      ((batches m src.tagged.padTokenId (c.taggedStream src lines)).map c.halves).map
        fun b => c.preferenceTensors (b.1.map Prod.snd, b.2.map Prod.snd) := by
  have hbatches := batches_map (n := m) Prod.snd src.tagged.padTokenId (c.taggedStream src lines)
  rw [map_snd_taggedStream] at hbatches
  rw [show src.padTokenId = Prod.snd src.tagged.padTokenId from rfl, hbatches, map_map,
    map_map]
  refine map_congr_left fun flat _ => ?_
  rw [Function.comp_apply, Function.comp_apply, LoaderShape.halves_map]

theorem forall_apart_iff (m : ℕ) :
    (∀ b ∈ (batches m src.tagged.padTokenId (c.taggedStream src lines)).map c.halves,
        c.Apart (b.1.map Prod.fst) (b.2.map Prod.fst)) ↔
      ∀ b ∈ batches m none (marked (c.pairs src lines)), c.Apart (c.halves b).1 (c.halves b).2 := by
  have hbatches := batches_map (n := m) Prod.fst src.tagged.padTokenId (c.taggedStream src lines)
  rw [map_fst_taggedStream] at hbatches
  rw [show (none : Option Origin) = Prod.fst src.tagged.padTokenId from rfl, hbatches,
    forall_mem_map, forall_mem_map]
  refine forall₂_congr fun flat _ => ?_
  rw [LoaderShape.halves_map]

theorem takeFlat_zero (tokens : L → Except LoadError (List α)) (pad : α) (lines : List L) :
    c.takeFlat tokens pad 0 ⟨[], lines, false, 0⟩ = .ok (none, ⟨[], lines, false, 0⟩) := by
  rw [LoaderShape.takeFlat, LoaderShape.fillUntil, dif_neg fun h => absurd h.1 (Nat.not_lt_zero _)]
  rfl

theorem LoaderShape.nextPreferenceIds_zero {src : TextSource L T α}
    (hzero : c.batchSize * c.seqLen = 0) (lines : List L) :
    c.nextPreferenceIds src ⟨[], lines, false, 0⟩ = .ok (none, ⟨[], lines, false, 0⟩) := by
  rw [LoaderShape.nextPreferenceIds]
  simp only [hzero, Nat.zero_mul, takeFlat_zero]
  rfl

theorem pairs_pos : ∀ p ∈ c.pairs src lines, 0 < p.chosen + p.rejected := fun p hp => by
  simpa using (mem_filter.1 hp).2

theorem LoaderShape.KeepsApart.aligned (h : c.KeepsApart src lines) (hrank : c.rank < c.worldSize)
    (hparse : src.Parses lines) (hn : 0 < c.batchSize * c.seqLen) :
    Aligned c.seqLen (c.batchSize * c.seqLen) (c.pairs src lines) := by
  obtain ⟨tagged, hids, -, happart⟩ :=
    h _ _ (newSharded_ok hrank lines) (c.preferenceRun_batches hn hparse)
  obtain rfl := yields_unique hids (LoaderShape.preferenceIds_batches hn hparse.tagged)
  exact aligned_of_allApart hn nodup_pairs pairs_pos ((forall_apart_iff _).1 happart)

/-- A run keeps the sides and the pairs apart exactly if the lengths of the texts are aligned to the
batches, or the batches have no tokens. -/
theorem keepsApart_iff (hrank : c.rank < c.worldSize) (hparse : src.Parses lines) :
    c.KeepsApart src lines ↔ c.batchSize * c.seqLen = 0 ∨
      Aligned c.seqLen (c.batchSize * c.seqLen) (c.pairs src lines) := by
  rcases Nat.eq_zero_or_pos (c.batchSize * c.seqLen) with hzero | hn
  · refine iff_of_true (fun it bs hit hrun => ⟨[], .done ⟨_, c.nextPreferenceIds_zero hzero _⟩, ?_,
      fun b hb => absurd hb not_mem_nil⟩) (.inl hzero)
    obtain rfl := Except.ok.inj ((newSharded_ok hrank lines).symm.trans hit)
    refine yields_unique hrun (.done ⟨⟨[], lines, false, 0⟩, ?_⟩)
    rw [LoaderShape.nextPreferenceBatch, LoaderShape.nextPreferenceIds_zero hzero]
    rfl
  · refine ⟨fun h => .inr (h.aligned hrank hparse hn), fun h it bs hit hrun => ?_⟩
    obtain rfl := Except.ok.inj ((newSharded_ok hrank lines).symm.trans hit)
    obtain rfl := yields_unique hrun (c.preferenceRun_batches hn hparse)
    exact ⟨_, LoaderShape.preferenceIds_batches hn hparse.tagged, erase_batches _,
      (forall_apart_iff _).2 (allApart_of_aligned hn (h.resolve_left hn.ne'))⟩

def counted : TextSource (ℕ × ℕ) ℕ UInt32 :=
  ⟨fun _ => false, fun l => .ok fun key => if key = "chosen" then l.1 else l.2,
    fun k => List.replicate k 7, 0⟩

theorem counted_parses (lines : List (ℕ × ℕ)) : counted.Parses lines := fun _ _ => .inr ⟨_, rfl⟩

theorem keepsApart_iff_counted : (⟨2, 1, 0, 1⟩ : LoaderShape).KeepsApart counted [(2, 2), (2, 1)] ↔
    1 * 2 = 0 ∨ Aligned 2 (1 * 2) [⟨0, 2, 2⟩, ⟨1, 2, 1⟩] :=
  keepsApart_iff (by decide) (counted_parses _)

/-- Of a pair with one token on each side both are in the chosen tensor. -/
theorem rejected_among_chosen : ¬∀ (src : TextSource (ℕ × ℕ) ℕ UInt32) lines (c : LoaderShape),
    c.rank < c.worldSize → src.Parses lines → c.KeepsApart src lines := by
  intro h
  have haligned := (h counted [(1, 1)] ⟨2, 1, 0, 1⟩ (by decide) (counted_parses _)).aligned
    (by decide) (counted_parses _) (by decide)
  have hpairs : (⟨2, 1, 0, 1⟩ : LoaderShape).pairs counted [(1, 1)] = [⟨0, 1, 1⟩] := rfl
  rw [hpairs] at haligned
  cases haligned with
  | full hchosen => exact absurd hchosen (by decide)
  | last hchosen => exact absurd hchosen (by decide)
  | onlyChosen hrejected => exact absurd (hrejected _ mem_cons_self) (by decide)

end Runs

end Grim.Garage
