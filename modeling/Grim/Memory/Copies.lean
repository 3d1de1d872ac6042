import Grim.KvTransport.Touched
import Grim.Memory.Books
import Grim.Memory.Writes

/-!
# The copies behind the blocks

A promotion puts a copy back where the spill manager has one of the block's size.  A copy appears
for the blocks that are demoted and for no others: every call of the pool lists them (`Demotes`).
-/

namespace Grim.Memory

open KvTransport LocalSpillManager
open Function (update update_self update_of_ne)

namespace KvBlockPool

variable {p q r : KvBlockPool} {s s' : LocalSpillManager} {id b : ℕ} {ids ids' : List ℕ}
  {io : Except String Unit}

def blockElem (p : KvBlockPool) : ℕ := blockSize * p.numHeads * p.headDim

def decoded (p : KvBlockPool) : Promotion → Option (List UInt32 × List UInt32)
  | .raw k v => some (k, v)
  | .compressed blob => p.compressor.bind fun c => (c.dequantize blob).toOption

/-- The copy that a promotion puts back in the block: one that is of its size. -/
def copyFor (p : KvBlockPool) (id : ℕ) : Option (List UInt32 × List UInt32) :=
  match p.spill with
  | none => none
  | some s =>
    match (s.promote id).2 with
    | .ok (some copy) => (p.decoded copy).filter fun (k, v) =>
        k.length = p.blockElem ∧ v.length = p.blockElem
    | _ => none

def OwnFiles (p : KvBlockPool) : Prop := ∀ s, p.spill = some s → ∀ b, OwnPaths s b

def Sized (p : KvBlockPool) : Prop :=
  ∀ b, (p.blocks b).keyData.length = p.blockElem ∧ (p.blocks b).valueData.length = p.blockElem

/-- No block but those of `ids` has a copy that it did not have. -/
structure Demotes (p q : KvBlockPool) (ids : List ℕ) : Prop where
  own : p.OwnFiles → q.OwnFiles
  sized : p.Sized → q.Sized
  copy : p.OwnFiles → p.Sized → ∀ b ∉ ids, p.copyFor b = none → q.copyFor b = none

theorem Demotes.refl (p : KvBlockPool) : Demotes p p [] :=
  ⟨fun h => h, fun h => h, fun _ _ _ _ h => h⟩

theorem Demotes.trans (h : Demotes p q ids) (h' : Demotes q r ids') :
    Demotes p r (ids ++ ids') := by
  refine ⟨fun ho => h'.own (h.own ho), fun hs => h'.sized (h.sized hs), ?_⟩
  intro ho hs b hb hc
  rw [List.mem_append, not_or] at hb
  exact h'.copy (h.own ho) (h.sized hs) b hb.2 (h.copy ho hs b hb.1 hc)

/-- Everything a copy is read with is the same, but for the spill manager. -/
structure Alike (p q : KvBlockPool) : Prop where
  compressor : q.compressor = p.compressor
  numHeads : q.numHeads = p.numHeads
  headDim : q.headDim = p.headDim
  sized : p.Sized → q.Sized

theorem Alike.blockElem (h : Alike p q) : q.blockElem = p.blockElem := by
  unfold KvBlockPool.blockElem
  rw [h.numHeads, h.headDim]

theorem Alike.copyFor (h : Alike p q) (hp : p.spill = some s) (hq : q.spill = some s')
    (hread : (s'.promote b).2 = (s.promote b).2) : q.copyFor b = p.copyFor b := by
  have hdec : q.decoded = p.decoded := by
    funext copy
    unfold decoded
    rw [h.compressor]
  simp only [KvBlockPool.copyFor, hp, hq, hread, hdec, h.blockElem]

theorem Alike.demotes (h : Alike p q) (hs : q.spill = p.spill) : Demotes p q [] := by
  refine ⟨?_, h.sized, ?_⟩
  · unfold OwnFiles
    rw [hs]
    exact fun ho => ho
  · intro _ _ b _ hc
    rcases hsp : p.spill with - | s
    · unfold KvBlockPool.copyFor
      rw [hs, hsp]
    · rw [h.copyFor hsp (hs.trans hsp) rfl, hc]

theorem Demotes.of_same (h : q.compressor = p.compressor ∧ q.numHeads = p.numHeads
    ∧ q.headDim = p.headDim ∧ q.blocks = p.blocks ∧ q.spill = p.spill) : Demotes p q [] := by
  obtain ⟨hc, hn, hd, hb, hs⟩ := h
  refine Alike.demotes ⟨hc, hn, hd, fun hz => ?_⟩ hs
  unfold Sized blockElem
  rw [hn, hd, hb]
  exact hz

theorem Alike.demotes_touches (h : Alike p q) (hp : p.spill = some s) (hq : q.spill = some s')
    (ht : Touches s s' ids) : Demotes p q ids := by
  refine ⟨?_, h.sized, ?_⟩
  · intro ho t hsome
    rw [hq, Option.some.injEq] at hsome
    exact hsome ▸ ht.own (ho s hp)
  · intro ho _ b hb hc
    rw [h.copyFor hp hq ((ht.same (ho s hp) b hb).promote (ho s hp b)), hc]

theorem modify_alike {f : KvBlock → KvBlock}
    (hf : (f (p.blocks id)).keyData.length = (p.blocks id).keyData.length
      ∧ (f (p.blocks id)).valueData.length = (p.blocks id).valueData.length) :
    Alike p (p.modify id f) := by
  refine ⟨rfl, rfl, rfl, fun h b => ?_⟩
  by_cases hb : b = id
  · subst hb
    simp only [modify, update_self, hf.1, hf.2]
    exact h b
  · simp only [modify, update_of_ne hb]
    exact h b

theorem Alike.trans (h : Alike p q) (h' : Alike q r) : Alike p r :=
  ⟨h'.compressor.trans h.compressor, h'.numHeads.trans h.numHeads, h'.headDim.trans h.headDim,
    fun hs => h'.sized (h.sized hs)⟩

theorem spill_alike : Alike p { p with spill := some s } := ⟨rfl, rfl, rfl, fun hz => hz⟩

theorem countDemoted_alike : Alike p p.countDemoted := ⟨rfl, rfl, rfl, fun hz => hz⟩

theorem zeroed_alike : Alike p (p.modify id .zeroed) :=
  modify_alike (by simp [KvBlock.zeroed])

def demotedIf (id : ℕ) (d : Bool) : List ℕ := if d then [id] else []

section Tries

variable {d : Bool}

theorem demoteRawCopy_touches (h : p.demoteRawCopy s id io = (s', d)) :
    Touches s s' (demotedIf id d) := by
  have ht : Touches s (s.demoteToHost id (p.blocks id).keyData (p.blocks id).valueData).1 [id] :=
    run_touches (.demoteToHost id _ _)
  unfold demoteRawCopy at h
  split at h <;> rename_i hr <;> cases h
  · rw [hr] at ht
    exact ht.trans demoteToNvme_touches
  · rw [demoteToHost_error hr]
    exact .refl s

theorem demoteCompressedCopy_touches (h : p.demoteCompressedCopy s id io = (s', d)) :
    Touches s s' (demotedIf id d) := by
  unfold demoteCompressedCopy at h
  split at h
  · rename_i blob _
    have ht : Touches s (s.demoteCompressed id blob).1 [id] :=
      run_touches (.demoteCompressed id blob)
    split at h <;> rename_i hr <;> cases h
    · rw [hr] at ht
      exact ht.trans demoteCompressedToNvme_touches
    · rw [demoteCompressed_error hr]
      exact .refl s
  · cases h
    exact .refl s

theorem demotePackedCopy_touches (h : p.demotePackedCopy s id io = (s', d)) :
    Touches s s' (demotedIf id d) := by
  unfold demotePackedCopy at h
  split at h
  · rename_i format bs _ _
    have ht : Touches s (s.demotePacked id format bs).1 [id] :=
      run_touches (.demotePacked id format bs)
    split at h <;> rename_i hr <;> cases h
    · rw [hr] at ht
      exact ht.trans demotePackedToNvme_touches
    · rw [demotePacked_error hr]
      exact .refl s
  · cases h
    exact .refl s

theorem retry_touches {t : LocalSpillManager} (hfirst : Touches s t (demotedIf id false))
    (hsecond : Touches t s' (demotedIf id d)) : Touches s s' (demotedIf id d) :=
  (hfirst.mono (List.nil_subset _)).trans hsecond

theorem demoteEvicted_touches (h : p.demoteEvicted s id io = (s', d)) :
    Touches s s' (demotedIf id d) := by
  unfold demoteEvicted at h
  split at h
  · rename_i hr
    cases h
    exact demoteCompressedCopy_touches hr
  · rename_i hr
    exact retry_touches (demoteCompressedCopy_touches hr) (demoteRawCopy_touches h)

theorem demoteFreed_touches (h : p.demoteFreed s id io = (s', d)) :
    Touches s s' (demotedIf id d) := by
  unfold demoteFreed at h
  split at h
  · rename_i hr
    cases h
    exact demotePackedCopy_touches hr
  · rename_i hr
    exact retry_touches (demotePackedCopy_touches hr) (demoteEvicted_touches h)

end Tries

/-- Whether `demote_to_host` of the block's own content goes through. -/
def fitsHost (p : KvBlockPool) (s : LocalSpillManager) (id : ℕ) : Bool :=
  (s.demoteToHost id (p.blocks id).keyData (p.blocks id).valueData).2 matches .ok ()

def prefixDemotes (p : KvBlockPool) (id : ℕ) : List ℕ :=
  match p.spill with
  | none => []
  | some s => demotedIf id (p.fitsHost s id)

theorem demotePrefixBlock_demotes {d : Bool} (h : p.demotePrefixBlock id io = some (q, d)) :
    Demotes p q (p.prefixDemotes id) := by
  unfold demotePrefixBlock at h
  unfold prefixDemotes fitsHost
  rcases hs : p.spill with - | s <;> rw [hs] at h <;> dsimp only at h ⊢
  · cases h
    exact .refl p
  · split_ifs at h
    have ht : Touches s (s.demoteToHost id (p.blocks id).keyData (p.blocks id).valueData).1 [id] :=
      run_touches (.demoteToHost id _ _)
    split at h
    · rename_i s' e hr
      cases h
      rw [hr, demoteToHost_error hr]
      exact spill_alike.demotes_touches hs rfl (.refl s)
    · rename_i s' _ hr
      rw [hr] at ht ⊢
      have hn : Touches s (s'.demoteToNvme io id).1 [id] := ht.trans demoteToNvme_touches
      have hset : ∀ (s'' : LocalSpillManager) (tier : CacheTier), Alike p
          ({ p with spill := some s'' }.modify id fun b => { b with location := tier }) := by
        intro s'' tier
        exact spill_alike.trans (modify_alike ⟨rfl, rfl⟩)
      split at h <;> rename_i hn' <;> rw [hn'] at hn <;> cases h
      · exact (hset _ _).demotes_touches hs rfl hn
      · exact ((hset _ _).trans countDemoted_alike).demotes_touches hs rfl hn

def coldDemotes (p : KvBlockPool) (now : ℕ → ℕ) : List ℕ :=
  match p.prefixTree.coldestLeaf now with
  | none => []
  | some bid => p.prefixDemotes bid

theorem demoteColdPrefix_demotes {now : ℕ → ℕ} {res : Option ℕ}
    (h : p.demoteColdPrefix now io = some (q, res)) : Demotes p q (p.coldDemotes now) := by
  unfold demoteColdPrefix at h
  unfold coldDemotes
  rcases hc : p.prefixTree.coldestLeaf now with - | bid <;> rw [hc] at h <;> dsimp only at h ⊢
  · cases h
    exact .refl p
  · obtain ⟨⟨r, d⟩, hr, hq⟩ := Option.map_eq_some_iff.mp h
    cases hq
    exact demotePrefixBlock_demotes hr

def releaseDemotes (p : KvBlockPool) (id : ℕ) (io : Except String Unit) : List ℕ :=
  match p.spill with
  | none => []
  | some s => demotedIf id (p.demoteFreed s id io).2

def freeDemotes (p : KvBlockPool) (id : ℕ) (forceTier : Bool) (io : Except String Unit) : List ℕ :=
  match p.refCounts id with
  | none => if forceTier then p.releaseDemotes id io else []
  | some cnt => if 1 < cnt ∧ ¬ forceTier then [] else p.releaseDemotes id io

theorem recycle_alike : Alike p (p.recycle id) := by
  have h : Alike p (p.modify id .zeroed) := zeroed_alike
  exact ⟨h.compressor, h.numHeads, h.headDim, h.sized⟩

theorem dropInPlace_alike (h : p.dropInPlace id = some q) : Alike p q ∧ q.spill = p.spill := by
  unfold dropInPlace at h
  split_ifs at h <;> cases h
  · exact ⟨⟨rfl, rfl, rfl, fun hz => hz⟩, rfl⟩
  · exact ⟨recycle_alike.trans (modify_alike ⟨rfl, rfl⟩), rfl⟩

theorem markDemoted_alike : Alike p (p.markDemoted id) := by
  have h : Alike p (p.modify id fun b => { b with location := .hostRam }) := modify_alike ⟨rfl, rfl⟩
  exact ⟨h.compressor, h.numHeads, h.headDim, h.sized⟩

theorem release_demotes (h : p.release id io = some q) :
    Demotes p q (p.releaseDemotes id io) := by
  unfold release at h
  unfold releaseDemotes
  rcases hs : p.spill with - | s <;> rw [hs] at h <;> dsimp only at h ⊢
  · obtain ⟨ha, hq⟩ := dropInPlace_alike h
    exact ha.demotes hq
  · split_ifs at h
    split at h <;> rename_i hd <;> rw [hd]
    · cases h
      exact (spill_alike.trans markDemoted_alike).demotes_touches hs rfl (demoteFreed_touches hd)
    · obtain ⟨ha, hq⟩ := dropInPlace_alike h
      exact (spill_alike.trans ha).demotes_touches hs hq (demoteFreed_touches hd)

theorem freeWithTier_demotes {forceTier : Bool} (h : p.freeWithTier id forceTier io = some q) :
    Demotes p q (p.freeDemotes id forceTier io) := by
  have hrefs : ∀ refs, Demotes p { p with refCounts := refs } [] := fun refs =>
    .of_same ⟨rfl, rfl, rfl, rfl, rfl⟩
  unfold freeWithTier at h
  unfold freeDemotes
  rcases hc : p.refCounts id with - | cnt <;> rw [hc] at h <;> dsimp only at h ⊢ <;>
    split_ifs at h ⊢
  · exact release_demotes h
  · cases h
    exact .refl p
  · cases h
    exact hrefs _
  · have hr := release_demotes h
    exact (hrefs _).trans hr

def leafDemotes (p : KvBlockPool) (id : ℕ) (io : Except String Unit) : List ℕ :=
  match p.spill with
  | none => []
  | some s => demotedIf id (p.demoteEvicted s id io).2

def evictDemotes (p : KvBlockPool) (now : ℕ → ℕ) (io : Except String Unit) : List ℕ :=
  let (tree, chain) := p.prefixTree.evictColdestChain now
  let p := { p with prefixTree := tree }
  match chain with
  | [] => []
  | bid :: ancestors =>
    if 0 < p.blockRefCount bid then []
    else
      match p.freeAncestors ancestors with
      | none => []
      | some p => p.leafDemotes bid io

def allocDemotes (p : KvBlockPool) (now : ℕ → ℕ) (io : Except String Unit) : List ℕ :=
  if p.freeList = [] then p.evictDemotes now io else []

theorem freeAncestors_alike {chain : List ℕ} : ∀ {p : KvBlockPool},
    freeAncestors chain p = some q → Alike p q ∧ q.spill = p.spill := by
  induction chain with
  | nil =>
    intro p h
    cases h
    exact ⟨⟨rfl, rfl, rfl, fun hz => hz⟩, rfl⟩
  | cons a chain ih =>
    intro p h
    unfold freeAncestors at h
    split_ifs at h
    obtain ⟨ha, hs⟩ := ih h
    have hr : Alike p { (p.recycle a).countDemoted with refCounts := update p.refCounts a none } :=
      ⟨rfl, rfl, rfl, fun hz => recycle_alike.sized hz⟩
    exact ⟨hr.trans ha, hs⟩

theorem evictLeaf_demotes (h : p.evictLeaf id io = some q) :
    Demotes p q (p.leafDemotes id io) := by
  unfold evictLeaf at h
  unfold leafDemotes
  split_ifs at h
  rcases hs : p.spill with - | s <;> rw [hs] at h <;> dsimp only at h ⊢
  · cases h
    exact Alike.demotes ⟨rfl, rfl, rfl, fun hz => recycle_alike.sized hz⟩ rfl
  · split at h <;> rename_i hd <;> rw [hd] <;> cases h
    · exact Alike.demotes_touches ⟨rfl, rfl, rfl, fun hz => markDemoted_alike.sized hz⟩ hs rfl
        (demoteEvicted_touches hd)
    · exact Alike.demotes_touches ⟨rfl, rfl, rfl, fun hz => recycle_alike.sized hz⟩ hs rfl
        (demoteEvicted_touches hd)

theorem evictCold_demotes {now : ℕ → ℕ} {d : Bool} (h : p.evictCold now io = some (q, d)) :
    Demotes p q (p.evictDemotes now io) := by
  have htree : ∀ tree, Demotes p { p with prefixTree := tree } [] := fun tree =>
    .of_same ⟨rfl, rfl, rfl, rfl, rfl⟩
  simp only [evictCold] at h
  simp only [evictDemotes]
  rcases hc : (p.prefixTree.evictColdestChain now).2 with - | ⟨bid, ancestors⟩ <;>
    rw [hc] at h <;> dsimp only at h ⊢
  · cases h
    exact htree _
  · split_ifs at h ⊢
    · cases h
      exact htree _
    · obtain ⟨r, hr, h⟩ := Option.bind_eq_some_iff.mp h
      obtain ⟨r', hr', hq⟩ := Option.map_eq_some_iff.mp h
      cases hq
      obtain ⟨ha, hs⟩ := freeAncestors_alike hr
      rw [hr]
      exact ((htree _).trans (ha.demotes hs)).trans (evictLeaf_demotes hr')

theorem evictFor_demotes {now : ℕ → ℕ} (h : p.evictFor now io = some q) :
    Demotes p q (p.allocDemotes now io) := by
  unfold evictFor at h
  unfold allocDemotes
  split_ifs at h ⊢
  · obtain ⟨⟨r, d⟩, hr, rfl⟩ := Option.map_eq_some_iff.mp h
    exact evictCold_demotes hr
  · cases h
    exact .refl p

theorem reclaimFor_alike {now : ℕ → ℕ} :
    Alike p (p.reclaimFor now) ∧ (p.reclaimFor now).spill = p.spill := by
  unfold reclaimFor reclaimSpilledColdest
  split_ifs
  · split
    · exact ⟨⟨rfl, rfl, rfl, fun hz => hz⟩, rfl⟩
    · rename_i id _
      have hm : Alike p (p.modify id fun b => { b with numTokens := 0, received := false }) :=
        modify_alike ⟨rfl, rfl⟩
      exact ⟨⟨rfl, rfl, rfl, fun hz => hm.sized hz⟩, rfl⟩
  · exact ⟨⟨rfl, rfl, rfl, fun hz => hz⟩, rfl⟩

theorem popFree_alike : Alike p p.popFree.1 ∧ p.popFree.1.spill = p.spill := by
  unfold popFree
  split <;> exact ⟨⟨rfl, rfl, rfl, fun hz => hz⟩, rfl⟩

theorem alloc_demotes {now : ℕ → ℕ} {res : Except String ℕ}
    (h : p.alloc now io = some (q, res)) : Demotes p q (p.allocDemotes now io) := by
  obtain ⟨r, hr, hq⟩ := Option.map_eq_some_iff.mp h
  obtain rfl := congrArg Prod.fst hq
  have hrec : Demotes r (r.reclaimFor fun k => now (p.prefixTree.size + k)) [] :=
    reclaimFor_alike.1.demotes reclaimFor_alike.2
  have hpop := popFree_alike.1.demotes
    (@popFree_alike (r.reclaimFor fun k => now (p.prefixTree.size + k))).2
  simpa using ((evictFor_demotes hr).trans hrec).trans hpop

end KvBlockPool

end Grim.Memory
