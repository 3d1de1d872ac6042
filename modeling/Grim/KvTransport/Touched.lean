import Grim.KvTransport.LastDemotion

/-!
# Blocks a call does not touch

A call of the spill manager is about one block, and a promotion of another block reads what it
would have read before.  A promotion also leaves its own block so that the next one reads the same.
-/

namespace Grim.KvTransport

namespace LocalSpillManager

open Function (update)

variable {s s' s'' : LocalSpillManager} {b : ℕ} {ids ids' : List ℕ} {io : Except String Unit}

/-- Only the blocks `ids` have other copies than before. -/
structure Touches (s s' : LocalSpillManager) (ids : List ℕ) : Prop where
  own : (∀ b, OwnPaths s b) → ∀ b, OwnPaths s' b
  same : (∀ b, OwnPaths s b) → ∀ b ∉ ids, Same s s' b

theorem Same.trans (h : Same s s' b) (h' : Same s' s'' b) : Same s s'' b where
  blockElems := h'.blockElems.trans h.blockElems
  blockTiers := h'.blockTiers.trans h.blockTiers
  hostRamCache := h'.hostRamCache.trans h.hostRamCache
  compressedHost := h'.compressedHost.trans h.compressedHost
  packedHost := h'.packedHost.trans h.packedHost
  nvmeCache := h'.nvmeCache.trans h.nvmeCache
  nvmeCompressed := h'.nvmeCompressed.trans h.nvmeCompressed
  nvmePacked := h'.nvmePacked.trans h.nvmePacked
  rawFile := h'.rawFile.trans h.rawFile
  compressedFile := h'.compressedFile.trans h.compressedFile

theorem Touches.refl (s : LocalSpillManager) : Touches s s [] :=
  ⟨fun h => h, fun _ b _ => .refl s b⟩

theorem Touches.mono (h : Touches s s' ids) (hids : ids ⊆ ids') : Touches s s' ids' :=
  ⟨h.own, fun hp b hb => h.same hp b fun hm => hb (hids hm)⟩

theorem Touches.trans (h : Touches s s' ids) (h' : Touches s' s'' ids) : Touches s s'' ids :=
  ⟨fun hp => h'.own (h.own hp), fun hp b hb => (h.same hp b hb).trans (h'.same (h.own hp) b hb)⟩

theorem run_touches (c : Call) : Touches s (s.run c) [c.block] :=
  ⟨fun hp => run_ownPaths hp c, fun hp _ hb => run_same hp c (by simpa using hb)⟩

theorem demoteToHost_error {k v : List UInt32} {e : String}
    (h : s.demoteToHost b k v = (s', .error e)) : s' = s := by
  unfold demoteToHost at h
  split_ifs at h <;> cases h
  rfl

theorem demoteCompressed_error {blob : List UInt8} {e : String}
    (h : s.demoteCompressed b blob = (s', .error e)) : s' = s := by
  unfold demoteCompressed at h
  split_ifs at h <;> cases h
  rfl

theorem demotePacked_error {format : UInt16} {bs : List UInt8} {e : String}
    (h : s.demotePacked b format bs = (s', .error e)) : s' = s := by
  unfold demotePacked at h
  split_ifs at h <;> cases h
  rfl

theorem demoteToNvme_touches : Touches s (s.demoteToNvme io b).1 [b] := by
  rcases io with e | ⟨⟩
  · have h : (s.demoteToNvme (.error e) b).1 = s := by
      unfold demoteToNvme
      split <;> rfl
    rw [h]
    exact (Touches.refl s).mono (List.nil_subset _)
  · exact run_touches (.demoteToNvme b)

theorem demoteCompressedToNvme_touches : Touches s (s.demoteCompressedToNvme io b).1 [b] := by
  rcases io with e | ⟨⟩
  · have h : (s.demoteCompressedToNvme (.error e) b).1 = s := by
      unfold demoteCompressedToNvme
      split <;> rfl
    rw [h]
    exact (Touches.refl s).mono (List.nil_subset _)
  · exact run_touches (.demoteCompressedToNvme b)

theorem demotePackedToNvme_touches : Touches s (s.demotePackedToNvme io b).1 [b] := by
  rcases io with e | ⟨⟩
  · have h : (s.demotePackedToNvme (.error e) b).1 = s := by
      unfold demotePackedToNvme
      split <;> rfl
    rw [h]
    exact (Touches.refl s).mono (List.nil_subset _)
  · exact run_touches (.demotePackedToNvme b)

theorem promote_noCompressed (h : NoCompressed s b) : s.promote b = ((s.retrieve b).1,
    (s.retrieve b).2.map (·.map fun copy => .raw copy.1 copy.2)) := by
  simp only [promote, retrieveCompressed_noCompressed h]
  rcases s.retrieve b with ⟨s', e | _ | ⟨k, v⟩⟩ <;> rfl

theorem promote_compressed (h : ¬ NoCompressed s b) : s.promote b = ((s.retrieveCompressed b).1,
    (s.retrieveCompressed b).2.map (·.map .compressed)) := by
  have hsome : (s.retrieveCompressed b).2 ≠ .ok none := by
    unfold LocalSpillManager.retrieveCompressed
    rcases hh : s.compressedHost b with - | blob
    · rcases hn : s.nvmeCompressed b with - | path
      · exact absurd ⟨hh, hn⟩ h
      · simp only []
        split
        · simp
        · split_ifs <;> simp
    · simp
  unfold promote
  rcases hr : s.retrieveCompressed b with ⟨s', e | _ | blob⟩
  · rfl
  · exact absurd (by rw [hr]) hsome
  · rfl

theorem promote_touches : Touches s (s.promote b).1 [b] := by
  by_cases h : NoCompressed s b
  · rw [promote_noCompressed h]
    exact run_touches (.retrieve b)
  · rw [promote_compressed h]
    exact run_touches (.retrieveCompressed b)

theorem Same.promote (h : Same s s' b) (hp : OwnPaths s b) :
    (s'.promote b).2 = (s.promote b).2 := by
  by_cases hc : NoCompressed s b
  · have hc' : NoCompressed s' b := by
      unfold NoCompressed
      rwa [h.compressedHost, h.nvmeCompressed]
    rw [promote_noCompressed hc, promote_noCompressed hc']
    unfold LocalSpillManager.retrieve
    rw [h.blockTiers, h.hostRamCache, h.nvmeCache]
    split
    · rfl
    · rfl
    · rfl
    · rcases hn : s.nvmeCache b with - | path
      · rfl
      · obtain rfl := hp.raw path hn
        simp only [readExact, readToEnd, h.rawFile, h.blockElems]
        split <;> rfl
    · rfl
  · have hc' : ¬ NoCompressed s' b := by
      unfold NoCompressed
      rwa [h.compressedHost, h.nvmeCompressed]
    rw [promote_compressed hc, promote_compressed hc']
    unfold LocalSpillManager.retrieveCompressed
    rw [h.compressedHost, h.nvmeCompressed]
    split
    · rfl
    · rcases hn : s.nvmeCompressed b with - | path
      · rfl
      · obtain rfl := hp.compressed path hn
        simp only [readToEnd, h.compressedFile]
        split
        · rfl
        · split_ifs <;> rfl

theorem retrieve_cases : (s.retrieve b).1 = s ∨ ∃ copy, (s.retrieve b).2 = .ok (some copy)
    ∧ (s.retrieve b).1.blockTiers b = some .hostRam
    ∧ (s.retrieve b).1.hostRamCache b = some copy := by
  unfold LocalSpillManager.retrieve
  split
  · exact .inl rfl
  · exact .inl rfl
  · exact .inl rfl
  · split
    · exact .inl rfl
    · split
      · exact .inl rfl
      · exact .inr ⟨_, rfl, by simp, by simp⟩
  · exact .inl rfl

theorem retrieve_twice : ((s.retrieve b).1.retrieve b).2 = (s.retrieve b).2 := by
  rcases @retrieve_cases s b with h | ⟨copy, h1, h2, h3⟩
  · rw [h]
  · rw [h1]
    generalize (s.retrieve b).1 = s' at h2 h3 ⊢
    simp only [LocalSpillManager.retrieve, h2, h3]

theorem retrieve_noCompressed (h : NoCompressed s b) : NoCompressed (s.retrieve b).1 b := by
  unfold LocalSpillManager.retrieve
  repeat' split
  all_goals exact h

theorem retrieveCompressed_cases : (s.retrieveCompressed b).1 = s
    ∨ ∃ blob, (s.retrieveCompressed b).2 = .ok (some blob)
      ∧ (s.retrieveCompressed b).1.compressedHost b = some blob := by
  unfold LocalSpillManager.retrieveCompressed
  split
  · exact .inl rfl
  · split
    · exact .inl rfl
    · split
      · exact .inl rfl
      · split_ifs
        · exact .inl rfl
        · exact .inr ⟨_, rfl, by simp⟩

theorem promote_twice : ((s.promote b).1.promote b).2 = (s.promote b).2 := by
  by_cases h : NoCompressed s b
  · have h' : NoCompressed (s.promote b).1 b := by
      rw [promote_noCompressed h]
      exact retrieve_noCompressed h
    rw [promote_noCompressed h', promote_noCompressed h]
    dsimp only
    rw [retrieve_twice]
  · rcases @retrieveCompressed_cases s b with hs | ⟨blob, h1, h2⟩
    · have hp : (s.promote b).1 = s := by rw [promote_compressed h]; exact hs
      rw [hp]
    · have hp : (s.promote b).1 = (s.retrieveCompressed b).1 := by rw [promote_compressed h]
      rw [hp]
      have h' : ¬ NoCompressed (s.retrieveCompressed b).1 b := fun hn => by simp [hn.1] at h2
      rw [promote_compressed h', promote_compressed h, h1]
      generalize (s.retrieveCompressed b).1 = s' at h2 ⊢
      simp only [LocalSpillManager.retrieveCompressed, h2]

end LocalSpillManager

end Grim.KvTransport
