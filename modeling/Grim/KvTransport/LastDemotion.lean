import Grim.KvTransport.Spill
import Grim.Lib.Steps

/-!
# The last demotion wins, if it finds no copy of another kind

A block has copies of one kind only, that of its last demotion (`Holds`), as long as the demotions
that do not clear the other kinds find none: `demote_to_host` clears neither the compressed nor
the packed copies, `demote_compressed` not the packed ones.
-/

namespace Grim.KvTransport

namespace LocalSpillManager

open LittleEndian Function

variable {s s' : LocalSpillManager} {b b' : ℕ}

inductive Copy
  | raw (k v : List UInt32)
  | compressed (blob : List UInt8)
  | packed (format : UInt16) (bs : List UInt8)
deriving DecidableEq, Repr

def NoRaw (s : LocalSpillManager) (b : ℕ) : Prop :=
  s.hostRamCache b = none ∧ s.nvmeCache b = none

def NoCompressed (s : LocalSpillManager) (b : ℕ) : Prop :=
  s.compressedHost b = none ∧ s.nvmeCompressed b = none

def NoPacked (s : LocalSpillManager) (b : ℕ) : Prop :=
  s.packedHost b = none ∧ s.nvmePacked b = none

instance : Decidable (NoRaw s b) := by unfold NoRaw; infer_instance

instance : Decidable (NoCompressed s b) := by unfold NoCompressed; infer_instance

instance : Decidable (NoPacked s b) := by unfold NoPacked; infer_instance

structure OwnPaths (s : LocalSpillManager) (b : ℕ) : Prop where
  raw : ∀ p, s.nvmeCache b = some p → p = .raw b
  compressed : ∀ p, s.nvmeCompressed b = some p → p = .compressed b
  packed : ∀ p, s.nvmePacked b = some p → p = .packed b

def RawAt (s : LocalSpillManager) (b : ℕ) (k v : List UInt32) : Prop :=
  (s.blockTiers b = some .hostRam ∧ s.hostRamCache b = some (k, v)) ∨
    (s.blockTiers b = some .nvMe ∧ s.hostRamCache b = none ∧ s.nvmeCache b = some (.raw b)
      ∧ s.files (.raw b) = some (words k ++ words v))

def CompressedAt (s : LocalSpillManager) (b : ℕ) (blob : List UInt8) : Prop :=
  (s.blockTiers b = some .hostRam ∧ s.compressedHost b = some blob) ∨
    (s.blockTiers b = some .nvMe ∧ s.compressedHost b = none
      ∧ s.nvmeCompressed b = some (.compressed b) ∧ s.files (.compressed b) = some blob)

def PackedAt (s : LocalSpillManager) (b : ℕ) (format : UInt16) (bs : List UInt8) : Prop :=
  (s.blockTiers b = some .hostRam ∧ s.packedHost b = some (format, bs)) ∨
    (s.blockTiers b = some .nvMe ∧ s.packedHost b = none ∧ s.nvmePacked b = some (.packed b))

/-- The block's copies are of the kind of its last demotion, and hold its bytes. -/
def Holds (s : LocalSpillManager) (b : ℕ) : Option Copy → Prop
  | none => s.blockTiers b = none ∧ NoRaw s b ∧ NoCompressed s b ∧ NoPacked s b
  | some (.raw k v) => NoCompressed s b ∧ NoPacked s b
      ∧ k.length = s.blockElems ∧ v.length = s.blockElems ∧ RawAt s b k v
  | some (.compressed blob) => NoRaw s b ∧ NoPacked s b ∧ blob ≠ [] ∧ CompressedAt s b blob
  | some (.packed format bs) => NoRaw s b ∧ NoCompressed s b ∧ PackedAt s b format bs

/-- Nothing that `b` has in `s` is different in `s'`. -/
structure Same (s s' : LocalSpillManager) (b : ℕ) : Prop where
  blockElems : s'.blockElems = s.blockElems
  blockTiers : s'.blockTiers b = s.blockTiers b
  hostRamCache : s'.hostRamCache b = s.hostRamCache b
  compressedHost : s'.compressedHost b = s.compressedHost b
  packedHost : s'.packedHost b = s.packedHost b
  nvmeCache : s'.nvmeCache b = s.nvmeCache b
  nvmeCompressed : s'.nvmeCompressed b = s.nvmeCompressed b
  nvmePacked : s'.nvmePacked b = s.nvmePacked b
  rawFile : s'.files (.raw b) = s.files (.raw b)
  compressedFile : s'.files (.compressed b) = s.files (.compressed b)

theorem Same.refl (s : LocalSpillManager) (b : ℕ) : Same s s b :=
  ⟨rfl, rfl, rfl, rfl, rfl, rfl, rfl, rfl, rfl, rfl⟩

theorem Same.ownPaths (h : Same s s' b) (hp : OwnPaths s b) : OwnPaths s' b := by
  obtain ⟨h1, h2, h3⟩ := hp
  refine ⟨?_, ?_, ?_⟩
  · rwa [h.nvmeCache]
  · rwa [h.nvmeCompressed]
  · rwa [h.nvmePacked]

theorem Same.holds (h : Same s s' b) {c : Option Copy} (hc : Holds s b c) : Holds s' b c := by
  rcases c with _ | ⟨k, v⟩ | ⟨blob⟩ | ⟨format, bs⟩ <;>
    simpa only [Holds, NoRaw, NoCompressed, NoPacked, RawAt, CompressedAt, PackedAt, h.blockElems,
      h.blockTiers, h.hostRamCache, h.compressedHost, h.packedHost, h.nvmeCache, h.nvmeCompressed,
      h.nvmePacked, h.rawFile, h.compressedFile] using hc

inductive Call
  | demoteToHost (b : ℕ) (k v : List UInt32)
  | demoteToNvme (b : ℕ)
  | demoteCompressed (b : ℕ) (blob : List UInt8)
  | demoteCompressedToNvme (b : ℕ)
  | demotePacked (b : ℕ) (format : UInt16) (bs : List UInt8)
  | demotePackedToNvme (b : ℕ)
  | retrieve (b : ℕ)
  | retrieveCompressed (b : ℕ)

def Call.block : Call → ℕ
  | .demoteToHost b _ _ | .demoteToNvme b | .demoteCompressed b _ | .demoteCompressedToNvme b
  | .demotePacked b _ _ | .demotePackedToNvme b | .retrieve b | .retrieveCompressed b => b

def run (s : LocalSpillManager) : Call → LocalSpillManager
  | .demoteToHost b k v => (s.demoteToHost b k v).1
  | .demoteToNvme b => (s.demoteToNvme (.ok ()) b).1
  | .demoteCompressed b blob => (s.demoteCompressed b blob).1
  | .demoteCompressedToNvme b => (s.demoteCompressedToNvme (.ok ()) b).1
  | .demotePacked b format bs => (s.demotePacked b format bs).1
  | .demotePackedToNvme b => (s.demotePackedToNvme (.ok ()) b).1
  | .retrieve b => (s.retrieve b).1
  | .retrieveCompressed b => (s.retrieveCompressed b).1

def demoted (s : LocalSpillManager) : Call → Option Copy
  | .demoteToHost _ k v =>
    if k.length = s.blockElems ∧ v.length = s.blockElems then some (.raw k v) else none
  | .demoteCompressed _ blob => if blob = [] then none else some (.compressed blob)
  | .demotePacked _ format bs => if bs = [] then none else some (.packed format bs)
  | _ => none

theorem raw_ne (h : b' ≠ b) : SpillPath.raw b' ≠ .raw b := by simp [h]

theorem compressed_ne (h : b' ≠ b) : SpillPath.compressed b' ≠ .compressed b := by simp [h]

theorem run_same (hp : ∀ b, OwnPaths s b) (c : Call) (hb : b ≠ c.block) : Same s (s.run c) b := by
  cases c with
  | demoteToHost d k v =>
    simp only [Call.block] at hb
    simp only [run, demoteToHost]
    split_ifs
    · exact .refl s b
    · constructor <;> simp [update_of_ne hb]
  | demoteToNvme d =>
    simp only [Call.block] at hb
    simp only [run, demoteToNvme]
    split
    · exact .refl s b
    · constructor <;> simp [update_of_ne hb, update_of_ne (raw_ne hb)]
  | demoteCompressed d blob =>
    simp only [Call.block] at hb
    simp only [run, demoteCompressed]
    split_ifs
    · exact .refl s b
    · constructor <;> simp [update_of_ne hb]
  | demoteCompressedToNvme d =>
    simp only [Call.block] at hb
    simp only [run, demoteCompressedToNvme]
    split
    · exact .refl s b
    · constructor <;> simp [update_of_ne hb, update_of_ne (compressed_ne hb)]
  | demotePacked d format bs =>
    simp only [Call.block] at hb
    simp only [run, demotePacked]
    split_ifs
    · exact .refl s b
    · constructor <;> simp [update_of_ne hb]
  | demotePackedToNvme d =>
    simp only [Call.block] at hb
    simp only [run, demotePackedToNvme]
    split
    · exact .refl s b
    · constructor <;> simp [update_of_ne hb]
  | retrieve d =>
    simp only [Call.block] at hb
    simp only [run, LocalSpillManager.retrieve]
    split
    · exact .refl s b
    · exact .refl s b
    · exact .refl s b
    · split
      · exact .refl s b
      · rename_i path hpath
        obtain rfl := (hp d).raw path hpath
        split
        · exact .refl s b
        · constructor <;> simp [update_of_ne hb, update_of_ne (raw_ne hb)]
    · exact .refl s b
  | retrieveCompressed d =>
    simp only [Call.block] at hb
    simp only [run, LocalSpillManager.retrieveCompressed]
    split
    · exact .refl s b
    · split
      · exact .refl s b
      · rename_i path hpath
        obtain rfl := (hp d).compressed path hpath
        split
        · exact .refl s b
        · split_ifs
          · exact .refl s b
          · constructor <;> simp [update_of_ne hb, update_of_ne (compressed_ne hb)]

theorem run_ownPaths (hp : ∀ b, OwnPaths s b) (c : Call) : ∀ b, OwnPaths (s.run c) b := by
  intro b
  by_cases hb : b = c.block
  · obtain ⟨h1, h2, h3⟩ := hp b
    subst hb
    cases c with
    | demoteToHost d k v =>
      simp only [run, demoteToHost]
      split_ifs
      · exact hp d
      · exact ⟨h1, h2, h3⟩
    | demoteToNvme d =>
      simp only [run, demoteToNvme]
      split
      · exact hp d
      · exact ⟨fun p h => by simpa [Call.block, eq_comm] using h, h2, h3⟩
    | demoteCompressed d blob =>
      simp only [run, demoteCompressed]
      split_ifs
      · exact hp d
      · exact ⟨fun p h => by simp [Call.block] at h, h2, h3⟩
    | demoteCompressedToNvme d =>
      simp only [run, demoteCompressedToNvme]
      split
      · exact hp d
      · exact ⟨h1, fun p h => by simpa [Call.block, eq_comm] using h, h3⟩
    | demotePacked d format bs =>
      simp only [run, demotePacked]
      split_ifs
      · exact hp d
      · exact ⟨fun p h => by simp [Call.block] at h, fun p h => by simp [Call.block] at h, h3⟩
    | demotePackedToNvme d =>
      simp only [run, demotePackedToNvme]
      split
      · exact hp d
      · exact ⟨h1, h2, fun p h => by simpa [Call.block, eq_comm] using h⟩
    | retrieve d =>
      simp only [run, LocalSpillManager.retrieve]
      repeat' split
      all_goals first | exact hp d | exact ⟨fun p h => by simp [Call.block] at h, h2, h3⟩
    | retrieveCompressed d =>
      simp only [run, LocalSpillManager.retrieveCompressed]
      repeat' split
      all_goals first | exact hp d | exact ⟨h1, fun p h => by simp [Call.block] at h, h3⟩
  · exact (run_same hp c hb).ownPaths (hp b)

def Clears (s : LocalSpillManager) : Call → Prop
  | .demoteToHost b k v => k.length = s.blockElems ∧ v.length = s.blockElems →
      NoCompressed s b ∧ NoPacked s b
  | .demoteCompressed b blob => blob ≠ [] → NoPacked s b
  | _ => True

instance (s : LocalSpillManager) (c : Call) : Decidable (Clears s c) := by
  cases c <;> simp only [Clears] <;> infer_instance

section Own

variable {last : Option Copy}

theorem demoteToHost_holds (k v : List UInt32) (h : Holds s b last)
    (hc : Clears s (.demoteToHost b k v)) : Holds (s.run (.demoteToHost b k v)) b
      ((demoted s (.demoteToHost b k v)).or last) := by
  by_cases hlen : k.length = s.blockElems ∧ v.length = s.blockElems
  · obtain ⟨hnc, hnp⟩ := hc hlen
    have hlen' : ¬ (k.length ≠ s.blockElems ∨ v.length ≠ s.blockElems) := by tauto
    simp only [demoted, run, demoteToHost, if_pos hlen, if_neg hlen']
    exact ⟨hnc, hnp, hlen.1, hlen.2, .inl ⟨by simp, by simp⟩⟩
  · have hlen' : k.length ≠ s.blockElems ∨ v.length ≠ s.blockElems := by tauto
    simpa only [demoted, run, demoteToHost, if_neg hlen, if_pos hlen', Option.none_or] using h

theorem demoteToNvme_holds (h : Holds s b last) : Holds (s.run (.demoteToNvme b)) b last := by
  rcases hh : s.hostRamCache b with _ | ⟨k, v⟩
  · simpa only [run, demoteToNvme, hh] using h
  · rcases last with _ | ⟨k', v'⟩ | ⟨blob⟩ | ⟨format, bs⟩
    · exact absurd hh (by simp [h.2.1.1])
    · obtain ⟨hnc, hnp, hk, hv, ⟨-, hraw⟩ | ⟨-, hraw, -⟩⟩ := h
      · obtain ⟨rfl, rfl⟩ : k = k' ∧ v = v' := by simpa [hh] using hraw
        simp only [run, demoteToNvme, hh]
        exact ⟨hnc, hnp, hk, hv, .inr ⟨by simp, by simp, by simp, by simp⟩⟩
      · exact absurd hh (by simp [hraw])
    · exact absurd hh (by simp [h.1.1])
    · exact absurd hh (by simp [h.1.1])

theorem demoteCompressed_holds (blob : List UInt8) (h : Holds s b last)
    (hc : Clears s (.demoteCompressed b blob)) : Holds (s.run (.demoteCompressed b blob)) b
      ((demoted s (.demoteCompressed b blob)).or last) := by
  by_cases hb : blob = []
  · simpa [demoted, run, demoteCompressed, hb] using h
  · have hnp := hc hb
    simp only [demoted, run, demoteCompressed, List.isEmpty_iff, if_neg hb]
    exact ⟨⟨by simp, by simp⟩, hnp, hb, .inl ⟨by simp, by simp⟩⟩

theorem demoteCompressedToNvme_holds (h : Holds s b last) :
    Holds (s.run (.demoteCompressedToNvme b)) b last := by
  rcases hh : s.compressedHost b with _ | blob
  · simpa only [run, demoteCompressedToNvme, hh] using h
  · rcases last with _ | ⟨k', v'⟩ | ⟨blob'⟩ | ⟨format, bs⟩
    · exact absurd hh (by simp [h.2.2.1.1])
    · exact absurd hh (by simp [h.1.1])
    · obtain ⟨hnr, hnp, hne, ⟨-, hcomp⟩ | ⟨-, hcomp, -⟩⟩ := h
      · obtain rfl : blob = blob' := by simpa [hh] using hcomp
        simp only [run, demoteCompressedToNvme, hh]
        exact ⟨hnr, hnp, hne, .inr ⟨by simp, by simp, by simp, by simp⟩⟩
      · exact absurd hh (by simp [hcomp])
    · exact absurd hh (by simp [h.2.1.1])

theorem demotePacked_holds (format : UInt16) (bs : List UInt8) (h : Holds s b last) :
    Holds (s.run (.demotePacked b format bs)) b
      ((demoted s (.demotePacked b format bs)).or last) := by
  by_cases hb : bs = []
  · simpa [demoted, run, demotePacked, hb] using h
  · simp only [demoted, run, demotePacked, List.isEmpty_iff, if_neg hb]
    exact ⟨⟨by simp, by simp⟩, ⟨by simp, by simp⟩, .inl ⟨by simp, by simp⟩⟩

theorem demotePackedToNvme_holds (h : Holds s b last) :
    Holds (s.run (.demotePackedToNvme b)) b last := by
  rcases hh : s.packedHost b with _ | ⟨format, bs⟩
  · simpa only [run, demotePackedToNvme, hh] using h
  · rcases last with _ | ⟨k', v'⟩ | ⟨blob'⟩ | ⟨format', bs'⟩
    · exact absurd hh (by simp [h.2.2.2.1])
    · exact absurd hh (by simp [h.2.1.1])
    · exact absurd hh (by simp [h.2.1.1])
    · obtain ⟨hnr, hnc, -⟩ := h
      simp only [run, demotePackedToNvme, hh]
      exact ⟨hnr, hnc, .inr ⟨by simp, by simp, by simp⟩⟩

theorem retrieve_rawAt {k v : List UInt32} (hk : k.length = s.blockElems)
    (hv : v.length = s.blockElems) (h : RawAt s b k v) :
    (s.retrieve b).2 = .ok (some (k, v)) ∧ RawAt (s.retrieve b).1 b k v := by
  rcases h with ⟨ht, hh⟩ | ⟨ht, hh, hn, hf⟩
  · simp only [LocalSpillManager.retrieve, ht]
    exact ⟨by rw [hh], .inl ⟨ht, hh⟩⟩
  · have hread : s.readExact (.raw b) (s.blockElems * 8) = .ok (words k ++ words v) := by
      have hlen : (words k ++ words v).length = s.blockElems * 8 := by
        rw [List.length_append, length_words, length_words, hk, hv]
        omega
      simp only [readExact, readToEnd, hf, hlen, lt_irrefl, if_false]
      rw [← hlen, List.take_length]
    have htake : (words k ++ words v).take (s.blockElems * 4) = words k :=
      List.take_left' (by rw [length_words, hk])
    have hdrop : (words k ++ words v).drop (s.blockElems * 4) = words v :=
      List.drop_left' (by rw [length_words, hk])
    simp only [LocalSpillManager.retrieve, ht, hn, hread, htake, hdrop, parseF32Slice,
      unwords_words]
    exact ⟨trivial, .inl ⟨by simp, by simp⟩⟩

theorem retrieve_noRaw (h : NoRaw s b) :
    (s.retrieve b).1 = s ∧ ∀ r, (s.retrieve b).2 ≠ .ok (some r) := by
  simp only [LocalSpillManager.retrieve, h.2]
  split
  · simp
  · simp
  · simp [h.1]
  · simp
  · simp

theorem retrieve_keeps (hnc : NoCompressed s b) (hnp : NoPacked s b) :
    NoCompressed (s.retrieve b).1 b ∧ NoPacked (s.retrieve b).1 b
      ∧ (s.retrieve b).1.blockElems = s.blockElems := by
  simp only [LocalSpillManager.retrieve]
  repeat' split
  all_goals exact ⟨hnc, hnp, rfl⟩

theorem retrieve_holds (h : Holds s b last) : Holds (s.run (.retrieve b)) b last := by
  rcases last with _ | ⟨k, v⟩ | ⟨blob⟩ | ⟨format, bs⟩
  · rw [run, (retrieve_noRaw h.2.1).1]
    exact h
  · obtain ⟨hnc, hnp, hk, hv, hraw⟩ := h
    obtain ⟨hnc', hnp', helems⟩ := retrieve_keeps hnc hnp
    refine ⟨hnc', hnp', ?_, ?_, (retrieve_rawAt hk hv hraw).2⟩
    · rw [run, helems, hk]
    · rw [run, helems, hv]
  · rw [run, (retrieve_noRaw h.1).1]
    exact h
  · rw [run, (retrieve_noRaw h.1).1]
    exact h

theorem retrieveCompressed_compressedAt {blob : List UInt8} (hne : blob ≠ [])
    (h : CompressedAt s b blob) : (s.retrieveCompressed b).2 = .ok (some blob)
      ∧ CompressedAt (s.retrieveCompressed b).1 b blob := by
  rcases h with ⟨ht, hh⟩ | ⟨ht, hh, hn, hf⟩
  · simp only [LocalSpillManager.retrieveCompressed, hh]
    exact ⟨trivial, .inl ⟨ht, hh⟩⟩
  · have hread : s.readToEnd (.compressed b) = .ok blob := by simp only [readToEnd, hf]
    have hempty : ¬ blob.isEmpty = true := by simpa using hne
    simp only [LocalSpillManager.retrieveCompressed, hh, hn, hread, if_neg hempty]
    exact ⟨trivial, .inl ⟨by simp, by simp⟩⟩

theorem retrieveCompressed_noCompressed (h : NoCompressed s b) :
    s.retrieveCompressed b = (s, .ok none) := by
  simp only [LocalSpillManager.retrieveCompressed, h.1, h.2]

theorem retrieveCompressed_keeps (hnr : NoRaw s b) (hnp : NoPacked s b) :
    NoRaw (s.retrieveCompressed b).1 b ∧ NoPacked (s.retrieveCompressed b).1 b := by
  simp only [LocalSpillManager.retrieveCompressed]
  repeat' split
  all_goals exact ⟨hnr, hnp⟩

theorem retrieveCompressed_holds (h : Holds s b last) :
    Holds (s.run (.retrieveCompressed b)) b last := by
  rcases last with _ | ⟨k, v⟩ | ⟨blob⟩ | ⟨format, bs⟩
  · rw [run, retrieveCompressed_noCompressed h.2.2.1]
    exact h
  · rw [run, retrieveCompressed_noCompressed h.1]
    exact h
  · obtain ⟨hnr, hnp, hne, hcomp⟩ := h
    obtain ⟨hnr', hnp'⟩ := retrieveCompressed_keeps hnr hnp
    exact ⟨hnr', hnp', hne, (retrieveCompressed_compressedAt hne hcomp).2⟩
  · rw [run, retrieveCompressed_noCompressed h.2.1]
    exact h

end Own

theorem run_holds {last : Option Copy} (c : Call) (hc : Clears s c) (h : Holds s c.block last) :
    Holds (s.run c) c.block ((demoted s c).or last) := by
  cases c with
  | demoteToHost b k v => exact demoteToHost_holds k v h hc
  | demoteToNvme b => exact demoteToNvme_holds h
  | demoteCompressed b blob => exact demoteCompressed_holds blob h hc
  | demoteCompressedToNvme b => exact demoteCompressedToNvme_holds h
  | demotePacked b format bs => exact demotePacked_holds format bs h
  | demotePackedToNvme b => exact demotePackedToNvme_holds h
  | retrieve b => exact retrieve_holds h
  | retrieveCompressed b => exact retrieveCompressed_holds h

theorem RawAt.not_noRaw {k v : List UInt32} (h : RawAt s b k v) : ¬ NoRaw s b := by
  rintro ⟨h1, h2⟩
  rcases h with ⟨-, h⟩ | ⟨-, -, h, -⟩
  · simp [h1] at h
  · simp [h2] at h

theorem CompressedAt.not_noCompressed {blob : List UInt8} (h : CompressedAt s b blob) :
    ¬ NoCompressed s b := by
  rintro ⟨h1, h2⟩
  rcases h with ⟨-, h⟩ | ⟨-, -, h, -⟩
  · simp [h1] at h
  · simp [h2] at h

theorem PackedAt.not_noPacked {format : UInt16} {bs : List UInt8} (h : PackedAt s b format bs) :
    ¬ NoPacked s b := by
  rintro ⟨h1, h2⟩
  rcases h with ⟨-, h⟩ | ⟨-, -, h⟩
  · simp [h1] at h
  · simp [h2] at h

theorem promote_of_noCompressed (h : NoCompressed s b) :
    (s.promote b).2 = (s.retrieve b).2.map (·.map fun p => .raw p.1 p.2) := by
  simp only [promote, retrieveCompressed_noCompressed h]
  rcases s.retrieve b with ⟨s', e | _ | ⟨k, v⟩⟩ <;> rfl

theorem promote_of_none (hc : NoCompressed s b) (hr : NoRaw s b) (p : Promotion) :
    (s.promote b).2 ≠ .ok (some p) := by
  rw [promote_of_noCompressed hc]
  have := (retrieve_noRaw hr).2
  rcases h : (s.retrieve b).2 with e | _ | ⟨k, v⟩
  · simp [Except.map]
  · simp [Except.map]
  · exact absurd h (this (k, v))

structure History where
  spill : LocalSpillManager
  last : ℕ → Option Copy

namespace History

def new (blockElems : ℕ) : History := ⟨.new blockElems, fun _ => none⟩

def step (h : History) (c : Call) : Option History :=
  some ⟨h.spill.run c, update h.last c.block ((demoted h.spill c).or (h.last c.block))⟩

/-- Every demotion of the run clears all other kinds of copies, or finds none. -/
def ClearsOthers (h : History) (c : Call) : Prop := Clears h.spill c

instance (h : History) (c : Call) : Decidable (ClearsOthers h c) := by
  unfold ClearsOthers; infer_instance

/-- Each block has copies of one kind, that of its last demotion, and a promotion returns that
demotion's bytes or none. -/
def LastWins (h : History) : Prop :=
  ∀ b, (¬ NoRaw h.spill b ↔ ∃ k v, h.last b = some (.raw k v))
    ∧ (¬ NoCompressed h.spill b ↔ ∃ blob, h.last b = some (.compressed blob))
    ∧ (¬ NoPacked h.spill b ↔ ∃ format bs, h.last b = some (.packed format bs))
    ∧ (∀ k v, h.last b = some (.raw k v) →
        (h.spill.promote b).2 = .ok (some (.raw k v)))
    ∧ (∀ blob, h.last b = some (.compressed blob) →
        (h.spill.promote b).2 = .ok (some (.compressed blob)))
    ∧ ∀ p, (h.spill.promote b).2 = .ok (some p) →
        h.last b = some (match p with | .raw k v => .raw k v | .compressed blob => .compressed blob)

def Inv (h : History) : Prop :=
  ∀ b, OwnPaths h.spill b ∧ Holds h.spill b (h.last b)

theorem inv_new (blockElems : ℕ) : Inv (new blockElems) := by
  intro b
  refine ⟨⟨?_, ?_, ?_⟩, rfl, ⟨rfl, rfl⟩, ⟨rfl, rfl⟩, ⟨rfl, rfl⟩⟩ <;>
    · intro p hp
      simp [new, LocalSpillManager.new] at hp

theorem Inv.step {h h' : History} {c : Call} (hi : Inv h) (hc : ClearsOthers h c)
    (hs : h.step c = some h') : Inv h' := by
  obtain rfl := Option.some.inj hs
  have hp : ∀ b, OwnPaths h.spill b := fun b => (hi b).1
  intro b
  refine ⟨run_ownPaths hp c b, ?_⟩
  by_cases hb : b = c.block
  · subst hb
    simpa using run_holds c hc (hi c.block).2
  · simpa [update_of_ne hb] using (run_same hp c hb).holds (hi b).2

theorem Inv.lastWins {h : History} (hi : Inv h) : h.LastWins := by
  intro b
  have hb := (hi b).2
  rcases hlast : h.last b with _ | ⟨k, v⟩ | ⟨blob⟩ | ⟨format, bs⟩ <;> rw [hlast] at hb
  · obtain ⟨-, hnr, hnc, hnp⟩ := hb
    refine ⟨by simp [hnr], by simp [hnc], by simp [hnp], by simp, by simp, fun p hp => ?_⟩
    exact absurd hp (promote_of_none hnc hnr p)
  · obtain ⟨hnc, hnp, hk, hv, hraw⟩ := hb
    have hprom : (h.spill.promote b).2 = .ok (some (.raw k v)) := by
      rw [promote_of_noCompressed hnc, (retrieve_rawAt hk hv hraw).1]
      rfl
    refine ⟨by simp [hraw.not_noRaw], by simp [hnc], by simp [hnp], ?_, by simp, fun p hp => ?_⟩
    · rintro k' v' ⟨⟩
      exact hprom
    · obtain rfl : Promotion.raw k v = p := by simpa [hprom] using hp
      rfl
  · obtain ⟨hnr, hnp, hne, hcomp⟩ := hb
    have hprom : (h.spill.promote b).2 = .ok (some (.compressed blob)) := by
      have := (retrieveCompressed_compressedAt hne hcomp).1
      simp only [promote]
      rcases hr : h.spill.retrieveCompressed b with ⟨s', r⟩
      rw [hr] at this
      obtain rfl : r = .ok (some blob) := this
      rfl
    refine ⟨by simp [hnr], by simp [hcomp.not_noCompressed], by simp [hnp], by simp, ?_,
      fun p hp => ?_⟩
    · rintro blob' ⟨⟩
      exact hprom
    · obtain rfl : Promotion.compressed blob = p := by simpa [hprom] using hp
      rfl
  · obtain ⟨hnr, hnc, hpack⟩ := hb
    refine ⟨by simp [hnr], by simp [hnc], by simp [hpack.not_noPacked], by simp, by simp,
      fun p hp => ?_⟩
    exact absurd hp (promote_of_none hnc hnr p)

/-- Where every demotion clears the other kinds of copies or finds none, the last one wins. -/
theorem last_demotion_wins (blockElems : ℕ) (h : History)
    (hr : Steps.Reach step ClearsOthers (new blockElems) h) : h.LastWins :=
  (hr.invariant (inv_new blockElems) fun _ _ _ hi hc hs => hi.step hc hs).lastWins

/-- Raw, to NVMe, read back, then compressed over it. -/
theorem last_demotion_wins_switch : ∃ h, Steps.Reach step ClearsOthers (new 1) h
    ∧ h.last 7 = some (.compressed [9]) ∧ h.LastWins := by
  obtain ⟨h, hrun⟩ : ∃ h, Steps.exec step ClearsOthers (new 1)
      [.demoteToHost 7 [1] [2], .demoteToNvme 7, .retrieve 7, .demoteCompressed 7 [9]] = some h :=
    ⟨_, rfl⟩
  have hr := Steps.reach_of_exec hrun
  refine ⟨h, hr, ?_, last_demotion_wins 1 h hr⟩
  obtain rfl := Option.some.inj hrun
  rfl

/-- A raw demotion after a compressed one leaves the old blob to be promoted. -/
theorem raw_demotion_keeps_blob : ¬ ∀ (blockElems : ℕ) (h : History),
    Steps.Reach step (fun _ _ => True) (new blockElems) h → h.LastWins := by
  intro hall
  obtain ⟨h, hrun⟩ : ∃ h, Steps.exec step (fun _ _ => True) (new 1)
      [.demoteCompressed 7 [9], .demoteToHost 7 [1] [2]] = some h := ⟨_, rfl⟩
  have hwins := hall 1 h (Steps.reach_of_exec hrun) 7
  obtain rfl := Option.some.inj hrun
  have hraw := hwins.2.2.2.1 [1] [2] rfl
  exact absurd hraw (by decide)

end History

end LocalSpillManager

end Grim.KvTransport
