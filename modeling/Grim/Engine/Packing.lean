import Mathlib.Tactic

/-!
# Packing training samples

`packSamples` lays samples back to back and starts a new batch where the next sample would pass the
maximum; a batch gets its attention mask when it is closed.  The groups of samples a batch holds
are `packGroups`, and a batch is `none` where the mask would pass its cap.
-/

namespace Grim.Engine

open List

abbrev Sample := List UInt32 × List UInt32

namespace Sample

def seqLen (s : Sample) : ℕ := s.1.length + s.2.length

def total (samples : List Sample) : ℕ := (samples.map seqLen).sum

end Sample

open Sample

structure PackedBatch where
  concatenatedTokens : List UInt32
  seqlenOffsets : List ℕ
  attentionMask : List Bool
  sequenceLengths : List ℕ
deriving DecidableEq, Repr

namespace PackedBatch

def new : PackedBatch := ⟨[], [0], [], []⟩

/-- The `while` loop that moves `cur` to the sequence of `pos`. -/
def advance (offsets : List ℕ) (pos cur : ℕ) : ℕ :=
  if cur + 1 < offsets.length ∧ offsets.getD (cur + 1) 0 ≤ pos then advance offsets pos (cur + 1)
  else cur
termination_by offsets.length - cur

/-- `seq_of`, filled from left to right with one `cur`. -/
def seqOf (offsets : List ℕ) (t : ℕ) : ℕ × List ℕ :=
  (List.range t).foldl (fun (st : ℕ × List ℕ) pos =>
    let cur := advance offsets pos st.1
    (cur, st.2 ++ [cur])) (0, [])

/-- The two loops over the rows and the columns up to the diagonal. -/
def fillMask (t : ℕ) (seq : List ℕ) : List Bool :=
  (List.range t).foldl (fun mask i =>
    (List.range (i + 1)).foldl (fun mask j =>
      if seq[i]? = seq[j]? then mask.set (i * t + j) true else mask) mask)
    (List.replicate (t * t) false)

/-- `none` is the panic above the cap (or where `t * t` passes a `usize`). -/
def blockDiagonalCausalMask (b : PackedBatch) : Option (List Bool) :=
  let t := b.concatenatedTokens.length
  if t = 0 then some []
  else if 16 * 1024 * 1024 < t * t then none
  else some (fillMask t (seqOf b.seqlenOffsets t).2)

def push (b : PackedBatch) (s : Sample) : PackedBatch :=
  let tokens := b.concatenatedTokens ++ s.1 ++ s.2
  { b with
    concatenatedTokens := tokens
    seqlenOffsets := b.seqlenOffsets ++ [tokens.length]
    sequenceLengths := b.sequenceLengths ++ [s.seqLen] }

def sealed (b : PackedBatch) : Option PackedBatch :=
  b.blockDiagonalCausalMask.map fun mask => { b with attentionMask := mask }

def packSample (maxPackedLength : ℕ) (st : List PackedBatch × PackedBatch) (s : Sample) :
    Option (List PackedBatch × PackedBatch) :=
  if st.2.concatenatedTokens ≠ []
      ∧ maxPackedLength < st.2.concatenatedTokens.length + s.seqLen then
    st.2.sealed.map fun b => (st.1 ++ [b], new.push s)
  else some (st.1, st.2.push s)

def finish (st : List PackedBatch × PackedBatch) : Option (List PackedBatch) :=
  if st.2.concatenatedTokens ≠ [] then st.2.sealed.map fun b => st.1 ++ [b] else some st.1

end PackedBatch

open PackedBatch

/-- `PackedBatch::pack_samples`; `none` is a panic. -/
def packSamples (samples : List Sample) (maxPackedLength : ℕ) : Option (List PackedBatch) :=
  (samples.foldlM (packSample maxPackedLength) ([], new)).bind finish

/-- The samples of each batch, `current` those of the open one. -/
def packGroups (maxPackedLength : ℕ) : List Sample → List Sample → List (List Sample)
  | current, [] => if current = [] then [] else [current]
  | current, s :: samples =>
    if current ≠ [] ∧ maxPackedLength < total current + s.seqLen then
      current :: packGroups maxPackedLength [s] samples
    else packGroups maxPackedLength (current ++ [s]) samples

variable {maxLen t i j pos : ℕ} {s : Sample} {g current samples : List Sample}

@[simp] theorem total_append (g g' : List Sample) : total (g ++ g') = total g + total g' := by
  simp [total]

@[simp] theorem total_singleton (s : Sample) : total [s] = s.seqLen := by
  simp [total]

theorem total_take_le {k l : ℕ} (h : k ≤ l) : total (g.take k) ≤ total (g.take l) := by
  rw [← Nat.add_sub_cancel' h, take_add, total_append]
  exact Nat.le_add_right _ _

theorem total_pos (hne : g ≠ []) (hpos : ∀ s ∈ g, 0 < s.seqLen) : 0 < total g := by
  cases g with
  | nil => exact absurd rfl hne
  | cons s g =>
    have hs := hpos s (by simp)
    show 0 < s.seqLen + total g
    omega

theorem packGroups_flatten (maxLen : ℕ) : ∀ current samples : List Sample,
    (packGroups maxLen current samples).flatten = current ++ samples
  | current, [] => by
    unfold packGroups
    split_ifs with h <;> simp [h]
  | current, s :: samples => by
    unfold packGroups
    split_ifs
    · rw [flatten_cons, packGroups_flatten maxLen [s] samples]
      simp
    · rw [packGroups_flatten maxLen (current ++ [s]) samples]
      simp

def Fitting (maxLen : ℕ) (g : List Sample) : Prop :=
  g ≠ [] ∧ (total g ≤ maxLen ∨ ∃ s, g = [s])

theorem packGroups_fitting (maxLen : ℕ) : ∀ (samples : List Sample) {current : List Sample},
    (current = [] ∨ Fitting maxLen current) →
      ∀ g ∈ packGroups maxLen current samples, Fitting maxLen g
  | [], current, h, g, hg => by
    unfold packGroups at hg
    split_ifs at hg with hne
    · simp at hg
    · rw [mem_singleton.1 hg]
      exact h.resolve_left hne
  | s :: samples, current, h, g, hg => by
    unfold packGroups at hg
    split_ifs at hg with hfull
    · rcases mem_cons.1 hg with rfl | hg
      · exact h.resolve_left hfull.1
      · exact packGroups_fitting maxLen samples (.inr ⟨by simp, .inr ⟨s, rfl⟩⟩) g hg
    · refine packGroups_fitting maxLen samples (.inr ⟨by simp, ?_⟩) g hg
      rw [not_and_or, not_not, not_lt] at hfull
      rcases hfull with rfl | hle
      · exact .inr ⟨s, rfl⟩
      · left
        rw [total_append, total_singleton]
        exact hle

def batchOf (g : List Sample) : PackedBatch := g.foldl push new

theorem batchOf_concat : batchOf (g ++ [s]) = (batchOf g).push s := foldl_concat ..

theorem batchOf_tokens : ∀ g : List Sample,
    (batchOf g).concatenatedTokens = g.flatMap fun s => s.1 ++ s.2 := by
  intro g
  induction g using List.reverseRecOn with
  | nil => rfl
  | append_singleton g s ih =>
    rw [batchOf_concat, push, ih]
    simp

theorem batchOf_tokens_length (g : List Sample) :
    (batchOf g).concatenatedTokens.length = total g := by
  rw [batchOf_tokens, length_flatMap]
  simp only [length_append]
  rfl

theorem batchOf_lengths : ∀ g : List Sample, (batchOf g).sequenceLengths = g.map seqLen := by
  intro g
  induction g using List.reverseRecOn with
  | nil => rfl
  | append_singleton g s ih =>
    rw [batchOf_concat, push, ih]
    simp

theorem batchOf_offsets : ∀ g : List Sample, (batchOf g).seqlenOffsets
    = (List.range (g.length + 1)).map fun k => total (g.take k) := by
  intro g
  induction g using List.reverseRecOn with
  | nil => rfl
  | append_singleton g s ih =>
    have hlen := batchOf_tokens_length (g ++ [s])
    rw [batchOf_concat, push] at hlen ⊢
    dsimp only at hlen ⊢
    rw [hlen, ih, length_append, length_singleton,
      range_succ (n := g.length + 1), map_append]
    congr 1
    · refine map_congr_left fun k hk => ?_
      rw [take_append_of_le_length (by have := mem_range.1 hk; omega)]
    · rw [map_singleton, ← length_singleton (a := s), ← length_append,
        take_length]

/-- Position `pos` is in the segment `k` of the offsets. -/
structure InSegment (offsets : List ℕ) (k pos : ℕ) : Prop where
  lt : k < offsets.length
  le : offsets.getD k 0 ≤ pos
  next : k + 1 < offsets.length → pos < offsets.getD (k + 1) 0

theorem inSegment_advance (offsets : List ℕ) (pos cur : ℕ) (hlt : cur < offsets.length)
    (hle : offsets.getD cur 0 ≤ pos) : InSegment offsets (advance offsets pos cur) pos := by
  fun_induction advance offsets pos cur with
  | case1 cur h ih => exact ih h.1 h.2
  | case2 cur h => exact ⟨hlt, hle, fun hnext => by
      rw [not_and, not_le] at h
      exact h hnext⟩

theorem seqOf_spec {offsets : List ℕ} (hne : 0 < offsets.length) (hzero : offsets.getD 0 0 = 0)
    (t : ℕ) : (seqOf offsets t).1 < offsets.length ∧ offsets.getD (seqOf offsets t).1 0 ≤ t
      ∧ (seqOf offsets t).2.length = t
      ∧ ∀ pos < t, ∃ k, (seqOf offsets t).2[pos]? = some k ∧ InSegment offsets k pos := by
  induction t with
  | zero => exact ⟨hne, hzero.le, rfl, fun pos hpos => absurd hpos (Nat.not_lt_zero pos)⟩
  | succ t ih =>
    obtain ⟨hlt, hle, hlen, hsegs⟩ := ih
    have hseg := inSegment_advance offsets t _ hlt hle
    have hsucc : seqOf offsets (t + 1) = (advance offsets t (seqOf offsets t).1,
        (seqOf offsets t).2 ++ [advance offsets t (seqOf offsets t).1]) := by
      simp only [seqOf, range_succ, foldl_concat]
    rw [hsucc]
    refine ⟨hseg.lt, hseg.le.trans (Nat.le_succ t), by simp [hlen], fun pos hpos => ?_⟩
    rcases Nat.lt_succ_iff_lt_or_eq.1 hpos with hpos | rfl
    · obtain ⟨k, hk, hin⟩ := hsegs pos hpos
      exact ⟨k, by rw [getElem?_append_left (by omega), hk], hin⟩
    · refine ⟨_, ?_, hseg⟩
      rw [getElem?_append_right (by omega), hlen, Nat.sub_self]
      rfl

theorem foldl_marks {ι : Type} {step : List Bool → ι → List Bool} {Q : ι → ℕ → Prop}
    (hstep : ∀ mask x, (step mask x).length = mask.length ∧
      ∀ p, (step mask x)[p]? = some true ↔ mask[p]? = some true ∨ p < mask.length ∧ Q x p) :
    ∀ (xs : List ι) (mask : List Bool), (xs.foldl step mask).length = mask.length ∧
      ∀ p, (xs.foldl step mask)[p]? = some true
        ↔ mask[p]? = some true ∨ p < mask.length ∧ ∃ x ∈ xs, Q x p
  | [], mask => by simp
  | x :: xs, mask => by
    obtain ⟨hlen, hmark⟩ := hstep mask x
    obtain ⟨hlen', hmark'⟩ := foldl_marks hstep xs (step mask x)
    refine ⟨hlen'.trans hlen, fun p => ?_⟩
    rw [foldl_cons, hmark', hmark, hlen, exists_mem_cons_iff, or_assoc, ← and_or_left]

theorem set_marks (P : Prop) [Decidable P] (q : ℕ) (mask : List Bool) :
    (if P then mask.set q true else mask).length = mask.length ∧
      ∀ p, (if P then mask.set q true else mask)[p]? = some true
        ↔ mask[p]? = some true ∨ p < mask.length ∧ P ∧ q = p := by
  split_ifs with h
  · refine ⟨length_set, fun p => ?_⟩
    rw [getElem?_set]
    by_cases hq : q = p
    · subst hq
      by_cases hlt : q < mask.length <;> simp [h, hlt]
    · simp [hq]
  · simp [h]

theorem fillMask_marks (t : ℕ) (seq : List ℕ) : (fillMask t seq).length = t * t ∧
    ∀ p, (fillMask t seq)[p]? = some true
      ↔ p < t * t ∧ ∃ i < t, ∃ j ≤ i, seq[i]? = seq[j]? ∧ i * t + j = p := by
  have hinner := fun (i : ℕ) => foldl_marks
    (fun mask j => set_marks (seq[i]? = seq[j]?) (i * t + j) mask) (List.range (i + 1))
  obtain ⟨hlen, hmark⟩ := foldl_marks (fun mask i => hinner i mask) (List.range t)
    (List.replicate (t * t) false)
  refine ⟨hlen.trans length_replicate, fun p => (hmark p).trans ?_⟩
  simp only [getElem?_replicate, length_replicate, mem_range, Nat.lt_succ_iff]
  simp

theorem fillMask_at {seq : List ℕ} (hi : i < t) (hj : j < t) :
    (fillMask t seq)[i * t + j]? = some true ↔ j ≤ i ∧ seq[i]? = seq[j]? := by
  rw [(fillMask_marks t seq).2]
  constructor
  · rintro ⟨-, i', hi', j', hj', hseq, heq⟩
    have hcol : j' = j := by
      have hmod := congrArg (· % t) heq
      simpa [Nat.mul_comm, Nat.mod_eq_of_lt hj, Nat.mod_eq_of_lt (hj'.trans_lt hi')] using hmod
    subst hcol
    have hrow : i' = i := Nat.eq_of_mul_eq_mul_right (by omega) (Nat.add_right_cancel heq)
    subst hrow
    exact ⟨hj', hseq⟩
  · rintro ⟨hle, hseq⟩
    refine ⟨?_, i, hi, j, hle, hseq, rfl⟩
    calc i * t + j < i * t + t := Nat.add_lt_add_left hj _
      _ = (i + 1) * t := (Nat.succ_mul i t).symm
      _ ≤ t * t := Nat.mul_le_mul_right t hi

/-- Positions `i` and `j` of the batch lie in one sample of `g`. -/
def SameSample (g : List Sample) (i j : ℕ) : Prop :=
  ∃ pre s post, g = pre ++ s :: post ∧ (total pre ≤ i ∧ i < total pre + s.seqLen)
    ∧ total pre ≤ j ∧ j < total pre + s.seqLen

/-- Sample `k` of `g` holds the position `pos`. -/
def Holds (g : List Sample) (k pos : ℕ) : Prop :=
  k < g.length ∧ total (g.take k) ≤ pos ∧ pos < total (g.take (k + 1))

theorem Holds.unique {k l : ℕ} (h : Holds g k pos) (h' : Holds g l pos) : k = l := by
  by_contra hne
  rcases Nat.lt_or_gt_of_ne hne with hlt | hlt
  · have hle : total (g.take (k + 1)) ≤ total (g.take l) := total_take_le hlt
    exact absurd (h.2.2.trans_le (hle.trans h'.2.1)) (lt_irrefl _)
  · have hle : total (g.take (l + 1)) ≤ total (g.take k) := total_take_le hlt
    exact absurd (h'.2.2.trans_le (hle.trans h.2.1)) (lt_irrefl _)

theorem sameSample_iff : SameSample g i j ↔ ∃ k, Holds g k i ∧ Holds g k j := by
  constructor
  · rintro ⟨pre, s, post, rfl, ⟨hi, hi'⟩, hj, hj'⟩
    have htake : (pre ++ s :: post).take pre.length = pre := take_left
    have hnext : total ((pre ++ s :: post).take (pre.length + 1)) = total pre + s.seqLen := by
      rw [take_length_add_append]
      simp
    refine ⟨pre.length, ⟨by simp, ?_, ?_⟩, by simp, ?_, ?_⟩ <;> simp only [htake, hnext] <;>
      assumption
  · rintro ⟨k, ⟨hk, hi, hi'⟩, -, hj, hj'⟩
    have hnext : total (g.take (k + 1)) = total (g.take k) + (g[k]).seqLen := by
      rw [take_add_one, getElem?_eq_getElem hk, Option.toList_some, total_append,
        total_singleton]
    refine ⟨g.take k, g[k], g.drop (k + 1), ?_, ⟨hi, hnext ▸ hi'⟩, hj, hnext ▸ hj'⟩
    rw [cons_getElem_drop_succ, take_append_drop]

theorem holds_of_inSegment {k : ℕ} (hpos : pos < total g)
    (h : InSegment (batchOf g).seqlenOffsets k pos) : Holds g k pos := by
  obtain ⟨hlt, hle, hnext⟩ := h
  have hget : ∀ l < g.length + 1, (batchOf g).seqlenOffsets.getD l 0 = total (g.take l) := by
    intro l hl
    rw [batchOf_offsets, getD_eq_getElem?_getD, getElem?_map, getElem?_range hl]
    rfl
  have hlen : (batchOf g).seqlenOffsets.length = g.length + 1 := by
    rw [batchOf_offsets, length_map, length_range]
  rw [hlen] at hlt hnext
  rw [hget k hlt] at hle
  have hk : k < g.length := by
    by_contra hge
    rw [show k = g.length by omega, take_length] at hle
    omega
  have hnext := hnext (by omega)
  rw [hget (k + 1) (by omega)] at hnext
  exact ⟨hk, hle, hnext⟩

structure Packs (g : List Sample) (b : PackedBatch) : Prop where
  tokens : b.concatenatedTokens = g.flatMap fun s => s.1 ++ s.2
  lengths : b.sequenceLengths = g.map seqLen
  offsets : b.seqlenOffsets = (List.range (g.length + 1)).map fun k => total (g.take k)
  size : b.attentionMask.length = total g * total g
  mask : ∀ i j, i < total g → j < total g →
    (b.attentionMask[i * total g + j]? = some true ↔ j ≤ i ∧ SameSample g i j)

theorem sealed_batchOf (hne : 0 < total g) :
    (4096 < total g ∧ (batchOf g).sealed = none) ∨
      (total g ≤ 4096 ∧ ∃ b, (batchOf g).sealed = some b ∧ Packs g b) := by
  have hlen := batchOf_tokens_length g
  unfold sealed blockDiagonalCausalMask
  simp only [hlen, if_neg hne.ne']
  by_cases hcap : 4096 < total g
  · left
    refine ⟨hcap, ?_⟩
    rw [if_pos (by nlinarith)]
    rfl
  · right
    refine ⟨not_lt.1 hcap, _, by rw [if_neg (by nlinarith)]; rfl, ?_⟩
    have hzero : (batchOf g).seqlenOffsets.getD 0 0 = 0 := by
      rw [batchOf_offsets, range_succ_eq_map]
      rfl
    obtain ⟨-, -, hseqs, hspec⟩ := seqOf_spec (by rw [batchOf_offsets]; simp) hzero (total g)
    refine ⟨batchOf_tokens g, batchOf_lengths g, batchOf_offsets g, (fillMask_marks _ _).1,
      fun i j hi hj => ?_⟩
    show (fillMask (total g) _)[i * total g + j]? = some true ↔ _
    obtain ⟨k, hk, hin⟩ := hspec i hi
    obtain ⟨l, hl, hjn⟩ := hspec j hj
    rw [fillMask_at hi hj, hk, hl, sameSample_iff, Option.some_inj]
    have hik := holds_of_inSegment hi hin
    have hjl := holds_of_inSegment hj hjn
    refine and_congr_right fun _ => ⟨?_, ?_⟩
    · rintro rfl
      exact ⟨k, hik, hjl⟩
    · rintro ⟨m, him, hjm⟩
      exact (hik.unique him).trans (hjm.unique hjl)

theorem batchOf_tokens_ne (hpos : ∀ s ∈ g, 0 < s.seqLen) :
    (batchOf g).concatenatedTokens ≠ [] ↔ g ≠ [] := by
  refine not_congr ⟨fun h => ?_, fun h => h ▸ rfl⟩
  by_contra hne
  have hlt := total_pos hne hpos
  rw [← batchOf_tokens_length, h] at hlt
  exact absurd hlt (lt_irrefl 0)

theorem packSamples_loop (maxLen : ℕ) : ∀ (samples : List Sample) (batches : List PackedBatch)
    {current : List Sample}, (∀ s ∈ current, 0 < s.seqLen) → (∀ s ∈ samples, 0 < s.seqLen) →
      (samples.foldlM (packSample maxLen) (batches, batchOf current)).bind finish
        = ((packGroups maxLen current samples).mapM fun g => (batchOf g).sealed).map (batches ++ ·)
  | [], batches, current, hcur, _ => by
    simp only [foldlM_nil, Option.pure_def, Option.bind_some, finish, packGroups,
      batchOf_tokens_ne hcur]
    by_cases hne : current = []
    · simp [hne]
    · rw [if_pos hne, if_neg hne]
      cases hs : (batchOf current).sealed <;> simp [hs]
  | s :: samples, batches, current, hcur, hpos => by
    obtain ⟨hs, hpos⟩ := forall_mem_cons.1 hpos
    have hone : new.push s = batchOf [s] := rfl
    simp only [foldlM_cons, packSample, packGroups, batchOf_tokens_ne hcur,
      batchOf_tokens_length, ← batchOf_concat, hone]
    split_ifs with hfull
    · cases hsealed : (batchOf current).sealed with
      | none => simp [hsealed]
      | some b =>
        have ih := packSamples_loop maxLen samples (batches ++ [b])
          (forall_mem_singleton.2 hs) hpos
        simp only [Option.map_some, Option.bind_eq_bind, Option.bind_some, mapM_cons, hsealed,
          ih]
        cases (packGroups maxLen [s] samples).mapM fun g => (batchOf g).sealed <;> simp
    · have hcur' : ∀ x ∈ current ++ [s], 0 < x.seqLen :=
        forall_mem_append.2 ⟨hcur, forall_mem_singleton.2 hs⟩
      exact packSamples_loop maxLen samples batches hcur' hpos

theorem mapM_sealed : ∀ {groups : List (List Sample)}, (∀ g ∈ groups, 0 < total g) →
    ((∃ g ∈ groups, 4096 < total g) ∧ groups.mapM (fun g => (batchOf g).sealed) = none) ∨
      ((∀ g ∈ groups, total g ≤ 4096) ∧ ∃ batches,
        groups.mapM (fun g => (batchOf g).sealed) = some batches ∧
          List.Forall₂ Packs groups batches)
  | [], _ => .inr ⟨by simp, [], rfl, .nil⟩
  | g :: groups, hpos => by
    obtain ⟨hg, hpos⟩ := forall_mem_cons.1 hpos
    rw [mapM_cons]
    rcases sealed_batchOf hg with ⟨hcap, hnone⟩ | ⟨hle, b, hb, hpacks⟩
    · exact .inl ⟨⟨g, mem_cons_self, hcap⟩, by rw [hnone]; rfl⟩
    · rw [hb]
      rcases mapM_sealed hpos with ⟨⟨g', hg', hcap⟩, hnone⟩ | ⟨hall, batches, hsome, hall₂⟩
      · exact .inl ⟨⟨g', mem_cons_of_mem _ hg', hcap⟩, by rw [hnone]; rfl⟩
      · exact .inr ⟨forall_mem_cons.2 ⟨hle, hall⟩, b :: batches, by rw [hsome]; rfl,
          .cons hpacks hall₂⟩

/-- The samples divide in order into groups within the maximum or of one sample; `packSamples`
gives each group's batch with its mask, if no group passes the cap. -/
theorem packSamples_spec (samples : List Sample) (maxPackedLength : ℕ)
    (hpos : ∀ s ∈ samples, 0 < s.seqLen) :
    (packGroups maxPackedLength [] samples).flatten = samples
      ∧ (∀ g ∈ packGroups maxPackedLength [] samples,
          g ≠ [] ∧ (total g ≤ maxPackedLength ∨ ∃ s, g = [s]))
      ∧ (((∃ g ∈ packGroups maxPackedLength [] samples, 4096 < total g)
            ∧ packSamples samples maxPackedLength = none)
          ∨ ((∀ g ∈ packGroups maxPackedLength [] samples, total g ≤ 4096)
            ∧ ∃ batches, packSamples samples maxPackedLength = some batches
              ∧ List.Forall₂ Packs (packGroups maxPackedLength [] samples) batches)) := by
  have hflat := packGroups_flatten maxPackedLength [] samples
  have hfit := packGroups_fitting maxPackedLength samples (.inl rfl)
  have hgroups : ∀ g ∈ packGroups maxPackedLength [] samples, 0 < total g := by
    intro g hg
    refine total_pos (hfit g hg).1 fun s hs => hpos s ?_
    rw [nil_append] at hflat
    rw [← hflat]
    exact mem_flatten.2 ⟨g, hg, hs⟩
  have hloop : packSamples samples maxPackedLength
      = (packGroups maxPackedLength [] samples).mapM fun g => (batchOf g).sealed := by
    have hnil : ∀ s ∈ ([] : List Sample), 0 < s.seqLen := by simp
    have hloop := packSamples_loop maxPackedLength samples [] hnil hpos
    rw [show batchOf [] = new from rfl] at hloop
    rw [packSamples, hloop]
    simp only [nil_append, Option.map_id_fun']
    rfl
  refine ⟨hflat, hfit, ?_⟩
  rw [hloop]
  exact mapM_sealed hgroups

theorem packSamples_spec_two : ∃ batches,
    packSamples [([1, 2], [3]), ([4], [5]), ([6], [7])] 5 = some batches
      ∧ Forall₂ Packs [[([1, 2], [3]), ([4], [5])], [([6], [7])]] batches := by
  obtain ⟨-, -, hbatches⟩ := packSamples_spec [([1, 2], [3]), ([4], [5]), ([6], [7])] 5 (by decide)
  rcases hbatches with ⟨hcap, -⟩ | ⟨-, hbatches⟩
  · exact absurd hcap (by decide)
  · exact hbatches

theorem packSamples_of_capped (hcap : 4096 < s.seqLen) : packSamples [s] maxLen = none := by
  have hlong : 4096 < total [s] := by rwa [total_singleton]
  have hpos : ∀ x ∈ [s], 0 < x.seqLen := forall_mem_singleton.2 (hcap.trans' (by norm_num))
  have hloop := packSamples_loop maxLen [s] [] (forall_mem_nil _) hpos
  have hsealed := (sealed_batchOf (hlong.trans' (by norm_num))).resolve_right
    fun h => absurd hlong (not_lt.2 h.1)
  have hgroups : packGroups maxLen [] [s] = [[s]] := by simp [packGroups]
  rw [hgroups, mapM_cons, hsealed.2] at hloop
  exact hloop

theorem packSamples_capped :
    ¬ ∃ batches, packSamples [(List.replicate 4097 0, [])] 8192 = some batches := by
  have hcap : 4096 < Sample.seqLen (List.replicate 4097 0, []) := by
    rw [seqLen, length_replicate]
    norm_num
  rintro ⟨batches, hsome⟩
  rw [packSamples_of_capped hcap] at hsome
  exact absurd hsome (by simp)

end Grim.Engine
