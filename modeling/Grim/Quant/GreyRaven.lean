import Grim.KvQuant.BitIo
import Grim.Lib.Ranking
import Grim.Lib.Slice
import Grim.Lib.Sweep
import Grim.Quant.Fp8

/-!
# Two of four

`sparsify_2_4_flat` keeps two of each four values and notes in three bits which.  The slots of a
group are ranked by exchanges: a slot goes before another when its magnitude is greater, or equal
and its index lower.  A NaN is neither greater nor equal, so it stays where it is.

An `f32` is its bits; `none` is a panic.
-/

namespace Grim.Quant

open FloatFormat BitStream Slice KvQuant Ranking Sweep List

def groupSize : ℕ := 4

def groupSurvivors : ℕ := 2

def metadataBitsPerGroup : ℕ := 3

structure Sparsified where
  values : List UInt32
  metadata : List UInt8
deriving DecidableEq, Repr

def Sparsified.numGroups (s : Sparsified) : ℕ := s.values.length / groupSurvivors

/-- All six (4 choose 2) survivor patterns, in ascending slot order. -/
def slotPairs : List (ℕ × ℕ) := [(0, 1), (0, 2), (0, 3), (1, 2), (1, 3), (2, 3)]

def pairCode (a b : ℕ) : Option ℕ :=
  let p := if a < b then (a, b) else (b, a)
  slotPairs.findIdx? (· = p)

def codeToPair (code : ℕ) : Option (ℕ × ℕ) := slotPairs[code]?

def readCode (metadata : List UInt8) (g : ℕ) : ℕ :=
  (List.range metadataBitsPerGroup).foldl
    (fun code k =>
      if lowBitAt metadata (g * metadataBitsPerGroup + k) then code ||| 1 <<< k else code) 0

def writeCode (metadata : List UInt8) (g code : ℕ) : List UInt8 :=
  (List.range metadataBitsPerGroup).foldl
    (fun metadata k =>
      let bit := g * metadataBitsPerGroup + k
      if code.testBit k then orAt metadata (bit / 8) (1 <<< UInt8.ofNat (bit % 8)) else metadata)
    metadata

/-- Slot `b` is strictly larger than slot `a`, or equal and earlier. -/
def larger (group : List UInt32) (b a : ℕ) : Bool :=
  let ma := f32Abs (group.getD a 0)
  let mb := f32Abs (group.getD b 0)
  f32Lt ma mb || (f32Eq mb ma && b < a)

/-- The inner loop: `a` stands at `i`, and changes places with each slot behind it that is
larger. -/
def exchange (larger : ℕ → ℕ → Bool) : ℕ → List ℕ → ℕ × List ℕ
  | a, [] => (a, [])
  | a, b :: rest =>
    if larger b a then ((exchange larger b rest).1, a :: (exchange larger b rest).2)
    else ((exchange larger a rest).1, b :: (exchange larger a rest).2)

/-- `n` turns of the outer loop. -/
def exchanges (larger : ℕ → ℕ → Bool) : ℕ → List ℕ → List ℕ
  | n + 1, a :: rest => (exchange larger a rest).1 :: exchanges larger n (exchange larger a rest).2
  | _, order => order

def survivors (group : List UInt32) : ℕ × ℕ :=
  let order := exchanges (larger group) groupSize (List.range groupSize)
  let first := order.getD 0 0
  let second := order.getD 1 0
  if first < second then (first, second) else (second, first)

def groupAt (values : List UInt32) (g : ℕ) : List UInt32 := slice values (g * groupSize) groupSize

def sparsifyGroup (values : List UInt32) (out : Sparsified) (g : ℕ) : Option Sparsified := do
  let group := groupAt values g
  let (a, b) := survivors group
  let code ← pairCode a b
  pure
    { values := out.values ++ [group.getD a 0, group.getD b 0]
      metadata := writeCode out.metadata g code }

def metadataLength (groups : ℕ) : ℕ := (groups * metadataBitsPerGroup + 7) / 8

def sparsify24Flat (values : List UInt32) : Option (Except String Sparsified) :=
  if values.length % groupSize ≠ 0 then some (.error "length must be a multiple of 4 for 2:4")
  else
    let groups := values.length / groupSize
    let out := ⟨[], List.replicate (metadataLength groups) 0⟩
    ((List.range groups).foldlM (sparsifyGroup values) out).map .ok

/-- `out[base + a] = v; out[base + b] = w` -/
def place (out : List UInt32) (g : ℕ) (pair : ℕ × ℕ) (v w : UInt32) : List UInt32 :=
  (out.set (g * groupSize + pair.1) v).set (g * groupSize + pair.2) w

def densifyFlat (s : Sparsified) : Option (List UInt32) :=
  (List.range s.numGroups).foldlM
    (fun out g => do
      let pair ← codeToPair (readCode s.metadata g)
      pure (place out g pair (s.values.getD (g * groupSurvivors) 0)
        (s.values.getD (g * groupSurvivors + 1) 0)))
    (List.replicate (s.numGroups * groupSize) 0)

def packGreyRaven (s : Sparsified) : List UInt8 := s.values.map f32ToFp8E4m3 ++ s.metadata

def dequantGreyRaven (data : List UInt8) (numValues : ℕ) : Except String (List UInt32) :=
  if numValues % groupSize ≠ 0 then .error "num_values must be a multiple of 4 for 2:4"
  else
    let groups := numValues / groupSize
    let survivorBytes := groups * groupSurvivors
    if data.length ≠ survivorBytes + metadataLength groups then
      .error "buffer length does not match the 2:4 layout for num_values"
    else
      let survivors := data.take survivorBytes
      let metadata := data.drop survivorBytes
      (List.range groups).foldlM
        (fun out g =>
          match codeToPair (readCode metadata g) with
          | none => .error "metadata code does not name a valid slot pair"
          | some pair => .ok (place out g pair
              (fp8E4m3ToF32 (survivors.getD (g * groupSurvivors) 0))
              (fp8E4m3ToF32 (survivors.getD (g * groupSurvivors + 1) 0))))
        (List.replicate numValues 0)

/-- A NaN is below every number, and the numbers are in the order of their magnitudes. -/
def rank (v : UInt32) : ℕ := if f32IsNan v then 0 else (f32Abs v).toNat + 1

def slotRank (group : List UInt32) (i : ℕ) : ℕ := rank (group.getD i 0)

/-- The two slots of the largest magnitudes, of equal ones the lower. -/
def largestTwo (group : List UInt32) : List ℕ :=
  (ranking (slotRank group) groupSize).take groupSurvivors

section Selection

variable {group : List UInt32} {a b : ℕ} {x y : UInt32}

theorem compare_of_nan (h : f32IsNan x = true ∨ f32IsNan y = true) :
    (f32Unpacked (f32Abs x)).compare (f32Unpacked (f32Abs y)) = none := by
  have hnan : ∀ {z}, f32IsNan z = true → f32Unpacked (f32Abs z) = .notANumber := fun {z} hz => by
    refine unpack_isNaN ?_
    rw [magnitude_f32Abs]
    exact f32IsNan_iff.1 hz
  rcases h with h | h
  · rw [hnan h]
    rfl
  · rw [hnan h]
    cases f32Unpacked (f32Abs x) <;> rfl

theorem f32Lt_abs (hx : f32IsNan x = false) (hy : f32IsNan y = false) :
    f32Lt (f32Abs x) (f32Abs y) = true ↔ (f32Abs x).toNat < (f32Abs y).toNat := by
  rw [f32Lt, Float.Model.UnpackedFloat.lt, f32Abs_compare hx hy]
  simp [compare_lt_iff_lt]

theorem f32Eq_abs (hx : f32IsNan x = false) (hy : f32IsNan y = false) :
    f32Eq (f32Abs x) (f32Abs y) = true ↔ (f32Abs x).toNat = (f32Abs y).toNat := by
  rw [f32Eq, Float.Model.UnpackedFloat.beq, f32Abs_compare hx hy]
  simp

theorem larger_of_nan (h : f32IsNan (group.getD a 0) = true ∨ f32IsNan (group.getD b 0) = true) :
    larger group b a = false := by
  rw [larger, f32Lt, f32Eq, Float.Model.UnpackedFloat.lt, Float.Model.UnpackedFloat.beq,
    compare_of_nan h, compare_of_nan h.symm]
  rfl

theorem larger_iff (ha : f32IsNan (group.getD a 0) = false) :
    larger group b a = true ↔ Ahead (slotRank group) b a := by
  rcases hb : f32IsNan (group.getD b 0) with _ | _
  · rw [larger, Bool.or_eq_true, Bool.and_eq_true, f32Lt_abs ha hb, f32Eq_abs hb ha, Ahead,
      slotRank,
      slotRank, rank, rank, ha, hb]
    simp
  · rw [larger_of_nan (.inr hb), Ahead, slotRank, slotRank, rank, rank, ha, hb]
    simp

theorem exchange_perm (larger : ℕ → ℕ → Bool) : ∀ (a : ℕ) (rest : List ℕ),
    ((exchange larger a rest).1 :: (exchange larger a rest).2).Perm (a :: rest)
  | _, [] => .refl _
  | a, b :: rest => by
    rw [exchange]
    split_ifs with h
    · exact (List.Perm.swap ..).trans ((exchange_perm larger b rest).cons a)
    · exact (List.Perm.swap ..).trans
        (((exchange_perm larger a rest).cons b).trans (List.Perm.swap ..))

theorem exchange_ahead (group : List UInt32) : ∀ {a : ℕ} {rest : List ℕ}, (a :: rest).Nodup →
    f32IsNan (group.getD a 0) = false →
      ∀ k ∈ (exchange (larger group) a rest).2,
        Ahead (slotRank group) (exchange (larger group) a rest).1 k
  | _, [], _, _ => fun k hk => by cases hk
  | a, b :: rest, hnodup, ha => by
    obtain ⟨hab, hrest⟩ := nodup_cons.1 hnodup
    rw [exchange]
    split_ifs with h
    · have hahead := (larger_iff ha).1 h
      have hb : f32IsNan (group.getD b 0) = false := by
        by_contra hnan
        rw [larger_of_nan (.inr (by simpa using hnan))] at h
        exact absurd h (by simp)
      refine forall_mem_cons.2 ⟨?_, exchange_ahead group hrest hb⟩
      -- the slot now in front is `b`, or it went before `b`
      rcases mem_cons.1 ((exchange_perm (larger group) b rest).mem_iff.2
        mem_cons_self) with heq | hmem
      · exact heq ▸ hahead
      · exact (exchange_ahead group hrest hb b hmem).trans hahead
    · have hbehind : Ahead (slotRank group) a b := by
        have hne : a ≠ b := fun heq => hab (heq ▸ mem_cons_self)
        exact (ahead_or_ahead _ hne).resolve_right fun hba => h ((larger_iff ha).2 hba)
      have hnodup' : (a :: rest).Nodup := by
        rw [nodup_cons] at hrest ⊢
        exact ⟨fun hmem => hab (mem_cons_of_mem _ hmem), hrest.2⟩
      refine forall_mem_cons.2 ⟨?_, exchange_ahead group hnodup' ha⟩
      rcases mem_cons.1 ((exchange_perm (larger group) a rest).mem_iff.2
        mem_cons_self) with heq | hmem
      · exact heq ▸ hbehind
      · exact (exchange_ahead group hnodup' ha a hmem).trans hbehind

theorem exchange_of_nan (h : f32IsNan (group.getD a 0) = true) :
    ∀ rest : List ℕ, exchange (larger group) a rest = (a, rest)
  | [] => rfl
  | b :: rest => by
    rw [exchange, larger_of_nan (.inl h), if_neg (by simp), exchange_of_nan h rest]

end Selection

section Groups

variable {group : List UInt32}

/-- The slots at `0` and `1` in the end. -/
def leaders (group : List UInt32) : ℕ × ℕ :=
  let first := exchange (larger group) 0 [1, 2, 3]
  (first.1, (exchange (larger group) (first.2.headD 0) first.2.tail).1)

theorem passes (group : List UInt32) : ∃ a h t c rest,
    exchange (larger group) 0 [1, 2, 3] = (a, h :: t) ∧
      exchange (larger group) h t = (c, rest) ∧ leaders group = (a, c) ∧
        (a :: h :: t).Perm [0, 1, 2, 3] ∧ (c :: rest).Perm (h :: t) := by
  rcases hfirst : exchange (larger group) 0 [1, 2, 3] with ⟨a, rest⟩
  have hperm := exchange_perm (larger group) 0 [1, 2, 3]
  rw [hfirst] at hperm
  obtain ⟨h, t, rfl⟩ : ∃ h t, rest = h :: t := by
    rcases rest with _ | ⟨h, t⟩
    · exact absurd hperm.length_eq (by simp)
    · exact ⟨h, t, rfl⟩
  rcases hsecond : exchange (larger group) h t with ⟨c, rest'⟩
  have hperm' := exchange_perm (larger group) h t
  rw [hsecond] at hperm'
  refine ⟨a, h, t, c, rest', rfl, hsecond, ?_, hperm, hperm'⟩
  rw [leaders, hfirst]
  exact congrArg (fun r => (a, Prod.fst r)) hsecond

theorem survivors_eq (group : List UInt32) : survivors group =
    if (leaders group).1 < (leaders group).2 then leaders group else (leaders group).swap := by
  obtain ⟨a, h, t, c, rest, hfirst, hsecond, hl, -, -⟩ := passes group
  have horder : exchanges (larger group) groupSize (List.range groupSize) =
      a :: c :: exchanges (larger group) 2 rest := by
    change exchanges (larger group) (2 + 1 + 1) (0 :: [1, 2, 3]) = _
    rw [exchanges, hfirst, exchanges, hsecond]
  rw [survivors, horder, hl]
  rfl

theorem leaders_ne (group : List UInt32) :
    (leaders group).1 < 4 ∧ (leaders group).2 < 4 ∧ (leaders group).1 ≠ (leaders group).2 := by
  obtain ⟨a, h, t, c, rest, -, -, hl, hperm, hperm'⟩ := passes group
  have hall := (hperm'.cons a).trans hperm
  have hlt : ∀ i ∈ a :: c :: rest, i < 4 := fun i hi => by
    have hi := hall.mem_iff.1 hi
    simp only [mem_cons, not_mem_nil, or_false] at hi
    omega
  have hnodup := hall.nodup_iff.2 (by decide)
  rw [hl]
  refine ⟨hlt a (by simp), hlt c (by simp), fun heq => ?_⟩
  exact (nodup_cons.1 hnodup).1 (mem_cons.2 (.inl heq))

theorem survivors_spec (group : List UInt32) :
    (survivors group).1 < (survivors group).2 ∧ (survivors group).2 < 4 ∧
      ∀ i, i = (survivors group).1 ∨ i = (survivors group).2 ↔
        i = (leaders group).1 ∨ i = (leaders group).2 := by
  obtain ⟨h1, h2, hne⟩ := leaders_ne group
  rw [survivors_eq]
  split_ifs with hlt
  · exact ⟨hlt, h2, fun i => Iff.rfl⟩
  · exact ⟨lt_of_le_of_ne (not_lt.1 hlt) hne.symm, h1, fun i => or_comm⟩

/-- Slots `0` and `1` are numbers, or slots `2` and `3` are NaNs. -/
def NansLast (group : List UInt32) : Prop :=
  (f32IsNan (group.getD 0 0) = false ∧ f32IsNan (group.getD 1 0) = false) ∨
    (f32IsNan (group.getD 2 0) = true ∧ f32IsNan (group.getD 3 0) = true)

instance : DecidablePred NansLast := fun _ => inferInstanceAs (Decidable (_ ∨ _))

theorem ahead_of_nan {i j : ℕ} (hi : f32IsNan (group.getD i 0) = false)
    (hj : f32IsNan (group.getD j 0) = true) : Ahead (slotRank group) i j := by
  refine .inl ?_
  rw [slotRank, slotRank, rank, rank, hi, hj]
  exact Nat.succ_pos _

theorem ahead_nan {i j : ℕ} (hlt : i < j) (hj : f32IsNan (group.getD j 0) = true) :
    Ahead (slotRank group) i j := by
  rcases hi : f32IsNan (group.getD i 0) with _ | _
  · exact ahead_of_nan hi hj
  · refine .inr ⟨?_, hlt⟩
    rw [slotRank, slotRank, rank, rank, hi, hj]
    rfl

theorem largestTwo_eq {i j : ℕ} (hi : i < 4) (hj : j < 4) (hij : Ahead (slotRank group) i j)
    (hrest : ∀ k < 4, k ≠ i → k ≠ j → Ahead (slotRank group) j k) : largestTwo group = [i, j] :=
  take_two_ranking hi hj hij hrest

theorem leaders_of_numbers (h0 : f32IsNan (group.getD 0 0) = false)
    (h1 : f32IsNan (group.getD 1 0) = false) :
    largestTwo group = [(leaders group).1, (leaders group).2] := by
  obtain ⟨a, h, t, c, rest, hfirst, hsecond, hl, hperm, hperm'⟩ := passes group
  have hbest := @exchange_ahead group 0 [1, 2, 3] (by decide) h0
  rw [hfirst] at hbest
  have hh : f32IsNan (group.getD h 0) = false := by
    rw [exchange] at hfirst
    split_ifs at hfirst
    · obtain ⟨-, htail⟩ := Prod.mk.inj hfirst
      rwa [← (List.cons.inj htail).1]
    · obtain ⟨-, htail⟩ := Prod.mk.inj hfirst
      rwa [← (List.cons.inj htail).1]
  have hnodup : (h :: t).Nodup := (nodup_cons.1 (hperm.nodup_iff.2 (by decide))).2
  have hnext := exchange_ahead group hnodup hh
  rw [hsecond] at hnext
  obtain ⟨hl1, hl2, -⟩ := leaders_ne group
  rw [hl] at hl1 hl2 ⊢
  refine largestTwo_eq hl1 hl2 (hbest c (hperm'.mem_iff.1 mem_cons_self)) fun k hk hka hkc => ?_
  have hmem : k ∈ a :: h :: t := hperm.mem_iff.2 (by simp; omega)
  have hmem' := hperm'.mem_iff.2 ((mem_cons.1 hmem).resolve_left hka)
  exact hnext k ((mem_cons.1 hmem').resolve_left hkc)

theorem leaders_of_nans (h2 : f32IsNan (group.getD 2 0) = true)
    (h3 : f32IsNan (group.getD 3 0) = true) :
    leaders group = (0, 1) ∨ leaders group = (1, 0) := by
  have hstay : ∀ a, exchange (larger group) a [2, 3] = (a, [2, 3]) := fun a => by
    simp [exchange, larger_of_nan (.inr h2), larger_of_nan (.inr h3)]
  rw [leaders, exchange]
  split_ifs
  · right
    rw [hstay]
    exact congrArg (fun r => (1, Prod.fst r)) (hstay 0)
  · left
    rw [hstay]
    exact congrArg (fun r => (0, Prod.fst r)) (hstay 1)

theorem mem_largestTwo_of_nans (h2 : f32IsNan (group.getD 2 0) = true)
    (h3 : f32IsNan (group.getD 3 0) = true) (i : ℕ) : i ∈ largestTwo group ↔ i = 0 ∨ i = 1 := by
  have hbehind : ∀ j < 2, ∀ k < 4, k ≠ 0 → k ≠ 1 → Ahead (slotRank group) j k :=
    fun j hj k hk h0 h1 => by
      refine ahead_nan (by omega) ?_
      obtain rfl | rfl : k = 2 ∨ k = 3 := by omega
      · exact h2
      · exact h3
  rcases ahead_or_ahead (slotRank group) (show 0 ≠ 1 by decide) with h | h
  · rw [largestTwo_eq (by decide) (by decide) h fun k hk h0 h1 => hbehind 1 (by decide) k hk h0 h1,
      mem_pair]
  · rw [largestTwo_eq (by decide) (by decide) h fun k hk h1 h0 => hbehind 0 (by decide) k hk h0 h1,
      mem_pair, or_comm]

theorem mem_largestTwo (h : NansLast group) (i : ℕ) :
    i ∈ largestTwo group ↔ i = (survivors group).1 ∨ i = (survivors group).2 := by
  rw [(survivors_spec group).2.2]
  rcases h with ⟨h0, h1⟩ | ⟨h2, h3⟩
  · rw [leaders_of_numbers h0 h1, mem_pair]
  · rw [mem_largestTwo_of_nans h2 h3]
    rcases leaders_of_nans h2 h3 with hl | hl
    · rw [hl]
    · rw [hl, or_comm]

theorem nan_survives (h : ¬ NansLast group) : ∃ i, (i = (survivors group).1 ∨
    i = (survivors group).2) ∧ f32IsNan (group.getD i 0) = true ∧ i ∉ largestTwo group := by
  rw [NansLast, not_or, not_and_or, not_and_or] at h
  obtain ⟨hfront, hback⟩ := h
  obtain ⟨k, hk, hk2, hnum⟩ : ∃ k < 4, 2 ≤ k ∧ f32IsNan (group.getD k 0) = false := by
    rcases hback with h | h
    · exact ⟨2, by decide, le_rfl, by simpa using h⟩
    · exact ⟨3, by decide, by decide, by simpa using h⟩
  have hspec := (survivors_spec group).2.2
  rcases h1 : f32IsNan (group.getD 1 0) with _ | _
  · have h0 : f32IsNan (group.getD 0 0) = true := by
      simpa using hfront.resolve_right (not_not.2 h1)
    refine ⟨0, (hspec 0).2 (.inl ?_), h0, ?_⟩
    · rw [leaders, exchange_of_nan h0]
    · exact not_mem_take_two (by decide) hk (by omega) (ahead_of_nan h1 h0) (ahead_of_nan hnum h0)
  · refine ⟨1, (hspec 1).2 (.inr ?_), h1, ?_⟩
    · rcases h0 : f32IsNan (group.getD 0 0) with _ | _
      · rw [leaders, exchange, larger_of_nan (.inr h1), if_neg (by simp)]
        exact congrArg Prod.fst (exchange_of_nan h1 _).symm
      · rw [leaders, exchange_of_nan h0]
        exact congrArg Prod.fst (exchange_of_nan h1 _).symm
    · exact not_mem_take_two (i := 0) (by decide) hk (by omega) (ahead_nan (by decide) h1)
        (ahead_of_nan hnum h1)

def block (pair : ℕ × ℕ) (v w : UInt32) : List UInt32 :=
  ((List.replicate groupSize 0).set pair.1 v).set pair.2 w

@[simp] theorem length_block (pair : ℕ × ℕ) (v w : UInt32) : (block pair v w).length = 4 := by
  simp [block, groupSize]

theorem getElem?_block {pair : ℕ × ℕ} {v w : UInt32} {i : ℕ} (hlt : pair.2 < 4) (hi : i < 4) :
    (block pair v w)[i]? =
      some (if i = pair.2 then w else if i = pair.1 then v else 0) := by
  rw [block, getElem?_set, getElem?_set, length_set, length_replicate,
    getElem?_replicate, groupSize]
  split_ifs <;> first | rfl | omega

def keptBlock (group : List UInt32) : List UInt32 :=
  (List.range groupSize).map fun i => if i ∈ largestTwo group then group.getD i 0 else 0

def survivingBlock (group : List UInt32) : List UInt32 :=
  block (survivors group) (group.getD (survivors group).1 0) (group.getD (survivors group).2 0)

theorem getElem?_keptBlock {i : ℕ} (hi : i < 4) : (keptBlock group)[i]? =
    some (if i ∈ largestTwo group then group.getD i 0 else 0) := by
  rw [keptBlock, getElem?_map, groupSize, getElem?_range hi, Option.map_some]

theorem getElem?_survivingBlock {i : ℕ} (hi : i < 4) : (survivingBlock group)[i]? =
    some (if i = (survivors group).1 ∨ i = (survivors group).2 then group.getD i 0 else 0) := by
  obtain ⟨-, hlt, -⟩ := survivors_spec group
  rw [survivingBlock, getElem?_block hlt hi]
  by_cases h2 : i = (survivors group).2
  · rw [if_pos h2, if_pos (.inr h2), h2]
  · by_cases h1 : i = (survivors group).1
    · rw [if_neg h2, if_pos h1, if_pos (.inl h1), h1]
    · rw [if_neg h2, if_neg h1, if_neg (not_or.2 ⟨h1, h2⟩)]

theorem survivingBlock_eq_iff : survivingBlock group = keptBlock group ↔ NansLast group := by
  constructor
  · intro heq
    by_contra hnot
    obtain ⟨i, hi, hnan, hout⟩ := nan_survives hnot
    obtain ⟨hlt, hlt', -⟩ := survivors_spec group
    have hslot := congrArg (·[i]?) heq
    simp only [getElem?_survivingBlock (show i < 4 by omega),
      getElem?_keptBlock (show i < 4 by omega), if_pos hi, if_neg hout] at hslot
    rw [Option.some.inj hslot] at hnan
    exact absurd hnan (by decide)
  · intro h
    refine ext_getElem? fun i => ?_
    rcases Nat.lt_or_ge i 4 with hi | hi
    · rw [getElem?_survivingBlock hi, getElem?_keptBlock hi]
      simp only [mem_largestTwo h]
    · rw [getElem?_eq_none (by simpa [survivingBlock] using hi),
        getElem?_eq_none (by simpa [keptBlock, groupSize] using hi)]

end Groups

section Codes

variable {m : List UInt8} {g g' j k code : ℕ}

theorem lowBitAt_setBit (hk : k < 8 * m.length) :
    lowBitAt (orAt m (k / 8) (1 <<< UInt8.ofNat (k % 8))) j = (lowBitAt m j || decide (j = k)) := by
  have hbit : ∀ r < 8, ∀ i < 8,
      ((1 : UInt8) <<< UInt8.ofNat r).toNat.testBit i = decide (i = r) := by decide
  rw [lowBitAt_orAt (by omega), hbit _ (Nat.mod_lt _ (by decide)) _ (Nat.mod_lt _ (by decide)),
    ← Bool.decide_and]
  congr 2
  rw [eq_iff_iff]
  omega

theorem lowBitAt_writeCode (hroom : g * 3 + 3 ≤ 8 * m.length) :
    lowBitAt (writeCode m g code) j = (lowBitAt m j || code.testBit 0 && decide (j = g * 3) ||
      code.testBit 1 && decide (j = g * 3 + 1) || code.testBit 2 && decide (j = g * 3 + 2)) := by
  have hif : ∀ {m : List UInt8} {c : Bool} {k : ℕ}, k < 8 * m.length →
      lowBitAt (if c then orAt m (k / 8) (1 <<< UInt8.ofNat (k % 8)) else m) j =
        (lowBitAt m j || c && decide (j = k)) := fun {m c k} hk => by
    cases c
    · simp
    · simp [lowBitAt_setBit hk]
  have hlen : ∀ {m : List UInt8} {c : Bool} {i : ℕ} {b : UInt8},
      (if c then orAt m i b else m).length = m.length := fun {m c i b} => by
    cases c <;> simp
  have hrange : List.range 3 = [0, 1, 2] := rfl
  simp only [writeCode, hrange, foldl_cons, foldl_nil, metadataBitsPerGroup, Nat.add_zero]
  rw [hif (by rw [hlen, hlen]; omega), hif (by rw [hlen]; omega), hif (by omega)]

theorem readCode_congr {m' : List UInt8}
    (h : ∀ k < 3, lowBitAt m (g * 3 + k) = lowBitAt m' (g' * 3 + k)) :
    readCode m g = readCode m' g' := by
  refine foldl_ext _ _ _ fun code k hk => ?_
  rw [metadataBitsPerGroup, h k (mem_range.1 hk)]

theorem readCode_eq (hcode : code < 8)
    (h : ∀ k < 3, lowBitAt m (g * 3 + k) = code.testBit k) : readCode m g = code := by
  have hrange : List.range 3 = [0, 1, 2] := rfl
  simp only [readCode, hrange, foldl_cons, foldl_nil, metadataBitsPerGroup,
    h 0 (by decide), h 1 (by decide), h 2 (by decide)]
  interval_cases code <;> rfl

/-- The codes of the first `n` groups stand in the stream, and nothing behind them. -/
structure Coded (m : List UInt8) (n : ℕ) (pair : ℕ → ℕ × ℕ) : Prop where
  codes : ∀ g < n, codeToPair (readCode m g) = some (pair g)
  zero : ∀ j, n * 3 ≤ j → lowBitAt m j = false

theorem pairCode_spec {a b : ℕ} (hab : a < b) (hb : b < 4) :
    ∃ code < 8, pairCode a b = some code ∧ codeToPair code = some (a, b) := by
  interval_cases b <;> interval_cases a <;> exact ⟨_, by decide, rfl, rfl⟩

theorem Coded.write {n : ℕ} {pair : ℕ → ℕ × ℕ} (h : Coded m n pair)
    (hroom : n * 3 + 3 ≤ 8 * m.length) (hcode : code < 8)
    (hpair : codeToPair code = some (pair n)) : Coded (writeCode m n code) (n + 1) pair := by
  refine ⟨fun g hg => ?_, fun j hj => ?_⟩
  · rcases Nat.lt_succ_iff_lt_or_eq.1 hg with hg | rfl
    · rw [← h.codes g hg]
      refine congrArg codeToPair (readCode_congr fun k hk => ?_)
      rw [lowBitAt_writeCode hroom, decide_eq_false (by omega), decide_eq_false (by omega),
        decide_eq_false (by omega)]
      simp
    · rw [readCode_eq hcode fun k hk => ?_, hpair]
      rw [lowBitAt_writeCode hroom, h.zero _ (by omega)]
      interval_cases k <;> simp
  · rw [lowBitAt_writeCode hroom, h.zero j (by omega), decide_eq_false (by omega),
      decide_eq_false (by omega), decide_eq_false (by omega)]
    simp

end Codes

section Tensors

variable {values : List UInt32} {n : ℕ}

theorem foldlM_pure_of_mem {m : Type → Type} [Monad m] [LawfulMonad m] {σ ι : Type}
    {f : σ → ι → m σ} {f' : σ → ι → σ} : ∀ {l : List ι} {s : σ},
      (∀ i ∈ l, ∀ s, f s i = pure (f' s i)) → l.foldlM f s = pure (l.foldl f' s)
  | [], _, _ => rfl
  | i :: l, s, h => by
    rw [foldlM_cons, h i mem_cons_self, pure_bind, foldl_cons,
      foldlM_pure_of_mem fun j hj => h j (mem_cons_of_mem _ hj)]

theorem foldl_place (pair : ℕ → ℕ × ℕ) (v w : ℕ → UInt32)
    (hpair : ∀ g, (pair g).1 < 4 ∧ (pair g).2 < 4)
    {total : ℕ} : ∀ n ≤ total,
      (List.range n).foldl (fun out g => place out g (pair g) (v g) (w g))
          (List.replicate (total * groupSize) 0) =
        (List.range n).flatMap (fun g => block (pair g) (v g) (w g)) ++
          List.replicate ((total - n) * groupSize) 0
  | 0, _ => by simp
  | n + 1, hn => by
    obtain ⟨h1, h2⟩ := hpair n
    have hlen : ((List.range n).flatMap fun g => block (pair g) (v g) (w g)).length =
        n * groupSize :=
      length_flatMap_range (fun g => length_block ..) n
    have hrest : List.replicate ((total - n) * groupSize) (0 : UInt32) =
        List.replicate groupSize 0 ++ List.replicate ((total - (n + 1)) * groupSize) 0 := by
      rw [← replicate_add]
      congr 1
      simp only [groupSize]
      omega
    rw [range_succ, foldl_append, foldl_place pair v w hpair n (by omega),
      foldl_cons, foldl_nil, flatMap_append, flatMap_singleton, place,
      set_append_right _ _ (by omega), hlen, Nat.add_sub_cancel_left,
      set_append_right _ _ (by omega), hlen, Nat.add_sub_cancel_left, hrest,
      set_append_left _ _ (by simpa [groupSize] using h1),
      set_append_left _ _ (by simpa [groupSize] using h2), append_assoc, block]

def survivingPair (values : List UInt32) (g : ℕ) : List UInt32 :=
  [(groupAt values g).getD (survivors (groupAt values g)).1 0,
    (groupAt values g).getD (survivors (groupAt values g)).2 0]

theorem length_survivingPair (values : List UInt32) (g : ℕ) :
    (survivingPair values g).length = 2 := rfl

/-- The survivors of the first `n` groups. -/
def survivingValues (values : List UInt32) (n : ℕ) : List UInt32 :=
  (List.range n).flatMap (survivingPair values)

theorem length_survivingValues (values : List UInt32) (n : ℕ) :
    (survivingValues values n).length = n * 2 :=
  length_flatMap_range (length_survivingPair values) n

theorem length_writeCode (m : List UInt8) (g code : ℕ) :
    (writeCode m g code).length = m.length := by
  have hrange : List.range 3 = [0, 1, 2] := rfl
  simp only [writeCode, hrange, foldl_cons, foldl_nil, metadataBitsPerGroup]
  split_ifs <;> simp only [length_orAt]

theorem sparsifyGroups (values : List UInt32) (groups : ℕ) : ∀ n ≤ groups, ∃ s,
    (List.range n).foldlM (sparsifyGroup values)
        ⟨[], List.replicate (metadataLength groups) 0⟩ = some s ∧
      s.values = survivingValues values n ∧ s.metadata.length = metadataLength groups ∧
      Coded s.metadata n fun g => survivors (groupAt values g)
  | 0, _ => by
    refine ⟨_, rfl, rfl, length_replicate, ⟨by simp, fun j _ => ?_⟩⟩
    have hzero : (List.replicate (metadataLength groups) (0 : UInt8)).getD (j / 8) 0 = 0 := by
      rw [getD_eq_getElem?_getD, getElem?_replicate]
      split_ifs <;> rfl
    rw [lowBitAt, hzero, UInt8.toNat_zero, Nat.zero_testBit]
  | n + 1, hn => by
    obtain ⟨s, hrun, hvalues, hlen, hcoded⟩ := sparsifyGroups values groups n (by omega)
    obtain ⟨hab, hb, -⟩ := survivors_spec (groupAt values n)
    obtain ⟨code, hcode, hpair, hback⟩ := pairCode_spec hab hb
    have hroom : n * 3 + 3 ≤ 8 * s.metadata.length := by
      rw [hlen, metadataLength, metadataBitsPerGroup]
      omega
    have hstep : sparsifyGroup values s n = some
        ⟨survivingValues values (n + 1), writeCode s.metadata n code⟩ := by
      rw [sparsifyGroup, survivingValues, range_succ, flatMap_append,
        flatMap_singleton, ← survivingValues, ← hvalues]
      simp only [hpair]
      rfl
    refine ⟨⟨survivingValues values (n + 1), writeCode s.metadata n code⟩, ?_, rfl,
      (length_writeCode ..).trans hlen, hcoded.write hroom hcode hback⟩
    rw [range_succ, foldlM_append, hrun]
    exact (foldlM_cons ..).trans (congrArg (· >>= _) hstep)

variable {pair : ℕ → ℕ × ℕ}

theorem densifyFlat_eq {s : Sparsified} (hpair : ∀ g, (pair g).1 < 4 ∧ (pair g).2 < 4)
    (hlen : s.values.length = n * 2) (hcoded : Coded s.metadata n pair) :
    densifyFlat s = some ((List.range n).flatMap fun g =>
      block (pair g) (s.values.getD (g * 2) 0) (s.values.getD (g * 2 + 1) 0)) := by
  have hgroups : s.numGroups = n := by rw [Sparsified.numGroups, hlen, groupSurvivors]; omega
  have hstep : ∀ g ∈ List.range n, ∀ out : List UInt32,
      (do
        let pair ← codeToPair (readCode s.metadata g)
        pure (place out g pair (s.values.getD (g * groupSurvivors) 0)
          (s.values.getD (g * groupSurvivors + 1) 0))) =
        some (place out g (pair g) (s.values.getD (g * 2) 0) (s.values.getD (g * 2 + 1) 0)) :=
    fun g hg out => by
      rw [hcoded.codes g (mem_range.1 hg)]
      rfl
  have hfill := foldl_place pair (fun g => s.values.getD (g * 2) 0)
    (fun g => s.values.getD (g * 2 + 1) 0) hpair n le_rfl
  rw [densifyFlat, hgroups, foldlM_pure_of_mem hstep, hfill, Nat.sub_self, Nat.zero_mul,
    replicate_zero, append_nil]
  rfl

theorem dequantGreyRaven_eq {s : Sparsified} (hpair : ∀ g, (pair g).1 < 4 ∧ (pair g).2 < 4)
    (hlen : s.values.length = n * 2) (hmeta : s.metadata.length = metadataLength n)
    (hcoded : Coded s.metadata n pair) :
    dequantGreyRaven (packGreyRaven s) (n * 4) = .ok ((List.range n).flatMap fun g =>
      block (pair g) ((s.values.map e4m3RoundTrip).getD (g * 2) 0)
        ((s.values.map e4m3RoundTrip).getD (g * 2 + 1) 0)) := by
  obtain ⟨codes, hdef⟩ : ∃ codes, s.values.map f32ToFp8E4m3 = codes := ⟨_, rfl⟩
  have hcodes : codes.length = n * 2 := by rw [← hdef, length_map, hlen]
  have hvalue : ∀ i, fp8E4m3ToF32 (codes.getD i 0) = (s.values.map e4m3RoundTrip).getD i 0 :=
    fun i => by
      have hmap : s.values.map e4m3RoundTrip = codes.map fp8E4m3ToF32 := by
        rw [← hdef, map_map]
        rfl
      have hget : (codes.map fp8E4m3ToF32).getD i (fp8E4m3ToF32 0) = _ :=
        getD_map _ _ _
      rw [hmap, ← hget, fp8E4m3ToF32_zero]
  have hstep : ∀ g ∈ List.range n, ∀ out : List UInt32,
      (match codeToPair (readCode s.metadata g) with
        | none => Except.error "metadata code does not name a valid slot pair"
        | some pair => .ok (place out g pair (fp8E4m3ToF32 (codes.getD (g * groupSurvivors) 0))
            (fp8E4m3ToF32 (codes.getD (g * groupSurvivors + 1) 0)))) =
        Except.ok (place out g (pair g) ((s.values.map e4m3RoundTrip).getD (g * 2) 0)
          ((s.values.map e4m3RoundTrip).getD (g * 2 + 1) 0)) :=
    fun g hg out => by
      rw [hcoded.codes g (mem_range.1 hg), ← hvalue, ← hvalue]
      rfl
  have hfill := foldl_place pair (fun g => (s.values.map e4m3RoundTrip).getD (g * 2) 0)
    (fun g => (s.values.map e4m3RoundTrip).getD (g * 2 + 1) 0) hpair n le_rfl
  have hgroups : n * 4 / groupSize = n := Nat.mul_div_cancel _ (by decide)
  have htake : (codes ++ s.metadata).take (n * groupSurvivors) = codes :=
    take_left' hcodes
  have hdrop : (codes ++ s.metadata).drop (n * groupSurvivors) = s.metadata :=
    drop_left' hcodes
  rw [dequantGreyRaven, packGreyRaven, hdef, if_neg (by simp [groupSize])]
  simp only [hgroups, htake, hdrop]
  rw [if_neg (by simp [hcodes, hmeta, groupSurvivors]), foldlM_pure_of_mem hstep]
  exact congrArg Except.ok (hfill.trans (by simp))

/-- Each group of four has its two largest magnitudes in place and zero elsewhere. -/
def KeepsLargest (values dense : List UInt32) : Prop :=
  dense.length = values.length ∧ ∀ g < values.length / 4, ∀ i < 4,
    dense[g * 4 + i]? = some (if i ∈ largestTwo (groupAt values g) then
      values.getD (g * 4 + i) 0 else 0)

theorem getD_groupAt {g i : ℕ} (hi : i < 4) :
    (groupAt values g).getD i 0 = values.getD (g * 4 + i) 0 := by
  rw [groupAt, slice, getD_eq_getElem?_getD, getD_eq_getElem?_getD, groupSize,
    getElem?_take_of_lt hi, getElem?_drop]

theorem keepsLargest_iff (h : values.length % 4 = 0) :
    KeepsLargest values ((List.range (values.length / 4)).flatMap fun g =>
        survivingBlock (groupAt values g)) ↔
      ∀ g < values.length / 4, NansLast (groupAt values g) := by
  have hblock : ∀ g, (survivingBlock (groupAt values g)).length = 4 := fun g => length_block ..
  constructor
  · rintro ⟨-, hkeeps⟩ g hg
    refine survivingBlock_eq_iff.1 (ext_getElem? fun i => ?_)
    rcases Nat.lt_or_ge i 4 with hi | hi
    · have hslot := hkeeps g hg i hi
      rw [getElem?_flatMap_range hblock hi hg] at hslot
      rw [hslot, getElem?_keptBlock hi, getD_groupAt hi]
    · rw [getElem?_eq_none (by rw [hblock]; exact hi),
        getElem?_eq_none (by simpa [keptBlock, groupSize] using hi)]
  · intro hall
    refine ⟨?_, fun g hg i hi => ?_⟩
    · rw [length_flatMap_range hblock]
      omega
    · rw [getElem?_flatMap_range hblock hi hg, survivingBlock_eq_iff.2 (hall g hg),
        getElem?_keptBlock hi, getD_groupAt hi]

/-- What goes into storage comes back with its survivors rounded, and they are the two largest
exactly where no NaN stands before numbers. -/
theorem keepsLargest_iff_nansLast (h : values.length % 4 = 0) :
    (∃ s dense rounded, sparsify24Flat values = some (.ok s) ∧ densifyFlat s = some dense ∧
      KeepsLargest values dense ∧
      densifyFlat { s with values := s.values.map e4m3RoundTrip } = some rounded ∧
      dequantGreyRaven (packGreyRaven s) values.length = .ok rounded) ↔
    ∀ g < values.length / 4, NansLast (groupAt values g) := by
  set n := values.length / 4
  obtain ⟨s, hrun, hvalues, hmeta, hcoded⟩ := sparsifyGroups values n n le_rfl
  have hsparse : sparsify24Flat values = some (.ok s) := by
    rw [sparsify24Flat, groupSize, if_neg (not_not.2 h)]
    exact congrArg (Option.map Except.ok) hrun
  have hpair : ∀ g, (survivors (groupAt values g)).1 < 4 ∧ (survivors (groupAt values g)).2 < 4 :=
    fun g => by
      obtain ⟨hlt, hlt', -⟩ := survivors_spec (groupAt values g)
      omega
  have hlen : s.values.length = n * 2 := by rw [hvalues, length_survivingValues]
  have hdense : densifyFlat s = some ((List.range n).flatMap fun g =>
      survivingBlock (groupAt values g)) := by
    rw [densifyFlat_eq hpair hlen hcoded]
    refine congrArg some (flatMap_congr fun g hg => ?_)
    have hg := mem_range.1 hg
    have hslot : ∀ {i}, i < 2 → (survivingValues values n)[g * 2 + i]? =
        (survivingPair values g)[i]? := fun hi =>
      getElem?_flatMap_range (length_survivingPair values) hi hg
    have hfirst := hslot (show 0 < 2 by decide)
    rw [survivingBlock, getD_eq_getElem?_getD, getD_eq_getElem?_getD, hvalues,
      hslot (show 1 < 2 by decide)]
    rw [Nat.add_zero] at hfirst
    rw [hfirst]
    rfl
  have hrounded := @densifyFlat_eq n (fun g => survivors (groupAt values g))
    { s with values := s.values.map e4m3RoundTrip } hpair (by simpa using hlen) hcoded
  have hback := dequantGreyRaven_eq hpair hlen hmeta hcoded
  rw [← keepsLargest_iff h]
  constructor
  · rintro ⟨s', dense, -, hs', hd, hkeeps, -⟩
    obtain rfl : s = s' := Except.ok.inj (Option.some.inj (hsparse.symm.trans hs'))
    rwa [Option.some.inj (hdense.symm.trans hd)]
  · intro hkeeps
    refine ⟨s, _, _, hsparse, hdense, hkeeps, hrounded, ?_⟩
    have htotal : values.length = n * 4 := by omega
    rw [htotal, hback]

/-- Two infinities and a NaN behind them. -/
theorem keepsLargest_iff_nansLast_infinities :
    ∃ s dense rounded,
      sparsify24Flat [0x7F800000, 0xFF800000, 0x7FC00000, 0x40000000] = some (.ok s) ∧
      densifyFlat s = some dense ∧
      KeepsLargest [0x7F800000, 0xFF800000, 0x7FC00000, 0x40000000] dense ∧
      densifyFlat { s with values := s.values.map e4m3RoundTrip } = some rounded ∧
      dequantGreyRaven (packGreyRaven s) 4 = .ok rounded := by
  have hlast : ∀ g < 1, NansLast (groupAt [0x7F800000, 0xFF800000, 0x7FC00000, 0x40000000] g) := by
    decide
  exact (keepsLargest_iff_nansLast (by rfl)).2 hlast

/-- A NaN in front of three numbers is kept. -/
theorem leading_nan_kept :
    ¬ ∀ values : List UInt32, values.length % 4 = 0 → ∃ s dense, sparsify24Flat values =
      some (.ok s) ∧ densifyFlat s = some dense ∧ KeepsLargest values dense := by
  intro h
  obtain ⟨s, dense, hs, hd, hkeeps⟩ := h [f32Nan, 0x3F800000, 0x40000000, 0x40400000] rfl
  have hsparse : sparsify24Flat [f32Nan, 0x3F800000, 0x40000000, 0x40400000] =
      some (.ok ⟨[f32Nan, 0x40400000], [2]⟩) := by decide +kernel
  obtain rfl := Except.ok.inj (Option.some.inj (hsparse.symm.trans hs))
  have hdense : densifyFlat ⟨[f32Nan, 0x40400000], [2]⟩ = some [f32Nan, 0, 0, 0x40400000] := by
    decide +kernel
  obtain rfl := Option.some.inj (hdense.symm.trans hd)
  have hslot := hkeeps.2 0 (by decide) 0 (by decide)
  exact absurd hslot (by decide +kernel)

end Tensors

end Grim.Quant
