import Grim.Lib.Search
import Grim.Speculative.Wrapper

/-!
# Which row judges a draft token

The target's row `r` predicts position `r + 1`.  The loop and the ROCm kernel test the draft token
at position `context_len + i` with the row `context_len + i`, which predicts the position behind it,
so the count is right exactly when their verdict on that row is that of the ratio test on the row
before it.
-/

namespace Grim.Speculative

open Slice List

/-- What the kernels compute with besides the common operations, and whether the device answers. -/
structure RocmDevice (F : Type) where
  /-- `-1e30f` -/
  floor : F
  mul : F → F → F
  expf : F → F
  fminf : F → F → F
  le : F → F → Bool
  launch : Except String Unit

namespace RocmDevice

variable {F : Type} (ops : FloatOps F) (dev : RocmDevice F)

/-- `grim_softmax`, on one row. -/
def softmax (row : List F) : List F :=
  let maxv := row.foldl (fun m v => if ops.lt m v then v else m) dev.floor
  let sum := row.foldl (fun s v => ops.add s (dev.expf (ops.sub v maxv))) ops.zero
  let inv := ops.div ops.one sum
  row.map fun v => dev.mul (dev.expf (ops.sub v maxv)) inv

/-- The kernel's test of the `k`-th draft token: `r <= accept_prob`. -/
def accepts (target draft : List F) (contextLen vocabSize : ℕ) (tokens : List UInt32)
    (uniforms : List F) (k : ℕ) : Bool :=
  let draftTok := (tokens.getD k 0).toNat
  let p := (dev.softmax ops (slice target ((contextLen + k) * vocabSize) vocabSize)).getD draftTok
    ops.zero
  let q := (dev.softmax ops (slice draft (k * vocabSize) vocabSize)).getD draftTok ops.zero
  let acceptProb := if ops.lt ops.zero q then dev.fminf ops.one (ops.div p q) else ops.one
  dev.le (uniforms.getD k ops.zero) acceptProb

/-- `accepted_count` from the `k`-th draft token on, `n` of them: a rejected token is counted for
the one sampled in its place, and behind the last comes the bonus token. -/
def rejectionSample (inVocab test : ℕ → Bool) : ℕ → ℕ → ℕ
  | 0, _ => 1
  | n + 1, k =>
    if inVocab k then if test k then rejectionSample inVocab test n (k + 1) + 1 else 1 else 0

/-- `RocmSpeculativeVerifier::verify` -/
def verify : SpeculativeVerifier F :=
  fun target draft contextLen vocabSize tokens uniforms =>
    let k := tokens.length
    if k = 0 then .ok 0
    else if target.length < (contextLen + k) * vocabSize then
      .error (s!"narrow_rows: rows [{contextLen}, {contextLen + k}) of {vocabSize} exceed " ++
        s!"{target.length} elements")
    else if draft.length < k * vocabSize then
      .error s!"narrow_rows: rows [0, {k}) of {vocabSize} exceed {draft.length} elements"
    else
      match dev.launch with
      | .error e => .error e
      | .ok () =>
        let acceptedLen := rejectionSample (fun i => decide ((tokens.getD i 0).toNat < vocabSize))
          (dev.accepts ops target draft contextLen vocabSize tokens uniforms) k 0
        .ok (min (acceptedLen - 1) k)

end RocmDevice

variable {F : Type} {ops : FloatOps F} {target draft uniforms : List F} {tokens : List UInt32}
  {contextLen vocabSize verifyLen n : ℕ} {draws : ℕ → F}

/-- The logits have the rows that the loop reads, and the draft tokens are in the vocabulary. -/
structure Shaped (target draft : List F) (contextLen vocabSize verifyLen : ℕ)
    (tokens : List UInt32) : Prop where
  targetRows : target.length = (contextLen + verifyLen) * vocabSize
  draftRows : verifyLen * vocabSize ≤ draft.length
  enough : verifyLen ≤ tokens.length
  inVocab : ∀ tok ∈ tokens, tok.toNat < vocabSize

@[simp] theorem length_softmaxF32Row (ops : FloatOps F) (logits : List F) :
    (softmaxF32Row ops logits).length = logits.length := by
  simp [softmaxF32Row]

theorem rowOf_some {data : List F} (r : ℕ) (h : (r + 1) * vocabSize ≤ data.length) :
    ∃ row, rowOf data vocabSize r = some row ∧ row.length = vocabSize := by
  rw [Nat.succ_mul] at h
  refine ⟨_, if_pos h, ?_⟩
  rw [length_slice]
  omega

theorem pAccept_some (ops : FloatOps F) {t d : List F} {tok : UInt32} (ht : t.length = vocabSize)
    (hd : d.length = vocabSize) (htok : tok.toNat < vocabSize) :
      ∃ p, pAccept ops t d tok = some p := by
  have hpT : tok.toNat < (softmaxF32Row ops t).length := by simpa [ht] using htok
  have hpD : tok.toNat < (softmaxF32Row ops d).length := by simpa [hd] using htok
  simp only [pAccept, getElem?_eq_getElem hpT, getElem?_eq_getElem hpD, Option.bind_some,
    Option.map_some]
  exact ⟨_, rfl⟩

theorem ratioTest_some (h : Shaped target draft contextLen vocabSize verifyLen tokens) {r i : ℕ}
    (hr : r < contextLen + verifyLen) (hi : i < verifyLen) :
    ∃ pass, ratioTest ops target draft vocabSize tokens draws r i = some pass := by
  have htok : i < tokens.length := hi.trans_le h.enough
  obtain ⟨t, ht, htlen⟩ := rowOf_some r
    (h.targetRows ▸ Nat.mul_le_mul_right _ hr)
  obtain ⟨d, hd, hdlen⟩ := rowOf_some i
    ((Nat.mul_le_mul_right _ hi).trans h.draftRows)
  obtain ⟨p, hp⟩ := pAccept_some ops htlen hdlen (h.inVocab _ (getElem_mem htok))
  simp only [ratioTest, getElem?_eq_getElem htok, ht, hd, hp, Option.bind_some, Option.map_some]
  exact ⟨_, rfl⟩

theorem verifyLoop_leading (test : ℕ → Option Bool) : ∀ (n i : ℕ),
    (∀ j < n, ∃ pass, test (i + j) = some pass) →
      ∃ k, verifyLoop test n i = some k ∧ Leading (fun j => test (i + j) = some true) n k
  | 0, _, _ => ⟨0, rfl, le_rfl, by simp, by simp⟩
  | n + 1, i, h => by
    obtain ⟨pass, hpass⟩ := h 0 n.succ_pos
    rw [add_zero] at hpass
    cases pass with
    | false =>
      refine ⟨0, by simp [verifyLoop, hpass], Nat.zero_le _, by simp, ?_⟩
      simp [hpass]
    | true =>
      obtain ⟨k, hk, hlead⟩ := verifyLoop_leading test n (i + 1) fun j hj => by
        obtain ⟨pass, hj'⟩ := h (j + 1) (by omega)
        exact ⟨pass, by rw [← hj']; congr 1; omega⟩
      have hshift : ∀ j, i + 1 + j = i + (j + 1) := by omega
      simp only [hshift] at hlead
      refine ⟨k + 1, by simp [verifyLoop, hpass, hk], Nat.succ_le_succ hlead.le, ?_, ?_⟩
      · intro j hj
        rcases j with _ | j
        · simpa using hpass
        · exact hlead.pass j (by omega)
      · intro hlt
        exact hlead.stop (by omega)

theorem rejectionSample_leading (inVocab test : ℕ → Bool) : ∀ (n i : ℕ),
    (∀ j < n, inVocab (i + j) = true) →
      ∃ k, RocmDevice.rejectionSample inVocab test n i = k + 1
        ∧ Leading (fun j => test (i + j) = true) n k
  | 0, _, _ => ⟨0, rfl, le_rfl, by simp, by simp⟩
  | n + 1, i, h => by
    have hin : inVocab i = true := h 0 n.succ_pos
    cases htest : test i with
    | false => exact ⟨0, by simp [RocmDevice.rejectionSample, hin, htest], Nat.zero_le _, by simp,
        by simp [htest]⟩
    | true =>
      obtain ⟨k, hk, hlead⟩ := rejectionSample_leading inVocab test n (i + 1) fun j hj => by
        rw [← h (j + 1) (by omega)]
        congr 1
        omega
      have hshift : ∀ j, i + 1 + j = i + (j + 1) := by omega
      simp only [hshift] at hlead
      refine ⟨k + 1, by simp [RocmDevice.rejectionSample, hin, htest, hk],
        Nat.succ_le_succ hlead.le, ?_, ?_⟩
      · intro j hj
        rcases j with _ | j
        · simpa using htest
        · exact hlead.pass j (by omega)
      · intro hlt
        exact hlead.stop (by omega)

def usedDevice (ops : FloatOps F) (rocm : Option (RocmDevice F)) (target draft : List F)
    (contextLen vocabSize verifyLen : ℕ) (tokens : List UInt32) (uniforms : List F) :
    Option (RocmDevice F) :=
  rocm.filter fun dev => verifyLen + 1 ≤ uniforms.length
    ∧ (dev.verify ops target draft contextLen vocabSize tokens uniforms).isOk

def usedDraws (ops : FloatOps F) (used : Option (RocmDevice F)) (uniforms : List F)
    (draws : ℕ → F) : ℕ → F :=
  if used.isSome then fun i => uniforms.getD i ops.zero else draws

/-- The verdict of the arm that runs on the `i`-th draft token, with the row behind it. -/
def Judged (ops : FloatOps F) (used : Option (RocmDevice F)) (target draft : List F)
    (contextLen vocabSize : ℕ) (tokens : List UInt32) (uniforms : List F) (draws : ℕ → F) (i : ℕ) :
    Prop :=
  match used with
  | some dev => dev.accepts ops target draft contextLen vocabSize tokens uniforms i = true
  | none => ratioTest ops target draft vocabSize tokens draws (contextLen + i) i = some true

/-- A count of the verifier is that of its kernel's verdicts. -/
theorem verify_leading {dev : RocmDevice F} {count : ℕ}
    (h : Shaped target draft contextLen vocabSize verifyLen tokens)
    (hcount : dev.verify ops target draft contextLen vocabSize tokens uniforms = .ok count) :
    Leading (fun i => dev.accepts ops target draft contextLen vocabSize tokens uniforms i = true)
      verifyLen count := by
  unfold RocmDevice.verify at hcount
  simp only at hcount
  split_ifs at hcount with hempty htarget hdraft
  · obtain rfl := Except.ok.inj hcount
    obtain rfl : verifyLen = 0 := by
      have := h.enough
      omega
    exact ⟨le_rfl, by simp, by simp⟩
  · cases hlaunch : dev.launch with
    | error e =>
      rw [hlaunch] at hcount
      cases hcount
    | ok _ =>
      rw [hlaunch] at hcount
      have hvocab : 0 < vocabSize := (Nat.zero_le _).trans_lt
        (h.inVocab _ (getElem_mem (Nat.pos_of_ne_zero hempty)))
      -- the rows are there, so no more tokens were handed over than are verified
      have hlen : tokens.length = verifyLen := by
        rw [h.targetRows, not_lt] at htarget
        have hrows := Nat.le_of_mul_le_mul_right htarget hvocab
        have := h.enough
        omega
      obtain ⟨k, hk, hlead⟩ := rejectionSample_leading
        (fun i => decide ((tokens.getD i 0).toNat < vocabSize))
        (dev.accepts ops target draft contextLen vocabSize tokens uniforms) tokens.length 0
        fun j hj => by
          have hget : tokens.getD j 0 = tokens[j] := by simp [getElem?_eq_getElem hj]
          rw [zero_add, decide_eq_true_iff, hget]
          exact h.inVocab _ (getElem_mem hj)
      have hle := hlead.le
      simp only [zero_add, hlen] at hlead hle hk hcount
      rw [hk, Nat.add_sub_cancel, Nat.min_eq_left hle] at hcount
      exact Except.ok.inj hcount ▸ hlead

theorem verifyAcceptedCount_leading (rocm : Option (RocmDevice F)) (draws : ℕ → F)
    (h : Shaped target draft contextLen vocabSize verifyLen tokens) :
    ∃ k, verifyAcceptedCount ops
      (rocm.map (RocmDevice.verify ops)) target draft contextLen vocabSize
        tokens verifyLen uniforms draws = some k ∧
      Leading (Judged ops
        (usedDevice ops rocm target draft contextLen vocabSize verifyLen tokens uniforms) target
        draft contextLen vocabSize tokens uniforms draws) verifyLen k := by
  have hloop : ∃ k, verifyLoop (fun i =>
      ratioTest ops target draft vocabSize tokens draws (contextLen + i) i) verifyLen 0 = some k ∧
        Leading (fun i => ratioTest ops target draft vocabSize tokens draws (contextLen + i) i =
          some true) verifyLen k := by
    obtain ⟨k, hk, hlead⟩ := verifyLoop_leading (fun i =>
      ratioTest ops target draft vocabSize tokens draws (contextLen + i) i) verifyLen 0 fun j hj =>
        ratioTest_some h (by omega) (by omega)
    simp only [zero_add] at hlead
    exact ⟨k, hk, hlead⟩
  cases rocm with
  | none => exact hloop
  | some dev =>
    simp only [verifyAcceptedCount, usedDevice, Option.map_some, Option.filter_some]
    by_cases huniforms : verifyLen + 1 ≤ uniforms.length
    · cases hverify : dev.verify ops target draft contextLen vocabSize tokens uniforms with
      | error e =>
        simp only [huniforms, Except.isOk, Except.toBool, if_true, true_and, decide_false,
          Bool.false_eq_true, if_false]
        exact hloop
      | ok count =>
        simp only [huniforms, Except.isOk, Except.toBool, if_true, true_and, decide_true]
        exact ⟨count, rfl, verify_leading h hverify⟩
    · simp only [huniforms, if_false, false_and, decide_false, Bool.false_eq_true]
      exact hloop

/-- The `i`-th draft token passes with the row that predicts its position; row `r` predicts
position `r + 1`. -/
def PassesAtPosition (ops : FloatOps F) (target draft : List F) (contextLen vocabSize : ℕ)
    (tokens : List UInt32) (draws : ℕ → F) (i : ℕ) : Prop :=
  ∃ r, r + 1 = contextLen + i ∧ ratioTest ops target draft vocabSize tokens draws r i = some true

/-- Two verdicts are the same up to the first token that one of them rejects. -/
def VerdictsAgree (before behind : ℕ → Prop) (verifyLen : ℕ) : Prop :=
  ∀ i < verifyLen, (∀ j < i, before j ∧ behind j) → (before i ↔ behind i)

/-- The positions that the rows of `rows` predict, once for each number of the row. -/
def predictedPositions (rows vocabSize : ℕ) : List ℕ :=
  (List.range rows).flatMap fun r => List.replicate vocabSize (r + 1)

/-- What is extracted are rows that predict positions behind the accepted tokens, at least one. -/
def RowsBehind (contextLen vocabSize verifyLen n : ℕ) : Prop :=
  ∃ out, extractAcceptedLogits (predictedPositions (contextLen + verifyLen) vocabSize) n vocabSize
    contextLen = .ok out ∧ out ≠ [] ∧ ∀ pos ∈ out, contextLen + n ≤ pos

/-- Among the rows extracted is one that predicts the position behind the accepted tokens. -/
def RowBehind (contextLen vocabSize verifyLen n : ℕ) : Prop :=
  ∃ out, extractAcceptedLogits (predictedPositions (contextLen + verifyLen) vocabSize) n vocabSize
    contextLen = .ok out ∧ contextLen + n ∈ out

theorem extract_predicted (hn : n ≤ verifyLen) :
    extractAcceptedLogits (predictedPositions (contextLen + verifyLen) vocabSize) n vocabSize
      contextLen = .ok ((List.range' contextLen n).flatMap fun r =>
        List.replicate vocabSize (r + 1)) := by
  have hlen : ∀ l : List ℕ, (l.flatMap fun r => List.replicate vocabSize (r + 1)).length =
      l.length * vocabSize := by
    intro l
    simp
  have hsplit : List.range (contextLen + verifyLen) = List.range' 0 contextLen ++
      List.range' contextLen n ++ List.range' (contextLen + n) (verifyLen - n) := by
    have hfirst := range'_append_1 (s := 0) (m := contextLen) (n := n)
    have hsecond := range'_append_1 (s := 0) (m := contextLen + n) (n := verifyLen - n)
    rw [zero_add] at hfirst hsecond
    rw [hfirst, hsecond, range_eq_range']
    congr 1
    omega
  have hpart : slice (predictedPositions (contextLen + verifyLen) vocabSize)
      (contextLen * vocabSize) (n * vocabSize) =
        (List.range' contextLen n).flatMap fun r => List.replicate vocabSize (r + 1) := by
    rw [predictedPositions, hsplit, flatMap_append, flatMap_append]
    exact slice_append (by rw [hlen, length_range']) (by rw [hlen, length_range'])
  have hfits : ¬ (predictedPositions (contextLen + verifyLen) vocabSize).length <
      contextLen * vocabSize + n * vocabSize := by
    rw [predictedPositions, hlen, length_range, ← Nat.add_mul]
    exact not_lt.2 (Nat.mul_le_mul_right _ (by omega))
  simp only [extractAcceptedLogits, if_neg hfits, hpart]

theorem mem_predicted (hvocab : 0 < vocabSize) (contextLen n pos : ℕ) :
    pos ∈ ((List.range' contextLen n).flatMap fun r => List.replicate vocabSize (r + 1)) ↔
      contextLen < pos ∧ pos ≤ contextLen + n := by
  simp only [mem_flatMap, mem_range'_1, mem_replicate]
  constructor
  · rintro ⟨r, hr, -, rfl⟩
    omega
  · intro hpos
    exact ⟨pos - 1, by omega, hvocab.ne', by omega⟩

theorem rowBehind_iff (hn : n ≤ verifyLen) (hvocab : 0 < n → 0 < vocabSize) :
    RowBehind contextLen vocabSize verifyLen n ↔ 0 < n := by
  unfold RowBehind
  rw [extract_predicted hn]
  constructor
  · rintro ⟨out, hout, hmem⟩
    rcases Nat.eq_zero_or_pos n with rfl | hpos
    · cases hout
      simp at hmem
    · exact hpos
  · intro hpos
    exact ⟨_, rfl, (mem_predicted (hvocab hpos) _ _ _).2 ⟨by omega, le_rfl⟩⟩

theorem rowsBehind_iff (hn : n ≤ verifyLen) (hvocab : 0 < n → 0 < vocabSize) :
    RowsBehind contextLen vocabSize verifyLen n ↔ n = 1 := by
  unfold RowsBehind
  rw [extract_predicted hn]
  constructor
  · rintro ⟨out, hout, hne, hall⟩
    cases hout
    rcases Nat.eq_zero_or_pos n with rfl | hpos
    · simp at hne
    · have hfirst := hall (contextLen + 1)
          ((mem_predicted (hvocab hpos) _ _ _).2 ⟨by omega, by omega⟩)
      omega
  · rintro rfl
    have hmem := mem_predicted (hvocab Nat.one_pos) contextLen 1
    refine ⟨_, rfl, ne_nil_of_mem ((hmem (contextLen + 1)).2 ⟨by omega, le_rfl⟩), ?_⟩
    intro pos hpos
    have := (hmem pos).1 hpos
    omega

/-- The count is that of the rows that predict the draft tokens, and what is extracted are rows
behind the accepted ones, exactly when the verdicts on the rows behind the draft tokens agree with
them and one token is accepted; a row behind them is among those extracted as soon as any is. -/
theorem accepted_judged_iff (ops : FloatOps F) (rocm : Option (RocmDevice F))
    (uniforms : List F) (draws : ℕ → F)
    (hshape : Shaped target draft contextLen vocabSize verifyLen tokens) :
    let used := usedDevice ops rocm target draft contextLen vocabSize verifyLen tokens uniforms
    let passes := PassesAtPosition ops target draft contextLen vocabSize tokens
      (usedDraws ops used uniforms draws)
    let judged := Judged ops used target draft contextLen vocabSize tokens uniforms draws
    ∃ n, verifyAcceptedCount ops (rocm.map (RocmDevice.verify ops)) target draft contextLen
        vocabSize tokens verifyLen uniforms draws = some n ∧
      (IsGreatest {k | k ≤ verifyLen ∧ ∀ i < k, passes i} n ∧
          RowsBehind contextLen vocabSize verifyLen n ↔
        VerdictsAgree passes judged verifyLen ∧ 0 < verifyLen ∧ passes 0
          ∧ (1 < verifyLen → ¬ passes 1)) ∧
      (IsGreatest {k | k ≤ verifyLen ∧ ∀ i < k, passes i} n ∧
          RowBehind contextLen vocabSize verifyLen n ↔
        VerdictsAgree passes judged verifyLen ∧ 0 < verifyLen ∧ passes 0) := by
  intro used passes judged
  obtain ⟨n, hn, hlead⟩ := verifyAcceptedCount_leading rocm draws hshape
  have hagree : Leading passes verifyLen n ↔ VerdictsAgree passes judged verifyLen :=
    hlead.iff_of_leading
  have hvocab : 0 < n → 0 < vocabSize := by
    intro hpos
    have htok : 0 < tokens.length := (hpos.trans_le hlead.le).trans_le hshape.enough
    exact (Nat.zero_le _).trans_lt (hshape.inVocab _ (getElem_mem htok))
  refine ⟨n, hn, ?_, ?_⟩
  · rw [Leading.isGreatest_iff, rowsBehind_iff hlead.le hvocab, ← hagree]
    exact ⟨fun h => ⟨h.1, h.1.eq_one_iff.1 h.2⟩, fun h => ⟨h.1, h.1.eq_one_iff.2 h.2⟩⟩
  · rw [Leading.isGreatest_iff, rowBehind_iff hlead.le hvocab, ← hagree]
    exact ⟨fun h => ⟨h.1, h.1.pos_iff.1 h.2⟩, fun h => ⟨h.1, h.1.pos_iff.2 h.2⟩⟩

/-- Rationals for the numbers, with the exponential of logits that are equal or 200 apart. -/
def ratOps : FloatOps ℚ where
  zero := 0
  one := 1
  negOne := -1
  negInfinity := -1000
  tiny := 1 / 10000000000
  add := (· + ·)
  sub := (· - ·)
  div := (· / ·)
  min := min
  max := max
  exp := fun x => if x = 0 then 1 else 0
  lt := fun x y => decide (x < y)
  ofNat := fun n => n

theorem shaped_tokens : ∀ tok ∈ [(0 : UInt32)], tok.toNat < 2 := by
  intro tok htok
  rw [mem_singleton.mp htok]
  exact Nat.two_pos

/-- One token of context and one draft, which both rows of the target expect. -/
def agreeingTarget : List ℚ := [200, 0, 200, 0]

theorem agreeing_shaped : Shaped agreeingTarget [200, 0] 1 2 1 [0] :=
  ⟨rfl, by decide, by decide, shaped_tokens⟩

def ratDevice : RocmDevice ℚ where
  floor := -1000
  mul := (· * ·)
  expf := ratOps.exp
  fminf := min
  le := fun x y => decide (x ≤ y)
  launch := .ok ()

theorem accepted_judged_agreeing : ∃ n,
    verifyAcceptedCount ratOps (some (RocmDevice.verify ratOps ratDevice)) agreeingTarget
      [200, 0] 1 2
        [0] 1 [1 / 2, 1 / 2] (fun _ => 0) = some n ∧
      IsGreatest {k | k ≤ 1 ∧ ∀ i < k, PassesAtPosition ratOps agreeingTarget [200, 0] 1 2 [0]
        (fun i => [1 / 2, 1 / 2].getD i 0) i} n ∧ RowsBehind 1 2 1 n := by
  obtain ⟨n, hn, hiff, -⟩ := accepted_judged_iff ratOps (some ratDevice) [1 / 2, 1 / 2]
    (fun _ => 0) agreeing_shaped
  have hused : usedDevice ratOps (some ratDevice) agreeingTarget [200, 0] 1 2 1 [0]
      [1 / 2, 1 / 2] = some ratDevice := by
    rw [usedDevice, Option.filter_some, if_pos (by decide +kernel)]
  rw [hused] at hiff
  have hpass : ratioTest ratOps agreeingTarget [200, 0] 2 [0]
      (fun i => [1 / 2, 1 / 2].getD i 0) 0 0 =
      some true := by
    decide +kernel
  refine ⟨n, hn, hiff.2 ⟨?_, Nat.one_pos, ⟨0, rfl, hpass⟩, fun h => absurd h (by decide)⟩⟩
  intro i hi _
  obtain rfl : i = 0 := by omega
  refine iff_of_true ⟨0, rfl, hpass⟩ ?_
  show RocmDevice.accepts ratOps ratDevice agreeingTarget [200, 0] 1 2 [0] [1 / 2, 1 / 2] 0 = true
  decide +kernel

def disagreeingTarget : List ℚ := [0, 200, 200, 0]

theorem not_accepted_judged_disagreeing : Shaped disagreeingTarget [200, 0] 1 2 1 [0] ∧ ∃ n,
    verifyAcceptedCount ratOps none disagreeingTarget [200, 0] 1 2 [0] 1 [] (fun _ => 1 / 2) =
        some n ∧
      ¬ IsGreatest {k | k ≤ 1 ∧ ∀ i < k, PassesAtPosition ratOps disagreeingTarget [200, 0] 1 2 [0]
        (fun _ => 1 / 2) i} n := by
  refine ⟨⟨rfl, by decide, by decide, shaped_tokens⟩, 1, by decide +kernel, fun h => ?_⟩
  obtain ⟨r, hr, hpass⟩ := h.1.2 0 Nat.one_pos
  obtain rfl : r = 0 := by omega
  revert hpass
  decide +kernel

end Grim.Speculative
