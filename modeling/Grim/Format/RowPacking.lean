import Grim.Format.StreamLayout
import Grim.Lib.BitStream

/-!
# Rows of packed codes

A row's codes are or-ed into zeros at their bit offsets, each with its highest bit first, and the
row is padded up to a segment.  A code that crosses a byte is split between the two bytes.
-/

namespace Grim.Format

open BitStream List

/-- The code of the row's `i`-th element, `bpw` bits wide, or-ed into the row's bytes. -/
def putCode (out : List UInt8) (start bytesNeeded bpw i code : ℕ) : List UInt8 :=
  let bitOffset := i * bpw
  let byteOffset := bitOffset / 8
  let inByteOffset := bitOffset % 8
  let bitsLeftInByte := 8 - inByteOffset
  if bpw ≤ bitsLeftInByte then
    let shift := bitsLeftInByte - bpw
    orAt out (start + byteOffset) (UInt8.ofNat (code <<< shift))
  else
    let highBits := bitsLeftInByte
    let lowBits := bpw - highBits
    let out := orAt out (start + byteOffset) (UInt8.ofNat (code >>> lowBits))
    if byteOffset + 1 < bytesNeeded then
      let lowShift := 8 - lowBits
      orAt out (start + byteOffset + 1) (UInt8.ofNat (code <<< lowShift))
    else out

/-- The codes from the `i`-th element on. -/
def putCodes (start bytesNeeded bpw : ℕ) : ℕ → List ℕ → List UInt8 → List UInt8
  | _, [], out => out
  | i, code :: codes, out =>
    putCodes start bytesNeeded bpw (i + 1) codes (putCode out start bytesNeeded bpw i code)

def decodeCode (data : List UInt8) (idx : ℕ) (bpw : UInt8) : ℕ :=
  let bitOffset := idx * bpw.toNat
  let byteOffset := bitOffset / 8
  let inByte := bitOffset % 8
  let bitsLeft := 8 - inByte
  if data.length ≤ byteOffset then 0
  else if bpw.toNat ≤ bitsLeft then
    let shift := bitsLeft - bpw.toNat
    ((data.getD byteOffset 0 >>> UInt8.ofNat shift) &&& ((1 : UInt8) <<< bpw - 1)).toNat
  else
    let highBits := bitsLeft
    let lowBits := bpw.toNat - highBits
    let highPart := (data.getD byteOffset 0 &&& ((1 : UInt8) <<< UInt8.ofNat highBits - 1)).toNat
    let lowPart :=
      if byteOffset + 1 < data.length then
        let shift := 8 - lowBits
        ((data.getD (byteOffset + 1) 0 >>> UInt8.ofNat shift) &&&
          ((1 : UInt8) <<< UInt8.ofNat lowBits - 1)).toNat
      else 0
    highPart <<< lowBits ||| lowPart

variable {row data : List UInt8} {bytesNeeded bpw i code k j o : ℕ} {codes : List ℕ}

@[simp] theorem length_putCode {start : ℕ} :
    (putCode row start bytesNeeded bpw i code).length = row.length := by
  unfold putCode
  dsimp only
  split_ifs <;> simp only [length_orAt]

theorem putCode_append (pre row : List UInt8) :
    putCode (pre ++ row) pre.length bytesNeeded bpw i code =
      pre ++ putCode row 0 bytesNeeded bpw i code := by
  unfold putCode
  dsimp only
  simp only [Nat.zero_add, orAt_append, Nat.add_assoc]
  split_ifs <;> rfl

theorem testBit_lt (hcode : code < 2 ^ bpw) (h : bpw ≤ j) : code.testBit j = false :=
  Nat.testBit_lt_two_pow (lt_of_lt_of_le hcode (Nat.pow_le_pow_right (by decide) h))

/-- The bit at `k` of a code that stands at the bits from `o` on. -/
def fieldBit (code bpw o k : ℕ) : Bool :=
  decide (o ≤ k ∧ k < o + bpw) && code.testBit (o + bpw - 1 - k)

theorem fieldBit_of_mem (h : o ≤ k ∧ k < o + bpw) :
    fieldBit code bpw o k = code.testBit (o + bpw - 1 - k) := by
  rw [fieldBit, decide_eq_true h, Bool.true_and]

theorem fieldBit_of_notMem (h : ¬ (o ≤ k ∧ k < o + bpw)) : fieldBit code bpw o k = false := by
  rw [fieldBit, decide_eq_false h, Bool.false_and]

theorem fieldBit_within (hcode : code < 2 ^ bpw) (hfits : bpw ≤ 8 - o % 8) :
    (decide (k / 8 = o / 8) &&
      (UInt8.ofNat (code <<< (8 - o % 8 - bpw))).toNat.testBit (7 - k % 8)) =
        fieldBit code bpw o k := by
  rw [testBit_ofNat, Nat.testBit_shiftLeft]
  by_cases hin : o ≤ k ∧ k < o + bpw
  · have hindex : 7 - k % 8 - (8 - o % 8 - bpw) = o + bpw - 1 - k := by omega
    rw [fieldBit_of_mem hin, decide_eq_true (by omega), decide_eq_true (by omega),
      decide_eq_true (by omega), hindex]
    rfl
  · rw [fieldBit_of_notMem hin]
    by_cases hbyte : k / 8 = o / 8 ∧ 8 - o % 8 - bpw ≤ 7 - k % 8
    · rw [testBit_lt hcode (by omega), Bool.and_false, Bool.and_false, Bool.and_false]
    · rcases not_and_or.mp hbyte with hb | hb
      · rw [decide_eq_false hb, Bool.false_and]
      · rw [decide_eq_false (p := 7 - k % 8 ≥ 8 - o % 8 - bpw) hb, Bool.false_and, Bool.and_false,
          Bool.and_false]

theorem fieldBit_across (hbpw : bpw ≤ 8) (hcode : code < 2 ^ bpw) (hcross : 8 - o % 8 < bpw) :
    ((decide (k / 8 = o / 8) &&
        (UInt8.ofNat (code >>> (bpw - (8 - o % 8)))).toNat.testBit (7 - k % 8)) ||
      (decide (k / 8 = o / 8 + 1) &&
        (UInt8.ofNat (code <<< (8 - (bpw - (8 - o % 8))))).toNat.testBit (7 - k % 8))) =
      fieldBit code bpw o k := by
  rw [testBit_ofNat, testBit_ofNat, Nat.testBit_shiftLeft, Nat.testBit_shiftRight]
  by_cases hfirst : k / 8 = o / 8
  · rw [decide_eq_true hfirst, decide_eq_true (by omega : 7 - k % 8 < 8),
      decide_eq_false (by omega : ¬ k / 8 = o / 8 + 1), Bool.false_and, Bool.or_false,
      Bool.true_and, Bool.true_and]
    by_cases hin : o ≤ k ∧ k < o + bpw
    · rw [fieldBit_of_mem hin]
      congr 1
      omega
    · rw [fieldBit_of_notMem hin, testBit_lt hcode (by omega)]
  · rw [decide_eq_false hfirst, Bool.false_and, Bool.false_or]
    by_cases hin : o ≤ k ∧ k < o + bpw
    · have hindex : 7 - k % 8 - (8 - (bpw - (8 - o % 8))) = o + bpw - 1 - k := by omega
      rw [fieldBit_of_mem hin, decide_eq_true (by omega), decide_eq_true (by omega),
        decide_eq_true (by omega), hindex]
      rfl
    · rw [fieldBit_of_notMem hin]
      by_cases hbyte : k / 8 = o / 8 + 1
      · have hlow : ¬ 7 - k % 8 ≥ 8 - (bpw - (8 - o % 8)) := by omega
        rw [decide_eq_false hlow, Bool.false_and, Bool.and_false, Bool.and_false]
      · rw [decide_eq_false hbyte, Bool.false_and]

theorem bitAt_putCode (hpos : 0 < bpw) (hbpw : bpw ≤ 8) (hcode : code < 2 ^ bpw)
    (hlen : row.length = bytesNeeded) (hroom : i * bpw + bpw ≤ 8 * bytesNeeded) :
    bitAt (putCode row 0 bytesNeeded bpw i code) k =
      (bitAt row k || fieldBit code bpw (i * bpw) k) := by
  unfold putCode
  generalize i * bpw = o at hroom ⊢
  dsimp only
  rw [Nat.zero_add]
  split_ifs with hfits hnext
  · rw [bitAt_orAt (by omega), fieldBit_within hcode hfits]
  · rw [bitAt_orAt (by rw [length_orAt]; omega), bitAt_orAt (by omega), Bool.or_assoc,
      fieldBit_across hbpw hcode (Nat.not_le.mp hfits)]
  · omega

variable {width : UInt8} {idx : ℕ}

/-- Below the whole byte, the bits of the code that is read are those that stand at its offset. -/
theorem testBit_decodeCode (hpos : 0 < width.toNat) (hwidth : width.toNat < 8) :
    (decodeCode data idx width).testBit j = (decide (j < width.toNat) &&
      bitAt data (idx * width.toNat + (width.toNat - 1 - j))) := by
  have hofNat : width = UInt8.ofNat width.toNat := UInt8.ofNat_toNat.symm
  unfold decodeCode
  generalize hw : width.toNat = w at hpos hwidth hofNat ⊢
  generalize idx * w = o
  dsimp only
  split_ifs with hout hfits hnext
  · rw [bitAt_of_le (by omega), Nat.zero_testBit, Bool.and_false]
  · rw [hofNat, testBit_masked _ (by omega) hwidth]
    by_cases hj : j < w
    · have hbyte : (o + (w - 1 - j)) / 8 = o / 8 := by omega
      have hbit : 8 - o % 8 - w + j = 7 - (o + (w - 1 - j)) % 8 := by omega
      rw [bitAt, hbyte, hbit]
    · rw [decide_eq_false hj, Bool.false_and, Bool.false_and]
  all_goals
    rw [Nat.testBit_or, Nat.testBit_shiftLeft, testBit_and_mask _ (by omega)]
  · rw [testBit_masked _ (by omega) (by omega)]
    by_cases hj : j < w
    swap
    · rw [decide_eq_false hj, decide_eq_false (by omega : ¬ j - (w - (8 - o % 8)) < 8 - o % 8),
        decide_eq_false (by omega : ¬ j < w - (8 - o % 8)), Bool.false_and, Bool.false_and,
        Bool.and_false, Bool.false_and, Bool.or_false]
    by_cases hhigh : j < w - (8 - o % 8)
    · have hbyte : (o + (w - 1 - j)) / 8 = o / 8 + 1 := by omega
      have hbit : 8 - (w - (8 - o % 8)) + j = 7 - (o + (w - 1 - j)) % 8 := by omega
      rw [decide_eq_true hj, decide_eq_true hhigh, decide_eq_false (by omega), Bool.false_and,
        Bool.false_or, bitAt, hbyte, hbit]
    · have hbyte : (o + (w - 1 - j)) / 8 = o / 8 := by omega
      have hbit : j - (w - (8 - o % 8)) = 7 - (o + (w - 1 - j)) % 8 := by omega
      rw [decide_eq_true hj, decide_eq_false hhigh, decide_eq_true (Nat.not_lt.mp hhigh),
        decide_eq_true (by omega : j - (w - (8 - o % 8)) < 8 - o % 8), Bool.false_and,
        Bool.or_false, bitAt, hbyte, hbit]
      rfl
  · rw [Nat.zero_testBit, Bool.or_false]
    by_cases hj : j < w
    swap
    · rw [decide_eq_false hj, decide_eq_false (by omega : ¬ j - (w - (8 - o % 8)) < 8 - o % 8),
        Bool.false_and, Bool.false_and, Bool.and_false]
    by_cases hhigh : j < w - (8 - o % 8)
    · rw [decide_eq_false (by omega), Bool.false_and, bitAt_of_le (by omega), Bool.and_false]
    · have hbyte : (o + (w - 1 - j)) / 8 = o / 8 := by omega
      have hbit : j - (w - (8 - o % 8)) = 7 - (o + (w - 1 - j)) % 8 := by omega
      rw [decide_eq_true hj, decide_eq_true (Nat.not_lt.mp hhigh),
        decide_eq_true (by omega : j - (w - (8 - o % 8)) < 8 - o % 8), bitAt, hbyte, hbit]
      rfl

theorem decodeCode_eight (data : List UInt8) (idx : ℕ) : decodeCode data idx 8 = 0 := by
  have hmask : (1 : UInt8) <<< (8 : UInt8) - 1 = 0 := rfl
  have height : (8 : UInt8).toNat = 8 := rfl
  unfold decodeCode
  dsimp only
  rw [height]
  split_ifs with hout hfits
  · rfl
  · rw [hmask, UInt8.and_zero, UInt8.toNat_zero]
  all_goals omega

theorem bitAt_putCodes (hpos : 0 < bpw) (hbpw : bpw ≤ 8) :
    ∀ (codes : List ℕ) (i : ℕ) (row : List UInt8), (∀ code ∈ codes, code < 2 ^ bpw) →
      row.length = bytesNeeded → (i + codes.length) * bpw ≤ 8 * bytesNeeded →
      bitAt (putCodes 0 bytesNeeded bpw i codes row) k = (bitAt row k ||
        (decide (i ≤ k / bpw) && (codes.getD (k / bpw - i) 0).testBit (bpw - 1 - k % bpw)))
  | [], i, row, _, _, _ => by
    rw [putCodes, getD_nil, Nat.zero_testBit, Bool.and_false, Bool.or_false]
  | code :: codes, i, row, hcodes, hlen, hroom => by
    rw [length_cons] at hroom
    have hcode := hcodes code (by simp)
    have hsplit : (i + (codes.length + 1)) * bpw = i * bpw + bpw + codes.length * bpw := by ring
    rw [putCodes, bitAt_putCodes hpos hbpw codes (i + 1) _ (fun c hc => hcodes c (by simp [hc]))
      (by rw [length_putCode, hlen]) (by rw [Nat.add_right_comm]; exact hroom),
      bitAt_putCode hpos hbpw hcode hlen (by omega), Bool.or_assoc]
    congr 1
    have hdiv := Nat.div_add_mod k bpw
    have hmod := Nat.mod_lt k hpos
    have hwindow : (i * bpw ≤ k ∧ k < i * bpw + bpw) ↔ k / bpw = i := by
      rw [Nat.div_eq_iff hpos]
      constructor <;> rintro ⟨hle, hlt⟩ <;> constructor <;> omega
    rcases lt_trichotomy (k / bpw) i with hlt | heq | hgt
    · rw [fieldBit_of_notMem (fun h => absurd (hwindow.mp h) hlt.ne),
        decide_eq_false (by omega : ¬ i + 1 ≤ k / bpw), decide_eq_false (by omega : ¬ i ≤ k / bpw),
        Bool.false_and, Bool.false_and, Bool.or_false]
    · have hindex : i * bpw + bpw - 1 - k = bpw - 1 - k % bpw := by
        rw [heq, Nat.mul_comm] at hdiv
        omega
      rw [fieldBit_of_mem (hwindow.mpr heq), decide_eq_false (by omega : ¬ i + 1 ≤ k / bpw),
        decide_eq_true (by omega : i ≤ k / bpw), Bool.false_and, Bool.or_false, Bool.true_and,
        heq, Nat.sub_self, getD_cons_zero, hindex]
    · have hindex : k / bpw - i = k / bpw - (i + 1) + 1 := by omega
      rw [fieldBit_of_notMem (fun h => absurd (hwindow.mp h) hgt.ne'),
        decide_eq_true (by omega : i + 1 ≤ k / bpw), decide_eq_true (by omega : i ≤ k / bpw),
        Bool.false_or, hindex, getD_cons_succ]

theorem length_putCodes {start : ℕ} : ∀ (codes : List ℕ) (i : ℕ) (out : List UInt8),
    (putCodes start bytesNeeded bpw i codes out).length = out.length
  | [], _, _ => rfl
  | code :: codes, i, out => by rw [putCodes, length_putCodes codes, length_putCode]

theorem putCodes_append (pre : List UInt8) : ∀ (codes : List ℕ) (i : ℕ) (row : List UInt8),
    putCodes pre.length bytesNeeded bpw i codes (pre ++ row) =
      pre ++ putCodes 0 bytesNeeded bpw i codes row
  | [], _, _ => rfl
  | code :: codes, i, row => by
    rw [putCodes, putCode_append, putCodes_append pre codes, putCodes]

def rowBytes (bpw : ℕ) (codes : List ℕ) : List UInt8 :=
  let bytesNeeded := divCeil (codes.length * bpw)
  putCodes 0 bytesNeeded bpw 0 codes (List.replicate bytesNeeded 0)

theorem length_rowBytes : (rowBytes bpw codes).length = divCeil (codes.length * bpw) := by
  rw [rowBytes, length_putCodes, length_replicate]

theorem decodeCode_rowBytes (hpos : 0 < width.toNat) (hwidth : width.toNat < 8)
    (hcodes : ∀ code ∈ codes, code < 2 ^ width.toNat) (hidx : idx < codes.length)
    (rest : List UInt8) :
    decodeCode (rowBytes width.toNat codes ++ rest) idx width = codes[idx] := by
  refine Nat.eq_of_testBit_eq fun j => ?_
  rw [testBit_decodeCode hpos hwidth]
  by_cases hj : j < width.toNat
  swap
  · have hcode := hcodes _ (getElem_mem hidx)
    rw [decide_eq_false hj, Bool.false_and, testBit_lt hcode (Nat.not_lt.mp hj)]
  have hspan : idx * width.toNat + width.toNat ≤ codes.length * width.toNat := by
    rw [← Nat.succ_mul]
    exact Nat.mul_le_mul_right _ hidx
  have hdiv : (idx * width.toNat + (width.toNat - 1 - j)) / width.toNat = idx := by
    rw [Nat.div_eq_iff hpos]
    constructor <;> omega
  have hmod : width.toNat - 1 - (idx * width.toNat + (width.toNat - 1 - j)) % width.toNat = j := by
    rw [Nat.mul_comm idx, Nat.mul_add_mod, Nat.mod_eq_of_lt (by omega)]
    omega
  have hroom := le_divCeil (codes.length * width.toNat)
  rw [bitAt_append_left (by rw [length_rowBytes]; omega), rowBytes,
    bitAt_putCodes hpos hwidth.le codes 0 _ hcodes length_replicate
      (by rw [Nat.zero_add]; exact hroom),
    bitAt_replicate, hdiv, hmod, decide_eq_true hj, Bool.true_and, Bool.false_or, Nat.sub_zero,
    decide_eq_true (Nat.zero_le idx), Bool.true_and, getD_eq_getElem _ _ hidx]

end Grim.Format
