import Grim.Lib.BitStream

/-!
# The stream of quantized codes

Codes of one to eight bits, one behind the other, the lowest bit of each first and the lowest bits
of each byte first.  Nothing in the stream says how wide a code is.
-/

namespace Grim.KvQuant

open BitStream List

def lowBitAt (data : List UInt8) (k : ℕ) : Bool := (data.getD (k / 8) 0).toNat.testBit (k % 8)

variable {data : List UInt8} {i k : ℕ} {b : UInt8}

theorem lowBitAt_of_le (h : 8 * data.length ≤ k) : lowBitAt data k = false := by
  rw [lowBitAt, getD_eq_default _ _ (by omega), UInt8.toNat_zero, Nat.zero_testBit]

theorem lowBitAt_append_zero (data : List UInt8) (k : ℕ) :
    lowBitAt (data ++ [0]) k = lowBitAt data k := by
  by_cases hk : k < 8 * data.length
  · rw [lowBitAt, lowBitAt, getD_append _ _ _ _ (by omega)]
  · have hzero : ([0] : List UInt8).getD (k / 8 - data.length) 0 = 0 := by
      rcases k / 8 - data.length with _ | n <;> rfl
    have hdata : lowBitAt data k = false := lowBitAt_of_le (by omega)
    rw [hdata, lowBitAt, getD_append_right _ _ _ _ (by omega), hzero, UInt8.toNat_zero,
      Nat.zero_testBit]

theorem lowBitAt_orAt (hi : i < data.length) :
    lowBitAt (orAt data i b) k =
      (lowBitAt data k || (decide (k / 8 = i) && b.toNat.testBit (k % 8))) := by
  rw [lowBitAt, lowBitAt, orAt, getD_eq_getElem?_getD, getD_eq_getElem?_getD,
    getElem?_modify]
  by_cases hk : k / 8 = i
  · rw [hk, getElem?_eq_getElem hi]
    simp [UInt8.toNat_or, Nat.testBit_or]
  · rw [decide_eq_false hk, Bool.false_and, Bool.or_false]
    simp [Ne.symm hk]

/-- `p` bits stand in the bytes, and only zeros behind them. -/
structure Holds (data : List UInt8) (p : ℕ) : Prop where
  length : data.length = (p + 7) / 8
  zero : ∀ k, p ≤ k → lowBitAt data k = false

structure BitWriter where
  buf : List UInt8
  bitPos : ℕ

/-- `1u32 << n` less one. -/
def mask (n : ℕ) : ℕ := 2 ^ n - 1

/-- The loop of `push`; each turn takes a bit at least. -/
def pushBits : ℕ → List UInt8 → ℕ → ℕ → ℕ → ℕ → List UInt8
  | 0, buf, _, _, _, _ => buf
  | n + 1, buf, byteIdx, bitOff, v, remaining =>
    if remaining = 0 then buf
    else
      let buf := if buf.length ≤ byteIdx then buf ++ [0] else buf
      let take := min remaining (8 - bitOff)
      let chunk := v &&& mask take
      let buf := orAt buf byteIdx (UInt8.ofNat (chunk <<< bitOff))
      if bitOff + take = 8 then pushBits n buf (byteIdx + 1) 0 (v >>> take) (remaining - take)
      else pushBits n buf byteIdx (bitOff + take) (v >>> take) (remaining - take)

namespace BitWriter

def new : BitWriter := ⟨[], 0⟩

/-- `bit_pos` is a `u32`. -/
def push (w : BitWriter) (value nBits : ℕ) : BitWriter where
  buf := pushBits nBits w.buf (w.bitPos / 8) (w.bitPos % 8) value nBits
  bitPos := (w.bitPos + nBits) % 2 ^ 32

def finish (w : BitWriter) : List UInt8 := w.buf

end BitWriter

/-- The bits that stand in the bytes are those there were, and then the code's. -/
def Extends (data data' : List UInt8) (p v n : ℕ) : Prop :=
  ∀ k, lowBitAt data' k =
    (lowBitAt data k || (decide (p ≤ k) && decide (k < p + n) && v.testBit (k - p)))

theorem step_bits {buf : List UInt8} {byteIdx bitOff take v : ℕ} (hoff : bitOff < 8)
    (htake : bitOff + take ≤ 8) (hpos : 0 < take) (h : Holds buf (8 * byteIdx + bitOff)) :
    Holds (orAt (if buf.length ≤ byteIdx then buf ++ [0] else buf) byteIdx
        (UInt8.ofNat ((v &&& mask take) <<< bitOff))) (8 * byteIdx + bitOff + take) ∧
      Extends buf (orAt (if buf.length ≤ byteIdx then buf ++ [0] else buf) byteIdx
        (UInt8.ofNat ((v &&& mask take) <<< bitOff))) (8 * byteIdx + bitOff) v take := by
  have hlen := h.length
  set grown := if buf.length ≤ byteIdx then buf ++ [0] else buf with hgrown
  have hgrownLen : grown.length = byteIdx + 1 := by
    rw [hgrown]
    split_ifs
    · rw [length_append, length_singleton]
      omega
    · omega
  have hsame : ∀ k, lowBitAt grown k = lowBitAt buf k := fun k => by
    rw [hgrown]
    split_ifs
    · exact lowBitAt_append_zero buf k
    · rfl
  have hbits : Extends buf (orAt grown byteIdx (UInt8.ofNat ((v &&& mask take) <<< bitOff)))
      (8 * byteIdx + bitOff) v take := fun k => by
    rw [lowBitAt_orAt (by omega), hsame, testBit_ofNat, Nat.testBit_shiftLeft, Nat.testBit_and,
      mask, Nat.testBit_two_pow_sub_one]
    by_cases hin : 8 * byteIdx + bitOff ≤ k ∧ k < 8 * byteIdx + bitOff + take
    · have hdiv : k / 8 = byteIdx := by omega
      have hsub : k % 8 - bitOff = k - (8 * byteIdx + bitOff) := by omega
      have hle : bitOff ≤ k % 8 := by omega
      have hlt : k - (8 * byteIdx + bitOff) < take := by omega
      simp [hdiv, hsub, hle, hlt, hin.1, hin.2, Nat.mod_lt k]
    · have hout : (decide (8 * byteIdx + bitOff ≤ k) &&
          decide (k < 8 * byteIdx + bitOff + take)) = false := by
        simpa using hin
      rw [hout, Bool.false_and]
      by_cases hdiv : k / 8 = byteIdx
      · by_cases hle : bitOff ≤ k % 8
        · have hge : ¬k % 8 - bitOff < take := by omega
          simp [hge]
        · simp [hle]
      · simp [hdiv]
  refine ⟨⟨?_, fun k hk => ?_⟩, hbits⟩
  · rw [length_orAt, hgrownLen]
    omega
  · rw [hbits k, h.zero k (by omega)]
    simp only [Bool.false_or, Bool.and_eq_false_iff, decide_eq_false_iff_not]
    omega

theorem Extends.zero (buf : List UInt8) (p v : ℕ) : Extends buf buf p v 0 := fun k => by
  have hnone : (decide (p ≤ k) && decide (k < p + 0)) = false := by
    simp only [Bool.and_eq_false_iff, decide_eq_false_iff_not]
    omega
  rw [hnone, Bool.false_and, Bool.or_false]

theorem Extends.trans {a b c : List UInt8} {p v m n : ℕ} (hab : Extends a b p v m)
    (hbc : Extends b c (p + m) (v >>> m) n) : Extends a c p v (m + n) := fun k => by
  rw [hbc k, hab k, Bool.or_assoc]
  congr 1
  rw [Nat.testBit_shiftRight]
  by_cases hk : k < p + m
  · have hlt : k < p + (m + n) := by omega
    have hbefore : ¬p + m ≤ k := by omega
    simp [hk, hlt, hbefore]
  · have hsub : m + (k - (p + m)) = k - p := by omega
    have hle : p ≤ k := by omega
    have hle' : p + m ≤ k := by omega
    have hsum : p + m + n = p + (m + n) := by omega
    simp [hk, hle, hle', hsub, hsum]

theorem pushBits_spec : ∀ (n : ℕ) {buf : List UInt8} {byteIdx bitOff v remaining : ℕ},
    remaining ≤ n → bitOff < 8 → Holds buf (8 * byteIdx + bitOff) →
      Holds (pushBits n buf byteIdx bitOff v remaining) (8 * byteIdx + bitOff + remaining) ∧
        Extends buf (pushBits n buf byteIdx bitOff v remaining) (8 * byteIdx + bitOff) v remaining
  | 0, buf, byteIdx, bitOff, v, remaining, hn, _, h => by
    obtain rfl := Nat.le_zero.1 hn
    exact ⟨h, Extends.zero buf _ v⟩
  | n + 1, buf, byteIdx, bitOff, v, remaining, hn, hoff, h => by
    rw [pushBits]
    by_cases hzero : remaining = 0
    · subst hzero
      rw [if_pos rfl]
      exact ⟨h, Extends.zero buf _ v⟩
    · rw [if_neg hzero]
      set take := min remaining (8 - bitOff) with htake
      obtain ⟨hholds, hbits⟩ := step_bits (v := v) hoff (by omega : bitOff + take ≤ 8) (by omega) h
      dsimp only
      generalize orAt (if buf.length ≤ byteIdx then buf ++ [0] else buf) byteIdx
        (UInt8.ofNat ((v &&& mask take) <<< bitOff)) = buf' at hholds hbits ⊢
      have hrest : take + (remaining - take) = remaining := by omega
      have hnext : ∀ j b, 8 * byteIdx + bitOff + take = 8 * j + b → b < 8 →
          Holds (pushBits n buf' j b (v >>> take) (remaining - take))
              (8 * byteIdx + bitOff + remaining) ∧
            Extends buf (pushBits n buf' j b (v >>> take) (remaining - take))
              (8 * byteIdx + bitOff) v remaining := by
        intro j b hpos hb
        rw [hpos] at hholds
        obtain ⟨hend, hbits'⟩ := pushBits_spec n (v := v >>> take)
          (by omega : remaining - take ≤ n) hb hholds
        rw [← hpos] at hend hbits'
        have hall := hbits.trans hbits'
        rw [Nat.add_assoc, hrest] at hend
        rw [hrest] at hall
        exact ⟨hend, hall⟩
      split_ifs with hfull
      · exact hnext (byteIdx + 1) 0 (by omega) (by omega)
      · exact hnext byteIdx (bitOff + take) (by omega) (by omega)

namespace BitWriter

def Valid (w : BitWriter) : Prop := Holds w.buf w.bitPos ∧ w.bitPos < 2 ^ 32

theorem valid_new : new.Valid := by
  refine ⟨⟨rfl, fun k _ => ?_⟩, by decide⟩
  exact lowBitAt_of_le (Nat.zero_le _)

theorem Valid.push {w : BitWriter} (h : w.Valid) (value nBits : ℕ)
    (hroom : w.bitPos + nBits < 2 ^ 32) : (w.push value nBits).Valid ∧
      (w.push value nBits).bitPos = w.bitPos + nBits ∧
        Extends w.buf (w.push value nBits).buf w.bitPos value nBits := by
  have hpos : 8 * (w.bitPos / 8) + w.bitPos % 8 = w.bitPos := Nat.div_add_mod _ 8
  obtain ⟨hholds, hbits⟩ :=
    pushBits_spec nBits (v := value) le_rfl (Nat.mod_lt w.bitPos (by decide))
    (hpos ▸ h.1)
  rw [hpos] at hholds hbits
  have hnext : (w.push value nBits).bitPos = w.bitPos + nBits := Nat.mod_eq_of_lt hroom
  exact ⟨⟨hnext ▸ hholds, hnext ▸ hroom⟩, hnext, hbits⟩

def pushAll (w : BitWriter) (codes : List (ℕ × ℕ)) : BitWriter :=
  codes.foldl (fun w c => w.push c.1 c.2) w

end BitWriter

structure BitReader where
  buf : List UInt8
  bitPos : ℕ

/-- The loop of `next`; behind the last byte there are zeros. -/
def nextBits : ℕ → List UInt8 → ℕ → ℕ → ℕ → ℕ → ℕ → ℕ
  | 0, _, _, _, result, _, _ => result
  | n + 1, buf, byteIdx, bitOff, result, outShift, remaining =>
    if remaining = 0 then result
    else
      let byte := (buf.getD byteIdx 0).toNat
      let take := min remaining (8 - bitOff)
      let chunk := (byte >>> bitOff) &&& mask take
      let result := result ||| (chunk <<< outShift)
      if bitOff + take = 8 then
        nextBits n buf (byteIdx + 1) 0 result (outShift + take) (remaining - take)
      else nextBits n buf byteIdx (bitOff + take) result (outShift + take) (remaining - take)

namespace BitReader

def new (buf : List UInt8) : BitReader := ⟨buf, 0⟩

def next (r : BitReader) (nBits : ℕ) : ℕ × BitReader :=
  (nextBits nBits r.buf (r.bitPos / 8) (r.bitPos % 8) 0 0 nBits,
    { r with bitPos := (r.bitPos + nBits) % 2 ^ 32 })

def nextAll (r : BitReader) : List ℕ → List ℕ
  | [] => []
  | n :: widths => (r.next n).1 :: nextAll (r.next n).2 widths

end BitReader

/-- From the position `s` of the number on stand the `n` bits from `p` on in the bytes. -/
def Reads (buf : List UInt8) (p result result' s n : ℕ) : Prop :=
  ∀ j, result'.testBit j =
    (result.testBit j || (decide (s ≤ j) && decide (j < s + n) && lowBitAt buf (p + (j - s))))

theorem Reads.zero (buf : List UInt8) (p result s : ℕ) : Reads buf p result result s 0 :=
    fun j => by
  have hnone : (decide (s ≤ j) && decide (j < s + 0)) = false := by
    simp only [Bool.and_eq_false_iff, decide_eq_false_iff_not]
    omega
  rw [hnone, Bool.false_and, Bool.or_false]

theorem Reads.trans {buf : List UInt8} {p a b c s m n : ℕ} (hab : Reads buf p a b s m)
    (hbc : Reads buf (p + m) b c (s + m) n) : Reads buf p a c s (m + n) := fun j => by
  rw [hbc j, hab j, Bool.or_assoc]
  congr 1
  by_cases hj : j < s + m
  · have hlt : j < s + (m + n) := by omega
    have hbefore : ¬s + m ≤ j := by omega
    simp [hj, hlt, hbefore]
  · have hsub : p + m + (j - (s + m)) = p + (j - s) := by omega
    have hle : s ≤ j := by omega
    have hle' : s + m ≤ j := by omega
    have hsum : s + m + n = s + (m + n) := by omega
    simp [hj, hle, hle', hsub, hsum]

theorem reads_chunk {buf : List UInt8} {byteIdx bitOff take : ℕ} (hle : bitOff + take ≤ 8)
    (result s : ℕ) : Reads buf (8 * byteIdx + bitOff) result
      (result ||| ((((buf.getD byteIdx 0).toNat >>> bitOff) &&& mask take) <<< s)) s take :=
        fun j => by
  rw [Nat.testBit_or, Nat.testBit_shiftLeft, Nat.testBit_and, Nat.testBit_shiftRight, mask,
    Nat.testBit_two_pow_sub_one]
  congr 1
  by_cases hs : s ≤ j
  · by_cases hlt : j < s + take
    · have hdiv : (8 * byteIdx + bitOff + (j - s)) / 8 = byteIdx := by omega
      have hmod : (8 * byteIdx + bitOff + (j - s)) % 8 = bitOff + (j - s) := by omega
      have hsub : j - s < take := by omega
      simp [hs, hlt, hsub, lowBitAt, hdiv, hmod]
    · have hsub : ¬j - s < take := by omega
      simp [hlt, hsub]
  · simp [hs]

theorem nextBits_spec : ∀ (n : ℕ) {buf : List UInt8} {byteIdx bitOff result outShift remaining : ℕ},
    remaining ≤ n → bitOff < 8 → Reads buf (8 * byteIdx + bitOff) result
      (nextBits n buf byteIdx bitOff result outShift remaining) outShift remaining
  | 0, buf, byteIdx, bitOff, result, outShift, remaining, hn, _ => by
    obtain rfl := Nat.le_zero.1 hn
    exact Reads.zero buf _ result outShift
  | n + 1, buf, byteIdx, bitOff, result, outShift, remaining, hn, hoff => by
    rw [nextBits]
    by_cases hzero : remaining = 0
    · subst hzero
      rw [if_pos rfl]
      exact Reads.zero buf _ result outShift
    · rw [if_neg hzero]
      set take := min remaining (8 - bitOff) with htake
      have hchunk : Reads buf (8 * byteIdx + bitOff) result _ outShift take :=
        reads_chunk (by omega : bitOff + take ≤ 8) result outShift
      dsimp only
      generalize result ||| ((((buf.getD byteIdx 0).toNat >>> bitOff) &&& mask take) <<< outShift)
        = result' at hchunk ⊢
      have hrest : take + (remaining - take) = remaining := by omega
      split_ifs with hfull
      · have hpos : 8 * byteIdx + bitOff + take = 8 * (byteIdx + 1) + 0 := by omega
        have hnext : Reads buf (8 * (byteIdx + 1) + 0) result' _ (outShift + take)
          (remaining - take) := nextBits_spec n (by omega) (by omega)
        rw [← hpos] at hnext
        have hall := hchunk.trans hnext
        rwa [hrest] at hall
      · have hpos : 8 * byteIdx + bitOff + take = 8 * byteIdx + (bitOff + take) := by omega
        have hnext : Reads buf (8 * byteIdx + (bitOff + take)) result' _ (outShift + take)
          (remaining - take) := nextBits_spec n (by omega) (by omega)
        rw [← hpos] at hnext
        have hall := hchunk.trans hnext
        rwa [hrest] at hall

theorem testBit_next (r : BitReader) (n j : ℕ) :
    (r.next n).1.testBit j = (decide (j < n) && lowBitAt r.buf (r.bitPos + j)) := by
  have hpos : 8 * (r.bitPos / 8) + r.bitPos % 8 = r.bitPos := Nat.div_add_mod _ 8
  have hreads : Reads r.buf (8 * (r.bitPos / 8) + r.bitPos % 8) 0 (r.next n).1 0 n :=
    nextBits_spec n le_rfl (Nat.mod_lt _ (by decide))
  rw [hreads j, hpos, Nat.zero_testBit, Bool.false_or]
  simp

def totalWidth (codes : List (ℕ × ℕ)) : ℕ := (codes.map Prod.snd).sum

theorem pushAll_spec : ∀ (codes : List (ℕ × ℕ)) {w : BitWriter}, w.Valid →
    w.bitPos + totalWidth codes < 2 ^ 32 →
      (∀ k < w.bitPos, lowBitAt (w.pushAll codes).buf k = lowBitAt w.buf k) ∧
        ((∀ c ∈ codes, c.1 < 2 ^ c.2) →
          (BitReader.mk (w.pushAll codes).buf w.bitPos).nextAll (codes.map Prod.snd) =
            codes.map Prod.fst)
  | [], w, _, _ => ⟨fun _ _ => rfl, fun _ => rfl⟩
  | (v, n) :: codes, w, h, hroom => by
    rw [totalWidth, map_cons, sum_cons] at hroom
    obtain ⟨hvalid, hpos, hbits⟩ := h.push v n (by omega)
    obtain ⟨hbefore, hread⟩ := pushAll_spec codes hvalid (by rw [hpos, totalWidth]; omega)
    have hall : w.pushAll ((v, n) :: codes) = (w.push v n).pushAll codes := rfl
    rw [hall]
    rw [hpos] at hbefore hread
    refine ⟨fun k hk => ?_, fun hlt => ?_⟩
    · rw [hbefore k (by omega), hbits k]
      simp [Nat.not_le.2 hk]
    · obtain ⟨hv, hlt⟩ := forall_mem_cons.1 hlt
      rw [map_cons, map_cons, BitReader.nextAll]
      congr 1
      · refine Nat.eq_of_testBit_eq fun j => ?_
        rw [testBit_next]
        dsimp only
        by_cases hj : j < n
        · rw [hbefore _ (by omega), hbits, h.1.zero _ (by omega)]
          simp [hj]
        · rw [Nat.testBit_lt_two_pow (hv.trans_le (Nat.pow_le_pow_right (by decide) (by omega)))]
          simp [hj]
      · have hnext : (BitReader.next ⟨((w.push v n).pushAll codes).buf, w.bitPos⟩ n).2 =
            ⟨((w.push v n).pushAll codes).buf, w.bitPos + n⟩ := by
          have hmod : (w.bitPos + n) % 2 ^ 32 = w.bitPos + n := Nat.mod_eq_of_lt (by omega)
          simp only [BitReader.next, hmod]
        rw [hnext]
        exact hread hlt

theorem nextAll_pushAll {codes : List (ℕ × ℕ)} (hlt : ∀ c ∈ codes, c.1 < 2 ^ c.2)
    (hroom : totalWidth codes < 2 ^ 32) :
    (BitReader.new (BitWriter.new.pushAll codes).finish).nextAll (codes.map Prod.snd) =
      codes.map Prod.fst :=
  (pushAll_spec codes BitWriter.valid_new (by simpa [BitWriter.new] using hroom)).2 hlt

end Grim.KvQuant
