import Mathlib.Data.List.GetD
import Mathlib.Tactic

/-!
# Bits of bytes and words

The bits of a list of bytes, the highest bit of each byte first.  Behind the last byte there are
only zeros.  Fields of one width in a word are found where they were put.
-/

namespace BitStream

open List

variable {data rest : List UInt8} {k i j n : ℕ} {b : UInt8}

def bitAt (data : List UInt8) (k : ℕ) : Bool := (data.getD (k / 8) 0).toNat.testBit (7 - k % 8)

/-- `data[i] |= b` -/
def orAt (data : List UInt8) (i : ℕ) (b : UInt8) : List UInt8 := data.modify i (· ||| b)

@[simp] theorem length_orAt (data : List UInt8) (i : ℕ) (b : UInt8) :
    (orAt data i b).length = data.length := length_modify ..

theorem bitAt_append_left (h : k < 8 * data.length) : bitAt (data ++ rest) k = bitAt data k := by
  rw [bitAt, bitAt, getD_append _ _ _ _ (by omega)]

theorem bitAt_replicate (n k : ℕ) : bitAt (List.replicate n 0) k = false := by
  have hzero : (List.replicate n (0 : UInt8)).getD (k / 8) 0 = 0 := by
    rw [getD_eq_getElem?_getD, getElem?_replicate]
    split_ifs <;> rfl
  rw [bitAt, hzero, UInt8.toNat_zero, Nat.zero_testBit]

theorem bitAt_of_le (h : 8 * data.length ≤ k) : bitAt data k = false := by
  rw [bitAt, getD_eq_default _ _ (by omega), UInt8.toNat_zero, Nat.zero_testBit]

theorem bitAt_orAt (hi : i < data.length) :
    bitAt (orAt data i b) k =
      (bitAt data k || (decide (k / 8 = i) && b.toNat.testBit (7 - k % 8))) := by
  rw [bitAt, bitAt, orAt, getD_eq_getElem?_getD, getD_eq_getElem?_getD,
    getElem?_modify]
  by_cases hk : k / 8 = i
  · rw [hk, getElem?_eq_getElem hi]
    simp [UInt8.toNat_or, Nat.testBit_or]
  · rw [decide_eq_false hk, Bool.false_and, Bool.or_false]
    simp [Ne.symm hk]

theorem orAt_append (pre data : List UInt8) (i : ℕ) (b : UInt8) :
    orAt (pre ++ data) (pre.length + i) b = pre ++ orAt data i b := by
  induction pre with
  | nil => rw [nil_append, length_nil, Nat.zero_add, nil_append]
  | cons p pre ih =>
    rw [length_cons, Nat.add_right_comm]
    exact congrArg (p :: ·) ih

theorem testBit_ofNat (n j : ℕ) :
    (UInt8.ofNat n).toNat.testBit j = (decide (j < 8) && n.testBit j) :=
  (congrArg (Nat.testBit · j) UInt8.toNat_ofNat').trans (Nat.testBit_mod_two_pow n 8 j)

theorem toNat_ofNat_lt (h : n < 8) : (UInt8.ofNat n).toNat % 8 = n := by
  rw [UInt8.toNat_ofNat', Nat.mod_eq_of_lt (by omega : n < 2 ^ 8), Nat.mod_eq_of_lt h]

theorem toNat_mask (h : n < 8) : ((1 : UInt8) <<< UInt8.ofNat n - 1).toNat = 2 ^ n - 1 := by
  interval_cases n <;> rfl

theorem testBit_and_mask (b : UInt8) (hn : n < 8) :
    (b &&& ((1 : UInt8) <<< UInt8.ofNat n - 1)).toNat.testBit j =
      (decide (j < n) && b.toNat.testBit j) := by
  rw [UInt8.toNat_and, toNat_mask hn, Nat.testBit_and, Nat.testBit_two_pow_sub_one, Bool.and_comm]

theorem testBit_masked (b : UInt8) (hi : i < 8) (hn : n < 8) :
    ((b >>> UInt8.ofNat i) &&& ((1 : UInt8) <<< UInt8.ofNat n - 1)).toNat.testBit j =
      (decide (j < n) && b.toNat.testBit (i + j)) := by
  rw [testBit_and_mask _ hn, UInt8.toNat_shiftRight, toNat_ofNat_lt hi, Nat.testBit_shiftRight]

section Fields

variable {w n p : ℕ} {x y : UInt32} {field : ℕ → UInt32}

theorem toNat_ofNat_mod (h : k < 32) : (UInt32.ofNat k).toNat % 32 = k := by
  rw [UInt32.toNat_ofNat']
  omega

theorem toNat_or_shiftLeft (hx : x.toNat < 2 ^ k) (hk : k < 32) (hy : y.toNat * 2 ^ k < 2 ^ 32) :
    (x ||| y <<< UInt32.ofNat k).toNat = x.toNat + y.toNat * 2 ^ k := by
  rw [UInt32.toNat_or, UInt32.toNat_shiftLeft, toNat_ofNat_mod hk, Nat.shiftLeft_eq,
    Nat.mod_eq_of_lt hy, Nat.or_comm, Nat.mul_comm, ← Nat.two_pow_add_eq_or_of_lt hx, Nat.add_comm]

theorem toNat_shiftRight_and {mask : UInt32} {m : ℕ} (hk : k < 32)
    (hmask : mask.toNat = 2 ^ m - 1) :
    ((x >>> UInt32.ofNat k) &&& mask).toNat = x.toNat / 2 ^ k % 2 ^ m := by
  rw [UInt32.toNat_and, UInt32.toNat_shiftRight, toNat_ofNat_mod hk, Nat.shiftRight_eq_div_pow,
    hmask,
    Nat.and_two_pow_sub_one_eq_mod]

/-- `n` fields of `w` bits, the first the lowest. -/
def packFields (w : ℕ) (field : ℕ → UInt32) (n : ℕ) : UInt32 :=
  (List.range n).foldl (fun x p => x ||| field p <<< UInt32.ofNat (w * p)) 0

@[simp] theorem packFields_zero : packFields w field 0 = 0 := rfl

theorem packFields_succ : packFields w field (n + 1) =
    packFields w field n ||| field n <<< UInt32.ofNat (w * n) := by
  rw [packFields, range_succ, foldl_append]
  rfl

theorem digits_add {x y : ℕ} (hx : x < 2 ^ (w * n)) (hy : y < 2 ^ w) :
    x + y * 2 ^ (w * n) < 2 ^ (w * (n + 1)) ∧
      (x + y * 2 ^ (w * n)) / 2 ^ (w * n) % 2 ^ w = y ∧
      ∀ p < n, (x + y * 2 ^ (w * n)) / 2 ^ (w * p) % 2 ^ w = x / 2 ^ (w * p) % 2 ^ w := by
  have hpos : ∀ m, 0 < 2 ^ (w * m) := fun m => Nat.two_pow_pos _
  refine ⟨?_, ?_, fun p hp => ?_⟩
  · calc x + y * 2 ^ (w * n) < 2 ^ (w * n) + y * 2 ^ (w * n) := Nat.add_lt_add_right hx _
      _ = (y + 1) * 2 ^ (w * n) := by rw [Nat.succ_mul, Nat.add_comm]
      _ ≤ 2 ^ w * 2 ^ (w * n) := Nat.mul_le_mul_right _ hy
      _ = 2 ^ (w * (n + 1)) := by rw [← Nat.pow_add, Nat.mul_succ, Nat.add_comm]
  · rw [Nat.add_mul_div_right _ _ (hpos n), Nat.div_eq_of_lt hx, Nat.zero_add, Nat.mod_eq_of_lt hy]
  · have hsplit : y * 2 ^ (w * n) = y * 2 ^ (w * (n - p - 1)) * 2 ^ w * 2 ^ (w * p) := by
      have hexp : w * n = w * (n - p - 1) + w + w * p := by
        rw [← Nat.mul_succ, ← Nat.mul_add]
        congr 1
        omega
      rw [hexp, Nat.pow_add, Nat.pow_add]
      ring
    rw [hsplit, Nat.add_mul_div_right _ _ (hpos p), Nat.add_mul_mod_self_right]

theorem toNat_packFields (hw : 0 < w) : ∀ {n : ℕ}, (∀ p < n, (field p).toNat < 2 ^ w) →
    w * n ≤ 32 → (packFields w field n).toNat < 2 ^ (w * n) ∧
      ∀ p < n, (packFields w field n).toNat / 2 ^ (w * p) % 2 ^ w = (field p).toNat
  | 0, _, _ => ⟨by simp, fun p hp => absurd hp (Nat.not_lt_zero p)⟩
  | n + 1, hfield, hn => by
    have hlast := hfield n (Nat.lt_succ_self n)
    obtain ⟨hlt, hdigits⟩ := toNat_packFields hw (fun p hp => hfield p (Nat.lt_succ_of_lt hp))
      (le_trans (Nat.mul_le_mul_left w (Nat.le_succ n)) hn)
    obtain ⟨hnext, htop, hkept⟩ := digits_add hlt hlast
    rw [Nat.mul_succ] at hn
    have hfits : (field n).toNat * 2 ^ (w * n) < 2 ^ 32 := by
      calc (field n).toNat * 2 ^ (w * n) < 2 ^ w * 2 ^ (w * n) :=
            Nat.mul_lt_mul_of_pos_right hlast (Nat.two_pow_pos _)
        _ = 2 ^ (w * n + w) := by rw [← Nat.pow_add, Nat.add_comm]
        _ ≤ 2 ^ 32 := Nat.pow_le_pow_right (by decide) hn
    rw [packFields_succ, toNat_or_shiftLeft hlt (by omega) hfits]
    refine ⟨hnext, fun p hp => ?_⟩
    rcases Nat.lt_succ_iff_lt_or_eq.1 hp with hp | rfl
    · rw [hkept p hp, hdigits p hp]
    · exact htop

theorem field_packFields (hw : 0 < w) (hfield : ∀ p < n, (field p).toNat < 2 ^ w) (hn : w * n ≤ 32)
    {mask : UInt32} (hmask : mask.toNat = 2 ^ w - 1) (hp : p < n) :
    (packFields w field n >>> UInt32.ofNat (w * p)) &&& mask = field p := by
  have hlt : w * p < 32 := by
    have hle : w * (p + 1) ≤ w * n := Nat.mul_le_mul_left w hp
    rw [Nat.mul_succ] at hle
    omega
  refine UInt32.toNat_inj.1 ?_
  rw [toNat_shiftRight_and hlt hmask, (toNat_packFields hw hfield hn).2 p hp]

/-- `words[i / 8] |= x << ((i % 8) * 4)` -/
def orNibble (words : List UInt32) (i : ℕ) (x : UInt32) : List UInt32 :=
  words.modify (i / 8) (· ||| x <<< UInt32.ofNat (i % 8 * 4))

/-- `(words[i / 8] >> ((i % 8) * 4)) & 0xF` -/
def nibbleAt (words : List UInt32) (i : ℕ) : UInt32 :=
  (words.getD (i / 8) 0 >>> UInt32.ofNat (i % 8 * 4)) &&& 0x0F

/-- `m` words when the first `n` nibbles have been put in. -/
def nibbleWords (field : ℕ → UInt32) (m n : ℕ) : List UInt32 :=
  (List.range m).map fun j => packFields 4 (fun p => field (8 * j + p)) (min 8 (n - 8 * j))

@[simp] theorem length_nibbleWords (m : ℕ) : (nibbleWords field m n).length = m := by
  simp [nibbleWords]

theorem orNibble_nibbleWords (m : ℕ) :
    orNibble (nibbleWords field m n) n (field n) = nibbleWords field m (n + 1) := by
  refine ext_getElem? fun j => ?_
  rw [orNibble, nibbleWords, nibbleWords, getElem?_modify, getElem?_map,
    getElem?_map]
  rcases Nat.lt_or_ge j m with hj | hj
  · rw [getElem?_range hj]
    rcases eq_or_ne (n / 8) j with rfl | hne
    · -- the word of the nibble takes one more
      have hmin : min 8 (n + 1 - 8 * (n / 8)) = min 8 (n - 8 * (n / 8)) + 1 := by omega
      have hlen : min 8 (n - 8 * (n / 8)) = n % 8 := by omega
      simp only [Option.map_eq_map, Option.map_some, if_true]
      rw [hmin, packFields_succ, hlen, Nat.div_add_mod, Nat.mul_comm 4]
    · have hmin : min 8 (n + 1 - 8 * j) = min 8 (n - 8 * j) := by omega
      simp only [Option.map_eq_map, Option.map_some, if_neg hne, hmin]
  · rw [getElem?_eq_none (by rwa [length_range])]
    rfl

theorem foldl_orNibble (field : ℕ → UInt32) (m : ℕ) : ∀ n,
    (List.range n).foldl (fun words i => orNibble words i (field i)) (List.replicate m 0) =
      nibbleWords field m n
  | 0 => by
    refine ext_getElem? fun j => ?_
    rcases Nat.lt_or_ge j m with hj | hj
    · rw [nibbleWords, getElem?_map, getElem?_range hj]
      simp [hj]
    · rw [getElem?_eq_none (by simpa using hj), getElem?_eq_none (by simpa using hj)]
  | n + 1 => by
    rw [range_succ, foldl_append, foldl_orNibble field m n]
    exact orNibble_nibbleWords m

theorem nibbleAt_nibbleWords {m : ℕ} (hfield : ∀ i, (field i).toNat < 2 ^ 4) (hi : i < 8 * m) :
    nibbleAt (nibbleWords field m (8 * m)) i = field i := by
  have hj : i / 8 < m := by omega
  have hfull : min 8 (8 * m - 8 * (i / 8)) = 8 := by omega
  have hword : (nibbleWords field m (8 * m)).getD (i / 8) 0 =
      packFields 4 (fun p => field (8 * (i / 8) + p)) 8 := by
    rw [nibbleWords, getD_eq_getElem?_getD, getElem?_map, getElem?_range hj]
    simp only [Option.map_some, Option.getD_some, hfull]
  have hback := field_packFields (show 0 < 4 by decide)
    (fun p (_ : p < 8) => hfield (8 * (i / 8) + p)) (by decide)
    (show (0x0F : UInt32).toNat = 2 ^ 4 - 1 by rfl) (Nat.mod_lt i (show 8 > 0 by decide))
  rw [Nat.div_add_mod] at hback
  rw [nibbleAt, hword, Nat.mul_comm (i % 8), hback]

end Fields

end BitStream
