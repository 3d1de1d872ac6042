import Grim.Lib.BitStream
import Grim.Lib.LittleEndian
import Grim.Lib.Slice
import Grim.Lib.Sweep

/-!
# TreePie

Five bits a weight: the nearest of sixteen magnitudes and a sign.  Of 32 codes the magnitudes fill
four words, eight a word, and the signs a fifth.

A value is a rational, an `i32` its bits, and `none` a failed assertion.
-/

namespace Grim.Quant

open BitStream LittleEndian Slice Sweep List

def e2m2ToFp16Bits (code : UInt8) : UInt16 :=
  let sign := ((code >>> 4) &&& 1).toUInt16
  let exp := (code >>> 2) &&& 3
  let mant := code &&& 3
  let (expField, mant10) : UInt16 × UInt16 :=
    if exp = 0 then
      if mant = 0 then (0, 0)
      else ((14 : UInt16) + (mant >>> 1).toUInt16, ((mant + 1) >>> 2).toUInt16 <<< 9)
    else (exp.toUInt16 + 15, mant.toUInt16 <<< 8)
  sign <<< 15 ||| expField <<< 10 ||| mant10

def f16BitsToF32 (bits : UInt16) : ℚ :=
  let sign : ℚ := if bits &&& 0x8000 ≠ 0 then -1 else 1
  let exp := ((bits >>> 10) &&& 0x1F).toNat
  let mant : ℚ := (bits &&& 0x3FF).toNat
  if exp = 0 then sign * mant * (1 / 1024) * 2 ^ (-14 : ℤ)
  else sign * (1 + mant / 1024) * 2 ^ ((exp : ℤ) - 15)

def e2m2ToF32 (code : UInt8) : ℚ := f16BitsToF32 (e2m2ToFp16Bits code)

structure Scan where
  best : UInt8
  /-- `f32::INFINITY` is `none`. -/
  bestErr : Option ℚ

def Scan.code (s : Scan) (a : ℚ) (code : UInt8) : Scan :=
  let err := |e2m2ToF32 code - a|
  if s.bestErr.all (err < ·) then ⟨code, some err⟩
  else if s.bestErr = some err ∧ code &&& 1 = 0 ∧ s.best &&& 1 ≠ 0 then { s with best := code }
  else s

/-- The scan over the first `n` codes. -/
def scan (a : ℚ) (n : ℕ) : Scan :=
  (List.range n).foldl (fun s code => s.code a (UInt8.ofNat code)) ⟨0, none⟩

def f32ToE2m2 (v : ℚ) : UInt8 :=
  let sign : UInt8 := if v < 0 then 0x10 else 0
  let a := |v|
  if 13 ≤ a then sign ||| 0x0F
  else if a < 1 / 4 then sign
  else sign ||| (scan a 16).best

/-- A value of the block: its nibble goes into the payload and its sign into the fifth word. -/
def packValue (values : List ℚ) (acc : List UInt32 × UInt32) (i : ℕ) : List UInt32 × UInt32 :=
  let code := f32ToE2m2 (values.getD i 0)
  (orNibble acc.1 i (code &&& 0x0F).toUInt32,
    if code &&& 0x10 ≠ 0 then acc.2 ||| (1 : UInt32) <<< UInt32.ofNat i else acc.2)

def packTreePie32 (values : List ℚ) : List UInt32 :=
  let acc := (List.range 32).foldl (packValue values) (List.replicate 4 0, 0)
  acc.1 ++ [acc.2]

def unpackTreePie32 (packed : List UInt32) : List ℚ :=
  let signs := packed.getD 4 0
  (List.range 32).map fun i =>
    let nibble := nibbleAt packed i
    let sign := ((signs >>> UInt32.ofNat i) &&& 1) <<< 4
    e2m2ToF32 (nibble.toUInt8 ||| sign.toUInt8)

def packTreePieBytes (values : List ℚ) : Option (List UInt8) :=
  if values.length % 32 ≠ 0 then none
  else
    some ((List.range (values.length / 32)).flatMap fun g =>
      words (packTreePie32 (slice values (g * 32) 32)))

def dequantTreePieBytes (raw : List UInt8) (n : ℕ) : Option (List ℚ) :=
  if n % 32 ≠ 0 then none
  else if raw.length ≠ n / 32 * 5 * 4 then none
  else
    some ((List.range (n / 32)).flatMap fun g =>
      unpackTreePie32 ((List.range 5).map fun w => ofWord (slice raw ((g * 5 + w) * 4) 4)))

/-- `c` is the nearest of the first `n` points, and even if another is as near. -/
structure NearestEven (grid : ℕ → ℚ) (n : ℕ) (a : ℚ) (c : ℕ) : Prop where
  lt : c < n
  least : ∀ d < n, |grid c - a| ≤ |grid d - a|
  even_of_tie : ∀ d < n, d ≠ c → |grid d - a| = |grid c - a| → c % 2 = 0

section Grid

variable {grid : ℕ → ℚ} {n c d : ℕ} {a x y z : ℚ}

theorem abs_lt_of_between (hxy : x < y) (hyz : y < z) (htie : |x - a| = |z - a|) :
    |y - a| < |x - a| := by
  rcases abs_eq_abs.1 htie with h | h
  · linarith
  · have ha : a = (x + z) / 2 := by linarith
    rw [abs_of_nonpos (by linarith : x - a ≤ 0), abs_lt]
    constructor <;> linarith

theorem NearestEven.first (grid : ℕ → ℚ) (a : ℚ) : NearestEven grid 1 a 0 where
  lt := Nat.one_pos
  least := fun d hd => by rw [Nat.lt_one_iff.1 hd]
  even_of_tie := fun d hd hne => absurd (Nat.lt_one_iff.1 hd) hne

theorem NearestEven.nearer (h : NearestEven grid n a c) (hlt : |grid n - a| < |grid c - a|) :
    NearestEven grid (n + 1) a n where
  lt := Nat.lt_succ_self n
  least := fun d hd => by
    rcases Nat.lt_succ_iff_lt_or_eq.1 hd with hd | rfl
    · exact hlt.le.trans (h.least d hd)
    · exact le_rfl
  even_of_tie := fun d hd hne htie => by
    have hd : d < n := lt_of_le_of_ne (Nat.lt_succ_iff.1 hd) hne
    exact absurd (h.least d hd) (not_le.2 (htie ▸ hlt))

theorem NearestEven.farther (h : NearestEven grid n a c) (hlt : |grid c - a| < |grid n - a|) :
    NearestEven grid (n + 1) a c where
  lt := Nat.lt_succ_of_lt h.lt
  least := fun d hd => by
    rcases Nat.lt_succ_iff_lt_or_eq.1 hd with hd | rfl
    · exact h.least d hd
    · exact hlt.le
  even_of_tie := fun d hd hne htie => by
    rcases Nat.lt_succ_iff_lt_or_eq.1 hd with hd | rfl
    · exact h.even_of_tie d hd hne htie
    · exact absurd htie hlt.ne'

theorem NearestEven.tie (h : NearestEven grid n a c)
    (hmono : ∀ i j, i < j → j ≤ n → grid i < grid j) (htie : |grid n - a| = |grid c - a|) :
    NearestEven grid (n + 1) a (if n % 2 = 0 ∧ c % 2 ≠ 0 then n else c) := by
  have hnext : n = c + 1 := by
    by_contra hne
    have hbetween : c + 1 < n := by
      have := h.lt
      omega
    have hnear := abs_lt_of_between (hmono c (c + 1) (Nat.lt_succ_self c) hbetween.le)
      (hmono (c + 1) n hbetween le_rfl) htie.symm
    exact absurd (h.least (c + 1) hbetween) (not_le.2 hnear)
  have hleast : ∀ d < n + 1, |grid c - a| ≤ |grid d - a| := fun d hd => by
    rcases Nat.lt_succ_iff_lt_or_eq.1 hd with hd | rfl
    · exact h.least d hd
    · exact htie.ge
  split_ifs with heven
  · exact ⟨Nat.lt_succ_self n, fun d hd => htie ▸ hleast d hd, fun _ _ _ _ => heven.1⟩
  · exact ⟨Nat.lt_succ_of_lt h.lt, hleast, fun _ _ _ _ => by omega⟩

end Grid

section Values

variable {a v : ℚ} {c n : ℕ}

/-- `e == 0 : m / 2`, `e >= 1 : (1 + m/4) * 2^e` -/
def gridPoint (c : ℕ) : ℚ :=
  if c / 4 = 0 then (c % 4 : ℕ) / 2 else (1 + (c % 4 : ℕ) / 4) * 2 ^ (c / 4)

def signOf (v : ℚ) : ℚ := if v < 0 then -1 else 1

theorem gridPoint_lt : ∀ i j : ℕ, i < j → j < 16 → gridPoint i < gridPoint j := by
  have hgrid : ∀ j < 16, ∀ i < j, gridPoint i < gridPoint j := by decide +kernel
  exact fun i j hij hj => hgrid j hj i hij

theorem e2m2ToF32_code {c : ℕ} (hc : c < 16) : e2m2ToF32 (UInt8.ofNat c) = gridPoint c := by
  revert c
  decide +kernel

theorem e2m2ToF32_negative {c : ℕ} (hc : c < 16) :
    e2m2ToF32 (0x10 ||| UInt8.ofNat c) = -gridPoint c := by
  revert c
  decide +kernel

/-- The state of the scan when it has seen `n` codes. -/
structure Scan.At (s : Scan) (a : ℚ) (n c : ℕ) : Prop where
  best : s.best = UInt8.ofNat c
  bestErr : s.bestErr = some |gridPoint c - a|
  nearest : NearestEven gridPoint n a c

theorem odd_iff (hc : c < 16) : UInt8.ofNat c &&& 1 ≠ 0 ↔ c % 2 ≠ 0 := by
  revert c
  decide

theorem scan_at (a : ℚ) : ∀ {n : ℕ}, n < 16 → ∃ c, (scan a (n + 1)).At a (n + 1) c
  | 0, _ => by
    refine ⟨0, rfl, ?_, .first gridPoint a⟩
    change some |e2m2ToF32 (UInt8.ofNat 0) - a| = _
    rw [e2m2ToF32_code (by decide)]
  | n + 1, hn => by
    obtain ⟨c, hbest, herr, hnearest⟩ := scan_at a (Nat.lt_of_succ_lt hn)
    have hstep : scan a (n + 1 + 1) = (scan a (n + 1)).code a (UInt8.ofNat (n + 1)) := by
      rw [scan, range_succ, foldl_append]
      rfl
    have hc : c < 16 := hnearest.lt.trans hn
    rw [hstep, Scan.code, e2m2ToF32_code hn, herr, hbest]
    rcases lt_trichotomy |gridPoint (n + 1) - a| |gridPoint c - a| with hlt | htie | hlt
    · rw [if_pos (by simpa using hlt)]
      exact ⟨n + 1, rfl, rfl, hnearest.nearer hlt⟩
    · have hkeep := hnearest.tie (fun i j hij hj => gridPoint_lt i j hij (hj.trans_lt hn)) htie
      rw [if_neg (by simp [htie])]
      by_cases heven : (n + 1) % 2 = 0 ∧ c % 2 ≠ 0
      · rw [if_pos ⟨by rw [htie], not_not.1 fun h => (odd_iff hn).1 h heven.1,
          (odd_iff hc).2 heven.2⟩]
        rw [if_pos heven] at hkeep
        exact ⟨n + 1, rfl, by rw [htie], hkeep⟩
      · rw [if_neg fun h => heven ⟨not_not.1 fun hodd => (odd_iff hn).2 hodd h.2.1,
          (odd_iff hc).1 h.2.2⟩]
        rw [if_neg heven] at hkeep
        exact ⟨c, hbest, herr, hkeep⟩
    · rw [if_neg (by simpa using hlt.le), if_neg fun h => hlt.ne (Option.some.inj h.1)]
      exact ⟨c, hbest, herr, hnearest.farther hlt⟩

theorem nearest_of_small (h0 : 0 ≤ a) (ha : a < 1 / 4) : NearestEven gridPoint 16 a 0 := by
  have hfirst : gridPoint 0 = 0 := by decide +kernel
  have hfar : ∀ d < 16, d ≠ 0 → |gridPoint 0 - a| < |gridPoint d - a| := fun d hd hne => by
    have hhalf : (1 / 2 : ℚ) ≤ gridPoint d := by
      have hone : gridPoint 1 = 1 / 2 := by decide +kernel
      rcases Nat.lt_or_ge 1 d with hlt | hle
      · exact hone ▸ (gridPoint_lt 1 d hlt hd).le
      · obtain rfl : d = 1 := by omega
        exact hone.ge
    rw [hfirst, zero_sub, abs_neg, abs_of_nonneg h0, abs_of_nonneg (by linarith)]
    linarith
  refine ⟨by decide, fun d hd => ?_, fun d hd hne htie => absurd htie (hfar d hd hne).ne'⟩
  rcases eq_or_ne d 0 with rfl | hne
  · exact le_rfl
  · exact (hfar d hd hne).le

theorem nearest_of_large (ha : 13 < a) : NearestEven gridPoint 16 a 15 := by
  have hlast : gridPoint 15 = 14 := by decide +kernel
  have hfar : ∀ d < 16, d ≠ 15 → |gridPoint 15 - a| < |gridPoint d - a| := fun d hd hne => by
    have htwelve : gridPoint d ≤ 12 := by
      have hprev : gridPoint 14 = 12 := by decide +kernel
      rcases Nat.lt_or_ge d 14 with hlt | hge
      · exact hprev ▸ (gridPoint_lt d 14 hlt (by decide)).le
      · obtain rfl : d = 14 := by omega
        exact hprev.le
    rw [hlast, abs_of_nonpos (by linarith : gridPoint d - a ≤ 0), abs_lt]
    constructor <;> linarith
  refine ⟨by decide, fun d hd => ?_, fun d hd hne htie => absurd htie (hfar d hd hne).ne'⟩
  rcases eq_or_ne d 15 with rfl | hne
  · exact le_rfl
  · exact (hfar d hd hne).le

theorem f32ToE2m2_eq (v : ℚ) : ∃ c < 16,
    f32ToE2m2 v = (if v < 0 then 0x10 else 0) ||| UInt8.ofNat c ∧
      (|v| ≠ 13 → NearestEven gridPoint 16 |v| c) ∧ (|v| = 13 → c = 15) := by
  rw [f32ToE2m2]
  by_cases hlarge : 13 ≤ |v|
  · refine ⟨15, by decide, if_pos hlarge, fun hne => ?_, fun _ => rfl⟩
    exact nearest_of_large (lt_of_le_of_ne hlarge hne.symm)
  · rw [if_neg hlarge]
    have hne : |v| = 13 → False := fun h => hlarge h.ge
    by_cases hsmall : |v| < 1 / 4
    · refine ⟨0, by decide, ?_, fun _ => nearest_of_small (abs_nonneg v) hsmall, fun h =>
        (hne h).elim⟩
      rw [if_pos hsmall]
      exact UInt8.or_zero.symm
    · obtain ⟨c, hbest, -, hnearest⟩ := scan_at |v| (show 15 < 16 by decide)
      refine ⟨c, hnearest.lt, ?_, fun _ => hnearest, fun h => (hne h).elim⟩
      rw [if_neg hsmall]
      exact congrArg _ hbest

/-- The nearest point of the grid, of two the one with the even mantissa, with the value's sign. -/
def Rounded (v x : ℚ) : Prop := ∃ c, NearestEven gridPoint 16 |v| c ∧ x = signOf v * gridPoint c

theorem e2m2ToF32_signed (hc : c < 16) :
    e2m2ToF32 ((if v < 0 then 0x10 else 0) ||| UInt8.ofNat c) = signOf v * gridPoint c := by
  rw [signOf]
  split_ifs with hneg
  · rw [e2m2ToF32_negative hc, neg_one_mul]
  · rw [UInt8.zero_or, e2m2ToF32_code hc, one_mul]

theorem rounded_iff (v : ℚ) : Rounded v (e2m2ToF32 (f32ToE2m2 v)) ↔ |v| ≠ 13 := by
  obtain ⟨c, hc, hcode, hnearest, hlast⟩ := f32ToE2m2_eq v
  rw [hcode, e2m2ToF32_signed hc]
  constructor
  · rintro ⟨d, hd, hpoint⟩ htie
    obtain rfl := hlast htie
    have hsign : signOf v ≠ 0 := by
      rw [signOf]
      split_ifs <;> norm_num
    have heq : gridPoint 15 = gridPoint d := mul_left_cancel₀ hsign hpoint
    obtain rfl : d = 15 := by
      by_contra hne
      exact (gridPoint_lt d 15 (by have := hd.lt; omega) (by decide)).ne heq.symm
    have heven := hd.even_of_tie 14 (by decide) (by decide) (by rw [htie]; decide +kernel)
    exact absurd heven (by decide)
  · exact fun hne => ⟨c, hnearest hne, rfl⟩

end Values

section Blocks

variable {values : List ℚ} {n i : ℕ}

def codeOf (values : List ℚ) (i : ℕ) : UInt8 := f32ToE2m2 (values.getD i 0)

def nibbleOf (values : List ℚ) (i : ℕ) : UInt32 := (codeOf values i &&& 0x0F).toUInt32

def signBit (values : List ℚ) (i : ℕ) : UInt32 := if codeOf values i &&& 0x10 ≠ 0 then 1 else 0

theorem codeOf_lt (values : List ℚ) (i : ℕ) : (codeOf values i).toNat < 32 := by
  obtain ⟨c, hc, hcode, -, -⟩ := f32ToE2m2_eq (values.getD i 0)
  rw [codeOf, hcode]
  split_ifs
  · clear hcode
    revert c
    decide
  · rw [UInt8.zero_or, UInt8.toNat_ofNat']
    omega

theorem toNat_nibbleOf (values : List ℚ) (i : ℕ) : (nibbleOf values i).toNat < 2 ^ 4 := by
  rw [nibbleOf, UInt8.toNat_toUInt32, UInt8.toNat_and]
  exact Nat.and_lt_two_pow _ (by decide)

theorem toNat_signBit (values : List ℚ) (i : ℕ) : (signBit values i).toNat < 2 ^ 1 := by
  rw [signBit]
  split_ifs <;> decide

theorem nibble_or_sign (values : List ℚ) (i : ℕ) :
    (nibbleOf values i).toUInt8 ||| (signBit values i <<< 4).toUInt8 = codeOf values i := by
  have hcodes : ∀ n < 32, ((UInt8.ofNat n &&& 0x0F).toUInt32).toUInt8 |||
      ((if UInt8.ofNat n &&& 0x10 ≠ 0 then 1 else 0 : UInt32) <<< 4).toUInt8 = UInt8.ofNat n := by
    decide
  have hcode := hcodes _ (codeOf_lt values i)
  rwa [UInt8.ofNat_toNat] at hcode

theorem foldl_packValue (values : List ℚ) : ∀ n,
    (List.range n).foldl (packValue values) (List.replicate 4 0, 0) =
      (nibbleWords (nibbleOf values) 4 n, packFields 1 (signBit values) n)
  | 0 => by
    rw [packFields_zero, ← foldl_orNibble]
    rfl
  | n + 1 => by
    rw [range_succ, foldl_append, foldl_packValue values n, foldl_cons,
      foldl_nil, packValue, ← codeOf, ← nibbleOf, orNibble_nibbleWords, packFields_succ, signBit,
      Nat.one_mul]
    split_ifs
    · rfl
    · rw [UInt32.zero_shiftLeft, UInt32.or_zero]

theorem packTreePie32_eq (values : List ℚ) : packTreePie32 values =
    nibbleWords (nibbleOf values) 4 32 ++ [packFields 1 (signBit values) 32] := by
  rw [packTreePie32, foldl_packValue]

theorem length_packTreePie32 (values : List ℚ) : (packTreePie32 values).length = 5 := by
  rw [packTreePie32_eq, length_append, length_nibbleWords]
  rfl

theorem unpack_packTreePie32 (values : List ℚ) : unpackTreePie32 (packTreePie32 values) =
    (List.range 32).map fun i => e2m2ToF32 (codeOf values i) := by
  refine map_congr_left fun i hi => ?_
  rw [mem_range] at hi
  have hpayload : nibbleAt (packTreePie32 values) i = nibbleOf values i := by
    have hback := @nibbleAt_nibbleWords i (nibbleOf values) 4 (toNat_nibbleOf values) hi
    rw [← hback, nibbleAt, nibbleAt, packTreePie32_eq, getD_append _ _ _ _
      (by rw [length_nibbleWords]; omega)]
  have hsigns : (packTreePie32 values).getD 4 0 = packFields 1 (signBit values) 32 := by
    rw [packTreePie32_eq]
    rfl
  have hsign := field_packFields (show 0 < 1 by decide)
    (fun p (_ : p < 32) => toNat_signBit values p) (by decide)
    (show (1 : UInt32).toNat = 2 ^ 1 - 1 by rfl) hi
  rw [Nat.one_mul] at hsign
  simp only [hpayload, hsigns, hsign, nibble_or_sign]

end Blocks

section Bytes

variable {values : List ℚ} {i g : ℕ}

theorem slice_words {xs : List UInt32} {x : UInt32} (h : xs[i]? = some x) :
    slice (words xs) (i * 4) 4 = word x := by
  obtain ⟨hi, rfl⟩ := List.getElem?_eq_some_iff.1 h
  have hsplit : words xs = words (xs.take i) ++ word xs[i] ++ words (xs.drop (i + 1)) := by
    conv_lhs => rw [← take_append_drop i xs, drop_eq_getElem_cons hi]
    rw [words_append, words_cons, append_assoc]
  rw [hsplit]
  exact slice_append (by rw [length_words, length_take]; omega) (length_word _)

def allWords (values : List ℚ) : List UInt32 :=
  (List.range (values.length / 32)).flatMap fun g => packTreePie32 (slice values (g * 32) 32)

theorem packTreePieBytes_eq (h : values.length % 32 = 0) :
    packTreePieBytes values = some (words (allWords values)) := by
  rw [packTreePieBytes, if_neg (not_not.2 h), words, allWords, flatMap_assoc]
  rfl

theorem length_allWords : (allWords values).length = values.length / 32 * 5 :=
  length_flatMap_range (fun _ => length_packTreePie32 _) _

theorem block_eq (hg : g < values.length / 32) :
    ((List.range 5).map fun w => ofWord (slice (words (allWords values)) ((g * 5 + w) * 4) 4)) =
      packTreePie32 (slice values (g * 32) 32) := by
  have hlen := length_packTreePie32 (slice values (g * 32) 32)
  refine ext_getElem? fun w => ?_
  rcases Nat.lt_or_ge w 5 with hw | hw
  · obtain ⟨x, hword⟩ : ∃ x, (packTreePie32 (slice values (g * 32) 32))[w]? = some x :=
      ⟨_, getElem?_eq_getElem (hlen.symm ▸ hw)⟩
    have hall : (allWords values)[g * 5 + w]? = some x := by
      rw [allWords, getElem?_flatMap_range (fun _ => length_packTreePie32 _) hw hg, hword]
    rw [getElem?_map, getElem?_range hw, hword, Option.map_some, slice_words hall,
      ofWord_word]
  · rw [getElem?_eq_none (by simpa using hw), getElem?_eq_none (by rw [hlen]; exact hw)]

theorem dequantTreePieBytes_eq (h : values.length % 32 = 0) :
    dequantTreePieBytes (words (allWords values)) values.length =
      some (values.map fun v => e2m2ToF32 (f32ToE2m2 v)) := by
  have hlen : (words (allWords values)).length = values.length / 32 * 5 * 4 := by
    rw [length_words, length_allWords]
  rw [dequantTreePieBytes, if_neg (not_not.2 h), if_neg (not_not.2 hlen)]
  refine congrArg some (ext_getElem? fun i => ?_)
  have hblock : ((List.range (values.length / 32)).flatMap fun g => unpackTreePie32
      ((List.range 5).map fun w => ofWord (slice (words (allWords values)) ((g * 5 + w) * 4) 4))) =
      (List.range (values.length / 32)).flatMap fun g =>
        (List.range 32).map fun i => e2m2ToF32 (codeOf (slice values (g * 32) 32) i) :=
    flatMap_congr fun g hg => by
      rw [block_eq (mem_range.1 hg), unpack_packTreePie32]
  have hpiece : ∀ g, ((List.range 32).map fun i =>
      e2m2ToF32 (codeOf (slice values (g * 32) 32) i)).length = 32 := fun g => by
    rw [length_map, length_range]
  rw [hblock, getElem?_map]
  rcases Nat.lt_or_ge i values.length with hi | hi
  · have hi' : i % 32 < 32 := Nat.mod_lt i (by decide)
    have hplace : i / 32 * 32 + i % 32 = i := Nat.div_add_mod' i 32
    have hslot := getElem?_flatMap_range hpiece hi' (show i / 32 < values.length / 32 by omega)
    rw [hplace] at hslot
    rw [hslot, getElem?_map, getElem?_range hi', getElem?_eq_getElem hi,
      Option.map_some, codeOf, slice, getD_eq_getElem?_getD, getElem?_take_of_lt hi', getElem?_drop,
        hplace,
      getElem?_eq_getElem hi]
    rfl
  · rw [getElem?_eq_none (by rw [length_flatMap_range hpiece]; omega),
      getElem?_eq_none hi]
    rfl

/-- Packing and unpacking round every value to the nearest point, to the even one on a tie, exactly
where no value is `13` or `-13`. -/
theorem dequantTreePieBytes_rounded_iff (h : values.length % 32 = 0) :
    (∃ raw out, packTreePieBytes values = some raw ∧
      dequantTreePieBytes raw values.length = some out ∧ out.length = values.length ∧
      ∀ (i : ℕ) v, values[i]? = some v → ∃ x, out[i]? = some x ∧ Rounded v x) ↔
    ∀ v ∈ values, |v| ≠ 13 := by
  constructor
  · rintro ⟨raw, out, hraw, hout, -, hall⟩ v hv
    obtain rfl := Option.some.inj ((packTreePieBytes_eq h).symm.trans hraw)
    obtain rfl := Option.some.inj ((dequantTreePieBytes_eq h).symm.trans hout)
    obtain ⟨i, hi⟩ := mem_iff_getElem?.1 hv
    obtain ⟨x, hx, hrounded⟩ := hall i v hi
    rw [getElem?_map, hi] at hx
    obtain rfl := Option.some.inj hx
    exact (rounded_iff v).1 hrounded
  · intro hne
    refine ⟨_, _, packTreePieBytes_eq h, dequantTreePieBytes_eq h, length_map _, fun i v hi =>
      ⟨_, ?_, (rounded_iff v).2 (hne v (mem_of_getElem? hi))⟩⟩
    rw [getElem?_map, hi]
    rfl

def mixedBlock : List ℚ := (List.replicate 8 [1, -3, 5 / 2, 1 / 3]).flatten

theorem dequantTreePieBytes_rounded_iff_mixed :
    ∃ raw out, packTreePieBytes mixedBlock = some raw ∧
      dequantTreePieBytes raw mixedBlock.length = some out ∧ out.length = mixedBlock.length ∧
      ∀ (i : ℕ) v, mixedBlock[i]? = some v → ∃ x, out[i]? = some x ∧ Rounded v x :=
  (dequantTreePieBytes_rounded_iff (by decide)).2 (by decide +kernel)

/-- The midpoint of 12 and 14 goes to 14, whose mantissa is odd. -/
theorem thirteen_to_fourteen :
    ¬ ∀ values : List ℚ, values.length % 32 = 0 → ∃ raw out, packTreePieBytes values = some raw ∧
      dequantTreePieBytes raw values.length = some out ∧
      ∀ (i : ℕ) v, values[i]? = some v → ∃ x, out[i]? = some x ∧ Rounded v x := by
  intro h
  obtain ⟨raw, out, hraw, hout, hall⟩ := h (List.replicate 32 13) rfl
  obtain rfl := Option.some.inj ((packTreePieBytes_eq rfl).symm.trans hraw)
  obtain rfl := Option.some.inj ((dequantTreePieBytes_eq rfl).symm.trans hout)
  obtain ⟨x, hx, hrounded⟩ := hall 0 13 rfl
  obtain rfl := Option.some.inj hx
  exact (rounded_iff 13).1 hrounded (by norm_num)

end Bytes

end Grim.Quant
