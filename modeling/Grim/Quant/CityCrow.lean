import Grim.Lib.BitStream
import Grim.Lib.FloatNat
import Grim.Lib.Folds
import Grim.Lib.LittleEndian
import Grim.Lib.Slice
import Grim.Lib.Sweep
import Grim.Quant.Fp8

/-!
# Four-bit lanes

`repack_to_u4_lanes` takes the two-bit blocks of a weight to lanes of four bits: of two blocks it
makes a group of 128 codes with a step of its own.

A weight and a step are rationals.  `none` is a panic, or a block whose scale is no number.
`GRIM_GSQ_BIAS` is the parameter `env`.
-/

namespace Grim.Quant

open BitStream LittleEndian FloatFormat Slice Sweep List
open Float.Model.UnpackedFloat

def blockSizeQ20 : ℕ := 64

def blockBytesQ20 : ℕ := 18

/-- The bits of the `f32`. -/
def f16ToF32 (lo hi : UInt8) : UInt32 :=
  let bits := UInt16.ofNat (value [lo, hi])
  let sign := (bits >>> 15).toUInt32
  let exp := ((bits >>> 10) &&& 0x1F).toUInt32
  let mant := (bits &&& 0x3FF).toUInt32
  if exp = 0 then
    -- `2f32.powi(-24)`
    let value := f32Op mul (f32OfInt mant.toNat) 0x33800000
    if sign ≠ 0 then f32Neg value else value
  else if exp = 31 then sign <<< 31 ||| (0x7F800000 : UInt32) ||| mant <<< 13
  else sign <<< 31 ||| (exp + 112) <<< 23 ||| mant <<< 13

def blockScale (data : List UInt8) (b : ℕ) : Option ℚ :=
  f32Value (f16ToF32 (data.getD (b * blockBytesQ20) 0) (data.getD (b * blockBytesQ20 + 1) 0))

def blockCode (data : List UInt8) (b j : ℕ) : UInt8 :=
  let qs := slice data (b * blockBytesQ20 + 2) 16
  (qs.getD (j / 4) 0 >>> UInt8.ofNat (j % 4 * 2)) &&& 0x03

def dequant2bitBlocks (data : List UInt8) (numWeights : ℕ) (label : String) (bias : ℚ) :
    Option (Except String (List ℚ)) :=
  if numWeights = 0 then some (.ok [])
  else if numWeights % blockSizeQ20 ≠ 0 then
    some (.error
      s!"dequant_{label}: {numWeights} weights is not a multiple of block size {blockSizeQ20}")
  else
    let numBlocks := numWeights / blockSizeQ20
    let expectedBytes := numBlocks * blockBytesQ20
    if data.length < expectedBytes then
      let have_ := data.length
      some (.error s!"dequant_{label}: buffer too short: expected {expectedBytes}, have {have_}")
    else
      ((List.range numBlocks).foldlM
        (fun out b => do
          let d ← blockScale data b
          pure (out ++ (List.range blockSizeQ20).map fun j =>
            ((blockCode data b j).toNat - bias) * d))
        []).map .ok

/-- `GRIM_GSQ_BIAS` -/
def gsqBias (env : Option String) : ℚ := if env = some "1" then 1 else 2

def dequantGsqRco3p5 (env : Option String) (data : List UInt8) (numWeights : ℕ) :
    Option (Except String (List ℚ)) :=
  dequant2bitBlocks data numWeights "gsq_rco_3p5" (gsqBias env)

inductive KQuantScheme
  | q2K | q3K | q4K | q5K | q6K | q80 | iq4NL | iq4XS | iq3XXS | iq3S | iq2XXS | iq2XS | iq2S | q2_0
  | gsqRco3p5 | iq1S | iq1M
deriving DecidableEq, Repr

/-- `{scheme:?}` -/
def KQuantScheme.debug : KQuantScheme → String
  | .q2K => "Q2K"
  | .q3K => "Q3K"
  | .q4K => "Q4K"
  | .q5K => "Q5K"
  | .q6K => "Q6K"
  | .q80 => "Q80"
  | .iq4NL => "IQ4NL"
  | .iq4XS => "IQ4XS"
  | .iq3XXS => "IQ3XXS"
  | .iq3S => "IQ3S"
  | .iq2XXS => "IQ2XXS"
  | .iq2XS => "IQ2XS"
  | .iq2S => "IQ2S"
  | .q2_0 => "Q2_0"
  | .gsqRco3p5 => "GsqRco3p5"
  | .iq1S => "IQ1S"
  | .iq1M => "IQ1M"

def supportedSchemes : String := "GsqRco3p5"

def schemeSupported (scheme : KQuantScheme) : Bool := scheme = .gsqRco3p5

/-- A block of scale `1` whose codes go through `0, 1, 2, 3`. -/
def zeroPointFixture : List UInt8 :=
  [0x00, 0x3C] ++ (List.range 16).map fun j =>
    (List.range 4).foldl
      (fun byte lane => byte ||| UInt8.ofNat ((j * 4 + lane) % 4) <<< UInt8.ofNat (lane * 2)) 0

def zeroPointProbe (env : Option String) : Option UInt8 := do
  let .ok got ← dequantGsqRco3p5 env zeroPointFixture 64 | none
  let c ← (List.range 4).find? fun c => |got.getD c 0| < 1 / 1000
  pure (UInt8.ofNat c)

def citycrowGroup : ℕ := 128

def citycrowWordsPerGroup : ℕ := citycrowGroup / 8

structure CityCrowWeights where
  qweight : List UInt32
  scales : List ℚ
  zeros : List UInt8
  n : ℕ
  k : ℕ

def CityCrowWeights.groups (w : CityCrowWeights) : ℕ := w.k / citycrowGroup

def groupMin (group : List ℚ) : ℚ := group.foldl min 0

def groupMax (group : List ℚ) : ℚ := group.foldl max 0

def amax (group : List ℚ) : ℚ := max |groupMin group| (groupMax group)

def groupStep (zero : UInt8) (group : List ℚ) : ℚ :=
  let below : ℚ := (max zero.toNat 1 : ℕ)
  let above : ℚ := (max (3 - zero.toNat) 1 : ℕ)
  max (max (-groupMin group) 0 / below) (max (groupMax group) 0 / above)

/-- `x as u8` -/
def floorAsU8 (x : ℚ) : UInt8 := UInt8.ofNat (min ⌊x⌋.toNat 255)

def laneCode (zero : UInt8) (scale w : ℚ) : UInt8 :=
  let t := w / scale + zero.toNat
  let code := floorAsU8 (t + 1 / 2)
  if code < 3 then code else 3

def repackGroup (zero : UInt8) (group : List ℚ) : ℚ × List UInt32 :=
  let scale := if 0 < amax group then groupStep zero group else 0
  let words := List.replicate citycrowWordsPerGroup 0
  if amax group = 0 then (scale, words)
  else
    (scale, (List.range citycrowGroup).foldl
      (fun words i => orNibble words i (laneCode zero scale (group.getD i 0)).toUInt32) words)

def repackToU4Lanes (env : Option String) (data : List UInt8) (n k : ℕ) (scheme : KQuantScheme) :
    Option (Except String CityCrowWeights) :=
  if !schemeSupported scheme then
    let scheme := scheme.debug
    some (.error (s!"citycrow: scheme {scheme} is not a 2-bit block format " ++
      s!"(supported: {supportedSchemes})"))
  else if k = 0 ∨ n = 0 then some (.error s!"citycrow: zero-sized weight [{n}, {k}]")
  else if k % citycrowGroup ≠ 0 then
    some (.error s!"citycrow: K={k} must be a multiple of the group size {citycrowGroup}")
  else if 2 ^ 64 ≤ n * k then some (.error s!"citycrow: [{n}, {k}] overflows usize")
  else
    let numWeights := n * k
    let needBlocks := (numWeights + 63) / 64
    let needBytes := needBlocks * 18
    if data.length < needBytes then
      let have_ := data.length
      some (.error (s!"citycrow: buffer too short: expected {needBytes} B for [{n}, {k}] " ++
        s!"({needBlocks} blocks), have {have_}"))
    else do
      match ← dequantGsqRco3p5 env data numWeights with
      | .error e => some (.error e)
      | .ok flat =>
        let groupsPerRow := k / citycrowGroup
        let totalGroups := n * groupsPerRow
        let zero ← zeroPointProbe env
        let lanes ← (List.range totalGroups).mapM fun g =>
          let row := g / groupsPerRow
          let col := g % groupsPerRow * citycrowGroup
          let base := row * k + col
          if base + citycrowGroup ≤ flat.length then
            some (repackGroup zero (slice flat base citycrowGroup))
          else none
        some (.ok ⟨lanes.flatMap Prod.snd, lanes.map Prod.fst, List.replicate totalGroups zero,
          n, k⟩)

/-- A group's part of the loop of `decode_groups`. -/
def decodeGroup (w : CityCrowWeights) (out : List ℚ) (g : ℕ) : Option (List ℚ) := do
  let groupsPerRow := w.groups
  let row := g / groupsPerRow
  let col := g % groupsPerRow * citycrowGroup
  let scale ← w.scales[g]?
  let zero ← w.zeros[g]?
  if w.qweight.length < (g + 1) * citycrowWordsPerGroup then none
  else
    let words := slice w.qweight (g * citycrowWordsPerGroup) citycrowWordsPerGroup
    (List.range citycrowGroup).foldlM
      (fun out i =>
        let code : ℚ := (nibbleAt words i).toNat
        store out (row * w.k + col + i) ((code - zero.toNat) * scale))
      out

def decodeGroups (w : CityCrowWeights) : Option (List ℚ) :=
  (List.range (w.n * w.groups)).foldlM (decodeGroup w) (List.replicate (w.n * w.k) 0)

section Codes

variable {zero : UInt8} {scale w : ℚ}

theorem toNat_laneCode (zero : UInt8) (scale w : ℚ) : (laneCode zero scale w).toNat ≤ 3 := by
  have hmin : ∀ code : UInt8, (if code < 3 then code else 3).toNat ≤ 3 := fun code => by
    split_ifs with h
    · exact Nat.le_of_lt h
    · exact le_rfl
  exact hmin _

theorem laneCode_eq (h0 : 0 ≤ w / scale + zero.toNat) (h3 : w / scale + zero.toNat ≤ 3) :
    ((laneCode zero scale w).toNat : ℤ) = ⌊w / scale + zero.toNat + 1 / 2⌋ := by
  set t := w / scale + zero.toNat with ht
  have hlow : 0 ≤ ⌊t + 1 / 2⌋ := Int.floor_nonneg.2 (by linarith)
  have hhigh : ⌊t + 1 / 2⌋ ≤ 3 := by
    have hlt : ⌊t + 1 / 2⌋ < 4 := Int.floor_lt.2 (by push_cast; linarith)
    omega
  obtain ⟨m, hm⟩ := Int.eq_ofNat_of_zero_le hlow
  rw [laneCode, floorAsU8, ← ht, hm, Int.toNat_natCast]
  have hle : m < 4 := by omega
  clear_value t
  clear hm hlow hhigh
  interval_cases m <;> rfl

theorem laneCode_near (hscale : 0 < scale) (h0 : 0 ≤ w / scale + zero.toNat)
    (h3 : w / scale + zero.toNat ≤ 3) :
    |(((laneCode zero scale w).toNat : ℚ) - zero.toNat) * scale - w| ≤ scale / 2 := by
  have hcode := laneCode_eq h0 h3
  have hle := Int.floor_le (w / scale + zero.toNat + 1 / 2)
  have hlt := Int.lt_floor_add_one (w / scale + zero.toNat + 1 / 2)
  rw [← hcode, Int.cast_natCast] at hle hlt
  have hw : w / scale * scale = w := div_mul_cancel₀ w hscale.ne'
  have herr : (((laneCode zero scale w).toNat : ℚ) - zero.toNat) * scale - w =
      ((laneCode zero scale w).toNat - (w / scale + zero.toNat)) * scale := by
    linear_combination hw
  rw [herr, abs_mul, abs_of_pos hscale]
  have hhalf : |((laneCode zero scale w).toNat : ℚ) - (w / scale + zero.toNat)| ≤ 1 / 2 :=
    abs_le.2 ⟨by linarith, by linarith⟩
  calc |((laneCode zero scale w).toNat : ℚ) - (w / scale + zero.toNat)| * scale
      ≤ 1 / 2 * scale := mul_le_mul_of_nonneg_right hhalf hscale.le
    _ = scale / 2 := by ring

theorem laneCode_exact (hscale : 0 < scale) (h0 : 0 ≤ w / scale + zero.toNat)
    (h3 : w / scale + zero.toNat ≤ 3) {m : ℤ} (hm : w = m * scale) :
    (((laneCode zero scale w).toNat : ℚ) - zero.toNat) * scale = w := by
  have hcode := laneCode_eq h0 h3
  have hdiv : w / scale = m := by rw [hm, mul_div_cancel_right₀ _ hscale.ne']
  have hfloor : ⌊w / scale + zero.toNat + 1 / 2⌋ = m + zero.toNat := by
    rw [hdiv, Int.floor_eq_iff]
    push_cast
    constructor <;> linarith
  have hcast : ((laneCode zero scale w).toNat : ℚ) = m + zero.toNat := by
    exact_mod_cast hcode.trans hfloor
  rw [hcast, add_sub_cancel_right, hm]

end Codes

section Groups

variable {zero : UInt8} {group : List ℚ} {a w : ℚ}

theorem foldl_min_le : ∀ {l : List ℚ} {a : ℚ}, l.foldl min a ≤ a ∧ ∀ w ∈ l, l.foldl min a ≤ w
  | [], a => ⟨le_rfl, fun w hw => absurd hw not_mem_nil⟩
  | v :: l, a => by
    obtain ⟨hle, hall⟩ := @foldl_min_le l (min a v)
    exact ⟨hle.trans (min_le_left a v),
      forall_mem_cons.2 ⟨hle.trans (min_le_right a v), hall⟩⟩

theorem foldl_min_mem : ∀ {l : List ℚ} {a : ℚ}, l.foldl min a = a ∨ l.foldl min a ∈ l
  | [], _ => .inl rfl
  | v :: l, a => by
    rcases @foldl_min_mem l (min a v) with h | h
    · rcases min_choice a v with hmin | hmin
      · exact .inl (h.trans hmin)
      · exact .inr (mem_cons.2 (.inl (h.trans hmin)))
    · exact .inr (mem_cons_of_mem v h)

theorem le_foldl_max : ∀ {l : List ℚ} {a : ℚ}, a ≤ l.foldl max a ∧ ∀ w ∈ l, w ≤ l.foldl max a
  | [], a => ⟨le_rfl, fun w hw => absurd hw not_mem_nil⟩
  | v :: l, a => by
    obtain ⟨hle, hall⟩ := @le_foldl_max l (max a v)
    exact ⟨(le_max_left a v).trans hle,
      forall_mem_cons.2 ⟨(le_max_right a v).trans hle, hall⟩⟩

theorem foldl_max_mem : ∀ {l : List ℚ} {a : ℚ}, l.foldl max a = a ∨ l.foldl max a ∈ l
  | [], _ => .inl rfl
  | v :: l, a => by
    rcases @foldl_max_mem l (max a v) with h | h
    · rcases max_choice a v with hmax | hmax
      · exact .inl (h.trans hmax)
      · exact .inr (mem_cons.2 (.inl (h.trans hmax)))
    · exact .inr (mem_cons_of_mem v h)

theorem groupMin_nonpos : groupMin group ≤ 0 := foldl_min_le.1

theorem groupMax_nonneg : 0 ≤ groupMax group := le_foldl_max.1

theorem groupMin_le (hw : w ∈ group) : groupMin group ≤ w := foldl_min_le.2 w hw

theorem le_groupMax (hw : w ∈ group) : w ≤ groupMax group := le_foldl_max.2 w hw

theorem amax_nonneg : 0 ≤ amax group := (abs_nonneg _).trans (le_max_left ..)

theorem eq_zero_of_amax (h : amax group = 0) (hw : w ∈ group) : w = 0 := by
  have hmin : |groupMin group| ≤ 0 := (le_max_left ..).trans_eq h
  have hmax : groupMax group ≤ 0 := (le_max_right ..).trans_eq h
  have hlow := groupMin_le hw
  rw [abs_nonpos_iff.1 hmin] at hlow
  exact le_antisymm ((le_groupMax hw).trans hmax) hlow

theorem groupStep_eq (hzero : zero.toNat = 1 ∨ zero.toNat = 2) : groupStep zero group =
    max (-groupMin group / zero.toNat) (groupMax group / (3 - zero.toNat)) := by
  have hdown : max (-groupMin group) 0 = -groupMin group :=
    max_eq_left (neg_nonneg.2 groupMin_nonpos)
  have hup : max (groupMax group) 0 = groupMax group := max_eq_left groupMax_nonneg
  rw [groupStep, hdown, hup]
  rcases hzero with h | h <;> rw [h] <;> norm_num

theorem groupStep_pos (hzero : zero.toNat = 1 ∨ zero.toNat = 2) (h : 0 < amax group) :
    0 < groupStep zero group := by
  have hz : (0 : ℚ) < zero.toNat ∧ (0 : ℚ) < 3 - zero.toNat := by
    rcases hzero with h | h <;> rw [h] <;> norm_num
  rw [groupStep_eq hzero, lt_max_iff]
  rcases lt_max_iff.1 h with hmin | hmax
  · rw [abs_of_nonpos groupMin_nonpos] at hmin
    exact .inl (div_pos hmin hz.1)
  · exact .inr (div_pos hmax hz.2)

theorem in_reach (hzero : zero.toNat = 1 ∨ zero.toNat = 2) (h : 0 < amax group) (hw : w ∈ group) :
    0 ≤ w / groupStep zero group + zero.toNat ∧ w / groupStep zero group + zero.toNat ≤ 3 := by
  have hpos := groupStep_pos hzero h
  have hz : (0 : ℚ) < zero.toNat ∧ (0 : ℚ) < 3 - zero.toNat := by
    rcases hzero with h | h <;> rw [h] <;> norm_num
  have hstep := @groupStep_eq zero group hzero
  have hdown : -groupMin group ≤ zero.toNat * groupStep zero group := by
    rw [mul_comm, ← div_le_iff₀ hz.1, hstep]
    exact le_max_left ..
  have hup : groupMax group ≤ (3 - zero.toNat) * groupStep zero group := by
    rw [mul_comm, ← div_le_iff₀ hz.2, hstep]
    exact le_max_right ..
  have hlow := groupMin_le hw
  have hhigh := le_groupMax hw
  constructor
  · have : -(zero.toNat : ℚ) ≤ w / groupStep zero group := by
      rw [le_div_iff₀ hpos]
      linarith
    linarith
  · have : w / groupStep zero group ≤ 3 - zero.toNat := by
      rw [div_le_iff₀ hpos]
      linarith
    linarith

theorem max_levels {d : ℚ} {long short : ℕ} (hd : 0 < d) (hlong : long ≤ 2) (hshort : short ≤ 1)
    (hpos : 0 < max (long * d / 2) (short * d)) :
    d = max (long * d / 2) (short * d) ∨ d = 2 * max (long * d / 2) (short * d) := by
  rcases Nat.le_one_iff_eq_zero_or_eq_one.1 hshort with rfl | rfl
  · have hmax : max (long * d / 2) ((0 : ℕ) * d) = long * d / 2 := by
      rw [Nat.cast_zero, zero_mul]
      exact max_eq_left (by positivity)
    rw [hmax] at hpos ⊢
    interval_cases long
    · norm_num at hpos
    · exact .inr (by push_cast; ring)
    · exact .inl (by push_cast; ring)
  · have hle : (long : ℚ) ≤ 2 := by exact_mod_cast hlong
    have hmax : max (long * d / 2) ((1 : ℕ) * d) = d := by
      rw [Nat.cast_one, one_mul]
      exact max_eq_right (by nlinarith)
    exact .inl hmax.symm

theorem exists_level {d b : ℚ} (hzero : zero.toNat ≤ 3)
    (hlevels : ∀ w ∈ group, ∃ q ≤ 3, w = ((q : ℕ) - zero.toNat : ℚ) * d) (hb : b = 0 ∨ b ∈ group) :
    ∃ q ≤ 3, b = ((q : ℕ) - zero.toNat : ℚ) * d := by
  rcases hb with rfl | hmem
  · exact ⟨zero.toNat, hzero, by rw [sub_self, zero_mul]⟩
  · exact hlevels b hmem

/-- In a group of multiples of one scale every weight is a whole number of steps. -/
theorem exists_steps (hzero : zero.toNat = 1 ∨ zero.toNat = 2) (h : 0 < amax group) {d : ℚ}
    (hd : 0 ≤ d) (hlevels : ∀ w ∈ group, ∃ q ≤ 3, w = ((q : ℕ) - zero.toNat : ℚ) * d)
    (hw : w ∈ group) : ∃ m : ℤ, w = m * groupStep zero group := by
  obtain ⟨q₁, hq₁, hmin⟩ := exists_level (by omega) hlevels (foldl_min_mem (l := group) (a := 0))
  obtain ⟨q₂, hq₂, hmax⟩ := exists_level (by omega) hlevels (foldl_max_mem (l := group) (a := 0))
  rw [← groupMin] at hmin
  rw [← groupMax] at hmax
  have hpos := groupStep_pos hzero h
  rcases hd.eq_or_lt with rfl | hd
  · -- of scale `0` every weight would be `0`
    rw [mul_zero] at hmin hmax
    rw [amax, hmin, hmax, abs_zero, max_self] at h
    exact absurd h (lt_irrefl 0)
  have hlow : q₁ ≤ zero.toNat := by
    have hle := @groupMin_nonpos group
    rw [hmin] at hle
    have : ((q₁ : ℚ) - zero.toNat) ≤ 0 := nonpos_of_mul_nonpos_left hle hd
    exact_mod_cast sub_nonpos.1 this
  have hhigh : zero.toNat ≤ q₂ := by
    have hle := @groupMax_nonneg group
    rw [hmax] at hle
    have : 0 ≤ ((q₂ : ℚ) - zero.toNat) := nonneg_of_mul_nonneg_left hle hd
    exact_mod_cast sub_nonneg.1 this
  obtain ⟨u, hu⟩ := Nat.exists_eq_add_of_le hlow
  obtain ⟨v, rfl⟩ := Nat.exists_eq_add_of_le hhigh
  have hunit : d = groupStep zero group ∨ d = 2 * groupStep zero group := by
    have hdown : -groupMin group = u * d := by
      rw [hmin, hu]
      push_cast
      ring
    have hup : groupMax group = v * d := by
      rw [hmax]
      push_cast
      ring
    rw [groupStep_eq hzero, hdown, hup] at hpos ⊢
    rcases hzero with hz | hz
    · have hstep : max (u * d / zero.toNat) (v * d / (3 - zero.toNat)) =
          max (v * d / 2) (u * d) := by
        rw [hz, max_comm]
        norm_num
      rw [hstep] at hpos ⊢
      exact max_levels hd (by omega) (by omega) hpos
    · have hstep : max (u * d / zero.toNat) (v * d / (3 - zero.toNat)) =
          max (u * d / 2) (v * d) := by
        rw [hz]
        norm_num
      rw [hstep] at hpos ⊢
      exact max_levels hd (by omega) (by omega) hpos
  obtain ⟨q, -, rfl⟩ := hlevels w hw
  rcases hunit with hone | htwo
  · exact ⟨(q : ℤ) - zero.toNat, by rw [← hone]; push_cast; ring⟩
  · refine ⟨2 * ((q : ℤ) - zero.toNat), ?_⟩
    conv_lhs => rw [htwo]
    push_cast
    ring

theorem nibbleAt_replicate (m i : ℕ) : nibbleAt (List.replicate m 0) i = 0 := by
  have hzero : (List.replicate m (0 : UInt32)).getD (i / 8) 0 = 0 := by
    rw [getD_eq_getElem?_getD, getElem?_replicate]
    split_ifs <;> rfl
  rw [nibbleAt, hzero, UInt32.zero_shiftRight, UInt32.zero_and]

theorem repackGroup_zero (h : amax group = 0) :
    repackGroup zero group = (0, List.replicate citycrowWordsPerGroup 0) := by
  simp only [repackGroup]
  rw [if_pos h, if_neg h.not_gt]

def laneField (zero : UInt8) (group : List ℚ) (i : ℕ) : UInt32 :=
  (laneCode zero (groupStep zero group) (group.getD i 0)).toUInt32

theorem repackGroup_pos (h : 0 < amax group) : repackGroup zero group = (groupStep zero group,
    nibbleWords (laneField zero group) citycrowWordsPerGroup (8 * citycrowWordsPerGroup)) := by
  have hwidth : citycrowGroup = 8 * citycrowWordsPerGroup := rfl
  have hfold := foldl_orNibble (laneField zero group) citycrowWordsPerGroup citycrowGroup
  simp only [laneField] at hfold
  simp only [repackGroup]
  rw [if_neg h.ne', if_pos h, hfold, hwidth]

theorem length_repackGroup (zero : UInt8) (group : List ℚ) :
    (repackGroup zero group).2.length = citycrowWordsPerGroup := by
  rcases (@amax_nonneg group).eq_or_lt with hnone | hsome
  · rw [repackGroup_zero hnone.symm, length_replicate]
  · rw [repackGroup_pos hsome, length_nibbleWords]

theorem repackGroup_spec (hzero : zero.toNat = 1 ∨ zero.toNat = 2)
    (hlen : group.length = citycrowGroup) {i : ℕ} (hi : i < citycrowGroup) :
    (nibbleAt (repackGroup zero group).2 i).toNat ≤ 3 ∧
      |((nibbleAt (repackGroup zero group).2 i).toNat - zero.toNat : ℚ) *
          (repackGroup zero group).1 - group.getD i 0| ≤ (repackGroup zero group).1 / 2 ∧
      ∀ d : ℚ, 0 ≤ d → (∀ w ∈ group, ∃ q ≤ 3, w = ((q : ℕ) - zero.toNat : ℚ) * d) →
        ((nibbleAt (repackGroup zero group).2 i).toNat - zero.toNat : ℚ) *
          (repackGroup zero group).1 = group.getD i 0 := by
  have hmem : group.getD i 0 ∈ group := by
    rw [getD_eq_getElem _ _ (hlen.symm ▸ hi)]
    exact getElem_mem _
  rcases (@amax_nonneg group).eq_or_lt with hnone | hsome
  · rw [repackGroup_zero hnone.symm, nibbleAt_replicate, eq_zero_of_amax hnone.symm hmem]
    simp
  · have hfields : ∀ i, (laneField zero group i).toNat < 2 ^ 4 := fun i => by
      have := toNat_laneCode zero (groupStep zero group) (group.getD i 0)
      rw [laneField, UInt8.toNat_toUInt32]
      omega
    have hback := @nibbleAt_nibbleWords i (laneField zero group) citycrowWordsPerGroup hfields hi
    obtain ⟨h0, h3⟩ := in_reach hzero hsome hmem
    have hpos := groupStep_pos hzero hsome
    rw [repackGroup_pos hsome]
    simp only [hback]
    rw [laneField, UInt8.toNat_toUInt32]
    refine ⟨toNat_laneCode .., laneCode_near hpos h0 h3, fun d hd hlevels => ?_⟩
    obtain ⟨m, hm⟩ := exists_steps hzero hsome hd hlevels hmem
    exact laneCode_exact hpos h0 h3 hm

end Groups

section Streams

variable {env : Option String} {data : List UInt8} {n k g i b j : ℕ} {bias : ℚ}

structure BlockStream (data : List UInt8) (blocks : ℕ) : Prop where
  enough : blocks * blockBytesQ20 ≤ data.length
  finite : ∀ b < blocks, (blockScale data b).isSome

def blockWeight (data : List UInt8) (bias : ℚ) (b j : ℕ) : ℚ :=
  ((blockCode data b j).toNat - bias) * (blockScale data b).getD 0

def flatWeights (data : List UInt8) (bias : ℚ) (blocks : ℕ) : List ℚ :=
  (List.range blocks).flatMap fun b => (List.range blockSizeQ20).map (blockWeight data bias b)

theorem length_flatWeights (blocks : ℕ) :
    (flatWeights data bias blocks).length = blocks * blockSizeQ20 :=
  length_flatMap_range (fun _ => by rw [length_map, length_range]) _

theorem getElem?_flatWeights {blocks : ℕ} (hb : b < blocks) (hj : j < blockSizeQ20) :
    (flatWeights data bias blocks)[b * blockSizeQ20 + j]? = some (blockWeight data bias b j) := by
  rw [flatWeights, getElem?_flatMap_range (fun _ => by rw [length_map, length_range]) hj hb,
    getElem?_map, getElem?_range hj]
  rfl

theorem dequant2bitBlocks_eq {blocks : ℕ} (h : BlockStream data blocks) (label : String) :
    dequant2bitBlocks data (blocks * blockSizeQ20) label bias =
      some (.ok (flatWeights data bias blocks)) := by
  rcases Nat.eq_zero_or_pos blocks with rfl | hpos
  · rw [dequant2bitBlocks, Nat.zero_mul, if_pos rfl]
    rfl
  · have hne : blocks * blockSizeQ20 ≠ 0 := (Nat.mul_pos hpos (by decide)).ne'
    have hdiv : blocks * blockSizeQ20 / blockSizeQ20 = blocks := Nat.mul_div_cancel _ (by decide)
    have hblock : ∀ b ∈ List.range blocks, ∀ out : List ℚ,
        (blockScale data b >>= fun d => pure (out ++ (List.range blockSizeQ20).map fun j =>
          ((blockCode data b j).toNat - bias) * d)) =
          some (out ++ (List.range blockSizeQ20).map (blockWeight data bias b)) :=
            fun b hb out => by
      obtain ⟨d, hd⟩ := Option.isSome_iff_exists.1 (h.finite b (mem_range.1 hb))
      have hmap : ((List.range blockSizeQ20).map fun j => ((blockCode data b j).toNat - bias) * d) =
          (List.range blockSizeQ20).map (blockWeight data bias b) :=
        map_congr_left fun j _ => by
          rw [blockWeight, hd]
          rfl
      rw [hd, ← hmap]
      rfl
    simp only [dequant2bitBlocks]
    rw [if_neg hne, if_neg (not_not.2 (Nat.mul_mod_left ..)), hdiv, if_neg (not_lt.2 h.enough),
      foldlM_pieces hblock]
    rfl

/-- The bias, which is the code of `0` too. -/
def biasOf (env : Option String) : UInt8 := if env = some "1" then 1 else 2

theorem toNat_biasOf (env : Option String) : (biasOf env).toNat = 1 ∨ (biasOf env).toNat = 2 := by
  rw [biasOf]
  split_ifs
  · exact .inl rfl
  · exact .inr rfl

theorem gsqBias_eq (env : Option String) : gsqBias env = (biasOf env).toNat := by
  rw [gsqBias, biasOf]
  split_ifs
  · exact Nat.cast_one.symm
  · change (2 : ℚ) = (2 : ℕ)
    norm_num

theorem zeroPointProbe_eq (env : Option String) : zeroPointProbe env = some (biasOf env) := by
  rw [zeroPointProbe, dequantGsqRco3p5, gsqBias, biasOf]
  split_ifs
  · decide +kernel
  · decide +kernel

/-- The weights of group `g`. -/
def groupWeights (env : Option String) (data : List UInt8) (g : ℕ) : List ℚ :=
  (List.range citycrowGroup).map fun i =>
    blockWeight data (gsqBias env) (2 * g + i / blockSizeQ20) (i % blockSizeQ20)

theorem slice_flatWeights {total : ℕ} (hg : g < total) :
    slice (flatWeights data (gsqBias env) (2 * total)) (g * citycrowGroup) citycrowGroup =
      groupWeights env data g := by
  refine ext_getElem? fun i => ?_
  rcases Nat.lt_or_ge i citycrowGroup with hi | hi
  · have hwidth : citycrowGroup = 2 * blockSizeQ20 := rfl
    have hsize : 0 < blockSizeQ20 := by decide
    have hplace : g * citycrowGroup + i =
        (2 * g + i / blockSizeQ20) * blockSizeQ20 + i % blockSizeQ20 := by
      have hsplit := Nat.div_add_mod' i blockSizeQ20
      rw [hwidth, Nat.add_mul]
      linarith
    have hhalf : i / blockSizeQ20 < 2 := Nat.div_lt_of_lt_mul (by rwa [Nat.mul_comm, ← hwidth])
    rw [slice, getElem?_take_of_lt hi, getElem?_drop, hplace,
      getElem?_flatWeights (by omega) (Nat.mod_lt i hsize), groupWeights, getElem?_map,
      getElem?_range hi]
    rfl
  · rw [getElem?_eq_none (by rw [length_slice]; omega),
      getElem?_eq_none (by rwa [groupWeights, length_map, length_range])]

theorem length_groupWeights : (groupWeights env data g).length = citycrowGroup := by
  rw [groupWeights, length_map, length_range]

/-- The step and the words of group `g`. -/
def lanesOf (env : Option String) (data : List UInt8) (g : ℕ) : ℚ × List UInt32 :=
  repackGroup (biasOf env) (groupWeights env data g)

/-- What a stream of `total` groups is repacked to. -/
def repacked (env : Option String) (data : List UInt8) (n k total : ℕ) : CityCrowWeights where
  qweight := (List.range total).flatMap fun g => (lanesOf env data g).2
  scales := (List.range total).map fun g => (lanesOf env data g).1
  zeros := List.replicate total (biasOf env)
  n := n
  k := k

theorem base_eq {groupsPerRow : ℕ} :
    g / groupsPerRow * (groupsPerRow * citycrowGroup) + g % groupsPerRow * citycrowGroup =
      g * citycrowGroup := by
  rw [← Nat.mul_assoc, ← Nat.add_mul, Nat.div_add_mod']

theorem repackToU4Lanes_eq {groupsPerRow : ℕ}
    (h : BlockStream data (2 * (n * groupsPerRow))) (hn : n ≠ 0) (hk : groupsPerRow ≠ 0)
    (hfits : n * (groupsPerRow * citycrowGroup) < 2 ^ 64) :
    repackToU4Lanes env data n (groupsPerRow * citycrowGroup) .gsqRco3p5 =
      some (.ok (repacked env data n (groupsPerRow * citycrowGroup) (n * groupsPerRow))) := by
  have hgroup : 0 < citycrowGroup := by decide
  have hk' : groupsPerRow * citycrowGroup ≠ 0 := Nat.mul_ne_zero hk hgroup.ne'
  have hwidth : citycrowGroup = 2 * blockSizeQ20 := rfl
  have hsize : n * (groupsPerRow * citycrowGroup) = 2 * (n * groupsPerRow) * blockSizeQ20 := by
    rw [hwidth]
    ring
  have hblocks : (2 * (n * groupsPerRow) * blockSizeQ20 + 63) / 64 = 2 * (n * groupsPerRow) := by
    rw [blockSizeQ20]
    omega
  have henough : ¬data.length < 2 * (n * groupsPerRow) * 18 := not_lt.2 h.enough
  have hlanes : (List.range (n * groupsPerRow)).mapM (fun g =>
      if g / groupsPerRow * (groupsPerRow * citycrowGroup) + g % groupsPerRow * citycrowGroup +
          citycrowGroup ≤ (flatWeights data (gsqBias env) (2 * (n * groupsPerRow))).length then
        some (repackGroup (biasOf env) (slice (flatWeights data (gsqBias env)
          (2 * (n * groupsPerRow))) (g / groupsPerRow * (groupsPerRow * citycrowGroup) +
            g % groupsPerRow * citycrowGroup) citycrowGroup))
      else none) = some ((List.range (n * groupsPerRow)).map (lanesOf env data)) := by
    refine Folds.forall₂_of_mapM.2
      (List.forall₂_map_right_iff.2 (List.forall₂_same.2 fun g hg => ?_))
    rw [mem_range] at hg
    have hin : g * citycrowGroup + citycrowGroup ≤
        (flatWeights data (gsqBias env) (2 * (n * groupsPerRow))).length := by
      rw [length_flatWeights, ← hsize, ← Nat.mul_assoc, ← Nat.succ_mul]
      exact Nat.mul_le_mul_right _ hg
    rw [base_eq, if_pos hin, slice_flatWeights hg]
    rfl
  simp only [repackToU4Lanes]
  rw [if_neg (by decide), if_neg (by omega), if_neg (not_not.2 (Nat.mul_mod_left ..)),
    if_neg (not_le.2 hfits), hsize, hblocks, if_neg henough, dequantGsqRco3p5,
    dequant2bitBlocks_eq h, Nat.mul_div_cancel _ hgroup, zeroPointProbe_eq]
  simp only [Option.bind_eq_bind, Option.bind_some]
  rw [hlanes, Option.bind_some, flatMap_map, map_map]
  rfl

/-- What a code of group `g` is decoded to. -/
def decodedWeight (env : Option String) (data : List UInt8) (g i : ℕ) : ℚ :=
  ((nibbleAt (lanesOf env data g).2 i).toNat - (biasOf env).toNat) * (lanesOf env data g).1

theorem getElem?_qweight {total : ℕ} (hg : g < total) (hi : i < citycrowWordsPerGroup) :
    (repacked env data n k total).qweight[g * citycrowWordsPerGroup + i]? =
      (lanesOf env data g).2[i]? :=
  getElem?_flatMap_range (fun _ => length_repackGroup ..) hi hg

theorem length_qweight {total : ℕ} :
    (repacked env data n k total).qweight.length = total * citycrowWordsPerGroup :=
  length_flatMap_range (fun _ => length_repackGroup ..) _

theorem slice_qweight {total : ℕ} (hg : g < total) :
    slice (repacked env data n k total).qweight (g * citycrowWordsPerGroup) citycrowWordsPerGroup =
      (lanesOf env data g).2 := by
  refine ext_getElem? fun i => ?_
  rcases Nat.lt_or_ge i citycrowWordsPerGroup with hi | hi
  · rw [slice, getElem?_take_of_lt hi, getElem?_drop, getElem?_qweight hg hi]
  · rw [getElem?_eq_none (by rw [length_slice]; omega),
      getElem?_eq_none (by rw [lanesOf, length_repackGroup]; exact hi)]

theorem getElem?_scales {total : ℕ} (hg : g < total) :
    (repacked env data n k total).scales[g]? = some (lanesOf env data g).1 := by
  change ((List.range total).map _)[g]? = _
  rw [getElem?_map, getElem?_range hg]
  rfl

/-- What decoding group `g` writes. -/
def groupWrites (env : Option String) (data : List UInt8) (g : ℕ) : List (ℕ × ℚ) :=
  (List.range citycrowGroup).flatMap fun i =>
    [(g * citycrowGroup + i, decodedWeight env data g i)]

theorem decodeGroup_eq {groupsPerRow : ℕ} (hg : g < n * groupsPerRow) {out : List ℚ}
    (hlen : out.length = n * (groupsPerRow * citycrowGroup)) :
    decodeGroup (repacked env data n (groupsPerRow * citycrowGroup) (n * groupsPerRow)) out g =
      some (writes out (groupWrites env data g)) := by
  have hgroups : (repacked env data n (groupsPerRow * citycrowGroup) (n * groupsPerRow)).groups =
      groupsPerRow := Nat.mul_div_cancel _ (by decide)
  have hzeros : (repacked env data n (groupsPerRow * citycrowGroup) (n * groupsPerRow)).zeros[g]? =
      some (biasOf env) := by
    change (List.replicate _ _)[g]? = _
    rw [getElem?_replicate, if_pos hg]
  have hwords : ¬(repacked env data n (groupsPerRow * citycrowGroup)
      (n * groupsPerRow)).qweight.length < (g + 1) * citycrowWordsPerGroup := by
    rw [length_qweight]
    exact not_lt.2 (Nat.mul_le_mul_right _ hg)
  simp only [decodeGroup]
  rw [hgroups, getElem?_scales hg, hzeros]
  simp only [Option.bind_eq_bind, Option.bind_some]
  rw [if_neg hwords, slice_qweight hg]
  refine foldlM_writes hlen fun i hi out hlen => ?_
  change store out (g / groupsPerRow * (groupsPerRow * citycrowGroup) +
    g % groupsPerRow * citycrowGroup + i) (decodedWeight env data g i) = _
  rw [base_eq]
  refine store_eq ?_
  rw [hlen, ← Nat.mul_assoc]
  calc g * citycrowGroup + i < g * citycrowGroup + citycrowGroup :=
        Nat.add_lt_add_left (mem_range.1 hi) _
    _ = (g + 1) * citycrowGroup := (Nat.succ_mul ..).symm
    _ ≤ n * groupsPerRow * citycrowGroup := Nat.mul_le_mul_right _ hg

theorem decodeGroups_eq {groupsPerRow : ℕ} :
    decodeGroups (repacked env data n (groupsPerRow * citycrowGroup) (n * groupsPerRow)) =
      some (writes (List.replicate (n * (groupsPerRow * citycrowGroup)) 0)
        ((List.range (n * groupsPerRow)).flatMap (groupWrites env data))) := by
  have hgroups : (repacked env data n (groupsPerRow * citycrowGroup) (n * groupsPerRow)).groups =
      groupsPerRow := Nat.mul_div_cancel _ (by decide)
  rw [decodeGroups, hgroups]
  exact foldlM_writes (length_replicate ..) fun g hg out hlen =>
    decodeGroup_eq (mem_range.1 hg) hlen

theorem place_injective {g' i' : ℕ} (hi : i < citycrowGroup) (hi' : i' < citycrowGroup)
    (h : g' * citycrowGroup + i' = g * citycrowGroup + i) : g' = g ∧ i' = i := by
  rw [citycrowGroup] at *
  omega

theorem getElem?_decoded {groupsPerRow : ℕ} (hg : g < n * groupsPerRow) (hi : i < citycrowGroup) :
    (writes (List.replicate (n * (groupsPerRow * citycrowGroup)) 0)
      ((List.range (n * groupsPerRow)).flatMap (groupWrites env data)))[g * citycrowGroup + i]? =
        some (decodedWeight env data g i) := by
  refine getElem?_writes_of_mem ?_ ?_ ?_
  · exact mem_flatMap.2 ⟨g, mem_range.2 hg, mem_flatMap.2
      ⟨i, mem_range.2 hi, mem_singleton_self _⟩⟩
  · intro write hwrite hplace
    obtain ⟨g', -, hwrite⟩ := mem_flatMap.1 hwrite
    obtain ⟨i', hi', hwrite⟩ := mem_flatMap.1 hwrite
    obtain rfl := mem_singleton.1 hwrite
    obtain ⟨rfl, rfl⟩ := place_injective hi (mem_range.1 hi') hplace
    rfl
  · rw [length_replicate, ← Nat.mul_assoc]
    calc g * citycrowGroup + i < (g + 1) * citycrowGroup := by
          rw [Nat.succ_mul]
          exact Nat.add_lt_add_left hi _
      _ ≤ n * groupsPerRow * citycrowGroup := Nat.mul_le_mul_right _ hg

theorem getElem?_eq_getD {α : Type} {l : List α} (h : i < l.length) {d : α} :
    l[i]? = some (l.getD i d) := by
  rw [getD_eq_getElem _ _ h, getElem?_eq_getElem h]

/-- The two blocks of group `g` have one scale, which is not negative. -/
def SameScale (data : List UInt8) (g : ℕ) : Prop :=
  ∃ d, 0 ≤ d ∧ blockScale data (2 * g) = some d ∧ blockScale data (2 * g + 1) = some d

theorem toNat_blockCode (data : List UInt8) (b j : ℕ) : (blockCode data b j).toNat ≤ 3 := by
  rw [blockCode, UInt8.toNat_and]
  exact Nat.and_le_right

theorem levels_of_sameScale {d w : ℚ} (hfirst : blockScale data (2 * g) = some d)
    (hsecond : blockScale data (2 * g + 1) = some d) (hw : w ∈ groupWeights env data g) :
    ∃ q ≤ 3, w = ((q : ℕ) - (biasOf env).toNat : ℚ) * d := by
  obtain ⟨i, hi, rfl⟩ := mem_map.1 hw
  have hscale : blockScale data (2 * g + i / blockSizeQ20) = some d := by
    have hhalf : i / blockSizeQ20 < 2 := Nat.div_lt_of_lt_mul (mem_range.1 hi)
    rcases Nat.le_one_iff_eq_zero_or_eq_one.1 (Nat.lt_succ_iff.1 hhalf) with h | h
    · rw [h]
      exact hfirst
    · rw [h]
      exact hsecond
  refine ⟨_, toNat_blockCode data (2 * g + i / blockSizeQ20) (i % blockSizeQ20), ?_⟩
  rw [blockWeight, hscale, gsqBias_eq]
  rfl

/-- Every weight of the repacked stream is within half its group's step of the stream's, and the
same where the group's blocks have one scale that is not negative.  Every stored code is one of
four. -/
theorem decodeGroups_repackToU4Lanes (hk : k % citycrowGroup = 0)
    (h : BlockStream data (n * k / blockSizeQ20)) :
    ((n = 0 ∨ k = 0 ∨ 2 ^ 64 ≤ n * k) ∧
      ∃ e, repackToU4Lanes env data n k .gsqRco3p5 = some (.error e)) ∨
    ∃ lanes flat out, repackToU4Lanes env data n k .gsqRco3p5 = some (.ok lanes) ∧
      dequantGsqRco3p5 env data (n * k) = some (.ok flat) ∧ decodeGroups lanes = some out ∧
      flat.length = n * k ∧ out.length = n * k ∧
      ∀ g < n * (k / citycrowGroup), ∃ step, lanes.scales[g]? = some step ∧
        ∀ i < citycrowGroup, ∃ w w' word, flat[g * citycrowGroup + i]? = some w ∧
          out[g * citycrowGroup + i]? = some w' ∧ |w' - w| ≤ step / 2 ∧
          (SameScale data g → w' = w) ∧
          lanes.qweight[g * citycrowWordsPerGroup + i / 8]? = some word ∧
          ((word >>> UInt32.ofNat (i % 8 * 4)) &&& 0x0F).toNat ≤ 3 := by
  by_cases hempty : n = 0 ∨ k = 0
  · refine .inl ⟨hempty.imp_right .inl, s!"citycrow: zero-sized weight [{n}, {k}]", ?_⟩
    simp only [repackToU4Lanes]
    rw [if_neg (by decide), if_pos hempty.symm]
  by_cases hover : 2 ^ 64 ≤ n * k
  · refine .inl ⟨.inr (.inr hover), s!"citycrow: [{n}, {k}] overflows usize", ?_⟩
    simp only [repackToU4Lanes]
    rw [if_neg (by decide), if_neg fun hnone => hempty hnone.symm, if_neg (not_not.2 hk),
      if_pos hover]
  obtain ⟨groupsPerRow, rfl⟩ : ∃ groupsPerRow, k = groupsPerRow * citycrowGroup :=
    ⟨k / citycrowGroup, (Nat.div_mul_cancel (Nat.dvd_of_mod_eq_zero hk)).symm⟩
  obtain ⟨hn, hk⟩ := not_or.1 hempty
  have hwidth : citycrowGroup = 2 * blockSizeQ20 := rfl
  have hsize : n * (groupsPerRow * citycrowGroup) = 2 * (n * groupsPerRow) * blockSizeQ20 := by
    rw [hwidth]
    ring
  rw [hsize, Nat.mul_div_cancel _ (by decide)] at h
  have hflat := @dequant2bitBlocks_eq data (gsqBias env) _ h "gsq_rco_3p5"
  rw [← hsize, ← dequantGsqRco3p5] at hflat
  refine .inr ⟨_, _, _, repackToU4Lanes_eq h hn (left_ne_zero_of_mul hk) (not_le.1 hover), hflat,
    decodeGroups_eq, ?_, ?_, ?_⟩
  · rw [length_flatWeights, hsize]
  · rw [length_writes, length_replicate]
  rw [Nat.mul_div_cancel _ (by decide)]
  refine fun g hg => ⟨_, getElem?_scales hg, fun i hi => ?_⟩
  obtain ⟨hcode, hnear, hexact⟩ := repackGroup_spec (toNat_biasOf env)
    (@length_groupWeights env data g) hi
  have hslice := @slice_flatWeights env data g _ hg
  have hflat : (flatWeights data (gsqBias env) (2 * (n * groupsPerRow)))[g * citycrowGroup + i]? =
      some ((groupWeights env data g).getD i 0) := by
    rw [← getElem?_eq_getD (by rwa [length_groupWeights]), ← hslice, slice,
      getElem?_take_of_lt hi, getElem?_drop]
  have hword : i / 8 < citycrowWordsPerGroup := Nat.div_lt_of_lt_mul hi
  have hqweight : (repacked env data n (groupsPerRow * citycrowGroup)
      (n * groupsPerRow)).qweight[g * citycrowWordsPerGroup + i / 8]? =
        some ((lanesOf env data g).2.getD (i / 8) 0) := by
    rw [getElem?_qweight hg hword, ← getElem?_eq_getD (by rwa [lanesOf, length_repackGroup])]
  refine ⟨_, _, _, hflat, getElem?_decoded hg hi, hnear, ?_, hqweight, hcode⟩
  rintro ⟨d, hd, hfirst, hsecond⟩
  exact hexact d hd fun w hw => levels_of_sameScale hfirst hsecond hw

/-- The fixture twice is one group of one scale. -/
theorem decodeGroups_repackToU4Lanes_fixture :
    ∃ lanes flat out,
      repackToU4Lanes none (zeroPointFixture ++ zeroPointFixture) 1 128 .gsqRco3p5 =
        some (.ok lanes) ∧
      dequantGsqRco3p5 none (zeroPointFixture ++ zeroPointFixture) 128 = some (.ok flat) ∧
      decodeGroups lanes = some out ∧ ∀ i < 128, ∃ w, flat[i]? = some w ∧ out[i]? = some w := by
  have hscales : blockScale (zeroPointFixture ++ zeroPointFixture) 0 = some 1 ∧
      blockScale (zeroPointFixture ++ zeroPointFixture) 1 = some 1 := by decide +kernel
  have hstream : BlockStream (zeroPointFixture ++ zeroPointFixture) (1 * 128 / blockSizeQ20) := by
    refine ⟨by decide, fun b hb => ?_⟩
    rcases Nat.le_one_iff_eq_zero_or_eq_one.1 (Nat.lt_succ_iff.1 hb) with rfl | rfl
    · rw [hscales.1]
      rfl
    · rw [hscales.2]
      rfl
  rcases @decodeGroups_repackToU4Lanes none _ 1 128 rfl hstream with ⟨hnone, -⟩ |
    ⟨lanes, flat, out, hlanes, hflat, hout, -, -, hall⟩
  · exact absurd hnone (by decide)
  · refine ⟨lanes, flat, out, hlanes, hflat, hout, fun i hi => ?_⟩
    obtain ⟨step, -, hgroup⟩ := hall 0 (by decide)
    obtain ⟨w, w', word, hw, hw', -, hsame, -⟩ := hgroup i hi
    rw [Nat.zero_mul, Nat.zero_add] at hw hw'
    rw [hsame ⟨1, by decide, hscales.1, hscales.2⟩] at hw'
    exact ⟨w, hw, hw'⟩

end Streams

end Grim.Quant
