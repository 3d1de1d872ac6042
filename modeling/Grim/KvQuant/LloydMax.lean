import Grim.KvQuant.BitIo
import Grim.KvQuant.Block
import Grim.Lib.Cursor
import Grim.Lib.FloatBounds
import Grim.Lib.Folds

/-!
# The quantizing compressor

Keys and values are quantized group by group and their codes pushed into a stream each.  With a
channel allocation the width of a code is that of its head and its channel's group.  Reading asks
for the widths again, and so finds the codes where they were written.  The rotation of the keys is a
parameter.
-/

namespace Grim.KvQuant

open Checked FloatFormat Folds Slice

structure KvQuantConfig where
  keyBits : UInt8
  valueBits : UInt8
  groupSize : ℕ

structure LloydMaxCompressor where
  config : KvQuantConfig
  channelAlloc : Option ChannelBitAllocation

/-- Keys and values of the shape `[numTokens, numKvHeads, headDim]`. -/
structure KvTensors where
  numTokens : ℕ
  numKvHeads : ℕ
  headDim : ℕ
  keys : List UInt32
  values : List UInt32
  keys_length : keys.length = numTokens * numKvHeads * headDim
  values_length : values.length = numTokens * numKvHeads * headDim

namespace ChannelBitAllocation

/-- `bits[kv_head][channel / group_size]` -/
def bitFor (a : ChannelBitAllocation) (bits : List (List UInt8)) (kvHead channel : ℕ) :
    Option UInt8 :=
  if a.groupSize = 0 then none
  else bits[kvHead]?.bind fun row => row[channel / a.groupSize]?

def keyBitFor (a : ChannelBitAllocation) : ℕ → ℕ → Option UInt8 := a.bitFor a.keyBits

def valueBitFor (a : ChannelBitAllocation) : ℕ → ℕ → Option UInt8 := a.bitFor a.valueBits

end ChannelBitAllocation

def half : UInt32 := 0x3F000000

def one : UInt32 := 0x3F800000

def two : UInt32 := 0x40000000

/-- `1e-5` -/
def tiny : UInt32 := 0x3727C5AC

/-- `bits.clamp(1, 8)` -/
def clampBits (bits : UInt8) : ℕ := min (max bits.toNat 1) 8

def stdDev (xs : List UInt32) : UInt32 :=
  let sumSq := xs.foldl (fun s x => f32Op .add s (f32Op .mul x x)) 0
  f32Max (f32Sqrt (f32Op .div sumSq (f32OfInt xs.length))) tiny

def quantizeKey (std x : UInt32) (bits : ℕ) : ℕ :=
  let levels := f32OfInt (2 ^ bits : ℕ)
  let n := f32Op .mul (f32Op .add (f32Op .div x std) one) half
  let n := f32Clamp 0 one n
  (f32ToU32 (f32Clamp 0 (f32Op .sub levels one)
    (f32Round (f32Op .mul n (f32Op .sub levels one))))).toNat

/-- `((1u32 << bits) - 1).max(1)` -/
def maxQ (bits : ℕ) : ℕ := max (2 ^ bits - 1) 1

def minVal (xs : List UInt32) : UInt32 :=
  xs.foldl (fun m x => if f32Lt x m then x else m) (xs.headD 0)

def maxVal (xs : List UInt32) : UInt32 :=
  xs.foldl (fun m x => if f32Lt m x then x else m) (xs.headD 0)

def valueScale (lo hi : UInt32) (bits : ℕ) : UInt32 :=
  f32Max (f32Op .div (f32Op .sub hi lo) (f32OfInt (maxQ bits))) tiny

def quantizeValue (lo hi x : UInt32) (bits : ℕ) : ℕ :=
  let scale := valueScale lo hi bits
  (f32ToU32 (f32Clamp 0 (f32OfInt (maxQ bits))
    (f32Round (f32Op .div (f32Op .sub x lo) scale)))).toNat

def dequantizeKey (q : ℕ) (denom std : UInt32) : UInt32 :=
  let n := f32Op .div (f32OfInt q) (f32Max denom one)
  f32Op .mul (f32Op .sub (f32Op .mul n two) one) std

def dequantizeValue (q : ℕ) (scale lo : UInt32) : UInt32 :=
  f32Op .add (f32Op .mul (f32OfInt q) scale) lo

def applyRotation (rotation : List UInt32) (dim : ℕ) (row : List UInt32) : List UInt32 :=
  (List.range dim).map fun j => (List.range dim).foldl
    (fun sum k => f32Op .add sum
      (f32Op .mul (row.getD k 0) (rotation.getD (k * dim + j) 0))) 0

def rotateRows (rotation : List UInt32) (dim rows : ℕ) (data : List UInt32) : List UInt32 :=
  (List.range rows).flatMap fun r => applyRotation rotation dim (slice data (r * dim) dim)

def transpose (rotation : List UInt32) (dim : ℕ) : List UInt32 :=
  (List.range dim).flatMap fun c => (List.range dim).map fun r => rotation.getD (r * dim + c) 0

/-- The starts of the groups; there are none of no elements each. -/
def groupStarts (total groupSize : ℕ) : Option (List ℕ) :=
  if groupSize = 0 then none
  else some ((List.range ((total + groupSize - 1) / groupSize)).map (· * groupSize))

namespace LloydMaxCompressor

variable (c : LloydMaxCompressor)

def scaleGroup (alloc : Option ChannelBitAllocation) : ℕ :=
  if alloc.isSome then channelGroupSize else c.config.groupSize

/-- The width of the key `e` when it is written. -/
def keyWidth (t : KvTensors) (e : ℕ) : Option ℕ :=
  match c.channelAlloc with
  | some a =>
    let h := (e / t.headDim) % t.numKvHeads
    let d := e % t.headDim
    (a.keyBitFor h d).map clampBits
  | none => some (clampBits c.config.keyBits)

def valueWidth (t : KvTensors) (e : ℕ) : Option ℕ :=
  match c.channelAlloc with
  | some a =>
    let h := (e / t.headDim) % t.numKvHeads
    let d := e % t.headDim
    (a.valueBitFor h d).map clampBits
  | none => some (clampBits c.config.valueBits)

def groupCodes (width : ℕ → Option ℕ) (quantize : UInt32 → ℕ → ℕ) (start : ℕ) (xs : List UInt32) :
    Option (List (ℕ × ℕ)) :=
  xs.zipIdx.mapM fun (x, i) => (width (start + i)).map fun bits => (quantize x bits, bits)

/-- The scale of the group from `start` on, and its codes. -/
def keyGroup (t : KvTensors) (data : List UInt32) (start : ℕ) :
    Option (UInt32 × List (ℕ × ℕ)) :=
  let xs := slice data start (c.scaleGroup c.channelAlloc)
  let std := stdDev xs
  (groupCodes (c.keyWidth t) (quantizeKey std) start xs).map fun codes => (std, codes)

/-- The two numbers of the group from `start` on, and its codes. -/
def valueGroup (t : KvTensors) (start : ℕ) : Option ((UInt32 × UInt32) × List (ℕ × ℕ)) :=
  let xs := slice t.values start (c.scaleGroup c.channelAlloc)
  let lo := minVal xs
  let hi := maxVal xs
  let first := if c.channelAlloc.isSome then hi
    else valueScale lo hi (clampBits c.config.valueBits)
  (groupCodes (c.valueWidth t) (quantizeValue lo hi) start xs).map fun codes => ((first, lo), codes)

/-- The keys that are quantized; with an allocation they are not rotated. -/
def keyData (rotation : ℕ → List UInt32) (t : KvTensors) : List UInt32 :=
  if c.channelAlloc.isNone then
    rotateRows (rotation t.headDim) t.headDim (t.numTokens * t.numKvHeads) t.keys
  else t.keys

def keyGroups (rotation : ℕ → List UInt32) (t : KvTensors) :
    Option (List (UInt32 × List (ℕ × ℕ))) :=
  (groupStarts (c.keyData rotation t).length (c.scaleGroup c.channelAlloc)).bind
    (List.mapM (c.keyGroup t (c.keyData rotation t)))

def valueGroups (t : KvTensors) : Option (List ((UInt32 × UInt32) × List (ℕ × ℕ))) :=
  (groupStarts t.values.length (c.scaleGroup c.channelAlloc)).bind
    (List.mapM (c.valueGroup t))

def codesOf {α : Type} (groups : List (α × List (ℕ × ℕ))) : List (ℕ × ℕ) :=
  groups.flatMap Prod.snd

def compress (rotation : ℕ → List UInt32) (t : KvTensors) : Checked String CompressedKvBlock :=
  match c.channelAlloc.filter fun a => !a.matchesGeometry t.numKvHeads t.headDim with
  | some a => throw (s!"channel allocation geometry mismatch: alloc {a.numKvHeads}x{a.headDim} " ++
      s!"vs block {t.numKvHeads}x{t.headDim}")
  | none =>
    match c.keyGroups rotation t, c.valueGroups t with
    | some keyGroups, some valueGroups =>
      pure
        { keyBits := (BitWriter.new.pushAll (codesOf keyGroups)).finish
          keyMeta := keyGroups.map Prod.fst
          valueBits := (BitWriter.new.pushAll (codesOf valueGroups)).finish
          valueMeta := valueGroups.flatMap fun g => [g.1.1, g.1.2]
          numTokens := t.numTokens
          numKvHeads := t.numKvHeads
          headDim := t.headDim
          modality := .text
          channelAlloc := c.channelAlloc }
    | _, _ => fault

/-- The width that is asked for the key `idx`, and the numbers that its code is read with. -/
def keyRequest (block : CompressedKvBlock) (std : UInt32) (idx : ℕ) :
    Option (ℕ × UInt32 × UInt32) :=
  match block.channelAlloc with
  | some a =>
    let h := (idx / block.headDim) % block.numKvHeads
    let d := idx % block.headDim
    ((a.keyBitFor h d).map clampBits).map fun b => (b, f32OfInt (2 ^ b - 1 : ℕ), std)
  | none =>
    let bits := clampBits c.config.keyBits
    some (bits, f32Max (f32Op .sub (f32OfInt (2 ^ bits : ℕ)) one) one, std)

def valueRequest (block : CompressedKvBlock) (first lo : UInt32) (idx : ℕ) :
    Option (ℕ × UInt32 × UInt32) :=
  match block.channelAlloc with
  | some a =>
    let h := (idx / block.headDim) % block.numKvHeads
    let d := idx % block.headDim
    ((a.valueBitFor h d).map clampBits).map fun b => (b, valueScale lo first b, lo)
  | none => some (clampBits c.config.valueBits, first, lo)

/-- The elements of a group; the breaks of the loops come after the last of all. -/
def groupElems (block : CompressedKvBlock) (total groupIdx : ℕ) : List ℕ :=
  let start := groupIdx * c.scaleGroup block.channelAlloc
  let stop := min (start + c.scaleGroup block.channelAlloc) total
  List.range' start (stop - start)

def keyRequests (block : CompressedKvBlock) (total groupIdx : ℕ) :
    Option (List (ℕ × UInt32 × UInt32)) :=
  block.keyMeta[groupIdx]?.bind fun std =>
    (c.groupElems block total groupIdx).mapM (c.keyRequest block std)

def valueRequests (block : CompressedKvBlock) (total groupIdx : ℕ) :
    Option (List (ℕ × UInt32 × UInt32)) :=
  block.valueMeta[groupIdx * 2]?.bind fun first =>
    block.valueMeta[groupIdx * 2 + 1]?.bind fun lo =>
      (c.groupElems block total groupIdx).mapM (c.valueRequest block first lo)

def totalElems (block : CompressedKvBlock) : ℕ :=
  block.numTokens * block.numKvHeads * block.headDim

def requests (block : CompressedKvBlock)
    (group : CompressedKvBlock → ℕ → ℕ → Option (List (ℕ × UInt32 × UInt32))) :
    Option (List (ℕ × UInt32 × UInt32)) :=
  let groupSize := c.scaleGroup block.channelAlloc
  if groupSize = 0 then none
  else ((List.range ((totalElems block + groupSize - 1) / groupSize)).mapM
    (group block (totalElems block))).map List.flatten

def readCodes (stream : List UInt8) (reqs : List (ℕ × UInt32 × UInt32)) : List ℕ :=
  (BitReader.new stream).nextAll (reqs.map Prod.fst)

def dequantizeForAttention (rotation : ℕ → List UInt32) (block : CompressedKvBlock) :
    Option (List UInt32 × List UInt32) := do
  let keyReqs ← c.requests block c.keyRequests
  let valueReqs ← c.requests block c.valueRequests
  let keys := List.zipWith (fun q r => dequantizeKey q r.2.1 r.2.2)
    (readCodes block.keyBits keyReqs) keyReqs
  let values := List.zipWith (fun q r => dequantizeValue q r.2.1 r.2.2)
    (readCodes block.valueBits valueReqs) valueReqs
  let keys := if block.channelAlloc.isNone then
      rotateRows (transpose (rotation block.headDim) block.headDim) block.headDim
        (block.numTokens * block.numKvHeads) keys
    else keys
  pure (keys, values)

variable {c} {t : KvTensors} {block : CompressedKvBlock} {width : ℕ → Option ℕ}
  {quantize : UInt32 → ℕ → ℕ} {start : ℕ} {codes : List (ℕ × ℕ)}

theorem groupCodes_zipIdx : ∀ (xs : List UInt32) {k : ℕ} {codes : List (ℕ × ℕ)},
    ((xs.zipIdx k).mapM fun (x, i) => (width (start + i)).map fun bits => (quantize x bits, bits)) =
      some codes →
      (List.range' (start + k) xs.length).mapM width = some (codes.map Prod.snd) ∧
        ∀ p ∈ codes, ∃ x e, width e = some p.2 ∧ p.1 = quantize x p.2
  | [], k, codes, h => by
    obtain rfl : [] = codes := Option.some.inj h
    exact ⟨rfl, by simp⟩
  | x :: xs, k, codes, h => by
    rw [List.zipIdx_cons, List.mapM_cons] at h
    obtain ⟨y, hy, hrest⟩ := Option.bind_eq_some_iff.1 h
    obtain ⟨ys, hys, heq⟩ := Option.bind_eq_some_iff.1 hrest
    obtain rfl := Option.some.inj heq
    obtain ⟨bits, hbits, rfl⟩ := Option.map_eq_some_iff.1 hy
    obtain ⟨hwidths, hcodes⟩ := groupCodes_zipIdx xs hys
    refine ⟨?_, List.forall_mem_cons.2 ⟨⟨x, start + k, hbits, rfl⟩, hcodes⟩⟩
    rw [List.length_cons, List.range'_succ, List.mapM_cons, hbits, Nat.add_assoc, hwidths]
    rfl

theorem groupCodes_spec {xs : List UInt32} (h : groupCodes width quantize start xs = some codes) :
    (List.range' start xs.length).mapM width = some (codes.map Prod.snd) ∧
      ∀ p ∈ codes, ∃ x e, width e = some p.2 ∧ p.1 = quantize x p.2 :=
  groupCodes_zipIdx xs h

theorem clampBits_bounds (bits : UInt8) : 1 ≤ clampBits bits ∧ clampBits bits ≤ 8 := by
  rw [clampBits]
  omega

theorem keyWidth_bounds {e bits : ℕ} (h : c.keyWidth t e = some bits) : 1 ≤ bits ∧ bits ≤ 8 := by
  rw [keyWidth] at h
  split at h
  · obtain ⟨b, -, rfl⟩ := Option.map_eq_some_iff.1 h
    exact clampBits_bounds b
  · obtain rfl := Option.some.inj h
    exact clampBits_bounds _

theorem valueWidth_bounds {e bits : ℕ} (h : c.valueWidth t e = some bits) :
    1 ≤ bits ∧ bits ≤ 8 := by
  rw [valueWidth] at h
  split at h
  · obtain ⟨b, -, rfl⟩ := Option.map_eq_some_iff.1 h
    exact clampBits_bounds b
  · obtain rfl := Option.some.inj h
    exact clampBits_bounds _

theorem quantizeKey_lt {bits : ℕ} (hb : 1 ≤ bits) (hb' : bits ≤ 8) (std x : UInt32) :
    quantizeKey std x bits < 2 ^ bits := by
  have hlevels : f32Op .sub (f32OfInt (2 ^ bits : ℕ)) one = f32OfInt (2 ^ bits - 1 : ℕ) := by
    interval_cases bits <;> rfl
  have hpow : 0 < 2 ^ bits := by positivity
  rw [quantizeKey, hlevels]
  have hle := f32ToU32_clamp_le hb hb' (f32Round (f32Op .mul (f32Clamp 0 one (f32Op .mul
    (f32Op .add (f32Op .div x std) one) half)) (f32OfInt (2 ^ bits - 1 : ℕ))))
  omega

theorem quantizeValue_lt {bits : ℕ} (hb : 1 ≤ bits) (hb' : bits ≤ 8) (lo hi x : UInt32) :
    quantizeValue lo hi x bits < 2 ^ bits := by
  have hpow : 2 ≤ 2 ^ bits := Nat.pow_le_pow_right (n := 2) (by decide) hb
  have hmax : maxQ bits = 2 ^ bits - 1 := by
    rw [maxQ]
    omega
  rw [quantizeValue, hmax]
  have hle := f32ToU32_clamp_le hb hb' (f32Round (f32Op .div (f32Op .sub x lo)
    (valueScale lo hi bits)))
  omega

theorem mapM_requests {α : Type} {group : ℕ → Option (List (ℕ × UInt32 × UInt32))} :
    ∀ {gs : List ℕ} {groups : List (α × List (ℕ × ℕ))}, List.Forall₂
      (fun g part => ∃ reqs, group g = some reqs ∧ reqs.map Prod.fst =
        part.2.map Prod.snd) gs groups →
      ∃ reqs, (gs.mapM group).map List.flatten = some reqs ∧
        reqs.map Prod.fst = (codesOf groups).map Prod.snd
  | [], _, .nil => ⟨[], rfl, rfl⟩
  | g :: gs, _, .cons hfirst hrest => by
    obtain ⟨reqs, hgroup, hfst⟩ := hfirst
    obtain ⟨reqs', hgroups, hfst'⟩ := mapM_requests hrest
    obtain ⟨parts, hparts, rfl⟩ := Option.map_eq_some_iff.1 hgroups
    refine ⟨reqs ++ parts.flatten, ?_, ?_⟩
    · rw [List.mapM_cons, hgroup, hparts]
      rfl
    · rw [List.map_append, hfst, hfst', codesOf, codesOf, List.flatMap_cons, List.map_append]

theorem mapM_request {request : ℕ → Option (ℕ × UInt32 × UInt32)} {es : List ℕ} {ws : List ℕ}
    (h : ∀ e, width e = (request e).map Prod.fst) (hws : es.mapM width = some ws) :
    ∃ reqs, es.mapM request = some reqs ∧ reqs.map Prod.fst = ws := by
  rw [mapM_map fun e _ => h e] at hws
  exact Option.map_eq_some_iff.1 hws

theorem groupElems_eq {data : List UInt32} {total : ℕ} (hdata : data.length = total) (g : ℕ) :
    c.groupElems block total g = List.range' (g * c.scaleGroup block.channelAlloc)
      (slice data (g * c.scaleGroup block.channelAlloc)
        (c.scaleGroup block.channelAlloc)).length := by
  rw [groupElems, length_slice, hdata]
  congr 1
  omega

theorem length_rotateRows (rotation : List UInt32) (dim rows : ℕ) (data : List UInt32) :
    (rotateRows rotation dim rows data).length = rows * dim := by
  rw [rotateRows, List.length_flatMap]
  simp [applyRotation]

theorem length_keyData (rotation : ℕ → List UInt32) (t : KvTensors) :
    (c.keyData rotation t).length = t.numTokens * t.numKvHeads * t.headDim := by
  rw [keyData]
  split_ifs
  · exact length_rotateRows ..
  · exact t.keys_length

/-- The block has the shape of the tensors, and the compressor's allocation. -/
structure Shaped (c : LloydMaxCompressor) (t : KvTensors) (block : CompressedKvBlock) : Prop where
  numTokens : block.numTokens = t.numTokens
  numKvHeads : block.numKvHeads = t.numKvHeads
  headDim : block.headDim = t.headDim
  channelAlloc : block.channelAlloc = c.channelAlloc

theorem keyRequest_width (h : c.Shaped t block) (std : UInt32) (e : ℕ) :
    c.keyWidth t e = (c.keyRequest block std e).map Prod.fst := by
  rw [keyWidth, keyRequest, h.channelAlloc, h.headDim, h.numKvHeads]
  rcases c.channelAlloc with _ | a
  · rfl
  · simp only [Option.map_map]
    rfl

theorem valueRequest_width (h : c.Shaped t block) (first lo : UInt32) (e : ℕ) :
    c.valueWidth t e = (c.valueRequest block first lo e).map Prod.fst := by
  rw [valueWidth, valueRequest, h.channelAlloc, h.headDim, h.numKvHeads]
  rcases c.channelAlloc with _ | a
  · rfl
  · simp only [Option.map_map]
    rfl

theorem requests_groups {α : Type} {data : List UInt32} {write : ℕ → Option (α × List (ℕ × ℕ))}
    {groups : List (α × List (ℕ × ℕ))}
    {read : CompressedKvBlock → ℕ → ℕ → Option (List (ℕ × UInt32 × UInt32))}
    (hdata : data.length = totalElems block)
    (h : (groupStarts data.length (c.scaleGroup block.channelAlloc)).bind (List.mapM write) =
      some groups)
    (hgroup : ∀ g part, groups[g]? = some part →
      write (g * c.scaleGroup block.channelAlloc) = some part →
        ∃ reqs, read block (totalElems block) g = some reqs ∧
          reqs.map Prod.fst = part.2.map Prod.snd) :
    ∃ reqs, c.requests block read = some reqs ∧
      reqs.map Prod.fst = (codesOf groups).map Prod.snd := by
  rw [groupStarts] at h
  rw [requests]
  split_ifs at h ⊢ with hzero
  · cases h
  · rw [Option.bind_some, hdata, List.mapM_map, forall₂_of_mapM] at h
    refine mapM_requests ?_
    rw [List.forall₂_iff_get] at h ⊢
    refine ⟨h.1, fun g hg hg' => ?_⟩
    have hwrite := h.2 g hg hg'
    simp only [List.get_eq_getElem, List.getElem_range, Function.comp_apply] at hwrite ⊢
    exact hgroup g _ (List.getElem?_eq_getElem hg') hwrite

theorem requests_keyGroups {rotation : ℕ → List UInt32} {groups : List (UInt32 × List (ℕ × ℕ))}
    (hshape : c.Shaped t block) (hmeta : block.keyMeta = groups.map Prod.fst)
    (h : c.keyGroups rotation t = some groups) :
    ∃ reqs, c.requests block c.keyRequests = some reqs ∧
      reqs.map Prod.fst = (codesOf groups).map Prod.snd := by
  have htotal : (c.keyData rotation t).length = totalElems block := by
    rw [length_keyData, totalElems, hshape.numTokens, hshape.numKvHeads, hshape.headDim]
  rw [keyGroups, ← hshape.channelAlloc] at h
  refine requests_groups htotal h fun g part hpart hwrite => ?_
  obtain ⟨codes, hcodes, rfl⟩ := Option.map_eq_some_iff.1 hwrite
  have hstd : block.keyMeta[g]? = some (stdDev (slice (c.keyData rotation t)
      (g * c.scaleGroup block.channelAlloc) (c.scaleGroup c.channelAlloc))) := by
    rw [hmeta, List.getElem?_map, hpart]
    rfl
  rw [keyRequests, hstd, Option.bind_some, groupElems_eq htotal, hshape.channelAlloc]
  rw [hshape.channelAlloc] at hcodes
  exact mapM_request (keyRequest_width hshape _) (groupCodes_spec hcodes).1

theorem getElem?_pairs {α β : Type} (f g : α → β) : ∀ (xs : List α) (i : ℕ),
    (xs.flatMap fun x => [f x, g x])[i * 2]? = xs[i]?.map f ∧
      (xs.flatMap fun x => [f x, g x])[i * 2 + 1]? = xs[i]?.map g
  | [], i => by simp
  | x :: xs, 0 => ⟨rfl, rfl⟩
  | x :: xs, i + 1 => by
    have hrest := getElem?_pairs f g xs i
    rw [List.flatMap_cons, Nat.succ_mul]
    exact hrest

theorem requests_valueGroups {groups : List ((UInt32 × UInt32) × List (ℕ × ℕ))}
    (hshape : c.Shaped t block)
    (hmeta : block.valueMeta = groups.flatMap fun g => [g.1.1, g.1.2])
    (h : c.valueGroups t = some groups) :
    ∃ reqs, c.requests block c.valueRequests = some reqs ∧
      reqs.map Prod.fst = (codesOf groups).map Prod.snd := by
  have htotal : t.values.length = totalElems block := by
    rw [t.values_length, totalElems, hshape.numTokens, hshape.numKvHeads, hshape.headDim]
  rw [valueGroups, ← hshape.channelAlloc] at h
  refine requests_groups htotal h fun g part hpart hwrite => ?_
  obtain ⟨hfirst, hsecond⟩ := getElem?_pairs (fun g : (UInt32 × UInt32) × List (ℕ × ℕ) => g.1.1)
    (fun g => g.1.2) groups g
  rw [hpart, Option.map_some] at hfirst hsecond
  rw [valueRequests, hmeta, hfirst, hsecond, Option.bind_some, Option.bind_some,
    groupElems_eq htotal]
  obtain ⟨codes, hcodes, rfl⟩ := Option.map_eq_some_iff.1 hwrite
  rw [hshape.channelAlloc] at hcodes ⊢
  exact mapM_request (valueRequest_width hshape _ _) (groupCodes_spec hcodes).1

theorem flatMap_groups (groupSize total : ℕ) : ∀ n, (List.range n).flatMap
    (fun g => List.range' (g * groupSize) (min groupSize (total - g * groupSize))) =
      List.range (min (n * groupSize) total)
  | 0 => by simp
  | n + 1 => by
    rw [List.range_succ, List.flatMap_append, flatMap_groups groupSize total n,
      List.flatMap_singleton, Nat.succ_mul]
    by_cases hn : n * groupSize ≤ total
    · have happend : List.range' 0 (n * groupSize) ++ List.range' (0 + n * groupSize) _ = _ :=
        List.range'_append_1 (n := min groupSize (total - n * groupSize))
      rw [Nat.zero_add] at happend
      rw [Nat.min_eq_left hn, List.range_eq_range', happend, List.range_eq_range']
      congr 1
      omega
    · have hnone : min groupSize (total - n * groupSize) = 0 := by omega
      have hall : min (n * groupSize + groupSize) total = min (n * groupSize) total := by omega
      rw [hnone, hall, List.range'_zero, List.append_nil]

def Fits (p : ℕ × ℕ) : Prop := 1 ≤ p.2 ∧ p.2 ≤ 8 ∧ p.1 < 2 ^ p.2

theorem mapM_codesOf {α : Type} {elems : ℕ → List ℕ} :
    ∀ {gs : List ℕ} {groups : List (α × List (ℕ × ℕ))}, List.Forall₂
      (fun g part => (elems g).mapM width = some (part.2.map Prod.snd) ∧ ∀ p ∈ part.2, Fits p)
        gs groups →
      (gs.flatMap elems).mapM width = some ((codesOf groups).map Prod.snd) ∧
        ∀ p ∈ codesOf groups, Fits p
  | [], _, .nil => ⟨rfl, by simp [codesOf]⟩
  | g :: gs, part :: groups, .cons hfirst hrest => by
    obtain ⟨hwidths, hfits⟩ := mapM_codesOf hrest
    have hcodes : codesOf (part :: groups) = part.2 ++ codesOf groups := rfl
    rw [hcodes]
    refine ⟨?_, List.forall_mem_append.2 ⟨hfirst.2, hfits⟩⟩
    rw [List.flatMap_cons, List.mapM_append, hfirst.1, hwidths, List.map_append]
    rfl

theorem codes_groups {α : Type} {data : List UInt32} {groupSize : ℕ}
    {write : ℕ → Option (α × List (ℕ × ℕ))} {groups : List (α × List (ℕ × ℕ))}
    (h : (groupStarts data.length groupSize).bind (List.mapM write) = some groups)
    (hgroup : ∀ start part, write start = some part →
      (List.range' start (slice data start groupSize).length).mapM width =
        some (part.2.map Prod.snd) ∧ ∀ p ∈ part.2, Fits p) :
    (List.range data.length).mapM width = some ((codesOf groups).map Prod.snd) ∧
      ∀ p ∈ codesOf groups, Fits p := by
  rw [groupStarts] at h
  split_ifs at h with hzero
  · cases h
  · rw [Option.bind_some, List.mapM_map] at h
    have hparts := forall₂_of_mapM.1 h
    have hpos : 0 < groupSize := Nat.pos_of_ne_zero hzero
    have hall : min ((data.length + groupSize - 1) / groupSize * groupSize) data.length =
        data.length := by
      have hceil := Nat.div_add_mod (data.length + groupSize - 1) groupSize
      have hmod := Nat.mod_lt (data.length + groupSize - 1) hpos
      rw [Nat.mul_comm] at hceil
      omega
    rw [← congrArg List.range hall, ← flatMap_groups]
    refine mapM_codesOf (hparts.imp fun g part hpart => ?_)
    rw [← length_slice]
    exact hgroup _ part hpart

theorem codes_keyGroups {rotation : ℕ → List UInt32} {groups : List (UInt32 × List (ℕ × ℕ))}
    (h : c.keyGroups rotation t = some groups) :
    (List.range (t.numTokens * t.numKvHeads * t.headDim)).mapM (c.keyWidth t) =
      some ((codesOf groups).map Prod.snd) ∧ ∀ p ∈ codesOf groups, Fits p := by
  rw [← length_keyData (c := c) rotation t]
  refine codes_groups h fun start part hpart => ?_
  obtain ⟨codes, hcodes, rfl⟩ := Option.map_eq_some_iff.1 hpart
  obtain ⟨hwidths, hquant⟩ := groupCodes_spec hcodes
  refine ⟨hwidths, fun p hp => ?_⟩
  obtain ⟨x, e, hwidth, hcode⟩ := hquant p hp
  obtain ⟨hlo, hhi⟩ := keyWidth_bounds hwidth
  exact ⟨hlo, hhi, hcode ▸ quantizeKey_lt hlo hhi _ x⟩

theorem codes_valueGroups {groups : List ((UInt32 × UInt32) × List (ℕ × ℕ))}
    (h : c.valueGroups t = some groups) :
    (List.range (t.numTokens * t.numKvHeads * t.headDim)).mapM (c.valueWidth t) =
      some ((codesOf groups).map Prod.snd) ∧ ∀ p ∈ codesOf groups, Fits p := by
  rw [← t.values_length]
  refine codes_groups h fun start part hpart => ?_
  obtain ⟨codes, hcodes, rfl⟩ := Option.map_eq_some_iff.1 hpart
  obtain ⟨hwidths, hquant⟩ := groupCodes_spec hcodes
  refine ⟨hwidths, fun p hp => ?_⟩
  obtain ⟨x, e, hwidth, hcode⟩ := hquant p hp
  obtain ⟨hlo, hhi⟩ := valueWidth_bounds hwidth
  exact ⟨hlo, hhi, hcode ▸ quantizeValue_lt hlo hhi _ _ x⟩

theorem compress_ok {rotation : ℕ → List UInt32}
    (h : (c.compress rotation t).run = some (.ok block)) :
    ∃ keyGroups valueGroups, c.keyGroups rotation t = some keyGroups ∧
      c.valueGroups t = some valueGroups ∧ c.Shaped t block ∧
      block.keyBits = (BitWriter.new.pushAll (codesOf keyGroups)).finish ∧
      block.keyMeta = keyGroups.map Prod.fst ∧
      block.valueBits = (BitWriter.new.pushAll (codesOf valueGroups)).finish ∧
      block.valueMeta = valueGroups.flatMap fun g => [g.1.1, g.1.2] := by
  rw [compress] at h
  split at h
  · cases h
  · split at h
    · rename_i keyGroups valueGroups hkeys hvalues
      obtain rfl := Except.ok.inj (Option.some.inj h)
      exact ⟨keyGroups, valueGroups, hkeys, hvalues, ⟨rfl, rfl, rfl, rfl⟩, rfl, rfl, rfl, rfl⟩
    · cases h

/-- The codes of the `total` elements stand in the stream, each is asked for with the width it was
written with, and is read as it was written. -/
structure ReadsBack (width : ℕ → Option ℕ) (total : ℕ) (codes : List (ℕ × ℕ)) (stream : List UInt8)
    (reqs : List (ℕ × UInt32 × UInt32)) : Prop where
  written : stream = (BitWriter.new.pushAll codes).finish
  widths : (List.range total).mapM width = some (codes.map Prod.snd)
  requested : reqs.map Prod.fst = codes.map Prod.snd
  read : totalWidth codes < 2 ^ 32 → readCodes stream reqs = codes.map Prod.fst

theorem reads_back {total : ℕ} {stream : List UInt8} {reqs : List (ℕ × UInt32 × UInt32)}
    (hstream : stream = (BitWriter.new.pushAll codes).finish)
    (hcodes : (List.range total).mapM width = some (codes.map Prod.snd) ∧ ∀ p ∈ codes, Fits p)
    (hreqs : reqs.map Prod.fst = codes.map Prod.snd) : ReadsBack width total codes stream reqs where
  written := hstream
  widths := hcodes.1
  requested := hreqs
  read hroom := by
    rw [readCodes, hreqs, hstream]
    exact nextAll_pushAll (fun p hp => (hcodes.2 p hp).2.2) hroom

/-- The keys and the values with these codes, by the numbers that were asked for with them. -/
def decode (rotation : ℕ → List UInt32) (block : CompressedKvBlock) (keyCodes valueCodes : List ℕ)
    (keyReqs valueReqs : List (ℕ × UInt32 × UInt32)) : List UInt32 × List UInt32 :=
  let keys := List.zipWith (fun q r => dequantizeKey q r.2.1 r.2.2) keyCodes keyReqs
  let values := List.zipWith (fun q r => dequantizeValue q r.2.1 r.2.2) valueCodes valueReqs
  (if block.channelAlloc.isNone then
      rotateRows (transpose (rotation block.headDim) block.headDim) block.headDim
        (block.numTokens * block.numKvHeads) keys
    else keys, values)

theorem dequantizeForAttention_eq {rotation : ℕ → List UInt32} {keyCodes valueCodes : List ℕ}
    {keyReqs valueReqs : List (ℕ × UInt32 × UInt32)}
    (hkeyReqs : c.requests block c.keyRequests = some keyReqs)
    (hvalueReqs : c.requests block c.valueRequests = some valueReqs)
    (hkeys : readCodes block.keyBits keyReqs = keyCodes)
    (hvalues : readCodes block.valueBits valueReqs = valueCodes) :
    c.dequantizeForAttention rotation block =
      some (decode rotation block keyCodes valueCodes keyReqs valueReqs) := by
  rw [dequantizeForAttention, hkeyReqs, hvalueReqs, ← hkeys, ← hvalues]
  rfl

/-- Codes are read as they were written; and the widths that are asked for are those that were
written, element by element, for the keys and for the values, so that the decoder decodes the codes
that were written. -/
theorem codes_read_as_written :
    (∀ codes : List (ℕ × ℕ), (∀ p ∈ codes, 1 ≤ p.2 ∧ p.2 ≤ 8 ∧ p.1 < 2 ^ p.2) →
      totalWidth codes < 2 ^ 32 →
        (BitReader.new (BitWriter.new.pushAll codes).finish).nextAll (codes.map Prod.snd) =
          codes.map Prod.fst) ∧
      ∀ (c : LloydMaxCompressor) (rotation : ℕ → List UInt32) (t : KvTensors)
        (block : CompressedKvBlock), (c.compress rotation t).run = some (.ok block) →
          ∃ keyGroups valueGroups keyReqs valueReqs,
            c.keyGroups rotation t = some keyGroups ∧ c.valueGroups t = some valueGroups ∧
            c.requests block c.keyRequests = some keyReqs ∧
            c.requests block c.valueRequests = some valueReqs ∧
            ReadsBack (c.keyWidth t) (t.numTokens * t.numKvHeads * t.headDim) (codesOf keyGroups)
              block.keyBits keyReqs ∧
            ReadsBack (c.valueWidth t) (t.numTokens * t.numKvHeads * t.headDim)
              (codesOf valueGroups) block.valueBits valueReqs ∧
            (totalWidth (codesOf keyGroups) < 2 ^ 32 → totalWidth (codesOf valueGroups) < 2 ^ 32 →
              c.dequantizeForAttention rotation block =
                some (decode rotation block ((codesOf keyGroups).map Prod.fst)
                  ((codesOf valueGroups).map Prod.fst) keyReqs valueReqs)) := by
  refine ⟨fun codes hfits hroom => nextAll_pushAll (fun p hp => (hfits p hp).2.2) hroom,
    fun c rotation t block h => ?_⟩
  obtain ⟨keyGroups, valueGroups, hkeys, hvalues, hshape, hkeyBits, hkeyMeta, hvalueBits,
    hvalueMeta⟩ := compress_ok h
  obtain ⟨keyReqs, hkeyReqs, hkeyWidths⟩ := requests_keyGroups hshape hkeyMeta hkeys
  obtain ⟨valueReqs, hvalueReqs, hvalueWidths⟩ := requests_valueGroups hshape hvalueMeta hvalues
  have hkeyCodes := reads_back hkeyBits (codes_keyGroups hkeys) hkeyWidths
  have hvalueCodes := reads_back hvalueBits (codes_valueGroups hvalues) hvalueWidths
  exact ⟨keyGroups, valueGroups, keyReqs, valueReqs, hkeys, hvalues, hkeyReqs, hvalueReqs,
    hkeyCodes, hvalueCodes, fun hroom hroom' => dequantizeForAttention_eq hkeyReqs hvalueReqs
      (hkeyCodes.read hroom) (hvalueCodes.read hroom')⟩

/-- A head of two channels, the keys of three bits and the values of five. -/
def sampleCompressor : LloydMaxCompressor := ⟨⟨4, 4, 32⟩, some ⟨1, 2, 32, [[3]], [[5]]⟩⟩

def sampleTensors : KvTensors := ⟨1, 1, 2, [one, 0], [one, 0], rfl, rfl⟩

def sampleBlock : CompressedKvBlock where
  keyBits := [39]
  keyMeta := [0x3F3504F3]
  valueBits := [31, 0]
  valueMeta := [one, 0]
  numTokens := 1
  numKvHeads := 1
  headDim := 2
  modality := .text
  channelAlloc := some ⟨1, 2, 32, [[3]], [[5]]⟩

theorem codes_read_as_written_sample :
    (BitReader.new (BitWriter.new.pushAll [(7, 3), (4, 3)]).finish).nextAll [3, 3] = [7, 4] ∧
      ∃ keyGroups valueGroups keyReqs valueReqs,
        sampleCompressor.keyGroups (fun _ => []) sampleTensors = some keyGroups ∧
        sampleCompressor.valueGroups sampleTensors = some valueGroups ∧
        sampleCompressor.requests sampleBlock sampleCompressor.keyRequests = some keyReqs ∧
        sampleCompressor.requests sampleBlock sampleCompressor.valueRequests = some valueReqs ∧
        ReadsBack (sampleCompressor.keyWidth sampleTensors) 2 (codesOf keyGroups) [39] keyReqs ∧
        ReadsBack (sampleCompressor.valueWidth sampleTensors) 2 (codesOf valueGroups) [31, 0]
          valueReqs ∧
        (totalWidth (codesOf keyGroups) < 2 ^ 32 → totalWidth (codesOf valueGroups) < 2 ^ 32 →
          sampleCompressor.dequantizeForAttention (fun _ => []) sampleBlock =
            some (decode (fun _ => []) sampleBlock ((codesOf keyGroups).map Prod.fst)
              ((codesOf valueGroups).map Prod.fst) keyReqs valueReqs)) :=
  ⟨codes_read_as_written.1 [(7, 3), (4, 3)] (by decide) (by decide),
    codes_read_as_written.2 sampleCompressor (fun _ => []) sampleTensors sampleBlock
      (by decide +kernel)⟩

end LloydMaxCompressor

end Grim.KvQuant
