import Grim.Lib.Cursor
import Grim.Quant.Fp8

/-!
# The wire format of ScrubJay

Four sections, each behind its own count, and a pre-scale of four bytes.  `deserialize` reads a
section wherever the bytes suffice; it does not compare the counts, nor look at the selectors.
Floats are their bits.
-/

namespace Grim.Quant

open LittleEndian Slice Checked List

structure ScrubJayTensor where
  selectors : List UInt8
  indices : List UInt8
  signs : List UInt8
  scales : List UInt32
  preScale : UInt32
deriving DecidableEq, Repr

def packIndices : List UInt8 → List UInt8
  | [] => []
  | [i] => [(i &&& (0x0F : UInt8)) ||| (((0 : UInt8) &&& (0x0F : UInt8)) <<< 4)]
  | i :: j :: rest =>
    ((i &&& (0x0F : UInt8)) ||| ((j &&& (0x0F : UInt8)) <<< 4)) :: packIndices rest

def serialize (selectors indices signs : List UInt8) (scales : List UInt32) (preScale : UInt32) :
    List UInt8 :=
  bytes 8 selectors.length ++ selectors ++
    (bytes 8 indices.length ++ packIndices indices) ++
    (bytes 8 signs.length ++ signs) ++
    (bytes 8 scales.length ++ scales.map f32ToFp8E4m3) ++ word preScale

def unpackIndices (packed : List UInt8) : List UInt8 :=
  packed.flatMap fun b => [b &&& 0x0F, b >>> 4]

/-- The next `n` bytes. -/
def take (b : List UInt8) (n : ℕ) : Cursor String (List UInt8) := fun at_ =>
  if 2 ^ 64 ≤ at_ + n then throw "length overflow"
  else if b.length < at_ + n then throw "truncated"
  else do
    let s ← range b at_ (at_ + n)
    pure (s, at_ + n)

def takeU64 (b : List UInt8) : Cursor String ℕ := do
  let s ← take b 8
  pure (value s)

def sections (b : List UInt8) : Cursor String ScrubJayTensor := do
  let nSel ← takeU64 b
  let selectors ← take b nSel
  let nIdx ← takeU64 b
  if nIdx % 2 ≠ 0 then Cursor.fail "index count must be even (two per byte)"
  else do
    let packed ← take b (nIdx / 2)
    let nSigns ← takeU64 b
    let signs ← take b nSigns
    let nScales ← takeU64 b
    let scaleBytes ← take b nScales
    let pre ← take b 4
    pure ⟨selectors, unpackIndices packed, signs, scaleBytes.map fp8E4m3ToF32, ofWord pre⟩

def deserialize (b : List UInt8) : Checked String ScrubJayTensor := do
  let r ← (sections b).run 0
  if r.2 ≠ b.length then throw "trailing bytes" else pure r.1

section Sections

variable {α β : Type} {b s t : List UInt8} {n p p' : ℕ} {x : β × ℕ}

/-- The bytes `s` stand in the buffer from `p` on. -/
structure At (b : List UInt8) (p : ℕ) (s : List UInt8) : Prop where
  le : p + s.length ≤ b.length
  eq : slice b p s.length = s

theorem at_append : At b p (s ++ t) ↔ At b p s ∧ At b (p + s.length) t := by
  constructor
  · rintro ⟨hle, heq⟩
    rw [length_append] at hle heq
    rw [slice_add] at heq
    obtain ⟨hs, ht⟩ := append_inj heq (by rw [length_slice]; omega)
    exact ⟨⟨by omega, hs⟩, ⟨by omega, ht⟩⟩
  · rintro ⟨⟨hsle, hs⟩, ⟨htle, ht⟩⟩
    refine ⟨by rw [length_append]; omega, ?_⟩
    rw [length_append, slice_add, hs, ht]

theorem at_zero : At b 0 s ∧ s.length = b.length ↔ b = s := by
  constructor
  · rintro ⟨⟨-, heq⟩, hlen⟩
    rwa [hlen, slice, drop_zero, take_length] at heq
  · rintro rfl
    exact ⟨⟨by omega, by rw [slice, drop_zero, take_length]⟩, rfl⟩

theorem run_take : (take b n).run p =
    if 2 ^ 64 ≤ p + n then throw "length overflow"
    else if b.length < p + n then throw "truncated"
    else range b p (p + n) >>= fun s => pure (s, p + n) := rfl

theorem run_take_of_le (h : p + n ≤ b.length) (hfits : b.length < 2 ^ 63) :
    (take b n).run p = pure (slice b p n, p + n) := by
  rw [run_take, if_neg (by omega), if_neg (by omega), range_eq (Nat.le_add_right p n) h,
    Nat.add_sub_cancel_left, pure_bind]

theorem run_take_of_lt (h : b.length < p + n) : ∃ e, (take b n).run p = throw e := by
  rw [run_take]
  by_cases hover : 2 ^ 64 ≤ p + n
  · rw [if_pos hover]
    exact ⟨_, rfl⟩
  · rw [if_neg hover, if_pos h]
    exact ⟨_, rfl⟩

theorem take_bind_ok {f : List UInt8 → Cursor String β} (hfits : b.length < 2 ^ 63) :
    ((take b n >>= f).run p).run = some (.ok x) ↔
      ∃ s, s.length = n ∧ At b p s ∧ ((f s).run (p + s.length)).run = some (.ok x) := by
  rw [StateT.run_bind]
  by_cases hle : p + n ≤ b.length
  · rw [run_take_of_le hle hfits, pure_bind]
    have hlen : (slice b p n).length = n := by
      rw [length_slice]
      omega
    constructor
    · intro h
      exact ⟨slice b p n, hlen, ⟨by omega, by rw [hlen]⟩, by rwa [hlen]⟩
    · rintro ⟨s, hs, hat, h⟩
      have hslice := hat.eq
      rw [hs] at hslice h
      rwa [hslice]
  · obtain ⟨e, he⟩ := run_take_of_lt (Nat.not_le.1 hle)
    rw [he]
    constructor
    · intro h
      cases h
    · rintro ⟨s, hs, hat, -⟩
      have := hat.le
      omega

theorem takeU64_bind_ok {f : ℕ → Cursor String β} (hfits : b.length < 2 ^ 63) :
    ((takeU64 b >>= f).run p).run = some (.ok x) ↔
      ∃ n < 2 ^ 64, At b p (bytes 8 n) ∧ ((f n).run (p + 8)).run = some (.ok x) := by
  rw [takeU64, bind_assoc, take_bind_ok hfits]
  constructor
  · rintro ⟨s, hs, hat, h⟩
    have hlt := value_lt s
    rw [hs] at hlt
    refine ⟨value s, hlt, ?_, ?_⟩
    · rwa [← hs, bytes_value]
    · rwa [pure_bind, hs] at h
  · rintro ⟨n, hn, hat, h⟩
    refine ⟨bytes 8 n, length_bytes 8 n, hat, ?_⟩
    rwa [pure_bind, value_bytes 8 n hn, length_bytes]

theorem section_bind_ok {f : List UInt8 → Cursor String β} (hfits : b.length < 2 ^ 63) :
    ((takeU64 b >>= fun n => take b n >>= f).run p).run = some (.ok x) ↔
      ∃ s, At b p (bytes 8 s.length ++ s) ∧
        ((f s).run (p + (bytes 8 s.length ++ s).length)).run = some (.ok x) := by
  simp only [takeU64_bind_ok hfits, take_bind_ok hfits, at_append, length_append,
    length_bytes]
  constructor
  · rintro ⟨n, -, hcount, s, rfl, hs, h⟩
    exact ⟨s, ⟨hcount, hs⟩, by rwa [← Nat.add_assoc]⟩
  · rintro ⟨s, ⟨hcount, hs⟩, h⟩
    have := hs.le
    exact ⟨s.length, by omega, hcount, s, rfl, hs, by rwa [Nat.add_assoc]⟩

theorem nibbles_bind_ok {f : List UInt8 → Cursor String β} {e : String}
    (hfits : b.length < 2 ^ 63) :
    ((takeU64 b >>= fun n => if n % 2 ≠ 0 then Cursor.fail e
        else take b (n / 2) >>= f).run p).run = some (.ok x) ↔
      ∃ s, At b p (bytes 8 (2 * s.length) ++ s) ∧
        ((f s).run (p + (bytes 8 (2 * s.length) ++ s).length)).run = some (.ok x) := by
  rw [takeU64_bind_ok hfits]
  constructor
  · rintro ⟨n, -, hcount, h⟩
    split_ifs at h with hodd
    · cases h
    · obtain ⟨s, hs, hat, h⟩ := (take_bind_ok hfits).1 h
      have hn : n = 2 * s.length := by omega
      subst hn
      refine ⟨s, at_append.2 ⟨hcount, by rwa [length_bytes]⟩, ?_⟩
      rwa [length_append, length_bytes, ← Nat.add_assoc]
  · rintro ⟨s, hat, h⟩
    obtain ⟨hcount, hs⟩ := at_append.1 hat
    rw [length_bytes] at hs
    rw [length_append, length_bytes, ← Nat.add_assoc] at h
    have := hs.le
    refine ⟨2 * s.length, by omega, hcount, ?_⟩
    rw [if_neg (by omega)]
    exact (take_bind_ok hfits).2 ⟨s, by omega, hs, h⟩

/-- The four sections as they stand in a buffer, each behind its count, and the pre-scale. -/
def wire (selectors packed signs scales pre : List UInt8) : List UInt8 :=
  (bytes 8 selectors.length ++ selectors) ++ ((bytes 8 (2 * packed.length) ++ packed) ++
    ((bytes 8 signs.length ++ signs) ++ ((bytes 8 scales.length ++ scales) ++ pre)))

theorem run_pure_ok {a : β} {c : Cursor String β} (hc : c = pure a) :
    (c.run p).run = some (.ok x) ↔ x = (a, p) := by
  subst hc
  constructor
  · intro h
    cases h
    rfl
  · rintro rfl
    rfl

theorem sections_ok (hfits : b.length < 2 ^ 63) {t : ScrubJayTensor} :
    ((sections b).run 0).run = some (.ok (t, p)) ↔
      ∃ selectors packed signs scales pre, pre.length = 4 ∧
        At b 0 (wire selectors packed signs scales pre) ∧
        p = (wire selectors packed signs scales pre).length ∧
        t = ⟨selectors, unpackIndices packed, signs, scales.map fp8E4m3ToF32, ofWord pre⟩ := by
  simp only [sections, section_bind_ok hfits, nibbles_bind_ok hfits, take_bind_ok hfits,
    run_pure_ok rfl, wire, at_append, Prod.mk.injEq]
  constructor
  · rintro ⟨selectors, hsel, packed, hidx, signs, hsigns, scales, hscales, pre, hpre, hat, ht, hp⟩
    refine ⟨selectors, packed, signs, scales, pre, hpre, ⟨hsel, hidx, hsigns, hscales, hat⟩, ?_, ht⟩
    simp only [length_append] at hp ⊢
    omega
  · rintro ⟨selectors, packed, signs, scales, pre, hpre, ⟨hsel, hidx, hsigns, hscales, hat⟩, hp, ht⟩
    refine ⟨selectors, hsel, packed, hidx, signs, hsigns, scales, hscales, pre, hpre, hat, ht, ?_⟩
    simp only [length_append] at hp ⊢
    omega

theorem deserialize_ok (hfits : b.length < 2 ^ 63) {t : ScrubJayTensor} :
    (deserialize b).run = some (.ok t) ↔
      ∃ selectors packed signs scales pre, pre.length = 4 ∧
        b = wire selectors packed signs scales pre ∧
        t = ⟨selectors, unpackIndices packed, signs, scales.map fp8E4m3ToF32, ofWord pre⟩ := by
  rw [deserialize, Checked.run_bind_ok]
  constructor
  · rintro ⟨⟨t', p⟩, hrun, hrest⟩
    obtain ⟨selectors, packed, signs, scales, pre, hpre, hat, hp, rfl⟩ := (sections_ok hfits).1 hrun
    split_ifs at hrest with hend
    · cases hrest
    · cases hrest
      exact ⟨selectors, packed, signs, scales, pre, hpre,
        at_zero.1 ⟨hat, by rw [← hp]; exact not_not.1 hend⟩, rfl⟩
  · rintro ⟨selectors, packed, signs, scales, pre, hpre, hb, rfl⟩
    obtain ⟨hat, hlen⟩ := at_zero.2 hb
    refine ⟨(_, b.length), (sections_ok hfits).2
      ⟨selectors, packed, signs, scales, pre, hpre, hat, hlen.symm, rfl⟩, ?_⟩
    rw [if_neg (not_not.2 rfl)]
    rfl

/-- From every position of the buffer the cursor returns or errs, and stays in the buffer. -/
def Stays (b : List UInt8) (c : Cursor String α) : Prop :=
  ∀ p ≤ b.length, (∃ e, c.run p = throw e) ∨ ∃ a p', p' ≤ b.length ∧ c.run p = pure (a, p')

theorem stays_take (hfits : b.length < 2 ^ 63) (n : ℕ) : Stays b (take b n) := by
  intro p hp
  by_cases hle : p + n ≤ b.length
  · exact .inr ⟨_, _, hle, run_take_of_le hle hfits⟩
  · exact .inl (run_take_of_lt (Nat.not_le.1 hle))

theorem stays_pure (a : α) : Stays b (pure a) := fun p hp => .inr ⟨a, p, hp, rfl⟩

theorem stays_fail (e : String) : Stays b (Cursor.fail e : Cursor String α) :=
    fun _ _ => .inl ⟨e, rfl⟩

theorem Stays.bind {c : Cursor String α} {f : α → Cursor String β} (hc : Stays b c)
    (hf : ∀ a, Stays b (f a)) : Stays b (c >>= f) := by
  intro p hp
  rcases hc p hp with ⟨e, he⟩ | ⟨a, p', hp', ha⟩
  · refine .inl ⟨e, ?_⟩
    rw [StateT.run_bind, he]
    rfl
  · rw [StateT.run_bind, ha]
    exact hf a p' hp'

theorem stays_takeU64 (hfits : b.length < 2 ^ 63) : Stays b (takeU64 b) :=
  (stays_take hfits 8).bind fun _ => stays_pure _

theorem stays_sections (hfits : b.length < 2 ^ 63) : Stays b (sections b) := by
  refine (stays_takeU64 hfits).bind fun _ => (stays_take hfits _).bind fun _ =>
    (stays_takeU64 hfits).bind fun _ => ?_
  split_ifs
  · exact stays_fail _
  · exact (stays_take hfits _).bind fun _ => (stays_takeU64 hfits).bind fun _ =>
      (stays_take hfits _).bind fun _ => (stays_takeU64 hfits).bind fun _ =>
      (stays_take hfits _).bind fun _ => (stays_take hfits _).bind fun _ => stays_pure _

theorem safe_deserialize (hfits : b.length < 2 ^ 63) : (deserialize b).Safe := by
  rw [deserialize]
  rcases stays_sections hfits 0 (Nat.zero_le _) with ⟨e, he⟩ | ⟨t, p, -, ht⟩
  · rw [he]
    exact safe_of_run rfl
  · rw [ht, pure_bind]
    by_cases hp : p ≠ b.length
    · exact safe_of_run (by rw [if_pos hp]; rfl)
    · exact safe_of_run (by rw [if_neg hp]; rfl)

end Sections

/-- A tensor of `n` blocks, in memory. -/
structure Blocks (n : ℕ) (t : ScrubJayTensor) : Prop where
  selectors : t.selectors.length = n
  indices : t.indices.length = 8 * n
  nibbles : ∀ i ∈ t.indices, i < 16
  signs : t.signs.length = n
  scales : t.scales.length = n
  codes : ∀ s ∈ t.scales, ∃ code, fp8E4m3ToF32 code = s
  fits : t.indices.length < 2 ^ 63

structure Consistent (t : ScrubJayTensor) : Prop where
  signs : t.signs.length = t.selectors.length
  scales : t.scales.length = t.selectors.length
  indices : t.indices.length = 8 * t.selectors.length
  selectors : ∀ s ∈ t.selectors, s < 16

/-- Read as four sections and a pre-scale, the bytes have as many signs and scales as selectors,
four bytes of indices for each, and no selector past the last codebook. -/
def SectionsAgree (b : List UInt8) : Prop :=
  ∀ selectors packed signs scales pre, pre.length = 4 → b = wire selectors packed signs scales pre →
    signs.length = selectors.length ∧ scales.length = selectors.length ∧
      packed.length = 4 * selectors.length ∧ ∀ s ∈ selectors, s < 16

theorem unpack_packIndices : ∀ {indices : List UInt8}, indices.length % 2 = 0 →
    (∀ i ∈ indices, i < 16) → unpackIndices (packIndices indices) = indices
  | [], _, _ => rfl
  | [_], h, _ => by simp at h
  | i :: j :: rest, h, hlt => by
    have hpair : ∀ i j : Fin 16,
        (UInt8.ofNat i &&& (0x0F : UInt8) ||| (UInt8.ofNat j &&& (0x0F : UInt8)) <<< 4) &&& 0x0F =
            UInt8.ofNat i ∧
          (UInt8.ofNat i &&& (0x0F : UInt8) ||| (UInt8.ofNat j &&& (0x0F : UInt8)) <<< 4) >>> 4 =
            UInt8.ofNat j := by decide +kernel
    obtain ⟨hi, hj⟩ := hpair ⟨i.toNat, hlt i (by simp)⟩ ⟨j.toNat, hlt j (by simp)⟩
    simp only [UInt8.ofNat_toNat] at hi hj
    have ih := @unpack_packIndices rest (by simp at h; omega)
      fun k hk => hlt k (by simp [hk])
    rw [unpackIndices] at ih ⊢
    rw [packIndices, flatMap_cons, ih, hi, hj]
    rfl

theorem length_packIndices : ∀ {indices : List UInt8}, indices.length % 2 = 0 →
    2 * (packIndices indices).length = indices.length
  | [], _ => rfl
  | [_], h => by simp at h
  | _ :: _ :: rest, h => by
    have ih := @length_packIndices rest (by simp at h; omega)
    simp only [packIndices, length_cons]
    omega

theorem length_unpackIndices (packed : List UInt8) :
    (unpackIndices packed).length = 2 * packed.length := by
  simp [unpackIndices, length_flatMap, Nat.mul_comm]

theorem length_wire (selectors packed signs scales pre : List UInt8) :
    (wire selectors packed signs scales pre).length =
      selectors.length + packed.length + signs.length + scales.length + pre.length + 32 := by
  simp only [wire, length_append, length_bytes]
  omega

theorem deserialize_serialize {n : ℕ} {t : ScrubJayTensor} (h : Blocks n t) :
    (deserialize (serialize t.selectors t.indices t.signs t.scales t.preScale)).run =
      some (.ok t) := by
  obtain ⟨selectors, indices, signs, scales, preScale⟩ := t
  obtain ⟨hsel, hidx, hnib, hsigns, hscales, hcodes, hfits⟩ := h
  simp only at hsel hidx hnib hsigns hscales hcodes hfits
  have heven : indices.length % 2 = 0 := by omega
  have hpacked := length_packIndices heven
  have hwire : serialize selectors indices signs scales preScale =
      wire selectors (packIndices indices) signs (scales.map f32ToFp8E4m3) (word preScale) := by
    simp only [serialize, wire, hpacked, length_map, append_assoc]
  have hlen := length_wire selectors (packIndices indices) signs (scales.map f32ToFp8E4m3)
    (word preScale)
  rw [length_map, length_word] at hlen
  have hback : (scales.map f32ToFp8E4m3).map fp8E4m3ToF32 = scales := by
    rw [map_map]
    have hsame : scales.map (fp8E4m3ToF32 ∘ f32ToFp8E4m3) = scales.map id := by
      refine map_congr_left fun s hs => ?_
      obtain ⟨code, rfl⟩ := hcodes s hs
      exact e4m3RoundTrip_fp8E4m3ToF32 code
    rw [hsame, map_id]
  rw [hwire]
  refine (deserialize_ok (by omega)).2 ⟨_, _, _, _, _, length_word _, rfl, ?_⟩
  rw [unpack_packIndices heven hnib, hback, ofWord_word]

/-- Whole tensors come back.  A buffer is accepted for a consistent tensor only, whenever the
sections in it agree. -/
theorem consistent_iff_sectionsAgree (buf : Buffer) :
    (∀ n t, Blocks n t →
      (deserialize (serialize t.selectors t.indices t.signs t.scales t.preScale)).run =
        some (.ok t)) ∧
    (((deserialize buf.bytes).Safe ∧
      ∀ t, (deserialize buf.bytes).run = some (.ok t) → Consistent t) ↔
        SectionsAgree buf.bytes) := by
  refine ⟨fun n t h => deserialize_serialize h, ?_⟩
  constructor
  · rintro ⟨-, h⟩ selectors packed signs scales pre hpre hb
    obtain ⟨hsigns, hscales, hidx, hsel⟩ := h _ ((deserialize_ok buf.fits).2
      ⟨selectors, packed, signs, scales, pre, hpre, hb, rfl⟩)
    rw [length_unpackIndices] at hidx
    rw [length_map] at hscales
    exact ⟨hsigns, hscales, by dsimp only at hidx; omega, hsel⟩
  · intro h
    refine ⟨safe_deserialize buf.fits, fun t ht => ?_⟩
    obtain ⟨selectors, packed, signs, scales, pre, hpre, hb, rfl⟩ :=
      (deserialize_ok buf.fits).1 ht
    obtain ⟨hsigns, hscales, hidx, hsel⟩ := h _ _ _ _ _ hpre hb
    have hcount : (unpackIndices packed).length = 8 * selectors.length := by
      rw [length_unpackIndices, hidx]
      omega
    exact ⟨hsigns, by rwa [length_map], hcount, hsel⟩

/-- A tensor of two blocks, with the scales `1.0` and `2.0`. -/
example : Blocks 2 ⟨[3, 15], [0, 1, 2, 3, 4, 5, 6, 7, 8, 9, 10, 11, 12, 13, 14, 15], [0x5A, 0xFF],
    [fp8E4m3ToF32 0x38, fp8E4m3ToF32 0x40], 0x3F800000⟩ :=
  ⟨rfl, rfl, by decide +kernel, rfl, rfl,
    forall_mem_cons.2 ⟨⟨_, rfl⟩, forall_mem_singleton.2 ⟨_, rfl⟩⟩,
    by decide⟩

/-- One sign and nothing it is the sign of. -/
theorem lone_sign_accepted :
    ¬ ∀ buf : Buffer, ∀ t, (deserialize buf.bytes).run = some (.ok t) → Consistent t := by
  intro h
  have hok : (deserialize (wire [] [] [0] [] [0, 0, 0, 0])).run =
      some (.ok ⟨[], [], [0], [], 0⟩) := by decide +kernel
  exact absurd (h ⟨wire [] [] [0] [] [0, 0, 0, 0], by decide⟩ _ hok).signs (by decide)

end Grim.Quant
