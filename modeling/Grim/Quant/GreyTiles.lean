import Grim.Lib.BitStream
import Grim.Lib.LittleEndian
import Grim.Lib.Slice
import Grim.Lib.Sweep
import Grim.Quant.Fp8

/-!
# Tiles of two of four

The hardware takes a tile of sixteen rows a window of thirty-two columns at a time: 256 bytes in
the order of its lanes and a word of four selectors, each for two of the window's eight groups.
`pack_grey_raven_hw` writes them and `dequant_grey_raven_hw` reads the matrix back.

An `f32` is its bits, a matrix the list of its rows, and `none` is a panic.
-/

namespace Grim.Quant

open BitStream LittleEndian Slice Sweep List Option

def hwTileWindowBytes : ℕ := 256 + 4

/-- `rows.div_ceil(16)` -/
def nTiles (rows : ℕ) : ℕ := (rows + 15) / 16

/-- `cols.div_ceil(32)` -/
def nWindows (cols : ℕ) : ℕ := (cols + 31) / 32

def patternBase (cols t w : ℕ) : ℕ := (t * nWindows cols + w) * 4

/-- The lane `l`, the position `tt` in it and the rank, as the loops take them. -/
def positions : List (ℕ × ℕ × ℕ) :=
  (List.range 32).flatMap fun l => (List.range 4).flatMap fun tt => [(l, tt, 0), (l, tt, 1)]

/-- `usize::from(l >= 16)` -/
def half (l : ℕ) : ℕ := if 16 ≤ l then 1 else 0

/-- The selectors of a window, pattern `p` at the bits from `4 * p` on. -/
def sidxWord (patterns : List (UInt8 × UInt8)) (base : ℕ) : Option UInt32 :=
  (List.range 4).foldlM
    (fun word p => do
      let pat ← patterns[base + p]?
      pure (word ||| (pat.1.toUInt32 ||| pat.2.toUInt32 <<< 2) <<< UInt32.ofNat (4 * p)))
    0

def packCell (weights : List UInt32) (rows cols : ℕ) (patterns : List (UInt8 × UInt8)) (t w : ℕ)
    (frag : List UInt8) : ℕ × ℕ × ℕ → Option (List UInt8)
  | (l, tt, rank) => do
    let r := 16 * t + l % 16
    let g := 8 * w + 4 * half l + tt
    let pat ← patterns[patternBase cols t w + tt % 4]?
    let slot := (if rank = 0 then pat.1 else pat.2).toNat
    let k := 4 * g + slot
    let v ← (if r < rows ∧ k < cols then weights[r * cols + k]? else some 0)
    store frag (l * 8 + 2 * tt + rank) (f32ToFp8E4m3 v)

def packTile (weights : List UInt32) (rows cols : ℕ) (patterns : List (UInt8 × UInt8))
    (t w : ℕ) : Option (List UInt8) := do
  let sidx ← sidxWord patterns (patternBase cols t w)
  let frag ← positions.foldlM (packCell weights rows cols patterns t w) (List.replicate 256 0)
  pure (frag ++ word sidx)

def packGreyRavenHw (weights : List UInt32) (rows cols : ℕ) (patterns : List (UInt8 × UInt8)) :
    Option (Except String (List UInt8)) :=
  if rows = 0 ∨ cols = 0 then some (.error "need nonzero rows and cols")
  else if weights.length < rows * cols then some (.error "weights shorter than rows*cols")
  else if patterns.length < nTiles rows * nWindows cols * 4 then
    some (.error "patterns shorter than n_tiles*n_windows*4")
  else
    ((List.range (nTiles rows)).foldlM
      (fun blob t => (List.range (nWindows cols)).foldlM
        (fun blob w => do
          let tile ← packTile weights rows cols patterns t w
          pure (blob ++ tile))
        blob)
      []).map .ok

def selector (sidx : UInt32) (bit : ℕ) : ℕ := ((sidx >>> UInt32.ofNat bit) &&& 3).toNat

def decodeCell (blob : List UInt8) (rows cols base t w : ℕ) (sidx : UInt32) (out : List UInt32) :
    ℕ × ℕ × ℕ → Option (List UInt32)
  | (l, tt, rank) =>
    let r := 16 * t + l % 16
    if rows ≤ r then some out
    else do
      let p := tt % 4
      let fa := selector sidx (4 * p)
      let fb := selector sidx (4 * p + 2)
      let g := 8 * w + 4 * half l + tt % 4
      let code ← blob[base + l * 8 + (2 * (tt % 4) + rank)]?
      -- the same slot twice is the broadcast of one byte
      let slot := if rank = 1 ∧ fa ≠ fb then fb else fa
      let k := 4 * g + slot
      if k < cols then store out (r * cols + k) (fp8E4m3ToF32 code) else some out

def decodeTile (blob : List UInt8) (rows cols t w : ℕ) (out : List UInt32) :
    Option (List UInt32) :=
  let base := (t * nWindows cols + w) * hwTileWindowBytes
  if base + 260 ≤ blob.length then
    positions.foldlM (decodeCell blob rows cols base t w (ofWord (slice blob (base + 256) 4))) out
  else none

def dequantGreyRavenHw (blob : List UInt8) (rows cols : ℕ) :
    Option (Except String (List UInt32)) :=
  if rows = 0 ∨ cols = 0 then some (.error "need nonzero rows and cols")
  else if blob.length ≠ nTiles rows * nWindows cols * hwTileWindowBytes then
    some (.error "blob length does not match tiling geometry")
  else
    ((List.range (nTiles rows)).foldlM
      (fun out t => (List.range (nWindows cols)).foldlM
        (fun out w => decodeTile blob rows cols t w out) out)
      (List.replicate (rows * cols) 0)).map .ok

section Cells

variable {l tt rank r k m n i : ℕ} {position : ℕ × ℕ × ℕ}

theorem mem_positions : position ∈ positions ↔
    position.1 < 32 ∧ position.2.1 < 4 ∧ position.2.2 < 2 := by
  obtain ⟨l, tt, rank⟩ := position
  simp only [positions, mem_flatMap, mem_range, mem_cons, not_mem_nil, or_false,
    Prod.mk.injEq]
  constructor
  · rintro ⟨l', hl, tt', htt, h⟩
    omega
  · rintro ⟨hl, htt, hrank⟩
    exact ⟨l, hl, tt, htt, by omega⟩

theorem half_eq (h : l < 32) : half l = l / 16 := by
  rw [half]
  split_ifs <;> omega

theorem cell_lt (hr : r < m) (hk : k < n) : r * n + k < m * n := by
  calc r * n + k < r * n + n := Nat.add_lt_add_left hk _
    _ = (r + 1) * n := (Nat.succ_mul r n).symm
    _ ≤ m * n := Nat.mul_le_mul_right n hr

theorem cell_injective {r' k' : ℕ} (hk : k < n) (hk' : k' < n) (h : r * n + k = r' * n + k') :
    r = r' ∧ k = k' := by
  have hr : r = r' := by
    have hdiv := congrArg (· / n) h
    simp only [Nat.mul_comm _ n, Nat.mul_add_div (Nat.zero_lt_of_lt hk), Nat.div_eq_of_lt hk,
      Nat.div_eq_of_lt hk', Nat.add_zero] at hdiv
    exact hdiv
  subst hr
  exact ⟨rfl, Nat.add_left_cancel h⟩

end Cells

section Selectors

variable {patterns : List (UInt8 × UInt8)} {base : ℕ}

theorem selector_eq {x : UInt32} {bit : ℕ} (h : bit < 32) :
    selector x bit = x.toNat / 2 ^ bit % 4 := @toNat_shiftRight_and bit x 3 2 h rfl

def patternField (pat : UInt8 × UInt8) : UInt32 := pat.1.toUInt32 ||| pat.2.toUInt32 <<< 2

theorem toNat_patternField {pat : UInt8 × UInt8} (h : pat.1 < 4 ∧ pat.2 < 4) :
    (patternField pat).toNat = pat.1.toNat + pat.2.toNat * 4 := by
  have hfirst : pat.1.toNat < 4 := h.1
  have hsecond : pat.2.toNat < 4 := h.2
  exact @toNat_or_shiftLeft 2 pat.1.toUInt32 pat.2.toUInt32 hfirst (by decide)
    (by rw [UInt8.toNat_toUInt32]; omega)

theorem sidxWord_eq {pat : ℕ → UInt8 × UInt8} (hpat : ∀ p < 4, patterns[base + p]? = some (pat p))
    (hlt : ∀ p < 4, (pat p).1 < 4 ∧ (pat p).2 < 4) :
    ∃ sidx, sidxWord patterns base = some sidx ∧ ∀ p < 4,
      selector sidx (4 * p) = (pat p).1.toNat ∧ selector sidx (4 * p + 2) = (pat p).2.toNat := by
  have hslots : ∀ p < 4, (pat p).1.toNat < 4 ∧ (pat p).2.toNat < 4 := hlt
  have hrun : ∀ n ≤ 4,
      (List.range n).foldlM
        (fun sidx p => do
          let pat ← patterns[base + p]?
          pure (sidx ||| patternField pat <<< UInt32.ofNat (4 * p)))
        0 = some (packFields 4 (fun p => patternField (pat p)) n) := by
    intro n
    induction n with
    | zero => exact fun _ => rfl
    | succ n ih =>
      intro hn
      rw [range_succ, foldlM_append, ih (by omega), packFields_succ]
      simp only [bind_eq_bind, bind_some, foldlM_cons, foldlM_nil,
        hpat n hn]
      rfl
  refine ⟨_, hrun 4 le_rfl, fun p hp => ?_⟩
  have hfield : ∀ p < 4, (patternField (pat p)).toNat < 2 ^ 4 := fun p hp => by
    have := hslots p hp
    rw [toNat_patternField (hlt p hp)]
    omega
  have hdigit := (toNat_packFields (by decide) hfield (by decide)).2 p hp
  rw [toNat_patternField (hlt p hp)] at hdigit
  have := hslots p hp
  rw [selector_eq (by omega), selector_eq (by omega), Nat.pow_add, ← Nat.div_div_eq_div_mul]
  omega

end Selectors

/-- A matrix and a table of ascending slot pairs of sufficient lengths. -/
structure Packable (weights : List UInt32) (rows cols : ℕ) (patterns : List (UInt8 × UInt8)) :
    Prop where
  rows_pos : 0 < rows
  cols_pos : 0 < cols
  enough_weights : rows * cols ≤ weights.length
  enough_patterns : nTiles rows * nWindows cols * 4 ≤ patterns.length
  ascending : ∀ pat ∈ patterns, pat.1 < pat.2 ∧ pat.2 < 4

section Tiles

variable {weights : List UInt32} {rows cols t w l tt rank : ℕ} {patterns : List (UInt8 × UInt8)}
  {position : ℕ × ℕ × ℕ} {pat : UInt8 × UInt8}

def patternAt (patterns : List (UInt8 × UInt8)) (cols t w p : ℕ) : UInt8 × UInt8 :=
  patterns.getD (patternBase cols t w + p) (0, 1)

def slotOf (pat : UInt8 × UInt8) (rank : ℕ) : ℕ := (if rank = 0 then pat.1 else pat.2).toNat

/-- The row of a position in tile `t`. -/
def rowOf (t : ℕ) : ℕ × ℕ × ℕ → ℕ
  | (l, _, _) => 16 * t + l % 16

def columnOf (patterns : List (UInt8 × UInt8)) (cols t w : ℕ) : ℕ × ℕ × ℕ → ℕ
  | (l, tt, rank) => 4 * (8 * w + 4 * half l + tt) + slotOf (patternAt patterns cols t w tt) rank

/-- A weight, `0` beyond the edges. -/
def weightAt (weights : List UInt32) (rows cols r k : ℕ) : UInt32 :=
  if r < rows ∧ k < cols then weights.getD (r * cols + k) 0 else 0

def codeAt (weights : List UInt32) (rows cols : ℕ) (patterns : List (UInt8 × UInt8)) (t w : ℕ)
    (position : ℕ × ℕ × ℕ) : UInt8 :=
  f32ToFp8E4m3 (weightAt weights rows cols (rowOf t position)
    (columnOf patterns cols t w position))

def placeOf : ℕ × ℕ × ℕ → ℕ
  | (l, tt, rank) => l * 8 + 2 * tt + rank

theorem placeOf_lt (h : position ∈ positions) : placeOf position < 256 := by
  obtain ⟨l, tt, rank⟩ := position
  obtain ⟨hl, htt, hrank⟩ := mem_positions.1 h
  simp only [placeOf] at hl htt hrank ⊢
  omega

theorem placeOf_injective {position' : ℕ × ℕ × ℕ} (h : position ∈ positions)
    (h' : position' ∈ positions) (hp : placeOf position = placeOf position') :
    position = position' := by
  obtain ⟨l, tt, rank⟩ := position
  obtain ⟨l', tt', rank'⟩ := position'
  obtain ⟨hl, htt, hrank⟩ := mem_positions.1 h
  obtain ⟨hl', htt', hrank'⟩ := mem_positions.1 h'
  simp only [placeOf] at hl htt hrank hl' htt' hrank' hp
  simp only [Prod.mk.injEq]
  omega

theorem Packable.pattern (h : Packable weights rows cols patterns) (ht : t < nTiles rows)
    (hw : w < nWindows cols) {p : ℕ} (hp : p < 4) :
    patterns[patternBase cols t w + p]? = some (patternAt patterns cols t w p) ∧
      (patternAt patterns cols t w p).1 < (patternAt patterns cols t w p).2 ∧
      (patternAt patterns cols t w p).2 < 4 := by
  have hlt : patternBase cols t w + p < patterns.length :=
    lt_of_lt_of_le (cell_lt (cell_lt ht hw) hp) h.enough_patterns
  have hget := getElem?_eq_getElem hlt
  rw [patternAt, getD_eq_getElem?_getD, hget]
  exact ⟨rfl, h.ascending _ (getElem_mem hlt)⟩

theorem Packable.slots (h : Packable weights rows cols patterns) (ht : t < nTiles rows)
    (hw : w < nWindows cols) {p : ℕ} (hp : p < 4) :
    slotOf (patternAt patterns cols t w p) 0 < slotOf (patternAt patterns cols t w p) 1 ∧
      slotOf (patternAt patterns cols t w p) 1 < 4 :=
  (h.pattern ht hw hp).2

theorem weight_eq (h : Packable weights rows cols patterns) (r k : ℕ) :
    (if r < rows ∧ k < cols then weights[r * cols + k]? else some 0) =
      some (weightAt weights rows cols r k) := by
  rw [weightAt]
  split_ifs with hin
  · have hlt := lt_of_lt_of_le (cell_lt hin.1 hin.2) h.enough_weights
    rw [getD_eq_getElem?_getD, getElem?_eq_getElem hlt]
    rfl
  · rfl

theorem packCell_eq (h : Packable weights rows cols patterns) (ht : t < nTiles rows)
    (hw : w < nWindows cols) (hposition : position ∈ positions) {frag : List UInt8}
    (hlen : frag.length = 256) :
    packCell weights rows cols patterns t w frag position =
      some (writes frag
        [(placeOf position, codeAt weights rows cols patterns t w position)]) := by
  have hlt := placeOf_lt hposition
  obtain ⟨l, tt, rank⟩ := position
  obtain ⟨hl, htt, hrank⟩ := mem_positions.1 hposition
  simp only at hl htt hrank
  have hpat := (h.pattern ht hw htt).1
  rw [packCell, Nat.mod_eq_of_lt htt, hpat]
  simp only [bind_eq_bind, bind_some]
  rw [weight_eq h]
  exact store_eq (by rw [hlen]; exact hlt)

def tileCodes (weights : List UInt32) (rows cols : ℕ) (patterns : List (UInt8 × UInt8)) (t w : ℕ) :
    List UInt8 :=
  writes (List.replicate 256 0)
    (positions.flatMap fun position =>
      [(placeOf position, codeAt weights rows cols patterns t w position)])

theorem length_tileCodes : (tileCodes weights rows cols patterns t w).length = 256 := by
  rw [tileCodes, length_writes, length_replicate]

theorem getElem?_tileCodes (hposition : position ∈ positions) :
    (tileCodes weights rows cols patterns t w)[placeOf position]? =
      some (codeAt weights rows cols patterns t w position) := by
  refine getElem?_writes_of_mem (mem_flatMap.2 ⟨position, hposition, mem_singleton_self _⟩)
    (fun write hwrite hp => ?_) (by rw [length_replicate]; exact placeOf_lt hposition)
  obtain ⟨position', hposition', hmem⟩ := mem_flatMap.1 hwrite
  obtain rfl := mem_singleton.1 hmem
  rw [placeOf_injective hposition' hposition hp]

def tileSidx (patterns : List (UInt8 × UInt8)) (cols t w : ℕ) : UInt32 :=
  (sidxWord patterns (patternBase cols t w)).getD 0

def tileBytes (weights : List UInt32) (rows cols : ℕ) (patterns : List (UInt8 × UInt8)) (t w : ℕ) :
    List UInt8 :=
  tileCodes weights rows cols patterns t w ++ word (tileSidx patterns cols t w)

theorem length_tileBytes :
    (tileBytes weights rows cols patterns t w).length = hwTileWindowBytes := by
  rw [tileBytes, length_append, length_tileCodes, length_word, hwTileWindowBytes]

theorem Packable.sidx (h : Packable weights rows cols patterns) (ht : t < nTiles rows)
    (hw : w < nWindows cols) :
    sidxWord patterns (patternBase cols t w) = some (tileSidx patterns cols t w) ∧
      ∀ p < 4, selector (tileSidx patterns cols t w) (4 * p) =
          slotOf (patternAt patterns cols t w p) 0 ∧
        selector (tileSidx patterns cols t w) (4 * p + 2) =
          slotOf (patternAt patterns cols t w p) 1 := by
  obtain ⟨sidx, hsidx, hfields⟩ := sidxWord_eq (fun p hp => (h.pattern ht hw hp).1) fun p hp =>
    let hslots := (h.pattern ht hw hp).2
    ⟨UInt8.lt_trans hslots.1 hslots.2, hslots.2⟩
  rw [tileSidx, hsidx]
  exact ⟨rfl, hfields⟩

theorem packTile_eq (h : Packable weights rows cols patterns) (ht : t < nTiles rows)
    (hw : w < nWindows cols) :
    packTile weights rows cols patterns t w =
      some (tileBytes weights rows cols patterns t w) := by
  rw [packTile, (h.sidx ht hw).1]
  simp only [bind_eq_bind, bind_some]
  rw [foldlM_writes (length_replicate ..) fun position hposition frag hlen =>
    packCell_eq h ht hw hposition hlen]
  rfl

def tileBlob (weights : List UInt32) (rows cols : ℕ) (patterns : List (UInt8 × UInt8)) :
    List UInt8 :=
  (List.range (nTiles rows)).flatMap fun t =>
    (List.range (nWindows cols)).flatMap fun w => tileBytes weights rows cols patterns t w

theorem packGreyRavenHw_eq (h : Packable weights rows cols patterns) :
    packGreyRavenHw weights rows cols patterns =
      some (.ok (tileBlob weights rows cols patterns)) := by
  have hrows := h.rows_pos
  have hcols := h.cols_pos
  rw [packGreyRavenHw, if_neg (by omega), if_neg (not_lt.2 h.enough_weights),
    if_neg (not_lt.2 h.enough_patterns)]
  have htile : ∀ t < nTiles rows, ∀ w < nWindows cols, ∀ blob : List UInt8,
      (packTile weights rows cols patterns t w >>= fun tile => pure (blob ++ tile)) =
        some (blob ++ tileBytes weights rows cols patterns t w) := fun t ht w hw blob => by
    rw [packTile_eq h ht hw]
    rfl
  rw [foldlM_pieces fun t ht blob => foldlM_pieces fun w hw blob =>
    htile t (mem_range.1 ht) w (mem_range.1 hw) blob]
  rfl

theorem length_window : ((List.range (nWindows cols)).flatMap fun w =>
    tileBytes weights rows cols patterns t w).length = nWindows cols * hwTileWindowBytes :=
  length_flatMap_range (fun _ => length_tileBytes) _

theorem length_tileBlob : (tileBlob weights rows cols patterns).length =
    nTiles rows * nWindows cols * hwTileWindowBytes := by
  rw [tileBlob, length_flatMap_range fun _ => length_window, Nat.mul_assoc]

theorem getElem?_tileBlob (ht : t < nTiles rows) (hw : w < nWindows cols) {j : ℕ}
    (hj : j < hwTileWindowBytes) :
    (tileBlob weights rows cols patterns)[(t * nWindows cols + w) * hwTileWindowBytes + j]? =
      (tileBytes weights rows cols patterns t w)[j]? := by
  have hplace : (t * nWindows cols + w) * hwTileWindowBytes + j =
      t * (nWindows cols * hwTileWindowBytes) + (w * hwTileWindowBytes + j) := by ring
  rw [hplace, tileBlob, getElem?_flatMap_range (fun _ => length_window) (cell_lt hw hj) ht,
    getElem?_flatMap_range (fun _ => length_tileBytes) hj hw]

theorem slice_tileBlob (ht : t < nTiles rows) (hw : w < nWindows cols) :
    slice (tileBlob weights rows cols patterns)
      ((t * nWindows cols + w) * hwTileWindowBytes + 256) 4 =
        word (tileSidx patterns cols t w) := by
  refine ext_getElem? fun j => ?_
  rcases Nat.lt_or_ge j 4 with hj | hj
  · rw [slice, getElem?_take_of_lt hj, getElem?_drop, Nat.add_assoc,
      getElem?_tileBlob ht hw (show 256 + j < 256 + 4 by omega), tileBytes,
      getElem?_append_right (by rw [length_tileCodes]; omega), length_tileCodes,
      Nat.add_sub_cancel_left]
  · rw [getElem?_eq_none (by rw [length_slice]; omega),
      getElem?_eq_none (by rw [length_word]; exact hj)]

def cellWrite (weights : List UInt32) (rows cols : ℕ) (patterns : List (UInt8 × UInt8)) (t w : ℕ)
    (position : ℕ × ℕ × ℕ) : List (ℕ × UInt32) :=
  let r := rowOf t position
  let k := columnOf patterns cols t w position
  if r < rows ∧ k < cols then
    [(r * cols + k, e4m3RoundTrip (weightAt weights rows cols r k))]
  else []

theorem decodeCell_eq (h : Packable weights rows cols patterns) (ht : t < nTiles rows)
    (hw : w < nWindows cols) (hposition : position ∈ positions) {out : List UInt32}
    (hlen : out.length = rows * cols) :
    decodeCell (tileBlob weights rows cols patterns) rows cols
        ((t * nWindows cols + w) * hwTileWindowBytes) t w
          (tileSidx patterns cols t w) out position =
      some (writes out (cellWrite weights rows cols patterns t w position)) := by
  have hplace := placeOf_lt hposition
  have hcode : (tileBlob weights rows cols patterns)[
      (t * nWindows cols + w) * hwTileWindowBytes + placeOf position]? =
        some (codeAt weights rows cols patterns t w position) := by
    rw [getElem?_tileBlob ht hw (lt_of_lt_of_le hplace (by decide)), tileBytes,
      getElem?_append_left (by rw [length_tileCodes]; exact hplace),
      getElem?_tileCodes hposition]
  obtain ⟨l, tt, rank⟩ := position
  obtain ⟨hl, htt, hrank⟩ := mem_positions.1 hposition
  simp only at hl htt hrank
  obtain ⟨hfa, hfb⟩ := (h.sidx ht hw).2 tt htt
  have hslots := h.slots ht hw htt
  have hslot : (if rank = 1 ∧ slotOf (patternAt patterns cols t w tt) 0 ≠
      slotOf (patternAt patterns cols t w tt) 1 then slotOf (patternAt patterns cols t w tt) 1
      else slotOf (patternAt patterns cols t w tt) 0) =
        slotOf (patternAt patterns cols t w tt) rank := by
    rcases (show rank = 0 ∨ rank = 1 by omega) with rfl | rfl
    · rw [if_neg fun hone => absurd hone.1 (by decide)]
    · rw [if_pos ⟨rfl, hslots.1.ne⟩]
  have hwhere : (t * nWindows cols + w) * hwTileWindowBytes + l * 8 + (2 * tt + rank) =
      (t * nWindows cols + w) * hwTileWindowBytes + placeOf (l, tt, rank) := by
    rw [placeOf]
    omega
  simp only [decodeCell, Nat.mod_eq_of_lt htt, hfa, hfb, hslot, hwhere, hcode, bind_eq_bind,
    bind_some]
  change (if rows ≤ rowOf t (l, tt, rank) then some out
    else if columnOf patterns cols t w (l, tt, rank) < cols then _ else some out) = _
  simp only [cellWrite]
  by_cases hr : rowOf t (l, tt, rank) < rows
  · rw [if_neg (not_le.2 hr)]
    by_cases hk : columnOf patterns cols t w (l, tt, rank) < cols
    · rw [if_pos hk, if_pos ⟨hr, hk⟩]
      exact store_eq (by rw [hlen]; exact cell_lt hr hk)
    · rw [if_neg hk, if_neg fun hin => hk hin.2, writes_nil]
  · rw [if_pos (not_lt.1 hr), if_neg fun hin => hr hin.1, writes_nil]

theorem decodeTile_eq (h : Packable weights rows cols patterns) (ht : t < nTiles rows)
    (hw : w < nWindows cols) {out : List UInt32} (hlen : out.length = rows * cols) :
    decodeTile (tileBlob weights rows cols patterns) rows cols t w out =
      some (writes out (positions.flatMap (cellWrite weights rows cols patterns t w))) := by
  have hfits : (t * nWindows cols + w) * hwTileWindowBytes + 260 ≤
      (tileBlob weights rows cols patterns).length := by
    rw [length_tileBlob]
    calc (t * nWindows cols + w) * hwTileWindowBytes + 260
        = (t * nWindows cols + w + 1) * hwTileWindowBytes := (Nat.succ_mul ..).symm
      _ ≤ nTiles rows * nWindows cols * hwTileWindowBytes :=
          Nat.mul_le_mul_right _ (cell_lt ht hw)
  simp only [decodeTile]
  rw [if_pos hfits, slice_tileBlob ht hw, ofWord_word]
  exact foldlM_writes hlen fun position hposition out hlen =>
    decodeCell_eq h ht hw hposition hlen

def allWrites (weights : List UInt32) (rows cols : ℕ) (patterns : List (UInt8 × UInt8)) :
    List (ℕ × UInt32) :=
  (List.range (nTiles rows)).flatMap fun t => (List.range (nWindows cols)).flatMap fun w =>
    positions.flatMap (cellWrite weights rows cols patterns t w)

theorem dequantGreyRavenHw_tileBlob (h : Packable weights rows cols patterns) :
    dequantGreyRavenHw (tileBlob weights rows cols patterns) rows cols =
      some (.ok (writes (List.replicate (rows * cols) 0)
        (allWrites weights rows cols patterns))) := by
  have hrows := h.rows_pos
  have hcols := h.cols_pos
  rw [dequantGreyRavenHw, if_neg (by omega), if_neg (not_not.2 length_tileBlob),
    foldlM_writes (length_replicate ..) fun t ht out hlen =>
      foldlM_writes hlen fun w hw out hlen =>
        decodeTile_eq h (mem_range.1 ht) (mem_range.1 hw) hlen]
  rfl

variable {r c : ℕ}

theorem mem_allWrites {place : ℕ} {v : UInt32} :
    (place, v) ∈ allWrites weights rows cols patterns ↔
      ∃ t w position, t < nTiles rows ∧ w < nWindows cols ∧ position ∈ positions ∧
        rowOf t position < rows ∧ columnOf patterns cols t w position < cols ∧
        place = rowOf t position * cols + columnOf patterns cols t w position ∧
        v = e4m3RoundTrip (weightAt weights rows cols (rowOf t position)
          (columnOf patterns cols t w position)) := by
  have hcell : ∀ t w position, (place, v) ∈ cellWrite weights rows cols patterns t w position ↔
      rowOf t position < rows ∧ columnOf patterns cols t w position < cols ∧
        place = rowOf t position * cols + columnOf patterns cols t w position ∧
        v = e4m3RoundTrip (weightAt weights rows cols (rowOf t position)
          (columnOf patterns cols t w position)) := fun t w position => by
    simp only [cellWrite]
    split_ifs with hin
    · rw [mem_singleton, Prod.mk.injEq]
      exact ⟨fun heq => ⟨hin.1, hin.2, heq⟩, fun hall => hall.2.2⟩
    · exact ⟨fun hmem => absurd hmem not_mem_nil, fun hall => absurd ⟨hall.1, hall.2.1⟩ hin⟩
  simp only [allWrites, mem_flatMap, mem_range, hcell]
  constructor
  · rintro ⟨t, ht, w, hw, position, hposition, hrest⟩
    exact ⟨t, w, position, ht, hw, hposition, hrest⟩
  · rintro ⟨t, w, position, ht, hw, hposition, hrest⟩
    exact ⟨t, ht, w, hw, position, hposition, hrest⟩

def patternOf (patterns : List (UInt8 × UInt8)) (cols r c : ℕ) : UInt8 × UInt8 :=
  patternAt patterns cols (r / 16) (c / 32) (c / 4 % 4)

theorem columnOf_eq (h : Packable weights rows cols patterns) (ht : t < nTiles rows)
    (hw : w < nWindows cols) (hposition : position ∈ positions) (hr : rowOf t position = r)
    (hc : columnOf patterns cols t w position = c) :
    c % 4 = slotOf (patternOf patterns cols r c) position.2.2 := by
  obtain ⟨l, tt, rank⟩ := position
  obtain ⟨hl, htt, hrank⟩ := mem_positions.1 hposition
  simp only at hl htt hrank
  have hslot : slotOf (patternAt patterns cols t w tt) rank < 4 := by
    obtain ⟨hlt, hlt'⟩ := h.slots ht hw htt
    rcases (show rank = 0 ∨ rank = 1 by omega) with rfl | rfl
    · exact hlt.trans hlt'
    · exact hlt'
  simp only [rowOf, columnOf, half_eq hl] at hr hc
  obtain rfl : t = r / 16 := by omega
  obtain rfl : w = c / 32 := by omega
  obtain rfl : tt = c / 4 % 4 := by omega
  change c % 4 = slotOf (patternAt patterns cols (r / 16) (c / 32) (c / 4 % 4)) rank
  omega

theorem lt_nTiles (hr : r < rows) : r / 16 < nTiles rows := by
  rw [nTiles]
  omega

theorem lt_nWindows (hc : c < cols) : c / 32 < nWindows cols := by
  rw [nWindows]
  omega

theorem exists_position {rank : ℕ} (hrank : rank < 2)
    (hslot : c % 4 = slotOf (patternOf patterns cols r c) rank) :
    ∃ position ∈ positions, rowOf (r / 16) position = r ∧
      columnOf patterns cols (r / 16) (c / 32) position = c := by
  have hl : 16 * (c / 16 % 2) + r % 16 < 32 := by omega
  refine ⟨(16 * (c / 16 % 2) + r % 16, c / 4 % 4, rank),
    mem_positions.2 ⟨hl, Nat.mod_lt _ (by decide), hrank⟩, ?_, ?_⟩
  · rw [rowOf]
    omega
  · rw [columnOf, half_eq hl, ← patternOf, ← hslot]
    omega

/-- The decoder gives each cell its weight behind the byte if its slot is in the pattern of its
tile, window and class, and `0` if it is not. -/
theorem dequantGreyRavenHw_packGreyRavenHw (h : Packable weights rows cols patterns) :
    ∃ blob out, packGreyRavenHw weights rows cols patterns = some (.ok blob) ∧
      dequantGreyRavenHw blob rows cols = some (.ok out) ∧ out.length = rows * cols ∧
      ∀ r < rows, ∀ c < cols, ∃ w pat,
        weights[r * cols + c]? = some w ∧
        patterns[(r / 16 * nWindows cols + c / 32) * 4 + c / 4 % 4]? = some pat ∧
        out[r * cols + c]? = some (if c % 4 = pat.1.toNat ∨ c % 4 = pat.2.toNat
          then e4m3RoundTrip w else 0) := by
  refine ⟨_, _, packGreyRavenHw_eq h, dequantGreyRavenHw_tileBlob h, ?_, fun r hr c hc => ?_⟩
  · rw [length_writes, length_replicate]
  have hweight := weight_eq h r c
  rw [if_pos ⟨hr, hc⟩] at hweight
  have ht := lt_nTiles hr
  have hw := lt_nWindows hc
  refine ⟨_, _, hweight, (h.pattern ht hw (Nat.mod_lt (c / 4) (by decide))).1, ?_⟩
  change _ = some (if c % 4 = slotOf (patternOf patterns cols r c) 0 ∨
    c % 4 = slotOf (patternOf patterns cols r c) 1 then _ else _)
  split_ifs with hkept
  · obtain ⟨rank, hrank, hslot⟩ : ∃ rank < 2,
        c % 4 = slotOf (patternOf patterns cols r c) rank :=
      hkept.elim (fun h0 => ⟨0, by decide, h0⟩) fun h1 => ⟨1, by decide, h1⟩
    obtain ⟨position, hposition, hrow, hcol⟩ := exists_position hrank hslot
    refine getElem?_writes_of_mem (mem_allWrites.2 ⟨_, _, position, ht, hw, hposition, ?_⟩) ?_
      (by rw [length_replicate]; exact cell_lt hr hc)
    · rw [hrow, hcol]
      exact ⟨hr, hc, rfl, rfl⟩
    · -- the value written depends on the cell only
      rintro ⟨place, v⟩ hmem hplace
      obtain ⟨t, w, position, -, -, -, -, hlt, rfl, rfl⟩ := mem_allWrites.1 hmem
      obtain ⟨hrow, hcol⟩ := cell_injective hlt hc hplace
      rw [hrow, hcol]
  · rw [getElem?_writes_of_notMem, getElem?_replicate, if_pos (cell_lt hr hc)]
    rintro ⟨place, v⟩ hmem hplace
    obtain ⟨t, w, position, ht, hw, hposition, -, hlt, rfl, rfl⟩ := mem_allWrites.1 hmem
    obtain ⟨hrow, hcol⟩ := cell_injective hlt hc hplace
    have hslot := columnOf_eq h ht hw hposition hrow hcol
    have hrank := (mem_positions.1 hposition).2.2
    rcases (show position.2.2 = 0 ∨ position.2.2 = 1 by omega) with h0 | h1
    · exact hkept (.inl (by rw [hslot, h0]))
    · exact hkept (.inr (by rw [hslot, h1]))

/-- A row of three columns, slots 1 and 3 of each group. -/
theorem dequantGreyRavenHw_packGreyRavenHw_odd :
    ∃ blob out, packGreyRavenHw [0x3F800000, 0x40000000, 0x40400000] 1 3
        [(1, 3), (1, 3), (1, 3), (1, 3)] = some (.ok blob) ∧
      dequantGreyRavenHw blob 1 3 = some (.ok out) ∧ out.length = 1 * 3 ∧
      ∀ r < 1, ∀ c < 3, ∃ w pat,
        ([0x3F800000, 0x40000000, 0x40400000] : List UInt32)[r * 3 + c]? = some w ∧
        ([(1, 3), (1, 3), (1, 3), (1, 3)] : List (UInt8 × UInt8))[
          (r / 16 * nWindows 3 + c / 32) * 4 + c / 4 % 4]? = some pat ∧
        out[r * 3 + c]? = some (if c % 4 = pat.1.toNat ∨ c % 4 = pat.2.toNat
          then e4m3RoundTrip w else 0) :=
  dequantGreyRavenHw_packGreyRavenHw
    ⟨by decide, by decide, by decide, by decide, by simp⟩

end Tiles

end Grim.Quant
