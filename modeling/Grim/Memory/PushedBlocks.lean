import Grim.KvTransport.Inbox
import Grim.Memory.Writes

/-!
# Pushes into the pool

The receive loop over the pool itself.  A push is acknowledged just when it passes every check; then
the keys and values of its layer begin with the rows sent and nothing else has changed.  Otherwise
the pool is as it was.

A write that panics ends the receiver; `none` stands for the pool behind it.
-/

namespace Grim.Memory

open KvTransport KvTransport.KvBlockHeader Slice
open Function (update)

instance : KvBlockStore (Option KvBlockPool) where
  numBlocks s := s.elim 0 (·.numBlocks)
  blockElemPerToken s := s.elim 0 (·.tokenElem)
  blockSize _ := blockSize
  blockIsReceived s id := s.any fun p => decide (id < p.numBlocks) && (p.blocks id).received
  blockNumTokens s id := s.bind fun p =>
    if id < p.numBlocks ∧ (p.blocks id).received then some (p.blocks id).numTokens else none
  readLayerKeys s id layer := s.bind (·.readLayerKeys id layer.toNat)
  readLayerValues s id layer := s.bind (·.readLayerValues id layer.toNat)
  tryWriteLayerKeys s id layer k n :=
    match s.bind (·.tryWriteLayerKeys id layer.toNat k n) with
    | some (p, res) => (some p, res)
    | none => (none, .error "panic")
  tryWriteLayerValues s id layer v :=
    match s.bind (·.tryWriteLayerValues id layer.toNat v) with
    | some (p, res) => (some p, res)
    | none => (none, .error "panic")

namespace KvBlockPool

variable {p q : KvBlockPool} {id layer n : ℕ} {k v row : List UInt32}

/-- `row` at the start of a buffer. -/
def overlay (buffer row : List UInt32) : List UInt32 := row ++ buffer.drop row.length

theorem write_zero (h : write k 0 row = some v) : v = overlay k row := by
  obtain ⟨-, rfl⟩ := write_some h
  simp [overlay]

/-- The buffers of a layer as a write finds them: one that is new is zeroed. -/
def buffer (p : KvBlockPool) (layer : ℕ) (layers : List (List UInt32)) : List UInt32 :=
  (p.growOwn layer layers).getD layer []

/-- The block with the rows of a layer, of which `n` tokens are valid. -/
def stored (p : KvBlockPool) (b : KvBlock) (layer : ℕ) (k v : List UInt32) (n : ℕ) : KvBlock :=
  if layer = 0 then
    { b with
      keyData := overlay b.keyData k
      valueData := overlay b.valueData v
      numTokens := min n blockSize
      received := b.received || decide (0 < k.length) }
  else
    { b with
      layerKeys := (p.growOwn layer b.layerKeys).set layer (overlay (p.buffer layer b.layerKeys) k)
      layerValues :=
        (p.growOwn layer b.layerValues).set layer (overlay (p.buffer layer b.layerValues) v) }

theorem tryWriteLayer_cases {fn : String} {first : KvBlock → Option KvBlock}
    {layers : KvBlock → List (List UInt32)} {setLayers : KvBlock → List (List UInt32) → KvBlock}
    {res : Except String Unit}
    (h : p.tryWriteLayer fn first layers setLayers id layer row = some (q, res)) :
    ((p.numBlocks ≤ id ∨ p.layerElem layer < row.length) ∧ q = p ∧ ∃ e, res = .error e) ∨
      (id < p.numBlocks ∧ row.length ≤ p.layerElem layer ∧ res = .ok () ∧
        ∃ b, q = p.putDirty id b ∧
          if layer = 0 then first (p.blocks id) = some b
          else b = setLayers (p.blocks id) ((p.growOwn layer (layers (p.blocks id))).set layer
            (overlay (p.buffer layer (layers (p.blocks id))) row))) := by
  simp only [tryWriteLayer] at h
  split_ifs at h with hid hlen hlayer
  · cases h
    exact .inl ⟨.inl hid, rfl, _, rfl⟩
  · cases h
    exact .inl ⟨.inr hlen, rfl, _, rfl⟩
  · obtain ⟨b, hb, heq⟩ := Option.map_eq_some_iff.1 h
    obtain ⟨rfl, rfl⟩ := Prod.mk.inj heq
    exact .inr ⟨by omega, by omega, rfl, b, rfl, by rwa [if_pos hlayer]⟩
  · obtain ⟨b, hb, heq⟩ := Option.map_eq_some_iff.1 h
    obtain ⟨rfl, rfl⟩ := Prod.mk.inj heq
    obtain ⟨data, hdata, rfl⟩ := Option.map_eq_some_iff.1 hb
    rw [write_zero hdata]
    exact .inr ⟨by omega, by omega, rfl, _, rfl, by rw [if_neg hlayer]; rfl⟩

def Roomy (p : KvBlockPool) (id : ℕ) : Prop :=
  ∀ layer row, p.readLayerKeys id layer = some row ∨ p.readLayerValues id layer = some row →
    p.layerElem layer ≤ row.length

theorem putDirty_putDirty (b b' : KvBlock) :
    (p.putDirty id b).putDirty id b' = p.putDirty id b' := by
  simp [putDirty, modify]

theorem commitRows_cases {s : Option KvBlockPool} {r : Option ℕ} {layer : UInt32}
    (hlen : k.length = v.length) (h : commitRows (some p) id layer k v n = (s, r)) :
    (s = none ∧ r = none) ∨
      ((p.numBlocks ≤ id ∨ p.layerElem layer.toNat < k.length) ∧ s = some p ∧ r = none) ∨
      (id < p.numBlocks ∧ k.length ≤ p.layerElem layer.toNat ∧ r = some n ∧
        s = some (p.putDirty id (p.stored (p.blocks id) layer.toNat k v n))) := by
  unfold commitRows at h
  rcases hk : p.tryWriteLayerKeys id layer.toNat k n with - | ⟨q, res⟩
  · simp only [KvBlockStore.tryWriteLayerKeys, Option.bind_some, hk] at h
    cases h
    exact .inl ⟨rfl, rfl⟩
  simp only [KvBlockStore.tryWriteLayerKeys, Option.bind_some, hk] at h
  rcases tryWriteLayer_cases hk with ⟨hbad, rfl, e, rfl⟩ | ⟨hid, hle, rfl, b, rfl, hb⟩
  · cases h
    exact .inr (.inl ⟨hbad, rfl, rfl⟩)
  dsimp only at h
  rcases hv : (p.putDirty id b).tryWriteLayerValues id layer.toNat v with - | ⟨q, res⟩
  · simp only [KvBlockStore.tryWriteLayerValues, Option.bind_some, hv] at h
    cases h
    exact .inl ⟨rfl, rfl⟩
  simp only [KvBlockStore.tryWriteLayerValues, Option.bind_some, hv] at h
  rcases tryWriteLayer_cases hv with ⟨hbad, -⟩ | ⟨-, -, rfl, b', rfl, hb'⟩
  · -- the checks are those of the keys, which are as long
    rw [show (p.putDirty id b).numBlocks = p.numBlocks from rfl,
      show (p.putDirty id b).layerElem = p.layerElem from rfl] at hbad
    omega
  · cases h
    refine .inr (.inr ⟨hid, hle, rfl, ?_⟩)
    rw [putDirty_putDirty]
    have hblock : (p.putDirty id b).blocks id = b := by simp [putDirty, modify]
    rw [hblock] at hb'
    congr 2
    unfold stored
    split_ifs at hb hb' ⊢
    · obtain ⟨keys, hkeys, rfl⟩ := Option.map_eq_some_iff.1 hb
      obtain ⟨values, hvalues, rfl⟩ := Option.map_eq_some_iff.1 hb'
      rw [← write_zero hkeys, ← write_zero hvalues]
    · rw [hb', hb]
      rfl

/-- The pool with the rows of a layer in a block, and nothing else changed. -/
structure Committed (p q : KvBlockPool) (id layer : ℕ) (k v : List UInt32) (n : ℕ) : Prop where
  keys : q.readLayerKeys id layer = some (overlay
    ((p.readLayerKeys id layer).getD (List.replicate (p.layerElem layer) 0)) k)
  values : q.readLayerValues id layer = some (overlay
    ((p.readLayerValues id layer).getD (List.replicate (p.layerElem layer) 0)) v)
  otherKeys : ∀ l ≠ layer, ∀ row, p.readLayerKeys id l = some row →
    q.readLayerKeys id l = some row
  otherValues : ∀ l ≠ layer, ∀ row, p.readLayerValues id l = some row →
    q.readLayerValues id l = some row
  packed : (q.blocks id).layerPacked = (p.blocks id).layerPacked
  location : (q.blocks id).location = (p.blocks id).location
  tokens : (q.blocks id).numTokens = if layer = 0 then n else (p.blocks id).numTokens
  received : (q.blocks id).received
    = if layer = 0 then (p.blocks id).received || decide (0 < k.length) else (p.blocks id).received
  others : ∀ b ≠ id, q.blocks b = p.blocks b
  rest : q = { p with blocks := q.blocks, dirtyBlocks := update p.dirtyBlocks id true }

theorem length_growOwn (layers : List (List UInt32)) :
    (p.growOwn layer layers).length = max layers.length (layer + 1) := by
  simp [growOwn]
  omega

theorem getElem?_growOwn {layers : List (List UInt32)} {l : ℕ} (hl : layers[l]? = some row) :
    (p.growOwn layer layers)[l]? = some row := by
  have hlt : l < layers.length := (List.getElem?_eq_some_iff.1 hl).1
  rw [growOwn, List.getElem?_append_left hlt, hl]

theorem buffer_eq (hlayer : layer ≠ 0) (layers : List (List UInt32)) :
    p.buffer layer layers = layers[layer]?.getD (List.replicate (p.layerElem layer) 0) := by
  rw [buffer, List.getD_eq_getElem?_getD]
  rcases hl : layers[layer]? with - | old
  · have hle : layers.length ≤ layer := List.getElem?_eq_none_iff.1 hl
    rw [growOwn, List.getElem?_append_right hle, List.getElem?_map, List.getElem?_range' (by omega)]
    simp [Nat.add_sub_cancel' hle, hlayer]
  · rw [getElem?_growOwn hl]
    rfl

theorem getElem?_set_self (hlayer : layer ≠ 0) (layers : List (List UInt32)) (row : List UInt32) :
    ((p.growOwn layer layers).set layer (overlay (p.buffer layer layers) row))[layer]?
      = some (overlay (layers[layer]?.getD (List.replicate (p.layerElem layer) 0)) row) := by
  rw [List.getElem?_set_self (by rw [length_growOwn]; omega), buffer_eq hlayer]

theorem getElem?_set_other {layers : List (List UInt32)} {l : ℕ} (hl : l ≠ layer)
    (data : List UInt32) (hrow : layers[l]? = some row) :
    ((p.growOwn layer layers).set layer data)[l]? = some row := by
  rw [List.getElem?_set_ne hl.symm, getElem?_growOwn hrow]

theorem committed_stored (hid : id < p.numBlocks) (hn : n ≤ blockSize) :
    Committed p (p.putDirty id (p.stored (p.blocks id) layer k v n)) id layer k v n := by
  obtain ⟨b, hb⟩ : ∃ b, b = p.stored (p.blocks id) layer k v n := ⟨_, rfl⟩
  rw [← hb]
  have hblock : (p.putDirty id b).blocks id = b := by simp [putDirty, modify]
  have hread : ¬ (p.putDirty id b).numBlocks ≤ id := Nat.not_le.2 hid
  have hread' : ¬ p.numBlocks ≤ id := Nat.not_le.2 hid
  have hothers : ∀ b' ≠ id, (p.putDirty id b).blocks b' = p.blocks b' := fun b' hne => by
    simp [putDirty, modify, hne]
  have hrest : p.putDirty id b = { p with
      blocks := (p.putDirty id b).blocks
      dirtyBlocks := update p.dirtyBlocks id true } := rfl
  by_cases hlayer : layer = 0
  · rw [stored, if_pos hlayer] at hb
    refine ⟨?_, ?_, fun l hl row hrow => ?_, fun l hl row hrow => ?_, ?_, ?_, ?_, ?_, hothers,
      hrest⟩
    · rw [readLayerKeys, if_neg hread, if_pos hlayer, hblock, hb, readLayerKeys, if_neg hread',
        if_pos hlayer]
      rfl
    · rw [readLayerValues, if_neg hread, if_pos hlayer, hblock, hb, readLayerValues, if_neg hread',
        if_pos hlayer]
      rfl
    · rw [readLayerKeys, if_neg hread', if_neg (by omega)] at hrow
      rw [readLayerKeys, if_neg hread, if_neg (by omega), hblock, hb, hrow]
    · rw [readLayerValues, if_neg hread', if_neg (by omega)] at hrow
      rw [readLayerValues, if_neg hread, if_neg (by omega), hblock, hb, hrow]
    · rw [hblock, hb]
    · rw [hblock, hb]
    · rw [hblock, hb, if_pos hlayer, min_eq_left hn]
    · rw [hblock, hb, if_pos hlayer]
  · rw [stored, if_neg hlayer] at hb
    refine ⟨?_, ?_, fun l hl row hrow => ?_, fun l hl row hrow => ?_, ?_, ?_, ?_, ?_, hothers,
      hrest⟩
    · rw [readLayerKeys, if_neg hread, if_neg hlayer, hblock, hb, readLayerKeys, if_neg hread',
        if_neg hlayer]
      exact getElem?_set_self hlayer _ k
    · rw [readLayerValues, if_neg hread, if_neg hlayer, hblock, hb, readLayerValues, if_neg hread',
        if_neg hlayer]
      exact getElem?_set_self hlayer _ v
    · rw [readLayerKeys, if_neg hread'] at hrow
      rw [readLayerKeys, if_neg hread, hblock, hb]
      split_ifs at hrow ⊢
      · exact hrow
      · exact getElem?_set_other hl _ hrow
    · rw [readLayerValues, if_neg hread'] at hrow
      rw [readLayerValues, if_neg hread, hblock, hb]
      split_ifs at hrow ⊢
      · exact hrow
      · exact getElem?_set_other hl _ hrow
    · rw [hblock, hb]
    · rw [hblock, hb]
    · rw [hblock, hb, if_neg hlayer]
    · rw [hblock, hb, if_neg hlayer]

theorem write_ne_none (h : row.length ≤ k.length) : ∃ data, write k 0 row = some data :=
  ⟨_, if_pos (by omega)⟩

theorem le_buffer {layers : List (List UInt32)} (hlayer : layer ≠ 0)
    (h : ∀ row, layers[layer]? = some row → p.layerElem layer ≤ row.length) :
    p.layerElem layer ≤ (p.buffer layer layers).length := by
  rw [buffer_eq hlayer]
  rcases hl : layers[layer]? with - | row
  · simp
  · exact h row hl

theorem tryWriteLayer_ne_none {fn : String} {first : KvBlock → Option KvBlock}
    {layers : KvBlock → List (List UInt32)} {setLayers : KvBlock → List (List UInt32) → KvBlock}
    (hfirst : layer = 0 → row.length ≤ p.layerElem layer → ∃ b, first (p.blocks id) = some b)
    (hlayers : layer ≠ 0 → p.layerElem layer ≤ (p.buffer layer (layers (p.blocks id))).length) :
    ∃ r, p.tryWriteLayer fn first layers setLayers id layer row = some r := by
  simp only [tryWriteLayer]
  split_ifs with hid hlen hlayer
  · exact ⟨_, rfl⟩
  · exact ⟨_, rfl⟩
  · obtain ⟨b, hb⟩ := hfirst hlayer (Nat.not_lt.1 hlen)
    exact ⟨_, by rw [hb]; rfl⟩
  · obtain ⟨data, hdata⟩ : ∃ data, write ((p.growOwn layer (layers (p.blocks id))).getD layer []) 0
        row = some data := write_ne_none ((Nat.not_lt.1 hlen).trans (hlayers hlayer))
    exact ⟨_, by rw [hdata]; rfl⟩

theorem commitRows_ne_none {layer : UInt32} (hid : id < p.numBlocks) (hroom : p.Roomy id) :
    ∃ q r, commitRows (some p) id layer k v n = (some q, r) := by
  have hid' := Nat.not_le.2 hid
  have hkeys : ∃ r, p.tryWriteLayerKeys id layer.toNat k n = some r := by
    refine tryWriteLayer_ne_none (fun hlayer hle => ?_) fun hlayer =>
      le_buffer hlayer fun row hrow => ?_
    · have hroom := hroom layer.toNat (p.blocks id).keyData
        (.inl (by rw [readLayerKeys, if_neg hid', if_pos hlayer]))
      obtain ⟨data, hdata⟩ := write_ne_none (hle.trans hroom)
      exact ⟨_, by rw [hdata]; rfl⟩
    · exact hroom _ row (.inl (by rw [readLayerKeys, if_neg hid', if_neg hlayer, hrow]))
  obtain ⟨⟨q, res⟩, hk⟩ := hkeys
  unfold commitRows
  simp only [KvBlockStore.tryWriteLayerKeys, Option.bind_some, hk]
  rcases tryWriteLayer_cases hk with ⟨-, rfl, e, rfl⟩ | ⟨-, -, rfl, b, rfl, hb⟩
  · exact ⟨_, _, rfl⟩
  dsimp only
  -- the values' buffers are still the ones before
  have hvalues : b.valueData = (p.blocks id).valueData
      ∧ b.layerValues = (p.blocks id).layerValues := by
    split_ifs at hb
    · obtain ⟨_, -, rfl⟩ := Option.map_eq_some_iff.1 hb
      exact ⟨rfl, rfl⟩
    · rw [hb]
      exact ⟨rfl, rfl⟩
  have hblock : (p.putDirty id b).blocks id = b := by simp [putDirty, modify]
  have hv : ∃ r, (p.putDirty id b).tryWriteLayerValues id layer.toNat v = some r := by
    refine tryWriteLayer_ne_none (fun hlayer hle => ?_) fun hlayer =>
      le_buffer hlayer fun row hrow => ?_
    · have hroom := hroom layer.toNat (p.blocks id).valueData
        (.inr (by rw [readLayerValues, if_neg hid', if_pos hlayer]))
      obtain ⟨data, hdata⟩ := write_ne_none (hle.trans hroom)
      exact ⟨_, by rw [hblock, hvalues.1, hdata]; rfl⟩
    · rw [hblock, hvalues.2] at hrow
      exact hroom _ row (.inr (by rw [readLayerValues, if_neg hid', if_neg hlayer, hrow]))
  obtain ⟨⟨q, res⟩, hv⟩ := hv
  simp only [KvBlockStore.tryWriteLayerValues, Option.bind_some, hv]
  cases res <;> exact ⟨_, _, rfl⟩

end KvBlockPool

section Round

open KvBlockPool LittleEndian

/-- The connection a round leaves, whether or not another follows. -/
def after {α : Type} : Flow α → α
  | .next a | .close a => a

def sentKeys (h : KvBlockHeader) (payload : List UInt8) : List UInt32 :=
  parseF32Slice (payload.take (h.numElements.toNat * 4))

def sentValues (h : KvBlockHeader) (payload : List UInt8) : List UInt32 :=
  parseF32Slice (payload.drop (h.numElements.toNat * 4))

/-- The payload passes the checks of `store_push_payload` and of the pool. -/
structure Storable (p : KvBlockPool) (h : KvBlockHeader) (payload : List UInt8) : Prop where
  checksum : computeChecksumBytes payload = h.checksum
  block : h.blockId.toNat < p.numBlocks
  token : p.tokenElem ≠ 0
  room : h.numElements.toNat ≤ p.layerElem h.layerIdx.toNat

structure Passes (p : KvBlockPool) (h : KvBlockHeader) (payload : List UInt8) : Prop
    extends Storable p h payload where
  verify : h.verify = true
  layer : h.layerIdx ≤ maxWireLayerIdx
  elements : h.numElements.toNat ≤ 100000000
  complete : payload.length = h.numElements.toNat * 8

variable {p q : KvBlockPool} {c : Conn (Option KvBlockPool)} {h : KvBlockHeader}
  {payload : List UInt8}

theorem length_sent (hlen : payload.length = h.numElements.toNat * 8) :
    (sentKeys h payload).length = h.numElements.toNat
      ∧ (sentValues h payload).length = h.numElements.toNat :=
  ⟨by rw [sentKeys, parseF32Slice, length_unwords, List.length_take]; omega,
    by rw [sentValues, parseF32Slice, length_unwords, List.length_drop]; omega⟩

abbrev sentTokens (p : KvBlockPool) (h : KvBlockHeader) : ℕ :=
  backedTokens (some p) h.numElements.toNat h.numTokens.toNat

theorem sentTokens_le (p : KvBlockPool) (h : KvBlockHeader) : sentTokens p h ≤ blockSize := by
  have hle : min (h.numElements.toNat / KvBlockStore.blockElemPerToken (some p)) blockSize
      ≤ blockSize := min_le_right _ _
  unfold sentTokens backedTokens
  dsimp only
  split_ifs
  · exact (min_le_right _ _).trans hle
  · exact hle

theorem storePushPayload_eq (s : Option KvBlockPool) : Conn.storePushPayload s h payload =
    if computeChecksumBytes payload ≠ h.checksum then (s, none)
    else if KvBlockStore.numBlocks s ≤ h.blockId.toNat then (s, none)
    else if KvBlockStore.blockElemPerToken s = 0 then (s, none)
    else commitRows s h.blockId.toNat h.layerIdx (sentKeys h payload) (sentValues h payload)
      (backedTokens s h.numElements.toNat h.numTokens.toNat) := rfl

theorem storePushPayload_cases {s : Option KvBlockPool} {r : Option ℕ}
    (hlen : payload.length = h.numElements.toNat * 8)
    (hs : Conn.storePushPayload (some p) h payload = (s, r)) :
    (s = none ∧ r = none) ∨
      (¬ Storable p h payload ∧ s = some p ∧ r = none) ∨
      (Storable p h payload ∧ r = some (sentTokens p h) ∧ ∃ q, s = some q ∧
        Committed p q h.blockId.toNat h.layerIdx.toNat (sentKeys h payload) (sentValues h payload)
          (sentTokens p h)) := by
  obtain ⟨hk, hv⟩ := length_sent hlen
  rw [storePushPayload_eq] at hs
  split_ifs at hs with hsum hid htoken
  · cases hs
    exact .inr (.inl ⟨fun hok => hsum hok.checksum, rfl, rfl⟩)
  · cases hs
    exact .inr (.inl ⟨fun hok => Nat.not_le.2 hok.block hid, rfl, rfl⟩)
  · cases hs
    exact .inr (.inl ⟨fun hok => hok.token htoken, rfl, rfl⟩)
  · rcases commitRows_cases (hk.trans hv.symm) hs with
      hnone | ⟨hbad, rfl, rfl⟩ | ⟨hid', hle, rfl, rfl⟩
    · exact .inl hnone
    · refine .inr (.inl ⟨fun hok => ?_, rfl, rfl⟩)
      rw [hk] at hbad
      exact hbad.elim (Nat.not_le.2 hok.block) (Nat.not_lt.2 hok.room)
    · rw [hk] at hle
      exact .inr (.inr ⟨⟨not_not.1 hsum, hid', htoken, hle⟩, rfl, _, rfl,
        committed_stored hid' (sentTokens_le p h)⟩)

def announced (input : List UInt8) (h : KvBlockHeader) : List UInt8 :=
  (input.drop size).take (h.numElements.toNat * 8)

/-- An acknowledgement goes out just when the push passes; then the rows are in the pool, and else
the pool is as it was. -/
structure PushOutcome (c c' : Conn (Option KvBlockPool)) (p q : KvBlockPool) (h : KvBlockHeader)
    (payload : List UInt8) : Prop where
  ack : c'.sent = (c.sendAck h true (UInt32.ofNat (sentTokens p h))).sent ↔ Passes p h payload
  stored : Passes p h payload → Committed p q h.blockId.toNat h.layerIdx.toNat (sentKeys h payload)
    (sentValues h payload) (sentTokens p h)
  untouched : ¬ Passes p h payload → q = p

theorem outcome_refused {c c' : Conn (Option KvBlockPool)} (hnot : ¬ Passes p h payload)
    (hsent : c'.sent = c.sent ∨ c'.sent = (c.sendAck h false 0).sent) :
    PushOutcome c c' p p h payload := by
  refine ⟨⟨fun hack => ?_, fun hpass => absurd hpass hnot⟩, fun hpass => absurd hpass hnot,
    fun _ => rfl⟩
  rcases hsent with hsent | hsent
  · rw [hsent] at hack
    simp [Conn.sendAck] at hack
  · rw [hsent] at hack
    simpa using congrArg acked hack

theorem outcome_of_round (hp : c.store = some p) (hd : deserialize c.input = some h)
    (hf : ¬ h.isFetch) (hprompt : ¬ h.isPrompt) (hq : (after c.receive).store = some q) :
    PushOutcome c (after c.receive) p q h (announced c.input h) := by
  have hrecv := Conn.receive_of_header hd
  simp only [if_neg hf, if_neg hprompt] at hrecv
  by_cases hv : h.verify
  · rw [if_neg (not_not.2 hv), Conn.receivePush] at hrecv
    by_cases hl : maxWireLayerIdx < h.layerIdx
    · rw [if_pos hl] at hrecv
      rw [hrecv] at hq ⊢
      obtain rfl := Option.some.inj (hp.symm.trans hq)
      exact outcome_refused (fun hpass => UInt32.not_lt.2 hpass.layer hl) (.inr rfl)
    rw [if_neg hl] at hrecv
    by_cases hn : 100000000 < h.numElements.toNat
    · rw [if_pos hn] at hrecv
      rw [hrecv] at hq ⊢
      obtain rfl := Option.some.inj (hp.symm.trans hq)
      exact outcome_refused (fun hpass => Nat.not_lt.2 hpass.elements hn) (.inr rfl)
    rw [if_neg hn] at hrecv
    by_cases hlen : h.numElements.toNat * 8 ≤ (c.input.drop size).length
    · rw [Conn.readExact_of_le hlen] at hrecv
      have hcomplete : (announced c.input h).length = h.numElements.toNat * 8 := by
        rw [announced, List.length_take, min_eq_left hlen]
      rcases hs : Conn.storePushPayload (some p) h (announced c.input h) with ⟨s, r⟩
      simp only [hp] at hrecv
      rw [show (c.input.drop size).take (h.numElements.toNat * 8) = announced c.input h from rfl,
        hs] at hrecv
      rcases storePushPayload_cases hcomplete hs with
        ⟨rfl, rfl⟩ | ⟨hnot, rfl, rfl⟩ | ⟨hok, rfl, q', rfl, hcommit⟩
      · rw [hrecv] at hq
        cases hq
      · rw [hrecv] at hq ⊢
        obtain rfl := Option.some.inj hq
        exact outcome_refused (fun hpass => hnot hpass.toStorable) (.inr rfl)
      · rw [hrecv] at hq ⊢
        obtain rfl := Option.some.inj hq
        have hpass : Passes p h (announced c.input h) :=
          ⟨hok, hv, UInt32.not_lt.1 hl, Nat.not_lt.1 hn, hcomplete⟩
        exact ⟨⟨fun _ => hpass, fun _ => rfl⟩, fun _ => hcommit, fun hnot => absurd hpass hnot⟩
    · -- the payload is cut short, and no answer goes out
      rw [Conn.readExact_of_lt (Nat.lt_of_not_le hlen)] at hrecv
      rw [hrecv] at hq ⊢
      obtain rfl := Option.some.inj (hp.symm.trans hq)
      refine outcome_refused (fun hpass => hlen ?_) (.inl rfl)
      have hcomplete := hpass.complete
      rw [announced, List.length_take] at hcomplete
      omega
  · rw [if_pos hv] at hrecv
    rw [hrecv] at hq ⊢
    obtain rfl := Option.some.inj (hp.symm.trans hq)
    exact outcome_refused (fun hpass => hv hpass.verify) (.inr rfl)

theorem storePushPayload_ne_none (hroom : ∀ id < p.numBlocks, p.Roomy id) :
    ∃ q r, Conn.storePushPayload (some p) h payload = (some q, r) := by
  rw [storePushPayload_eq]
  split_ifs with hsum hid htoken
  · exact ⟨_, _, rfl⟩
  · exact ⟨_, _, rfl⟩
  · exact ⟨_, _, rfl⟩
  · have hid := Nat.lt_of_not_le hid
    exact commitRows_ne_none hid (hroom _ hid)

theorem round_answers (hp : c.store = some p) (hd : deserialize c.input = some h)
    (hf : ¬ h.isFetch) (hprompt : ¬ h.isPrompt) (hroom : ∀ id < p.numBlocks, p.Roomy id) :
    ∃ q, (after c.receive).store = some q := by
  have hrecv := Conn.receive_of_header hd
  simp only [if_neg hf, if_neg hprompt] at hrecv
  rw [hrecv]
  split_ifs
  · unfold Conn.receivePush
    split_ifs
    · exact ⟨p, hp⟩
    · exact ⟨p, hp⟩
    · by_cases hlen : h.numElements.toNat * 8 ≤ (c.input.drop size).length
      · obtain ⟨q, r, hs⟩ := @storePushPayload_ne_none p h (announced c.input h) hroom
        rw [Conn.readExact_of_le hlen]
        simp only [hp]
        rw [show (c.input.drop size).take (h.numElements.toNat * 8) = announced c.input h from rfl,
          hs]
        cases r <;> exact ⟨q, rfl⟩
      · rw [Conn.readExact_of_lt (Nat.lt_of_not_le hlen)]
        exact ⟨p, hp⟩
  · exact ⟨p, hp⟩

/-- A push message to any pool: what the round does unless a write panics, and that none does while
the buffers have room. -/
theorem receive_push_settles (hp : c.store = some p) (hd : deserialize c.input = some h)
    (hf : ¬ h.isFetch) (hprompt : ¬ h.isPrompt) :
    (∀ q, (after c.receive).store = some q →
      PushOutcome c (after c.receive) p q h (announced c.input h)) ∧
    ((∀ id < p.numBlocks, p.Roomy id) → ∃ q, (after c.receive).store = some q) :=
  ⟨fun _ hq => outcome_of_round hp hd hf hprompt hq, round_answers hp hd hf hprompt⟩

end Round

section Cut

open LittleEndian

theorem roomy_new (capacity numHeads headDim : ℕ) (packed : Bool) (now id : ℕ) :
    (KvBlockPool.new capacity numHeads headDim packed now).Roomy id := by
  intro layer row hrow
  have hlen : (KvBlockPool.new capacity numHeads headDim packed now).layerElem layer
      = blockSize * numHeads * headDim := rfl
  rw [hlen]
  rcases hrow with hrow | hrow
  · unfold KvBlockPool.readLayerKeys at hrow
    split_ifs at hrow
    · obtain rfl := Option.some.inj hrow
      simp [KvBlockPool.new, KvBlock.fresh]
    · simp [KvBlockPool.new, KvBlock.fresh] at hrow
  · unfold KvBlockPool.readLayerValues at hrow
    split_ifs at hrow
    · obtain rfl := Option.some.inj hrow
      simp [KvBlockPool.new, KvBlock.fresh]
    · simp [KvBlockPool.new, KvBlock.fresh] at hrow

def onePool : KvBlockPool := .new 1 1 1 false 0

def cutHeader : KvBlockHeader := pushHeader 0 0 [1, 2] [3, 4] 5

def cutConn : Conn (Option KvBlockPool) :=
  ⟨cutHeader.serialize ++ (words [1, 2] ++ words [3, 4]), some onePool, [], []⟩

theorem passes_cut : Passes onePool cutHeader (announced cutConn.input cutHeader) where
  checksum := by decide +kernel
  block := by decide
  token := by decide
  room := by decide
  verify := by decide
  layer := by decide
  elements := by decide
  complete := by decide +kernel

theorem receive_push_settles_cut :
    (∀ q, (after cutConn.receive).store = some q →
      PushOutcome cutConn (after cutConn.receive) onePool q cutHeader
        (announced cutConn.input cutHeader)) ∧
    ((∀ id < onePool.numBlocks, onePool.Roomy id) → ∃ q, (after cutConn.receive).store = some q) :=
  receive_push_settles rfl (deserialize_serialize _ _) (by decide) (by decide)

/-- What a push has to be rejected for: its checksum, a length that does not fit the pool, an
unknown block, or more tokens than the payload backs. -/
def Faulty (p : KvBlockPool) (h : KvBlockHeader) (payload : List UInt8) : Prop :=
  computeChecksumBytes payload ≠ h.checksum
    ∨ h.numElements.toNat % p.tokenElem ≠ 0 ∨ p.layerElem h.layerIdx.toNat < h.numElements.toNat
    ∨ p.numBlocks ≤ h.blockId.toNat ∨ h.numElements.toNat / p.tokenElem < h.numTokens.toNat

/-- The count is cut down, and the push acknowledged. -/
theorem count_cut_down : ¬ ∀ (c : Conn (Option KvBlockPool)) (p q : KvBlockPool)
    (h : KvBlockHeader), c.store = some p → deserialize c.input = some h → ¬ h.isFetch →
      ¬ h.isPrompt → (after c.receive).store = some q → Faulty p h (announced c.input h) →
        q = p ∧ (after c.receive).sent = (c.sendAck h false 0).sent := by
  intro hall
  obtain ⟨q, hq⟩ := round_answers (c := cutConn) rfl (deserialize_serialize cutHeader _) (by decide)
    (by decide) fun id _ => roomy_new 1 1 1 false 0 id
  have hout := outcome_of_round rfl (deserialize_serialize cutHeader _) (by decide) (by decide) hq
  obtain ⟨-, hsent⟩ := hall cutConn onePool q cutHeader rfl (deserialize_serialize _ _) (by decide)
    (by decide) hq (.inr (.inr (.inr (.inr (by decide)))))
  have hack := hout.ack.2 passes_cut
  rw [hsent] at hack
  simpa using congrArg acked hack

end Cut

end Grim.Memory
