import Grim.KvTransport.Framing

/-!
# A push message, from the sender's rows to the receiver's store

The encoder lays out header and rows on its own; the receiver splits the payload in halves by the
element count of the header.
-/

namespace Grim.KvTransport

open LittleEndian List

/-- `NetworkKvClient::encode_block_message`; the rows are `f32` bit patterns, and a `usize` has 64
bits. -/
def encodeBlockMessage (blockId : UInt64) (layerIdx : UInt32) (k v : List UInt32)
    (numTokens : ℕ) : Except String (List UInt8) :=
  if k.length ≠ v.length then
    .error "Key and Value slice lengths must match for block transport"
  else if k = [] then .error "Cannot send an empty KV block"
  else if 2 ^ 32 ≤ k.length then
    .error s!"block too large for the wire protocol: {k.length} elements exceeds u32::MAX"
  else if 2 ^ 32 ≤ numTokens then
    .error s!"num_tokens {numTokens} exceeds the wire protocol u32::MAX"
  else if maxWireLayerIdx < layerIdx then
    .error s!"layer_idx {layerIdx} exceeds the wire protocol cap {maxWireLayerIdx}"
  else
    let header : KvBlockHeader :=
      { magic := kvMagic
        version := kvProtocolVersion
        blockId := blockId
        layerIdx := layerIdx
        numElements := UInt32.ofNat k.length
        checksum := computeChecksum k v
        numTokens := UInt32.ofNat numTokens }
    .ok (header.serialize ++ words (k ++ v))

namespace KvBlockHeader

@[simp] theorem length_serialize (h : KvBlockHeader) : h.serialize.length = size := by
  simp [serialize, size]

theorem deserialize_serialize (h : KvBlockHeader) (rest : List UInt8) :
    deserialize (h.serialize ++ rest) = some h := by
  have hlen : ¬ (h.serialize ++ rest).length < size := by simp
  have hid : UInt64.ofNat (value (bytes 8 h.blockId.toNat)) = h.blockId := by
    rw [value_bytes 8 _ h.blockId.toNat_lt, UInt64.ofNat_toNat]
  rw [deserialize, if_neg hlen]
  simp [slice, serialize, drop_append, drop_of_length_le, ofWord_word, hid]

theorem serialize_deserialize {buf : List UInt8} {h : KvBlockHeader}
    (hd : deserialize buf = some h) : h.serialize = buf.take size := by
  have hlen : size ≤ buf.length := by
    by_contra hlt
    rw [deserialize_eq_none.mpr (Nat.lt_of_not_le hlt)] at hd
    cases hd
  rw [deserialize, if_neg (Nat.not_lt.mpr hlen)] at hd
  obtain rfl := Option.some.inj hd
  have hword : ∀ i, i + 4 ≤ 32 → word (ofWord (slice buf i (i + 4))) = slice buf i (i + 4) := by
    intro i hi
    refine word_ofWord ?_
    simp only [slice, length_take, length_drop, size] at *
    omega
  have hid : bytes 8 (UInt64.ofNat (value (slice buf 8 16))).toNat = slice buf 8 16 := by
    have h8 : (slice buf 8 16).length = 8 := by
      simp only [slice, length_take, length_drop, size] at *
      omega
    have hlt : value (slice buf 8 16) < 2 ^ 64 := by
      have := value_lt (slice buf 8 16)
      rwa [h8] at this
    rw [UInt64.toNat_ofNat', Nat.mod_eq_of_lt hlt]
    simpa only [h8] using bytes_value (slice buf 8 16)
  have hcat : buf.take size = slice buf 0 4 ++ slice buf 4 8 ++ slice buf 8 16 ++ slice buf 16 20
      ++ slice buf 20 24 ++ slice buf 24 28 ++ slice buf 28 32 := by
    have hadd : ∀ a b, slice buf 0 a ++ slice buf a (a + b) = slice buf 0 (a + b) := by
      intro a b
      simp [slice, take_add]
    rw [hadd 4 4, hadd 8 8, hadd 16 4, hadd 20 4, hadd 24 4, hadd 28 4]
    rfl
  rw [hcat]
  simp only [serialize, hword 0 (by omega), hword 4 (by omega), hid, hword 16 (by omega),
    hword 20 (by omega), hword 24 (by omega), hword 28 (by omega)]

end KvBlockHeader

open KvBlockHeader KvBlockStore

section Receiver

variable {T : Type} [KvBlockStore T]

/-- The token count the store is given: the sender's, as far as the rows and the block back it;
without one, what they back. -/
def backedTokens (store : T) (numElems numTokens : ℕ) : ℕ :=
  let derived := min (numElems / blockElemPerToken store) (blockSize store)
  if 0 < numTokens then min numTokens derived else derived

def commitRows (store : T) (blockId : ℕ) (layerIdx : UInt32) (k v : List UInt32)
    (numTokens : ℕ) : T × Option ℕ :=
  match tryWriteLayerKeys store blockId layerIdx k numTokens with
  | (store, .error _) => (store, none)
  | (store, .ok ()) =>
    match tryWriteLayerValues store blockId layerIdx v with
    | (store, .error _) => (store, none)
    | (store, .ok ()) => (store, some numTokens)

def pushHeader (blockId : UInt64) (layerIdx : UInt32) (k v : List UInt32) (numTokens : ℕ) :
    KvBlockHeader where
  magic := kvMagic
  version := kvProtocolVersion
  blockId := blockId
  layerIdx := layerIdx
  numElements := UInt32.ofNat k.length
  checksum := computeChecksum k v
  numTokens := UInt32.ofNat numTokens

variable {blockId : UInt64} {layerIdx : UInt32} {k v : List UInt32} {numTokens : ℕ}

omit [KvBlockStore T] in
theorem encodeBlockMessage_ok (hlen : k.length = v.length) (hne : k ≠ [])
    (hmax : k.length < 2 ^ 32) (htok : numTokens < 2 ^ 32) (hlayer : layerIdx ≤ maxWireLayerIdx) :
    encodeBlockMessage blockId layerIdx k v numTokens
      = .ok ((pushHeader blockId layerIdx k v numTokens).serialize ++ (words k ++ words v)) := by
  rw [encodeBlockMessage, if_neg (not_not.mpr hlen), if_neg hne, if_neg (Nat.not_le.mpr hmax),
    if_neg (Nat.not_le.mpr htok), if_neg (UInt32.not_lt.mpr hlayer), words_append]
  rfl

theorem toNat_and_eq_zero {x flag : UInt32} {n : ℕ} (hflag : flag.toNat = 2 ^ n)
    (hx : x.toNat < 2 ^ n) : x &&& flag = 0 := by
  rw [← UInt32.toNat_inj, UInt32.toNat_and, hflag]
  refine Nat.eq_of_testBit_eq fun i => ?_
  rw [Nat.testBit_and, Nat.testBit_two_pow]
  by_cases hi : n = i
  · subst hi
    simp [Nat.testBit_lt_two_pow hx]
  · simp [hi]

theorem not_isFetch_of_le {h : KvBlockHeader} (hl : h.layerIdx ≤ maxWireLayerIdx) :
    h.isFetch = false ∧ h.isPrompt = false := by
  have hle : h.layerIdx.toNat ≤ 4096 := UInt32.le_iff_toNat_le.mp hl
  have hf : h.layerIdx &&& fetchRequestFlag = 0 :=
    toNat_and_eq_zero (n := 31) (by decide) (by omega)
  have hp : h.layerIdx &&& promptFlag = 0 := toNat_and_eq_zero (n := 30) (by decide) (by omega)
  simp [isFetch, isPrompt, hf, hp]

theorem storePushPayload_rows {store : T} {h : KvBlockHeader}
    (hchk : h.checksum = computeChecksum k v) (helems : h.numElements.toNat = k.length)
    (hid : h.blockId.toNat < numBlocks store) (hper : blockElemPerToken store ≠ 0) :
    Conn.storePushPayload store h (words k ++ words v)
      = commitRows store h.blockId.toNat h.layerIdx k v
        (backedTokens store k.length h.numTokens.toNat) := by
  have htake : (words k ++ words v).take (k.length * 4) = words k := by
    rw [← length_words, take_left]
  have hdrop : (words k ++ words v).drop (k.length * 4) = words v := by
    rw [← length_words, drop_left]
  rw [Conn.storePushPayload, if_neg (not_not.mpr (by rw [hchk, computeChecksum_eq]))]
  simp only [helems, htake, hdrop, parseF32Slice, unwords_words, Nat.not_le.mpr hid, if_false, hper]
  rfl

theorem receive_push {h : KvBlockHeader} {store : T} {prompts : PromptChannel}
    {sent : List (List UInt8)} {payload rest : List UInt8} (hv : h.verify)
    (hl : h.layerIdx ≤ maxWireLayerIdx) (hmax : h.numElements.toNat ≤ 100000000)
    (hlen : payload.length = h.numElements.toNat * 8) :
    Conn.receive ⟨h.serialize ++ payload ++ rest, store, prompts, sent⟩ = .next
      (match Conn.storePushPayload store h payload with
      | (store, some n) => Conn.sendAck ⟨rest, store, prompts, sent⟩ h true (UInt32.ofNat n)
      | (store, none) => Conn.sendAck ⟨rest, store, prompts, sent⟩ h false 0) := by
  obtain ⟨hf, hp⟩ := not_isFetch_of_le hl
  have hd : deserialize (h.serialize ++ payload ++ rest) = some h := by
    rw [append_assoc]
    exact deserialize_serialize h _
  have hdrop : (h.serialize ++ payload ++ rest).drop size = payload ++ rest := by
    rw [append_assoc, ← length_serialize h, drop_left]
  have hread : (⟨payload ++ rest, store, prompts, sent⟩ : Conn T).readExact
      (h.numElements.toNat * 8) = some (payload, ⟨rest, store, prompts, sent⟩) := by
    rw [Conn.readExact_of_le (by simp [hlen]), ← hlen]
    simp
  rw [Conn.receive_of_header hd]
  simp only [hv, hf, hp, hdrop, not_true_eq_false, Bool.false_eq_true, if_false]
  rw [Conn.receivePush, if_neg (UInt32.not_lt.mpr hl), if_neg (Nat.not_lt.mpr hmax), hread]
  dsimp only
  rcases Conn.storePushPayload store h payload with ⟨store', - | n⟩ <;> rfl

/-- A message that the encoder builds is read back whole: the header has the sender's fields, the
payload behind it is the rows under its checksum, and a round of the receive loop gives just these
to the store, the token count as far as it is backed, and goes on behind the message.  Any header
read serializes to the bytes it was read from. -/
theorem push_round_trip (blockId : UInt64) (layerIdx : UInt32) (k v : List UInt32) (numTokens : ℕ)
    (hlen : k.length = v.length) (hne : k ≠ []) (hmax : k.length ≤ 100000000)
    (htok : numTokens < 2 ^ 32) (hlayer : layerIdx ≤ maxWireLayerIdx) :
    (∃ msg h, encodeBlockMessage blockId layerIdx k v numTokens = .ok msg
      ∧ deserialize msg = some h ∧ h.verify
      ∧ h.blockId = blockId ∧ h.layerIdx = layerIdx ∧ h.numTokens.toNat = numTokens
      ∧ msg.length = size + h.numElements.toNat * 8
      ∧ computeChecksumBytes (msg.drop size) = h.checksum
      ∧ parseF32Slice ((msg.drop size).take (h.numElements.toNat * 4)) = k
      ∧ parseF32Slice ((msg.drop size).drop (h.numElements.toNat * 4)) = v
      ∧ ∀ (store : T) (prompts : PromptChannel) (sent : List (List UInt8)) (rest : List UInt8),
        blockId.toNat < numBlocks store → blockElemPerToken store ≠ 0 →
        Conn.receive ⟨msg ++ rest, store, prompts, sent⟩ = .next
          (match commitRows store blockId.toNat layerIdx k v
              (backedTokens store k.length numTokens) with
          | (store, some n) => Conn.sendAck ⟨rest, store, prompts, sent⟩ h true (UInt32.ofNat n)
          | (store, none) => Conn.sendAck ⟨rest, store, prompts, sent⟩ h false 0))
    ∧ ∀ buf h, deserialize buf = some h → h.serialize = buf.take size := by
  refine ⟨?_, fun buf h => serialize_deserialize⟩
  have helems : (UInt32.ofNat k.length).toNat = k.length := by
    rw [UInt32.toNat_ofNat', Nat.mod_eq_of_lt (by omega)]
  have hcount : (UInt32.ofNat numTokens).toNat = numTokens := by
    rw [UInt32.toNat_ofNat', Nat.mod_eq_of_lt htok]
  have hrows : (words k ++ words v).length = k.length * 8 := by
    rw [length_append, length_words, length_words, ← hlen]
    omega
  have hdrop : ∀ h : KvBlockHeader, (h.serialize ++ (words k ++ words v)).drop size
      = words k ++ words v := by
    intro h
    rw [← length_serialize h, drop_left]
  refine ⟨_, pushHeader blockId layerIdx k v numTokens,
    encodeBlockMessage_ok hlen hne (by omega) htok hlayer, deserialize_serialize _ _, rfl, rfl, rfl,
    hcount, ?_, ?_, ?_, ?_, ?_⟩
  · rw [length_append, length_serialize, hrows]
    show _ = size + (UInt32.ofNat k.length).toNat * 8
    rw [helems]
  · rw [hdrop, ← computeChecksum_eq]
    rfl
  · show parseF32Slice (List.take ((UInt32.ofNat k.length).toNat * 4) _) = k
    rw [hdrop, helems, ← length_words, take_left, parseF32Slice, unwords_words]
  · show parseF32Slice (List.drop ((UInt32.ofNat k.length).toNat * 4) _) = v
    rw [hdrop, helems, ← length_words, drop_left, parseF32Slice, unwords_words]
  · intro store prompts sent rest hid hper
    obtain ⟨h, hh⟩ : ∃ h, h = pushHeader blockId layerIdx k v numTokens := ⟨_, rfl⟩
    have hnum : h.numElements.toNat = k.length := by rw [hh]; exact helems
    have hl : h.layerIdx ≤ maxWireLayerIdx := by rw [hh]; exact hlayer
    have htokens : h.numTokens.toNat = numTokens := by rw [hh]; exact hcount
    have hstore := @storePushPayload_rows T _ k v store h (by rw [hh]; rfl) hnum
      (by rw [hh]; exact hid) hper
    rw [htokens] at hstore
    rw [← hh, receive_push (by rw [hh]; rfl) hl (by omega) (by rw [hnum, hrows]), hstore, hh]
    rfl

end Receiver

structure OneBlock where
  keys : List UInt32
  values : List UInt32
  numTokens : ℕ
deriving DecidableEq

instance : KvBlockStore OneBlock where
  numBlocks _ := 1
  blockElemPerToken _ := 1
  blockSize _ := 16
  blockIsReceived s _ := s.keys ≠ []
  blockNumTokens s _ := some s.numTokens
  readLayerKeys s _ _ := some s.keys
  readLayerValues s _ _ := some s.values
  tryWriteLayerKeys s _ _ k n := ({ s with keys := k, numTokens := n }, .ok ())
  tryWriteLayerValues s _ _ v := ({ s with values := v }, .ok ())

/-- Two rows arrive, and the next message begins behind them. -/
theorem push_round_trip_two : ∃ msg h, encodeBlockMessage 0 3 [1, 2] [3, 4] 2 = .ok msg
    ∧ Conn.receive ⟨msg ++ [9], (⟨[], [], 0⟩ : OneBlock), [], []⟩
      = .next (Conn.sendAck ⟨[9], ⟨[1, 2], [3, 4], 2⟩, [], []⟩ h true 2) := by
  obtain ⟨⟨msg, h, hmsg, -, -, -, -, -, -, -, -, -, hrecv⟩, -⟩ :=
    @push_round_trip OneBlock _ 0 3 [1, 2] [3, 4] 2 rfl (by decide) (by decide) (by decide)
      (by decide)
  exact ⟨msg, h, hmsg, hrecv ⟨[], [], 0⟩ [] [] [9] (by decide) (by decide)⟩

/-- A message without a token count is stored with the count that its rows back. -/
theorem token_count_derived : ¬ ∀ (blockId : UInt64) (layerIdx : UInt32) (k v : List UInt32)
    (numTokens : ℕ) (msg : List UInt8) (h : KvBlockHeader) (store store' : OneBlock) (n : ℕ),
    k.length ≤ 100000000 → encodeBlockMessage blockId layerIdx k v numTokens = .ok msg →
    deserialize msg = some h →
    Conn.storePushPayload store h (msg.drop size) = (store', some n) → n = numTokens := by
  intro hall
  have := hall 0 0 [1, 2] [3, 4] 0 _ _ ⟨[], [], 0⟩ _ 2 (by decide) rfl rfl rfl
  exact absurd this (by decide)

end Grim.KvTransport
