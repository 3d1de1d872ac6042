import Grim.KvTransport.Spill
import Grim.Lib.LittleEndian

/-!
# The wire protocol and the TCP receive loop

A message is a 32-byte little-endian header and the payload it announces.  `layer_idx` carries two
flags: a fetch request has no payload, a prompt message 32-bit token ids, and a push message the
key and value rows of a block as `f32` bit patterns.

`receive` is one round of the drain loop of a connection.  A reply the peer does not take is only
logged, so replies never fail here.
-/

namespace Grim.KvTransport

open LittleEndian

def kvMagic : UInt32 := 0x4B56434B

def kvProtocolVersion : UInt32 := 3

def fetchRequestFlag : UInt32 := 0x80000000

def promptFlag : UInt32 := 0x40000000

def ackOk : UInt32 := 1

def maxWireLayerIdx : UInt32 := 4096

def maxPromptTokens : ℕ := 1000000

def maxPendingPrompts : ℕ := 10000

structure KvBlockHeader where
  magic : UInt32
  version : UInt32
  blockId : UInt64
  layerIdx : UInt32
  numElements : UInt32
  checksum : UInt32
  numTokens : UInt32
deriving DecidableEq, Repr

namespace KvBlockHeader

def size : ℕ := 32

def serialize (h : KvBlockHeader) : List UInt8 :=
  word h.magic ++ word h.version ++ bytes 8 h.blockId.toNat ++ word h.layerIdx ++ word h.numElements
    ++ word h.checksum ++ word h.numTokens

/-- `buf[from..to]` -/
def slice (buf : List UInt8) (i j : ℕ) : List UInt8 := (buf.drop i).take (j - i)

def deserialize (buf : List UInt8) : Option KvBlockHeader :=
  if buf.length < size then none
  else some
    { magic := ofWord (slice buf 0 4)
      version := ofWord (slice buf 4 8)
      blockId := UInt64.ofNat (value (slice buf 8 16))
      layerIdx := ofWord (slice buf 16 20)
      numElements := ofWord (slice buf 20 24)
      checksum := ofWord (slice buf 24 28)
      numTokens := ofWord (slice buf 28 32) }

def verify (h : KvBlockHeader) : Bool := h.magic = kvMagic && h.version = kvProtocolVersion

def isFetch (h : KvBlockHeader) : Bool := h.layerIdx &&& fetchRequestFlag ≠ 0

def isPrompt (h : KvBlockHeader) : Bool := h.layerIdx &&& promptFlag ≠ 0

end KvBlockHeader

def computeChecksumBytes (bs : List UInt8) : UInt32 :=
  bs.foldl (fun hash b => (hash ^^^ b.toUInt32) * 0x01000193) 0x811c9275

def computeChecksum (k v : List UInt32) : UInt32 :=
  (k ++ v).foldl (fun hash f =>
    (word f).foldl (fun hash b => (hash ^^^ b.toUInt32) * 0x01000193) hash) 0x811c9275

theorem computeChecksum_eq (k v : List UInt32) :
    computeChecksum k v = computeChecksumBytes (words k ++ words v) := by
  rw [computeChecksum, computeChecksumBytes, ← words_append, words, List.foldl_flatMap]

/-- What the receiver needs of a block store `T`. -/
class KvBlockStore (T : Type) where
  numBlocks : T → ℕ
  blockElemPerToken : T → ℕ
  blockSize : T → ℕ
  blockIsReceived : T → ℕ → Bool
  blockNumTokens : T → ℕ → Option ℕ
  readLayerKeys : T → ℕ → UInt32 → Option (List UInt32)
  readLayerValues : T → ℕ → UInt32 → Option (List UInt32)
  tryWriteLayerKeys : T → ℕ → UInt32 → List UInt32 → ℕ → T × Except String Unit
  tryWriteLayerValues : T → ℕ → UInt32 → List UInt32 → T × Except String Unit

abbrev PromptChannel := List (UInt64 × List UInt32)

namespace PromptChannel

def contains (p : PromptChannel) (requestId : UInt64) : Bool := p.any (·.1 = requestId)

def remove (p : PromptChannel) (requestId : UInt64) : PromptChannel := p.filter (·.1 ≠ requestId)

/-- At the cap a new request takes the place of the first in iteration order. -/
def store (p : PromptChannel) (requestId : UInt64) (tokens : List UInt32) : PromptChannel :=
  let p := if maxPendingPrompts ≤ p.length ∧ ¬ contains p requestId then p.tail else p
  (requestId, tokens) :: remove p requestId

end PromptChannel

structure Conn (T : Type) where
  input : List UInt8
  store : T
  prompts : PromptChannel
  sent : List (List UInt8)

inductive Flow (α : Type)
  | next (a : α)
  | close (a : α)
deriving DecidableEq

namespace Conn

variable {T : Type}

def readExact (c : Conn T) (n : ℕ) : Option (List UInt8 × Conn T) :=
  if n ≤ c.input.length then some (c.input.take n, { c with input := c.input.drop n }) else none

def sendAck (c : Conn T) (h : KvBlockHeader) (ok : Bool) (committedTokens : UInt32) : Conn T :=
  let ack : KvBlockHeader :=
    { magic := kvMagic
      version := kvProtocolVersion
      blockId := h.blockId
      layerIdx := h.layerIdx
      numElements := committedTokens
      checksum := if ok then ackOk else 0
      numTokens := committedTokens }
  { c with sent := c.sent ++ [ack.serialize] }

variable [KvBlockStore T]

open KvBlockStore

/-- Rows and token count of the block a fetch request names; empty where there is nothing. -/
def fetchData (store : T) (blockId : ℕ) (layerIdx : UInt32) : List UInt32 × List UInt32 × ℕ :=
  if blockId < numBlocks store ∧ blockIsReceived store blockId then
    match readLayerKeys store blockId layerIdx, readLayerValues store blockId layerIdx with
    | some k, some v =>
      if k.length = v.length ∧ k ≠ [] then
        let derived := k.length / blockElemPerToken store
        (k, v, min ((blockNumTokens store blockId).getD derived) derived)
      else ([], [], 0)
    | _, _ => ([], [], 0)
  else ([], [], 0)

def answerFetch (c : Conn T) (h : KvBlockHeader) : Conn T :=
  let layerIdx := h.layerIdx &&& ~~~ fetchRequestFlag
  let (k, v, stored) := fetchData c.store h.blockId.toNat layerIdx
  let resp : KvBlockHeader :=
    { magic := kvMagic
      version := kvProtocolVersion
      blockId := h.blockId
      layerIdx := layerIdx
      numElements := UInt32.ofNat k.length
      checksum := computeChecksum k v
      numTokens := UInt32.ofNat stored }
  { c with sent := c.sent ++ [resp.serialize ++ words k ++ words v] }

/-- Verify and store one push payload; `none` is `PushRejection::Rejected`. -/
def storePushPayload (store : T) (h : KvBlockHeader) (payload : List UInt8) : T × Option ℕ :=
  if computeChecksumBytes payload ≠ h.checksum then (store, none)
  else
    let numElems := h.numElements.toNat
    let k := parseF32Slice (payload.take (numElems * 4))
    let v := parseF32Slice (payload.drop (numElems * 4))
    if numBlocks store ≤ h.blockId.toNat then (store, none)
    else if blockElemPerToken store = 0 then (store, none)
    else
      let derived := min (numElems / blockElemPerToken store) (blockSize store)
      let numTokens := if 0 < h.numTokens.toNat then min h.numTokens.toNat derived else derived
      match tryWriteLayerKeys store h.blockId.toNat h.layerIdx k numTokens with
      | (store, .error _) => (store, none)
      | (store, .ok ()) =>
        match tryWriteLayerValues store h.blockId.toNat h.layerIdx v with
        | (store, .error _) => (store, none)
        | (store, .ok ()) => (store, some numTokens)

def receivePrompt (c : Conn T) (h : KvBlockHeader) : Flow (Conn T) :=
  if maxPromptTokens < h.numElements.toNat then
    -- the announced payload is left in the stream
    .next (c.sendAck h false 0)
  else
    match c.readExact (h.numElements.toNat * 4) with
    | none => .close c
    | some (payload, c) =>
      if computeChecksumBytes payload ≠ h.checksum then .next (c.sendAck h false 0)
      else
        let c := { c with prompts := PromptChannel.store c.prompts h.blockId (unwords payload) }
        .next (c.sendAck h true h.numElements)

/-- The rest of a round after a push header.  The product with 8 cannot overflow below the cap. -/
def receivePush (c : Conn T) (h : KvBlockHeader) : Flow (Conn T) :=
  if maxWireLayerIdx < h.layerIdx then .close (c.sendAck h false 0)
  else if 100000000 < h.numElements.toNat then .close (c.sendAck h false 0)
  else
    match c.readExact (h.numElements.toNat * 8) with
    | none => .close c
    | some (payload, c) =>
      match storePushPayload c.store h payload with
      | (store, some numTokens) =>
        .next ({ c with store := store }.sendAck h true (UInt32.ofNat numTokens))
      | (store, none) => .next ({ c with store := store }.sendAck h false 0)

def receive (c : Conn T) : Flow (Conn T) :=
  match c.readExact KvBlockHeader.size with
  | none => .close c
  | some (hdr, c) =>
    match KvBlockHeader.deserialize hdr with
    | none => .close c
    | some h =>
      if ¬ h.verify then .close (c.sendAck h false 0)
      else if h.isFetch then .next (c.answerFetch h)
      else if h.isPrompt then c.receivePrompt h
      else c.receivePush h

end Conn

end Grim.KvTransport
