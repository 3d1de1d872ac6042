import Grim.KvTransport.Push

/-!
# The shared-memory inbox

A handoff file holds the bytes of one push message.  It is validated on its own, with checks of its
own order, before the payload goes the way of the TCP path.  What stands behind the message is the
next message of a connection, and a reason to refuse a file; otherwise both come to the same.
-/

namespace Grim.KvTransport

open LittleEndian KvBlockHeader KvBlockStore

section Consume

variable {T : Type} [KvBlockStore T]

/-- What `consume_shm_handoff` makes of the bytes of a handoff file: the store, and why they are
rejected. -/
def consumeHandoff (store : T) (bytes : List UInt8) : T × Except String Unit :=
  if bytes.length < size then (store, .error "handoff file shorter than a V3 header")
  else
    match deserialize (bytes.take size) with
    | none => (store, .error "invalid V3 header")
    | some header =>
      if ¬ header.verify then (store, .error "protocol mismatch (bad magic/version)")
      else if header.layerIdx &&& (fetchRequestFlag ||| promptFlag) ≠ 0 then
        (store, .error "flagged control/fetch message over shm inbox")
      else if maxWireLayerIdx < header.layerIdx then
        (store, .error s!"layer_idx {header.layerIdx} exceeds cap")
      else
        let numElems := header.numElements.toNat
        -- the product with 8 cannot overflow below this cap
        if 100000000 < numElems then
          (store, .error s!"num_elements {numElems} exceeds safety cap")
        else if bytes.length ≠ size + numElems * 8 then
          (store, .error
            s!"payload length {bytes.length - size} does not match header framing {numElems * 8}")
        else
          match Conn.storePushPayload store header (bytes.drop size) with
          | (store, some _) => (store, .ok ())
          | (store, none) => (store, .error "store rejected the payload")

def inboxCommit (store : T) (bytes : List UInt8) : Option T :=
  match consumeHandoff store bytes with
  | (store, .ok ()) => some store
  | (_, .error _) => none

def acked (sent : List (List UInt8)) : Bool :=
  (sent.getLast?.bind deserialize).any (·.checksum = ackOk)

/-- The store after a message that the TCP receive loop acknowledges, sent alone. -/
def tcpCommit (store : T) (prompts : PromptChannel) (bytes : List UInt8) : Option T :=
  match Conn.receive ⟨bytes, store, prompts, []⟩ with
  | .next c | .close c => if acked c.sent then some c.store else none

def IsPush (bytes : List UInt8) : Prop :=
  ∀ h, deserialize bytes = some h → ¬ h.isFetch ∧ ¬ h.isPrompt

/-- The bytes of a message with the payload its header announces. -/
def framing (bytes : List UInt8) : ℕ :=
  match deserialize bytes with
  | some h => size + h.numElements.toNat * 8
  | none => size

omit [KvBlockStore T] in
@[simp] theorem acked_sendAck (c : Conn T) (h : KvBlockHeader) (ok : Bool) (n : UInt32) :
    acked (c.sendAck h ok n).sent = ok := by
  have hd : ∀ ack : KvBlockHeader, deserialize ack.serialize = some ack := by
    intro ack
    simpa using deserialize_serialize ack []
  cases ok <;> simp [acked, Conn.sendAck, hd, ackOk]

theorem tcpCommit_nak {store : T} {prompts : PromptChannel} {bytes : List UInt8} {c : Conn T}
    {h : KvBlockHeader}
    (hc : Conn.receive ⟨bytes, store, prompts, []⟩ = .close (c.sendAck h false 0)) :
    tcpCommit store prompts bytes = none := by
  rw [tcpCommit, hc]
  simp

theorem flags_eq_zero {h : KvBlockHeader} (hf : ¬ h.isFetch) (hp : ¬ h.isPrompt) :
    h.layerIdx &&& (fetchRequestFlag ||| promptFlag) = 0 := by
  simp only [isFetch, isPrompt, decide_eq_true_eq, ne_eq, not_not] at hf hp
  have hf := congrArg UInt32.toNat hf
  have hp := congrArg UInt32.toNat hp
  rw [UInt32.toNat_and] at hf hp
  rw [← UInt32.toNat_inj, UInt32.toNat_and, UInt32.toNat_or, Nat.and_or_distrib_left, hf, hp]
  rfl

/-- Whatever stands in the file of a push, the inbox commits it if the TCP loop does and there is
nothing behind the message, and leaves the same store. -/
theorem inboxCommit_eq_tcpCommit (store : T) (prompts : PromptChannel) (bytes : List UInt8)
    (hpush : IsPush bytes) : inboxCommit store bytes =
      if bytes.length ≤ framing bytes then tcpCommit store prompts bytes else none := by
  rcases hd : deserialize bytes with - | h
  · have hlt := deserialize_eq_none.mp hd
    have hle : bytes.length ≤ framing bytes := by
      rw [framing, hd]
      exact hlt.le
    rw [if_pos hle, inboxCommit, consumeHandoff, if_pos hlt, tcpCommit, Conn.receive,
      Conn.readExact_of_lt hlt]
    rfl
  obtain ⟨hf, hp⟩ := hpush h hd
  have hframe : framing bytes = size + h.numElements.toNat * 8 := by rw [framing, hd]
  have hsize : ¬ bytes.length < size := by
    intro hlt
    rw [deserialize_eq_none.mpr hlt] at hd
    cases hd
  have hrecv := Conn.receive_of_header (c := ⟨bytes, store, prompts, []⟩) hd
  rw [inboxCommit, consumeHandoff, if_neg hsize, deserialize_take, hd]
  dsimp only
  by_cases hv : h.verify
  · rw [if_neg (not_not.mpr hv), if_neg hf, if_neg hp, Conn.receivePush] at hrecv
    rw [if_neg (not_not.mpr hv), if_neg (not_not.mpr (flags_eq_zero hf hp))]
    by_cases hl : maxWireLayerIdx < h.layerIdx
    · rw [if_pos hl] at hrecv
      rw [if_pos hl, tcpCommit_nak hrecv, ite_self]
    rw [if_neg hl] at hrecv ⊢
    by_cases hn : 100000000 < h.numElements.toNat
    · rw [if_pos hn] at hrecv
      rw [if_pos hn, tcpCommit_nak hrecv, ite_self]
    rw [if_neg hn] at hrecv ⊢
    rcases lt_trichotomy bytes.length (size + h.numElements.toNat * 8) with hlen | hlen | hlen
    · -- the payload is cut short
      have hread : (⟨bytes.drop size, store, prompts, []⟩ : Conn T).readExact
          (h.numElements.toNat * 8) = none :=
        Conn.readExact_of_lt (by simp only [List.length_drop]; omega)
      rw [hread] at hrecv
      rw [if_pos hlen.ne, tcpCommit, hrecv]
      exact (ite_self _).symm
    · have hread : (⟨bytes.drop size, store, prompts, []⟩ : Conn T).readExact
          (h.numElements.toNat * 8) = some (bytes.drop size, ⟨[], store, prompts, []⟩) := by
        rw [Conn.readExact_of_le (by simp [hlen])]
        simp [hlen]
      rw [hread] at hrecv
      dsimp only at hrecv
      rw [if_neg (not_not.mpr hlen), if_pos (hlen.le.trans hframe.ge), tcpCommit, hrecv]
      rcases Conn.storePushPayload store h (bytes.drop size) with ⟨store', - | n⟩
      · simp
      · simp
        rfl
    · -- the loop would read what is behind as the next message
      rw [if_pos hlen.ne', if_neg (by omega)]
  · rw [if_pos hv] at hrecv
    rw [if_pos hv, tcpCommit_nak hrecv, ite_self]

end Consume

def onePush : List UInt8 := (pushHeader 0 3 [1, 2] [3, 4] 2).serialize ++ words [1, 2, 3, 4]

theorem isPush_onePush (more : List UInt8) : IsPush (onePush ++ more) := by
  intro h hd
  rw [onePush, List.append_assoc, deserialize_serialize] at hd
  obtain rfl := Option.some.inj hd
  decide

theorem inboxCommit_eq_tcpCommit_two :
    inboxCommit (⟨[], [], 0⟩ : OneBlock) onePush = some ⟨[1, 2], [3, 4], 2⟩ ∧
      inboxCommit (⟨[], [], 0⟩ : OneBlock) onePush =
        if onePush.length ≤ framing onePush then tcpCommit ⟨[], [], 0⟩ [] onePush else none := by
  refine ⟨by decide +kernel, inboxCommit_eq_tcpCommit _ _ _ ?_⟩
  rw [← List.append_nil onePush]
  exact isPush_onePush []

/-- With a byte behind it the loop acknowledges the message, and the inbox refuses it. -/
theorem trailing_byte_refused :
    IsPush (onePush ++ [0]) ∧
      tcpCommit (⟨[], [], 0⟩ : OneBlock) [] (onePush ++ [0]) = some ⟨[1, 2], [3, 4], 2⟩ ∧
      inboxCommit (⟨[], [], 0⟩ : OneBlock) (onePush ++ [0]) = none :=
  ⟨isPush_onePush [0], by decide +kernel, by decide +kernel⟩

end Grim.KvTransport
