import Grim.KvTransport.Receiver
import Grim.Lib.Steps

/-!
# The receive loop keeps to the message frames, but for an oversize prompt

How much of the stream a round consumes depends on the stream alone (`consume`).  That is the
header and the payload it announces, except for a prompt message over the token cap: it is
answered with a NAK and its payload is read as headers.
-/

namespace Grim.KvTransport

open LittleEndian List Option

namespace KvBlockHeader

def bodyLen (h : KvBlockHeader) : ℕ :=
  if h.isFetch then 0
  else if h.isPrompt then h.numElements.toNat * 4
  else h.numElements.toNat * 8

def Oversize (h : KvBlockHeader) : Prop :=
  h.verify ∧ ¬ h.isFetch ∧ h.isPrompt ∧ maxPromptTokens < h.numElements.toNat

instance (h : KvBlockHeader) : Decidable h.Oversize := by unfold Oversize; infer_instance

def PushFits (h : KvBlockHeader) : Prop :=
  ¬ maxWireLayerIdx < h.layerIdx ∧ ¬ 100000000 < h.numElements.toNat

/-- A header that does not close the connection, nor announces an oversize prompt. -/
def Accepted (h : KvBlockHeader) : Prop :=
  h.verify ∧ (h.isFetch ∨ (h.isPrompt ∧ ¬ maxPromptTokens < h.numElements.toNat)
    ∨ (¬ h.isPrompt ∧ h.PushFits))

instance (h : KvBlockHeader) : Decidable h.PushFits := by unfold PushFits; infer_instance

instance (h : KvBlockHeader) : Decidable h.Accepted := by unfold Accepted; infer_instance

theorem slice_take {bs : List UInt8} {i j n : ℕ} (h : j ≤ n) :
    slice (bs.take n) i j = slice bs i j := by
  rw [slice, slice, drop_take, take_take, min_eq_left (by omega)]

theorem deserialize_take (bs : List UInt8) : deserialize (bs.take size) = deserialize bs := by
  by_cases h : bs.length < size
  · have htake : (bs.take size).length < size := by
      rw [length_take]
      omega
    rw [deserialize, deserialize, if_pos h, if_pos htake]
  · have htake : ¬ (bs.take size).length < size := by
      rw [length_take]
      omega
    have hs : ∀ i j, j ≤ 32 → slice (bs.take size) i j = slice bs i j := fun i j hj => slice_take hj
    rw [deserialize, deserialize, if_neg h, if_neg htake, hs 0 4 (by omega), hs 4 8 (by omega),
      hs 8 16 (by omega), hs 16 20 (by omega), hs 20 24 (by omega), hs 24 28 (by omega),
      hs 28 32 (by omega)]

theorem deserialize_eq_none {bs : List UInt8} : deserialize bs = none ↔ bs.length < size := by
  rw [deserialize]
  split_ifs with h <;> simp [h]

theorem not_oversize_of_accepted {h : KvBlockHeader} (ha : h.Accepted) : ¬ h.Oversize := by
  rintro ⟨-, hf, hp, ho⟩
  rcases ha.2 with h1 | ⟨-, h1⟩ | ⟨h1, -⟩
  · exact hf h1
  · exact h1 ho
  · exact h1 hp

end KvBlockHeader

open KvBlockHeader

/-- What is left of the stream after a whole message at its front. -/
def nextMessage (bs : List UInt8) : Option (List UInt8) :=
  (deserialize bs).bind fun h =>
    if size + h.bodyLen ≤ bs.length then some (bs.drop (size + h.bodyLen)) else none

/-- What is left of the stream after a round, unless the round closes the connection. -/
def consume (bs : List UInt8) : Option (List UInt8) :=
  (deserialize bs).bind fun h =>
    if h.Accepted then nextMessage bs else if h.Oversize then some (bs.drop size) else none

namespace Conn

variable {T : Type} {c : Conn T} {h : KvBlockHeader} {n : ℕ}

def ofFlow : Flow (Conn T) → Option (Conn T)
  | .next c => some c
  | .close _ => none

theorem readExact_of_le (hn : n ≤ c.input.length) :
    c.readExact n = some (c.input.take n, { c with input := c.input.drop n }) := if_pos hn

theorem readExact_of_lt (hn : c.input.length < n) : c.readExact n = none := if_neg (by omega)

variable [KvBlockStore T]

def step (c : Conn T) (_ : Unit) : Option (Conn T) := ofFlow c.receive

omit [KvBlockStore T] in
theorem receivePrompt_input (hm : ¬ maxPromptTokens < h.numElements.toNat) :
    (ofFlow (c.receivePrompt h)).map (·.input) =
      if h.numElements.toNat * 4 ≤ c.input.length then some (c.input.drop (h.numElements.toNat * 4))
      else none := by
  rw [receivePrompt, if_neg hm]
  by_cases hn : h.numElements.toNat * 4 ≤ c.input.length
  · simp only [readExact_of_le hn, if_pos hn]
    split_ifs <;> rfl
  · simp only [readExact_of_lt (Nat.lt_of_not_le hn), if_neg hn]
    rfl

theorem receivePush_input (hfit : h.PushFits) :
    (ofFlow (c.receivePush h)).map (·.input) =
      if h.numElements.toNat * 8 ≤ c.input.length then some (c.input.drop (h.numElements.toNat * 8))
      else none := by
  rw [receivePush, if_neg hfit.1, if_neg hfit.2]
  by_cases hn : h.numElements.toNat * 8 ≤ c.input.length
  · simp only [readExact_of_le hn, if_pos hn]
    split <;> rfl
  · simp only [readExact_of_lt (Nat.lt_of_not_le hn), if_neg hn]
    rfl

theorem receive_of_header (hd : deserialize c.input = some h) :
    c.receive =
      let c₁ : Conn T := { c with input := c.input.drop size }
      if ¬ h.verify then .close (c₁.sendAck h false 0)
      else if h.isFetch then .next (c₁.answerFetch h)
      else if h.isPrompt then c₁.receivePrompt h
      else c₁.receivePush h := by
  have hn : size ≤ c.input.length := by
    by_contra hlt
    rw [deserialize_eq_none.mpr (Nat.lt_of_not_le hlt)] at hd
    exact absurd hd (by simp)
  rw [receive, readExact_of_le hn]
  simp only [deserialize_take, hd]

omit [KvBlockStore T] in
theorem nextMessage_of_header (hd : deserialize c.input = some h) :
    nextMessage c.input = if h.bodyLen ≤ (c.input.drop size).length
      then some ((c.input.drop size).drop h.bodyLen) else none := by
  have hn : size ≤ c.input.length := by
    by_contra hlt
    rw [deserialize_eq_none.mpr (Nat.lt_of_not_le hlt)] at hd
    exact absurd hd (by simp)
  rw [nextMessage, hd, bind_some, length_drop, drop_drop]
  split_ifs with h1 h2 <;> first | rfl | omega

theorem step_input (c : Conn T) : (c.step ()).map (·.input) = consume c.input := by
  rcases hd : deserialize c.input with _ | h
  · have hn := deserialize_eq_none.mp hd
    rw [step, receive, readExact_of_lt hn, consume, hd]
    rfl
  have hnext := nextMessage_of_header hd
  rw [step, receive_of_header hd, consume, hd, bind_some]
  by_cases hv : h.verify
  · rw [if_neg (not_not.mpr hv)]
    by_cases hf : h.isFetch
    · have hbody : h.bodyLen = 0 := by simp [bodyLen, hf]
      rw [if_pos hf, if_pos ⟨hv, .inl hf⟩, hnext, hbody, if_pos (Nat.zero_le _)]
      rfl
    rw [if_neg hf]
    by_cases hp : h.isPrompt
    · have hbody : h.bodyLen = h.numElements.toNat * 4 := by simp [bodyLen, hf, hp]
      rw [if_pos hp]
      by_cases hm : maxPromptTokens < h.numElements.toNat
      · have hover : h.Oversize := ⟨hv, hf, hp, hm⟩
        rw [if_neg fun ha => not_oversize_of_accepted ha hover, if_pos hover, receivePrompt,
          if_pos hm]
        rfl
      · have ha : h.Accepted := ⟨hv, .inr (.inl ⟨hp, hm⟩)⟩
        rw [if_pos ha, receivePrompt_input hm, hnext, hbody]
    · have hbody : h.bodyLen = h.numElements.toNat * 8 := by simp [bodyLen, hf, hp]
      rw [if_neg hp]
      by_cases hfit : h.PushFits
      · have ha : h.Accepted := ⟨hv, .inr (.inr ⟨hp, hfit⟩)⟩
        rw [if_pos ha, receivePush_input hfit, hnext, hbody]
      · have hna : ¬ h.Accepted := by
          rintro ⟨-, h1 | ⟨h1, -⟩ | ⟨-, h1⟩⟩
          · exact hf h1
          · exact hp h1
          · exact hfit h1
        rw [if_neg hna, if_neg fun ho => hp ho.2.2.1, receivePush]
        by_cases h1 : maxWireLayerIdx < h.layerIdx
        · rw [if_pos h1]
          rfl
        · by_cases h2 : 100000000 < h.numElements.toNat
          · rw [if_neg h1, if_pos h2]
            rfl
          · exact absurd ⟨h1, h2⟩ hfit
  · rw [if_pos hv, if_neg fun ha => hv ha.1, if_neg fun ho => hv ho.1]
    rfl

/-- The states in which a round begins, on a connection whose peer sends `bs` and closes. -/
def Round (store : T) (prompts : PromptChannel) (bs : List UInt8) : Conn T → Prop :=
  Steps.Reach step (fun _ _ => True) ⟨bs, store, prompts, []⟩

/-- If another round begins, it begins right behind the whole message that this one decodes. -/
def InFrame (c : Conn T) : Prop := ∀ c', c.step () = some c' → nextMessage c.input = some c'.input

end Conn

/-- The stream as it stands at each message, up to the first that closes the connection. -/
inductive Delivered (bs : List UInt8) : List UInt8 → Prop
  | start : Delivered bs bs
  | next {s s' : List UInt8} {h : KvBlockHeader} : Delivered bs s → deserialize s = some h →
      h.Accepted → nextMessage s = some s' → Delivered bs s'

namespace Conn

variable {T : Type} [KvBlockStore T] {store : T} {prompts : PromptChannel} {bs : List UInt8}
  {c : Conn T}

theorem Round.delivered
    (hno : ∀ s h, Delivered bs s → deserialize s = some h → ¬ h.Oversize)
    (hc : Round store prompts bs c) : Delivered bs c.input := by
  refine hc.invariant (I := fun c => Delivered bs c.input) .start ?_
  intro c _ c' hdel _ hstep
  have hin := c.step_input
  rw [hstep, map_some, consume] at hin
  obtain ⟨h, hd, hin⟩ := bind_eq_some_iff.mp hin.symm
  by_cases ha : h.Accepted
  · rw [if_pos ha] at hin
    exact .next hdel hd ha hin
  · rw [if_neg ha, if_neg (hno _ h hdel hd)] at hin
    exact absurd hin (by simp)

theorem exists_round {s : List UInt8} (hs : Delivered bs s) :
    ∃ c, Round store prompts bs c ∧ c.input = s := by
  induction hs with
  | start => exact ⟨_, .start, rfl⟩
  | @next s s' h _ hd ha hnext ih =>
    obtain ⟨c, hc, rfl⟩ := ih
    have hin := c.step_input
    rw [consume, hd, bind_some, if_pos ha, hnext, map_eq_some_iff] at hin
    obtain ⟨c', hstep, heq⟩ := hin
    exact ⟨c', hc.next () trivial hstep, heq⟩

/-- The rounds of a connection keep to the message frames exactly when the stream, message by
message up to the first that closes the connection, holds no oversize prompt. -/
theorem rounds_in_frame_iff (store : T) (prompts : PromptChannel) (bs : List UInt8) :
    (∀ c, Round store prompts bs c → c.InFrame)
      ↔ ∀ s h, Delivered bs s → deserialize s = some h → ¬ h.Oversize := by
  constructor
  · rintro hall s h hs hd hover
    obtain ⟨c, hc, rfl⟩ : ∃ c, Round store prompts bs c ∧ c.input = s := exists_round hs
    have hin := c.step_input
    rw [consume, hd, bind_some, if_neg fun ha => not_oversize_of_accepted ha hover,
      if_pos hover, map_eq_some_iff] at hin
    obtain ⟨c', hstep, heq⟩ := hin
    have hnext := hall c hc c' hstep
    -- the frame is longer than what the round took
    have hbody : 0 < h.bodyLen := by
      have := hover.2.2.2
      rw [bodyLen, if_neg hover.2.1, if_pos hover.2.2.1]
      omega
    rw [nextMessage, hd, bind_some] at hnext
    split_ifs at hnext with hle
    have hlen := congrArg List.length (Option.some.inj hnext)
    rw [heq, length_drop, length_drop] at hlen
    omega
  · intro hno c hc c' hstep
    have hdel := hc.delivered hno
    have hin := c.step_input
    rw [hstep, map_some, consume] at hin
    obtain ⟨h, hd, hin⟩ := bind_eq_some_iff.mp hin.symm
    by_cases ha : h.Accepted
    · rwa [if_pos ha] at hin
    · rw [if_neg ha, if_neg (hno _ h hdel hd)] at hin
      exact absurd hin (by simp)

instance emptyStore : KvBlockStore Unit where
  numBlocks _ := 0
  blockElemPerToken _ := 0
  blockSize _ := 0
  blockIsReceived _ _ := false
  blockNumTokens _ _ := none
  readLayerKeys _ _ _ := none
  readLayerValues _ _ _ := none
  tryWriteLayerKeys _ _ _ _ _ := ((), .error "no blocks")
  tryWriteLayerValues _ _ _ _ := ((), .error "no blocks")

def oversizePrompt : KvBlockHeader := ⟨kvMagic, kvProtocolVersion, 1, promptFlag, 1000001, 0, 0⟩

def oversizeStream : List UInt8 := oversizePrompt.serialize ++ List.replicate 32 0

/-- The next round takes the payload's first bytes for a header. -/
theorem oversize_prompt_leaves_frame :
    ¬ ∀ (store : Unit) (prompts : PromptChannel) (bs : List UInt8) (c : Conn Unit),
      Round store prompts bs c → c.InFrame := by
  intro hall
  have hframe := hall () [] oversizeStream _ .start
  have hstep : ∃ c', step (⟨oversizeStream, (), [], []⟩ : Conn Unit) () = some c' :=
    ⟨_, rfl⟩
  obtain ⟨c', hstep⟩ := hstep
  have hnext := hframe c' hstep
  have hnone : nextMessage oversizeStream = none := by decide
  exact absurd (hnone.symm.trans hnext) (by simp)

end Conn

end Grim.KvTransport
