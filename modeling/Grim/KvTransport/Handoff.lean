import Grim.KvTransport.Inbox

/-!
# One send over shared memory, against the receiver's poller

The sender publishes a file and takes its absence for the receiver's consent; a receiver that
rejects it renames it, and one that shuts down deletes the inbox.  The steps are the file
operations of both, in any order the two allow, and the stores of others in between.
-/

namespace Grim.KvTransport

open LittleEndian KvBlockHeader KvBlockStore

structure KvBlockTransfer where
  blockId : UInt64
  layerIdx : UInt32
  k : List UInt32
  v : List UInt32
  numTokens : ℕ

/-- Why `SharedMemWireTransport::send_block` fails. -/
inductive SendError
  | address (reason : String)
  | noReceiver
  | encode (reason : String)
  | create (reason : String)
  | write (reason : String)
  | sync (reason : String)
  | publish (reason : String)
  | rejected (blockId : UInt64) (layerIdx : UInt32)
  | notConsumed (blockId : UInt64) (layerIdx : UInt32)
deriving DecidableEq

inductive Sender
  | start
  | create
  | writing (rest : List UInt8)
  | syncing
  | publishing
  | lookPending
  | lookRejected
  | checkDeadline
  | done (result : Except SendError Unit)

/-- The two names of a handoff that the poller takes up, as both begin with `pending_`. -/
inductive Name
  | tmp
  | pending
deriving DecidableEq

/-- Where the poller is in `consume_shm_handoff`. -/
inductive Poller
  | idle
  | held (name : Name) (bytes : List UInt8)
  | settling (name : Name) (committed : Bool)
  | stopped

/-- The files of one handoff, both parties and the store.  `committed`: the store took the payload;
`refused`: a file of the handoff was renamed as rejected; `lost`: the published file was, or the
teardown deleted it. -/
structure Handoff (T : Type) where
  item : KvBlockTransfer
  active : Bool
  wire : List UInt8
  tmp : Option (List UInt8)
  pending : Option (List UInt8)
  rejected : Option (List UInt8)
  sender : Sender
  poller : Poller
  store : T
  committed : Bool
  refused : Bool
  lost : Bool

/-- `io` is the outcome of a file operation the sender does not ignore; `removed` and `renamed`
that of one whose failure is ignored. -/
inductive HandoffStep (T : Type)
  | begin (addr : Except String Unit)
  | create (io : Except String Unit)
  | write (n : ℕ) (io : Except String Unit)
  | sync (io : Except String Unit)
  | publish (io : Except String Unit)
  | lookPending
  | lookRejected (removed : Bool)
  | checkDeadline (expired removed : Bool)
  | read (name : Name)
  | consume
  | settle (done : Bool)
  | stop
  | teardownActive
  | teardownFile (name : Name)
  | teardownRejected
  | other (store : T)

namespace Handoff

variable {T : Type}

def new (item : KvBlockTransfer) (active : Bool) (store : T) : Handoff T where
  item := item
  active := active
  wire := []
  tmp := none
  pending := none
  rejected := none
  sender := .start
  poller := .idle
  store := store
  committed := false
  refused := false
  lost := false

variable (s : Handoff T)

def fail (e : SendError) : Handoff T := { s with sender := .done (.error e) }

def file : Name → Option (List UInt8)
  | .tmp => s.tmp
  | .pending => s.pending

def remove : Name → Handoff T
  | .tmp => { s with tmp := none }
  | .pending => { s with pending := none }

/-- The rename to `rejected_*`, of a file that is there. -/
def quarantine : Name → Handoff T
  | .tmp => if s.tmp.isSome then { s with tmp := none, refused := true } else s
  | .pending =>
    if s.pending.isSome then
      { s with pending := none, rejected := s.pending, refused := true, lost := true }
    else s

def begin (addr : Except String Unit) : Handoff T :=
  match addr with
  | .error e => s.fail (.address e)
  | .ok () =>
    if ¬ s.active then s.fail .noReceiver
    else
      let i := s.item
      match encodeBlockMessage i.blockId i.layerIdx i.k i.v i.numTokens with
      | .error e => s.fail (.encode e)
      | .ok wire => { s with wire := wire, sender := .create }

/-- A part of `write_all`; the bytes reach the file wherever it is by now. -/
def write (rest : List UInt8) (n : ℕ) : Handoff T :=
  { s with
    tmp := s.tmp.map (· ++ rest.take n)
    sender := if rest.drop n = [] then .syncing else .writing (rest.drop n) }

def publish : Handoff T :=
  match s.tmp with
  | none => s.fail (.publish "No such file or directory")
  | some bytes => { s with tmp := none, pending := some bytes, sender := .lookPending }

variable [KvBlockStore T]

def step (s : Handoff T) : HandoffStep T → Option (Handoff T)
  | .begin addr => match s.sender with
    | .start => some (s.begin addr)
    | _ => none
  | .create io => match s.sender, io with
    | .create, .error e => some (s.fail (.create e))
    | .create, .ok () => some { s with tmp := some [], sender := .writing s.wire }
    | _, _ => none
  | .write n io => match s.sender, io with
    | .writing _, .error e => some (s.fail (.write e))
    | .writing rest, .ok () => some (s.write rest n)
    | _, _ => none
  | .sync io => match s.sender, io with
    | .syncing, .error e => some (s.fail (.sync e))
    | .syncing, .ok () => some { s with sender := .publishing }
    | _, _ => none
  | .publish io => match s.sender, io with
    | .publishing, .error e => some (s.fail (.publish e))
    | .publishing, .ok () => some s.publish
    | _, _ => none
  | .lookPending => match s.sender with
    | .lookPending => some
        { s with sender := if s.pending.isNone then .done (.ok ()) else .lookRejected }
    | _ => none
  | .lookRejected removed => match s.sender with
    | .lookRejected =>
      if s.rejected.isSome then
        let s := if removed then { s with rejected := none } else s
        some (s.fail (.rejected s.item.blockId s.item.layerIdx))
      else some { s with sender := .checkDeadline }
    | _ => none
  | .checkDeadline expired removed => match s.sender with
    | .checkDeadline =>
      if expired then
        let s := if removed then s.remove .pending else s
        some (s.fail (.notConsumed s.item.blockId s.item.layerIdx))
      else some { s with sender := .lookPending }
    | _ => none
  | .read name => match s.poller, s.file name with
    | .idle, some bytes => some { s with poller := .held name bytes }
    | .idle, none => some s
    | _, _ => none
  | .consume => match s.poller with
    | .held name bytes =>
      let (store, result) := consumeHandoff s.store bytes
      let ok := result matches .ok ()
      some { s with
        store := store
        poller := .settling name ok
        committed := s.committed || (ok && bytes = s.wire) }
    | _ => none
  | .settle done => match s.poller with
    | .settling name ok =>
      let s' := if ¬ done then s else if ok then s.remove name else s.quarantine name
      some { s' with poller := .idle }
    | _ => none
  | .stop => match s.poller with
    | .idle => some { s with poller := .stopped }
    | _ => none
  | .teardownActive => match s.poller with
    | .stopped => some { s with active := false }
    | _ => none
  | .teardownFile name => match s.poller with
    | .stopped => some { s.remove name with
        lost := s.lost || (name = .pending && s.pending.isSome) }
    | _ => none
  | .teardownRejected => match s.poller with
    | .stopped => some { s with rejected := none }
    | _ => none
  | .other store => some { s with store := store }

/-- A success was a commit, and what was rejected is no success. -/
def Truthful (s : Handoff T) : Prop :=
  match s.sender with
  | .done (.ok ()) => s.committed ∧ ¬ s.refused
  | _ => True

/-- The sender does not look for its file after the receiver renamed or deleted it. -/
def LooksInTime (s : Handoff T) : HandoffStep T → Prop
  | .lookPending => ¬ s.lost
  | _ => True

omit [KvBlockStore T] in
instance (s : Handoff T) (e : HandoffStep T) : Decidable (s.LooksInTime e) := by
  cases e <;> unfold LooksInTime <;> infer_instance

/-- The sender has returned `Ok`. -/
def succeeded (s : Handoff T) : Bool := s.sender matches .done (.ok ())

variable {s s' : Handoff T} {e : HandoffStep T}

/-- What the files are worth at each point of the sender: until it publishes, the temporary file is
what was written so far; then the published one is the message, and where it is gone without a
loss, a commit took it. -/
def Phase (s : Handoff T) : Prop :=
  match s.sender with
  | .start | .create => s.tmp = none ∧ s.pending = none ∧ ¬ s.refused ∧ ¬ s.lost
  | .writing rest => s.pending = none ∧ ¬ s.lost
    ∧ ∀ bytes, s.tmp = some bytes → bytes ++ rest = s.wire ∧ ¬ s.refused
  | .syncing | .publishing => s.pending = none ∧ ¬ s.lost
    ∧ ∀ bytes, s.tmp = some bytes → bytes = s.wire ∧ ¬ s.refused
  | .lookPending | .lookRejected | .checkDeadline => s.tmp = none
    ∧ (∀ bytes, s.pending = some bytes → bytes = s.wire)
    ∧ (s.pending = none → ¬ s.lost → s.committed) ∧ (s.refused → s.lost)
  | .done (.ok ()) => s.tmp = none ∧ s.pending = none ∧ s.committed ∧ ¬ s.refused
  | .done (.error _) => True

def Sender.Waits : Sender → Prop
  | .lookPending | .lookRejected | .checkDeadline | .done (.ok ()) => True
  | _ => False

def Sender.Failed : Sender → Prop
  | .done (.error _) => True
  | _ => False

def Holds (s : Handoff T) : Prop :=
  match s.poller with
  | .held .pending bytes => Sender.Failed s.sender ∨ Sender.Waits s.sender ∧ bytes = s.wire
  | .settling .pending true => Sender.Failed s.sender ∨ Sender.Waits s.sender ∧ s.committed
  | _ => True

structure Sound (s : Handoff T) : Prop where
  phase : s.Phase
  holds : s.Holds

omit [KvBlockStore T] in
theorem sound_new (item : KvBlockTransfer) (active : Bool) (store : T) :
    (new item active store).Sound := ⟨⟨rfl, rfl, by simp [new], by simp [new]⟩, trivial⟩

omit [KvBlockStore T] in
theorem Phase.truthful (h : s.Phase) : s.Truthful := by
  unfold Phase Truthful at *
  split at h <;> simp_all

omit [KvBlockStore T] in
theorem Holds.of_sender (h : s.Holds) (hp : s'.poller = s.poller)
    (hw : Sender.Waits s.sender → Sender.Failed s'.sender
      ∨ Sender.Waits s'.sender ∧ s'.wire = s.wire ∧ s'.committed = s.committed)
    (hf : Sender.Failed s.sender → Sender.Failed s'.sender) : s'.Holds := by
  unfold Holds at *
  rw [hp]
  split at h
  · rcases h with h | ⟨h, hb⟩
    · exact .inl (hf h)
    · refine (hw h).imp_right ?_
      rintro ⟨hs, hwire, -⟩
      exact ⟨hs, hb.trans hwire.symm⟩
  · rcases h with h | ⟨h, hc⟩
    · exact .inl (hf h)
    · refine (hw h).imp_right ?_
      rintro ⟨hs, -, hcomm⟩
      exact ⟨hs, hcomm.trans hc⟩
  · trivial

omit [KvBlockStore T] in
theorem Holds.fail (h : s.Holds) (hp : s'.poller = s.poller) (e : SendError) :
    (s'.fail e).Sound :=
  ⟨trivial, h.of_sender hp (fun _ => .inl trivial) fun _ => trivial⟩

omit [KvBlockStore T] in
theorem Sound.fail (h : s.Sound) (e : SendError) : (s.fail e).Sound := h.holds.fail rfl e

omit [KvBlockStore T] in
/-- From one look to the next nothing changes. -/
theorem Sound.looks (h : s.Sound) (hs : s.sender = .lookRejected ∨ s.sender = .checkDeadline)
    {next : Sender} (hnext : next = .lookPending ∨ next = .checkDeadline) :
    ({ s with sender := next } : Handoff T).Sound := by
  have hp := h.phase
  unfold Phase at hp
  refine ⟨?_, h.holds.of_sender rfl (fun _ => .inr ⟨?_, rfl, rfl⟩) fun hf => ?_⟩
  · rcases hs with hs | hs <;> rcases hnext with rfl | rfl <;> rwa [hs] at hp
  · rcases hnext with rfl | rfl <;> trivial
  · rcases hs with hs | hs <;> rw [hs] at hf <;> exact hf.elim

omit [KvBlockStore T] in
theorem Sound.begin (h : s.Sound) (hs : s.sender = .start) (addr : Except String Unit) :
    (s.begin addr).Sound := by
  unfold Handoff.begin
  split
  · exact h.fail _
  · by_cases hactive : s.active
    · rw [if_neg (not_not.mpr hactive)]
      dsimp only
      split
      · exact h.fail _
      · have hp := h.phase
        unfold Phase at hp
        rw [hs] at hp
        exact ⟨hp, h.holds.of_sender rfl (by simp [hs, Sender.Waits]) (by simp [hs, Sender.Failed])⟩
    · rw [if_pos hactive]
      exact h.fail _

omit [KvBlockStore T] in
theorem Sound.write (h : s.Sound) {rest : List UInt8} (hs : s.sender = .writing rest) (n : ℕ) :
    (s.write rest n).Sound := by
  have hp := h.phase
  unfold Phase at hp
  rw [hs] at hp
  obtain ⟨hpend, hlost, htmp⟩ := hp
  have hfile : ∀ bytes, (s.write rest n).tmp = some bytes →
      bytes ++ rest.drop n = s.wire ∧ ¬ s.refused := by
    intro bytes hb
    obtain ⟨old, hold, rfl⟩ := Option.map_eq_some_iff.mp hb
    rw [List.append_assoc, List.take_append_drop]
    exact htmp old hold
  refine ⟨?_, h.holds.of_sender rfl (by simp [hs, Sender.Waits]) (by simp [hs, Sender.Failed])⟩
  unfold Phase
  by_cases hrest : rest.drop n = []
  · have hsend : (s.write rest n).sender = .syncing := by simp [Handoff.write, hrest]
    rw [hsend]
    refine ⟨hpend, hlost, fun bytes hb => ?_⟩
    have := hfile bytes hb
    rwa [hrest, List.append_nil] at this
  · have hsend : (s.write rest n).sender = .writing (rest.drop n) := by
      simp [Handoff.write, hrest]
    rw [hsend]
    exact ⟨hpend, hlost, hfile⟩

omit [KvBlockStore T] in
theorem Sound.publish (h : s.Sound) (hs : s.sender = .publishing) : s.publish.Sound := by
  unfold Handoff.publish
  split
  · exact h.fail _
  · rename_i bytes htmp
    have hp := h.phase
    unfold Phase at hp
    rw [hs] at hp
    obtain ⟨-, -, hwire⟩ := hp
    obtain ⟨hb, href⟩ := hwire bytes htmp
    refine ⟨?_, h.holds.of_sender rfl (by simp [hs, Sender.Waits]) (by simp [hs, Sender.Failed])⟩
    unfold Phase
    simp [hb, href]

omit [KvBlockStore T] in
theorem Sound.lookPending (h : s.Sound) (hs : s.sender = .lookPending) (hlost : ¬ s.lost) :
    Sound { s with sender := if s.pending.isNone then .done (.ok ()) else .lookRejected } := by
  have hp := h.phase
  unfold Phase at hp
  rw [hs] at hp
  obtain ⟨htmp, hwire, hgone, href⟩ := hp
  by_cases hpend : s.pending.isNone
  · have hpend' := Option.isNone_iff_eq_none.mp hpend
    rw [if_pos hpend]
    exact ⟨⟨htmp, hpend', hgone hpend' hlost, fun hr => hlost (href hr)⟩,
      h.holds.of_sender rfl (fun _ => .inr ⟨trivial, rfl, rfl⟩) (by simp [hs, Sender.Failed])⟩
  · rw [if_neg hpend]
    exact ⟨⟨htmp, hwire, hgone, href⟩,
      h.holds.of_sender rfl (fun _ => .inr ⟨trivial, rfl, rfl⟩) (by simp [hs, Sender.Failed])⟩

omit [KvBlockStore T] in
theorem Phase.remove (h : s.Phase) {name : Name}
    (hc : name = .pending → Sender.Failed s.sender ∨ Sender.Waits s.sender ∧ s.committed) :
    (s.remove name).Phase := by
  unfold Phase Handoff.remove at *
  cases name <;> dsimp only <;> split at h <;> simp_all [Sender.Failed]

omit [KvBlockStore T] in
theorem Phase.quarantine (h : s.Phase) (name : Name) : (s.quarantine name).Phase := by
  unfold Phase Handoff.quarantine at *
  cases name <;> dsimp only <;> split_ifs <;> split at h <;> simp_all

omit [KvBlockStore T] in
theorem Phase.teardown (h : s.Phase) (name : Name) :
    Phase { s.remove name with lost := s.lost || (name = .pending && s.pending.isSome) } := by
  unfold Phase Handoff.remove at *
  cases name <;> dsimp only <;> split at h <;> simp_all

omit [KvBlockStore T] in
theorem Phase.pending (h : s.Phase) {bytes : List UInt8} (hb : s.pending = some bytes) :
    Sender.Failed s.sender ∨ Sender.Waits s.sender ∧ bytes = s.wire := by
  unfold Phase at h
  split at h <;> simp_all [Sender.Failed, Sender.Waits]

omit [KvBlockStore T] in
theorem Phase.committed (h : s.Phase) (store : T) (poller : Poller) (ok : Bool) :
    Phase { s with store := store, poller := poller, committed := s.committed || ok } := by
  unfold Phase at *
  dsimp only
  split at h <;> simp_all

theorem Sound.consume (h : s.Sound) (hs : s.step .consume = some s') : s'.Sound := by
  simp only [Handoff.step] at hs
  split at hs <;> cases hs
  rename_i name bytes hpoll
  refine ⟨h.phase.committed _ _ _, ?_⟩
  have hh := h.holds
  unfold Holds at hh ⊢
  rw [hpoll] at hh
  dsimp only
  split
  · rename_i heq
    cases heq
  · rename_i heq
    obtain ⟨rfl, hok⟩ := Poller.settling.inj heq
    refine hh.imp_right ?_
    rintro ⟨hw, rfl⟩
    exact ⟨hw, by simp [hok]⟩
  · trivial

omit [KvBlockStore T] in
theorem Sound.settle (h : s.Sound) {name : Name} {ok : Bool} (hs : s.poller = .settling name ok)
    (done : Bool) :
    Sound { if ¬ done then s else if ok then s.remove name else s.quarantine name with
      poller := .idle } := by
  refine ⟨?_, trivial⟩
  have hphase : (if ¬ done then s else if ok then s.remove name else s.quarantine name).Phase := by
    split_ifs with hdone hok
    · refine h.phase.remove ?_
      rintro rfl
      have hh := h.holds
      unfold Holds at hh
      rw [hs, hok] at hh
      exact hh
    · exact h.phase.quarantine name
    · exact h.phase
  exact hphase

theorem Sound.step (h : s.Sound) (hok : s.LooksInTime e) (hs : s.step e = some s') : s'.Sound := by
  have hstep := hs
  cases e <;> simp only [Handoff.step] at hs
  case begin addr =>
    split at hs <;> cases hs
    rename_i hsend
    exact h.begin hsend addr
  case create io =>
    split at hs <;> cases hs
    · exact h.fail _
    · rename_i hsend
      have hp := h.phase
      unfold Phase at hp
      rw [hsend] at hp
      refine ⟨⟨hp.2.1, hp.2.2.2, ?_⟩,
        h.holds.of_sender rfl (by simp [hsend, Sender.Waits]) (by simp [hsend, Sender.Failed])⟩
      simp [hp.2.2.1]
  case write n io =>
    split at hs <;> cases hs
    · exact h.fail _
    · rename_i hsend
      exact h.write hsend n
  case sync io =>
    split at hs <;> cases hs
    · exact h.fail _
    · rename_i hsend
      have hp := h.phase
      unfold Phase at hp
      rw [hsend] at hp
      exact ⟨hp,
        h.holds.of_sender rfl (by simp [hsend, Sender.Waits]) (by simp [hsend, Sender.Failed])⟩
  case publish io =>
    split at hs <;> cases hs
    · exact h.fail _
    · rename_i hsend
      exact h.publish hsend
  case lookPending =>
    split at hs <;> cases hs
    rename_i hsend
    exact h.lookPending hsend hok
  case lookRejected removed =>
    split at hs
    · rename_i hsend
      by_cases hr : s.rejected.isSome
      · rw [if_pos hr] at hs
        cases hs
        exact h.holds.fail (by cases removed <;> rfl) _
      · rw [if_neg hr] at hs
        cases hs
        exact h.looks (.inl hsend) (.inr rfl)
    · cases hs
  case checkDeadline expired removed =>
    split at hs
    · rename_i hsend
      by_cases hexp : expired
      · rw [if_pos hexp] at hs
        cases hs
        exact h.holds.fail (by cases removed <;> rfl) _
      · rw [if_neg hexp] at hs
        cases hs
        exact h.looks (.inr hsend) (.inl rfl)
    · cases hs
  case read name =>
    split at hs <;> cases hs
    · rename_i hpoll hfile
      refine ⟨h.phase, ?_⟩
      cases name with
      | tmp => trivial
      | pending => exact h.phase.pending hfile
    · exact h
  case consume => exact h.consume hstep
  case settle done =>
    split at hs <;> cases hs
    rename_i hpoll
    exact h.settle hpoll done
  case stop =>
    split at hs <;> cases hs
    exact ⟨h.phase, trivial⟩
  case teardownActive =>
    split at hs <;> cases hs
    exact ⟨h.phase, h.holds⟩
  case teardownFile name =>
    split at hs <;> cases hs
    rename_i hpoll
    refine ⟨h.phase.teardown name, ?_⟩
    unfold Holds
    cases name <;> simp [Handoff.remove, hpoll]
  case teardownRejected =>
    split at hs <;> cases hs
    exact ⟨h.phase, h.holds⟩
  case other store =>
    cases hs
    exact ⟨h.phase, h.holds⟩

/-- In every run in which the sender never looks for its file after a rejection renamed it or the
teardown deleted it, a success is a commit and what is rejected is no success. -/
theorem reach_truthful (item : KvBlockTransfer) (active : Bool) (store : T) (s : Handoff T)
    (hr : Steps.Reach step LooksInTime (new item active store) s) : s.Truthful :=
  (hr.invariant (sound_new item active store) fun _ _ _ h hok hs => h.step hok hs).phase.truthful

/-- One row for block 0 of the one-block store, published, taken up, stored and removed. -/
theorem reach_truthful_committed : ∃ s : Handoff OneBlock,
    Steps.Reach step LooksInTime (new ⟨0, 0, [1], [2], 1⟩ true ⟨[], [], 0⟩) s
      ∧ s.succeeded ∧ s.store = ⟨[1], [2], 1⟩ ∧ s.Truthful := by
  have hrun : (Steps.exec step LooksInTime
      (new ⟨0, 0, [1], [2], 1⟩ true (⟨[], [], 0⟩ : OneBlock))
      [.begin (.ok ()), .create (.ok ()), .write 40 (.ok ()), .sync (.ok ()), .publish (.ok ()),
        .lookPending, .lookRejected true, .read .pending, .consume, .settle true,
        .checkDeadline false true, .lookPending]).map (fun s => (s.succeeded, s.store))
      = some (true, ⟨[1], [2], 1⟩) := by decide +kernel
  obtain ⟨s, hs, hval⟩ := Option.map_eq_some_iff.mp hrun
  obtain ⟨hsucc, hstore⟩ := Prod.mk.inj hval
  have hr := Steps.reach_of_exec hs
  exact ⟨s, hr, hsucc, hstore, reach_truthful _ _ _ s hr⟩

/-- A row for a block the store does not have is rejected, and the sender succeeds. -/
theorem rejected_reported_ok : ¬ ∀ (item : KvBlockTransfer) (active : Bool) (store : OneBlock)
    (s : Handoff OneBlock), Steps.Reach step (fun _ _ => True) (new item active store) s →
      s.Truthful := by
  intro hall
  have hrun : (Steps.exec step (fun _ _ => True)
      (new ⟨5, 0, [1], [2], 1⟩ true (⟨[], [], 0⟩ : OneBlock))
      [.begin (.ok ()), .create (.ok ()), .write 40 (.ok ()), .sync (.ok ()), .publish (.ok ()),
        .read .pending, .consume, .settle true, .lookPending]).map
        (fun s => (s.succeeded, s.committed)) = some (true, false) := by decide +kernel
  obtain ⟨s, hs, hval⟩ := Option.map_eq_some_iff.mp hrun
  obtain ⟨hsucc, hcomm⟩ := Prod.mk.inj hval
  have htrue := hall _ _ _ s (Steps.reach_of_exec hs)
  unfold Truthful at htrue
  unfold succeeded at hsucc
  split at htrue
  · rw [hcomm] at htrue
    simp at htrue
  · simp_all

end Handoff

end Grim.KvTransport
