import Grim.Autograd.AdamW
import Grim.Lib.LittleEndian
import Grim.Lib.Text

/-!
# Checkpoints

The optimizer and the parameters as one dictionary of blobs, each under the name of its slot, and
back.  The registry is one of F32 parameters, so every blob is a list of 32-bit words.
-/

namespace Grim.Autograd

open LittleEndian List Option

def LoRAInjectionPoint.suffix : LoRAInjectionPoint → String
  | qProj => "qproj"
  | kProj => "kproj"
  | vProj => "vproj"
  | oProj => "oproj"
  | gateProj => "gateproj"
  | upProj => "upproj"
  | downProj => "downproj"
  | logits => "logits"

def weightSlot (id : ParamId) : String :=
  "param_" ++ toString id.layerIdx ++ "_" ++ toString id.adapterId ++ "_" ++ id.point.suffix ++ "_"
    ++ (if id.isA then "a" else "b")

/-- The name of a moment's slot: of its place, not of the matrix. -/
def momentSlot (kind : String) (id : ParamId) : String :=
  kind ++ toString id.layerIdx ++ "_" ++ toString id.adapterId ++ "_" ++ id.point.suffix

def mSlot (id : ParamId) : String := momentSlot "opt_m_" id

def vSlot (id : ParamId) : String := momentSlot "opt_v_" id

def legacyWeightSlot (id : ParamId) : String := weightSlot id

def legacyMSlot (id : ParamId) : String := mSlot id

def legacyVSlot (id : ParamId) : String := vSlot id

def SamePlace (id id' : ParamId) : Prop :=
  id.layerIdx = id'.layerIdx ∧ id.adapterId = id'.adapterId ∧ id.point = id'.point

theorem LoRAInjectionPoint.suffix_inj {p q : LoRAInjectionPoint}
    (h : p.suffix.toList = q.suffix.toList) : p = q := by
  have := String.toList_injective h
  cases p <;> cases q <;> first | rfl | simp [suffix] at this

theorem LoRAInjectionPoint.underscore_notMem (p : LoRAInjectionPoint) :
    '_' ∉ p.suffix.toList := by
  cases p <;> simp [suffix]

theorem place_split {id id' : ParamId} {r s : List Char}
    (h : (toString id.layerIdx).toList ++ '_' :: ((toString id.adapterId).toList ++ '_' :: r) =
      (toString id'.layerIdx).toList ++ '_' :: ((toString id'.adapterId).toList ++ '_' :: s)) :
    id.layerIdx = id'.layerIdx ∧ id.adapterId = id'.adapterId ∧ r = s := by
  obtain ⟨hlayer, htail⟩ := Text.number_split h
  obtain ⟨hadapter, hrest⟩ := Text.number_split htail
  exact ⟨hlayer, hadapter, hrest⟩

theorem weightSlot_inj {id id' : ParamId} (h : weightSlot id = weightSlot id') : id = id' := by
  have hlist := congrArg String.toList h
  simp only [weightSlot, String.toList_append, append_assoc] at hlist
  obtain ⟨hlayer, hadapter, hrest⟩ := place_split (append_cancel_left hlist)
  obtain ⟨hpoint, hmatrix⟩ := Text.split_at id.point.underscore_notMem
    id'.point.underscore_notMem hrest
  have hpoint := LoRAInjectionPoint.suffix_inj hpoint
  have hisA : id.isA = id'.isA := by
    rcases hA : id.isA <;> rcases hA' : id'.isA <;> simp [hA, hA'] at hmatrix ⊢
  cases id
  cases id'
  simp_all

theorem momentSlot_inj {kind : String} {id id' : ParamId}
    (h : momentSlot kind id = momentSlot kind id') : SamePlace id id' := by
  have hlist := congrArg String.toList h
  simp only [momentSlot, String.toList_append, append_assoc] at hlist
  obtain ⟨hlayer, hadapter, hrest⟩ := place_split (append_cancel_left hlist)
  exact ⟨hlayer, hadapter, LoRAInjectionPoint.suffix_inj hrest⟩

theorem weightSlot_ne_mSlot (id id' : ParamId) : weightSlot id ≠ mSlot id' := by
  intro h
  have hlist := congrArg String.toList h
  simp [weightSlot, mSlot, momentSlot] at hlist

theorem weightSlot_ne_vSlot (id id' : ParamId) : weightSlot id ≠ vSlot id' := by
  intro h
  have hlist := congrArg String.toList h
  simp [weightSlot, vSlot, momentSlot] at hlist

theorem mSlot_ne_vSlot (id id' : ParamId) : mSlot id ≠ vSlot id' := by
  intro h
  have hlist := congrArg String.toList h
  simp [mSlot, vSlot, momentSlot] at hlist

structure TrainBlob where
  name : String
  shape : List ℕ
  data : List UInt8
deriving DecidableEq

structure TrainState where
  step : ℕ
  blobs : String → Option TrainBlob

namespace TrainState

def addBlob (state : TrainState) (b : TrainBlob) : TrainState :=
  { state with blobs := Function.update state.blobs b.name (some b) }

theorem foldl_addBlob (n : String) : ∀ (bs : List TrainBlob) (state : TrainState),
    (∃ b ∈ bs, b.name = n ∧ (bs.foldl addBlob state).blobs n = some b) ∨
      (∀ b ∈ bs, b.name ≠ n) ∧ (bs.foldl addBlob state).blobs n = state.blobs n
  | [], _ => .inr ⟨by simp, rfl⟩
  | b :: bs, state => by
    rcases foldl_addBlob n bs (state.addBlob b) with ⟨b', hb', hname, hlast⟩ | ⟨hnone, hkeep⟩
    · exact .inl ⟨b', mem_cons_of_mem _ hb', hname, hlast⟩
    · by_cases hname : b.name = n
      · refine .inl ⟨b, mem_cons_self, hname, ?_⟩
        rw [foldl_cons, hkeep, addBlob, ← hname]
        exact Function.update_self _ _ _
      · refine .inr ⟨?_, ?_⟩
        · simpa [hname] using hnone
        · rw [foldl_cons, hkeep, addBlob]
          exact Function.update_of_ne (Ne.symm hname) _ _

/-- The blob of the slot, or of its name before the point was part of it. -/
def blobSlot (state : TrainState) (new legacy : String) : Option TrainBlob :=
  (state.blobs new).or (state.blobs legacy)

end TrainState

def bytesToF32Vec (bytes : List UInt8) : Option (List UInt32) :=
  if bytes.length % 4 ≠ 0 then none else some (unwords bytes)

@[simp] theorem bytesToF32Vec_words (xs : List UInt32) :
    bytesToF32Vec (words xs) = some xs := by simp [bytesToF32Vec]

def loadSlot (state : TrainState) (new legacy : String) (shape : List ℕ) :
    Option (Option Tensor) :=
  match state.blobSlot new legacy with
  | none => some none
  | some blob => ((bytesToF32Vec blob.data).bind (Tensor.fromCpu · shape)).map some

namespace AdamW

def blobsOf (o : AdamW) (ps : TrainableParams) (id : ParamId) : List TrainBlob :=
  let data := (ps.param id).data
  ⟨weightSlot id, data.shape, words data.data⟩ ::
    (((o.m id).map fun t => ⟨mSlot id, data.shape, words t.data⟩).toList ++
      ((o.v id).map fun t => ⟨vSlot id, data.shape, words t.data⟩).toList)

def saveToTrainState (o : AdamW) (ps : TrainableParams) : TrainState :=
  (ps.ids.flatMap (blobsOf o ps)).foldl TrainState.addBlob ⟨o.stepCount, fun _ => none⟩

def loadAt (state : TrainState) (s : AdamW × TrainableParams) (id : ParamId) :
    Option (AdamW × TrainableParams) := do
  let p := s.2.param id
  let data ← loadSlot state (weightSlot id) (legacyWeightSlot id) p.data.shape
  let p := { p with data := data.getD p.data }
  let m ← loadSlot state (mSlot id) (legacyMSlot id) p.data.shape
  let v ← loadSlot state (vSlot id) (legacyVSlot id) p.data.shape
  some ({ s.1 with
      m := Function.update s.1.m id (m.or (s.1.m id))
      v := Function.update s.1.v id (v.or (s.1.v id)) },
    s.2.set id p)

def loadFromTrainState (o : AdamW) (ps : TrainableParams) (state : TrainState) :
    Option (AdamW × TrainableParams) :=
  ps.ids.foldlM (loadAt state) ({ o with stepCount := state.step }, ps)

/-- A fresh optimizer of the same configuration, and a registry, loaded from a checkpoint. -/
def resume (o : AdamW) (ps target : TrainableParams) : Option (AdamW × TrainableParams) :=
  (new o.config).loadFromTrainState target (o.saveToTrainState ps)

/-- The fork has the default configuration, but for the learning rate. -/
def forkForRank (o : AdamW) (ps target : TrainableParams) : Option (AdamW × TrainableParams) :=
  (new { AdamWConfig.default with lr := o.config.lr }).loadFromTrainState target
    (o.saveToTrainState ps)

end AdamW

variable {o : AdamW} {ps : TrainableParams} {id : ParamId}

theorem mem_blobsOf {b : TrainBlob} : b ∈ o.blobsOf ps id ↔
    b = ⟨weightSlot id, (ps.param id).data.shape, words (ps.param id).data.data⟩ ∨
      (∃ t, o.m id = some t ∧ b = ⟨mSlot id, (ps.param id).data.shape, words t.data⟩) ∨
      ∃ t, o.v id = some t ∧ b = ⟨vSlot id, (ps.param id).data.shape, words t.data⟩ := by
  simp only [AdamW.blobsOf, mem_cons, mem_append, mem_toList,
    map_eq_some_iff, eq_comm (b := b)]

theorem loadSlot_some {state : TrainState} {n : String} {b : TrainBlob} {xs : List UInt32}
    {t : Tensor} (hblob : state.blobs n = some b) (hdata : b.data = words xs)
    (ht : xs = t.data) : loadSlot state n n t.shape = some (some t) := by
  simp only [loadSlot, TrainState.blobSlot, hblob, some_or, hdata, bytesToF32Vec_words,
    bind_some, ht, Tensor.fromCpu_data, map_some]

theorem loadSlot_none {state : TrainState} {n : String} {shape : List ℕ}
    (h : state.blobs n = none) : loadSlot state n n shape = some none := by
  rw [loadSlot, TrainState.blobSlot, h]
  rfl

theorem saved_cases (o : AdamW) (ps : TrainableParams) (n : String) :
    (∃ id ∈ ps.ids, ∃ b ∈ o.blobsOf ps id, b.name = n ∧ (o.saveToTrainState ps).blobs n = some b) ∨
      (∀ id ∈ ps.ids, ∀ b ∈ o.blobsOf ps id, b.name ≠ n) ∧
        (o.saveToTrainState ps).blobs n = none := by
  rcases TrainState.foldl_addBlob n (ps.ids.flatMap (o.blobsOf ps))
    ⟨o.stepCount, fun _ => none⟩ with ⟨b, hb, hname, hlast⟩ | ⟨hnone, hkeep⟩
  · obtain ⟨id, hid, hb⟩ := mem_flatMap.1 hb
    exact .inl ⟨id, hid, b, hb, hname, hlast⟩
  · exact .inr ⟨fun id hid b hb => hnone b (mem_flatMap.2 ⟨id, hid, hb⟩), hkeep⟩

theorem saved_weight (hid : id ∈ ps.ids) :
    loadSlot (o.saveToTrainState ps) (weightSlot id) (legacyWeightSlot id)
      (ps.param id).data.shape = some (some (ps.param id).data) := by
  rcases saved_cases o ps (weightSlot id) with ⟨id', _, b, hb, hname, hlast⟩ | ⟨hnone, _⟩
  · rcases mem_blobsOf.1 hb with rfl | ⟨t, _, rfl⟩ | ⟨t, _, rfl⟩
    · obtain rfl := weightSlot_inj hname
      exact loadSlot_some hlast rfl rfl
    · exact absurd hname.symm (weightSlot_ne_mSlot id id')
    · exact absurd hname.symm (weightSlot_ne_vSlot id id')
  · exact absurd rfl (hnone id hid _ (mem_blobsOf.2 (.inl rfl)))

theorem saved_moment {kind : String} {moment : ParamId → Option Tensor}
    (hmem : ∀ {id' b}, b ∈ o.blobsOf ps id' → b.name = momentSlot kind id →
      momentSlot kind id' = momentSlot kind id ∧ ∃ t, moment id' = some t ∧ b.data = words t.data)
    (hown : ∀ {t}, moment id = some t → ∃ b ∈ o.blobsOf ps id, b.name = momentSlot kind id)
    (hid : id ∈ ps.ids) :
    (∃ id' ∈ ps.ids, SamePlace id' id ∧ ∃ t, moment id' = some t ∧ ∀ u : Tensor, u.data = t.data →
        loadSlot (o.saveToTrainState ps) (momentSlot kind id) (momentSlot kind id) u.shape =
          some (some u)) ∨
      moment id = none ∧ ∀ shape,
        loadSlot (o.saveToTrainState ps) (momentSlot kind id) (momentSlot kind id) shape =
          some none := by
  rcases saved_cases o ps (momentSlot kind id) with
    ⟨id', hid', b, hb, hname, hlast⟩ | ⟨hnone, hkeep⟩
  · obtain ⟨hslot, t, ht, hdata⟩ := hmem hb hname
    exact .inl ⟨id', hid', momentSlot_inj hslot, t, ht, fun u hu =>
      loadSlot_some hlast hdata hu.symm⟩
  · refine .inr ⟨?_, fun shape => loadSlot_none hkeep⟩
    rcases ht : moment id with _ | t
    · rfl
    · obtain ⟨b, hb, hname⟩ := hown ht
      exact absurd hname (hnone id hid b hb)

theorem saved_m (o : AdamW) (hid : id ∈ ps.ids) :
    (∃ id' ∈ ps.ids, SamePlace id' id ∧ ∃ t, o.m id' = some t ∧ ∀ u : Tensor, u.data = t.data →
        loadSlot (o.saveToTrainState ps) (mSlot id) (legacyMSlot id) u.shape = some (some u)) ∨
      o.m id = none ∧ ∀ shape,
        loadSlot (o.saveToTrainState ps) (mSlot id) (legacyMSlot id) shape = some none := by
  refine saved_moment (fun {id' b} hb hname => ?_) (fun {t} ht => ?_) hid
  · rcases mem_blobsOf.1 hb with rfl | ⟨t, ht, rfl⟩ | ⟨t, _, rfl⟩
    · exact absurd hname (weightSlot_ne_mSlot id' id)
    · exact ⟨hname, t, ht, rfl⟩
    · exact absurd hname.symm (mSlot_ne_vSlot id id')
  · exact ⟨_, mem_blobsOf.2 (.inr (.inl ⟨t, ht, rfl⟩)), rfl⟩

theorem saved_v (o : AdamW) (hid : id ∈ ps.ids) :
    (∃ id' ∈ ps.ids, SamePlace id' id ∧ ∃ t, o.v id' = some t ∧ ∀ u : Tensor, u.data = t.data →
        loadSlot (o.saveToTrainState ps) (vSlot id) (legacyVSlot id) u.shape = some (some u)) ∨
      o.v id = none ∧ ∀ shape,
        loadSlot (o.saveToTrainState ps) (vSlot id) (legacyVSlot id) shape = some none := by
  refine saved_moment (fun {id' b} hb hname => ?_) (fun {t} ht => ?_) hid
  · rcases mem_blobsOf.1 hb with rfl | ⟨t, _, rfl⟩ | ⟨t, ht, rfl⟩
    · exact absurd hname (weightSlot_ne_vSlot id' id)
    · exact absurd hname (mSlot_ne_vSlot id' id)
    · exact ⟨hname, t, ht, rfl⟩
  · exact ⟨_, mem_blobsOf.2 (.inr (.inr ⟨t, ht, rfl⟩)), rfl⟩

/-- What a load makes of a parameter, from what the slots of its place hold. -/
def Cell.restored (c : Cell) (data m v : Option Tensor) : Cell where
  param := { c.param with data := data.getD c.param.data }
  m := m.or c.m
  v := v.or c.v
  steps := c.steps

def Cell.load (state : TrainState) (id : ParamId) (c : Cell) : Option Cell := do
  let data ← loadSlot state (weightSlot id) (legacyWeightSlot id) c.param.data.shape
  let shape := (data.getD c.param.data).shape
  let m ← loadSlot state (mSlot id) (legacyMSlot id) shape
  let v ← loadSlot state (vSlot id) (legacyVSlot id) shape
  some (c.restored data m v)

theorem loadAt_local (state : TrainState) :
    Sweep.Local cell kept (AdamW.loadAt state) fun _ id c => c.load state id where
  step := by
    rintro ⟨o, ps⟩ id c h
    simp only [Cell.load, cell, bind_eq_bind, bind_eq_some_iff, Option.some.injEq] at h
    obtain ⟨data, hdata, m, hm, v, hv, rfl⟩ := h
    have hat : AdamW.loadAt state (o, ps) id = some
        ({ o with
            m := Function.update o.m id (m.or (o.m id))
            v := Function.update o.v id (v.or (o.v id)) },
          ps.set id { ps.param id with data := data.getD (ps.param id).data }) := by
      simp only [AdamW.loadAt, hdata, hm, hv, bind_eq_bind, bind_some]
    refine ⟨_, hat, rfl, ?_, fun j hj => ?_⟩
    · simp [cell, TrainableParams.set, Cell.restored]
    · simp [cell, TrainableParams.set, hj]

end Grim.Autograd
