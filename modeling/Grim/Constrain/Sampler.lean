import Grim.Constrain.JsonFsm
import Grim.Lib.Steps

/-!
# The constrained sampler

Each step masks the row of logits by what the automaton and the schema allow, lets the inner
sampler pick, and feeds the picked token's text.  A mask that allows nothing is not applied.

Logits are the bits of an `f32`.  The verdict of the schema's validator is a parameter.
-/

namespace Grim.Constrain

namespace JsonState

def tokenIsValid (s : JsonState) (token : String) : Bool := (s.feedToken token).2

def validTokens (s : JsonState) (vocab : List String) : List Bool := vocab.map s.tokenIsValid

end JsonState

def negInfinity : UInt32 := 0xff800000

def isFinite (x : UInt32) : Bool := (x >>> 23) &&& 0xff != 0xff

def applyMask (logits : List UInt32) (mask : List Bool) : List UInt32 :=
  if mask.all (!·) then logits
  else logits.mapIdx fun i x => if mask[i]? = some false then negInfinity else x

/-- `Vec::resize(n, true)`. -/
def resize (mask : List Bool) (n : ℕ) : List Bool :=
  mask.take n ++ List.replicate (n - mask.length) true

abbrev TokenMaskCache := List (JsonState × List Bool)

def TokenMaskCache.maskFor (cache : TokenMaskCache) (state : JsonState) (vocab : List String) :
    List Bool × TokenMaskCache :=
  match cache.lookup state with
  | some m => (m, cache)
  | none => (state.validTokens vocab, (state, state.validTokens vocab) :: cache)

structure JsonSchemaConstraint where
  isConsistent : String → Bool
  hasStringConstraint : Bool

abbrev SchemaCache := List (String × List Bool)

/-- The end of a text as the parity scan of double quotes sees it: in a string, and escaped. -/
def scanString : Bool × Bool → List Char → Bool × Bool
  | s, [] => s
  | (inStr, escaped), c :: cs =>
    if c = '"' ∧ ¬ escaped then scanString (!inStr, escaped) cs
    else if c = '\\' ∧ inStr then scanString (inStr, !escaped) cs
    else scanString (inStr, false) cs

def insideUnterminatedString (text : String) : Bool := (scanString (false, false) text.toList).1

namespace JsonSchemaConstraint

variable (comp : JsonSchemaConstraint)

def insideStringFastPath (output : String) : Bool :=
  !comp.hasStringConstraint && insideUnterminatedString output

def validTokens (vocab : List String) (output : String) : List Bool :=
  vocab.map fun t => comp.isConsistent (output ++ t)

def maskFor (cache : SchemaCache) (vocab : List String) (output : String) :
    List Bool × SchemaCache :=
  match cache.lookup output with
  | some m => (m, cache)
  | none =>
    let mask := comp.validTokens vocab output
    (mask, (output, mask) :: if 1024 < cache.length then [] else cache)

end JsonSchemaConstraint

inductive Constraint
  | jsonObject
  | jsonSchema (comp : JsonSchemaConstraint)

structure ConstrainedSampler where
  constraint : Constraint
  fsm : JsonState
  cache : TokenMaskCache
  schemaCache : SchemaCache
  output : String
  vocab : Option (List String)

namespace ConstrainedSampler

def new (constraint : Constraint) : ConstrainedSampler where
  constraint := constraint
  fsm := default
  cache := []
  schemaCache := []
  output := ""
  vocab := none

variable (s : ConstrainedSampler)

def withVocab (vocab : List String) : ConstrainedSampler := { s with vocab := some vocab }

def feedSampledToken (text : String) : ConstrainedSampler :=
  { s with output := s.output ++ text, fsm := (s.fsm.feedToken text).1 }

def feedSampledTokenId (token : ℕ) : ConstrainedSampler :=
  match s.vocab with
  | none => s
  | some vocab =>
    match vocab[token]? with
    | none => s
    | some text => s.feedSampledToken text

def computeMask (vocabSize : ℕ) : List Bool × ConstrainedSampler :=
  match s.vocab with
  | none => (List.replicate vocabSize true, s)
  | some vocab =>
    let (baseMask, cache) := s.cache.maskFor s.fsm vocab
    match s.constraint with
    | .jsonObject => (resize baseMask vocabSize, { s with cache })
    | .jsonSchema comp =>
      let (schemaMask, schemaCache) :=
        if comp.insideStringFastPath s.output then (List.replicate vocabSize true, s.schemaCache)
        else comp.maskFor s.schemaCache vocab s.output
      (resize (List.zipWith (· && ·) baseMask schemaMask) vocabSize, { s with cache, schemaCache })

def maskedLogits (logits : List UInt32) : List UInt32 :=
  applyMask logits (s.computeMask logits.length).1

/-- One call of `sample`, in which the inner sampler picks `token`. -/
structure Sample where
  logits : List UInt32
  token : ℕ

def sample (call : Sample) : Option ConstrainedSampler :=
  some ((s.computeMask call.logits.length).2.feedSampledTokenId call.token)

/-- The inner sampler picks a token whose masked logit is finite. -/
def PicksFinite (call : Sample) : Prop :=
  (s.maskedLogits call.logits)[call.token]?.any isFinite = true

instance (call : Sample) : Decidable (s.PicksFinite call) :=
  inferInstanceAs (Decidable (_ = _))

/-- The emitted text leads the automaton from its initial state to the sampler's. -/
def InGrammar : Prop := JsonState.Runs default s.output.toList s.fsm

def SchemaAllows (text : String) : Prop :=
  match s.constraint with
  | .jsonObject => True
  | .jsonSchema comp =>
    comp.insideStringFastPath s.output = true ∨ comp.isConsistent (s.output ++ text) = true

def Allowed (vocab : List String) (token : ℕ) : Prop :=
  ∀ text ∈ vocab[token]?, s.fsm.tokenIsValid text = true ∧ s.SchemaAllows text

def SomeAllowed (call : Sample) : Prop :=
  ∀ vocab ∈ s.vocab, ∃ token < call.logits.length, s.Allowed vocab token

theorem length_resize (mask : List Bool) (n : ℕ) : (resize mask n).length = n := by
  simp [resize]
  omega

theorem getElem?_resize {mask : List Bool} {n i : ℕ} (h : i < n) :
    (resize mask n)[i]? = some (mask[i]?.getD true) := by
  rw [resize]
  by_cases hi : i < mask.length
  · rw [List.getElem?_append_left (by simp; omega), List.getElem?_take_of_lt h,
      List.getElem?_eq_getElem hi]
    rfl
  · rw [List.getElem?_append_right (by simp; omega), List.getElem?_replicate_of_lt (by simp; omega),
      List.getElem?_eq_none (by omega)]
    rfl

structure Cached (vocab : List String) : Prop where
  vocab_eq : s.vocab = some vocab
  base : ∀ e ∈ s.cache, e.2 = e.1.validTokens vocab
  schema : ∀ comp, s.constraint = .jsonSchema comp →
    ∀ e ∈ s.schemaCache, e.2 = comp.validTokens vocab e.1

end ConstrainedSampler

theorem mem_of_lookup {β γ : Type} [BEq β] [LawfulBEq β] {b : β} {c : γ} :
    ∀ {l : List (β × γ)}, l.lookup b = some c → (b, c) ∈ l
  | (b', c') :: l, h => by
    rw [List.lookup_cons] at h
    by_cases hb : b == b'
    · simp only [hb, Option.some.injEq] at h
      rw [eq_of_beq hb, h]
      exact List.mem_cons_self
    · simp only [hb] at h
      exact List.mem_cons_of_mem _ (mem_of_lookup h)

theorem TokenMaskCache.maskFor_spec {cache : TokenMaskCache} {vocab : List String}
    (h : ∀ e ∈ cache, e.2 = e.1.validTokens vocab) (state : JsonState) :
    (cache.maskFor state vocab).1 = state.validTokens vocab ∧
      ∀ e ∈ (cache.maskFor state vocab).2, e.2 = e.1.validTokens vocab := by
  unfold maskFor
  split
  · rename_i m hm
    exact ⟨h _ (mem_of_lookup hm), h⟩
  · exact ⟨rfl, List.forall_mem_cons.2 ⟨rfl, h⟩⟩

theorem JsonSchemaConstraint.maskFor_spec (comp : JsonSchemaConstraint) {cache : SchemaCache}
    {vocab : List String} (h : ∀ e ∈ cache, e.2 = comp.validTokens vocab e.1) (output : String) :
    (comp.maskFor cache vocab output).1 = comp.validTokens vocab output ∧
      ∀ e ∈ (comp.maskFor cache vocab output).2, e.2 = comp.validTokens vocab e.1 := by
  unfold maskFor
  split
  · rename_i m hm
    exact ⟨h _ (mem_of_lookup hm), h⟩
  · refine ⟨rfl, List.forall_mem_cons.2 ⟨rfl, ?_⟩⟩
    split_ifs
    · exact fun e he => absurd he (by simp)
    · exact h

namespace ConstrainedSampler

variable {s : ConstrainedSampler} {vocab : List String}

/-- What `compute_mask` returns and what it leaves as it was. -/
structure Masks (s : ConstrainedSampler) (vocab : List String) (n : ℕ) : Prop where
  length : (s.computeMask n).1.length = n
  allowed : ∀ i < n, (s.computeMask n).1[i]? = some true ↔ s.Allowed vocab i
  cached : (s.computeMask n).2.Cached vocab
  fsm : (s.computeMask n).2.fsm = s.fsm
  output : (s.computeMask n).2.output = s.output

theorem computeMask_spec (h : s.Cached vocab) (n : ℕ) : Masks s vocab n := by
  obtain ⟨hbase, hcache⟩ := TokenMaskCache.maskFor_spec h.base s.fsm
  rcases hc : s.constraint with _ | comp
  · have heq : s.computeMask n = (resize (s.cache.maskFor s.fsm vocab).1 n,
        { s with cache := (s.cache.maskFor s.fsm vocab).2 }) := by
      simp only [computeMask, h.vocab_eq, hc]
    refine ⟨?_, fun i hi => ?_, ?_, ?_, ?_⟩ <;> rw [heq]
    · exact length_resize _ n
    · simp only [getElem?_resize hi, hbase, JsonState.validTokens, List.getElem?_map, Allowed,
        SchemaAllows, hc, and_true]
      cases vocab[i]? <;> simp
    · exact ⟨h.vocab_eq, hcache, fun comp' hcomp => h.schema comp' hcomp⟩
  · have hlen : (JsonState.validTokens s.fsm vocab).length = vocab.length := by
      simp [JsonState.validTokens]
    by_cases hfast : comp.insideStringFastPath s.output
    · have heq : s.computeMask n = (resize (List.zipWith (· && ·) (s.cache.maskFor s.fsm vocab).1
          (List.replicate n true)) n, { s with cache := (s.cache.maskFor s.fsm vocab).2 }) := by
        simp only [computeMask, h.vocab_eq, hc, hfast, if_true]
      refine ⟨?_, fun i hi => ?_, ?_, ?_, ?_⟩ <;> rw [heq]
      · exact length_resize _ n
      · simp only [getElem?_resize hi, hbase, JsonState.validTokens, List.getElem?_zipWith,
          List.getElem?_map, List.getElem?_replicate_of_lt hi, Allowed, SchemaAllows, hc, hfast]
        cases vocab[i]? <;> simp
      · exact ⟨h.vocab_eq, hcache, fun comp' hcomp => h.schema comp' hcomp⟩
    · obtain ⟨hmask, hschema⟩ := comp.maskFor_spec (h.schema comp hc) s.output
      have heq : s.computeMask n = (resize (List.zipWith (· && ·) (s.cache.maskFor s.fsm vocab).1
          (comp.maskFor s.schemaCache vocab s.output).1) n,
          { s with
            cache := (s.cache.maskFor s.fsm vocab).2
            schemaCache := (comp.maskFor s.schemaCache vocab s.output).2 }) := by
        simp only [computeMask, h.vocab_eq, hc, hfast]
        rfl
      refine ⟨?_, fun i hi => ?_, ?_, ?_, ?_⟩ <;> rw [heq]
      · exact length_resize _ n
      · simp only [getElem?_resize hi, hbase, hmask, JsonState.validTokens,
          JsonSchemaConstraint.validTokens, List.getElem?_zipWith, List.getElem?_map, Allowed,
          SchemaAllows, hc, hfast]
        cases vocab[i]? <;> simp
      · refine ⟨h.vocab_eq, hcache, fun comp' hcomp => ?_⟩
        obtain rfl : comp = comp' := Constraint.jsonSchema.inj (hc.symm.trans hcomp)
        exact hschema

theorem not_isFinite_negInfinity : isFinite negInfinity = false := by decide

theorem Masks.picked {call : Sample} (h : Masks s vocab call.logits.length)
    (hsome : ∃ token < call.logits.length, s.Allowed vocab token) (hpick : s.PicksFinite call) :
    s.Allowed vocab call.token := by
  obtain ⟨i, hi, hallowed⟩ := hsome
  have htrue := (h.allowed i hi).2 hallowed
  have hnot : ¬ (s.computeMask call.logits.length).1.all (!·) = true := by
    rw [List.all_eq_true]
    intro hall
    have := hall true (List.mem_of_getElem? htrue)
    simp at this
  unfold PicksFinite maskedLogits applyMask at hpick
  rw [if_neg hnot, List.getElem?_mapIdx] at hpick
  rcases hrow : call.logits[call.token]? with _ | x
  · simp [hrow] at hpick
  have hlt : call.token < call.logits.length := (List.getElem?_eq_some_iff.1 hrow).1
  rw [← h.allowed _ hlt]
  rw [hrow] at hpick
  by_cases hfalse : (s.computeMask call.logits.length).1[call.token]? = some false
  · simp [hfalse, not_isFinite_negInfinity] at hpick
  · have hget : call.token < (s.computeMask call.logits.length).1.length := by rwa [h.length]
    rw [List.getElem?_eq_getElem hget] at hfalse ⊢
    simpa using hfalse

/-- The caches are right and the emitted text is in the grammar. -/
structure Sound (s : ConstrainedSampler) (vocab : List String) : Prop where
  cached : s.Cached vocab
  inGrammar : s.InGrammar

theorem sound_new (constraint : Constraint) (vocab : List String) :
    ((new constraint).withVocab vocab).Sound vocab :=
  ⟨⟨rfl, fun e he => absurd he (by simp [new, withVocab]),
    fun _ _ e he => absurd he (by simp [new, withVocab])⟩, JsonState.runs_nil.2 rfl⟩

theorem Sound.sample {call : Sample} (h : s.Sound vocab) (hpick : s.PicksFinite call)
    (hsome : s.SomeAllowed call) : ((s.computeMask call.logits.length).2.feedSampledTokenId
      call.token).Sound vocab := by
  have hmasks := computeMask_spec h.cached call.logits.length
  have hallowed := hmasks.picked (hsome vocab h.cached.vocab_eq) hpick
  have hgrammar : (s.computeMask call.logits.length).2.InGrammar := by
    rw [InGrammar, hmasks.output, hmasks.fsm]
    exact h.inGrammar
  rcases htext : vocab[call.token]? with _ | text
  · have heq : (s.computeMask call.logits.length).2.feedSampledTokenId call.token =
        (s.computeMask call.logits.length).2 := by
      simp only [feedSampledTokenId, hmasks.cached.vocab_eq, htext]
    rw [heq]
    exact ⟨hmasks.cached, hgrammar⟩
  · have heq : (s.computeMask call.logits.length).2.feedSampledTokenId call.token =
        (s.computeMask call.logits.length).2.feedSampledToken text := by
      simp only [feedSampledTokenId, hmasks.cached.vocab_eq, htext]
    have hvalid := (hallowed text htext).1
    rw [heq]
    refine ⟨⟨hmasks.cached.vocab_eq, hmasks.cached.base, hmasks.cached.schema⟩, ?_⟩
    rw [InGrammar, feedSampledToken, String.toList_append, JsonState.runs_append]
    refine ⟨_, hgrammar, ?_⟩
    rw [hmasks.fsm]
    exact Prod.ext rfl hvalid

/-- In a run whose every step finds some token allowed, the text stays in the grammar. -/
theorem stays_in_grammar (constraint : Constraint) (vocab : List String)
    (hr : Steps.Reach sample (fun s call => s.PicksFinite call ∧ s.SomeAllowed call)
      ((new constraint).withVocab vocab) s) : s.InGrammar := by
  have hsound : s.Sound vocab := by
    refine hr.invariant (I := fun t => t.Sound vocab) (sound_new constraint vocab) ?_
    intro t call t' h hok hs
    obtain rfl := Option.some.inj hs
    exact h.sample hok.1 hok.2
  exact hsound.inGrammar

instance (t : ConstrainedSampler) (text : String) : Decidable (t.SchemaAllows text) := by
  unfold SchemaAllows
  cases t.constraint <;> infer_instance

instance (t : ConstrainedSampler) (words : List String) (token : ℕ) :
    Decidable (t.Allowed words token) := by
  unfold Allowed
  infer_instance

instance (t : ConstrainedSampler) (call : Sample) : Decidable (t.SomeAllowed call) := by
  unfold SomeAllowed
  infer_instance

/-- A small vocabulary, and rows that leave the choice among it open. -/
def arrayVocab : List String := ["[", "1", ",", "2", "]", "x"]

def pick (token : ℕ) : Sample := ⟨List.replicate 6 0, token⟩

theorem stays_in_grammar_array : ∃ s : ConstrainedSampler,
    Steps.Reach sample (fun s call => s.PicksFinite call ∧ s.SomeAllowed call)
      ((new .jsonObject).withVocab arrayVocab) s ∧ s.output = "[1,2]" ∧ s.InGrammar := by
  have hrun : (Steps.exec sample (fun s call => s.PicksFinite call ∧ s.SomeAllowed call)
      ((new .jsonObject).withVocab arrayVocab) [pick 0, pick 1, pick 2, pick 3, pick 4]).map
        output = some "[1,2]" := by
    decide +kernel
  obtain ⟨s, hs, hout⟩ := Option.map_eq_some_iff.1 hrun
  have hr := Steps.reach_of_exec hs
  exact ⟨s, hr, hout, stays_in_grammar .jsonObject arrayVocab hr⟩

/-- With nothing allowed nothing is masked, and text that is no JSON gets out. -/
theorem garbage_unmasked : ¬ ∀ (constraint : Constraint) (vocab : List String)
    (s : ConstrainedSampler), Steps.Reach sample PicksFinite
      ((new constraint).withVocab vocab) s → s.InGrammar := by
  intro hall
  have hrun : (Steps.exec sample PicksFinite ((new .jsonObject).withVocab ["x"]) [⟨[0], 0⟩]).map
      (fun s => (default : JsonState).feedToken s.output) = some (default, false) := by
    decide +kernel
  obtain ⟨s, hs, hout⟩ := Option.map_eq_some_iff.1 hrun
  have hgrammar := hall .jsonObject ["x"] s (Steps.reach_of_exec hs)
  unfold InGrammar JsonState.Runs at hgrammar
  rw [JsonState.feedToken, hgrammar] at hout
  simp at hout

end ConstrainedSampler

end Grim.Constrain
