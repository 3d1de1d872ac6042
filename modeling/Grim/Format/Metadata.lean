import Grim.Format.Value

/-!
# The metadata of a file

A map from keys to values, as the list of its entries; a key that is set again loses its old value.
-/

namespace Grim.Format

open List

/-- A `HashMap` of keys and values, listed in some order. -/
abbrev Metadata := List (String × GgufValue)

namespace Metadata

variable (m : Metadata) (key : String)

def insert (v : GgufValue) : Metadata := m.filter (fun e => e.1 ≠ key) ++ [(key, v)]

def insertSome : Option GgufValue → Metadata
  | some v => m.insert key v
  | none => m

def get : Option GgufValue := (m.find? fun e => e.1 = key).map Prod.snd

def empty : Metadata := []

def insertAll (entries : List (String × GgufValue)) : Metadata :=
  entries.foldl (fun m e => m.insert e.1 e.2) m

variable {m key} {e : String × GgufValue} {v : GgufValue} {o : Option GgufValue}

theorem mem_insert : e ∈ m.insert key v ↔ (e ∈ m ∧ e.1 ≠ key) ∨ e = (key, v) := by
  simp [insert, mem_filter]

theorem mem_insert_self : (key, v) ∈ m.insert key v := mem_insert.2 (.inr rfl)

theorem mem_insertSome_of_ne {k : String} {w : GgufValue} (h : (k, w) ∈ m) (hne : k ≠ key) :
    (k, w) ∈ m.insertSome key o := by
  cases o with
  | none => exact h
  | some v => exact mem_insert.2 (.inl ⟨h, hne⟩)

variable {P : GgufValue → Prop}

def Nodup (m : Metadata) : Prop := (m.map Prod.fst).Nodup

theorem insert_of_notMem (h : key ∉ m.map Prod.fst) : m.insert key v = m ++ [(key, v)] := by
  rw [insert, filter_eq_self.2]
  intro e he
  have hne : e.1 ≠ key := fun heq => h (mem_map.2 ⟨e, he, heq⟩)
  simpa using hne

theorem Nodup.insert (h : m.Nodup) : (m.insert key v).Nodup := by
  rw [Nodup, Metadata.insert, map_append, nodup_append]
  refine ⟨List.Nodup.sublist (filter_sublist.map _) h, by simp, ?_⟩
  intro a ha b hb
  obtain ⟨e, he, rfl⟩ := mem_map.1 ha
  simp at hb
  subst hb
  simpa using (mem_filter.1 he).2

theorem Nodup.insertAll : ∀ (entries : List (String × GgufValue)) {m : Metadata}, m.Nodup →
    (m.insertAll entries).Nodup
  | [], _, h => h
  | _ :: entries, _, h => Nodup.insertAll entries h.insert

theorem mem_insertAll : ∀ (entries : List (String × GgufValue)) {m : Metadata},
    e ∈ m.insertAll entries → e ∈ m ∨ e ∈ entries
  | [], _, h => .inl h
  | d :: entries, m, h => by
    rcases mem_insertAll entries h with hm | hm
    · rcases mem_insert.1 hm with ⟨hold, _⟩ | rfl
      · exact .inl hold
      · exact .inr mem_cons_self
    · exact .inr (mem_cons_of_mem _ hm)

theorem insertAll_eq_append : ∀ (entries : List (String × GgufValue)) (m : Metadata),
    Nodup (m ++ entries) → m.insertAll entries = m ++ entries
  | [], m, _ => (append_nil m).symm
  | e :: entries, m, h => by
    have hnew : e.1 ∉ m.map Prod.fst := by
      intro hmem
      rw [Nodup, map_append, nodup_append] at h
      exact h.2.2 _ hmem _ (by simp) rfl
    have hstep : m.insertAll (e :: entries) = (m.insert e.1 e.2).insertAll entries := rfl
    rw [hstep, insert_of_notMem hnew, insertAll_eq_append entries _ (by simpa using h)]
    simp

theorem get_insert_of_ne {k : String} (hne : k ≠ key) : (m.insert key v).get k = m.get k := by
  rw [get, get, insert, find?_append, find?_filter]
  have hnone : List.find? (fun e => decide (e.1 = k)) [(key, v)] = none := by simp [hne.symm]
  rw [hnone, Option.or_none]
  congr 2
  funext e
  by_cases hk : e.1 = k <;> simp [hk, hne]

theorem get_insert_self : (m.insert key v).get key = some v := by
  rw [get, insert, find?_append, find?_eq_none.2, Option.none_or]
  · simp
  · intro e he
    simpa using (mem_filter.1 he).2

def ofFields (fields : List (String × Option GgufValue)) (m : Metadata := empty) : Metadata :=
  fields.foldl (fun m f => m.insertSome f.1 f.2) m

theorem get_insertSome_of_ne {k : String} (hne : k ≠ key) :
    (m.insertSome key o).get k = m.get k := by
  cases o with
  | none => rfl
  | some v => exact get_insert_of_ne hne

theorem get_insertSome_self (h : m.get key = none) : (m.insertSome key o).get key = o := by
  cases o with
  | none => exact h
  | some v => exact get_insert_self

theorem get_ofFields_of_notMem {k : String} : ∀ {fields : List (String × Option GgufValue)}
    {m : Metadata}, k ∉ fields.map Prod.fst → (ofFields fields m).get k = m.get k
  | [], _, _ => rfl
  | f :: fields, m, h => by
    rw [map_cons, mem_cons, not_or] at h
    have hstep : ofFields (f :: fields) m = ofFields fields (m.insertSome f.1 f.2) := rfl
    rw [hstep, get_ofFields_of_notMem h.2, get_insertSome_of_ne h.1]

theorem get_ofFields : ∀ {fields : List (String × Option GgufValue)} {m : Metadata},
    (fields.map Prod.fst).Nodup → (key, o) ∈ fields → m.get key = none →
    (ofFields fields m).get key = o
  | f :: fields, m, hn, h, hnew => by
    have hstep : ofFields (f :: fields) m = ofFields fields (m.insertSome f.1 f.2) := rfl
    obtain ⟨hfirst, hrest⟩ := nodup_cons.1 hn
    rw [hstep]
    rcases mem_cons.1 h with rfl | hmem
    · rw [get_ofFields_of_notMem hfirst, get_insertSome_self hnew]
    · have hne : key ≠ f.1 := fun heq => hfirst (heq ▸ mem_map_of_mem hmem)
      exact get_ofFields hrest hmem (by rw [get_insertSome_of_ne hne, hnew])

theorem get_insertAll_of_notMem {k : String} : ∀ {entries : List (String × GgufValue)}
    {m : Metadata}, (∀ e ∈ entries, k ≠ e.1) → (m.insertAll entries).get k = m.get k
  | [], _, _ => rfl
  | d :: entries, m, h => by
    have hstep : m.insertAll (d :: entries) = (m.insert d.1 d.2).insertAll entries := rfl
    rw [hstep, get_insertAll_of_notMem fun e he => h e (by simp [he]),
      get_insert_of_ne (h d (by simp))]

theorem get_eq_some (h : m.Nodup) : m.get key = some v ↔ (key, v) ∈ m := by
  rw [get, Option.map_eq_some_iff]
  constructor
  · rintro ⟨e, he, rfl⟩
    have hkey : e.1 = key := by simpa using find?_some he
    rw [← hkey]
    exact mem_of_find?_eq_some he
  · intro hmem
    rcases hf : m.find? fun e => decide (e.1 = key) with _ | e
    · have := find?_eq_none.1 hf _ hmem
      simp at this
    · refine ⟨e, hf, ?_⟩
      have hkey : e.1 = key := by simpa using find?_some hf
      have heq := inj_on_of_nodup_map h (mem_of_find?_eq_some hf) hmem hkey
      rw [heq]

theorem get_perm {m' : Metadata} (hp : m'.Perm m) (h : m.Nodup) (k : String) :
    m'.get k = m.get k := by
  have h' : m'.Nodup := (hp.map Prod.fst).nodup_iff.2 h
  refine Option.ext fun v => ?_
  rw [get_eq_some h', get_eq_some h, hp.mem_iff]

end Metadata

end Grim.Format
