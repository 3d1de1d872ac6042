import Grim.Tokenizer.Model
import Grim.Tokenizer.Cuts
import Grim.Lib.Folds

/-!
# Merges by score

A pass takes the first pair of the best score wherever it stands.  Over two lists in one, a pass is
one over the first, over the second, or over both, where no pair across the two merges and a pair of
the first does not come before another of its score in the second; so the two are then merged part
by part.
-/

namespace Grim.Tokenizer

open Chop Folds List

namespace GgufTokenizer

variable {F : Type} {prims : Prims F} {tk : GgufTokenizer F}

/-- The adjacent pairs that can be merged, and what they merge to. -/
def mergeable (tk : GgufTokenizer F) : List UInt32 → List (UInt32 × UInt32 × UInt32)
  | a :: b :: ids => (tk.mergedId a b).toList.map (a, b, ·) ++ mergeable tk (b :: ids)
  | _ => []

theorem bestMerge_eq (prims : Prims F) (tk : GgufTokenizer F) : ∀ (ids : List UInt32) (top : F)
    (best : Option (UInt32 × UInt32 × UInt32)), tk.bestMerge prims top best ids =
      ((tk.mergeable ids).foldl (pick prims.gt fun c => tk.score prims c.2.2) (top, best)).2
  | [], _, _ => rfl
  | [_], _, _ => rfl
  | a :: b :: ids, top, best => by
    rw [bestMerge, mergeable, foldl_append]
    rcases tk.mergedId a b with _ | merged
    · exact bestMerge_eq prims tk (b :: ids) top best
    · rw [Option.toList_some, map_singleton, foldl_cons, foldl_nil, pick]
      dsimp only
      split_ifs
      · exact bestMerge_eq prims tk (b :: ids) _ _
      · exact bestMerge_eq prims tk (b :: ids) top best

theorem of_mem_mergeable {c : UInt32 × UInt32 × UInt32} : ∀ {ids : List UInt32},
    c ∈ tk.mergeable ids → [c.1, c.2.1] <:+: ids ∧ tk.mergedId c.1 c.2.1 = some c.2.2
  | [], h => by simp [mergeable] at h
  | [_], h => by simp [mergeable] at h
  | a :: b :: ids, h => by
    rw [mergeable] at h
    rcases mem_append.1 h with h | h
    · obtain ⟨merged, hmerged, rfl⟩ := mem_map.1 h
      exact ⟨⟨[], ids, rfl⟩, Option.mem_toList.1 hmerged⟩
    · obtain ⟨hin, hmerged⟩ := of_mem_mergeable h
      exact ⟨hin.trans (suffix_cons a (b :: ids)).isInfix, hmerged⟩

theorem mem_mergeable {a b merged : UInt32} (hmerged : tk.mergedId a b = some merged) :
    ∀ {ids : List UInt32}, [a, b] <:+: ids → (a, b, merged) ∈ tk.mergeable ids
  | [], h => by simp at h
  | [_], h => by
    have := h.length_le
    simp at this
  | x :: y :: ids, h => by
    rw [mergeable]
    rcases infix_cons_iff.1 h with hpre | hin
    · obtain ⟨rfl, hrest⟩ := cons_prefix_cons.1 hpre
      obtain ⟨rfl, _⟩ := cons_prefix_cons.1 hrest
      exact mem_append_left _ (mem_map.2 ⟨merged, Option.mem_toList.2 hmerged, rfl⟩)
    · exact mem_append_right _ (mem_mergeable hmerged hin)

def NoneAcross (tk : GgufTokenizer F) (l r : List UInt32) : Prop :=
  ∀ a ∈ l.getLast?, ∀ b ∈ r.head?, tk.mergedId a b = none

theorem mergeable_append {r : List UInt32} : ∀ {l : List UInt32}, tk.NoneAcross l r →
    tk.mergeable (l ++ r) = tk.mergeable l ++ tk.mergeable r
  | [], _ => rfl
  | [a], h => by
    rcases r with _ | ⟨b, r⟩
    · rfl
    · rw [singleton_append, mergeable, h a rfl b rfl]
      rfl
  | a :: b :: l, h => by
    have hrest : tk.NoneAcross (b :: l) r := fun x hx y hy =>
      h x (by rwa [getLast?_cons_cons]) y hy
    rw [cons_append, cons_append, mergeable, mergeable, ← cons_append,
      mergeable_append hrest, append_assoc]

theorem replacePairs_append {a b merged : UInt32} {r : List UInt32} : ∀ {l : List UInt32},
    (∀ x ∈ l.getLast?, ∀ y ∈ r.head?, ¬(x = a ∧ y = b)) →
      replacePairs a b merged (l ++ r) = replacePairs a b merged l ++ replacePairs a b merged r
  | [], _ => rfl
  | [x], h => by
    rcases r with _ | ⟨y, r⟩
    · rfl
    · rw [singleton_append, replacePairs, if_neg (h x rfl y rfl)]
      rfl
  | x :: y :: l, h => by
    rw [cons_append, cons_append, replacePairs, replacePairs]
    split_ifs
    · rcases l with _ | ⟨z, l⟩
      · rfl
      · rw [replacePairs_append fun u hu v hv =>
          h u (by rwa [getLast?_cons_cons, getLast?_cons_cons]) v hv, cons_append]
    · rw [← cons_append, replacePairs_append fun u hu v hv =>
        h u (by rwa [getLast?_cons_cons]) v hv, cons_append]

theorem replacePairs_eq_self {a b merged : UInt32} : ∀ {ids : List UInt32}, ¬[a, b] <:+: ids →
    replacePairs a b merged ids = ids
  | [], _ => rfl
  | [_], _ => rfl
  | x :: y :: ids, h => by
    have hhere : ¬(x = a ∧ y = b) := by
      rintro ⟨rfl, rfl⟩
      exact h ⟨[], ids, rfl⟩
    rw [replacePairs, if_neg hhere, replacePairs_eq_self fun hin =>
      h (hin.trans (suffix_cons x (y :: ids)).isInfix)]

theorem bestMerge_append (hord : Ordered prims.gt prims.f32Min) {l r : List UInt32}
    (h : tk.NoneAcross l r) : tk.bestMerge prims prims.f32Min none (l ++ r) =
      higher prims.gt (fun c => tk.score prims c.2.2) (tk.bestMerge prims prims.f32Min none l)
        (tk.bestMerge prims prims.f32Min none r) := by
  have hscan : ∀ ids, tk.bestMerge prims prims.f32Min none ids =
      highest prims.gt (fun c : UInt32 × UInt32 × UInt32 => tk.score prims c.2.2) prims.f32Min
        (tk.mergeable ids) := fun ids => bestMerge_eq prims tk ids _ _
  rw [hscan, hscan, hscan, mergeable_append h, highest_append hord]

theorem bestMerge_mem (hord : Ordered prims.gt prims.f32Min) {ids : List UInt32}
    {p : UInt32 × UInt32 × UInt32} (h : tk.bestMerge prims prims.f32Min none ids = some p) :
    p ∈ tk.mergeable ids ∧ prims.gt (tk.score prims p.2.2) prims.f32Min := by
  rw [bestMerge_eq] at h
  obtain ⟨hmem, hgt, _⟩ := highest_eq_some hord h
  exact ⟨hmem, hgt⟩

theorem bestMerge_max (hord : Ordered prims.gt prims.f32Min) {ids : List UInt32}
    {p : UInt32 × UInt32 × UInt32} (hp : p ∈ tk.mergeable ids) :
    match tk.bestMerge prims prims.f32Min none ids with
    | some q => ¬prims.gt (tk.score prims p.2.2) (tk.score prims q.2.2)
    | none => ¬prims.gt (tk.score prims p.2.2) prims.f32Min := by
  have hmax := @foldl_pick_max _ _ _ (fun c : UInt32 × UInt32 × UInt32 => tk.score prims c.2.2) _
    hord _ _ (prims.f32Min, none) hp
  rw [bestMerge_eq]
  rcases hq : highest prims.gt (fun c : UInt32 × UInt32 × UInt32 => tk.score prims c.2.2)
    prims.f32Min (tk.mergeable ids) with _ | q
  · rw [highest_eq_none hord hq] at hmax ⊢
    exact hmax
  · rw [(highest_eq_some hord hq).2.2] at hmax ⊢
    exact hmax

/-- The merges of the one part and of the other, each by itself, do not meet: whatever they have
come to, no pair across the two merges, and where the best pair of the first is one of the second,
it is not before another of its score. -/
structure MergesApart (prims : Prims F) (tk : GgufTokenizer F) (l r : List UInt32) : Prop where
  across : ∀ i j, tk.NoneAcross (tk.mergeIds prims i l) (tk.mergeIds prims j r)
  order : ∀ i j p q, tk.bestMerge prims prims.f32Min none (tk.mergeIds prims i l) = some p →
    tk.bestMerge prims prims.f32Min none (tk.mergeIds prims j r) = some q →
      p ∈ tk.mergeable (tk.mergeIds prims j r) →
        p = q ∨ prims.gt (tk.score prims q.2.2) (tk.score prims p.2.2)

def Passes (prims : Prims F) (tk : GgufTokenizer F) (ids ids' : List UInt32) : Prop :=
  ids' = ids ∨ ∃ p, tk.bestMerge prims prims.f32Min none ids = some p ∧
    ids' = replacePairs p.1 p.2.1 p.2.2 ids

theorem length_replacePairs_le (a b merged : UInt32) : ∀ ids : List UInt32,
    (replacePairs a b merged ids).length ≤ ids.length
  | [] => le_rfl
  | [_] => le_rfl
  | x :: y :: ids => by
    rw [replacePairs]
    split_ifs
    · have := length_replacePairs_le a b merged ids
      simp only [length_cons]
      omega
    · have := length_replacePairs_le a b merged (y :: ids)
      simp only [length_cons] at this ⊢
      omega

theorem length_replacePairs_lt {a b : UInt32} (merged : UInt32) :
    ∀ {ids : List UInt32}, [a, b] <:+: ids →
    (replacePairs a b merged ids).length < ids.length
  | [], h => by simp at h
  | [_], h => by
    have := h.length_le
    simp at this
  | x :: y :: ids, h => by
    rw [replacePairs]
    split_ifs with hpair
    · have := length_replacePairs_le a b merged ids
      simp only [length_cons]
      omega
    · have hin : [a, b] <:+: y :: ids := by
        rcases infix_cons_iff.1 h with hpre | hin
        · obtain ⟨hx, hrest⟩ := cons_prefix_cons.1 hpre
          obtain ⟨hy, _⟩ := cons_prefix_cons.1 hrest
          exact absurd ⟨hx.symm, hy.symm⟩ hpair
        · exact hin
      have := length_replacePairs_lt merged hin
      simp only [length_cons] at this ⊢
      omega

theorem bestMerge_adjacent {ids : List UInt32} {p : UInt32 × UInt32 × UInt32}
    (h : tk.bestMerge prims prims.f32Min none ids = some p) : [p.1, p.2.1] <:+: ids := by
  rw [bestMerge_eq] at h
  rcases foldl_pick_mem (tk.mergeable ids) h with hnone | hmem
  · cases hnone
  · exact (of_mem_mergeable hmem).1

theorem mergeIds_of_none {ids : List UInt32}
    (h : tk.bestMerge prims prims.f32Min none ids = none) (n : ℕ) :
    tk.mergeIds prims n ids = ids := by
  rcases n with _ | n
  · rfl
  · rw [mergeIds, h]

theorem mergeIds_of_le : ∀ (n m : ℕ) {ids : List UInt32}, ids.length ≤ n → ids.length ≤ m →
    tk.mergeIds prims n ids = tk.mergeIds prims m ids
  | 0, m, ids, hn, _ => by
    obtain rfl : ids = [] := length_eq_zero_iff.1 (Nat.le_zero.1 hn)
    exact (mergeIds_of_none rfl m).symm
  | n + 1, m, ids, hn, hm => by
    rcases hbest : tk.bestMerge prims prims.f32Min none ids with _ | ⟨a, b, merged⟩
    · rw [mergeIds_of_none hbest, mergeIds_of_none hbest]
    · have hlt := length_replacePairs_lt merged (bestMerge_adjacent hbest)
      dsimp only at hlt
      rcases m with _ | m
      · omega
      · rw [mergeIds, mergeIds, hbest]
        exact mergeIds_of_le n m (by omega) (by omega)

def merged (prims : Prims F) (tk : GgufTokenizer F) (ids : List UInt32) : List UInt32 :=
  tk.mergeIds prims ids.length ids

theorem Passes.later {ids ids' : List UInt32} (h : tk.Passes prims ids ids') :
    ids'.length ≤ ids.length ∧ tk.merged prims ids' = tk.merged prims ids ∧
      ∀ i, ∃ i', tk.mergeIds prims i ids' = tk.mergeIds prims i' ids := by
  rcases h with rfl | ⟨p, hp, rfl⟩
  · exact ⟨le_rfl, rfl, fun i => ⟨i, rfl⟩⟩
  · have hlt := length_replacePairs_lt p.2.2 (bestMerge_adjacent hp)
    have hstep : ∀ i, tk.mergeIds prims i (replacePairs p.1 p.2.1 p.2.2 ids) =
        tk.mergeIds prims (i + 1) ids := fun i => by
      rw [mergeIds, hp]
    refine ⟨hlt.le, ?_, fun i => ⟨i + 1, hstep i⟩⟩
    have hlast : tk.mergeIds prims ids.length ids =
        tk.mergeIds prims (ids.length - 1) (replacePairs p.1 p.2.1 p.2.2 ids) := by
      rw [hstep, Nat.sub_add_cancel (by omega)]
    rw [merged, merged, hlast]
    exact mergeIds_of_le _ _ le_rfl (by omega)

theorem MergesApart.passes {l r l' r' : List UInt32} (h : tk.MergesApart prims l r)
    (hl : tk.Passes prims l l') (hr : tk.Passes prims r r') : tk.MergesApart prims l' r' := by
  constructor
  · intro i j
    obtain ⟨i', hi⟩ := hl.later.2.2 i
    obtain ⟨j', hj⟩ := hr.later.2.2 j
    rw [hi, hj]
    exact h.across i' j'
  · intro i j
    obtain ⟨i', hi⟩ := hl.later.2.2 i
    obtain ⟨j', hj⟩ := hr.later.2.2 j
    rw [hi, hj]
    exact h.order i' j'

/-- A pass over the two is one over the first, over the second, or over both. -/
theorem MergesApart.pass (hord : Ordered prims.gt prims.f32Min) {l r : List UInt32}
    (h : tk.MergesApart prims l r) :
    match tk.bestMerge prims prims.f32Min none (l ++ r) with
    | some p => ∃ l' r', replacePairs p.1 p.2.1 p.2.2 (l ++ r) = l' ++ r' ∧
        tk.Passes prims l l' ∧ tk.Passes prims r r'
    | none => tk.bestMerge prims prims.f32Min none l = none ∧
        tk.bestMerge prims prims.f32Min none r = none := by
  have hacross : tk.NoneAcross l r := h.across 0 0
  have hreplace : ∀ {p : UInt32 × UInt32 × UInt32}, tk.mergedId p.1 p.2.1 = some p.2.2 →
      replacePairs p.1 p.2.1 p.2.2 (l ++ r) =
        replacePairs p.1 p.2.1 p.2.2 l ++ replacePairs p.1 p.2.1 p.2.2 r := fun {p} hp => by
    refine replacePairs_append fun x hx y hy => ?_
    rintro ⟨rfl, rfl⟩
    rw [hacross _ hx _ hy] at hp
    cases hp
  -- a list without the pair is left as it is
  have hout : ∀ {p : UInt32 × UInt32 × UInt32} {ids : List UInt32},
      tk.mergedId p.1 p.2.1 = some p.2.2 → p ∉ tk.mergeable ids →
        tk.Passes prims ids (replacePairs p.1 p.2.1 p.2.2 ids) := fun {p ids} hp hnot =>
    .inl (replacePairs_eq_self fun hin => hnot (mem_mergeable hp hin))
  rw [bestMerge_append hord hacross]
  rcases hl : tk.bestMerge prims prims.f32Min none l with _ | p
  · rcases hr : tk.bestMerge prims prims.f32Min none r with _ | q
    · exact ⟨rfl, rfl⟩
    · obtain ⟨hmem, hgt⟩ := bestMerge_mem hord hr
      have hq := (of_mem_mergeable hmem).2
      refine ⟨_, _, hreplace hq, hout hq fun hin => ?_, .inr ⟨q, hr, rfl⟩⟩
      have hmax := bestMerge_max hord hin
      rw [hl] at hmax
      exact hmax hgt
  · obtain ⟨hmem, hgt⟩ := bestMerge_mem hord hl
    have hp := (of_mem_mergeable hmem).2
    rcases hr : tk.bestMerge prims prims.f32Min none r with _ | q
    · refine ⟨_, _, hreplace hp, .inr ⟨p, hl, rfl⟩, hout hp fun hin => ?_⟩
      have hmax := bestMerge_max hord hin
      rw [hr] at hmax
      exact hmax hgt
    · rw [higher]
      by_cases hbetter : prims.gt (tk.score prims q.2.2) (tk.score prims p.2.2)
      · have hq := (of_mem_mergeable (bestMerge_mem hord hr).1).2
        rw [if_pos hbetter]
        refine ⟨_, _, hreplace hq, hout hq fun hin => ?_, .inr ⟨q, hr, rfl⟩⟩
        have hmax := bestMerge_max hord hin
        rw [hl] at hmax
        exact hmax hbetter
      · rw [if_neg hbetter]
        refine ⟨_, _, hreplace hp, .inr ⟨p, hl, rfl⟩, ?_⟩
        by_cases hin : p ∈ tk.mergeable r
        · obtain rfl := (h.order 0 0 p q hl hr hin).resolve_right hbetter
          exact .inr ⟨p, hr, rfl⟩
        · exact hout hp hin

theorem MergesApart.merged_append (hord : Ordered prims.gt prims.f32Min) : ∀ (n : ℕ)
    {l r : List UInt32}, (l ++ r).length ≤ n → tk.MergesApart prims l r →
      tk.mergeIds prims n (l ++ r) = tk.merged prims l ++ tk.merged prims r
  | 0, l, r, hlen, _ => by
    have hnil : l = [] ∧ r = [] := by simpa using hlen
    obtain ⟨rfl, rfl⟩ := hnil
    rfl
  | n + 1, l, r, hlen, h => by
    have hpass := h.pass hord
    rw [mergeIds]
    rcases hbest : tk.bestMerge prims prims.f32Min none (l ++ r) with _ | ⟨a, b, m⟩
    · rw [hbest] at hpass
      rw [merged, mergeIds_of_none hpass.1, merged, mergeIds_of_none hpass.2]
    · rw [hbest] at hpass
      obtain ⟨l', r', heq, hl, hr⟩ := hpass
      have hlt := length_replacePairs_lt m (bestMerge_adjacent hbest)
      dsimp only at heq ⊢
      rw [heq] at hlt ⊢
      rw [merged_append hord n (by omega) (h.passes hl hr), hl.later.2.1, hr.later.2.1]

def chunkIds (tk : GgufTokenizer F) (text : List Char) : List UInt32 :=
  tk.charIds (tk.processed text).length (tk.processed text)

/-- None of the special tokens that the older path looks for in a chunk is in the text. -/
def Free (text : List Char) : Prop := ∀ st ∈ legacySpecials, ∀ pos, ¬Occurs st pos text

theorem charIds_of_free {cs : List Char} : ∀ {n : ℕ}, cs.length ≤ n → Free cs →
    tk.charIds n cs = cs.map tk.charId := by
  induction cs with
  | nil => intro n _ _; cases n <;> rfl
  | cons c cs ih =>
    intro n hn hfree
    rcases n with _ | n
    · simp at hn
    · have hnone : (if c = '<' then legacySpecials.find? fun st =>
          st.isPrefixOf (c :: cs) && (tk.idOf st).isSome else none) = none := by
        split_ifs
        · refine find?_eq_none.2 fun st hst hpre => ?_
          have hpre := isPrefixOf_iff_prefix.1 (Bool.and_elim_left hpre)
          exact hfree st hst 0 (occurs_zero.2 hpre)
        · rfl
      simp only [charIds, hnone, map_cons]
      rw [ih (Nat.le_of_succ_le_succ hn) fun st hst pos hocc =>
        hfree st hst (pos + 1) (occurs_succ.2 hocc)]

theorem occurs_of_map {g : Char → Char} {st : List Char} (hg : ∀ c, g c ∈ st → g c = c)
    {text : List Char} {pos : ℕ} (h : Occurs st pos (text.map g)) : Occurs st pos text := by
  obtain ⟨before, after, htext, rfl⟩ := h
  obtain ⟨u, v, rfl, rfl, hv⟩ := map_eq_append_iff.1 htext
  obtain ⟨w, x, rfl, hw, rfl⟩ := map_eq_append_iff.1 hv
  have hsame : w.map g = w := by
    refine (map_congr_left fun c hc => ?_).trans (map_id w)
    exact hg c (hw ▸ mem_map_of_mem hc)
  rw [← hw, hsame, length_map]
  exact ⟨u, x, rfl, rfl⟩

theorem Free.map {g : Char → Char} {text : List Char} (h : Free text)
    (hg : ∀ c, g c = c ∨ ∀ st ∈ legacySpecials, g c ∉ st) : Free (text.map g) :=
  fun st hst pos hocc => h st hst pos <| occurs_of_map (fun c hc =>
    (hg c).resolve_right fun hnot => hnot st hst hc) hocc

theorem Free.cons {c : Char} {text : List Char} (h : Free text)
    (hc : ∀ st ∈ legacySpecials, c ∉ st) : Free (c :: text) := by
  intro st hst pos hocc
  rcases pos with _ | pos
  · have hne : st ≠ [] := by
      rintro rfl
      exact absurd hst (by decide)
    obtain ⟨d, st', rfl⟩ := exists_cons_of_ne_nil hne
    obtain ⟨rfl, -⟩ := cons_prefix_cons.1 (occurs_zero.1 hocc)
    exact hc _ hst mem_cons_self
  · exact h st hst pos (occurs_succ.1 hocc)

theorem Free.processed (tk : GgufTokenizer F) {text : List Char} (h : Free text) :
    Free (tk.processed text) := by
  have hmarks : ∀ c ∈ ['\u0120', '\u010A', '\u2581'], ∀ st ∈ legacySpecials, c ∉ st := by
    simp [legacySpecials]
  have hspace := h.map
    (g := fun c => if c = ' ' then '\u0120' else if c = '\n' then '\u010A' else c) fun c => by
      split_ifs
      · exact .inr (hmarks _ (by decide))
      · exact .inr (hmarks _ (by decide))
      · exact .inl rfl
  have hescape := h.map (g := escapeSpace) fun c => by
    rw [escapeSpace]
    split_ifs
    · exact .inr (hmarks _ (by decide))
    · exact .inl rfl
  unfold GgufTokenizer.processed
  dsimp only
  split_ifs
  · exact hspace.cons (hmarks _ (by decide))
  · exact hspace
  · exact hescape.cons (hmarks _ (by decide))
  · exact hescape
  · exact h

/-- The second part gets no mark of its own, and the merges of the two do not meet. -/
structure Apart (prims : Prims F) (tk : GgufTokenizer F) (s t : List Char) : Prop where
  unmarked : tk.processed (s ++ t) = tk.processed s ++ tk.processed t
  merges : tk.MergesApart prims (tk.chunkIds s) (tk.chunkIds t)

theorem encodeLegacyChunk_append (hord : Ordered prims.gt prims.f32Min) {s t : List Char}
    (hfree : Free (s ++ t)) (h : tk.Apart prims s t) : tk.encodeLegacyChunk prims (s ++ t) =
      tk.encodeLegacyChunk prims s ++ tk.encodeLegacyChunk prims t := by
  have hs : Free s := fun st hst pos hocc => hfree st hst pos (hocc.append t)
  have ht : Free t := fun st hst pos hocc => hfree st hst _ (hocc.append_left s)
  have hids : ∀ {u}, Free u → tk.chunkIds u = (tk.processed u).map tk.charId := fun hu =>
    charIds_of_free le_rfl (hu.processed tk)
  have hsplit : tk.chunkIds (s ++ t) = tk.chunkIds s ++ tk.chunkIds t := by
    rw [hids hfree, hids hs, hids ht, h.unmarked, map_append]
  show tk.merged prims (tk.chunkIds (s ++ t)) =
    tk.merged prims (tk.chunkIds s) ++ tk.merged prims (tk.chunkIds t)
  rw [merged, hsplit, h.merges.merged_append hord _ le_rfl]

end GgufTokenizer

end Grim.Tokenizer
