import Mathlib.Data.List.GetD
import Grim.Lib.Extents
import Grim.Lib.Slice

/-!
# Writing into a file

A file is its bytes; a write behind the end puts zeros in between.  What is written is read back as
long as every later write starts behind it, whether each write seeks to its place (`overwrite`) or a
stream fills up to it with zeros (`Stream.put`).
-/

namespace Patch

open Slice List

def zeros (n : ℕ) : List UInt8 := List.replicate n 0

@[simp] theorem length_zeros (n : ℕ) : (zeros n).length = n := length_replicate

def overwrite (file : List UInt8) (off : ℕ) (bs : List UInt8) : List UInt8 :=
  if bs = [] then file
  else file.take off ++ zeros (off - file.length) ++ bs ++ file.drop (off + bs.length)

def Holds (file : List UInt8) (off : ℕ) (bs : List UInt8) : Prop :=
  bs ≠ [] → slice file off bs.length = bs

variable {file bs bs' : List UInt8} {off off' n : ℕ}

theorem holds_nil (file : List UInt8) (off : ℕ) : Holds file off [] := fun h => absurd rfl h

theorem Holds.le (h : Holds file off bs) (hne : bs ≠ []) : off + bs.length ≤ file.length := by
  have hlen := congrArg List.length (h hne)
  have hpos := length_pos_of_ne_nil hne
  rw [length_slice] at hlen
  omega

theorem take_overwrite (bs : List UInt8) (hoff : n ≤ off) (hfile : n ≤ file.length) :
    (overwrite file off bs).take n = file.take n := by
  rw [overwrite]
  split_ifs with hnil
  · rfl
  · rw [append_assoc, append_assoc, take_append_of_le_length, take_take,
      min_eq_left hoff]
    rw [length_take]
    omega

theorem slice_of_take {file' : List UInt8} (h : file'.take (off + n) = file.take (off + n)) :
    slice file' off n = slice file off n := by
  have hslice : ∀ xs : List UInt8, slice xs off n = (xs.take (off + n)).drop off := fun xs => by
    rw [slice, drop_take, Nat.add_sub_cancel_left]
  rw [hslice, hslice, h]

theorem holds_overwrite (file : List UInt8) (off : ℕ) (bs : List UInt8) :
    Holds (overwrite file off bs) off bs := fun hne => by
  have hlen : (file.take off ++ zeros (off - file.length)).length = off := by
    rw [length_append, length_take, length_zeros]
    omega
  rw [overwrite, if_neg hne]
  exact slice_append hlen rfl

theorem Holds.overwrite (h : Holds file off bs) (hle : off + bs.length ≤ off') :
    Holds (overwrite file off' bs') off bs := fun hne => by
  rw [slice_of_take (take_overwrite bs' hle (h.le hne))]
  exact h hne

structure Write where
  start : ℕ
  bytes : List UInt8
  kept : Bool

def Write.stop (w : Write) : ℕ := w.start + w.bytes.length

/-- Every write starts behind what is to be read back of the writes before it. -/
def InOrder (ws : List Write) : Prop := ws.Pairwise fun v w => v.kept = true → v.stop ≤ w.start

def patch (file : List UInt8) (ws : List Write) : List UInt8 :=
  ws.foldl (fun file w => overwrite file w.start w.bytes) file

theorem Holds.patch : ∀ (ws : List Write) {file : List UInt8}, Holds file off bs →
    (∀ w ∈ ws, off + bs.length ≤ w.start) → Holds (patch file ws) off bs
  | [], _, h, _ => h
  | w :: ws, _, h, hle => (h.overwrite (hle w mem_cons_self)).patch ws fun v hv =>
      hle v (mem_cons_of_mem w hv)

theorem holds_patch : ∀ (ws : List Write) (file : List UInt8), InOrder ws →
    ∀ w ∈ ws, w.kept = true → Holds (patch file ws) w.start w.bytes
  | [], _, _, w, hw, _ => by simp at hw
  | v :: ws, file, h, w, hw, hkept => by
    obtain ⟨hfirst, hrest⟩ := pairwise_cons.1 h
    rcases mem_cons.1 hw with rfl | hw
    · exact (holds_overwrite file w.start w.bytes).patch ws fun u hu => hfirst u hu hkept
    · exact holds_patch ws _ hrest w hw hkept

theorem take_patch : ∀ (ws : List Write) {file : List UInt8}, n ≤ file.length →
    (∀ w ∈ ws, n ≤ w.start) → (patch file ws).take n = file.take n
  | [], _, _, _ => rfl
  | w :: ws, file, hfile, hle => by
    have hw := take_overwrite w.bytes (hle w mem_cons_self) hfile
    have hlen : n ≤ (overwrite file w.start w.bytes).length := by
      have := congrArg List.length hw
      simp only [length_take] at this
      omega
    exact (take_patch ws hlen fun v hv => hle v (mem_cons_of_mem w hv)).trans hw

/-- A write reaches its bytes, and where it starts behind the end, the bytes in between. -/
def Write.Reaches (file : List UInt8) (w : Write) (k : ℕ) : Prop :=
  w.bytes ≠ [] ∧ min file.length w.start ≤ k ∧ k < w.stop

def Touches : List UInt8 → List Write → ℕ → Prop
  | _, [], _ => False
  | file, w :: ws, k => w.Reaches file k ∨ Touches (overwrite file w.start w.bytes) ws k

theorem length_overwrite (file : List UInt8) (off : ℕ) (hne : bs ≠ []) :
    (overwrite file off bs).length = max file.length (off + bs.length) := by
  rw [overwrite, if_neg hne]
  simp only [length_append, length_take, length_zeros, length_drop]
  omega

theorem getElem?_overwrite {w : Write} {k : ℕ} (h : ¬ w.Reaches file k) :
    (overwrite file w.start w.bytes)[k]? = file[k]? := by
  rcases eq_or_ne w.bytes [] with hnil | hne
  · rw [overwrite, if_pos hnil]
  · have hout : k < min file.length w.start ∨ w.stop ≤ k := by
      by_contra! hin
      exact h ⟨hne, hin⟩
    rw [Write.stop] at hout
    rcases hout with hfront | hbehind
    · have htake : (overwrite file w.start w.bytes).take (k + 1) = file.take (k + 1) :=
        take_overwrite w.bytes (by omega) (by omega)
      have hget := congrArg (·[k]?) htake
      simpa using hget
    · have hlen : (file.take w.start ++ zeros (w.start - file.length) ++ w.bytes).length =
          w.start + w.bytes.length := by
        simp only [length_append, length_take, length_zeros]
        omega
      rw [overwrite, if_neg hne, getElem?_append_right (hlen ▸ hbehind), hlen,
        getElem?_drop, Nat.add_sub_cancel' hbehind]

theorem getElem?_patch : ∀ (ws : List Write) {file : List UInt8} {k : ℕ}, ¬ Touches file ws k →
    (patch file ws)[k]? = file[k]?
  | [], _, _, _ => rfl
  | w :: ws, file, k, h => by
    rw [Touches, not_or] at h
    exact (getElem?_patch ws h.2).trans (getElem?_overwrite h.1)

/-- The byte at a place behind the writes: that of the last write there or else the file's, and zero
where there is neither. -/
def byteAt (file : List UInt8) (ws : List Write) (k : ℕ) : UInt8 :=
  match ws.reverse.find? fun w => w.start ≤ k ∧ k < w.stop with
  | some w => w.bytes.getD (k - w.start) 0
  | none => file.getD k 0

/-- Where a file of `n` bytes ends behind the writes. -/
def stopOf (n : ℕ) (ws : List Write) : ℕ :=
  ws.foldl (fun n w => if w.bytes = [] then n else max n w.stop) n

theorem getD_overwrite (file : List UInt8) (w : Write) (k : ℕ) :
    (overwrite file w.start w.bytes).getD k 0 =
      if w.start ≤ k ∧ k < w.stop then w.bytes.getD (k - w.start) 0 else file.getD k 0 := by
  have hstop : w.stop = w.start + w.bytes.length := rfl
  by_cases hin : w.start ≤ k ∧ k < w.stop
  · have hne : w.bytes ≠ [] := fun hnil => by
      rw [hnil, length_nil] at hstop
      omega
    have hheld := congrArg (·[k - w.start]?) (holds_overwrite file w.start w.bytes hne)
    dsimp only [slice] at hheld
    rw [getElem?_take_of_lt (by omega), getElem?_drop, Nat.add_sub_cancel' hin.1] at hheld
    rw [if_pos hin, getD_eq_getElem?_getD, getD_eq_getElem?_getD, hheld]
  · rw [if_neg hin]
    by_cases hreach : w.Reaches file k
    · -- the zeros between the file and the write
      obtain ⟨hne, hfront, hbehind⟩ := hreach
      have hpad : file.length ≤ k ∧ k < w.start := by omega
      rw [overwrite, if_neg hne, append_assoc, append_assoc,
        getD_append_right _ _ _ _ (by rw [length_take]; omega), getD_append _ _ _ _
          (by rw [length_take, length_zeros]; omega), getD_eq_default _ _ hpad.1, zeros]
      simp only [getD_eq_getElem?_getD, getElem?_replicate]
      split_ifs <;> rfl
    · rw [getD_eq_getElem?_getD, getD_eq_getElem?_getD, getElem?_overwrite hreach]

theorem getD_patch (file : List UInt8) (ws : List Write) (k : ℕ) :
    (patch file ws).getD k 0 = byteAt file ws k := by
  induction ws using List.reverseRecOn with
  | nil => rfl
  | append_singleton ws w ih =>
    rw [patch, foldl_append, foldl_cons, foldl_nil, getD_overwrite]
    rw [byteAt, reverse_append, reverse_singleton, singleton_append, find?_cons]
    by_cases hin : w.start ≤ k ∧ k < w.stop
    · rw [if_pos hin, decide_eq_true hin]
    · rw [if_neg hin, decide_eq_false hin]
      exact ih

theorem length_patch (file : List UInt8) : ∀ ws : List Write,
    (patch file ws).length = stopOf file.length ws := by
  intro ws
  induction ws generalizing file with
  | nil => rfl
  | cons w ws ih =>
    rw [patch, foldl_cons, stopOf, foldl_cons]
    refine (ih _).trans (congrArg (stopOf · ws) ?_)
    split_ifs with hnil
    · rw [overwrite, if_pos hnil]
    · exact length_overwrite file w.start hnil

theorem slice_patch (file : List UInt8) (ws : List Write) {off n : ℕ}
    (h : off + n ≤ stopOf file.length ws) :
    slice (patch file ws) off n = (List.range' off n).map (byteAt file ws) := by
  rw [← length_patch] at h
  refine ext_getElem (by rw [length_slice, length_map, length_range']; omega) ?_
  intro i hi _
  rw [length_slice] at hi
  have hlt : off + i < (patch file ws).length := by omega
  rw [getElem_map, getElem_range', one_mul, ← getD_patch, getD_eq_getElem _ _ hlt]
  simp [slice]

/-- Each write starts at the start of an extent of its own, in order; what is to be read back stays
within it. -/
inductive Covered : List Write → List Extent → Prop
  | nil : Covered [] []
  | skip {ws : List Write} {x : Extent} {xs : List Extent} (h : Covered ws xs) :
    Covered ws (x :: xs)
  | cons {w : Write} {ws : List Write} {x : Extent} {xs : List Extent} (hstart : w.start = x.start)
      (hstop : w.kept = true → w.stop ≤ x.stop) (h : Covered ws xs) : Covered (w :: ws) (x :: xs)

theorem Covered.append {vs ws : List Write} {xs ys : List Extent} (h : Covered vs xs)
    (h' : Covered ws ys) : Covered (vs ++ ws) (xs ++ ys) := by
  induction h with
  | nil => exact h'
  | skip _ ih => exact ih.skip
  | cons hstart hstop _ ih => exact ih.cons hstart hstop

theorem Covered.start {ws : List Write} {xs : List Extent} (h : Covered ws xs) :
    ∀ w ∈ ws, ∃ x ∈ xs, w.start = x.start := by
  induction h with
  | nil => simp
  | skip _ ih =>
    intro w hw
    obtain ⟨x, hx, hstart⟩ := ih w hw
    exact ⟨x, mem_cons_of_mem _ hx, hstart⟩
  | cons hstart _ _ ih =>
    intro w hw
    rcases mem_cons.1 hw with rfl | hw
    · exact ⟨_, mem_cons_self, hstart⟩
    · obtain ⟨x, hx, hstart⟩ := ih w hw
      exact ⟨x, mem_cons_of_mem _ hx, hstart⟩

theorem Covered.inOrder {ws : List Write} {xs : List Extent} (h : Covered ws xs)
    (hxs : xs.Pairwise fun a b => a.stop ≤ b.start) : InOrder ws := by
  induction h with
  | nil => exact List.Pairwise.nil
  | skip _ ih => exact ih (pairwise_cons.1 hxs).2
  | @cons w ws x xs hstart hstop hrest ih =>
    obtain ⟨hx, hxs⟩ := pairwise_cons.1 hxs
    refine pairwise_cons.2 ⟨fun v hv hkept => ?_, ih hxs⟩
    obtain ⟨y, hy, hvstart⟩ := hrest.start v hv
    rw [hvstart]
    exact (hstop hkept).trans (hx y hy)

structure Stream where
  out : List UInt8
  pos : ℕ

namespace Stream

def put (s : Stream) (target : ℕ) (bs : List UInt8) : Stream :=
  let padded := if s.pos < target then overwrite s.out s.pos (zeros (target - s.pos)) else s.out
  { out := overwrite padded target bs, pos := target + bs.length }

def puts (s : Stream) (ws : List Write) : Stream := ws.foldl (fun s w => s.put w.start w.bytes) s

def filled : ℕ → List Write → List Write
  | _, [] => []
  | pos, w :: ws =>
    (if pos < w.start then [⟨pos, zeros (w.start - pos), false⟩] else []) ++ w :: filled w.stop ws

theorem out_puts : ∀ (ws : List Write) (s : Stream),
    (s.puts ws).out = patch s.out (filled s.pos ws)
  | [], _ => rfl
  | w :: ws, s => by
    rw [puts, foldl_cons, filled]
    refine (out_puts ws (s.put w.start w.bytes)).trans ?_
    simp only [put, patch, Write.stop]
    split_ifs <;> rfl

theorem holds_put {s : Stream} {target : ℕ} (h : Holds s.out off bs)
    (hpos : off + bs.length ≤ s.pos)
    (hle : off + bs.length ≤ target) : Holds (s.put target bs').out off bs := by
  simp only [put]
  split_ifs
  · exact (h.overwrite hpos).overwrite hle
  · exact h.overwrite hle

theorem holds_puts : ∀ (ws : List Write) {s : Stream}, Holds s.out off bs →
    off + bs.length ≤ s.pos → (∀ w ∈ ws, off + bs.length ≤ w.start) → Holds (s.puts ws).out off bs
  | [], _, h, _, _ => h
  | w :: ws, s, h, hpos, hle => by
    have hw := hle w mem_cons_self
    exact holds_puts ws (holds_put h hpos hw) (le_trans hw (Nat.le_add_right _ _)) fun v hv =>
      hle v (mem_cons_of_mem w hv)

theorem holds_of_mem : ∀ (ws : List Write) (s : Stream), InOrder ws →
    ∀ w ∈ ws, w.kept = true → Holds (s.puts ws).out w.start w.bytes
  | [], _, _, w, hw, _ => by simp at hw
  | v :: ws, s, h, w, hw, hkept => by
    obtain ⟨hfirst, hrest⟩ := pairwise_cons.1 h
    rcases mem_cons.1 hw with rfl | hw
    · exact holds_puts ws (holds_overwrite _ w.start w.bytes) le_rfl fun u hu => hfirst u hu hkept
    · exact holds_of_mem ws _ hrest w hw hkept

theorem take_puts : ∀ (ws : List Write) {s : Stream}, n ≤ s.out.length → n ≤ s.pos →
    (∀ w ∈ ws, n ≤ w.start) → (s.puts ws).out.take n = s.out.take n
  | [], _, _, _, _ => rfl
  | w :: ws, s, hout, hpos, hle => by
    have hstart := hle w mem_cons_self
    have hput : (s.put w.start w.bytes).out.take n = s.out.take n := by
      simp only [put]
      split_ifs
      · have hpad := take_overwrite (zeros (w.start - s.pos)) hpos hout
        have hlen : n ≤ (overwrite s.out s.pos (zeros (w.start - s.pos))).length := by
          have := congrArg List.length hpad
          simp only [length_take] at this
          omega
        rw [take_overwrite w.bytes hstart hlen, hpad]
      · exact take_overwrite w.bytes hstart hout
    have hlen : n ≤ (s.put w.start w.bytes).out.length := by
      have := congrArg List.length hput
      simp only [length_take] at this
      omega
    have hpos' : n ≤ (s.put w.start w.bytes).pos := le_trans hstart (Nat.le_add_right _ _)
    exact (take_puts ws hlen hpos' fun v hv => hle v (mem_cons_of_mem w hv)).trans hput

end Stream

end Patch
