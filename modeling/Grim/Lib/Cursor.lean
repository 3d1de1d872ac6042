import Grim.Lib.Reader
import Grim.Lib.Slice

/-!
# Reading a buffer by position

A checked computation returns or errs, or it is `none`: a sum of two 64-bit words overflows, or a
slice is out of bounds.  A cursor is a checked computation with a position in the buffer.
`Follows buf c r`: from a position in the buffer the cursor does what the reader `r` does with the
bytes from there on, so it is never `none`.
-/

structure Buffer where
  bytes : List UInt8
  fits : bytes.length < 2 ^ 63

abbrev Checked (ε α : Type) := ExceptT ε Option α

abbrev Cursor (ε α : Type) := StateT ℕ (ExceptT ε Option) α

namespace Checked

open Slice

variable {ε α β : Type} {a b : ℕ} {buf : List UInt8}

def fault : Checked ε α := ExceptT.mk none

def add (a b : ℕ) : Checked ε ℕ := if a + b < 2 ^ 64 then pure (a + b) else fault

def mul (a b : ℕ) : Checked ε ℕ := if a * b < 2 ^ 64 then pure (a * b) else fault

/-- `buf[start..stop]` -/
def range (buf : List UInt8) (start stop : ℕ) : Checked ε (List UInt8) :=
  if start ≤ stop ∧ stop ≤ buf.length then pure (slice buf start (stop - start)) else fault

theorem add_eq (h : a + b < 2 ^ 64) : (add a b : Checked ε ℕ) = pure (a + b) := if_pos h

theorem add_fault (h : 2 ^ 64 ≤ a + b) : (add a b : Checked ε ℕ) = fault :=
  if_neg (Nat.not_lt.mpr h)

theorem mul_eq (h : a * b < 2 ^ 64) : (mul a b : Checked ε ℕ) = pure (a * b) := if_pos h

theorem mul_fault (h : 2 ^ 64 ≤ a * b) : (mul a b : Checked ε ℕ) = fault :=
  if_neg (Nat.not_lt.mpr h)

theorem range_eq (h : a ≤ b) (hb : b ≤ buf.length) :
    (range buf a b : Checked ε (List UInt8)) = pure (slice buf a (b - a)) := if_pos ⟨h, hb⟩

theorem range_drop (h : a ≤ buf.length) :
    (range buf a buf.length : Checked ε (List UInt8)) = pure (buf.drop a) := by
  rw [range_eq h le_rfl, slice, List.take_of_length_le]
  rw [List.length_drop]

theorem run_tryCatch (x : Checked ε α) (handle : ε → Checked ε α) :
    (tryCatch x handle).run = x.run.bind fun res =>
      match res with
      | .ok a => some (.ok a)
      | .error e => (handle e).run := rfl

theorem run_bind_ok {x : Checked ε α} {f : α → Checked ε β} {b : β} :
    (x >>= f).run = some (.ok b) ↔ ∃ a, x.run = some (.ok a) ∧ (f a).run = some (.ok b) := by
  constructor
  · intro h
    rw [ExceptT.run_bind] at h
    obtain ⟨res, hx, hrest⟩ := Option.bind_eq_some_iff.1 h
    rcases res with e | a
    · cases hrest
    · exact ⟨a, hx, hrest⟩
  · rintro ⟨a, hx, hf⟩
    rw [ExceptT.run_bind, hx]
    exact hf

theorem run_mapM_ok {g : α → Checked ε β} : ∀ {xs : List α} {ys : List β},
    (xs.mapM g).run = some (.ok ys) ↔
      List.Forall₂ (fun x y => (g x).run = some (.ok y)) xs ys
  | [], ys => by
    constructor
    · intro h
      obtain rfl : [] = ys := Except.ok.inj (Option.some.inj h)
      exact .nil
    · rintro ⟨⟩
      rfl
  | x :: xs, ys => by
    rw [List.mapM_cons, run_bind_ok]
    constructor
    · rintro ⟨y, hx, h⟩
      obtain ⟨ys', hxs, h⟩ := run_bind_ok.1 h
      obtain rfl : y :: ys' = ys := Except.ok.inj (Option.some.inj h)
      exact .cons hx (run_mapM_ok.1 hxs)
    · rintro (_ | ⟨hx, hxs⟩)
      exact ⟨_, hx, run_bind_ok.2 ⟨_, run_mapM_ok.2 hxs, rfl⟩⟩

def Safe (x : Checked ε α) : Prop := x.run ≠ none

theorem safe_of_run {x : Checked ε α} {res : Except ε α} (h : x.run = some res) : x.Safe := by
  rw [Safe, h]
  exact Option.some_ne_none _

theorem not_safe_fault : ¬ (fault : Checked ε α).Safe := fun h => h rfl

end Checked

namespace Cursor

open Checked Reader Slice

variable {ε α β : Type} {buf : List UInt8} {P : α → Prop}

def fail (e : ε) : Cursor ε α := fun _ => throw e

/-- Errs where fewer than `n` bytes are left. -/
def need (buf : List UInt8) (eof : ε) (n : ℕ) : Cursor ε Unit := fun pos => do
  let stop ← add pos n
  if buf.length < stop then throw eof else pure ((), pos)

/-- The next `n` bytes of the buffer. -/
def advance (buf : List UInt8) (n : ℕ) : Cursor ε (List UInt8) := fun pos => do
  let stop ← add pos n
  let part ← range buf pos stop
  pure (part, stop)

def times (c : Cursor ε α) : ℕ → Cursor ε (List α)
  | 0 => pure []
  | n + 1 => do
    let a ← c
    let as ← times c n
    pure (a :: as)

/-- The cursor does at a position what the reader does with the bytes from there on. -/
def Follows (buf : List UInt8) (c : Cursor ε α) (r : Reader ε α) : Prop :=
  ∀ pos ≤ buf.length,
    (∃ e, r.run (buf.drop pos) = .error e ∧ c.run pos = throw e) ∨
      ∃ a pos', pos' ≤ buf.length ∧ r.run (buf.drop pos) = .ok (a, buf.drop pos') ∧
        c.run pos = pure (a, pos')

theorem Follows.pure (a : α) : Follows (ε := ε) buf (Pure.pure a) (Pure.pure a) :=
  fun pos hpos => .inr ⟨a, pos, hpos, rfl, rfl⟩

theorem Follows.fail (e : ε) : Follows buf (Cursor.fail e) (Reader.fail (α := α) e) :=
  fun _ _ => .inl ⟨e, rfl, rfl⟩

theorem Follows.bind {c : Cursor ε α} {r : Reader ε α} {d : α → Cursor ε β} {f : α → Reader ε β}
    (h : Follows buf c r) (hP : Yields r P) (hf : ∀ a, P a → Follows buf (d a) (f a)) :
    Follows buf (c >>= d) (r >>= f) := by
  intro pos hpos
  rcases h pos hpos with ⟨e, hr, hc⟩ | ⟨a, pos', hpos', hr, hc⟩
  · refine .inl ⟨e, ?_, ?_⟩
    · rw [StateT.run_bind, hr]
      rfl
    · rw [StateT.run_bind, hc]
      rfl
  · have hnext := hf a (hP _ a _ hr) pos' hpos'
    have hrun : (r >>= f).run (buf.drop pos) = (f a).run (buf.drop pos') := by
      rw [StateT.run_bind, hr]
      rfl
    have hcur : (c >>= d).run pos = (d a).run pos' := by
      rw [StateT.run_bind, hc]
      rfl
    rw [hrun, hcur]
    exact hnext

theorem run_need {eof : ε} {n pos : ℕ} (hroom : buf.length + n < 2 ^ 64) (hpos : pos ≤ buf.length) :
    (need buf eof n).run pos = if buf.length < pos + n then throw eof else pure ((), pos) := by
  change (add pos n >>= _) = _
  rw [add_eq (by omega)]
  rfl

theorem run_advance {n pos : ℕ} (h : pos + n ≤ buf.length) (hroom : buf.length < 2 ^ 64) :
    (advance buf n : Cursor ε _).run pos = pure (slice buf pos n, pos + n) := by
  change (add pos n >>= _) = _
  rw [add_eq (by omega)]
  change (range buf pos (pos + n) >>= _) = _
  rw [range_eq (Nat.le_add_right pos n) h, Nat.add_sub_cancel_left]
  rfl

theorem follows_exact {eof : ε} {n : ℕ} (hroom : buf.length + n < 2 ^ 64) :
    Follows buf (do need buf eof n; advance buf n) (exact eof n) := by
  intro pos hpos
  have hrun : (do need buf eof n; advance buf n : Cursor ε _).run pos
      = (need buf eof n).run pos >>= fun p => (advance buf n).run p.2 := rfl
  have hexact : (exact eof n).run (buf.drop pos) =
      if n ≤ (buf.drop pos).length then .ok ((buf.drop pos).take n, (buf.drop pos).drop n)
      else .error eof := rfl
  rw [hrun, hexact, run_need hroom hpos, List.length_drop, List.drop_drop]
  by_cases hn : pos + n ≤ buf.length
  · rw [if_pos (by omega), if_neg (Nat.not_lt.mpr hn)]
    exact .inr ⟨slice buf pos n, pos + n, hn, rfl, run_advance hn (by omega)⟩
  · rw [if_neg (by omega), if_pos (Nat.not_le.mp hn)]
    exact .inl ⟨eof, rfl, rfl⟩

theorem Follows.times {c : Cursor ε α} {r : Reader ε α} (h : Follows buf c r) :
    ∀ n, Follows buf (times c n) (items r n)
  | 0 => Follows.pure []
  | n + 1 => by
    rw [Cursor.times, items]
    exact h.bind (Yields.trivial r) fun a _ =>
      (h.times n).bind (Yields.trivial _) fun as _ => Follows.pure (a :: as)

end Cursor
