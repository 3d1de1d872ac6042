import Mathlib.Tactic

/-!
# Slices of a flat buffer

A buffer of rows of one length is a list; `write` is `copy_from_slice` at an offset and `none`
where that panics.
-/

namespace Slice

open List

variable {α : Type*} {xs ys row : List α} {off off' len : ℕ}

def slice (xs : List α) (off len : ℕ) : List α := (xs.drop off).take len

def write (xs : List α) (off : ℕ) (row : List α) : Option (List α) :=
  if off + row.length ≤ xs.length then
    some (xs.take off ++ row ++ xs.drop (off + row.length))
  else none

theorem length_slice : (slice xs off len).length = min len (xs.length - off) := by
  simp [slice]

@[simp] theorem slice_zero : slice xs off 0 = [] := by simp [slice]

theorem slice_add (a b : ℕ) : slice xs off (a + b) = slice xs off a ++ slice xs (off + a) b := by
  rw [slice, take_add, drop_drop]
  rfl

theorem take_slice (a : ℕ) : (slice xs off len).take a = slice xs off (min a len) := by
  rw [slice, take_take]
  rfl

theorem slice_append {pre mid post : List α} (hoff : pre.length = off) (hlen : mid.length = len) :
    slice (pre ++ mid ++ post) off len = mid := by
  rw [slice, append_assoc, ← hoff, drop_left, ← hlen, take_left]

theorem slice_flatten (parts : List (List α)) (i : ℕ) (post : List α) (hi : i < parts.length)
    (hoff : ((parts.take i).map List.length).sum = off) (hlen : parts[i].length = len) :
    slice (parts.flatten ++ post) off len = parts[i] := by
  have hparts : parts = parts.take i ++ parts[i] :: parts.drop (i + 1) := by
    rw [← drop_eq_getElem_cons hi, take_append_drop]
  have hsplit : parts.flatten ++ post =
      (parts.take i).flatten ++ parts[i] ++ ((parts.drop (i + 1)).flatten ++ post) := by
    conv_lhs => rw [hparts]
    simp only [flatten_append, flatten_cons, append_assoc]
  rw [hsplit]
  exact slice_append (by rw [length_flatten, hoff]) hlen

theorem slice_slice {a b : ℕ} (h : a + b ≤ len) :
    slice (slice xs off len) a b = slice xs (off + a) b := by
  rw [slice, slice, drop_take, take_take, drop_drop, Nat.min_eq_left (by omega)]
  rfl

theorem write_some (h : write xs off row = some ys) :
    off + row.length ≤ xs.length ∧ ys = xs.take off ++ row ++ xs.drop (off + row.length) := by
  unfold write at h
  split_ifs at h with hle
  exact ⟨hle, (Option.some.inj h).symm⟩

theorem length_write (h : write xs off row = some ys) : ys.length = xs.length := by
  obtain ⟨hle, rfl⟩ := write_some h
  simp
  omega

theorem slice_write (h : write xs off row = some ys) : slice ys off row.length = row := by
  obtain ⟨hle, rfl⟩ := write_some h
  have hlen : (xs.take off).length = off := by simp; omega
  rw [slice, append_assoc, drop_append_of_le_length (by omega), drop_of_length_le
    (by omega), nil_append, take_left]

theorem slice_write_of_disjoint (h : write xs off row = some ys)
    (hd : off' + len ≤ off ∨ off + row.length ≤ off') : slice ys off' len = slice xs off' len := by
  obtain ⟨hle, rfl⟩ := write_some h
  have hlen : (xs.take off).length = off := by simp; omega
  apply ext_getElem?
  intro i
  unfold slice
  by_cases hi : i < len
  · rw [getElem?_take_of_lt hi, getElem?_take_of_lt hi, getElem?_drop,
      getElem?_drop]
    rcases hd with hd | hd
    · rw [append_assoc, getElem?_append_left (by omega),
        getElem?_take_of_lt (by omega)]
    · rw [getElem?_append_right (by simp; omega), getElem?_drop]
      congr 1
      simp
      omega
  · rw [getElem?_eq_none (by simp; omega), getElem?_eq_none (by simp; omega)]

theorem slice_rows (stride : ℕ) : ∀ (n off : ℕ), slice xs off (n * stride)
    = (List.range n).flatMap fun i => slice xs (off + i * stride) stride
  | 0, off => by simp
  | n + 1, off => by
    rw [range_succ, flatMap_append, ← slice_rows stride n off, Nat.succ_mul, slice_add]
    simp

end Slice
