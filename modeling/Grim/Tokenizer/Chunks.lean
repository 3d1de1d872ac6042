import Grim.Lib.Chop
import Grim.Lib.Utf8

/-!
# Chunks of a long text

The cuts for encoding in parallel: about every `target` bytes, after a newline where there is one in
the second half of the chunk, and between characters.  A chunk is the characters up to the first
character boundary from its last byte on.
-/

namespace Grim.Tokenizer

open Chop

/-- Back to the last newline above `floor`. -/
def backUp (bytes : List UInt8) (floor : ℕ) : ℕ → ℕ
  | 0 => 0
  | e + 1 => if floor < e + 1 ∧ bytes[e]? ≠ some 10 then backUp bytes floor e else e + 1

/-- The characters up to the first boundary that is `i` bytes on or more. -/
def charsTo : List Char → ℕ → ℕ
  | _, 0 => 0
  | [], _ => 0
  | c :: cs, i + 1 => 1 + charsTo cs (i + 1 - c.utf8Size)

def chunkLength (target : ℕ) (rest : List Char) : ℕ :=
  let n := Utf8.size rest
  let last := min target n
  let last := if last < n then backUp (Utf8.encode rest) (target / 2) last else last
  let k := charsTo rest last
  if k = 0 then charsTo rest (min target n) else k

/-- The chunks of `chunk_bounds`, as texts. -/
def chunks (text : List Char) (target : ℕ) : List (List Char) := chop (chunkLength target) text

theorem backUp_le (bytes : List UInt8) (floor : ℕ) : ∀ e, backUp bytes floor e ≤ e
  | 0 => le_rfl
  | e + 1 => by
    rw [backUp]
    split_ifs
    · exact (backUp_le bytes floor e).trans (Nat.le_succ e)
    · exact le_rfl

theorem charsTo_le : ∀ (text : List Char) (i : ℕ), charsTo text i ≤ text.length
  | [], 0 => le_rfl
  | [], _ + 1 => le_rfl
  | _ :: _, 0 => Nat.zero_le _
  | c :: cs, i + 1 => by
    have := charsTo_le cs (i + 1 - c.utf8Size)
    rw [charsTo, List.length_cons]
    omega

theorem charsTo_pos {c : Char} {cs : List Char} {i : ℕ} (h : 0 < i) :
    0 < charsTo (c :: cs) i := by
  rcases i with _ | i
  · omega
  · rw [charsTo]
    omega

theorem size_take_charsTo : ∀ (text : List Char) (i : ℕ),
    Utf8.size (text.take (charsTo text i)) ≤ i + 3
  | [], 0 => by simp [charsTo]
  | [], _ + 1 => by simp [charsTo]
  | _ :: _, 0 => by simp [charsTo]
  | c :: cs, i + 1 => by
    have hsize := c.utf8Size_le_four
    have hrest := size_take_charsTo cs (i + 1 - c.utf8Size)
    rw [charsTo, Nat.add_comm, List.take_succ_cons, Utf8.size_cons]
    by_cases hlast : i + 1 ≤ c.utf8Size
    · rw [Nat.sub_eq_zero_of_le hlast] at hrest ⊢
      have hzero : charsTo cs 0 = 0 := by cases cs <;> rfl
      rw [hzero, List.take_zero, Utf8.size_nil]
      omega
    · omega

theorem chunkLength_eq (target : ℕ) (rest : List Char) :
    ∃ i ≤ target, chunkLength target rest = charsTo rest i ∧
      (0 < target → rest ≠ [] → 0 < charsTo rest i) := by
  have hmin : min target (Utf8.size rest) ≤ target := min_le_left _ _
  simp only [chunkLength]
  split_ifs with hcut hzero
  · refine ⟨_, hmin, rfl, fun htarget hrest => ?_⟩
    rcases rest with _ | ⟨c, cs⟩
    · exact absurd rfl hrest
    · exact charsTo_pos (lt_min htarget (Utf8.size_pos hrest))
  · exact ⟨_, (backUp_le _ _ _).trans hmin, rfl, fun _ _ => by omega⟩
  · refine ⟨_, hmin, rfl, fun htarget hrest => ?_⟩
    rcases rest with _ | ⟨c, cs⟩
    · exact absurd rfl hrest
    · exact charsTo_pos (lt_min htarget (Utf8.size_pos hrest))
  · exact ⟨_, hmin, rfl, fun _ _ => by omega⟩

theorem chunkLength_progress {target : ℕ} (h : 0 < target) : Progress (chunkLength target) where
  pos := fun c cs => by
    obtain ⟨i, _, heq, hpos⟩ := chunkLength_eq target (c :: cs)
    rw [heq]
    exact hpos h (by simp)
  le := fun rest => by
    obtain ⟨i, _, heq, _⟩ := chunkLength_eq target rest
    rw [heq]
    exact charsTo_le rest i

theorem flatten_chunks {target : ℕ} (h : 0 < target) (text : List Char) :
    (chunks text target).flatten = text := flatten_chop (chunkLength_progress h) text

theorem ne_nil_of_mem_chunks {target : ℕ} (h : 0 < target) {text chunk : List Char}
    (hmem : chunk ∈ chunks text target) : chunk ≠ [] :=
  ne_nil_of_mem_chop (chunkLength_progress h) hmem

theorem size_le_of_mem_chunks {target : ℕ} {text chunk : List Char}
    (hmem : chunk ∈ chunks text target) : Utf8.size chunk ≤ target + 3 := by
  refine forall_mem_chop (P := fun chunk => Utf8.size chunk ≤ target + 3) (fun c cs => ?_) hmem
  obtain ⟨i, hi, heq, _⟩ := chunkLength_eq target (c :: cs)
  have := size_take_charsTo (c :: cs) i
  rw [heq]
  omega

end Grim.Tokenizer
