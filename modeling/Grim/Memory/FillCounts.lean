import Grim.Memory.Handles

/-!
# The fill counts of the blocks

`block_num_tokens` takes the id of a block for its position in the table.
-/

namespace Grim.Memory

namespace PagedKvCache

variable (c : PagedKvCache)

def blockNumTokens (blockId : ℕ) : Option ℕ :=
  if c.table.length ≤ blockId then none
  else
    let fullBlocks := c.committedTokens / c.pageSize
    let tail := c.committedTokens % c.pageSize
    if blockId < fullBlocks then some c.pageSize
    else if blockId = fullBlocks then some (if tail = 0 then c.pageSize else tail)
    else some 0

/-- The committed tokens in the page at position `i`. -/
def tokensAt (i : ℕ) : ℕ := min c.pageSize (c.committedTokens - i * c.pageSize)

/-- As positions, `i` and `b` are both of full pages, both of the page that is filled in part, or
both behind the tokens; the first page behind them counts as full. -/
def SameFill (i b : ℕ) : Prop :=
  let fullBlocks := c.committedTokens / c.pageSize
  let tail := c.committedTokens % c.pageSize
  i < fullBlocks ∧ (b < fullBlocks ∨ b = fullBlocks ∧ tail = 0)
    ∨ i = fullBlocks ∧ tail ≠ 0 ∧ b = fullBlocks
    ∨ (fullBlocks < i ∨ i = fullBlocks ∧ tail = 0) ∧ fullBlocks < b

variable {c}

theorem tokensAt_of_lt {i : ℕ} (h : i < c.committedTokens / c.pageSize) :
    c.tokensAt i = c.pageSize := by
  unfold tokensAt
  have hle : (i + 1) * c.pageSize ≤ c.committedTokens / c.pageSize * c.pageSize :=
    Nat.mul_le_mul_right _ h
  have := Nat.div_mul_le_self c.committedTokens c.pageSize
  rw [Nat.add_mul] at hle
  omega

theorem tokensAt_of_eq (hp : 0 < c.pageSize) {i : ℕ} (h : i = c.committedTokens / c.pageSize) :
    c.tokensAt i = c.committedTokens % c.pageSize := by
  unfold tokensAt
  have hmod := Nat.mod_lt c.committedTokens hp
  have hdiv := Nat.div_add_mod' c.committedTokens c.pageSize
  rw [h]
  omega

theorem tokensAt_of_gt (hp : 0 < c.pageSize) {i : ℕ} (h : c.committedTokens / c.pageSize < i) :
    c.tokensAt i = 0 := by
  unfold tokensAt
  have hle : (c.committedTokens / c.pageSize + 1) * c.pageSize ≤ i * c.pageSize :=
    Nat.mul_le_mul_right _ h
  have hmod := Nat.mod_lt c.committedTokens hp
  have hdiv := Nat.div_add_mod' c.committedTokens c.pageSize
  rw [Nat.add_mul] at hle
  omega

theorem blockNumTokens_iff (hp : 0 < c.pageSize) (i b : ℕ) :
    c.blockNumTokens b = some (c.tokensAt i) ↔ b < c.table.length ∧ c.SameFill i b := by
  have hmod := Nat.mod_lt c.committedTokens hp
  have hat : (i < c.committedTokens / c.pageSize ∧ c.tokensAt i = c.pageSize)
      ∨ (i = c.committedTokens / c.pageSize ∧ c.tokensAt i = c.committedTokens % c.pageSize)
      ∨ (c.committedTokens / c.pageSize < i ∧ c.tokensAt i = 0) := by
    rcases lt_trichotomy i (c.committedTokens / c.pageSize) with hi | hi | hi
    · exact .inl ⟨hi, tokensAt_of_lt hi⟩
    · exact .inr (.inl ⟨hi, tokensAt_of_eq hp hi⟩)
    · exact .inr (.inr ⟨hi, tokensAt_of_gt hp hi⟩)
  unfold blockNumTokens SameFill
  dsimp only
  generalize c.committedTokens / c.pageSize = fullBlocks at hat ⊢
  generalize c.committedTokens % c.pageSize = tail at hmod hat ⊢
  generalize c.tokensAt i = count at hat ⊢
  split_ifs
  · simp only [false_iff]
    omega
  all_goals
    rw [Option.some.injEq]
    omega

end PagedKvCache

namespace TableRun

variable {s : TableRun}

/-- In every state of a cache a block's count is that of its page exactly when its id happens to be
a position with the same fill. -/
theorem blockNumTokens_of_reach {p : KvBlockPool} {numHeads headDim pageSize : ℕ}
    (hr : Steps.Reach step (fun _ _ => True) (new p numHeads headDim pageSize) s) {i b : ℕ}
    (_ : s.tables.table[i]? = some b) :
    s.tables.blockNumTokens b = some (s.tables.tokensAt i)
      ↔ b < s.tables.table.length ∧ s.tables.SameFill i b :=
  PagedKvCache.blockNumTokens_iff (shown_of_reach hr).page i b

theorem blockNumTokens_of_reach_first :
    ∃ s, Steps.Reach step (fun _ _ => True) (new (Setup.tiny 2 none).pool 1 1 16) s
      ∧ s.tables.table[0]? = some 0
      ∧ (s.tables.blockNumTokens 0 = some (s.tables.tokensAt 0)
        ↔ 0 < s.tables.table.length ∧ s.tables.SameFill 0 0) := by
  obtain ⟨s, hs⟩ : ∃ s, Steps.exec step (fun _ _ => True)
      (new (Setup.tiny 2 none).pool 1 1 16) [.appendSlot plainEnv] = some s := ⟨_, rfl⟩
  have hr := Steps.reach_of_exec hs
  have htable : s.tables.table[0]? = some 0 := by
    rw [← Option.some.inj hs]
    rfl
  exact ⟨s, hr, htable, blockNumTokens_of_reach hr htable⟩

/-- Another sequence has the first block: this one's only page is the second, which is no position
of its table. -/
theorem second_block_uncounted :
    ∃ p, (Setup.tiny 2 none).pool.alloc id (.ok ()) = some (p, .ok 0)
      ∧ ∃ s, Steps.Reach step (fun _ _ => True) (new p 1 1 16) s ∧ s.tables.table = [1]
        ∧ s.tables.tokensAt 0 = 1 ∧ s.tables.blockNumTokens 1 = none := by
  refine ⟨_, rfl, ?_⟩
  obtain ⟨s, hs⟩ : ∃ s, Steps.exec step (fun _ _ => True)
      (new ((Setup.tiny 2 none).pool.popFree.1) 1 1 16) [.appendSlot plainEnv] = some s := ⟨_, rfl⟩
  have hr := Steps.reach_of_exec hs
  obtain rfl := Option.some.inj hs
  exact ⟨_, hr, rfl, rfl, rfl⟩

end TableRun

end Grim.Memory
