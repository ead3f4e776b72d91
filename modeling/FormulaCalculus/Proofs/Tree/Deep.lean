import FormulaCalculus.Tree.WellFormed

/-!
# Trees that are too deep to be walked

The repeated sum of a variable grows by one level with each summand, so there are trees on either
side of the limit.
-/

namespace FormulaCalculus.Tree

variable {α : Type}

/-- The first variable with itself added `n` times. -/
def sums : Nat → Tree α
  | 0 => var 0
  | n + 1 => add (sums n) (var 0)

theorem depth_sums (n : Nat) : (sums n : Tree α).depth = n + 1 := by
  induction n with
  | zero => rfl
  | succ n ih =>
    simp only [sums, add, depth, ih]
    omega

theorem isTooDeep_sums {n : Nat} : (sums n : Tree α).isTooDeep = true ↔ maxDepth ≤ n := by
  rw [isTooDeep, decide_eq_true_iff, depth_sums, Nat.lt_succ_iff]

theorem wellFormed_sums (n : Nat) : (sums n : Tree α).WellFormed := by
  induction n with
  | zero => trivial
  | succ n ih => exact ⟨rfl, ih, trivial⟩

theorem eq_zero_of_mem_indices_sums {n i : Nat} (h : i ∈ (sums n : Tree α).indices) : i = 0 := by
  induction n with
  | zero => exact List.mem_singleton.1 h
  | succ n ih => exact (mem_indices_binary.1 h).elim ih List.mem_singleton.1

end FormulaCalculus.Tree
