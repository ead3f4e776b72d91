import FormulaCalculus.Proofs.Double.Ceiling
import FormulaCalculus.Proofs.Double.NotANumber
import FormulaCalculus.Settings

/-!
# Accepted settings

What the check of each field keeps out of the settings.
-/

namespace FormulaCalculus

/-! ### Tolerances -/

namespace Tolerance

variable {t : Tolerance}

/-- From 0 on, as a double or as an integer. -/
def Nonnegative : Tolerance → Prop
  | double x => Float.le 0 x
  | whole n => 0 ≤ n

/-- Apart from NaN no tolerance passes the check but those from 0 on. -/
theorem nonnegative_or_isNaN (h : t.isNegative = false) :
    t.Nonnegative ∨ ∃ x, t = double x ∧ x.isNaN := by
  cases t with
  | double x =>
    have hlt : Float.lt x 0 = false := Bool.eq_false_iff.2 (of_decide_eq_false h)
    exact (Double.le_or_isNaN_of_lt_eq_false hlt).imp_right fun hnan => ⟨x, rfl, hnan⟩
  | whole n => exact .inl (Int.not_lt.1 (of_decide_eq_false h))

theorem Nonnegative.zero_le_bound (h : t.Nonnegative) : Float.le 0 t.bound := by
  cases t with
  | double x => exact h
  | whole n => exact Double.zero_le_ceiling n.toNat

end Tolerance

/-! ### Fields -/

namespace Settings

variable {s σ : Settings} {g : Option Given} {fields : List (String × Given)}

/-- A tolerance that is given is not negative. -/
theorem tolerance_of_updateEpsilon? (h : s.updateEpsilon? g = .ok σ) :
    σ.tolerance = s.tolerance ∨ ∃ v t, g = some v ∧ v.tolerance? = some t ∧
      t.isNegative = false ∧ σ.tolerance = t := by
  unfold updateEpsilon? at h
  split at h
  · cases h
    exact .inl rfl
  split at h
  · cases h
  split at h
  · cases h
  · next v _ t ht hnegative =>
    cases h
    exact .inr ⟨v, t, rfl, ht, Bool.eq_false_iff.2 hnegative, rfl⟩

theorem tolerance_updateNestingDepth? (h : s.updateNestingDepth? g = .ok σ) :
    σ.tolerance = s.tolerance := by
  unfold updateNestingDepth? at h
  repeat' split at h
  all_goals cases h <;> rfl

theorem tolerance_updateSimplifyPasses? (h : s.updateSimplifyPasses? g = .ok σ) :
    σ.tolerance = s.tolerance := by
  unfold updateSimplifyPasses? at h
  repeat' split at h
  all_goals cases h <;> rfl

theorem tolerance_updateNumberPrecision? (h : s.updateNumberPrecision? g = .ok σ) :
    σ.tolerance = s.tolerance := by
  unfold updateNumberPrecision? at h
  repeat' split at h
  all_goals cases h <;> rfl

/-- An accepted change is an accepted change of every field. -/
theorem exists_of_update? (h : s.update? fields = .ok σ) : ∃ s₁ s₂ s₃,
    s.updateEpsilon? (given? fields "epsilon") = .ok s₁ ∧
      s₁.updateNestingDepth? (given? fields "max_nesting_depth") = .ok s₂ ∧
      s₂.updateSimplifyPasses? (given? fields "max_simplify_passes") = .ok s₃ ∧
      s₃.updateNumberPrecision? (given? fields "number_precision") = .ok σ := by
  simp only [update?] at h
  split at h
  · cases h
  simp only [bind, Except.bind] at h
  split at h
  · cases h
  rename_i s₁ hepsilon
  split at h
  · cases h
  rename_i s₂ hdepth
  split at h
  · cases h
  rename_i s₃ hpasses
  exact ⟨s₁, s₂, s₃, hepsilon, hdepth, hpasses, h⟩

/-- An accepted change keeps the tolerance or replaces it with one that is not negative. -/
theorem tolerance_of_update? (h : s.update? fields = .ok σ) :
    σ.tolerance = s.tolerance ∨ ∃ v t, given? fields "epsilon" = some v ∧ v.tolerance? = some t ∧
      t.isNegative = false ∧ σ.tolerance = t := by
  obtain ⟨s₁, s₂, s₃, hepsilon, hdepth, hpasses, hprecision⟩ := exists_of_update? h
  rw [tolerance_updateNumberPrecision? hprecision, tolerance_updateSimplifyPasses? hpasses,
    tolerance_updateNestingDepth? hdepth]
  exact tolerance_of_updateEpsilon? hepsilon

/-- Accepted settings have a tolerance from 0 on, unless it is NaN. -/
theorem zero_le_epsilon (h : ({} : Settings).update? fields = .ok σ)
    (hnan : σ.epsilon.isNaN = false) : Float.le 0 σ.epsilon := by
  rcases tolerance_of_update? h with hsame | ⟨v, t, -, -, hnegative, hsame⟩
  · rw [epsilon, hsame]
    decide +kernel
  rw [epsilon, hsame] at hnan ⊢
  rcases Tolerance.nonnegative_or_isNaN hnegative with hle | ⟨x, rfl, hx⟩
  · exact hle.zero_le_bound
  · rw [show (Tolerance.double x).bound = x from rfl, hx] at hnan
    cases hnan

end Settings

end FormulaCalculus
