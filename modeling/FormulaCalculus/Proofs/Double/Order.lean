import Mathlib

/-!
# The order of doubles

Comparisons against the numerals 1 and 2, read off the unpacked form of a double.
-/

namespace FormulaCalculus.Double

open Float.Model Float.Model.UnpackedFloat

theorem unpack_one : (1 : Float).toModel.unpack = .finite .positive (2 ^ 52) (-52) (by decide) :=
  rfl

theorem unpack_two : (2 : Float).toModel.unpack = .finite .positive (2 ^ 52) (-51) (by decide) :=
  rfl

theorem le_iff {x y : Float} : x ≤ y ↔ x.toModel.unpack.le y.toModel.unpack := by
  show decide (x.toModel ≤ y.toModel) = true ↔ _
  simp only [decide_eq_true_eq]
  rfl

theorem lt_eq {x y : Float} : Float.lt x y = x.toModel.unpack.lt y.toModel.unpack := by
  show decide (x.toModel < y.toModel) = _
  exact Bool.decide_eq_true

/-- No number up to 1 exceeds 1 or 2. -/
theorem lt_eq_false_of_le_one {x : Float} (h : x ≤ 1) :
    Float.lt 1 x = false ∧ Float.lt 2 x = false := by
  rw [le_iff, unpack_one] at h
  rw [lt_eq, lt_eq, unpack_one, unpack_two]
  cases hx : x.toModel.unpack with
  | notANumber => exact ⟨rfl, rfl⟩
  | zero s => exact ⟨rfl, rfl⟩
  | infinity s => cases s with
    | negative => exact ⟨rfl, rfl⟩
    | positive => rw [hx] at h; cases h
  | finite s m e hm => cases s with
    | negative => exact ⟨rfl, rfl⟩
    | positive =>
      rw [hx] at h
      simp only [UnpackedFloat.le, UnpackedFloat.lt, UnpackedFloat.compare, Option.any_some] at h ⊢
      rcases Int.lt_trichotomy e (-52) with he | rfl | he
      · rw [Int.compare_eq_gt.2 he, Int.compare_eq_gt.2 (show e < -51 by omega)]
        exact ⟨rfl, rfl⟩
      · rw [Int.compare_eq_eq.2 rfl, Ordering.eq_then, Nat.isLE_compare] at h
        rw [Int.compare_eq_eq.2 rfl, Int.compare_eq_gt.2 (by decide : (-52 : Int) < -51)]
        refine ⟨?_, rfl⟩
        rw [Ordering.eq_then, beq_eq_false_iff_ne, Ne, Option.some.injEq, Nat.compare_eq_lt]
        exact Nat.not_lt.2 h
      · rw [Int.compare_eq_gt.2 he] at h; cases h

end FormulaCalculus.Double
