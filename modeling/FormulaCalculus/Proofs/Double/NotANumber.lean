import FormulaCalculus.Proofs.Double.Alike

/-!
# NaN

Arithmetic on NaN gives NaN, and NaN is neither equal to a double nor on either side of it. So the
negation of a comparison with zero is the opposite comparison or says NaN.
-/

namespace FormulaCalculus.Double

open Float.Model Float.Model.UnpackedFloat

variable {x y : Float}

theorem isNaN_iff : x.isNaN ↔ x.toModel.unpack = .notANumber := by
  show x.toModel.unpack.isNaN = true ↔ _
  cases x.toModel.unpack <;> simp [UnpackedFloat.isNaN]

theorem isNaN_pack {u : UnpackedFloat} (h : u = .notANumber) :
    (Float.ofModel (.pack u)).isNaN := by
  rw [h]
  rfl

/-! ### Comparisons -/

theorem compare_notANumber_right (u : UnpackedFloat) :
    UnpackedFloat.compare u .notANumber = none := by
  cases u <;> rfl

section

variable (h : x.isNaN)
include h

theorem beq_eq_false_of_isNaN (y : Float) : (x == y) = false := by
  rw [beq_eq, isNaN_iff.1 h]
  rfl

theorem lt_eq_false_of_isNaN_right (y : Float) : Float.lt y x = false := by
  rw [lt_eq, isNaN_iff.1 h, UnpackedFloat.lt, compare_notANumber_right]
  rfl

theorem le_eq_false_of_isNaN_right (y : Float) : Float.le y x = false := by
  rw [le_eq, isNaN_iff.1 h, UnpackedFloat.le, compare_notANumber_right]
  rfl

end

theorem unpack_zero : (0 : Float).toModel.unpack = .zero .positive :=
  rfl

theorem lt_or_isNaN_of_le_eq_false (h : Float.le x 0 = false) : Float.lt 0 x = true ∨ x.isNaN := by
  rw [le_eq, unpack_zero] at h
  rw [lt_eq, unpack_zero, isNaN_iff]
  cases hx : x.toModel.unpack with
  | notANumber => exact .inr rfl
  | zero s => rw [hx] at h; cases h
  | infinity s | finite s =>
    rw [hx] at h
    cases s with
    | negative => cases h
    | positive => exact .inl rfl

theorem le_or_isNaN_of_lt_eq_false (h : Float.lt x 0 = false) : Float.le 0 x = true ∨ x.isNaN := by
  rw [lt_eq, unpack_zero] at h
  rw [le_eq, unpack_zero, isNaN_iff]
  cases hx : x.toModel.unpack with
  | notANumber => exact .inr rfl
  | zero s => exact .inl rfl
  | infinity s | finite s =>
    rw [hx] at h
    cases s with
    | negative => cases h
    | positive => exact .inl rfl

theorem lt_eq_false_of_le (h : Float.le x 0) : Float.lt 0 x = false := by
  rw [le_eq, unpack_zero] at h
  rw [lt_eq, unpack_zero]
  cases hx : x.toModel.unpack with
  | notANumber => rfl
  | zero s => rfl
  | infinity s | finite s =>
    rw [hx] at h
    cases s with
    | negative => rfl
    | positive => cases h

theorem le_eq_false_of_lt (h : Float.lt x 0) : Float.le 0 x = false := by
  rw [lt_eq, unpack_zero] at h
  rw [le_eq, unpack_zero]
  cases hx : x.toModel.unpack with
  | notANumber => rfl
  | zero s => rw [hx] at h; cases h
  | infinity s | finite s =>
    rw [hx] at h
    cases s with
    | negative => rfl
    | positive => cases h

theorem lt_of_le_of_beq_eq_false (h : Float.le 0 x) (hne : (x == 0) = false) : Float.lt 0 x := by
  rw [le_eq, unpack_zero] at h
  rw [beq_eq, unpack_zero] at hne
  rw [lt_eq, unpack_zero]
  cases hx : x.toModel.unpack with
  | notANumber => rw [hx] at h; cases h
  | zero s => rw [hx] at hne; cases hne
  | infinity s | finite s =>
    rw [hx] at h
    cases s with
    | negative => cases h
    | positive => rfl

/-! ### Arithmetic -/

/-- An operation that gives NaN for NaN on either side. -/
theorem isNaN_map₂ {f : UnpackedFloat → UnpackedFloat → UnpackedFloat}
    (hl : ∀ u, f .notANumber u = .notANumber) (hr : ∀ u, f u .notANumber = .notANumber)
    (h : x.isNaN ∨ y.isNaN) :
    (Float.ofModel (.pack (f x.toModel.unpack y.toModel.unpack))).isNaN := by
  refine isNaN_pack ?_
  rcases h with h | h
  · rw [isNaN_iff.1 h, hl]
  · rw [isNaN_iff.1 h, hr]

section

variable (h : x.isNaN ∨ y.isNaN)
include h

theorem isNaN_add : (x + y).isNaN :=
  isNaN_map₂ (fun _ => rfl) (fun u => by cases u <;> rfl) h

theorem isNaN_sub : (x - y).isNaN :=
  isNaN_map₂ (fun _ => rfl) (fun u => by cases u <;> rfl) h

theorem isNaN_mul : (x * y).isNaN :=
  isNaN_map₂ (fun _ => rfl) (fun u => by cases u <;> rfl) h

theorem isNaN_div : (x / y).isNaN :=
  isNaN_map₂ (fun _ => rfl) (fun u => by cases u <;> rfl) h

end

theorem isNaN_sqrt (h : x.isNaN) : x.sqrt.isNaN :=
  isNaN_pack (by rw [isNaN_iff.1 h]; rfl)

end FormulaCalculus.Double
