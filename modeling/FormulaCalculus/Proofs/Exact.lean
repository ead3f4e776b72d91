import FormulaCalculus.Evaluation
import Mathlib.Analysis.SpecialFunctions.Pow.Real
import Mathlib.Analysis.SpecialFunctions.Trigonometric.Arctan

/-!
# Exact arithmetic

Numbers of an ordered field whose `Scalar` operations are the field's own. The elementary functions
stay open but for the laws of powers that a statement asks for. The real numbers are the instance
with the usual functions; beside it stand two readings of the inverse cotangent, which differ by `π`
on negative numbers.
-/

namespace FormulaCalculus

/-- The arithmetic and the comparisons are those of the ordered field. -/
class ExactScalar (α : Type) [Field α] [LinearOrder α] [Scalar α] : Prop where
  ofInt_eq (n : Int) : (Scalar.ofInt n : α) = n
  add_eq (x y : α) : Scalar.add x y = x + y
  sub_eq (x y : α) : Scalar.sub x y = x - y
  mul_eq (x y : α) : Scalar.mul x y = x * y
  div_eq (x y : α) : Scalar.div x y = x / y
  abs_eq (x : α) : Scalar.abs x = |x|
  eq_iff (x y : α) : Scalar.eq x y = true ↔ x = y
  lt_iff (x y : α) : Scalar.lt x y = true ↔ x < y
  le_iff (x y : α) : Scalar.le x y = true ↔ x ≤ y
  isWhole_iff (x : α) : Scalar.isWhole x = true ↔ ∃ n : Int, x = n

/-- What the power identities ask of powers. -/
structure PowerLaws (α : Type) [Field α] [LinearOrder α] [Scalar α] : Prop where
  pow_one (x : α) : Scalar.pow x 1 = x
  one_pow (y : α) : Scalar.pow 1 y = 1
  pow_two (x : α) : Scalar.pow x 2 = x * x
  zero_pow (y : α) : 0 < y → Scalar.pow 0 y = 0

section

variable {α : Type} [Field α] [LinearOrder α] [Scalar α] [ExactScalar α]

namespace ExactScalar

theorem ofInt_zero : (Scalar.ofInt 0 : α) = 0 := by
  rw [ofInt_eq, Int.cast_zero]

theorem eq_eq_false_iff (x y : α) : Scalar.eq x y = false ↔ x ≠ y := by
  rw [ne_eq, ← eq_iff x y, Bool.not_eq_true]

theorem isWhole_eq_false_iff (x : α) : Scalar.isWhole x = false ↔ ¬ ∃ n : Int, x = n := by
  rw [← isWhole_iff x, Bool.not_eq_true]

end ExactScalar

/-! ### Operators -/

namespace Op

open ExactScalar

theorem apply_add_eq_ok {x y v : α} : Op.add.apply x y = .ok v ↔ v = x + y := by
  rw [apply, add_eq, Except.ok.injEq, eq_comm]

theorem apply_sub_eq_ok {x y v : α} : Op.sub.apply x y = .ok v ↔ v = x - y := by
  rw [apply, sub_eq, Except.ok.injEq, eq_comm]

theorem apply_mul_eq_ok {x y v : α} : Op.mul.apply x y = .ok v ↔ v = x * y := by
  rw [apply, mul_eq, Except.ok.injEq, eq_comm]

/-- A quotient is defined unless the divisor is zero. -/
theorem apply_div_eq_ok {x y v : α} : Op.div.apply x y = .ok v ↔ y ≠ 0 ∧ v = x / y := by
  simp only [apply, ofInt_zero, div_eq, eq_iff]
  split
  · rename_i hy
    exact ⟨nofun, fun h => absurd hy h.1⟩
  · rename_i hy
    rw [Except.ok.injEq]
    exact ⟨fun h => ⟨hy, h.symm⟩, fun h => h.2.symm⟩

/-- A power is defined unless zero gets a negative exponent or a negative base a fraction. -/
theorem apply_pow_eq_ok {x y v : α} :
    Op.pow.apply x y = .ok v ↔
      ¬ (x = 0 ∧ y < 0) ∧ (x < 0 → ∃ n : Int, y = n) ∧ v = Scalar.pow x y := by
  have hpole : (Scalar.eq x (Scalar.ofInt 0) && Scalar.lt y (Scalar.ofInt 0)) = true ↔
      x = 0 ∧ y < 0 := by
    rw [ofInt_zero, Bool.and_eq_true, eq_iff, lt_iff]
  have hfraction : (Scalar.lt x (Scalar.ofInt 0) && !Scalar.isWhole y) = true ↔
      x < 0 ∧ ¬ ∃ n : Int, y = n := by
    rw [ofInt_zero, Bool.and_eq_true, Bool.not_eq_true', lt_iff, isWhole_eq_false_iff]
  rw [apply]
  by_cases h1 : x = 0 ∧ y < 0
  · rw [if_pos (hpole.2 h1)]
    exact ⟨nofun, fun h => absurd h1 h.1⟩
  by_cases h2 : x < 0 ∧ ¬ ∃ n : Int, y = n
  · rw [if_neg (hpole.not.2 h1), if_pos (hfraction.2 h2)]
    exact ⟨nofun, fun h => absurd (h.2.1 h2.1) h2.2⟩
  · rw [if_neg (hpole.not.2 h1), if_neg (hfraction.not.2 h2), Except.ok.injEq]
    refine ⟨fun h => ⟨h1, fun hx => ?_, h.symm⟩, fun h => h.2.2.symm⟩
    exact not_not.1 fun hn => h2 ⟨hx, hn⟩

/-- A logarithm is defined for positive numbers. -/
theorem apply_ln_eq_ok {x y v : α} : Op.ln.apply x y = .ok v ↔ 0 < y ∧ v = Scalar.ln y := by
  simp only [apply, ofInt_zero, le_iff]
  split
  · rename_i hy
    exact ⟨nofun, fun h => absurd hy h.1.not_ge⟩
  · rename_i hy
    rw [Except.ok.injEq]
    exact ⟨fun h => ⟨not_le.1 hy, h.symm⟩, fun h => h.2.symm⟩

end Op

end

/-! ### The real numbers -/

noncomputable section

open Classical

instance : Scalar ℝ where
  ofInt n := n
  ofNat? n := some n
  add := (· + ·)
  sub := (· - ·)
  mul := (· * ·)
  div := (· / ·)
  pow := Real.rpow
  ln := Real.log
  sqrt := Real.sqrt
  cos := Real.cos
  sin := Real.sin
  tan := Real.tan
  arcsin := Real.arcsin
  arccos := Real.arccos
  arctan := Real.arctan
  abs := abs
  halfPi := Real.pi / 2
  absent := 0
  eq x y := decide (x = y)
  lt x y := decide (x < y)
  le x y := decide (x ≤ y)
  isWhole x := decide (∃ n : Int, x = n)

instance : ExactScalar ℝ where
  ofInt_eq _ := rfl
  add_eq _ _ := rfl
  sub_eq _ _ := rfl
  mul_eq _ _ := rfl
  div_eq _ _ := rfl
  abs_eq _ := rfl
  eq_iff _ _ := decide_eq_true_iff
  lt_iff _ _ := decide_eq_true_iff
  le_iff _ _ := decide_eq_true_iff
  isWhole_iff _ := decide_eq_true_iff

end

theorem powerLaws_real : PowerLaws ℝ where
  pow_one := Real.rpow_one
  one_pow := Real.one_rpow
  pow_two x := by rw [← pow_two]; exact Real.rpow_two x
  zero_pow _ h := Real.zero_rpow h.ne'

/-! ### The inverse cotangent -/

/-- The inverse cotangent that is continuous, with values between 0 and `π`. -/
noncomputable def continuousArccot (x : ℝ) : ℝ :=
  Real.pi / 2 - Real.arctan x

/-- The inverse cotangent with values between `-π/2` and `π/2`, which jumps at 0. -/
noncomputable def principalArccot (x : ℝ) : ℝ :=
  if x = 0 then Real.pi / 2 else Real.arctan (1 / x)

theorem principalArccot_of_nonneg {x : ℝ} (h : 0 ≤ x) :
    principalArccot x = continuousArccot x := by
  rw [principalArccot, continuousArccot]
  rcases h.eq_or_lt with rfl | hpos
  · rw [if_pos rfl, Real.arctan_zero, sub_zero]
  · rw [if_neg hpos.ne', one_div, Real.arctan_inv_of_pos hpos]

theorem principalArccot_of_neg {x : ℝ} (h : x < 0) :
    principalArccot x = continuousArccot x - Real.pi := by
  rw [principalArccot, continuousArccot, if_neg h.ne, one_div, Real.arctan_inv_of_neg h]
  ring

end FormulaCalculus
