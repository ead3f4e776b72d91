import FormulaCalculus.Proofs.Double.Exact
import FormulaCalculus.Proofs.Exact

/-!
# Values of algebra terms

What the constructors mean over the real numbers. A term has no value where that would not be a real
number. How the inverse cotangent is read is a parameter.
-/

namespace FormulaCalculus

noncomputable section

namespace AlgebraTerm

/-! ### Values -/

open Classical in
/-- Zero has no negative powers, and a negative number has only whole ones. -/
def power? (x y : ℝ) : Option ℝ :=
  if ¬ (x = 0 ∧ y < 0) ∧ (x < 0 → ∃ n : Int, y = n) then some (x ^ y) else none

def function? (arccot : ℝ → ℝ) (f : Op) (x : ℝ) : Option ℝ :=
  match f with
  | .ln => if 0 < x then some (Real.log x) else none
  | .sqrt => if 0 ≤ x then some (Real.sqrt x) else none
  | .cos => some (Real.cos x)
  | .sin => some (Real.sin x)
  | .tg => if Real.cos x ≠ 0 then some (Real.tan x) else none
  | .ctg => if Real.sin x ≠ 0 then some (Real.cot x) else none
  | .arcsin => if -1 ≤ x ∧ x ≤ 1 then some (Real.arcsin x) else none
  | .arccos => if -1 ≤ x ∧ x ≤ 1 then some (Real.arccos x) else none
  | .arctg => some (Real.arctan x)
  | .arcctg => some (arccot x)
  | _ => none

/-- The value of a term, given the values of its symbols. A derivative is not followed. -/
def value? (arccot : ℝ → ℝ) (env : String → Option ℝ) : AlgebraTerm → Option ℝ
  | symbol name => env name
  | integer n => some n
  | float v => if v.isFinite then some ((Double.exact v : ℚ) : ℝ) else none
  | minusOne => some (-1)
  | add a b => do return (← a.value? arccot env) + (← b.value? arccot env)
  | mul a b => do return (← a.value? arccot env) * (← b.value? arccot env)
  | pow a b => do power? (← a.value? arccot env) (← b.value? arccot env)
  | apply f a => do function? arccot f (← a.value? arccot env)
  | derivative .. => none

theorem value?_ofNumber {arccot : ℝ → ℝ} {env : String → Option ℝ} {v : Float} (h : v.isFinite) :
    (ofNumber v).value? arccot env = some ((Double.exact v : ℚ) : ℝ) := by
  rw [ofNumber]
  split
  · next n hn => rw [value?, Double.exact_of_integer? hn, Rat.cast_intCast]
  · rw [value?, if_pos h]

/-! ### Agreement with the operators of trees -/

theorem toOption_guard {ε β : Type} {p q : Prop} [Decidable p] [Decidable q] {fault : ε} {v : β}
    (h : p ↔ ¬ q) :
    (if p then .error fault else .ok v : Except ε β).toOption = if q then some v else none := by
  by_cases hq : q
  · rw [if_pos hq, if_neg (h.not.2 (not_not.2 hq))]; rfl
  · rw [if_neg hq, if_pos (h.2 hq)]; rfl

theorem toOption_apply_pow (x y : ℝ) : (Op.pow.apply x y).toOption = power? x y := by
  refine Option.ext fun v => ?_
  rw [toOption_eq_some, Op.apply_pow_eq_ok, power?, Option.ite_none_right_eq_some,
    Option.some.injEq, and_assoc, eq_comm (a := v)]
  rfl

/-- The power to `-1` is the inverse, and 0 has none. -/
theorem power?_neg_one (y : ℝ) : power? y (-1) = if y ≠ 0 then some y⁻¹ else none := by
  have hdefined : (¬ (y = 0 ∧ (-1 : ℝ) < 0) ∧ (y < 0 → ∃ n : Int, (-1 : ℝ) = n)) ↔ y ≠ 0 := by
    refine ⟨fun h hy => h.1 ⟨hy, by norm_num⟩, fun hy => ⟨fun h => hy h.1, fun _ => ⟨-1, ?_⟩⟩⟩
    rw [Int.cast_neg, Int.cast_one]
  simp only [power?, Real.rpow_neg_one, hdefined]

theorem toOption_apply_div (x y : ℝ) :
    (Op.div.apply x y).toOption = (power? y (-1)).map (x * ·) := by
  refine Option.ext fun v => ?_
  rw [toOption_eq_some, Op.apply_div_eq_ok, power?_neg_one, Option.map_eq_some_iff]
  simp only [Option.ite_none_right_eq_some, Option.some.injEq]
  constructor
  · rintro ⟨hy, rfl⟩
    exact ⟨y⁻¹, ⟨hy, rfl⟩, (div_eq_mul_inv x y).symm⟩
  · rintro ⟨_, ⟨hy, rfl⟩, rfl⟩
    exact ⟨hy, (div_eq_mul_inv x y).symm⟩

/-- A function means the same in trees and terms if the inverse cotangents agree. -/
theorem toOption_apply_function {arccot : ℝ → ℝ} {op : Op} (h : op.isFunction) {x y : ℝ}
    (harccot : op = .arcctg → arccot y = continuousArccot y) :
    (op.apply x y).toOption = function? arccot op y := by
  have hint (n : Int) : (Scalar.ofInt n : ℝ) = n := rfl
  have hbetween : (Scalar.le (Scalar.ofInt (-1)) y && Scalar.le y (Scalar.ofInt 1)) = true ↔
      -1 ≤ y ∧ y ≤ 1 := by
    rw [Bool.and_eq_true, ExactScalar.le_iff, ExactScalar.le_iff, hint, hint, Int.cast_neg,
      Int.cast_one]
  cases op with
  | add | sub | mul | div | pow => cases h
  | ln => exact toOption_guard (by rw [ExactScalar.le_iff, hint, Int.cast_zero, not_lt])
  | sqrt => exact toOption_guard (by rw [ExactScalar.lt_iff, hint, Int.cast_zero, not_le])
  | cos | sin | arctg => rfl
  | tg => exact toOption_guard (by rw [ExactScalar.eq_iff, hint, Int.cast_zero, not_ne_iff]; rfl)
  | ctg =>
    rw [function?, Real.cot_eq_cos_div_sin]
    exact toOption_guard (by rw [ExactScalar.eq_iff, hint, Int.cast_zero, not_ne_iff]; rfl)
  | arcsin | arccos =>
    simp only [Op.apply, function?, hbetween]
    split <;> rfl
  | arcctg => exact congrArg some (harccot rfl).symm

end AlgebraTerm

end

end FormulaCalculus
