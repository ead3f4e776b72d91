import FormulaCalculus.Proofs.Batch.Operators

/-!
# Operators on equal operands

Doubles that are equal can still differ in the sign of a zero. No operator tells the two zeros
apart: on alike operands it has alike values, or the same fault.
-/

namespace FormulaCalculus

open Double

/-! ### Results that agree -/

/-- Values in the relation `R`, or the same fault. -/
inductive Agree {φ β γ : Type} (R : β → γ → Prop) : Except φ β → Except φ γ → Prop
  | ok {x : β} {y : γ} (h : R x y) : Agree R (.ok x) (.ok y)
  | error (fault : φ) : Agree R (.error fault) (.error fault)

namespace Agree

variable {φ ψ β β' γ γ' : Type} {R : β → γ → Prop} {S : β' → γ' → Prop} {x : Except φ β}
  {y : Except φ γ}

theorem bind {f : β → Except φ β'} {g : γ → Except φ γ'} (h : Agree R x y)
    (hf : ∀ a b, R a b → Agree S (f a) (g b)) : Agree S (x >>= f) (y >>= g) := by
  cases h with
  | ok h => exact hf _ _ h
  | error fault => exact .error fault

theorem map {f : β → β'} {g : γ → γ'} (h : Agree R x y) (hf : ∀ a b, R a b → S (f a) (g b)) :
    Agree S (f <$> x) (g <$> y) := by
  cases h with
  | ok h => exact .ok (hf _ _ h)
  | error fault => exact .error fault

theorem mapError (h : Agree R x y) (f : φ → ψ) : Agree R (x.mapError f) (y.mapError f) := by
  cases h with
  | ok h => exact .ok h
  | error fault => exact .error _

end Agree

/-! ### Powers and operators -/

variable [Elementary] {x x' y y' : Float}

theorem alike_powDouble (hE : Elementary.Respectful) (h : powDefined x y) (hx : Alike x x')
    (hy : Alike y y') : Alike (powDouble x y) (powDouble x' y') := by
  unfold powDouble
  rw [← hy.beq_eq (.refl (-1)), ← hy.beq_eq (.refl 0.5), ← hy.beq_eq (.refl 2)]
  split
  · rename_i hminus
    exact (Alike.refl 1).div hx (ne_zero_of_powDefined h hminus)
  split
  · exact hx.sqrt
  split
  · exact hx.mul hx
  · exact hE.alike_pow h hx hy

namespace Op

/-- On alike operands an operator has alike values, or is refused for the same reason. -/
theorem agree_apply (hE : Elementary.Respectful) (op : Op) (hx : Alike x x') (hy : Alike y y') :
    Agree Alike (op.apply x y) (op.apply x' y') := by
  cases op with
  | add => exact .ok (hx.add hy)
  | sub => exact .ok (hx.sub hy)
  | mul => exact .ok (hx.mul hy)
  | div =>
    rw [apply_div_eq, apply_div_eq, ← hy.beq_eq (.refl 0)]
    split
    · exact .error _
    · rename_i hzero
      exact .ok (hx.div hy (Bool.eq_false_iff.2 hzero))
  | pow =>
    rw [apply_pow_eq, apply_pow_eq, ← hx.beq_eq (.refl 0), ← hy.lt_eq (.refl 0),
      ← hx.lt_eq (.refl 0), ← hy.isWholeDouble_eq]
    split
    · exact .error _
    split
    · exact .error _
    · rename_i hpole hfraction
      exact .ok (alike_powDouble hE (by simp [powDefined, hpole, hfraction]) hx hy)
  | ln =>
    rw [apply_ln_eq, apply_ln_eq, ← hy.le_eq (.refl 0)]
    split
    · exact .error _
    · rename_i hle
      exact .ok (hE.alike_ln (Bool.eq_false_iff.2 hle) hy)
  | sqrt =>
    rw [apply_sqrt_eq, apply_sqrt_eq, ← hy.lt_eq (.refl 0)]
    split
    · exact .error _
    · exact .ok hy.sqrt
  | cos => exact .ok (hE.alike_cos hy)
  | sin => exact .ok (hE.alike_sin hy)
  | tg =>
    rw [apply_tg_eq, apply_tg_eq, ← (hE.alike_cos hy).beq_eq (.refl 0)]
    split
    · exact .error _
    · rename_i hpole
      exact .ok (hE.alike_tan (Bool.eq_false_iff.2 hpole) hy)
  | ctg =>
    rw [apply_ctg_eq, apply_ctg_eq, ← (hE.alike_sin hy).beq_eq (.refl 0)]
    split
    · exact .error _
    · rename_i hpole
      exact .ok ((hE.alike_cos hy).div (hE.alike_sin hy) (Bool.eq_false_iff.2 hpole))
  | arcsin =>
    rw [apply_arcsin_eq, apply_arcsin_eq, ← inUnitRange_eq hy]
    split
    · rename_i hrange
      exact .ok (hE.alike_arcsin hrange hy)
    · exact .error _
  | arccos =>
    rw [apply_arccos_eq, apply_arccos_eq, ← inUnitRange_eq hy]
    split
    · rename_i hrange
      exact .ok (hE.alike_arccos hrange hy)
    · exact .error _
  | arctg => exact .ok (hE.alike_arctan hy)
  | arcctg => exact .ok ((Alike.refl _).sub (hE.alike_arctan hy))

end Op

end FormulaCalculus
