import FormulaCalculus.Proofs.Double.NotANumber

/-!
# Operators on doubles, one by one and in batches

Evaluation refuses what lies outside the domain of an operator, a batch gives NaN there. The guards
are written the other way round, and the powers are computed differently. `Op.alike_applyTotal`: a
batch has a value like that of evaluation wherever there is one; `Op.isNaN_applyTotal_of_error` and
the two statements after it: a batch has NaN where evaluation refuses and keeps it, but for a few
powers.
-/

namespace FormulaCalculus

open Double

/-! ### What is asked of the elementary functions -/

/-- Whether a power is defined: zero gets no negative exponent and a negative base no fraction. -/
def powDefined (x y : Float) : Bool :=
  !(x == 0 && Float.lt y 0) && !(Float.lt x 0 && !isWholeDouble y)

/-- Whether arcsin and arccos are defined. -/
def inUnitRange (x : Float) : Bool :=
  Float.le (-1) x && Float.le x 1

/-- Inside its domain each function takes alike arguments to alike values. -/
structure Elementary.Respectful [Elementary] : Prop where
  alike_pow {x x' y y' : Float} : powDefined x y → Alike x x' → Alike y y' →
    Alike (pow x y) (pow x' y')
  alike_ln {x x' : Float} : Float.le x 0 = false → Alike x x' → Alike (ln x) (ln x')
  alike_cos {x x' : Float} : Alike x x' → Alike (cos x) (cos x')
  alike_sin {x x' : Float} : Alike x x' → Alike (sin x) (sin x')
  alike_tan {x x' : Float} : (cos x == 0) = false → Alike x x' → Alike (tan x) (tan x')
  alike_arcsin {x x' : Float} : inUnitRange x → Alike x x' → Alike (arcsin x) (arcsin x')
  alike_arccos {x x' : Float} : inUnitRange x → Alike x x' → Alike (arccos x) (arccos x')
  alike_arctan {x x' : Float} : Alike x x' → Alike (arctan x) (arctan x')

/-- The two ways to compute a power have alike values as well, and the logarithm of NaN is NaN. -/
structure Elementary.Consistent [Elementary] : Prop extends Elementary.Respectful where
  alike_powDouble (x y : Float) : powDefined x y → Alike (powDouble x y) (pow x y)
  isNaN_ln (x : Float) : x.isNaN → (ln x).isNaN

/-- NaN goes through the functions, and through powers but for the exponent 0 and the base 1. -/
structure Elementary.KeepsNaN [Elementary] : Prop where
  isNaN_pow_left {x y : Float} : x.isNaN → (y == 0) = false → (pow x y).isNaN
  isNaN_pow_right {x y : Float} : y.isNaN → (x == 1) = false → (pow x y).isNaN
  isNaN_cos (x : Float) : x.isNaN → (cos x).isNaN
  isNaN_sin (x : Float) : x.isNaN → (sin x).isNaN
  isNaN_tan (x : Float) : x.isNaN → (tan x).isNaN
  isNaN_arctan (x : Float) : x.isNaN → (arctan x).isNaN

/-- The operands for which a power in a batch is a number although one of them is NaN or evaluation
refuses it. -/
def powHides (x y : Float) : Prop :=
  (x.isNaN ∧ y == 0) ∨ (x == 1 ∧ y.isNaN) ∨ (Float.lt x 0 ∧ y.isInf)

instance (x y : Float) : Decidable (powHides x y) :=
  inferInstanceAs (Decidable (_ ∨ _ ∨ _))

/-! ### The guards -/

theorem doubleOfInt_zero : doubleOfInt 0 = 0 :=
  rfl

theorem doubleOfInt_one : doubleOfInt 1 = 1 :=
  rfl

theorem doubleOfInt_neg_one : doubleOfInt (-1) = -1 :=
  rfl

namespace Op

variable [Elementary] {x x' y y' v : Float}

theorem apply_div_eq : div.apply x y = if y == 0 then .error .divisionByZero else .ok (x / y) := by
  show (if Float.beq y (doubleOfInt 0) then _ else _) = _
  rw [doubleOfInt_zero]
  rfl

theorem apply_pow_eq : pow.apply x y =
    if x == 0 && Float.lt y 0 then .error .zeroToNegativePower
    else if Float.lt x 0 && !isWholeDouble y then .error .negativeToFraction
    else .ok (powDouble x y) := by
  show (if Float.beq x (doubleOfInt 0) && Float.lt y (doubleOfInt 0) then _
    else if Float.lt x (doubleOfInt 0) && _ then _ else _) = _
  rw [doubleOfInt_zero]
  rfl

theorem apply_ln_eq : ln.apply x y =
    if Float.le y 0 then .error .logOfNonPositive else .ok (Elementary.ln y) := by
  show (if Float.le y (doubleOfInt 0) then _ else _) = _
  rw [doubleOfInt_zero]
  rfl

theorem apply_sqrt_eq : sqrt.apply x y =
    if Float.lt y 0 then .error .rootOfNegative else .ok y.sqrt := by
  show (if Float.lt y (doubleOfInt 0) then _ else _) = _
  rw [doubleOfInt_zero]
  rfl

theorem apply_tg_eq : tg.apply x y =
    if Elementary.cos y == 0 then .error .tangentPole else .ok (Elementary.tan y) := by
  show (if Float.beq (Elementary.cos y) (doubleOfInt 0) then _ else _) = _
  rw [doubleOfInt_zero]
  rfl

theorem apply_ctg_eq : ctg.apply x y =
    if Elementary.sin y == 0 then .error .cotangentPole
    else .ok (Elementary.cos y / Elementary.sin y) := by
  show (if Float.beq (Elementary.sin y) (doubleOfInt 0) then _ else _) = _
  rw [doubleOfInt_zero]
  rfl

theorem apply_arcsin_eq : arcsin.apply x y =
    if inUnitRange y then .ok (Elementary.arcsin y) else .error .arcsinOutside := by
  show (if Float.le (doubleOfInt (-1)) y && Float.le y (doubleOfInt 1) then _ else _) = _
  rw [doubleOfInt_neg_one, doubleOfInt_one]
  rfl

theorem apply_arccos_eq : arccos.apply x y =
    if inUnitRange y then .ok (Elementary.arccos y) else .error .arccosOutside := by
  show (if Float.le (doubleOfInt (-1)) y && Float.le y (doubleOfInt 1) then _ else _) = _
  rw [doubleOfInt_neg_one, doubleOfInt_one]
  rfl

theorem applyTotal_pow_eq : pow.applyTotal x y =
    if x == 0 && Float.lt y 0 then 0 / 0
    else if Float.lt x 0 && !(isWholeDouble y || y.isInf) then 0 / 0
    else Elementary.pow x y := by
  have h : ∀ a b : Float, decide (a < b) = Float.lt a b := fun a b => Bool.decide_eq_true
  rw [applyTotal, h, h]

theorem applyTotal_arcsin_eq : arcsin.applyTotal x y =
    if inUnitRange y then Elementary.arcsin y else 0 / 0 := by
  have h : ∀ a b : Float, decide (a ≤ b) = Float.le a b := fun a b => Bool.decide_eq_true
  rw [applyTotal, h, h]
  rfl

theorem applyTotal_arccos_eq : arccos.applyTotal x y =
    if inUnitRange y then Elementary.arccos y else 0 / 0 := by
  have h : ∀ a b : Float, decide (a ≤ b) = Float.le a b := fun a b => Bool.decide_eq_true
  rw [applyTotal, h, h]
  rfl

/-! ### Agreement -/

omit [Elementary] in
theorem inUnitRange_eq (h : Alike x x') : inUnitRange x = inUnitRange x' := by
  rw [inUnitRange, inUnitRange, (Alike.refl (-1)).le_eq h, h.le_eq (.refl 1)]

/-- Where evaluation has a value, a batch has one like it. -/
theorem alike_applyTotal (hE : Elementary.Consistent) {op : Op} (hx : Alike x x')
    (hy : Alike y y') (h : op.apply x y = .ok v) : Alike v (op.applyTotal x' y') := by
  cases op with
  | add => cases h; exact hx.add hy
  | sub => cases h; exact hx.sub hy
  | mul => cases h; exact hx.mul hy
  | div =>
    rw [apply_div_eq] at h
    split at h
    · cases h
    · rename_i hzero
      cases h
      rw [applyTotal, ← hy.beq_eq (.refl 0), if_neg hzero]
      exact hx.div hy (Bool.eq_false_iff.2 hzero)
  | pow =>
    rw [apply_pow_eq] at h
    split at h
    · cases h
    · split at h
      · cases h
      · rename_i hpole hfraction
        cases h
        have hdefined : powDefined x y := by simp [powDefined, hpole, hfraction]
        -- an exponent that evaluation finds whole is not a fraction for a batch either
        have hguard : ¬ (Float.lt x' 0 && !(isWholeDouble y' || y'.isInf)) = true := by
          rw [← hx.lt_eq (.refl 0), ← hy.isWholeDouble_eq]
          intro hguard
          exact hfraction (by simp_all)
        rw [applyTotal_pow_eq, ← hx.beq_eq (.refl 0), ← hy.lt_eq (.refl 0), if_neg hpole,
          if_neg hguard]
        exact (hE.alike_powDouble x y hdefined).trans (hE.alike_pow hdefined hx hy)
  | ln =>
    rw [apply_ln_eq] at h
    split at h
    · cases h
    · rename_i hle
      cases h
      rw [Bool.not_eq_true] at hle
      -- the two guards part at NaN, where either side is NaN
      show Alike _ (if Float.lt 0 y' then _ else _)
      rcases lt_or_isNaN_of_le_eq_false hle with hpos | hnan
      · rw [(Alike.refl 0).lt_eq hy] at hpos
        rw [if_pos hpos]
        exact hE.alike_ln hle hy
      · rw [lt_eq_false_of_isNaN_right (hy.isNaN_eq ▸ hnan), if_neg Bool.false_ne_true]
        exact .of_isNaN (hE.isNaN_ln y hnan) rfl
  | sqrt =>
    rw [apply_sqrt_eq] at h
    split at h
    · cases h
    · rename_i hlt
      cases h
      rw [Bool.not_eq_true] at hlt
      show Alike _ (if Float.le 0 y' then _ else _)
      rcases le_or_isNaN_of_lt_eq_false hlt with hnonneg | hnan
      · rw [(Alike.refl 0).le_eq hy] at hnonneg
        rw [if_pos hnonneg]
        exact hy.sqrt
      · rw [le_eq_false_of_isNaN_right (hy.isNaN_eq ▸ hnan), if_neg Bool.false_ne_true]
        exact .of_isNaN (isNaN_sqrt hnan) rfl
  | cos => cases h; exact hE.alike_cos hy
  | sin => cases h; exact hE.alike_sin hy
  | tg =>
    rw [apply_tg_eq] at h
    split at h
    · cases h
    · rename_i hpole
      cases h
      rw [applyTotal, ← (hE.alike_cos hy).beq_eq (.refl 0), if_neg hpole]
      exact hE.alike_tan (Bool.eq_false_iff.2 hpole) hy
  | ctg =>
    rw [apply_ctg_eq] at h
    split at h
    · cases h
    · rename_i hpole
      cases h
      rw [applyTotal, ← (hE.alike_sin hy).beq_eq (.refl 0), if_neg hpole]
      exact (hE.alike_cos hy).div (hE.alike_sin hy) (Bool.eq_false_iff.2 hpole)
  | arcsin =>
    rw [apply_arcsin_eq] at h
    split at h
    · rename_i hrange
      cases h
      rw [applyTotal_arcsin_eq, ← inUnitRange_eq hy, if_pos hrange]
      exact hE.alike_arcsin hrange hy
    · cases h
  | arccos =>
    rw [apply_arccos_eq] at h
    split at h
    · rename_i hrange
      cases h
      rw [applyTotal_arccos_eq, ← inUnitRange_eq hy, if_pos hrange]
      exact hE.alike_arccos hrange hy
    · cases h
  | arctg => cases h; exact hE.alike_arctan hy
  | arcctg => cases h; exact (Alike.refl _).sub (hE.alike_arctan hy)

/-- Where an operator is refused, a batch has NaN, unless the exponent is infinite: evaluation
counts it as a fraction and a batch does not. -/
theorem isNaN_applyTotal_of_error (hE : Elementary.Consistent) {op : Op} {f : DomainFault}
    (hx : Alike x x') (hy : Alike y y') (hpow : ¬ (op = pow ∧ powHides x' y'))
    (h : op.apply x y = .error f) : (op.applyTotal x' y').isNaN := by
  cases op with
  | div =>
    rw [apply_div_eq] at h
    split at h
    · rename_i hzero
      rw [applyTotal, ← hy.beq_eq (.refl 0), if_pos hzero]
      rfl
    · cases h
  | pow =>
    rw [apply_pow_eq, hx.beq_eq (.refl 0), hy.lt_eq (.refl 0), hx.lt_eq (.refl 0),
      hy.isWholeDouble_eq] at h
    rw [applyTotal_pow_eq]
    split at h
    · rename_i hpole
      rw [if_pos hpole]
      rfl
    · rename_i hpole
      split at h
      · rename_i hfraction
        have hguard : Float.lt x' 0 && !(isWholeDouble y' || y'.isInf) := by
          rw [Bool.and_eq_true] at hfraction
          have hy' : y'.isInf = false :=
            Bool.eq_false_iff.2 fun h => hpow ⟨rfl, .inr (.inr ⟨hfraction.1, h⟩)⟩
          rw [hy', Bool.or_false, hfraction.1, hfraction.2]
          rfl
        rw [if_neg hpole, if_pos hguard]
        rfl
      · cases h
  | ln =>
    rw [apply_ln_eq] at h
    split at h
    · rename_i hle
      have hpos : Float.lt 0 y' = false := by
        rw [← (Alike.refl 0).lt_eq hy]
        exact lt_eq_false_of_le hle
      show (if Float.lt 0 y' then Elementary.ln y' else 0 / 0).isNaN
      rw [hpos, if_neg Bool.false_ne_true]
      rfl
    · cases h
  | sqrt =>
    rw [apply_sqrt_eq] at h
    split at h
    · rename_i hlt
      have hnonneg : Float.le 0 y' = false := by
        rw [← (Alike.refl 0).le_eq hy]
        exact le_eq_false_of_lt hlt
      show (if Float.le 0 y' then y'.sqrt else 0 / 0).isNaN
      rw [hnonneg, if_neg Bool.false_ne_true]
      rfl
    · cases h
  | tg =>
    rw [apply_tg_eq] at h
    split at h
    · rename_i hpole
      rw [applyTotal, ← (hE.alike_cos hy).beq_eq (.refl 0), if_pos hpole]
      rfl
    · cases h
  | ctg =>
    rw [apply_ctg_eq] at h
    split at h
    · rename_i hpole
      rw [applyTotal, ← (hE.alike_sin hy).beq_eq (.refl 0), if_pos hpole]
      rfl
    · cases h
  | arcsin =>
    rw [apply_arcsin_eq, inUnitRange_eq hy] at h
    split at h
    · cases h
    · rename_i hrange
      rw [applyTotal_arcsin_eq, if_neg hrange]
      rfl
  | arccos =>
    rw [apply_arccos_eq, inUnitRange_eq hy] at h
    split at h
    · cases h
    · rename_i hrange
      rw [applyTotal_arccos_eq, if_neg hrange]
      rfl
  | _ => cases h

/-- A batch keeps NaN, unless a power hides it. -/
theorem isNaN_applyTotal_binary (hE : Elementary.KeepsNaN) {op : Op} (hb : op.isBinary)
    (hpow : ¬ (op = pow ∧ powHides x y)) (h : x.isNaN ∨ y.isNaN) : (op.applyTotal x y).isNaN := by
  cases op with
  | add => exact isNaN_add h
  | sub => exact isNaN_sub h
  | mul => exact isNaN_mul h
  | div =>
    rw [applyTotal]
    split
    · rfl
    · exact isNaN_div h
  | pow =>
    rw [applyTotal_pow_eq]
    split
    · rfl
    split
    · rfl
    rcases h with hx | hy
    · refine hE.isNaN_pow_left hx (Bool.eq_false_iff.2 fun hy => ?_)
      exact hpow ⟨rfl, .inl ⟨hx, hy⟩⟩
    · refine hE.isNaN_pow_right hy (Bool.eq_false_iff.2 fun hx => ?_)
      exact hpow ⟨rfl, .inr (.inl ⟨hx, hy⟩)⟩
  | _ => cases hb

theorem isNaN_applyTotal_function (hE : Elementary.KeepsNaN) {op : Op} (hf : op.isFunction)
    (h : y.isNaN) : (op.applyTotal x y).isNaN := by
  have hrange : inUnitRange y = false := by
    rw [inUnitRange, le_eq_false_of_isNaN_right h, Bool.false_and]
  cases op with
  | ln =>
    show (if Float.lt 0 y then Elementary.ln y else 0 / 0).isNaN
    rw [lt_eq_false_of_isNaN_right h, if_neg Bool.false_ne_true]
    rfl
  | sqrt =>
    show (if Float.le 0 y then y.sqrt else 0 / 0).isNaN
    rw [le_eq_false_of_isNaN_right h, if_neg Bool.false_ne_true]
    rfl
  | cos => exact hE.isNaN_cos y h
  | sin => exact hE.isNaN_sin y h
  | tg =>
    rw [applyTotal]
    split
    · rfl
    · exact hE.isNaN_tan y h
  | ctg =>
    rw [applyTotal]
    split
    · rfl
    · exact isNaN_div (.inl (hE.isNaN_cos y h))
  | arcsin => rw [applyTotal_arcsin_eq, hrange, if_neg Bool.false_ne_true]; rfl
  | arccos => rw [applyTotal_arccos_eq, hrange, if_neg Bool.false_ne_true]; rfl
  | arctg => exact hE.isNaN_arctan y h
  | arcctg => exact isNaN_sub (.inr (hE.isNaN_arctan y h))
  | _ => cases hf

end Op

/-! ### Simple elementary functions -/

/-- A power that is right for the exponents -1, 0, 1/2, 1 and 2 and for the base 1. The root of a
zero is 0 whatever the sign of the zero. -/
def simplePow (x y : Float) : Float :=
  if y == -1 then 1 / x
  else if y == 0.5 then (if x == 0 then 0 else x.sqrt)
  else if y == 2 then x * x
  else if y == 0 then 1
  else if x == 1 then 1
  else x * y

/-- Functions that are right at the zeros and keep NaN. -/
@[reducible]
def Elementary.simple : Elementary where
  pow := simplePow
  ln x := x - 1
  cos x := 1 + x * 0
  sin x := x
  tan x := x
  arcsin x := x
  arccos x := 1.5707963267948966 - x
  arctan x := x

section Simple

variable {x x' y y' : Float}

theorem alike_sqrt_of_eq_zero (h : x == 0) : Alike x.sqrt 0 := by
  have hx : Alike x 0 := .inl h
  have hroot : Float.sqrt 0 = 0 := rfl
  exact hroot ▸ hx.sqrt

theorem alike_powDouble_simplePow (x y : Float) :
    Alike (@powDouble .simple x y) (simplePow x y) := by
  unfold powDouble
  split
  · rename_i hy
    rw [simplePow, if_pos hy]
    exact .refl _
  rename_i h1
  split
  · rename_i hy
    rw [simplePow, if_neg h1, if_pos hy]
    split
    · rename_i hx
      exact alike_sqrt_of_eq_zero hx
    · exact .refl _
  rename_i h2
  split
  · rename_i hy
    rw [simplePow, if_neg h1, if_neg h2, if_pos hy]
    exact .refl _
  · exact .refl _

/-- The exponent -1 is refused at zero. -/
theorem ne_zero_of_powDefined (h : powDefined x y) (hy : y == -1) : (x == 0) = false := by
  have halike : Alike y (-1) := .inl hy
  have hneg : Float.lt y 0 = true := by
    rw [halike.lt_eq (.refl 0)]
    rfl
  rw [powDefined, hneg, Bool.and_true] at h
  cases hx : x == 0 with
  | false => rfl
  | true => rw [hx] at h; cases h

theorem alike_simplePow (hdefined : powDefined x y) (hx : Alike x x') (hy : Alike y y') :
    Alike (simplePow x y) (simplePow x' y') := by
  unfold simplePow
  rw [← hy.beq_eq (.refl (-1)), ← hy.beq_eq (.refl 0.5), ← hy.beq_eq (.refl 2),
    ← hy.beq_eq (.refl 0), ← hx.beq_eq (.refl 0), ← hx.beq_eq (.refl 1)]
  split
  · rename_i hminus
    exact (Alike.refl 1).div hx (ne_zero_of_powDefined hdefined hminus)
  split
  · split
    · exact .refl _
    · exact hx.sqrt
  split
  · exact hx.mul hx
  split
  · exact .refl _
  split
  · exact .refl _
  · exact hx.mul hy

theorem isNaN_simplePow_left (hx : x.isNaN) (hy : (y == 0) = false) : (simplePow x y).isNaN := by
  have hzero := beq_eq_false_of_isNaN hx 0
  have hone := beq_eq_false_of_isNaN hx 1
  unfold simplePow
  rw [hzero, hone, hy]
  split
  · exact isNaN_div (.inr hx)
  split
  · exact isNaN_sqrt hx
  split
  · exact isNaN_mul (.inl hx)
  · exact isNaN_mul (.inl hx)

theorem isNaN_simplePow_right (hy : y.isNaN) (hx : (x == 1) = false) : (simplePow x y).isNaN := by
  unfold simplePow
  rw [beq_eq_false_of_isNaN hy, beq_eq_false_of_isNaN hy, beq_eq_false_of_isNaN hy,
    beq_eq_false_of_isNaN hy, hx]
  exact isNaN_mul (.inr hy)

theorem Elementary.consistent_simple : @Consistent simple :=
  letI := simple
  { alike_powDouble := fun x y _ => alike_powDouble_simplePow x y
    alike_pow := alike_simplePow
    alike_ln := fun _ h => h.sub (.refl 1)
    isNaN_ln := fun _ h => isNaN_sub (.inl h)
    alike_cos := fun h => (Alike.refl 1).add (h.mul (.refl 0))
    alike_sin := fun h => h
    alike_tan := fun _ h => h
    alike_arcsin := fun _ h => h
    alike_arccos := fun _ h => (Alike.refl _).sub h
    alike_arctan := fun h => h }

theorem Elementary.keepsNaN_simple : @KeepsNaN simple :=
  letI := simple
  { isNaN_pow_left := isNaN_simplePow_left
    isNaN_pow_right := isNaN_simplePow_right
    isNaN_cos := fun _ h => isNaN_add (.inr (isNaN_mul (.inl h)))
    isNaN_sin := fun _ h => h
    isNaN_tan := fun _ h => h
    isNaN_arctan := fun _ h => h }

end Simple

end FormulaCalculus
