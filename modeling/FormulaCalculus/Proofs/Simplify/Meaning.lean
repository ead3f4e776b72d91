import FormulaCalculus.Proofs.Exact
import FormulaCalculus.Proofs.Simplify.FixedPoint

/-!
# Simplification preserves values

In exact arithmetic and at the tolerance 0, a simplified tree has the value of the tree wherever
that has one, but for the points at which a power of zero to zero occurs: `0^e` is replaced by 0
without a look at `e`. The other identities that drop an operand drop one that has a value.
-/

namespace FormulaCalculus

open ExactScalar

section

variable {α : Type} [Scalar α]

theorem Code.apply_eq_ok {c : Code} {op : Op} {x y v : α} (hc : c.op? = some op) :
    c.apply x y = .ok v ↔ op.apply x y = .ok v := by
  simp only [apply, hc]
  refine ⟨Tree.ok_of_mapError, fun h => ?_⟩
  rw [h]
  rfl

namespace Tree

variable {values : List α} {v : α}

theorem evaluate_binary_eq_ok {c : Code} {l r : Tree α}
    (h : (binary c l r).evaluate values = .ok v) :
    ∃ x y, l.evaluate values = .ok x ∧ r.evaluate values = .ok y ∧ c.apply x y = .ok v := by
  simp only [evaluate] at h
  cases hl : l.evaluate values with
  | error fault => rw [hl] at h; cases h
  | ok x =>
    cases hr : r.evaluate values with
    | error fault => rw [hl, hr] at h; cases h
    | ok y => rw [hl, hr] at h; exact ⟨x, y, rfl, rfl, h⟩

theorem evaluate_binary {c : Code} {l r : Tree α} {x y : α} (hl : l.evaluate values = .ok x)
    (hr : r.evaluate values = .ok y) : (binary c l r).evaluate values = c.apply x y := by
  simp only [evaluate, hl, hr]
  rfl

theorem evaluate_call_eq_ok {c : Code} {t : Tree α} (h : (call c t).evaluate values = .ok v) :
    ∃ y, t.evaluate values = .ok y ∧ c.apply Scalar.absent y = .ok v := by
  simp only [evaluate] at h
  cases ht : t.evaluate values with
  | error fault => rw [ht] at h; cases h
  | ok y => rw [ht] at h; exact ⟨y, rfl, h⟩

theorem evaluate_call {c : Code} {t : Tree α} {y : α} (ht : t.evaluate values = .ok y) :
    (call c t).evaluate values = c.apply Scalar.absent y := by
  simp only [evaluate, ht]
  rfl

theorem evaluate_num_eq {x z : α} (h : (num z).evaluate values = .ok x) : z = x := by
  cases h; rfl

/-- No power in the tree has both the base 0 and the exponent 0. -/
def AvoidsZeroToZero [Zero α] (values : List α) : Tree α → Prop
  | binary c l r => l.AvoidsZeroToZero values ∧ r.AvoidsZeroToZero values ∧
      ¬ (c.op? = some .pow ∧ l.evaluate values = .ok 0 ∧ r.evaluate values = .ok 0)
  | call _ x => x.AvoidsZeroToZero values
  | _ => True

end Tree

end

namespace Tree

variable {α : Type} [Field α] [LinearOrder α] [Scalar α] [ExactScalar α] {values : List α}
  {v x y : α}

theorem eq_of_isNear_zero {c : Int} (h : (num x).isNear 0 c) : x = c := by
  simp only [isNear] at h
  rw [if_pos ((eq_iff (0 : α) _).2 ofInt_zero.symm), ofInt_eq] at h
  exact (eq_iff x c).1 h

theorem eq_of_isExactly {c : Int} (h : (num x).isExactly c) : x = c := by
  simp only [isExactly, ofInt_eq] at h
  exact (eq_iff x c).1 h

theorem evaluate_int (n : Int) : (int n : Tree α).evaluate values = .ok n := by
  rw [int, evaluate, ofInt_eq]

/-- An identity keeps the value of the node that it replaces. -/
theorem evaluate_of_rewrite [IsStrictOrderedRing α] (hpow : PowerLaws α) {op : Op} {l r t : Tree α}
    (h : Rewrite 0 op l r t) (hl : l.evaluate values = .ok x) (hr : r.evaluate values = .ok y)
    (hv : op.apply x y = .ok v) (hz : ¬ (op = .pow ∧ x = 0 ∧ y = 0)) :
    t.evaluate values = .ok v := by
  cases h with
  | zero_add _ h =>
    obtain rfl := evaluate_num_eq hl
    obtain rfl := Op.apply_add_eq_ok.1 hv
    rw [hr, eq_of_isNear_zero h, Int.cast_zero, zero_add]
  | add_zero _ h =>
    obtain rfl := evaluate_num_eq hr
    obtain rfl := Op.apply_add_eq_ok.1 hv
    rw [hl, eq_of_isNear_zero h, Int.cast_zero, add_zero]
  | add_self i =>
    obtain rfl : x = y := Except.ok.inj (hl.symm.trans hr)
    obtain rfl := Op.apply_add_eq_ok.1 hv
    rw [mul, evaluate_binary (evaluate_int 2) hl, Code.apply_eq_ok rfl, Op.apply_mul_eq_ok,
      Int.cast_ofNat, two_mul]
  | zero_sub _ h =>
    obtain rfl := evaluate_num_eq hl
    obtain rfl := Op.apply_sub_eq_ok.1 hv
    rw [mul, evaluate_binary (evaluate_int (-1)) hr, Code.apply_eq_ok rfl, Op.apply_mul_eq_ok,
      eq_of_isNear_zero h, Int.cast_zero, zero_sub, Int.cast_neg, Int.cast_one, neg_one_mul]
  | sub_zero _ h =>
    obtain rfl := evaluate_num_eq hr
    obtain rfl := Op.apply_sub_eq_ok.1 hv
    rw [hl, eq_of_isNear_zero h, Int.cast_zero, sub_zero]
  | sub_self i =>
    obtain rfl : x = y := Except.ok.inj (hl.symm.trans hr)
    obtain rfl := Op.apply_sub_eq_ok.1 hv
    rw [evaluate_int, Int.cast_zero, sub_self]
  | zero_mul _ h =>
    obtain rfl := evaluate_num_eq hl
    obtain rfl := Op.apply_mul_eq_ok.1 hv
    rw [evaluate_int, eq_of_isNear_zero h, Int.cast_zero, zero_mul]
  | mul_zero _ h =>
    obtain rfl := evaluate_num_eq hr
    obtain rfl := Op.apply_mul_eq_ok.1 hv
    rw [evaluate_int, eq_of_isNear_zero h, Int.cast_zero, mul_zero]
  | one_mul _ h =>
    obtain rfl := evaluate_num_eq hl
    obtain rfl := Op.apply_mul_eq_ok.1 hv
    rw [hr, eq_of_isNear_zero h, Int.cast_one, one_mul]
  | mul_one _ h =>
    obtain rfl := evaluate_num_eq hr
    obtain rfl := Op.apply_mul_eq_ok.1 hv
    rw [hl, eq_of_isNear_zero h, Int.cast_one, mul_one]
  | mul_self i =>
    obtain rfl : x = y := Except.ok.inj (hl.symm.trans hr)
    obtain rfl := Op.apply_mul_eq_ok.1 hv
    rw [pow, evaluate_binary hl (evaluate_int 2), Code.apply_eq_ok rfl, Op.apply_pow_eq_ok]
    refine ⟨fun h => absurd h.2 (not_lt.2 (by norm_num)), fun _ => ⟨2, rfl⟩, ?_⟩
    rw [Int.cast_ofNat, hpow.pow_two]
  | zero_div _ h =>
    obtain rfl := evaluate_num_eq hl
    obtain ⟨-, rfl⟩ := Op.apply_div_eq_ok.1 hv
    rw [evaluate_int, eq_of_isNear_zero h, Int.cast_zero, zero_div]
  | div_one _ h =>
    obtain rfl := evaluate_num_eq hr
    obtain ⟨-, rfl⟩ := Op.apply_div_eq_ok.1 hv
    rw [hl, eq_of_isNear_zero h, Int.cast_one, div_one]
  | div_self i =>
    obtain rfl : x = y := Except.ok.inj (hl.symm.trans hr)
    obtain ⟨hx, rfl⟩ := Op.apply_div_eq_ok.1 hv
    rw [evaluate_int, Int.cast_one, div_self hx]
  | pow_one _ h =>
    obtain rfl := evaluate_num_eq hr
    obtain ⟨-, -, rfl⟩ := Op.apply_pow_eq_ok.1 hv
    rw [hl, eq_of_isExactly h, Int.cast_one, hpow.pow_one]
  | one_pow _ h =>
    obtain rfl := evaluate_num_eq hl
    obtain ⟨-, -, rfl⟩ := Op.apply_pow_eq_ok.1 hv
    rw [evaluate_int, eq_of_isExactly h, Int.cast_one, hpow.one_pow]
  | zero_pow _ h =>
    obtain rfl := evaluate_num_eq hl
    obtain ⟨hpole, -, rfl⟩ := Op.apply_pow_eq_ok.1 hv
    have hx := eq_of_isExactly h
    rw [Int.cast_zero] at hx
    -- the exponent is not negative, since the power has a value, and not zero by assumption
    have hy : 0 < y := by
      rcases lt_trichotomy y 0 with hy | hy | hy
      · exact absurd ⟨hx, hy⟩ hpole
      · exact absurd ⟨rfl, hx, hy⟩ hz
      · exact hy
    rw [evaluate_int, hx, Int.cast_zero, hpow.zero_pow y hy]

/-- A pass keeps the value of a tree. -/
theorem evaluate_simplifyPass [IsStrictOrderedRing α] (hpow : PowerLaws α) {t : Tree α}
    {o : Option (Tree α)} (h : (simplifyPass 0 t).outcome = .ok o)
    (hv : t.evaluate values = .ok v) (hz : t.AvoidsZeroToZero values) :
    (simplifyPass 0 t).tree.evaluate values = .ok v := by
  induction t generalizing o v with
  | num z => exact hv
  | var i => exact hv
  | binary c l r ihl ihr =>
    obtain ⟨⟨a, ha⟩, ⟨b, hb⟩, hrep, htree⟩ := simplifyPass_binary h
    obtain ⟨x, y, hx, hy, hxy⟩ := evaluate_binary_eq_ok hv
    obtain ⟨hzl, hzr, hzero⟩ := hz
    have hl := ihl ha hx hzl
    have hr := ihr hb hy hzr
    rw [htree]
    cases o with
    | none => exact (evaluate_binary hl hr).trans hxy
    | some u =>
      obtain ⟨op, hop, ⟨z, w, hf, hnum, hw, hu⟩ | ⟨-, hi⟩⟩ := replace?_cases hrep
      · cases hu
        rw [hnum] at hf hr
        obtain rfl := evaluate_num_eq hr
        -- both operands are numbers, since a missing one has no value
        generalize (simplifyPass 0 l).tree = s at hl hf hw
        cases hf with
        | operands z' _ =>
          obtain rfl := evaluate_num_eq hl
          exact congrArg _ (Except.ok.inj (hw.symm.trans ((Code.apply_eq_ok hop).1 hxy)))
        | argument => cases hl
      · have hxy' := (Code.apply_eq_ok hop).1 hxy
        refine evaluate_of_rewrite hpow (rewrite_of_identity? hi) hl hr hxy' ?_
        rintro ⟨rfl, rfl, rfl⟩
        exact hzero ⟨hop, hx, hy⟩
  | call c t ih =>
    obtain ⟨⟨a, ha⟩, hrep, htree⟩ := simplifyPass_call h
    obtain ⟨y, hy, hcy⟩ := evaluate_call_eq_ok hv
    have ht := ih ha hy hz
    rw [htree]
    cases o with
    | none => exact (evaluate_call ht).trans hcy
    | some u =>
      obtain ⟨op, z, w, hop, hnum, hw, rfl⟩ := replace?_missing_eq_ok hrep
      rw [hnum] at ht
      obtain rfl := evaluate_num_eq ht
      exact congrArg _ (Except.ok.inj (hw.symm.trans ((Code.apply_eq_ok hop).1 hcy)))
  | foreign kind text => cases h
  | missing => cases h

/-- In exact arithmetic the numerals of the identities are neither 0 nor 1. -/
theorem apart_zero [IsStrictOrderedRing α] : Apart (0 : α) := by
  have hint : ∀ {m n : Int}, m ≠ n → (Scalar.eq (Scalar.ofInt m : α) (Scalar.ofInt n)) = false := by
    intro m n h
    rw [eq_eq_false_iff, ofInt_eq, ofInt_eq, Ne, Int.cast_inj]
    exact h
  have hnear : ∀ {m n : Int}, m ≠ n → (int m : Tree α).isNear 0 n = false := by
    intro m n h
    simp only [int, isNear]
    rw [if_pos ((eq_iff (0 : α) _).2 ofInt_zero.symm)]
    exact hint h
  exact {
    two_zero := hnear (by decide)
    two_one := hnear (by decide)
    neg_zero := hnear (by decide)
    neg_one := hnear (by decide)
    two_exact := hint (by decide) }

end Tree

namespace Equation

theorem evaluate_eq_ok {α : Type} [Scalar α] {e : Equation α} {values : List α} {v : α} :
    e.evaluate values = .ok v ↔ e.names.length ≤ values.length ∧ e.root.isTooDeep = false ∧
      e.root.evaluate values = .ok v := by
  unfold evaluate
  split
  · rename_i h
    exact ⟨nofun, fun h' => absurd h'.1 (Nat.not_le.2 h)⟩
  split
  · rename_i h
    exact ⟨nofun, fun h' => by rw [h] at h'; cases h'.2.1⟩
  · rename_i h1 h2
    exact ⟨fun h => ⟨Nat.not_lt.1 h1, Bool.eq_false_iff.2 h2, h⟩, fun h => h.2.2⟩

variable {α : Type} [Field α] [LinearOrder α] [IsStrictOrderedRing α] [Scalar α] [ExactScalar α]

theorem evaluate_of_runPass (hpow : PowerLaws α) {e e' : Equation α} {values : List α} {v : α}
    {n : Nat} (h : e.runPass 0 = (e', .ok n)) (hv : e.evaluate values = .ok v)
    (hz : e.root.AvoidsZeroToZero values) : e'.evaluate values = .ok v := by
  obtain ⟨p, o, hp, ho, rfl, -⟩ := runPass_eq_ok h
  obtain ⟨hd, rfl⟩ := Tree.simplify?_eq_ok.1 hp
  obtain ⟨hlen, -, hroot⟩ := evaluate_eq_ok.1 hv
  exact evaluate_eq_ok.2 ⟨hlen, Tree.isTooDeep_eq_false_of_le hd (Tree.depth_simplifyPass_le _ _),
    Tree.evaluate_simplifyPass hpow ho hroot hz⟩

/-- Simplification preserves meaning: in exact arithmetic and at the tolerance 0, where an equation
has a value and no power of it has both the base and the exponent 0, it has the same value after
`simplify`, and after any number of passes of `simplifyFully`. -/
theorem evaluate_simplify (hpow : PowerLaws α) (e : Equation α) (values : List α) (v : α)
    (hs : (e.simplify 0).result.outcome = .ok ()) (hv : e.evaluate values = .ok v)
    (hz : e.root.AvoidsZeroToZero values) :
    (e.simplify 0).equation.evaluate values = .ok v ∧
      ∀ limit : Count, (e.simplifyFully 0 limit).equation.evaluate values = .ok v := by
  obtain ⟨n, h⟩ := runPass_of_simplify hs
  have hval := evaluate_of_runPass hpow h hv hz
  refine ⟨hval, fun limit => ?_⟩
  by_cases hlimit : 0 < limit.value
  · rw [equation_simplifyFully Tree.apart_zero hlimit h]
    exact hval
  · rw [simplifyFully, if_pos (Int.not_lt.1 hlimit)]
    exact hv

/-- `x * x + 0` at 3: the product becomes a power and the sum gives way to it, with the value 9. -/
theorem evaluate_simplify_square :
    let e : Equation ℝ := ⟨.add (.mul (.var 0) (.var 0)) (.int 0), ["x"], by decide⟩
    (e.simplify 0).result.outcome = .ok () ∧ e.evaluate [3] = .ok 9 ∧
      e.root.AvoidsZeroToZero [3] ∧ (e.simplify 0).equation.evaluate [3] = .ok 9 ∧
      (e.simplifyFully 0 32).equation.evaluate [3] = .ok 9 := by
  intro e
  have hzero : Tree.isNear (0 : ℝ) (.int 0) 0 = true := by
    simp only [Tree.int, Tree.isNear, ofInt_zero, (eq_iff (0 : ℝ) 0).2, if_true]
  have hsum : Tree.replace? (0 : ℝ) (.op .add) (.pow (.var 0) (.int 2)) (.int 0) =
      .ok (some (.pow (.var 0) (.int 2))) := by
    rw [Tree.replace?_of_not_foldable rfl (fun h => by cases h), Tree.identity?, hzero]
    rfl
  have hpass : e.runPass 0 = (e.withRoot (.pow (.var 0) (.int 2)), .ok 2) := by
    have h : e.root.simplify? 0 = .ok (Tree.finish (.add (.pow (.var 0) (.int 2)) (.int 0)) 1
      (Tree.replace? 0 (.op .add) (.pow (.var 0) (.int 2)) (.int 0))) := rfl
    rw [hsum] at h
    rw [runPass, h]
    rfl
  have hs := (simplify_of_runPass Tree.apart_zero hpass).2
  have hv : e.evaluate [3] = .ok 9 := by
    refine evaluate_eq_ok.2 ⟨by decide, rfl, ?_⟩
    rw [show e.root = .add (.mul (.var 0) (.var 0)) (.int 0) from rfl, Tree.add, Tree.mul,
      Tree.evaluate_binary (x := 9) (y := 0), Code.apply_eq_ok rfl, Op.apply_add_eq_ok, add_zero]
    · rw [Tree.evaluate_binary (x := 3) (y := 3) rfl rfl, Code.apply_eq_ok rfl, Op.apply_mul_eq_ok]
      norm_num
    · rw [Tree.evaluate_int, Int.cast_zero]
  have hz : e.root.AvoidsZeroToZero [3] := by
    simp [e, Tree.AvoidsZeroToZero, Tree.add, Tree.mul, Code.op?, Tree.int]
  obtain ⟨hsimplify, hfully⟩ := evaluate_simplify powerLaws_real e [3] 9 hs hv hz
  exact ⟨hs, hv, hz, hsimplify, hfully 32⟩

end Equation

end FormulaCalculus
