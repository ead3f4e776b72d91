import FormulaCalculus.Proofs.Simplify.Meaning

/-!
# The identities of powers

At every tolerance, the identities of powers look for the numerals 0 and 1 themselves. What they put
in the place of a power has its value, wherever it has one, with a single exception: `0 ^ e` gives
way to 0 also where `e` is 0, and there it is 1.
-/

namespace FormulaCalculus.Tree

open ExactScalar

variable {α : Type} [Field α] [LinearOrder α] [Scalar α] [ExactScalar α] {values : List α}
  {l r t : Tree α} {v : α}

theorem isExactly_iff {c : Int} : t.isExactly c ↔ t = int c := by
  cases t with
  | num x => rw [isExactly, int, eq_iff, num.injEq]
  | _ => simp [isExactly, int]

theorem int_inj [IsStrictOrderedRing α] {m n : Int} : (int m : Tree α) = int n ↔ m = n := by
  rw [int, int, num.injEq, ofInt_eq, ofInt_eq, Int.cast_inj]

/-- A power stays as it is unless its exponent is the numeral 1 or its base 0 or 1. -/
theorem identity?_pow_eq_none_iff {ε : α} :
    identity? ε .pow l r = .ok none ↔ r ≠ int 1 ∧ l ≠ int 1 ∧ l ≠ int 0 := by
  simp only [identity?, isExactly_iff]
  split_ifs with h1 h2 h3
  · exact iff_of_false (by simp) fun h => h.1 h1
  · exact iff_of_false (by simp) fun h => h.2.1 h2
  · exact iff_of_false (by simp) fun h => h.2.2 h3
  · exact iff_of_true rfl ⟨h1, h2, h3⟩

variable [IsStrictOrderedRing α]

theorem ne_int_one_of_evaluate (hr : r.evaluate values = .ok 0) : r ≠ int 1 := by
  rintro rfl
  rw [evaluate_int, Int.cast_one, Except.ok.injEq] at hr
  exact one_ne_zero hr

/-- What takes the place of a power has its value, unless `0 ^ e` is met where `e` is 0. -/
theorem evaluate_of_identity?_pow (hpow : PowerLaws α) {ε : α} {c : Code} {o : Option (Tree α)}
    (hc : c.op? = some .pow) (ho : identity? ε .pow l r = .ok o)
    (hv : (binary c l r).evaluate values = .ok v)
    (hz : ¬ (l = int 0 ∧ r.evaluate values = .ok 0)) :
    (o.getD (binary c l r)).evaluate values = .ok v := by
  cases o with
  | none => exact hv
  | some t =>
    obtain ⟨x, y, hx, hy, hxy⟩ := evaluate_binary_eq_ok hv
    -- the tolerance is not read
    have hrewrite : Rewrite 0 .pow l r t := rewrite_of_identity? ho
    refine evaluate_of_rewrite hpow hrewrite hx hy ((Code.apply_eq_ok hc).1 hxy) ?_
    rintro ⟨-, rfl, rfl⟩
    cases hrewrite with
    | pow_one _ h => exact ne_int_one_of_evaluate hy (isExactly_iff.1 h)
    | one_pow _ h => exact ne_int_one_of_evaluate hx (isExactly_iff.1 h)
    | zero_pow _ h => exact hz ⟨isExactly_iff.1 h, hy⟩

/-- At `0 ^ 0` the value 1 gives way to the numeral 0. -/
theorem identity?_zero_pow_zero (hzero : ∀ x : α, Scalar.pow x 0 = 1) (ε : α) {c : Code}
    (hc : c.op? = some .pow) (hr : r.evaluate values = .ok 0)
    (hv : (binary c (int 0) r).evaluate values = .ok v) :
    v = 1 ∧ identity? ε .pow (int 0) r = .ok (some (int 0)) := by
  obtain ⟨x, y, -, hy, hxy⟩ := evaluate_binary_eq_ok hv
  obtain rfl : y = 0 := Except.ok.inj (hy.symm.trans hr)
  obtain ⟨-, -, rfl⟩ := Op.apply_pow_eq_ok.1 ((Code.apply_eq_ok hc).1 hxy)
  refine ⟨hzero x, ?_⟩
  have hone : (int 0 : Tree α) ≠ int 1 := int_inj.not.2 (by decide)
  simp only [identity?, isExactly_iff, ne_int_one_of_evaluate hr, hone, if_true, if_false]

/-- The identities of powers agree with the value of a power in exact arithmetic with `x ^ 0 = 1`:
at every point at which a power has a value, what takes its place has the same value, unless its
base is the numeral 0 and its exponent has the value 0. There the power is 1 and gives way to 0. -/
theorem evaluate_power_identity (hpow : PowerLaws α) (hzero : ∀ x : α, Scalar.pow x 0 = 1) (ε : α)
    (c : Code) (hc : c.op? = some .pow) (l r : Tree α) (values : List α) (v : α)
    (hv : (binary c l r).evaluate values = .ok v) :
    ∃ o, identity? ε .pow l r = .ok o ∧ (¬ Foldable l r → replace? ε c l r = .ok o) ∧
      (o = none ↔ r ≠ int 1 ∧ l ≠ int 1 ∧ l ≠ int 0) ∧
      (¬ (l = int 0 ∧ r.evaluate values = .ok 0) →
        (o.getD (binary c l r)).evaluate values = .ok v) ∧
      (l = int 0 ∧ r.evaluate values = .ok 0 → v = 1 ∧ o = some (int 0)) := by
  obtain ⟨o, ho⟩ := exists_identity? (ε := ε) (show Op.pow ≠ .div by decide) l r
  refine ⟨o, ho, fun hf => ?_, ?_, evaluate_of_identity?_pow hpow hc ho hv, ?_⟩
  · rw [replace?_of_not_foldable hc hf, ho]
    rfl
  · rw [← identity?_pow_eq_none_iff (ε := ε), ho, Except.ok.injEq]
  · rintro ⟨rfl, hr⟩
    obtain ⟨hone, hi⟩ := identity?_zero_pow_zero hzero ε hc hr hv
    exact ⟨hone, Except.ok.inj (ho.symm.trans hi)⟩

/-- `0 ^ (x - 1)` is 0 at 3, and 0 takes its place. -/
theorem evaluate_power_identity_zero :
    let l : Tree ℝ := int 0
    let r : Tree ℝ := sub (var 0) (int 1)
    let c : Code := .number 4
    PowerLaws ℝ ∧ (∀ x : ℝ, Scalar.pow x 0 = 1) ∧ c.op? = some .pow ∧
      (binary c l r).evaluate [3] = .ok 0 ∧ ¬ (l = int 0 ∧ r.evaluate [3] = .ok 0) ∧
      ∃ o, identity? 1 .pow l r = .ok o ∧ o ≠ none ∧
        (o.getD (binary c l r)).evaluate [3] = .ok 0 := by
  intro l r c
  have hzero : ∀ x : ℝ, Scalar.pow x 0 = 1 := Real.rpow_zero
  have hc : c.op? = some .pow := by decide
  have hr : r.evaluate [3] = .ok 2 := by
    have hx : (var 0 : Tree ℝ).evaluate [3] = .ok 3 := rfl
    rw [show r = binary (.op .sub) (var 0) (int 1) from rfl, evaluate_binary hx (evaluate_int 1),
      Code.apply_eq_ok rfl, Op.apply_sub_eq_ok]
    norm_num
  have hv : (binary c l r).evaluate [3] = .ok 0 := by
    rw [evaluate_binary (evaluate_int 0) hr, Code.apply_eq_ok hc, Op.apply_pow_eq_ok, Int.cast_zero]
    refine ⟨fun h => absurd h.2 (by norm_num), fun h => absurd h (lt_irrefl 0), ?_⟩
    exact (powerLaws_real.zero_pow 2 two_pos).symm
  have hne : ¬ (l = int 0 ∧ r.evaluate [3] = .ok 0) := by
    rintro ⟨-, h⟩
    exact two_ne_zero (Except.ok.inj (hr.symm.trans h))
  obtain ⟨o, ho, -, hnone, hvalue, -⟩ :=
    evaluate_power_identity powerLaws_real hzero 1 c hc l r [3] 0 hv
  exact ⟨powerLaws_real, hzero, hc, hv, hne, o, ho, fun h => (hnone.1 h).2.2 rfl, hvalue hne⟩

/-- `0 ^ x` is 1 at 0, but 0 takes its place. -/
theorem zero_power_identity_fails :
    let l : Tree ℝ := int 0
    let r : Tree ℝ := var 0
    l.Settled 0 ∧ r.Settled 0 ∧ ¬ Foldable l r ∧ (pow l r).evaluate [0] = .ok 1 ∧
      identity? 0 .pow l r = .ok (some (int 0)) ∧
      replace? 0 (.op .pow) l r = .ok (some (int 0)) ∧ (int 0 : Tree ℝ).evaluate [0] ≠ .ok 1 := by
  intro l r
  have hf : ¬ Foldable l r := fun h => let ⟨_, hy⟩ := h.exists_num; nomatch hy
  have hv : (pow l r).evaluate [0] = .ok 1 := by
    rw [pow, evaluate_binary (y := 0) (evaluate_int 0) rfl, Code.apply_eq_ok rfl,
      Op.apply_pow_eq_ok, Int.cast_zero]
    exact ⟨fun h => absurd h.2 (lt_irrefl 0), fun h => absurd h (lt_irrefl 0),
      (Real.rpow_zero 0).symm⟩
  obtain ⟨-, hi⟩ := identity?_zero_pow_zero Real.rpow_zero 0 rfl (r := r) rfl hv
  refine ⟨trivial, trivial, hf, hv, hi, ?_, ?_⟩
  · rw [replace?_of_not_foldable rfl hf, hi]
    rfl
  · rw [evaluate_int, Int.cast_zero, ne_eq, Except.ok.injEq]
    exact zero_ne_one

end FormulaCalculus.Tree
