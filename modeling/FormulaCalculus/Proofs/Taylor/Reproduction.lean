import FormulaCalculus.Proofs.Taylor.Orders
import FormulaCalculus.Proofs.Taylor.PolynomialTree
import FormulaCalculus.Proofs.Tree.Deep
import Mathlib.Algebra.Polynomial.Taylor

/-!
# Taylor expansion of polynomials

An expansion of the order `n` about `a` evaluates one derivative after the other at `a`, each formed
from the one before by the rules and then simplified by a pass. For a polynomial tree these stand
for the iterated derivatives of the polynomial, so that the sum is Taylor's formula, which from the
degree of the polynomial on is the polynomial itself.

The library walks no tree of more than `Tree.maxDepth` levels. A derivative that is formed can be
deeper than the tree it is formed from, so that the derivatives, too, are to be walked.
-/

namespace FormulaCalculus

open Polynomial ExactScalar

namespace Tree

section

variable {α : Type} [Field α] [Scalar α] {t : Tree α} {d : ℕ}

/-- The tree consists of numbers, the variable, sums, differences, products and powers with positive
numerals, and `d` is its degree without regard to terms that cancel. -/
inductive FormalDegree : Tree α → ℕ → Prop
  | num (c : α) : FormalDegree (num c) 0
  | var : FormalDegree (var 0) 1
  | add {l r : Tree α} {m n : ℕ} : FormalDegree l m → FormalDegree r n →
    FormalDegree (add l r) (max m n)
  | sub {l r : Tree α} {m n : ℕ} : FormalDegree l m → FormalDegree r n →
    FormalDegree (sub l r) (max m n)
  | mul {l r : Tree α} {m n : ℕ} : FormalDegree l m → FormalDegree r n →
    FormalDegree (mul l r) (m + n)
  | pow {l : Tree α} {m : ℕ} (n : ℕ) : 0 < n → FormalDegree l m →
    FormalDegree (pow l (num n)) (n * m)

theorem FormalDegree.exists_polynomialTree (h : FormalDegree t d) :
    ∃ p, PolynomialTree t p ∧ p.natDegree ≤ d := by
  induction h with
  | num c => exact ⟨_, .num c, (natDegree_C c).le⟩
  | var => exact ⟨_, .var, natDegree_X_le⟩
  | add _ _ ihl ihr =>
    obtain ⟨p, hp, hdp⟩ := ihl
    obtain ⟨q, hq, hdq⟩ := ihr
    exact ⟨_, hp.add hq, (natDegree_add_le p q).trans (max_le_max hdp hdq)⟩
  | sub _ _ ihl ihr =>
    obtain ⟨p, hp, hdp⟩ := ihl
    obtain ⟨q, hq, hdq⟩ := ihr
    exact ⟨_, hp.sub hq, (natDegree_sub_le p q).trans (max_le_max hdp hdq)⟩
  | mul _ _ ihl ihr =>
    obtain ⟨p, hp, hdp⟩ := ihl
    obtain ⟨q, hq, hdq⟩ := ihr
    exact ⟨_, hp.mul hq, natDegree_mul_le.trans (add_le_add hdp hdq)⟩
  | pow n hn _ ih =>
    obtain ⟨p, hp, hdp⟩ := ih
    exact ⟨_, .pow n hp fun h => absurd h hn.ne',
      natDegree_pow_le.trans (Nat.mul_le_mul_left n hdp)⟩

omit [Scalar α] in
theorem formalDegree_sums (n : ℕ) : (sums n : Tree α).FormalDegree 1 := by
  induction n with
  | zero => exact .var
  | succ n ih => exact .add ih .var

end

/-- The first `n` derivatives of a tree as they are formed: a pass comes before each but the
first. -/
def formedDerivatives {α : Type} [Scalar α] (ε : α) : ℕ → Tree α → List (Tree α)
  | 0, _ => []
  | n + 1, t =>
    match t.differentiate? 0 with
    | .error _ => []
    | .ok d => d :: formedDerivatives ε n (simplifyPass ε d).tree

theorem formedDerivatives_succ {α : Type} [Scalar α] {t d : Tree α} (h : t.differentiate? 0 = .ok d)
    (ε : α) (n : ℕ) :
    formedDerivatives ε (n + 1) t = d :: formedDerivatives ε n (simplifyPass ε d).tree := by
  simp only [formedDerivatives, h]

end Tree

theorem polynomialLaws_real : PolynomialLaws ℝ where
  pow_natCast := Real.rpow_natCast
  ofNat?_eq _ := rfl

/-! ### Taylor's formula -/

section

variable {α : Type} [Field α] {p : α[X]}

/-- The value at `x` of the Taylor polynomial of `p` about `a`, up to the order `n`. -/
noncomputable def taylorSum (p : α[X]) (a : α) (n : ℕ) (x : α) : α :=
  ∑ k ∈ Finset.range (n + 1), (taylor a p).coeff k * (x - a) ^ k

theorem taylorSum_zero (a x : α) : taylorSum p a 0 x = p.eval a := by
  rw [taylorSum, Finset.sum_range_one, taylor_coeff_zero, pow_zero, mul_one]

/-- The coefficient of each order is the value of a derivative over a factorial. -/
theorem taylorSum_succ [CharZero α] (a : α) (n : ℕ) (x : α) :
    taylorSum p a (n + 1) x = taylorSum p a n x +
      (derivative^[n + 1] p).eval a / ((n + 1).factorial : α) * (x - a) ^ (n + 1) := by
  have hcoeff : (derivative^[n + 1] p).eval a =
      ((n + 1).factorial : α) * (taylor a p).coeff (n + 1) := by
    rw [← factorial_smul_hasseDeriv, LinearMap.smul_apply, eval_smul, nsmul_eq_mul, taylor_coeff]
  have hfactorial : ((n + 1).factorial : α) ≠ 0 := Nat.cast_ne_zero.2 (Nat.factorial_ne_zero _)
  rw [taylorSum, Finset.sum_range_succ, hcoeff, mul_div_cancel_left₀ _ hfactorial]
  rfl

theorem taylorSum_eq_eval {n : ℕ} (h : p.natDegree ≤ n) (a x : α) :
    taylorSum p a n x = p.eval x := by
  rw [← taylor_eval_sub a, eval_eq_sum_range' (n := n + 1), taylorSum]
  rw [natDegree_taylor]
  exact Nat.lt_succ_of_le h

end

/-! ### The expansion -/

variable {α : Type} [Field α] [LinearOrder α] [IsStrictOrderedRing α] [Scalar α] [ExactScalar α]
  {e : Equation α} {p : α[X]}

theorem Equation.evaluate_of_polynomialTree (hlaws : PolynomialLaws α)
    (hp : e.root.PolynomialTree p) (hn : e.names.length ≤ 1) (x : α) :
    e.evaluate [x] =
      if e.root.isTooDeep then .error (.nestedTooDeeply "evaluate") else .ok (p.eval x) := by
  have hlength : ¬ [x].length < e.names.length := Nat.not_lt.2 hn
  rw [Equation.evaluate, if_neg hlength, hp.evaluate hlaws]

namespace Taylor

open FormulaCalculus.Tree

omit [IsStrictOrderedRing α] in
theorem evaluate_base (a x : α) : (base a).evaluate [x] = .ok (x - a) := by
  unfold base
  split
  · rename_i h
    rw [ofInt_zero, eq_iff] at h
    rw [h, sub_zero]
    rfl
  · exact evaluate_sub rfl rfl

/-- A derivative that can be measured is formed and simplified. -/
theorem outcome_nextDerivative (hlaws : PolynomialLaws α) (hp : e.root.PolynomialTree p)
    (hd : e.root.isTooDeep = false) (hn : e.names.length ≤ 1) {d : Tree α}
    (hdiff : e.root.differentiate? 0 = .ok d) (hreduces : Reduces d (derivative p))
    (hdeep : d.isTooDeep = false) :
    (nextDerivative 0 e).outcome = .ok (e.withRoot (simplifyPass 0 d).tree) := by
  obtain ⟨⟨o, ho⟩, -⟩ := hreduces
  obtain ⟨⟨o', ho'⟩, -⟩ := hp.reduces hlaws
  rw [outcome_nextDerivative_eq hn (isComplete_of_simplifyPass ho') hd, hdiff]
  simp only [bind, Except.bind, size?_of_isComplete (isComplete_of_simplifyPass ho) hdeep, ho]
  rfl

theorem evaluate_plusTerm (hlaws : PolynomialLaws α) {total : Tree α} {a x : α} {n : ℕ}
    (h : total.evaluate [x] = .ok (taylorSum p a n x)) :
    (plusTerm a (Scalar.div ((derivative^[n + 1] p).eval a) ((n + 1).factorial : α)) (n + 1)
      total).evaluate [x] = .ok (taylorSum p a (n + 1) x) := by
  have hpower : (pow (base a) (int (n + 1 : ℕ))).evaluate [x] = .ok ((x - a) ^ (n + 1)) := by
    rw [evaluate_pow (evaluate_base a x) (evaluate_int _), Int.cast_natCast, hlaws.pow_natCast]
    rintro ⟨-, hneg⟩
    rw [Int.cast_natCast] at hneg
    exact absurd hneg (Nat.cast_nonneg _).not_gt
  rw [taylorSum_succ, ← div_eq]
  exact evaluate_add h (evaluate_mul rfl hpower)

/-- The sum of the terms up to an order is the Taylor sum, if the derivatives that the terms after
the first ask for can be walked. -/
theorem outcome_addTerms (hlaws : PolynomialLaws α) (a : α) (count n : ℕ) {e : Equation α}
    {total : Tree α} (he : e.root.PolynomialTree (derivative^[n + 1] p))
    (hd : e.root.isTooDeep = false) (hn : e.names.length ≤ 1)
    (hformed : (formedDerivatives 0 (count - 1) e.root).any isTooDeep = false)
    (htotal : ∀ x, total.evaluate [x] = .ok (taylorSum p a n x)) (hdepth : total.depth ≤ n + 4) :
    ∃ s, (addTerms 0 a count n n.factorial e total).outcome = .ok s ∧
      (∀ x, s.evaluate [x] = .ok (taylorSum p a (n + count) x)) ∧ s.depth ≤ n + count + 4 := by
  -- on the number of terms to come: `total` is the sum up to the order `n`, and `e` the derivative
  -- after it
  induction count generalizing n e total with
  | zero => exact ⟨total, rfl, htotal, hdepth⟩
  | succ count ih =>
    have hvalue := Equation.evaluate_of_polynomialTree hlaws he hn a
    rw [hd, if_neg Bool.false_ne_true] at hvalue
    have htotal' := fun x => evaluate_plusTerm hlaws (htotal x)
    have hdepth' := depth_plusTerm_le hdepth a
      (Scalar.div ((derivative^[n + 1] p).eval a) ((n + 1).factorial : α)) (n + 1)
    rw [outcome_addTerms_succ hvalue (hlaws.ofNat?_eq _)]
    cases count with
    | zero => exact ⟨_, rfl, htotal', hdepth'⟩
    | succ count =>
      rw [if_neg (Nat.succ_ne_zero _)]
      obtain ⟨d, hdiff, hreduces, -⟩ := he.reduces_derivative hlaws
      rw [Nat.add_sub_cancel, formedDerivatives_succ hdiff, List.any_cons,
        Bool.or_eq_false_iff] at hformed
      obtain ⟨hdeep, hformed⟩ := hformed
      rw [outcome_nextDerivative hlaws he hd hn hdiff hreduces hdeep]
      obtain ⟨⟨o, ho⟩, hd'⟩ := hreduces
      rw [← Function.iterate_succ_apply' derivative] at hd'
      have hdeep' := isTooDeep_eq_false_of_le hdeep (depth_simplifyPass_le 0 d)
      have h := ih (n + 1) (e := e.withRoot (simplifyPass 0 d).tree) hd' hdeep' hn hformed htotal'
        hdepth'
      rw [show n + (count + 1 + 1) = n + 1 + (count + 1) by omega]
      exact h

end Taylor

namespace Equation

open FormulaCalculus.Tree

/-- The derivatives of a tree are shallow enough if the tree is: each is about twice as deep as the
one before at most. -/
theorem any_isTooDeep_formedDerivatives (hlaws : PolynomialLaws α) {t : Tree α} (n : ℕ)
    (ht : t.PolynomialTree p) (h : 2 ^ n * (t.depth + 1) ≤ maxDepth + 1) :
    (formedDerivatives 0 n t).any isTooDeep = false := by
  induction n generalizing t p with
  | zero => rfl
  | succ n ih =>
    obtain ⟨d, hdiff, ⟨⟨o, ho⟩, hd⟩, hdepth⟩ := ht.reduces_derivative hlaws
    have hpass := depth_simplifyPass_le 0 d
    have htwo : 2 ^ n * (d.depth + 1) ≤ maxDepth + 1 :=
      calc 2 ^ n * (d.depth + 1)
        _ ≤ 2 ^ n * (2 * (t.depth + 1)) := Nat.mul_le_mul_left _ (by omega)
        _ = 2 ^ (n + 1) * (t.depth + 1) := by ring
        _ ≤ maxDepth + 1 := h
    have hself : d.isTooDeep = false := by
      have := Nat.le_mul_of_pos_left (d.depth + 1) (pow_pos two_pos n)
      rw [isTooDeep, decide_eq_false_iff_not]
      omega
    have hrest := ih hd ((Nat.mul_le_mul_left _ (Nat.succ_le_succ hpass)).trans htwo)
    rw [formedDerivatives_succ hdiff, List.any_cons, hself, hrest, Bool.or_self]

omit [LinearOrder α] [IsStrictOrderedRing α] [ExactScalar α] in
theorem outcome_taylor_of_isTooDeep {x : String} {a : α} {order : ℕ} (hnames : e.names = [x])
    (hd : e.root.isTooDeep) :
    (e.taylor 0 (some order) a).outcome = .error (.nestedTooDeeply "evaluate") := by
  have hn : e.names.length ≤ 1 := by rw [hnames]; exact Nat.le_refl 1
  have hlength : ¬ [a].length < e.names.length := Nat.not_lt.2 hn
  have hvalue : e.evaluate [a] = .error (.nestedTooDeeply "evaluate") := by
    rw [Equation.evaluate, if_neg hlength, if_pos hd]
  rw [outcome_taylor_eq hn, hvalue]
  rfl

/-- Taylor expansion reproduces polynomials: in exact arithmetic and at the tolerance 0, about any
point and from the formal degree on, the expansion of a polynomial in one variable has the value of
the polynomial everywhere. A polynomial that is too deep to be walked is refused; the derivatives
that are formed are to be walked as well, and only an expansion of a high order is too deep itself
to be evaluated. -/
theorem taylor_reproduces (hlaws : PolynomialLaws α) (e : Equation α) (x : String)
    (hnames : e.names = [x]) {degree order : ℕ} (hroot : e.root.FormalDegree degree)
    (horder : degree ≤ order) (a : α) :
    (e.root.isTooDeep →
      (e.taylor 0 (some order) a).outcome = .error (.nestedTooDeeply "evaluate")) ∧
    (e.root.isTooDeep = false →
      (formedDerivatives 0 (max order 1) e.root).any isTooDeep = false →
      ∃ q, (e.taylor 0 (some order) a).outcome = .ok q ∧ q.names = e.names ∧
        ∀ y, ∃ v, e.evaluate [y] = .ok v ∧ q.root.evaluate [y] = .ok v ∧
          (order + 4 ≤ maxDepth → q.evaluate [y] = .ok v)) := by
  refine ⟨outcome_taylor_of_isTooDeep hnames, fun hd hformed => ?_⟩
  obtain ⟨p, hp, hdegree⟩ := hroot.exists_polynomialTree
  have hn : e.names.length ≤ 1 := by rw [hnames]; exact Nat.le_refl 1
  have hvalue := evaluate_of_polynomialTree hlaws hp hn
  simp only [hd, Bool.false_eq_true, if_false] at hvalue
  obtain ⟨d, hdiff, hreduces, -⟩ := hp.reduces_derivative hlaws
  rw [show max order 1 = order - 1 + 1 by omega, formedDerivatives_succ hdiff, List.any_cons,
    Bool.or_eq_false_iff] at hformed
  obtain ⟨hdeep, hformed⟩ := hformed
  rw [outcome_taylor hnames (hvalue a),
    Taylor.outcome_nextDerivative hlaws hp hd hn hdiff hreduces hdeep]
  obtain ⟨⟨o, ho⟩, hd'⟩ := hreduces
  have hdeep' := isTooDeep_eq_false_of_le hdeep (depth_simplifyPass_le 0 d)
  have hvalue₀ : ∀ y, (num (p.eval a)).evaluate [y] = .ok (taylorSum p a 0 y) := by
    intro y
    rw [taylorSum_zero]
    rfl
  obtain ⟨s, hs, hsum, hdepth⟩ := Taylor.outcome_addTerms hlaws a order 0
    (e := e.withRoot (simplifyPass 0 d).tree) hd' hdeep' hn hformed hvalue₀ (Nat.le_add_left 1 3)
  rw [Nat.zero_add] at hsum hdepth
  refine ⟨e.withRoot s, congrArg (Except.map e.withRoot) hs, rfl, fun y => ?_⟩
  have hy : s.evaluate [y] = .ok (p.eval y) := by
    rw [hsum, taylorSum_eq_eval (hdegree.trans horder)]
  refine ⟨p.eval y, hvalue y, hy, fun hshallow => evaluate_eq_ok.2 ⟨hn, ?_, hy⟩⟩
  rw [root_withRoot, isTooDeep, decide_eq_false_iff_not]
  exact Nat.not_lt.2 (hdepth.trans hshallow)

/-- `x^2 + 3` of the order 2 about 1: three terms, and the value `y^2 + 3` everywhere. -/
theorem taylor_reproduces_parabola :
    let e : Equation ℝ := ⟨.add (.pow (.var 0) (.num (2 : ℕ))) (.num 3), ["x"], by decide⟩
    PolynomialLaws ℝ ∧ e.names = ["x"] ∧ e.root.FormalDegree 2 ∧ 2 ≤ 2 ∧
      ∃ q, (e.taylor 0 (some 2) 1).outcome = .ok q ∧
        ∀ y, q.evaluate [y] = .ok (y ^ 2 + 3) := by
  intro e
  have hroot : e.root.FormalDegree 2 := .add (.pow 2 two_pos .var) (.num 3)
  have hdeep : e.root.isTooDeep = false := rfl
  have hformed : (formedDerivatives 0 (max 2 1) e.root).any isTooDeep = false := by
    obtain ⟨p, hp, -⟩ := hroot.exists_polynomialTree
    exact any_isTooDeep_formedDerivatives polynomialLaws_real 2 hp (by decide)
  obtain ⟨-, h⟩ := taylor_reproduces polynomialLaws_real e "x" rfl hroot (le_refl 2) 1
  obtain ⟨q, hq, -, hvalue⟩ := h hdeep hformed
  refine ⟨polynomialLaws_real, rfl, hroot, le_refl 2, q, hq, fun y => ?_⟩
  obtain ⟨v, hv, -, hqv⟩ := hvalue y
  have hpower :
      (pow (var 0) (num ((2 : ℕ) : ℝ))).evaluate [y] = .ok (Scalar.pow y ((2 : Int) : ℝ)) :=
    evaluate_pow rfl rfl (by norm_num)
  have hsum : e.root.evaluate [y] = .ok (Scalar.pow y ((2 : Int) : ℝ) + 3) :=
    evaluate_add hpower rfl
  obtain ⟨-, -, hroot⟩ := evaluate_eq_ok.1 hv
  rw [hqv (by decide), ← hroot, hsum, Int.cast_ofNat, powerLaws_real.pow_two, ← pow_two]

/-- A sum of 1001 summands is a polynomial of the degree 1, and too deep to be expanded. -/
theorem taylor_sums_fails :
    let e : Equation ℝ := ⟨sums 1000, ["x"], by decide⟩
    PolynomialLaws ℝ ∧ e.root.FormalDegree 1 ∧
      (e.taylor 0 (some 1) 0).outcome = .error (.nestedTooDeeply "evaluate") :=
  ⟨polynomialLaws_real, formalDegree_sums 1000,
    outcome_taylor_of_isTooDeep rfl (isTooDeep_sums.2 (Nat.le_refl maxDepth))⟩

end Equation

end FormulaCalculus
