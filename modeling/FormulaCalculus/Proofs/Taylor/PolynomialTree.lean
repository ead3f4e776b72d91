import FormulaCalculus.Proofs.Derivative.Rules
import FormulaCalculus.Proofs.Tree.Copy
import FormulaCalculus.Proofs.Tree.ExactValue
import Mathlib.Algebra.Polynomial.Derivative
import Mathlib.Algebra.Polynomial.Eval.Degree

/-!
# Polynomial trees

`PolynomialTree t p`: the tree `t` consists of numbers, the variable, sums, differences, products
and powers with natural exponents, and stands for the polynomial `p`. A pass keeps what such a tree
stands for, and a pass over the derivative gives a tree for the derivative of `p`.

An exponent falls by one with each derivative, so `b^0` occurs, and its derivative has the factor
`b^(-1)`, which need not have a value. It goes away with the factor 0 beside it, unless it is folded
first, and that takes a base that is a number. So a base with the exponent 0 is settled and no
number: `b^0` over a number would have been folded when the exponent fell to 0.
-/

namespace FormulaCalculus

open Polynomial ExactScalar

/-- Powers with natural exponents are repeated products, 0^0 = 1 among them, and every natural
number is a divisor. -/
structure PolynomialLaws (α : Type) [Field α] [Scalar α] : Prop where
  pow_natCast (x : α) (n : ℕ) : Scalar.pow x n = x ^ n
  ofNat?_eq (n : ℕ) : Scalar.ofNat? n = some (n : α)

namespace Tree

section

variable {α : Type} [Field α] [Scalar α] {l r t : Tree α} {p q s : α[X]}

/-- The tree stands for the polynomial. -/
inductive PolynomialTree : Tree α → α[X] → Prop
  | num (c : α) : PolynomialTree (num c) (C c)
  | var : PolynomialTree (var 0) X
  | add {l r : Tree α} {p q : α[X]} : PolynomialTree l p → PolynomialTree r q →
    PolynomialTree (add l r) (p + q)
  | sub {l r : Tree α} {p q : α[X]} : PolynomialTree l p → PolynomialTree r q →
    PolynomialTree (sub l r) (p - q)
  | mul {l r : Tree α} {p q : α[X]} : PolynomialTree l p → PolynomialTree r q →
    PolynomialTree (mul l r) (p * q)
  | pow {l : Tree α} {p : α[X]} (n : ℕ) : PolynomialTree l p →
    (n = 0 → l.Settled 0 ∧ ∀ c, l ≠ num c) → PolynomialTree (pow l (num n)) (p ^ n)

namespace PolynomialTree

theorem of_eq (h : PolynomialTree t p) (hp : p = q) : PolynomialTree t q :=
  hp ▸ h

theorem eq_C {c : α} (h : PolynomialTree (.num c) p) : p = C c := by
  cases h; rfl

theorem wellFormed (h : PolynomialTree t p) : t.WellFormed := by
  induction h with
  | num c => trivial
  | var => trivial
  | add _ _ ihl ihr | sub _ _ ihl ihr | mul _ _ ihl ihr => exact ⟨rfl, ihl, ihr⟩
  | pow n _ _ ih => exact ⟨rfl, ih, trivial⟩

theorem copy?_eq (h : PolynomialTree t p) : t.copy? = .ok t := by
  induction h with
  | num c => rfl
  | var => rfl
  | add hl hr ihl ihr | sub hl hr ihl ihr | mul hl hr ihl ihr =>
    exact copy?_binary rfl rfl ihl ihr hl.wellFormed hr.wellFormed
  | pow n h _ ih => exact copy?_binary rfl rfl ih rfl h.wellFormed trivial

/-- Only numbers are folded: no operand is missing. -/
theorem exists_num_of_foldable (h : PolynomialTree l p) (hf : Foldable l r) :
    ∃ x y, l = .num x ∧ r = .num y := by
  cases hf with
  | operands x y => exact ⟨x, y, rfl, rfl⟩
  | argument y => cases h

/-! ### A single node -/

/-- What becomes of a node stands for `s` if the value of the node does where its operands are
numbers, and the node itself and whatever an identity puts in its place where they are not. -/
theorem replace {op : Op} (hop : op ≠ .div) (hl : PolynomialTree l p)
    (hfold : ∀ x y, l = .num x → r = .num y → ∃ v, op.apply x y = .ok v ∧ s = C v)
    (hkeep : ¬ Foldable l r → PolynomialTree (.binary (.op op) l r) s)
    (hrewrite : ∀ u, ¬ Foldable l r → Rewrite 0 op l r u → PolynomialTree u s) :
    ∃ o, replace? 0 (.op op) l r = .ok o ∧
      PolynomialTree (o.getD (.binary (.op op) l r)) s := by
  by_cases hf : Foldable l r
  · obtain ⟨x, y, rfl, rfl⟩ := hl.exists_num_of_foldable hf
    obtain ⟨v, hv, rfl⟩ := hfold x y rfl rfl
    exact ⟨some (.num v), replace?_num_num rfl hv, .num v⟩
  · rw [replace?_of_not_foldable rfl hf]
    obtain ⟨o, ho⟩ := exists_identity? (ε := 0) hop l r
    refine ⟨o, by rw [ho]; rfl, ?_⟩
    cases o with
    | none => exact hkeep hf
    | some u => exact hrewrite u hf (rewrite_of_identity? ho)

end PolynomialTree

/-! ### A pass -/

/-- A pass over the tree leaves a tree for `p`. -/
def Reduces (t : Tree α) (p : α[X]) : Prop :=
  (∃ o, (simplifyPass 0 t).outcome = .ok o) ∧ PolynomialTree (simplifyPass 0 t).tree p

theorem Reduces.of_eq (h : Reduces t p) (hp : p = q) : Reduces t q :=
  hp ▸ h

theorem Reduces.binary {op : Op} (hl : ∃ a, (simplifyPass 0 l).outcome = .ok a)
    (hr : ∃ b, (simplifyPass 0 r).outcome = .ok b)
    (h : ∃ o, replace? 0 (.op op) (simplifyPass 0 l).tree (simplifyPass 0 r).tree = .ok o ∧
      PolynomialTree
        (o.getD (.binary (.op op) (simplifyPass 0 l).tree (simplifyPass 0 r).tree)) s) :
    Reduces (.binary (.op op) l r) s := by
  obtain ⟨a, ha⟩ := hl
  obtain ⟨b, hb⟩ := hr
  obtain ⟨o, ho, hs⟩ := h
  obtain ⟨hok, htree⟩ := simplifyPass_binary_of_ok ha hb ho
  exact ⟨⟨o, hok⟩, htree ▸ hs⟩

/-- A pass over the tree leaves the number `c`. -/
def Folds (t : Tree α) (c : α) : Prop :=
  (∃ o, (simplifyPass 0 t).outcome = .ok o) ∧ (simplifyPass 0 t).tree = num c

theorem Folds.num (c : α) : Folds (num c) c :=
  ⟨⟨none, rfl⟩, rfl⟩

theorem Folds.of_apply {op : Op} {a b c : α} (hl : Folds l a) (hr : Folds r b)
    (hv : op.apply a b = .ok c) : Folds (.binary (.op op) l r) c := by
  obtain ⟨⟨o, ho⟩, hl⟩ := hl
  obtain ⟨⟨o', ho'⟩, hr⟩ := hr
  have hrep := replace?_num_num (ε := 0) (rfl : (Code.op op).op? = some op) hv
  rw [← hl, ← hr] at hrep
  obtain ⟨hok, htree⟩ := simplifyPass_binary_of_ok ho ho' hrep
  exact ⟨⟨_, hok⟩, htree⟩

/-- A power over a settled base that is no number is never folded, whatever the exponent. -/
theorem exists_outcome_pow {c : α} (hl : PolynomialTree l p) (hs : l.Settled 0)
    (hnum : ∀ c, l ≠ .num c) (hr : Folds r c) :
    ∃ o, (simplifyPass 0 (pow l r)).outcome = .ok o := by
  have hf : ¬ Foldable l (.num c) := by
    intro hf
    obtain ⟨x, -, hx, -⟩ := hl.exists_num_of_foldable hf
    exact hnum x hx
  obtain ⟨⟨b, hb⟩, hexponent⟩ := hr
  have hop : Op.pow ≠ .div := by decide
  obtain ⟨o, ho⟩ := exists_identity? (ε := 0) hop l (.num c)
  have hrep : replace? 0 (.op .pow) l (.num c) = .ok o := by
    rw [replace?_of_not_foldable rfl hf, ho]
    rfl
  have hbase : simplifyPass 0 l = .keep l := hs.simplifyPass_eq
  refine ⟨o, (simplifyPass_binary_of_ok (a := none) (by rw [hbase]; rfl) hb ?_).1⟩
  rw [hbase, hexponent]
  exact hrep

end

variable {α : Type} [Field α] [LinearOrder α] [Scalar α] [ExactScalar α] {l r t : Tree α}
  {p q s : α[X]}

theorem isNear_of_eq {x : α} {c : Int} (h : x = c) : (num x).isNear 0 c := by
  simp only [isNear]
  rw [if_pos ((eq_iff (0 : α) _).2 ofInt_zero.symm), ofInt_eq]
  exact (eq_iff x c).2 h

namespace PolynomialTree

theorem int (n : Int) : PolynomialTree (Tree.int n : Tree α) (C (n : α)) := by
  rw [Tree.int, ofInt_eq]
  exact .num _

/-- A polynomial tree has a value everywhere. -/
theorem evaluate [IsStrictOrderedRing α] (hlaws : PolynomialLaws α) (h : PolynomialTree t p)
    (x : α) : t.evaluate [x] = .ok (p.eval x) := by
  induction h with
  | num c => rw [eval_C]; rfl
  | var => rw [eval_X]; rfl
  | add _ _ ihl ihr => rw [eval_add]; exact evaluate_add ihl ihr
  | sub _ _ ihl ihr => rw [eval_sub]; exact evaluate_sub ihl ihr
  | mul _ _ ihl ihr => rw [eval_mul]; exact evaluate_mul ihl ihr
  | pow n _ _ ih =>
    have hn : (Tree.num (n : α)).evaluate [x] = .ok ((n : Int) : α) := by
      rw [Int.cast_natCast]; rfl
    rw [evaluate_pow ih hn, eval_pow, Int.cast_natCast, hlaws.pow_natCast]
    rintro ⟨-, hneg⟩
    exact absurd hneg (by simp)

theorem replace_add (hl : PolynomialTree l p) (hr : PolynomialTree r q) :
    ∃ o, replace? 0 (.op .add) l r = .ok o ∧ PolynomialTree (o.getD (.add l r)) (p + q) := by
  refine hl.replace (by decide) ?_ (fun _ => hl.add hr) ?_
  · rintro x y rfl rfl
    exact ⟨x + y, Op.apply_add_eq_ok.2 rfl, by rw [hl.eq_C, hr.eq_C, C_add]⟩
  · rintro u - h
    cases h with
    | zero_add _ h =>
      rw [hl.eq_C, eq_of_isNear_zero h, Int.cast_zero, C_0, zero_add]
      exact hr
    | add_zero _ h =>
      rw [hr.eq_C, eq_of_isNear_zero h, Int.cast_zero, C_0, add_zero]
      exact hl
    | add_self i =>
      cases hl
      cases hr
      exact ((int 2).mul .var).of_eq (by rw [Int.cast_ofNat, C_ofNat, two_mul])

theorem replace_sub (hl : PolynomialTree l p) (hr : PolynomialTree r q) :
    ∃ o, replace? 0 (.op .sub) l r = .ok o ∧ PolynomialTree (o.getD (.sub l r)) (p - q) := by
  refine hl.replace (by decide) ?_ (fun _ => hl.sub hr) ?_
  · rintro x y rfl rfl
    exact ⟨x - y, Op.apply_sub_eq_ok.2 rfl, by rw [hl.eq_C, hr.eq_C, C_sub]⟩
  · rintro u - h
    cases h with
    | zero_sub _ h =>
      rw [hl.eq_C, eq_of_isNear_zero h]
      exact ((int (-1)).mul hr).of_eq (by simp)
    | sub_zero _ h =>
      rw [hr.eq_C, eq_of_isNear_zero h, Int.cast_zero, C_0, sub_zero]
      exact hl
    | sub_self i =>
      cases hl
      cases hr
      exact (int 0).of_eq (by simp)

theorem replace_mul (hl : PolynomialTree l p) (hr : PolynomialTree r q) :
    ∃ o, replace? 0 (.op .mul) l r = .ok o ∧ PolynomialTree (o.getD (.mul l r)) (p * q) := by
  refine hl.replace (by decide) ?_ (fun _ => hl.mul hr) ?_
  · rintro x y rfl rfl
    exact ⟨x * y, Op.apply_mul_eq_ok.2 rfl, by rw [hl.eq_C, hr.eq_C, C_mul]⟩
  · rintro u - h
    cases h with
    | zero_mul _ h =>
      rw [hl.eq_C, eq_of_isNear_zero h]
      exact (int 0).of_eq (by simp)
    | mul_zero _ h =>
      rw [hr.eq_C, eq_of_isNear_zero h]
      exact (int 0).of_eq (by simp)
    | one_mul _ h =>
      rw [hl.eq_C, eq_of_isNear_zero h, Int.cast_one, C_1, one_mul]
      exact hr
    | mul_one _ h =>
      rw [hr.eq_C, eq_of_isNear_zero h, Int.cast_one, C_1, mul_one]
      exact hl
    | mul_self i =>
      cases hl
      cases hr
      rw [← pow_two, Tree.int, ofInt_eq, show ((2 : Int) : α) = (2 : ℕ) by norm_num]
      exact .pow 2 .var fun h => absurd h two_ne_zero

/-- Over a settled base an exponent may be 0. -/
theorem replace_pow [IsStrictOrderedRing α] (hlaws : PolynomialLaws α) (n : ℕ)
    (hl : PolynomialTree l p) (hs : l.Settled 0) :
    ∃ o, replace? 0 (.op .pow) l (.num (n : α)) = .ok o ∧
      PolynomialTree (o.getD (.pow l (.num n))) (p ^ n) := by
  have hnum : ¬ Foldable l (.num (n : α)) → ∀ c, l ≠ .num c := by
    rintro hf c rfl
    exact hf (.operands _ _)
  refine hl.replace (by decide) ?_ (fun hf => .pow n hl fun _ => ⟨hs, hnum hf⟩) ?_
  · rintro x y rfl hy
    cases hy
    refine ⟨x ^ n, Op.apply_pow_eq_ok.2 ⟨?_, fun _ => ⟨n, (Int.cast_natCast n).symm⟩, ?_⟩, ?_⟩
    · rintro ⟨-, hneg⟩
      exact absurd hneg (by simp)
    · exact (hlaws.pow_natCast x n).symm
    · rw [hl.eq_C, C_pow]
  · intro u hf h
    cases h with
    | pow_one _ h =>
      have hn : n = 1 := by
        have := eq_of_isExactly h
        exact_mod_cast this
      rw [hn, pow_one]
      exact hl
    | one_pow _ _ => exact absurd rfl (hnum hf _)
    | zero_pow _ _ => exact absurd rfl (hnum hf _)

end PolynomialTree

/-! ### A pass -/

theorem Folds.sub_one (n : ℕ) : Folds (sub (.num ((n + 1 : ℕ) : α)) (int 1)) (n : α) := by
  have hv : Op.sub.apply ((n + 1 : ℕ) : α) (Scalar.ofInt 1) = .ok (n : α) := by
    rw [Op.apply_sub_eq_ok, ofInt_eq, Int.cast_one, Nat.cast_succ, add_sub_cancel_right]
  exact .of_apply (.num _) (.num _) hv

namespace Reduces

theorem int (n : Int) : Reduces (Tree.int n : Tree α) (C (n : α)) :=
  ⟨⟨none, rfl⟩, .int n⟩

theorem add (hl : Reduces l p) (hr : Reduces r q) : Reduces (add l r) (p + q) :=
  binary hl.1 hr.1 (hl.2.replace_add hr.2)

theorem sub (hl : Reduces l p) (hr : Reduces r q) : Reduces (sub l r) (p - q) :=
  binary hl.1 hr.1 (hl.2.replace_sub hr.2)

theorem mul (hl : Reduces l p) (hr : Reduces r q) : Reduces (mul l r) (p * q) :=
  binary hl.1 hr.1 (hl.2.replace_mul hr.2)

/-- A product with the factor 0 goes away, whatever the other factor. -/
theorem zero_mul (hr : ∃ b, (simplifyPass 0 r).outcome = .ok b) :
    Reduces (Tree.mul (.num 0) r) 0 := by
  refine binary ⟨none, rfl⟩ hr ?_
  show ∃ o, replace? 0 (.op .mul) (.num 0) (simplifyPass 0 r).tree = .ok o ∧ _
  by_cases hf : Foldable (.num 0) (simplifyPass 0 r).tree
  · obtain ⟨y, hy⟩ := hf.exists_num
    rw [hy]
    refine ⟨_, replace?_num_num rfl (Op.apply_mul_eq_ok.2 rfl), (PolynomialTree.num _).of_eq ?_⟩
    rw [MulZeroClass.zero_mul, C_0]
  · refine ⟨some (Tree.int 0), ?_, (PolynomialTree.int 0).of_eq (by simp)⟩
    rw [replace?_of_not_foldable rfl hf, identity?, isNear_of_eq (Int.cast_zero).symm]
    rfl

variable [IsStrictOrderedRing α]

theorem pow (hlaws : PolynomialLaws α) {n : ℕ} (hl : Reduces l p) (hr : Folds r n) :
    Reduces (pow l r) (p ^ n) := by
  obtain ⟨⟨a, ha⟩, hp⟩ := hl
  refine binary ⟨a, ha⟩ hr.1 ?_
  rw [hr.2]
  exact hp.replace_pow hlaws n (settled_simplifyPass apart_zero ha)

end Reduces

namespace PolynomialTree

/-- A pass keeps the polynomial. -/
theorem reduces [IsStrictOrderedRing α] (hlaws : PolynomialLaws α) (h : PolynomialTree t p) :
    Reduces t p := by
  induction h with
  | num c => exact ⟨⟨none, rfl⟩, .num c⟩
  | var => exact ⟨⟨none, rfl⟩, .var⟩
  | add _ _ ihl ihr => exact ihl.add ihr
  | sub _ _ ihl ihr => exact ihl.sub ihr
  | mul _ _ ihl ihr => exact ihl.mul ihr
  | pow n _ _ ih => exact ih.pow hlaws (.num _)

/-- A pass over the derivative leaves a tree for the derivative of the polynomial. The derivative is
about twice as deep at most. -/
theorem reduces_derivative [IsStrictOrderedRing α] (hlaws : PolynomialLaws α)
    (h : PolynomialTree t p) :
    ∃ d, t.differentiate? 0 = .ok d ∧ Reduces d (derivative p) ∧ d.depth ≤ 2 * t.depth + 1 := by
  induction h with
  | num c =>
    rw [derivative_C]
    exact ⟨Tree.int 0, rfl, (Reduces.int 0).of_eq (by simp), Nat.le_add_left 1 _⟩
  | var =>
    rw [derivative_X]
    exact ⟨Tree.int 1, rfl, (Reduces.int 1).of_eq (by simp), Nat.le_add_left 1 _⟩
  | add _ _ ihl ihr =>
    obtain ⟨dl, hdl, hl, hdepthl⟩ := ihl
    obtain ⟨dr, hdr, hr, hdepthr⟩ := ihr
    rw [derivative_add]
    refine ⟨_, differentiate?_add hdl hdr, hl.add hr, ?_⟩
    simp only [Tree.add, depth]
    omega
  | sub _ _ ihl ihr =>
    obtain ⟨dl, hdl, hl, hdepthl⟩ := ihl
    obtain ⟨dr, hdr, hr, hdepthr⟩ := ihr
    rw [derivative_sub]
    refine ⟨_, differentiate?_sub hdl hdr, hl.sub hr, ?_⟩
    simp only [Tree.sub, depth]
    omega
  | mul htl htr ihl ihr =>
    obtain ⟨dl, hdl, hl, hdepthl⟩ := ihl
    obtain ⟨dr, hdr, hr, hdepthr⟩ := ihr
    rw [derivative_mul]
    refine ⟨_, differentiate?_mul hdl hdr htl.copy?_eq htr.copy?_eq,
      (hl.mul (htr.reduces hlaws)).add ((htl.reduces hlaws).mul hr), ?_⟩
    simp only [Tree.mul, Tree.add, depth]
    omega
  | @pow l p n htl hzero ih =>
    obtain ⟨dl, hdl, hl, hdepth⟩ := ih
    refine ⟨_, differentiate?_pow_num (n : α) hdl htl.copy?_eq, ?_, ?_⟩
    · cases n with
      | zero =>
        -- the factor 0 does away with the power, which need not have a value
        obtain ⟨hs, hnum⟩ := hzero rfl
        have hexponent : Folds (Tree.sub (.num ((0 : ℕ) : α)) (Tree.int 1)) (-1 : α) :=
          .of_apply (.num _) (.num _) (Op.apply_sub_eq_ok.2 (by simp [ofInt_eq]))
        have hpower := exists_outcome_pow htl hs hnum hexponent
        simp only [Nat.cast_zero] at hpower ⊢
        exact ((Reduces.zero_mul hpower).mul hl).of_eq (by simp)
      | succ n =>
        have hfactor : PolynomialTree (.num ((n + 1 : ℕ) : α)) (C ((n : α) + 1)) :=
          (PolynomialTree.num _).of_eq (by rw [Nat.cast_succ])
        have hpower := (htl.reduces hlaws).pow hlaws (Folds.sub_one n)
        rw [derivative_pow_succ]
        exact ((hfactor.reduces hlaws).mul hpower).mul hl
    · have := depth_pos l
      simp only [Tree.mul, Tree.pow, Tree.sub, Tree.int, depth]
      omega

end PolynomialTree

end Tree

end FormulaCalculus
