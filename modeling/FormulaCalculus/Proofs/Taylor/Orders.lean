import FormulaCalculus.Proofs.Simplify.Interruption
import FormulaCalculus.Proofs.Simplify.Meaning
import FormulaCalculus.Taylor

/-!
# Taylor polynomials of different orders

An expansion adds one term for each order and forms a derivative only where a term is still to come.
So the sum of a higher order has the sums of all lower ones as its left operands. The first
derivative is the exception: it is formed before the loop, also where the order asks for no term.
-/

namespace FormulaCalculus

open FormulaCalculus.Tree

variable {α : Type} [Scalar α] {ε a : α} {e e' : Equation α} {n : ℕ}

/-! ### Forming a derivative -/

theorem Tree.isComplete_of_evaluate {t : Tree α} {values : List α} {v : α}
    (h : t.evaluate values = .ok v) : t.isComplete := by
  induction t generalizing v with
  | num | var => rfl
  | binary c l r ihl ihr =>
    obtain ⟨x, y, hx, hy, -⟩ := evaluate_binary_eq_ok h
    simp only [isComplete, ihl hx, ihr hy, Bool.and_self]
  | call c t ih =>
    obtain ⟨y, hy, -⟩ := evaluate_call_eq_ok h
    simp only [isComplete, ih hy]
  | foreign | missing => cases h

namespace Equation

/-- The derivative of an equation in one variable is formed by the rules and then measured. -/
theorem outcome_differentiate (hn : e.names.length ≤ 1) (hc : e.root.isComplete)
    (hd : e.root.isTooDeep = false) : (e.differentiate 0).outcome = do
      let d ← e.root.differentiate? 0
      let _ ← d.size?
      return e.withRoot d := by
  have hindex : ¬ ((0 : Int) < 0 ∨ ((max e.names.length 1 : ℕ) : Int) ≤ 0) := by omega
  have hdeep : ¬ e.root.isTooDeep = true := by rw [hd]; exact Bool.false_ne_true
  rw [differentiate, if_neg hindex, if_neg hdeep]
  simp only [Traced.outcome_bind, Traced.outcome_ofExcept, Tree.size?_of_isComplete hc hd]
  rfl

end Equation

namespace Taylor

theorem nextDerivative_eq_ok :
    (nextDerivative ε e).outcome = .ok e' ↔ ∃ d, (e.differentiate 0).outcome = .ok d ∧
      (d.simplify ε).result.outcome = .ok () ∧ e' = (d.simplify ε).equation := by
  constructor
  · intro h
    obtain ⟨d, hd, h⟩ := Traced.exists_of_outcome_bind h
    obtain ⟨⟨⟩, hs, h⟩ := Traced.exists_of_outcome_bind h
    exact ⟨d, hd, hs, (Except.ok.inj h).symm⟩
  · rintro ⟨d, hd, hs, rfl⟩
    rw [nextDerivative, Traced.outcome_bind, hd]
    exact (Traced.outcome_bind _ _).trans (by rw [hs]; rfl)

/-- The next derivative is formed by the rules, measured, and simplified by a pass. -/
theorem outcome_nextDerivative_eq (hn : e.names.length ≤ 1) (hc : e.root.isComplete)
    (hd : e.root.isTooDeep = false) (ε : α) : (nextDerivative ε e).outcome = do
      let d ← e.root.differentiate? 0
      let _ ← d.size?
      let _ ← (d.simplifyPass ε).outcome
      return e.withRoot (d.simplifyPass ε).tree := by
  rw [nextDerivative, Traced.outcome_bind, Equation.outcome_differentiate hn hc hd]
  simp only [Traced.outcome_bind]
  cases e.root.differentiate? 0 with
  | error fault => rfl
  | ok d =>
    cases hsize : d.size? with
    | error fault => simp only [bind, Except.bind, hsize]
    | ok n =>
      obtain ⟨hequation, hresult⟩ := Equation.simplify_of_size? (e := e.withRoot d) hsize ε
      simp only [bind, Except.bind, hsize, pure, Except.pure, hresult, hequation,
        Equation.root_withRoot]
      cases (d.simplifyPass ε).outcome <;> rfl

/-! ### Adding terms -/

theorem depth_plusTerm_le {total : Tree α} {n : ℕ} (h : total.depth ≤ n + 4) (a c : α) (k : ℕ) :
    (plusTerm a c k total).depth ≤ n + 1 + 4 := by
  have hbase : (base a).depth ≤ 2 := by
    unfold base
    split
    · exact Nat.le_succ 1
    · exact Nat.le_refl 2
  simp only [plusTerm, Tree.add, Tree.mul, Tree.pow, Tree.int, Tree.depth]
  omega

/-- A term is added, and the derivative after it is formed unless the term was the last one. -/
theorem outcome_addTerms_succ {value divisor : α} {count : ℕ} {total : Tree α}
    (hvalue : e.evaluate [a] = .ok value)
    (hdivisor : Scalar.ofNat? (n + 1).factorial = some divisor) :
    (addTerms ε a (count + 1) n n.factorial e total).outcome =
      if count = 0 then .ok (plusTerm a (Scalar.div value divisor) (n + 1) total)
      else (nextDerivative ε e).outcome >>= fun e' =>
        (addTerms ε a count (n + 1) (n + 1).factorial e'
          (plusTerm a (Scalar.div value divisor) (n + 1) total)).outcome := by
  have hfactorial : n.factorial * (n + 1) = (n + 1).factorial := by
    rw [Nat.factorial_succ, Nat.mul_comm]
  rw [addTerms]
  simp only [Traced.outcome_bind, Traced.outcome_ofExcept, Traced.outcome_report, hvalue,
    hfactorial, hdivisor]
  simp only [bind, Except.bind]
  split
  · rfl
  · exact Traced.outcome_bind _ _

/-- A term that has been added comes from a value and a factorial. -/
theorem exists_of_addTerms_succ {count : ℕ} {total t : Tree α}
    (h : (addTerms ε a (count + 1) n n.factorial e total).outcome = .ok t) :
    ∃ value, e.evaluate [a] = .ok value ∧
      ∃ divisor : α, Scalar.ofNat? (n + 1).factorial = some divisor := by
  rw [addTerms, Nat.mul_comm n.factorial, ← Nat.factorial_succ] at h
  obtain ⟨value, hvalue, h⟩ := Traced.exists_of_outcome_bind h
  obtain ⟨-, -, h⟩ := Traced.exists_of_outcome_bind h
  dsimp only at h
  split at h
  · rename_i divisor hdivisor
    exact ⟨value, hvalue, divisor, hdivisor⟩
  · cases h

/-- The tree `t` is `total` with the terms of the orders `n + 1`, …, `n + count` added. The
coefficients come from the values of `d 0`, `d 1`, … at `a`, and each of these equations is the next
derivative of the one before. -/
structure Extends (ε a : α) (n count : ℕ) (d : ℕ → Equation α) (total t : Tree α) : Prop where
  left_eq : left^[count] t = total
  terms : ∀ k < count, ∃ value divisor, (d k).evaluate [a] = .ok value ∧
    Scalar.ofNat? (n + k + 1).factorial = some divisor ∧
    left^[count - (k + 1)] t =
      plusTerm a (Scalar.div value divisor) (n + k + 1) (left^[count - k] t)
  next : ∀ k, k + 1 < count → (nextDerivative ε (d k)).outcome = .ok (d (k + 1))

/-- The equation `e` and then the equations `d`. -/
def cons (e : Equation α) (d : ℕ → Equation α) : ℕ → Equation α
  | 0 => e
  | k + 1 => d k

namespace Extends

variable {d : ℕ → Equation α} {total t : Tree α} {value divisor : α} {count : ℕ}

theorem zero (ε a : α) (n : ℕ) (d : ℕ → Equation α) (t : Tree α) : Extends ε a n 0 d t t :=
  ⟨rfl, nofun, nofun⟩

/-- A first term, with what is added after it. -/
theorem succ (hvalue : e.evaluate [a] = .ok value)
    (hdivisor : Scalar.ofNat? (n + 1).factorial = some divisor)
    (hnext : 0 < count → (nextDerivative ε e).outcome = .ok (d 0))
    (h : Extends ε a (n + 1) count d (plusTerm a (Scalar.div value divisor) (n + 1) total) t) :
    Extends ε a n (count + 1) (cons e d) total t := by
  have hleft : left^[count + 1] t = total := by
    rw [Function.iterate_succ_apply', h.left_eq]
    rfl
  refine ⟨hleft, fun k hk => ?_, fun k hk => ?_⟩
  · cases k with
    | zero =>
      refine ⟨value, divisor, hvalue, hdivisor, ?_⟩
      rw [Nat.zero_add, Nat.add_sub_cancel, Nat.sub_zero, hleft]
      exact h.left_eq
    | succ k =>
      have hterm := h.terms k (Nat.lt_of_succ_lt_succ hk)
      rw [Nat.add_right_comm n 1 k] at hterm
      rwa [Nat.add_sub_add_right, Nat.add_sub_add_right]
  · cases k with
    | zero => exact hnext (Nat.lt_of_succ_lt_succ hk)
    | succ k => exact h.next k (Nat.lt_of_succ_lt_succ hk)

end Extends

/-- A run of the loop that ends adds its terms to the sum. -/
theorem exists_extends_of_addTerms {count : ℕ} {total t : Tree α}
    (h : (addTerms ε a count n n.factorial e total).outcome = .ok t) :
    ∃ d, d 0 = e ∧ Extends ε a n count d total t := by
  induction count generalizing n e total with
  | zero =>
    cases h
    exact ⟨fun _ => e, rfl, .zero ε a n _ t⟩
  | succ count ih =>
    obtain ⟨value, hvalue, divisor, hdivisor⟩ := exists_of_addTerms_succ h
    rw [outcome_addTerms_succ hvalue hdivisor] at h
    split at h
    · rename_i hcount
      subst hcount
      cases h
      exact ⟨cons e fun _ => e, rfl, .succ hvalue hdivisor nofun (.zero ..)⟩
    · cases hnext : (nextDerivative ε e).outcome with
      | error fault => rw [hnext] at h; cases h
      | ok e' =>
        rw [hnext] at h
        obtain ⟨d, rfl, hd⟩ := ih h
        exact ⟨cons e d, rfl, .succ hvalue hdivisor (fun _ => hnext) hd⟩

/-- The sum after fewer terms is a left operand. -/
theorem addTerms_of_le {count : ℕ} {total t : Tree α}
    (h : (addTerms ε a count n n.factorial e total).outcome = .ok t) {m : ℕ} (hm : m ≤ count) :
    (addTerms ε a m n n.factorial e total).outcome = .ok (left^[count - m] t) := by
  induction count generalizing n e total m with
  | zero =>
    obtain rfl := Nat.le_zero.1 hm
    exact h
  | succ count ih =>
    cases m with
    | zero =>
      obtain ⟨d, -, hd⟩ := exists_extends_of_addTerms h
      exact congrArg Except.ok hd.left_eq.symm
    | succ m =>
      obtain ⟨value, hvalue, divisor, hdivisor⟩ := exists_of_addTerms_succ h
      rw [outcome_addTerms_succ hvalue hdivisor] at h ⊢
      rw [Nat.add_sub_add_right]
      have hm' := Nat.le_of_succ_le_succ hm
      split at h
      · rename_i hcount
        subst hcount
        obtain rfl := Nat.le_zero.1 hm'
        exact h
      · cases hnext : (nextDerivative ε e).outcome with
        | error fault => rw [hnext] at h; cases h
        | ok e' =>
          rw [hnext] at h
          have hrest := ih h hm'
          split
          · rename_i hzero
            subst hzero
            exact hrest
          · exact hrest

end Taylor

namespace Equation

open Taylor

omit [Scalar α] in
theorem expansionOrder?_natCast (hn : e.names.length ≤ 1) (order : ℕ) :
    e.expansionOrder? (some (order : Int)) = .ok order := by
  have hfilter : (some (order : Int)).filter (0 ≤ ·) = some (order : Int) := by simp
  rw [expansionOrder?, if_neg (Nat.not_lt.2 hn), hfilter]
  rfl

/-- An expansion evaluates first. Where there is a variable, it then forms a derivative, whatever
the order is, and adds the terms. -/
theorem outcome_taylor_eq (hn : e.names.length ≤ 1) (order : ℕ) (ε a : α) :
    (e.taylor ε (some order) a).outcome = e.evaluate [a] >>= fun value =>
      if e.names = [] then .ok (e.withRoot (.num value))
      else (nextDerivative ε e).outcome >>= fun e' =>
        (addTerms ε a order 0 (Nat.factorial 0) e' (.num value)).outcome.map e.withRoot := by
  rw [taylor, Traced.outcome_bind, Traced.outcome_ofExcept, expansionOrder?_natCast hn]
  cases hvalue : e.evaluate [a] with
  | error fault => simp only [bind, Except.bind, Traced.ofExcept]
  | ok value =>
    simp only [bind, Except.bind, Traced.ofExcept]
    cases hnames : e.names with
    | nil => rfl
    | cons x names =>
      simp only [List.isEmpty_cons, Bool.false_eq_true, if_false, reduceCtorEq]
      cases (nextDerivative ε e).outcome with
      | error fault => rfl
      | ok e' => exact Traced.outcome_bind _ _

theorem outcome_taylor {x : String} {v : α} {order : ℕ} (hnames : e.names = [x])
    (hvalue : e.evaluate [a] = .ok v) :
    (e.taylor ε (some order) a).outcome = (nextDerivative ε e).outcome >>= fun e' =>
      (addTerms ε a order 0 (Nat.factorial 0) e' (.num v)).outcome.map e.withRoot := by
  have hn : e.names.length ≤ 1 := by rw [hnames]; exact Nat.le_refl 1
  rw [outcome_taylor_eq hn, hvalue, hnames]
  rfl

/-- What an expansion in a variable that succeeds consists of. -/
theorem exists_of_taylor {x : String} {order : ℕ} {q : Equation α} (hnames : e.names = [x])
    (h : (e.taylor ε (some order) a).outcome = .ok q) :
    ∃ v e' t, e.evaluate [a] = .ok v ∧ (nextDerivative ε e).outcome = .ok e' ∧
      (addTerms ε a order 0 (Nat.factorial 0) e' (.num v)).outcome = .ok t ∧ q = e.withRoot t := by
  have hn : e.names.length ≤ 1 := by rw [hnames]; exact Nat.le_refl 1
  cases hvalue : e.evaluate [a] with
  | error fault =>
    rw [outcome_taylor_eq hn, hvalue] at h
    cases h
  | ok v =>
    rw [outcome_taylor hnames hvalue] at h
    cases he : (nextDerivative ε e).outcome with
    | error fault => rw [he] at h; cases h
    | ok e' =>
      rw [he] at h
      cases ht : (addTerms ε a order 0 (Nat.factorial 0) e' (.num v)).outcome with
      | error fault => simp only [bind, Except.bind, ht] at h; cases h
      | ok t =>
        simp only [bind, Except.bind, ht] at h
        exact ⟨v, e', t, rfl, rfl, ht, (Except.ok.inj h).symm⟩

/-- Taylor polynomials extend each other: where the expansion of the order `n` of an equation in one
variable succeeds, so does that of each lower order `m`, and its tree is the left operand `n - m`
levels down. The innermost one is the value at the point. The one of the order `k + 1` adds the
power of that order to the one of the order `k`, with the value of the derivative of that order over
the factorial, where a derivative is formed from the one before and simplified by a pass. -/
theorem taylor_extends (e : Equation α) (x : String) (hnames : e.names = [x]) (ε a : α) (n : ℕ)
    (q : Equation α) (hq : (e.taylor ε (some n) a).outcome = .ok q) :
    (∀ m ≤ n, (e.taylor ε (some m) a).outcome = .ok (e.withRoot (left^[n - m] q.root))) ∧
    (∃ v, e.evaluate [a] = .ok v ∧ left^[n] q.root = .num v) ∧
    ∃ d : ℕ → Equation α, d 0 = e ∧ ∀ k < n,
      (∃ d', ((d k).differentiate 0).outcome = .ok d' ∧ (d'.simplify ε).result.outcome = .ok () ∧
        d (k + 1) = (d'.simplify ε).equation) ∧
      ∃ value divisor, (d (k + 1)).evaluate [a] = .ok value ∧
        Scalar.ofNat? (k + 1).factorial = some divisor ∧
        left^[n - (k + 1)] q.root = add (left^[n - k] q.root)
          (mul (.num (Scalar.div value divisor))
            (pow (if Scalar.eq a (Scalar.ofInt 0) then .var 0 else sub (.var 0) (.num a))
              (int (k + 1 : ℕ)))) := by
  obtain ⟨v, e', t, hvalue, he, ht, rfl⟩ := exists_of_taylor hnames hq
  obtain ⟨d, rfl, hd⟩ := exists_extends_of_addTerms ht
  refine ⟨fun m hm => ?_, ⟨v, hvalue, hd.left_eq⟩, cons e d, rfl, fun k hk => ⟨?_, ?_⟩⟩
  · rw [outcome_taylor hnames hvalue, he]
    exact congrArg (Except.map e.withRoot) (addTerms_of_le ht hm)
  · refine nextDerivative_eq_ok.1 ?_
    cases k with
    | zero => exact he
    | succ k => exact hd.next k hk
  · have hterm := hd.terms k hk
    rwa [Nat.zero_add] at hterm

/-- `x * x` of the order 2 about 0.5, and of the order 1. -/
theorem taylor_extends_square :
    let e : Equation Float := ⟨.mul (.var 0) (.var 0), ["x"], by decide⟩
    let base : Tree Float := .sub (.var 0) (.num 0.5)
    let p : Tree Float := .add (.num 0.25) (.mul (.num 1) (.pow base (.int 1)))
    let q : Tree Float := .add p (.mul (.num 1) (.pow base (.int 2)))
    e.names = ["x"] ∧ (e.taylor 1e-9 (some 2) 0.5).outcome = .ok (e.withRoot q) ∧
      (e.taylor 1e-9 (some 1) 0.5).outcome = .ok (e.withRoot p) := by
  intro e base p q
  have hq : (e.taylor 1e-9 (some 2) 0.5).outcome = .ok (e.withRoot q) := rfl
  obtain ⟨hlower, -⟩ := taylor_extends e "x" rfl 1e-9 0.5 2 (e.withRoot q) hq
  exact ⟨rfl, hq, hlower 1 one_le_two⟩

/-- An expansion of the order 0 is the value at the point and needs no derivative. But where there
is a variable, the first derivative is formed, measured and simplified all the same, and a fault in
that is the fault of the expansion. -/
theorem outcome_taylor_zero (e : Equation α) (hn : e.names.length ≤ 1) (ε a v : α)
    (hvalue : e.evaluate [a] = .ok v) :
    (e.taylor ε (some 0) a).outcome =
      if e.names = [] then .ok (e.withRoot (.num v))
      else do
        let d ← e.root.differentiate? 0
        let _ ← d.size?
        let _ ← (d.simplifyPass ε).outcome
        return e.withRoot (.num v) := by
  obtain ⟨-, hdeep, hroot⟩ := evaluate_eq_ok.1 hvalue
  have hnext := outcome_nextDerivative_eq hn (isComplete_of_evaluate hroot) hdeep ε
  rw [show (0 : Int) = ((0 : ℕ) : Int) from rfl, outcome_taylor_eq hn, hvalue, hnext]
  simp only [bind, Except.bind]
  cases e.root.differentiate? 0 with
  | error fault => rfl
  | ok d =>
    cases hsize : d.size? with
    | error fault => simp only [hsize]
    | ok n =>
      simp only [hsize]
      cases (d.simplifyPass ε).outcome <;> rfl

/-- `x * x` of the order 0 about 0.5. -/
theorem outcome_taylor_zero_square :
    let e : Equation Float := ⟨.mul (.var 0) (.var 0), ["x"], by decide⟩
    e.names.length ≤ 1 ∧ e.evaluate [0.5] = .ok 0.25 ∧
      (e.taylor 1e-9 (some 0) 0.5).outcome = .ok (e.withRoot (.num 0.25)) := by
  intro e
  have hvalue : e.evaluate [0.5] = .ok 0.25 := rfl
  have hzero := outcome_taylor_zero e (le_refl 1) 1e-9 0.5 0.25 hvalue
  rw [if_neg (List.cons_ne_nil "x" [])] at hzero
  exact ⟨le_refl 1, hvalue, hzero⟩

/-- `x + sqrt(0)` has the value 1 at 1 and no expansion of the order 0 there: the derivative
`1 + 0 / (2 * sqrt(0))`, which no term asks for, cannot be simplified. -/
theorem taylor_zero_fails :
    let e : Equation Float := ⟨.add (.var 0) (.call (.op .sqrt) (.num 0)), ["x"], by decide⟩
    e.names.length ≤ 1 ∧ e.evaluate [1] = .ok 1 ∧
      (e.taylor 1e-9 (some 0) 1).outcome = .error (.domain .divisionByZero) :=
  ⟨le_refl 1, rfl, rfl⟩

end Equation

end FormulaCalculus
