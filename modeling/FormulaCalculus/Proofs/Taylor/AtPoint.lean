import FormulaCalculus.Proofs.Simplify.Domain
import FormulaCalculus.Proofs.Taylor.Faults

/-!
# Taylor polynomials at their point

At the point of the expansion the base of the powers is a zero of either sign, hence so is each term
whose coefficient is finite, and the sum is the value it started with. Only the factorials bound the
number of terms, and the bound keeps the polynomial shallow enough to be walked.
-/

namespace FormulaCalculus

open Double FormulaCalculus.Tree

/-- A zero of either sign to the power of a positive integer is a zero. -/
def Elementary.ZeroPowers [Elementary] : Prop :=
  ∀ x y : Float, x == 0 → isWholeDouble y → Float.lt 0 y → pow x y == 0

theorem Elementary.zeroPowers_zeros : @ZeroPowers zeros := by
  intro x y hx _ hy
  change zeroPow x y == 0
  rw [zeroPow, hx, hy, Bool.and_self, if_pos rfl]
  decide +kernel

namespace Taylor

variable {α : Type}

/-- The numbers that the powers of a polynomial are multiplied by, of the highest order first. -/
def coefficients : Tree α → List α
  | .binary _ total (.binary _ (.num c) _) => c :: coefficients total
  | _ => []

variable [Scalar α] {ε a v : α} {e : Equation α} {n : ℕ} {t total : Tree α}

/-- The tree is the value `v` with terms of the orders 1, …, `n` added. -/
inductive IsSum (a v : α) : ℕ → Tree α → Prop
  | value : IsSum a v 0 (.num v)
  | term {n : ℕ} {total : Tree α} (c : α) (hfits : FactorialFits α (n + 1))
    (h : IsSum a v n total) : IsSum a v (n + 1) (plusTerm a c (n + 1) total)

theorem IsSum.depth_le (h : IsSum a v n t) : t.depth ≤ n + 4 := by
  induction h with
  | value => exact Nat.le_add_left 1 3
  | term c _ _ ih => exact depth_plusTerm_le ih a c _

theorem IsSum.factorialFits (h : IsSum a v n t) {k : ℕ} (hpos : 0 < k) (hk : k ≤ n) :
    FactorialFits α k := by
  induction h with
  | value => omega
  | @term n _ _ hfits _ ih =>
    rcases Nat.le_succ_iff.1 hk with hk | rfl
    · exact ih hk
    · exact hfits

/-- Each step of the loop adds a term. -/
theorem isSum_of_addTerms {count : ℕ} (htotal : IsSum a v n total)
    (h : (addTerms ε a count n n.factorial e total).outcome = .ok t) : IsSum a v (n + count) t := by
  induction count generalizing n e total with
  | zero =>
    cases h
    exact htotal
  | succ count ih =>
    obtain ⟨value, hvalue, divisor, hdivisor⟩ := exists_of_addTerms_succ h
    have hfits : FactorialFits α (n + 1) := by rw [FactorialFits, hdivisor]; rfl
    have hterm := htotal.term (Scalar.div value divisor) hfits
    rw [outcome_addTerms_succ hvalue hdivisor] at h
    rw [← Nat.add_assoc, Nat.add_right_comm]
    split at h
    · rename_i hcount
      subst hcount
      cases h
      exact hterm
    · cases hnext : (nextDerivative ε e).outcome with
      | error fault => rw [hnext] at h; cases h
      | ok e' =>
        rw [hnext] at h
        exact ih hterm h

/-- A polynomial that an expansion yields adds terms to the value at the point. -/
theorem exists_isSum_of_taylor {q : Equation α} {order : Option Int}
    (h : (e.taylor ε order a).outcome = .ok q) :
    ∃ v n, e.evaluate [a] = .ok v ∧ q.names = e.names ∧ IsSum a v n q.root := by
  rw [Equation.taylor] at h
  obtain ⟨n, -, h⟩ := Traced.exists_of_outcome_bind h
  obtain ⟨v, hv, h⟩ := Traced.exists_of_outcome_bind h
  split at h
  · cases h
    exact ⟨v, 0, hv, rfl, .value⟩
  · obtain ⟨e', -, h⟩ := Traced.exists_of_outcome_bind h
    obtain ⟨t, ht, h⟩ := Traced.exists_of_outcome_bind h
    cases h
    exact ⟨v, 0 + n, hv, rfl, isSum_of_addTerms .value ht⟩

/-! ### Values of doubles -/

theorem positive_doubleOfInt {n : ℕ} (hpos : 0 < n) (hn : n < 2 ^ 53) :
    isWholeDouble (doubleOfInt n) ∧ Float.lt 0 (doubleOfInt n) ∧
      Float.lt (doubleOfInt n) 0 = false := by
  have hdouble : doubleOfInt n = Float.ofNat n := by
    rw [doubleOfInt, if_neg (Int.not_lt.2 (Int.natCast_nonneg n)), Int.natAbs_natCast]
  have hunpack := unpack_ofNat hpos hn
  have hlog : n.log2 < 53 := (Nat.log2_lt hpos.ne').2 hn
  have hshift : (-((n.log2 : Int) - 52)).toNat = 52 - n.log2 := by omega
  rw [hdouble, lt_eq, lt_eq, hunpack, unpack_zero, isWholeDouble, hunpack]
  refine ⟨?_, rfl, rfl⟩
  dsimp only
  rw [hshift, Nat.shiftLeft_eq, beq_iff_eq]
  exact Nat.mul_mod_left _ _

section Doubles

variable [Elementary] {a v : Float} {n : ℕ} {t : Tree Float}

theorem exists_evaluate_base (ha : a.isFinite) : ∃ z, (base a).evaluate [a] = .ok z ∧ z == 0 := by
  unfold base
  split
  · rename_i hzero
    exact ⟨a, rfl, hzero⟩
  · exact ⟨a - a, rfl, (alike_sub_self ha).beq_zero⟩

theorem exists_evaluate_power (hP : Elementary.ZeroPowers) (ha : a.isFinite) (hpos : 0 < n)
    (hn : n < 2 ^ 53) : ∃ z, (Tree.pow (base a) (.int n)).evaluate [a] = .ok z ∧ z == 0 := by
  obtain ⟨z, hz, hzero⟩ := exists_evaluate_base ha
  obtain ⟨hwhole, hpositive, hnegative⟩ := positive_doubleOfInt hpos hn
  have hpower : Op.pow.apply z (doubleOfInt n) = .ok (powDouble z (doubleOfInt n)) := by
    rw [Op.apply_pow_eq, hnegative, hwhole, Bool.and_false, Bool.not_true, Bool.and_false]
    rfl
  refine ⟨powDouble z (doubleOfInt n), ?_,
    beq_zero_powDouble hzero hpositive (hP z (doubleOfInt n) hzero hwhole hpositive)⟩
  exact (evaluate_binary hz rfl).trans (congrArg (Except.mapError Fault.domain) hpower)

/-- Terms with finite coefficients do not change the sum. -/
theorem IsSum.evaluate (hP : Elementary.ZeroPowers) (ha : a.isFinite) (h : IsSum a v n t)
    (hc : ∀ c ∈ coefficients t, c.isFinite) : ∃ w, t.evaluate [a] = .ok w ∧ Alike w v := by
  have hn := le_of_factorialFits fun _ => h.factorialFits
  induction h with
  | value => exact ⟨v, rfl, .refl v⟩
  | @term n total c _ _ ih =>
    have hc' := List.forall_mem_cons.1 hc
    obtain ⟨w, hw, hwv⟩ := ih hc'.2 (Nat.le_of_succ_le hn)
    obtain ⟨z, hz, hzero⟩ := exists_evaluate_power hP ha n.succ_pos (by omega)
    have hterm : c * z == 0 := beq_mul_zero hzero (.inl hc'.1)
    refine ⟨w + c * z, ?_, (alike_add_zero hterm).trans hwv⟩
    exact evaluate_binary hw (evaluate_binary (c := .op .mul) rfl hz)

end Doubles

end Taylor

/-- At its point a Taylor polynomial with finite coefficients has the value of the function. -/
theorem Equation.evaluate_taylor [Elementary] (hP : Elementary.ZeroPowers) {e q : Equation Float}
    {ε a : Float} {order : Option Int} (h : (e.taylor ε order a).outcome = .ok q)
    (ha : a.isFinite) (hc : ∀ c ∈ Taylor.coefficients q.root, c.isFinite) :
    ∃ v w, e.evaluate [a] = .ok v ∧ q.evaluate [a] = .ok w ∧ Alike w v := by
  obtain ⟨v, n, hv, hnames, hsum⟩ := Taylor.exists_isSum_of_taylor h
  obtain ⟨w, hw, hwv⟩ := hsum.evaluate hP ha hc
  have hn : n ≤ 170 := le_of_factorialFits fun _ => hsum.factorialFits
  have hshallow : q.root.isTooDeep = false := by
    have := hsum.depth_le
    rw [isTooDeep, decide_eq_false_iff_not, maxDepth]
    omega
  refine ⟨v, w, hv, evaluate_eq_ok.2 ⟨?_, hshallow, hw⟩, hwv⟩
  rw [hnames]
  exact (evaluate_eq_ok.1 hv).1

/-- `x * x` of the order 2 about 0.5, where it is 0.25. -/
theorem Equation.evaluate_taylor_square :
    letI : Elementary := .zeros
    let e : Equation Float := ⟨.mul (.var 0) (.var 0), ["x"], by decide⟩
    let base : Tree Float := .sub (.var 0) (.num 0.5)
    let q : Tree Float := .add (.add (.num 0.25) (.mul (.num 1) (.pow base (.int 1))))
      (.mul (.num 1) (.pow base (.int 2)))
    Elementary.ZeroPowers ∧ (e.taylor 1e-9 (some 2) 0.5).outcome = .ok (e.withRoot q) ∧
      (0.5 : Float).isFinite ∧ (∀ c ∈ Taylor.coefficients q, c.isFinite) ∧
      ∃ w, (e.withRoot q).evaluate [0.5] = .ok w ∧ Alike w 0.25 := by
  intro e base q
  have hP := Elementary.zeroPowers_zeros
  have ha : (0.5 : Float).isFinite := by decide +kernel
  have hcoefficients : Taylor.coefficients q = [1, 1] := rfl
  have hc : ∀ c ∈ Taylor.coefficients q, c.isFinite := by
    rw [hcoefficients]
    decide +kernel
  obtain ⟨v, w, hv, hw, hwv⟩ :=
    @Equation.evaluate_taylor .zeros hP e (e.withRoot q) 1e-9 0.5 (some 2) rfl ha hc
  cases hv
  exact ⟨hP, rfl, ha, hc, w, hw, hwv⟩

end FormulaCalculus
