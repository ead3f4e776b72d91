import FormulaCalculus.Proofs.Equation.Outcomes
import FormulaCalculus.Proofs.Taylor.Reproduction

/-!
# Faults of Taylor expansions

An expansion divides by the factorial of each order, as a double. From the order 171 on there is no
such double, so an expansion in a variable fails there however well the function behaves. Apart from
that and from a derivative too deep to be measured, an expansion fails for its table, its order or a
derivative that is undefined at the point.
-/

namespace FormulaCalculus

open FormulaCalculus.Tree

/-! ### Factorials -/

/-- The factorial of `n` is within reach of the numbers. -/
def FactorialFits (α : Type) [Scalar α] (n : ℕ) : Prop :=
  (Scalar.ofNat? n.factorial : Option α).isSome

section Doubles

variable [Elementary]

theorem factorialFits_iff {n : ℕ} : FactorialFits Float n ↔ (Float.ofNat n.factorial).isFinite := by
  simp only [FactorialFits, Scalar.ofNat?, Option.isSome_filter, Option.any_some]

theorem factorialFits_of_le {n : ℕ} (h : n ≤ 170) : FactorialFits Float n := by
  have hall : ∀ k : Fin 171, (Float.ofNat (k : ℕ).factorial).isFinite := by decide +kernel
  exact factorialFits_iff.2 (hall ⟨n, Nat.lt_succ_of_le h⟩)

theorem not_factorialFits : ¬ FactorialFits Float 171 := by
  have hinfinite : ¬ (Float.ofNat (Nat.factorial 171)).isFinite := by decide +kernel
  exact mt factorialFits_iff.1 hinfinite

theorem le_of_factorialFits {n : ℕ} (h : ∀ k, 0 < k → k ≤ n → FactorialFits Float k) :
    n ≤ 170 := by
  by_contra hlarge
  exact not_factorialFits (h 171 (by decide) (by omega))

end Doubles

variable {α : Type} [Scalar α] {ε point : α} {e : Equation α} {n count : ℕ} {t : Tree α}

/-! ### The terms -/

namespace Taylor

/-- What may stop an expansion up to an order once its first derivatives are to be formed from `t`,
`forms` of them. -/
inductive TermFault (ε : α) (t : Tree α) (order forms : ℕ) : Fault → Prop
  | domain (fault : DomainFault) : TermFault ε t order forms (.domain fault)
  | factorialOverflow {k : ℕ} (hk : k ≤ order) (h : ¬ FactorialFits α k) :
    TermFault ε t order forms .factorialOverflow
  | recursion (h : (formedDerivatives ε forms t).any isTooDeep) :
    TermFault ε t order forms .recursion

theorem TermFault.of_isDomain {order forms : ℕ} {fault : Fault} (h : fault.IsDomain) :
    TermFault ε t order forms fault := by
  obtain ⟨fault, rfl⟩ := h
  exact .domain fault

/-- A derivative that is formed first. -/
theorem TermFault.of_next {order forms : ℕ} {d : Tree α} (hd : t.differentiate? 0 = .ok d)
    {fault : Fault} (h : TermFault ε (simplifyPass ε d).tree order forms fault) :
    TermFault ε t order (forms + 1) fault := by
  cases h with
  | domain fault => exact .domain fault
  | factorialOverflow hk h => exact .factorialOverflow hk h
  | recursion h =>
    exact .recursion (by rw [formedDerivatives_succ hd, List.any_cons, h, Bool.or_true])

theorem TermFault.of_isTooDeep {order forms : ℕ} {d : Tree α} (hd : t.differentiate? 0 = .ok d)
    (h : d.isTooDeep) : TermFault ε t order (forms + 1) .recursion :=
  .recursion (by rw [formedDerivatives_succ hd, List.any_cons, h, Bool.true_or])

theorem exists_ensures_nextDerivative (h : e.Walkable) (ε : α) :
    ∃ d, e.root.differentiate? 0 = .ok d ∧
      Ensures (fun e' => e.Follows e' ∧ e'.root = (simplifyPass ε d).tree)
        (fun fault => ∀ order forms, TermFault ε e.root order (forms + 1) fault)
        (nextDerivative ε e).outcome := by
  obtain ⟨d, hd, hensures⟩ := h.exists_ensures_differentiate (le_refl 0) (by omega)
  refine ⟨d, hd, (hensures.imp_fault ?_).outcome_bind ?_⟩
  · rintro _ ⟨rfl, hdeep⟩ order forms
    exact .of_isTooDeep hd hdeep
  rintro _ ⟨rfl, hfollows⟩
  have hsimplify := hfollows.walkable.ensures_simplify ε
  refine (hsimplify.imp_fault fun _ h _ _ => .of_isDomain h).outcome_bind ?_
  rintro _ ⟨hequation, hfollows'⟩
  exact .ok ⟨hfollows.trans hfollows', by rw [hequation]; rfl⟩

/-- The terms are added one by one: each makes the sum a level deeper, divides by a factorial and,
but for the last one, asks for another derivative. -/
theorem ensures_addTerms (ε point : α) (count : ℕ) (h : e.Walkable) (hnames : e.names.length = 1)
    {total : Tree α} (hvalid : total.Valid (some 1)) (hdepth : total.depth ≤ n + 4) :
    Ensures (fun t => t.Valid (some 1) ∧ t.depth ≤ n + count + 4 ∧
        ∀ k, n < k → k ≤ n + count → FactorialFits α k)
      (TermFault ε e.root (n + count) (count - 1))
      (addTerms ε point count n n.factorial e total).outcome := by
  -- on the number of terms to come: `total` is the sum up to the order `n`, and `e` the derivative
  -- after it
  induction count generalizing n e total with
  | zero => exact .ok ⟨hvalid, hdepth, fun k hlow hhigh => absurd hlow (Nat.not_lt.2 hhigh)⟩
  | succ count ih =>
    have hfactorial : n.factorial * (n + 1) = (n + 1).factorial := by
      rw [Nat.factorial_succ, Nat.mul_comm]
    have hvalue := h.ensures_evaluate [point] (Nat.le_of_eq hnames)
    rw [addTerms]
    refine (hvalue.imp_fault fun _ => TermFault.of_isDomain).outcome_bind fun value _ => ?_
    refine Ensures.outcome_bind (P := fun _ => True) (.ok trivial) fun _ _ => ?_
    dsimp only
    rw [hfactorial]
    split
    · rename_i divisor hdivisor
      have hfits : FactorialFits α (n + 1) := by rw [FactorialFits, hdivisor]; rfl
      have hvalid' := Equation.valid_plusTerm Int.one_pos hvalid point (Scalar.div value divisor)
        (n + 1)
      have hdepth' := depth_plusTerm_le hdepth point (Scalar.div value divisor) (n + 1)
      split
      · rename_i hcount
        subst hcount
        exact .ok ⟨hvalid', hdepth', fun k hlow hhigh => Nat.le_antisymm hlow hhigh ▸ hfits⟩
      · rename_i hcount
        obtain ⟨m, rfl⟩ := Nat.exists_eq_succ_of_ne_zero hcount
        obtain ⟨d, hd, hnext⟩ := exists_ensures_nextDerivative h ε
        refine (hnext.imp_fault fun _ h => h _ m).outcome_bind ?_
        rintro e' ⟨hfollows, hroot⟩
        have hrest := ih hfollows.walkable (hfollows.names_eq ▸ hnames) hvalid' hdepth'
        rw [show n + 1 + (m + 1) = n + (m + 1 + 1) by omega, hroot] at hrest
        refine hrest.imp ?_ fun _ => .of_next hd
        rintro t ⟨hvalid, hdepth, hall⟩
        refine ⟨hvalid, hdepth, fun k hlow hhigh => ?_⟩
        rcases Nat.eq_or_lt_of_le (Nat.succ_le_of_lt hlow) with rfl | hlow
        · exact hfits
        · exact hall k hlow hhigh
    · rename_i hdivisor
      refine .error (.factorialOverflow (Nat.add_le_add_left (Nat.le_add_left 1 count) n) ?_)
      intro hfits
      obtain ⟨divisor, h⟩ := Option.isSome_iff_exists.1 hfits
      exact hdivisor divisor h

end Taylor

/-! ### Expansions -/

/-- What may stop the expansion of an equation. -/
inductive ExpansionFault (ε : α) (e : Equation α) (order : Option Int) : Fault → Prop
  | severalVariables (h : 1 < e.names.length) :
    ExpansionFault ε e order (.severalVariables e.names)
  | badOrder (h : ∀ n ∈ order, n < 0) : ExpansionFault ε e order .badOrder
  | domain (fault : DomainFault) : ExpansionFault ε e order (.domain fault)
  | term {fault : Fault} {n : ℕ} (hn : (n : Int) ∈ order) (hnames : e.names.length = 1)
    (h : Taylor.TermFault ε e.root n (max n 1) fault) : ExpansionFault ε e order fault

theorem ensures_expansionOrder? (e : Equation α) (order : Option Int) (ε : α) :
    Ensures (fun n : ℕ => (n : Int) ∈ order ∧ e.names.length ≤ 1) (ExpansionFault ε e order)
      (e.expansionOrder? order) := by
  unfold Equation.expansionOrder?
  split
  · rename_i hnames
    exact .error (.severalVariables hnames)
  rename_i hnames
  cases order with
  | none => exact .error (.badOrder nofun)
  | some n =>
    by_cases hn : 0 ≤ n
    · rw [Option.filter_some_pos (by simpa using hn)]
      exact .ok ⟨by rw [Int.toNat_of_nonneg hn]; rfl, Nat.not_lt.1 hnames⟩
    · rw [Option.filter_some_neg (by simpa using hn)]
      exact .error (.badOrder fun m hm => Option.some.inj hm ▸ Int.not_le.1 hn)

/-- The equation `p` is a polynomial of the order `n` over the table of `e`. -/
structure IsExpansion (e p : Equation α) (n : ℕ) : Prop where
  good : p.Good
  names_eq : p.names = e.names
  atMostOne : e.names.length ≤ 1
  terms : e.names = [] ∧ p.root.depth = 1 ∨
    p.root.depth ≤ n + 4 ∧ ∀ k, 0 < k → k ≤ n → FactorialFits α k

theorem Equation.Walkable.ensures_taylor (h : e.Walkable) (ε point : α) (order : Option Int) :
    Ensures (fun p => ∃ n : ℕ, (n : Int) ∈ order ∧ IsExpansion e p n) (ExpansionFault ε e order)
      (e.taylor ε order point).outcome := by
  rw [Equation.taylor]
  refine (ensures_expansionOrder? e order ε).outcome_bind fun n hn => ?_
  obtain ⟨hn, hnames⟩ := hn
  refine ((h.ensures_evaluate [point] hnames).imp_fault ?_).outcome_bind fun value _ => ?_
  · rintro _ ⟨fault, rfl⟩
    exact .domain fault
  split
  · rename_i hempty
    exact .ok ⟨n, hn, good_iff.2 (valid_num _), rfl, hnames, .inl ⟨List.isEmpty_iff.1 hempty, rfl⟩⟩
  · rename_i hempty
    have hone : e.names.length = 1 := by
      have := List.length_pos_iff.2 (mt List.isEmpty_iff.2 hempty)
      omega
    have hforms : n - 1 + 1 = max n 1 := by omega
    obtain ⟨d, hd, hnext⟩ := Taylor.exists_ensures_nextDerivative h ε
    refine (hnext.imp_fault fun _ h => .term hn hone (hforms ▸ h n _)).outcome_bind ?_
    rintro e' ⟨hfollows, hroot⟩
    have hterms := Taylor.ensures_addTerms (n := 0) ε point n
      hfollows.walkable (hfollows.names_eq ▸ hone) (valid_num value) (Nat.le_add_left 1 3)
    rw [hroot, Nat.zero_add] at hterms
    refine (hterms.imp_fault fun _ h =>
      .term hn hone (hforms ▸ .of_next hd h)).outcome_bind fun root hroot => .ok ?_
    obtain ⟨hvalid, hdepth, hfits⟩ := hroot
    exact ⟨n, hn, good_iff.2 (hone ▸ hvalid), rfl, hnames, .inr ⟨hdepth, hfits⟩⟩

/-- Doubles allow no terms above the order 170. -/
theorem IsExpansion.le_of_double [Elementary] {e p : Equation Float} (h : IsExpansion e p n) :
    e.names = [] ∨ n ≤ 170 :=
  h.terms.imp And.left fun h => le_of_factorialFits h.2

theorem IsExpansion.walkable [Elementary] {e p : Equation Float} (h : IsExpansion e p n) :
    p.Walkable := by
  refine ⟨h.good, ?_⟩
  rw [isTooDeep, decide_eq_false_iff_not, maxDepth]
  rcases h.terms with ⟨-, hdepth⟩ | ⟨hdepth, hfits⟩
  · omega
  · have := le_of_factorialFits hfits
    omega

namespace Equation

/-- An expansion of what a formula is read as fails for its table, for a negative order, for a
derivative that is undefined at the point, for a derivative too deep to be measured, or because the
order is above 170, where no expansion in a variable succeeds. -/
theorem taylor_faults [Elementary] {limit : Count} {formula : Option String} {e : Equation Float}
    (h : (Formula.parse limit formula).outcome = .ok e) (ε point : Float) (order : Int) :
    Ensures
      (fun p => p.Good ∧ p.names = e.names ∧ e.names.length ≤ 1 ∧ 0 ≤ order ∧
        (e.names = [] ∨ order ≤ 170))
      (fun fault => 1 < e.names.length ∧ fault = .severalVariables e.names ∨
        order < 0 ∧ fault = .badOrder ∨ fault.IsDomain ∨
        e.names.length = 1 ∧ 0 ≤ order ∧
          (170 < order ∧ fault = .factorialOverflow ∨
            (e.root.formedDerivatives ε (max order.toNat 1)).any isTooDeep ∧ fault = .recursion))
      (e.taylor ε (some order) point).outcome := by
  refine ((Formula.walkable_of_parse h).ensures_taylor ε point (some order)).imp ?_ ?_
  · rintro p ⟨n, hn, hp⟩
    obtain rfl := Option.some.inj hn
    exact ⟨hp.good, hp.names_eq, hp.atMostOne, Int.natCast_nonneg n,
      hp.le_of_double.imp_right Int.ofNat_le.2⟩
  · intro fault hfault
    cases hfault with
    | severalVariables h => exact .inl ⟨h, rfl⟩
    | badOrder h => exact .inr (.inl ⟨h order rfl, rfl⟩)
    | domain fault => exact .inr (.inr (.inl ⟨fault, rfl⟩))
    | @term _ n hn hnames h =>
      obtain rfl := Option.some.inj hn
      cases h with
      | domain fault => exact .inr (.inr (.inl ⟨fault, rfl⟩))
      | @factorialOverflow k hk h =>
        have hlarge : 170 < k := Nat.lt_of_not_le fun hle => h (factorialFits_of_le hle)
        exact .inr (.inr (.inr ⟨hnames, Int.natCast_nonneg n, .inl ⟨by omega, rfl⟩⟩))
      | recursion h =>
        exact .inr (.inr (.inr ⟨hnames, Int.natCast_nonneg n, .inr ⟨h, rfl⟩⟩))

/-- The formula `x` of the order 2 about 0. -/
theorem taylor_faults_identity :
    let e : Equation Float := ⟨.var 0, ["x"], by decide⟩
    (Formula.parse 100 (some "x")).outcome = .ok e ∧
      ∃ p, (e.taylor 1e-9 (some 2) 0).outcome = .ok p ∧ p.Good ∧ p.names = e.names := by
  intro e
  have hscan : Token.scan "x" = .ok [⟨.name ['x'], 0⟩, ⟨.finish, 1⟩] := by cbv
  have hok : (Formula.parse 100 (some "x")).outcome = .ok e := by
    rw [Formula.outcome_parse hscan]
    rfl
  have hensures := taylor_faults hok 1e-9 0 2
  obtain ⟨p, hp⟩ : ∃ p, (e.taylor 1e-9 (some 2) 0).outcome = .ok p := ⟨_, rfl⟩
  rw [hp] at hensures
  obtain ⟨hgood, hnames, -⟩ := hensures.value
  exact ⟨hok, p, hp, hgood, hnames⟩

set_option maxRecDepth 20000 in
/-- The formula `x` of the order 171 about 0. -/
theorem taylor_overflows :
    let e : Equation Float := ⟨.var 0, ["x"], by decide⟩
    (Formula.parse 100 (some "x")).outcome = .ok e ∧
      (e.taylor 1e-9 (some 171) 0).outcome = .error .factorialOverflow ∧
      Fault.factorialOverflow.family = .overflow := by
  intro e
  have hscan : Token.scan "x" = .ok [⟨.name ['x'], 0⟩, ⟨.finish, 1⟩] := by cbv
  have hfault : (e.taylor 1e-9 (some 171) 0).outcome.map (fun _ => ()) =
      .error .factorialOverflow := by decide +kernel
  refine ⟨?_, ?_, rfl⟩
  · rw [Formula.outcome_parse hscan]
    rfl
  · cases houtcome : (e.taylor 1e-9 (some 171) 0).outcome with
    | error fault => rw [houtcome] at hfault; cases hfault; rfl
    | ok p => rw [houtcome] at hfault; cases hfault

end Equation

end FormulaCalculus
