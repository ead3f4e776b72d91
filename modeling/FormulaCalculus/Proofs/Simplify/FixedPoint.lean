import FormulaCalculus.Proofs.Double.Order
import FormulaCalculus.Proofs.Simplify.Settled

/-!
# Passes reach a fixed point at once

On doubles the numerals of the identities are apart from 0 and 1 for every tolerance up to 1, since
they lie at least 1 away and the comparison is strict. So one pass settles a tree, and repeating
passes stops after the second at the latest.
-/

namespace FormulaCalculus

namespace Tree

theorem isNear_num_eq_false {ε v : Float} {c : Int} (heq : Scalar.eq v (Scalar.ofInt c) = false)
    (hlt : Float.lt (Scalar.abs (Scalar.sub v (Scalar.ofInt c))) ε = false) :
    (num v).isNear ε c = false := by
  simp only [isNear]
  split
  · exact heq
  · exact hlt

/-- At a tolerance up to 1 nothing is near both 1 and 2, or near both -1 and 0. -/
theorem apart_of_le_one {ε : Float} (h : ε ≤ 1) : Apart ε := by
  obtain ⟨h1, h2⟩ := Double.lt_eq_false_of_le_one h
  exact {
    two_zero := isNear_num_eq_false (by decide +kernel) h2
    two_one := isNear_num_eq_false (by decide +kernel) h1
    neg_zero := isNear_num_eq_false (by decide +kernel) h1
    neg_one := isNear_num_eq_false (by decide +kernel) h2
    two_exact := by decide +kernel }

end Tree

namespace Equation

variable {α : Type} [Scalar α] {ε : α}

theorem runPass_eq {e : Equation α} (hd : e.root.isTooDeep = false) : e.runPass ε =
    (e.withRoot (e.root.simplifyPass ε).tree,
      (e.root.simplifyPass ε).outcome.map fun _ => (e.root.simplifyPass ε).replaced) := by
  simp only [runPass, Tree.simplify?_eq_ok.2 ⟨hd, rfl⟩]

theorem runPass_of_simplifyPass {e : Equation α} {o : Option (Tree α)}
    (hd : e.root.isTooDeep = false) (ho : (e.root.simplifyPass ε).outcome = .ok o) : e.runPass ε =
      (e.withRoot (e.root.simplifyPass ε).tree, .ok (e.root.simplifyPass ε).replaced) := by
  rw [runPass_eq hd, ho]
  rfl

/-- A pass over an equation that succeeds is a pass over its tree. -/
theorem runPass_eq_ok {e e' : Equation α} {n : Nat} (h : e.runPass ε = (e', .ok n)) :
    ∃ p o, e.root.simplify? ε = .ok p ∧ p.outcome = .ok o ∧ e' = e.withRoot p.tree ∧
      n = p.replaced := by
  unfold runPass at h
  cases hp : e.root.simplify? ε with
  | error fault => rw [hp] at h; cases h
  | ok p =>
    rw [hp] at h
    cases ho : p.outcome with
    | error fault => simp only [ho, Except.map, Prod.mk.injEq] at h; cases h.2
    | ok o =>
      simp only [ho, Except.map, Prod.mk.injEq, Except.ok.injEq] at h
      exact ⟨p, o, rfl, ho, h.1.symm, h.2.symm⟩

/-- A pass after a pass replaces nothing. -/
theorem runPass_runPass (hA : Tree.Apart ε) {e e' : Equation α} {n : Nat}
    (h : e.runPass ε = (e', .ok n)) : e'.runPass ε = (e', .ok 0) := by
  obtain ⟨p, o, hp, ho, rfl, -⟩ := runPass_eq_ok h
  unfold runPass
  rw [show (e.withRoot p.tree).root = p.tree from rfl, Tree.simplify?_simplify? hA hp ho]
  rfl

/-- A pass that succeeds is all that `simplify` does to the equation. -/
theorem simplify_of_runPass (hA : Tree.Apart ε) {e e' : Equation α} {n : Nat}
    (h : e.runPass ε = (e', .ok n)) :
    (e.simplify ε).equation = e' ∧ (e.simplify ε).result.outcome = .ok () := by
  obtain ⟨p, o, hp, ho, rfl, -⟩ := runPass_eq_ok h
  obtain ⟨hd, rfl⟩ := Tree.simplify?_eq_ok.1 hp
  have hsize := Tree.size?_of_isComplete (Tree.isComplete_of_simplifyPass ho) hd
  have hafter : (e.root.simplifyPass ε).tree.size? = .ok (e.root.simplifyPass ε).tree.size :=
    Tree.size?_of_isComplete (Tree.settled_simplifyPass hA ho).isComplete
      (Tree.isTooDeep_eq_false_of_le hd (Tree.depth_simplifyPass_le _ _))
  simp only [simplify, hsize, h, true_and]
  simp only [Traced.outcome_bind, Traced.outcome_ofExcept, Traced.outcome_report]
  rw [show (e.withRoot (e.root.simplifyPass ε).tree).root = (e.root.simplifyPass ε).tree from rfl,
    hafter]
  rfl

/-- Where `simplify` succeeds, so does the pass that it runs. -/
theorem runPass_of_simplify {e : Equation α} (h : (e.simplify ε).result.outcome = .ok ()) :
    ∃ n, e.runPass ε = ((e.simplify ε).equation, .ok n) := by
  unfold simplify at h ⊢
  cases hs : e.root.size? with
  | error fault => rw [hs] at h; cases h
  | ok before =>
    simp only [hs] at h ⊢
    match hp : e.runPass ε with
    | (e', .error fault) => simp only [hp] at h; cases h
    | (e', .ok n) => exact ⟨n, rfl⟩

theorem equation_repeatPasses {e : Equation α} (h : e.runPass ε = (e, .ok 0)) (limit : Count)
    (fuel passed : Nat) : (repeatPasses ε limit fuel passed e).equation = e := by
  cases fuel with
  | zero => rfl
  | succ fuel => simp only [repeatPasses, h]

/-- However many passes are allowed, the equation is left as after the first one. -/
theorem equation_simplifyFully (hA : Tree.Apart ε) {e e' : Equation α} {n : Nat} {limit : Count}
    (hlimit : 0 < limit.value) (h : e.runPass ε = (e', .ok n)) :
    (e.simplifyFully ε limit).equation = e' := by
  obtain ⟨k, hk⟩ : ∃ k, limit.value.toNat = k + 1 := ⟨limit.value.toNat - 1, by omega⟩
  simp only [simplifyFully, Int.not_le.2 hlimit, if_false, hk, repeatPasses, h]
  cases n with
  | zero => rfl
  | succ n => exact equation_repeatPasses (runPass_runPass hA h) limit k 1

/-- Repeating passes stops after the first or the second one. -/
theorem simplifyFully_of_runPass (hA : Tree.Apart ε) {e e' : Equation α} {n : Nat} {limit : Count}
    (hlimit : 2 ≤ limit.value) (h : e.runPass ε = (e', .ok n)) :
    ∃ passes : Nat, (passes = 1 ∨ passes = 2) ∧
      e.simplifyFully ε limit = ⟨e', ⟨[.settled passes], .ok (.number passes)⟩⟩ := by
  obtain ⟨k, hk⟩ : ∃ k, limit.value.toNat = k + 2 := ⟨limit.value.toNat - 2, by omega⟩
  have hpos : ¬ limit.value ≤ 0 := by omega
  simp only [simplifyFully, hpos, if_false, hk]
  cases n with
  | zero =>
    refine ⟨1, .inl rfl, ?_⟩
    simp only [repeatPasses, h]
    rfl
  | succ n =>
    refine ⟨2, .inr rfl, ?_⟩
    simp only [repeatPasses, h, runPass_runPass hA h]
    rfl

/-- One pass is a fixed point already: for a tolerance up to 1, a pass after a successful pass
replaces nothing, and passes repeated up to any limit of at least 2 settle in one or two, on the
tree of a single `simplify`. -/
theorem one_pass_settles (ε : Float) (hε : ε ≤ 1) :
    (∀ (t : Tree Float) (p : Tree.Pass Float) (o : Option (Tree Float)),
      t.simplify? ε = .ok p → p.outcome = .ok o → p.tree.simplify? ε = .ok (.keep p.tree)) ∧
    (∀ (e e' : Equation Float) (limit : Count) (n : Nat), 2 ≤ limit.value →
      e.runPass ε = (e', .ok n) →
      ∃ passes : Nat, (passes = 1 ∨ passes = 2) ∧
        e.simplifyFully ε limit = ⟨e', ⟨[.settled passes], .ok (.number passes)⟩⟩ ∧
        (e.simplify ε).equation = e' ∧ (e.simplify ε).result.outcome = .ok ()) := by
  have hA := Tree.apart_of_le_one hε
  refine ⟨fun t p o hp ho => Tree.simplify?_simplify? hA hp ho, fun e e' limit n hl h => ?_⟩
  obtain ⟨passes, hpasses, hfull⟩ := simplifyFully_of_runPass hA hl h
  exact ⟨passes, hpasses, hfull, simplify_of_runPass hA h⟩

/-- `(x + x) * (0 - sin(x))` at the tolerance 1: a pass builds both numerals and leaves the rest. -/
theorem one_pass_settles_products :
    let s : Tree Float := .call (.op .sin) (.var 0)
    let t : Tree Float := .mul (.add (.var 0) (.var 0)) (.sub (.int 0) s)
    let u : Tree Float := .mul (.mul (.int 2) (.var 0)) (.mul (.int (-1)) s)
    let e : Equation Float := ⟨t, ["x"], by decide⟩
    (1 : Float) ≤ 1 ∧ t.simplify? 1 = .ok ⟨u, 2, .ok none⟩ ∧ u.simplify? 1 = .ok (.keep u) ∧
      2 ≤ (2 : Count).value ∧ e.runPass 1 = (e.withRoot u, .ok 2) ∧
      (e.simplify 1).equation = e.withRoot u := by
  intro s t u e
  have hε : (1 : Float) ≤ 1 := by decide +kernel
  have ht : t.simplify? 1 = .ok ⟨u, 2, .ok none⟩ := rfl
  have he : e.runPass 1 = (e.withRoot u, .ok 2) := rfl
  obtain ⟨htree, hequation⟩ := one_pass_settles 1 hε
  obtain ⟨passes, -, -, hsimplify, -⟩ := hequation e (e.withRoot u) 2 2 (by decide) he
  exact ⟨hε, ht, htree t _ none ht rfl, by decide, he, hsimplify⟩

end Equation

end FormulaCalculus
