import FormulaCalculus.Proofs.Simplify.FixedPoint

/-!
# Passes that break off

A pass that breaks off has replaced nodes on its way and leaves them so. Where one pass settles a
tree, the next pass finds these as it would leave them, comes to the same node with the same
operands, and breaks off by the same fault without having changed anything.
-/

namespace FormulaCalculus

namespace Tree

variable {α : Type} [Scalar α] {ε : α} {c : Code} {op : Op} {l r t t' : Tree α} {fault : Fault}

/-! ### Stuck trees -/

/-- A pass breaks off by the fault and replaces nothing. -/
def Stuck (ε : α) (t : Tree α) (fault : Fault) : Prop :=
  t.simplifyPass ε = ⟨t, 0, .error fault⟩

namespace Stuck

theorem binary_left (h : l.Stuck ε fault) (c : Code) (r : Tree α) :
    (binary c l r).Stuck ε fault := by
  have hl : (l.simplifyPass ε).outcome = .error fault := by rw [h]
  rw [Stuck, simplifyPass_binary_of_left hl, h]
  rfl

theorem binary_right (hl : l.Settled ε) (h : r.Stuck ε fault) (c : Code) :
    (binary c l r).Stuck ε fault := by
  have hr : (r.simplifyPass ε).outcome = .error fault := by rw [h]
  rw [Stuck, simplifyPass_binary_of_right hl.outcome_eq hr, hl.simplifyPass_eq, h]
  rfl

theorem of_operands (hl : l.Settled ε) (hr : r.Settled ε)
    (h : replace? ε c l r = .error fault) : (binary c l r).Stuck ε fault := by
  rw [Stuck, simplifyPass_binary_eq hl.outcome_eq hr.outcome_eq, hl.simplifyPass_eq,
    hr.simplifyPass_eq]
  simp only [Pass.keep, Pass.tree, h]
  rfl

theorem call (h : t.Stuck ε fault) (c : Code) : (call c t).Stuck ε fault := by
  have ht : (t.simplifyPass ε).outcome = .error fault := by rw [h]
  rw [Stuck, simplifyPass_call_of_error ht, h]
  rfl

theorem of_argument (ht : t.Settled ε) (h : replace? ε c missing t = .error fault) :
    (Tree.call c t).Stuck ε fault := by
  rw [Stuck, simplifyPass_call_eq ht.outcome_eq, ht.simplifyPass_eq]
  simp only [Pass.keep, Pass.tree, h]
  rfl

end Stuck

/-- What a broken-off pass leaves is stuck: to the left of the node that it came to, everything is
settled. -/
theorem stuck_simplifyPass (hA : Apart ε) (h : (t.simplifyPass ε).outcome = .error fault) :
    (t.simplifyPass ε).tree.Stuck ε fault := by
  induction t with
  | num | var => cases h
  | binary c l r ihl ihr =>
    cases hl : (l.simplifyPass ε).outcome with
    | error f =>
      rw [simplifyPass_binary_of_left hl] at h ⊢
      cases h
      exact (ihl hl).binary_left c r
    | ok a =>
      have hsettled := settled_simplifyPass hA hl
      cases hr : (r.simplifyPass ε).outcome with
      | error f =>
        rw [simplifyPass_binary_of_right hl hr] at h ⊢
        cases h
        exact .binary_right hsettled (ihr hr) c
      | ok b =>
        rw [simplifyPass_binary_eq hl hr, outcome_finish] at h
        rw [simplifyPass_binary_eq hl hr, h]
        exact .of_operands hsettled (settled_simplifyPass hA hr) h
  | call c t ih =>
    cases ht : (t.simplifyPass ε).outcome with
    | error f =>
      rw [simplifyPass_call_of_error ht] at h ⊢
      cases h
      exact (ih ht).call c
    | ok a =>
      rw [simplifyPass_call_eq ht, outcome_finish] at h
      rw [simplifyPass_call_eq ht, h]
      exact .of_argument (settled_simplifyPass hA ht) h
  | foreign | missing => cases h; rfl

/-! ### Measuring before a pass -/

omit [Scalar α] in
theorem size?_eq_ok {n : Nat} :
    t.size? = .ok n ↔ t.isComplete ∧ t.isTooDeep = false ∧ n = t.size := by
  cases hc : t.isComplete <;> cases hd : t.isTooDeep <;>
    simp [size?, checkMeasurable, hc, hd, bind, Except.bind, pure, Except.pure, eq_comm]

/-- What a pass leaves of a tree can be measured if the tree can. -/
theorem size?_simplifyPass {n : Nat} (h : t.size? = .ok n) (ε : α) :
    (t.simplifyPass ε).tree.size? = .ok (t.simplifyPass ε).tree.size := by
  obtain ⟨hc, hd, -⟩ := size?_eq_ok.1 h
  exact size?_eq_ok.2 ⟨(replaces_simplifyPass ε t).isComplete hc,
    isTooDeep_eq_false_of_le hd (depth_simplifyPass_le ε t), rfl⟩

end Tree

namespace Equation

variable {α : Type} [Scalar α] {ε : α} {e : Equation α} {fault : Fault}

/-! ### Equations -/

/-- A simplification fails by the fault of its pass and leaves what the pass leaves. -/
theorem simplify_of_error {n : Nat} (hsize : e.root.size? = .ok n)
    (h : (e.root.simplifyPass ε).outcome = .error fault) :
    e.simplify ε = ⟨e.withRoot (e.root.simplifyPass ε).tree, .ofExcept (.error fault)⟩ := by
  have hrun := runPass_eq (ε := ε) (Tree.size?_eq_ok.1 hsize).2.1
  rw [h] at hrun
  rw [simplify, hsize, hrun]
  rfl

/-- A simplification of an equation that can be measured is a pass over its tree. -/
theorem simplify_of_size? {n : Nat} (h : e.root.size? = .ok n) (ε : α) :
    (e.simplify ε).equation = e.withRoot (e.root.simplifyPass ε).tree ∧
      (e.simplify ε).result.outcome = (e.root.simplifyPass ε).outcome.map fun _ => () := by
  have hrun := runPass_eq (ε := ε) (Tree.size?_eq_ok.1 h).2.1
  have hafter := Tree.size?_simplifyPass h ε
  cases ho : (e.root.simplifyPass ε).outcome with
  | error fault =>
    rw [simplify_of_error h ho]
    exact ⟨rfl, rfl⟩
  | ok o =>
    rw [ho] at hrun
    simp only [simplify, h, hrun, Except.map, Traced.outcome_bind, Traced.outcome_ofExcept,
      root_withRoot, hafter, true_and]
    rfl

/-- The equation cannot be measured, or the pass fails: there is no third way for a simplification
to fail. -/
theorem simplify_error_cases (hA : Tree.Apart ε)
    (h : (e.simplify ε).result.outcome = .error fault) :
    e.simplify ε = ⟨e, .ofExcept (.error fault)⟩ ∨
      ∃ n, e.root.size? = .ok n ∧ (e.root.simplifyPass ε).outcome = .error fault := by
  cases hsize : e.root.size? with
  | error f =>
    have hstop : e.simplify ε = ⟨e, .ofExcept (.error f)⟩ := by rw [simplify, hsize]
    rw [hstop] at h ⊢
    cases h
    exact .inl rfl
  | ok n =>
    cases ho : (e.root.simplifyPass ε).outcome with
    | ok o =>
      have hrun := runPass_of_simplifyPass (Tree.size?_eq_ok.1 hsize).2.1 ho
      rw [(simplify_of_runPass hA hrun).2] at h
      cases h
    | error f =>
      rw [simplify_of_error hsize ho] at h
      cases h
      exact .inr ⟨n, rfl, rfl⟩

/-- A simplification that has failed leaves a stable equation: at a tolerance up to 1, whatever the
tree, simplifying again fails by the same fault and leaves the equation as it is. -/
theorem simplify_fails_again (ε : Float) (hε : ε ≤ 1) (e : Equation Float) (fault : Fault)
    (h : (e.simplify ε).result.outcome = .error fault) :
    (e.simplify ε).equation.simplify ε =
      ⟨(e.simplify ε).equation, .ofExcept (.error fault)⟩ := by
  have hA := Tree.apart_of_le_one hε
  rcases simplify_error_cases hA h with heq | ⟨n, hsize, ho⟩
  · rw [heq]
    exact heq
  · rw [simplify_of_error hsize ho]
    -- what is left can be measured as the tree could, and is stuck
    have hsize' := Tree.size?_simplifyPass hsize ε
    have hstuck := Tree.stuck_simplifyPass hA ho
    have hagain := simplify_of_error (e := e.withRoot (e.root.simplifyPass ε).tree) hsize'
      (by rw [root_withRoot, hstuck])
    rw [root_withRoot, hstuck] at hagain
    exact hagain

/-- `(x + 0) * (1 / (x - x))` fails at the second operand of the product. The first one is `x` by
then, and stays so. -/
theorem simplify_fails_again_product :
    let e : Equation Float :=
      ⟨.mul (.add (.var 0) (.num 0)) (.div (.num 1) (.sub (.var 0) (.var 0))), ["x"], by decide⟩
    let e' := e.withRoot (.mul (.var 0) (.div (.num 1) (.int 0)))
    (1 : Float) ≤ 1 ∧ (e.simplify 1).result.outcome = .error (.domain .divisionByZero) ∧
      (e.simplify 1).equation = e' ∧
      e'.simplify 1 = ⟨e', .ofExcept (.error (.domain .divisionByZero))⟩ := by
  intro e e'
  have hε : (1 : Float) ≤ 1 := by decide +kernel
  have hfault : (e.simplify 1).result.outcome = .error (.domain .divisionByZero) := rfl
  have hequation : (e.simplify 1).equation = e' := rfl
  have hagain := simplify_fails_again 1 hε e _ hfault
  rw [hequation] at hagain
  exact ⟨hε, hfault, hequation, hagain⟩

end Equation

end FormulaCalculus
