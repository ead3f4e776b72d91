import FormulaCalculus.Proofs.Simplify.Pass

/-!
# One pass settles a tree

A tree is settled when no node of it can be folded and no identity applies anywhere. A pass leaves a
settled tree as it is. Every successful pass gives a settled tree, although it does not look again
at what the identities build: a lifted operand is settled already, and the numerals 2 and -1 of the
built products and powers are neither near 0 nor near 1 while the tolerance is at most 1.
-/

namespace FormulaCalculus.Tree

variable {α : Type} [Scalar α] {ε : α}

/-- Nothing is left to replace. -/
def Settled (ε : α) : Tree α → Prop
  | num _ => True
  | var _ => True
  | binary c l r => l.Settled ε ∧ r.Settled ε ∧ replace? ε c l r = .ok none
  | call c x => x.Settled ε ∧ replace? ε c missing x = .ok none
  | foreign .. => False
  | missing => False

theorem Settled.simplifyPass_eq {t : Tree α} (h : t.Settled ε) : simplifyPass ε t = .keep t := by
  induction t with
  | num v => rfl
  | var i => rfl
  | binary c l r ihl ihr =>
    obtain ⟨hl, hr, hrep⟩ := h
    simp only [simplifyPass, ihl hl, ihr hr, Pass.keep, Pass.tree, hrep]
    rfl
  | call c x ih =>
    obtain ⟨hx, hrep⟩ := h
    simp only [simplifyPass, ih hx, Pass.keep, Pass.tree, hrep]
    rfl
  | foreign kind text => exact h.elim
  | missing => exact h.elim

theorem Settled.outcome_eq {t : Tree α} (h : t.Settled ε) :
    (simplifyPass ε t).outcome = .ok none := by
  rw [h.simplifyPass_eq]
  rfl

/-! ### What the identities build -/

/-- The numerals that identities build are told apart from 0 and 1. -/
structure Apart (ε : α) : Prop where
  two_zero : (int 2 : Tree α).isNear ε 0 = false
  two_one : (int 2 : Tree α).isNear ε 1 = false
  neg_zero : (int (-1) : Tree α).isNear ε 0 = false
  neg_one : (int (-1) : Tree α).isNear ε 1 = false
  two_exact : (int 2 : Tree α).isExactly 1 = false

theorem isNear_eq_false {t : Tree α} (ht : ∀ y, t ≠ num y) (c : Int) : t.isNear ε c = false := by
  cases t with
  | num y => exact absurd rfl (ht y)
  | _ => rfl

/-- A product with a built numeral, over anything that is no number. -/
theorem replace?_int_mul {n : Int} {r : Tree α} (h0 : (int n : Tree α).isNear ε 0 = false)
    (h1 : (int n : Tree α).isNear ε 1 = false) (hr : ∀ y, r ≠ num y) :
    replace? ε (.op .mul) (int n) r = .ok none := by
  have hf : ¬ Foldable (int n) r := fun hf => let ⟨y, hy⟩ := hf.exists_num; hr y hy
  have hs : (int n).sameVariable r = false := by cases r <;> rfl
  rw [replace?_of_not_foldable rfl hf]
  simp only [identity?, h0, h1, isNear_eq_false hr, hs, Bool.or_false, Bool.false_eq_true, if_false]
  rfl

theorem settled_int_mul {n : Int} {r : Tree α} (h0 : (int n : Tree α).isNear ε 0 = false)
    (h1 : (int n : Tree α).isNear ε 1 = false) (hr : ∀ y, r ≠ num y) (h : r.Settled ε) :
    (mul (int n) r).Settled ε :=
  ⟨trivial, h, replace?_int_mul h0 h1 hr⟩

theorem settled_square (hA : Apart ε) (i : Nat) : (pow (var i) (int 2)).Settled ε := by
  have hf : ¬ Foldable (var i) (int 2 : Tree α) := by intro hf; cases hf
  refine ⟨trivial, trivial, ?_⟩
  rw [replace?_of_not_foldable rfl hf]
  simp only [identity?, hA.two_exact, Bool.false_eq_true, if_false]
  rfl

/-- What an identity puts in a node's place is settled if the operands are. -/
theorem Rewrite.settled (hA : Apart ε) {op : Op} {l r t : Tree α} (h : Rewrite ε op l r t)
    (hf : ¬ Foldable l r) (hl : l.Settled ε) (hr : r.Settled ε) : t.Settled ε := by
  cases h with
  | zero_add _ | one_mul _ => exact hr
  | add_zero _ | sub_zero _ | mul_one _ | div_one _ | pow_one _ => exact hl
  | add_self i => exact settled_int_mul hA.two_zero hA.two_one (fun y hy => by cases hy) hl
  | zero_sub _ =>
    -- a number on the right would have been folded with the number on the left
    refine settled_int_mul hA.neg_zero hA.neg_one (fun y hy => ?_) hr
    subst hy
    exact hf (.operands _ _)
  | mul_self i => exact settled_square hA i
  | sub_self | zero_mul | mul_zero | zero_div | div_self | one_pow | zero_pow => trivial

theorem settled_simplifyPass (hA : Apart ε) {t : Tree α} {o : Option (Tree α)}
    (h : (simplifyPass ε t).outcome = .ok o) : (simplifyPass ε t).tree.Settled ε := by
  induction t generalizing o with
  | num v => trivial
  | var i => trivial
  | binary c l r ihl ihr =>
    obtain ⟨⟨a, ha⟩, ⟨b, hb⟩, hrep, htree⟩ := simplifyPass_binary h
    have hl := ihl ha
    have hr := ihr hb
    rw [htree]
    cases o with
    | none => exact ⟨hl, hr, hrep⟩
    | some u =>
      obtain ⟨op, -, ⟨y, v, -, -, -, hv⟩ | ⟨hf, hi⟩⟩ := replace?_cases hrep
      · cases hv; trivial
      · exact (rewrite_of_identity? hi).settled hA hf hl hr
  | call c x ih =>
    obtain ⟨⟨a, ha⟩, hrep, htree⟩ := simplifyPass_call h
    have hx := ih ha
    rw [htree]
    cases o with
    | none => exact ⟨hx, hrep⟩
    | some u =>
      obtain ⟨op, y, v, -, -, -, rfl⟩ := replace?_missing_eq_ok hrep
      trivial
  | foreign kind text => cases h
  | missing => cases h

/-- A second pass finds nothing to replace. -/
theorem simplifyPass_simplifyPass (hA : Apart ε) {t : Tree α} {o : Option (Tree α)}
    (h : (simplifyPass ε t).outcome = .ok o) :
    simplifyPass ε (simplifyPass ε t).tree = .keep (simplifyPass ε t).tree :=
  (settled_simplifyPass hA h).simplifyPass_eq

theorem isComplete_of_simplifyPass {t : Tree α} {o : Option (Tree α)}
    (h : (simplifyPass ε t).outcome = .ok o) : t.isComplete := by
  induction t generalizing o with
  | num v => rfl
  | var i => rfl
  | binary c l r ihl ihr =>
    obtain ⟨⟨a, ha⟩, ⟨b, hb⟩, -, -⟩ := simplifyPass_binary h
    simp only [isComplete, ihl ha, ihr hb, Bool.and_self]
  | call c x ih =>
    obtain ⟨⟨a, ha⟩, -, -⟩ := simplifyPass_call h
    simp only [isComplete, ih ha]
  | foreign kind text => cases h
  | missing => cases h

theorem Settled.isComplete {t : Tree α} (h : t.Settled ε) : t.isComplete :=
  isComplete_of_simplifyPass h.outcome_eq

/-! ### With the guard against deep trees -/

/-- The guarded pass succeeds if the tree can be walked and the pass over it succeeds. -/
theorem simplify?_eq_ok {t : Tree α} {p : Pass α} :
    t.simplify? ε = .ok p ↔ t.isTooDeep = false ∧ p = t.simplifyPass ε := by
  unfold simplify?
  cases t.isTooDeep <;> simp [eq_comm]

omit [Scalar α] in
theorem isTooDeep_eq_false_of_le {s t : Tree α} (hs : s.isTooDeep = false) (h : t.depth ≤ s.depth) :
    t.isTooDeep = false := by
  simp only [isTooDeep, decide_eq_false_iff_not, Nat.not_lt] at hs ⊢
  exact Nat.le_trans h hs

theorem simplify?_simplify? (hA : Apart ε) {t : Tree α} {p : Pass α} {o : Option (Tree α)}
    (hp : t.simplify? ε = .ok p) (ho : p.outcome = .ok o) :
    p.tree.simplify? ε = .ok (.keep p.tree) := by
  obtain ⟨hd, rfl⟩ := simplify?_eq_ok.1 hp
  refine simplify?_eq_ok.2 ⟨?_, (simplifyPass_simplifyPass hA ho).symm⟩
  exact isTooDeep_eq_false_of_le hd (depth_simplifyPass_le _ _)

end FormulaCalculus.Tree
