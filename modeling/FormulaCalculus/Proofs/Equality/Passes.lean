import FormulaCalculus.Proofs.Equality.Trees
import FormulaCalculus.Proofs.Simplify.Pass

/-!
# Passes over equal trees

A pass cannot tell alike trees apart: it replaces the same nodes by alike ones and fails at the same
node for the same reason. With what holds of values and derivatives this makes structural equality a
congruence.
-/

namespace FormulaCalculus

open Double

namespace Tree

variable [Elementary] {ε : Float} {c c' : Code} {s t l l' r r' : Tree Float}

/-! ### A single node -/

namespace Like

theorem isNear_eq (h : Like Alike s t) (ε : Float) (n : Int) : s.isNear ε n = t.isNear ε n := by
  cases h with
  | num h =>
    simp only [isNear]
    split
    · exact h.beq_eq (.refl _)
    · exact (h.sub (.refl _)).abs.lt_eq (.refl ε)
  | _ => rfl

theorem isExactly_eq (h : Like Alike s t) (n : Int) : s.isExactly n = t.isExactly n := by
  cases h with
  | num h => exact h.beq_eq (.refl _)
  | _ => rfl

omit [Elementary] in
theorem sameVariable_eq (hl : Like Alike l l') (hr : Like Alike r r') :
    l.sameVariable r = l'.sameVariable r' := by
  cases hl <;> cases hr <;> rfl

theorem int_refl (n : Int) : Like Alike (Tree.int n) (Tree.int n) :=
  .num (.refl _)

/-- The identities put alike trees in the place of alike operands, or refuse both. -/
theorem agree_identity (hl : Like Alike l l') (hr : Like Alike r r') (ε : Float) (op : Op) :
    Agree (Option.Rel (Like Alike)) (identity? ε op l r) (identity? ε op l' r') := by
  cases op with
  | add =>
    simp only [identity?, hl.isNear_eq, hr.isNear_eq, sameVariable_eq hl hr]
    split
    · exact .ok (.some hr)
    split
    · exact .ok (.some hl)
    split
    · exact .ok (.some (.operator .mul (int_refl 2) hl))
    · exact .ok .none
  | sub =>
    simp only [identity?, hl.isNear_eq, hr.isNear_eq, sameVariable_eq hl hr]
    split
    · exact .ok (.some (.operator .mul (int_refl (-1)) hr))
    split
    · exact .ok (.some hl)
    split
    · exact .ok (.some (int_refl 0))
    · exact .ok .none
  | mul =>
    simp only [identity?, hl.isNear_eq, hr.isNear_eq, sameVariable_eq hl hr]
    split
    · exact .ok (.some (int_refl 0))
    split
    · exact .ok (.some hr)
    split
    · exact .ok (.some hl)
    split
    · exact .ok (.some (.operator .pow hl (int_refl 2)))
    · exact .ok .none
  | div =>
    simp only [identity?, hl.isNear_eq, hr.isNear_eq, sameVariable_eq hl hr]
    split
    · exact .error _
    split
    · exact .ok (.some (int_refl 0))
    split
    · exact .ok (.some hl)
    split
    · exact .ok (.some (int_refl 1))
    · exact .ok .none
  | pow =>
    simp only [identity?, hl.isExactly_eq, hr.isExactly_eq]
    split
    · exact .ok (.some hl)
    split
    · exact .ok (.some (int_refl 1))
    split
    · exact .ok (.some (int_refl 0))
    · exact .ok .none
  | _ => exact .ok .none

omit [Elementary] in
theorem foldable_iff (hl : Like Alike l l') (hr : Like Alike r r') :
    Foldable l r ↔ Foldable l' r' := by
  constructor
  · intro h
    cases h with
    | operands => cases hl; cases hr; exact .operands _ _
    | argument => cases hl; cases hr; exact .argument _
  · intro h
    cases h with
    | operands => cases hl; cases hr; exact .operands _ _
    | argument => cases hl; cases hr; exact .argument _

theorem alike_operandValue (h : Like Alike l l') : Alike l.operandValue l'.operandValue := by
  cases h with
  | num h => exact h
  | _ => exact .refl _

/-- Nodes with alike operands are replaced by alike trees, stay both, or fail for one reason. -/
theorem agree_replace (hE : Elementary.Respectful) (hc : c.same c') (hl : Like Alike l l')
    (hr : Like Alike r r') :
    Agree (Option.Rel (Like Alike)) (replace? ε c l r) (replace? ε c' l' r') := by
  cases hop : c.op? with
  | none =>
    obtain rfl := Code.eq_of_same hc hop
    simp only [replace?, hop]
    exact .error _
  | some op =>
    have hop' := (Code.op?_eq_of_same hc).symm.trans hop
    by_cases hf : Foldable l r
    · have hf' := (foldable_iff hl hr).1 hf
      have hvalue := hl.alike_operandValue
      cases hr with
      | num h =>
        rw [replace?_of_foldable hop hf, replace?_of_foldable hop' hf']
        exact ((op.agree_apply hE hvalue h).mapError _).map fun _ _ hv => .some (.num hv)
      | _ => cases hf
    · rw [replace?_of_not_foldable hop hf,
        replace?_of_not_foldable hop' (mt (foldable_iff hl hr).2 hf)]
      exact (agree_identity hl hr ε op).mapError _

end Like

/-! ### A whole tree -/

/-- Passes that replace the same nodes by alike ones and end in the same way. -/
structure Pass.Alike (p q : Pass Float) : Prop where
  argument : Like Double.Alike p.argument q.argument
  replaced : p.replaced = q.replaced
  outcome : Agree (Option.Rel (Like Double.Alike)) p.outcome q.outcome

omit [Elementary] in
theorem Pass.Alike.tree {p q : Pass Float} (h : p.Alike q) : Like Double.Alike p.tree q.tree := by
  obtain ⟨s, n, o⟩ := p
  obtain ⟨s', n', o'⟩ := q
  cases h.outcome with
  | ok ho =>
    cases ho with
    | none => exact h.argument
    | some ht => exact ht
  | error => exact h.argument

omit [Elementary] in
theorem Pass.Alike.outcome_cases {p q : Pass Float} (h : p.Alike q) :
    (∃ fault, p.outcome = .error fault ∧ q.outcome = .error fault) ∨
      ∃ o o', p.outcome = .ok o ∧ q.outcome = .ok o' := by
  obtain ⟨s, n, o⟩ := p
  obtain ⟨s', n', o'⟩ := q
  cases h.outcome with
  | ok => exact .inr ⟨_, _, rfl, rfl⟩
  | error fault => exact .inl ⟨fault, rfl, rfl⟩

omit [Elementary] in
theorem Pass.alike_finish {m n : Nat} {o o' : Except Fault (Option (Tree Float))}
    (hs : Like Double.Alike s t) (hn : m = n) (ho : Agree (Option.Rel (Like Double.Alike)) o o') :
    (finish s m o).Alike (finish t n o') := by
  subst hn
  cases ho with
  | ok h =>
    cases h with
    | none => exact ⟨hs, rfl, .ok .none⟩
    | some h => exact ⟨hs, rfl, .ok (.some h)⟩
  | error => exact ⟨hs, rfl, .error _⟩

theorem Like.simplifyPass (hE : Elementary.Respectful) (h : Like Alike s t) (ε : Float) :
    (s.simplifyPass ε).Alike (t.simplifyPass ε) := by
  induction h with
  | num h => exact ⟨.num h, rfl, .ok .none⟩
  | var i => exact ⟨.var i, rfl, .ok .none⟩
  | binary hc _ hr ihl ihr =>
    simp only [Tree.simplifyPass]
    obtain ⟨fault, hl, hl'⟩ | ⟨o, o', hl, hl'⟩ := ihl.outcome_cases
    · simp only [hl, hl']
      exact ⟨.binary hc ihl.argument hr, ihl.replaced, .error _⟩
    have hreplaced := congrArg₂ (· + ·) ihl.replaced ihr.replaced
    obtain ⟨fault, hr, hr'⟩ | ⟨o, o', hr, hr'⟩ := ihr.outcome_cases
    · simp only [hl, hl', hr, hr']
      exact ⟨.binary hc ihl.tree ihr.argument, hreplaced, .error _⟩
    · simp only [hl, hl', hr, hr']
      exact Pass.alike_finish (.binary hc ihl.tree ihr.tree) hreplaced
        (agree_replace hE hc ihl.tree ihr.tree)
  | call hc _ ih =>
    simp only [Tree.simplifyPass]
    obtain ⟨fault, hx, hx'⟩ | ⟨o, o', hx, hx'⟩ := ih.outcome_cases
    · simp only [hx, hx']
      exact ⟨.call hc ih.argument, ih.replaced, .error _⟩
    · simp only [hx, hx']
      exact Pass.alike_finish (.call hc ih.tree) ih.replaced (agree_replace hE hc .missing ih.tree)
  | foreign kind text => exact ⟨.foreign kind text, rfl, .error _⟩
  | missing => exact ⟨.missing, rfl, .error _⟩

theorem Like.agree_simplify (hE : Elementary.Respectful) (h : Like Alike s t) (ε : Float) :
    Agree Pass.Alike (s.simplify? ε) (t.simplify? ε) := by
  unfold simplify?
  rw [h.isTooDeep_eq]
  split
  · exact .error _
  · exact .ok (h.simplifyPass hE ε)

/-! ### Equality of trees -/

/-- Equal trees have alike values or are undefined for the same reason, their derivatives are equal,
and passes over them end in the same way with trees that are equal but for NaN. -/
theorem congr_of_sameWith (hE : Elementary.Respectful) {eq : Float → Float → Bool}
    (heq : ComparesNumbers eq) (hs : s.WellFormed) (hst : s.sameWith eq t) :
    (∀ values, Agree Alike (s.evaluate values) (t.evaluate values)) ∧
      (∀ i, ∃ d d', s.differentiate? i = .ok d ∧ t.differentiate? i = .ok d' ∧
        d.sameWith eq d') ∧
      ∀ ε, Agree Pass.Alike (s.simplify? ε) (t.simplify? ε) := by
  have hlike : Like Alike s t := heq.like hst
  refine ⟨hlike.agree_evaluate hE, fun i => ?_, hlike.agree_simplify hE⟩
  obtain ⟨d, d', hd, hd', hlike⟩ :=
    (like_of_sameWith hst).exists_differentiate heq.of_int hs i
  exact ⟨d, d', hd, hd', hlike.sameWith⟩

omit [Elementary] in
/-- `1 / (x + 0)` and `1 / (x + -0)`. -/
theorem congr_of_sameWith_zeros :
    letI : Elementary := .simple
    let s : Tree Float := .div (.num 1) (.add (.var 0) (.num 0))
    let t : Tree Float := .div (.num 1) (.add (.var 0) (.num (-0)))
    Elementary.Respectful ∧ ComparesNumbers Float.beq ∧ s.WellFormed ∧ s.same t ∧
      (∀ values, Agree Alike (s.evaluate values) (t.evaluate values)) ∧
      (∀ i, ∃ d d', s.differentiate? i = .ok d ∧ t.differentiate? i = .ok d' ∧ d.same d') ∧
      ∀ ε, Agree Pass.Alike (s.simplify? ε) (t.simplify? ε) := by
  intro s t
  let _ : Elementary := .simple
  have hE := Elementary.consistent_simple.toRespectful
  have hs : s.WellFormed := by decide
  have hst : s.same t := by decide +kernel
  exact ⟨hE, comparesNumbers_beq, hs, hst, congr_of_sameWith hE comparesNumbers_beq hs hst⟩

end Tree

end FormulaCalculus
