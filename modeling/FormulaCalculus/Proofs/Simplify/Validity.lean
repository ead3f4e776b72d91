import FormulaCalculus.Proofs.Simplify.Pass
import FormulaCalculus.Proofs.Tree.Validity

/-!
# Passes keep trees valid

A pass over a valid tree fails only where an operator is outside its domain. Whether it fails or
not, the tree that it leaves is valid: every node that it fills or puts in place is.
-/

namespace FormulaCalculus.Tree

variable {α : Type} {count : Option Int} {c : Code} {op : Op} {l r t : Tree α}

/-- What is left of a valid tree by a pass. -/
structure Pass.Sound (count : Option Int) (p : Pass α) : Prop where
  argument : p.argument.Valid count
  replacement : ∀ t, p.outcome = .ok (some t) → t.Valid count
  faults : ∀ fault, p.outcome = .error fault → fault.IsDomain

theorem Pass.Sound.tree {p : Pass α} (h : p.Sound count) : p.tree.Valid count := by
  unfold Pass.tree
  split
  · exact h.replacement _ ‹_›
  · exact h.argument

theorem Pass.sound_keep (h : t.Valid count) : (Pass.keep t).Sound count where
  argument := h
  replacement := by rintro _ ⟨⟩
  faults := by rintro _ ⟨⟩

theorem Pass.sound_error {n : Nat} {fault : Fault} (ht : t.Valid count) (hf : fault.IsDomain) :
    Pass.Sound count ⟨t, n, .error fault⟩ where
  argument := ht
  replacement := by rintro _ ⟨⟩
  faults := by
    rintro _ ⟨⟩
    exact hf

theorem Pass.sound_finish {n : Nat} {outcome : Except Fault (Option (Tree α))}
    (ht : t.Valid count) (hok : ∀ s, outcome = .ok (some s) → s.Valid count)
    (herror : ∀ fault, outcome = .error fault → fault.IsDomain) :
    (finish t n outcome).Sound count where
  argument := by rwa [argument_finish]
  replacement := by rwa [outcome_finish]
  faults := by rwa [outcome_finish]

variable [Scalar α] {ε : α}

theorem Rewrite.valid (h : Rewrite ε op l r t) (hl : l.Valid count) (hr : r.Valid count) :
    t.Valid count := by
  cases h with
  | zero_add | one_mul => exact hr
  | add_zero | sub_zero | mul_one | div_one | pow_one => exact hl
  | add_self | mul_self | zero_sub => simp_all [mul, pow, int, Code.isBinary, Code.op?, Op.isBinary]
  | _ => exact valid_num _

theorem valid_of_replace? (h : replace? ε c l r = .ok (some t)) (hl : l.Valid count)
    (hr : r.Valid count) : t.Valid count := by
  obtain ⟨op, -, ⟨y, v, -, -, -, hv⟩ | ⟨-, hi⟩⟩ := replace?_cases h
  · obtain rfl := Option.some.inj hv
    exact valid_num v
  · exact (rewrite_of_identity? hi).valid hl hr

theorem isDomain_of_replace? {fault : Fault} (hop : c.op? = some op)
    (h : replace? ε c l r = .error fault) : fault.IsDomain := by
  by_cases hf : Foldable l r
  · obtain ⟨y, rfl⟩ := hf.exists_num
    rw [replace?_of_foldable hop hf] at h
    cases hv : op.apply l.operandValue y with
    | error d => rw [hv] at h; cases h; exact ⟨d, rfl⟩
    | ok v => rw [hv] at h; cases h
  · rw [replace?_of_not_foldable hop hf] at h
    exact Fault.isDomain_of_mapError h

theorem Valid.simplifyPass (h : t.Valid count) (ε : α) : (simplifyPass ε t).Sound count := by
  induction t with
  | num | var => exact Pass.sound_keep h
  | binary c l r ihl ihr =>
    obtain ⟨hc, hl, hr⟩ := valid_binary_iff.1 h
    obtain ⟨op, hop, -⟩ := Code.op?_of_isBinary hc
    have hp := ihl hl
    have hq := ihr hr
    simp only [Tree.simplifyPass]
    cases houtcome : (Tree.simplifyPass ε l).outcome with
    | error fault =>
      exact Pass.sound_error (valid_binary_iff.2 ⟨hc, hp.argument, hr⟩) (hp.faults _ houtcome)
    | ok a =>
      cases houtcome' : (Tree.simplifyPass ε r).outcome with
      | error fault =>
        exact Pass.sound_error (valid_binary_iff.2 ⟨hc, hp.tree, hq.argument⟩)
          (hq.faults _ houtcome')
      | ok b =>
        exact Pass.sound_finish (valid_binary_iff.2 ⟨hc, hp.tree, hq.tree⟩)
          (fun _ hs => valid_of_replace? hs hp.tree hq.tree) fun _ => isDomain_of_replace? hop
  | call c x ih =>
    obtain ⟨hc, hx⟩ := valid_call_iff.1 h
    obtain ⟨op, hop, -⟩ := Code.op?_of_isFunction hc
    have hp := ih hx
    simp only [Tree.simplifyPass]
    cases houtcome : (Tree.simplifyPass ε x).outcome with
    | error fault =>
      exact Pass.sound_error (valid_call_iff.2 ⟨hc, hp.argument⟩) (hp.faults _ houtcome)
    | ok a =>
      refine Pass.sound_finish (valid_call_iff.2 ⟨hc, hp.tree⟩) (fun s hs => ?_) fun _ =>
        isDomain_of_replace? hop
      obtain ⟨-, -, v, -, -, -, rfl⟩ := replace?_missing_eq_ok hs
      exact valid_num v
  | foreign | missing => exact h.wellFormed.elim

end FormulaCalculus.Tree
