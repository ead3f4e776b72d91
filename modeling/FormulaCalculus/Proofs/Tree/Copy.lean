import FormulaCalculus.Evaluation
import FormulaCalculus.Tree.WellFormed

/-!
# Copies of well-formed trees

A copy holds operators where the tree may hold their numbers. So it may differ from the tree, but
it is well-formed if the tree is, and it has the tree's value at every point.
-/

namespace FormulaCalculus

namespace Code

theorem op?_of_isBinary {c : Code} (h : c.isBinary) : ∃ op, c.op? = some op ∧ op.isBinary := by
  unfold isBinary at h
  cases hc : c.op? with
  | none => rw [hc] at h; cases h
  | some op => rw [hc] at h; exact ⟨op, rfl, h⟩

theorem op?_of_isFunction {c : Code} (h : c.isFunction) :
    ∃ op, c.op? = some op ∧ op.isFunction := by
  unfold isFunction at h
  cases hc : c.op? with
  | none => rw [hc] at h; cases h
  | some op => rw [hc] at h; exact ⟨op, rfl, h⟩

theorem apply_of_op? {α : Type} [Scalar α] {c : Code} {op : Op} (hc : c.op? = some op) (x y : α) :
    c.apply x y = (op.apply x y).mapError .domain := by
  simp only [apply, hc]

theorem op?_of_apply {α : Type} [Scalar α] {c : Code} {x y v : α} (h : c.apply x y = .ok v) :
    ∃ op, c.op? = some op := by
  cases hc : c.op? with
  | none => simp [apply, hc] at h
  | some op => exact ⟨op, rfl⟩

end Code

namespace Tree

variable {α : Type}

theorem WellFormed.isMissing_eq_false {t : Tree α} (h : t.WellFormed) : t.isMissing = false := by
  cases t with
  | missing => exact h.elim
  | _ => rfl

theorem binary?_eq_ok {c : Code} {op : Op} {l r : Tree α} (hc : c.op? = some op)
    (hb : op.isBinary) (hl : l.WellFormed) (hr : r.WellFormed) :
    binary? c l r = .ok (binary (.op op) l r) := by
  simp only [binary?, hc, Option.filter_some, hb, if_true, hl.isMissing_eq_false,
    hr.isMissing_eq_false, Bool.or_self, Bool.false_eq_true, if_false]

theorem call?_eq_ok {c : Code} {op : Op} {t : Tree α} (hc : c.op? = some op)
    (hf : op.isFunction) (ht : t.WellFormed) : call? c t = .ok (call (.op op) t) := by
  simp only [call?, hc, Option.filter_some, hf, if_true, ht.isMissing_eq_false,
    Bool.false_eq_true, if_false]

theorem copy?_binary {c : Code} {op : Op} {l r l' r' : Tree α} (hc : c.op? = some op)
    (hb : op.isBinary) (hl : l.copy? = .ok l') (hr : r.copy? = .ok r') (hwl : l'.WellFormed)
    (hwr : r'.WellFormed) : (binary c l r).copy? = .ok (binary (.op op) l' r') := by
  rw [copy?, hl, hr]
  exact binary?_eq_ok hc hb hwl hwr

theorem copy?_call {c : Code} {op : Op} {t t' : Tree α} (hc : c.op? = some op)
    (hf : op.isFunction) (ht : t.copy? = .ok t') (hwt : t'.WellFormed) :
    (call c t).copy? = .ok (call (.op op) t') := by
  rw [copy?, ht]
  exact call?_eq_ok hc hf hwt

/-- A well-formed tree can be copied, and the copy stands for the same value. -/
theorem copy?_of_wellFormed [Scalar α] {t : Tree α} (h : t.WellFormed) :
    ∃ s, t.copy? = .ok s ∧ s.WellFormed ∧ ∀ values, s.evaluate values = t.evaluate values := by
  induction t with
  | num v => exact ⟨num v, rfl, trivial, fun _ => rfl⟩
  | var i => exact ⟨var i, rfl, trivial, fun _ => rfl⟩
  | binary c l r ihl ihr =>
    obtain ⟨hbinary, hl, hr⟩ := h
    obtain ⟨l', hcopyl, hwl, hevall⟩ := ihl hl
    obtain ⟨r', hcopyr, hwr, hevalr⟩ := ihr hr
    obtain ⟨op, hc, hb⟩ := Code.op?_of_isBinary hbinary
    refine ⟨binary (.op op) l' r', copy?_binary hc hb hcopyl hcopyr hwl hwr, ⟨hb, hwl, hwr⟩,
      fun values => ?_⟩
    simp only [evaluate, hevall, hevalr, Code.apply_of_op? hc,
      Code.apply_of_op? (rfl : (Code.op op).op? = some op)]
  | call c t ih =>
    obtain ⟨hfunction, ht⟩ := h
    obtain ⟨t', hcopy, hwt, heval⟩ := ih ht
    obtain ⟨op, hc, hf⟩ := Code.op?_of_isFunction hfunction
    refine ⟨call (.op op) t', copy?_call hc hf hcopy hwt, ⟨hf, hwt⟩, fun values => ?_⟩
    simp only [evaluate, heval, Code.apply_of_op? hc,
      Code.apply_of_op? (rfl : (Code.op op).op? = some op)]
  | foreign kind text => exact h.elim
  | missing => exact h.elim

theorem evaluate_copy [Scalar α] {s t : Tree α} (h : t.WellFormed) (hcopy : t.copy? = .ok s)
    (values : List α) : s.evaluate values = t.evaluate values := by
  obtain ⟨s', hcopy', -, heval⟩ := copy?_of_wellFormed h
  cases hcopy.symm.trans hcopy'
  exact heval values

end Tree

end FormulaCalculus
