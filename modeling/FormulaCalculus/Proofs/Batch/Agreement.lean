import FormulaCalculus.Proofs.Batch.Rows
import FormulaCalculus.Proofs.Simplify.Meaning
import FormulaCalculus.Proofs.Tree.Deep

/-!
# Evaluation and batches

Where a point has a value, its row of a batch has one like it, and where a point has a fault, its
row has NaN unless a power hides it. Evaluation stops at the first operator that is refused while a
batch goes on with NaN, so the second statement needs that NaN survives the operators around it.
-/

namespace FormulaCalculus

open Batch Double

namespace Tree

variable [Elementary]

/-- Where a tree has a value, its row has one like it. -/
theorem alike_rowValue (hE : Elementary.Consistent) {t : Tree Float} {point : List Float}
    {v : Float} (h : t.evaluate point = .ok v) : Alike v (t.rowValue point) := by
  induction t generalizing v with
  | num z => cases h; exact .refl _
  | var i =>
    simp only [evaluate] at h
    cases hi : point[i]? with
    | none => rw [hi] at h; cases h
    | some z =>
      rw [hi] at h
      cases h
      rw [rowValue, hi]
      exact .refl _
  | binary c l r ihl ihr =>
    obtain ⟨x, y, hx, hy, hxy⟩ := evaluate_binary_eq_ok h
    obtain ⟨op, hc⟩ := Code.op?_of_apply hxy
    rw [rowValue_binary hc]
    exact Op.alike_applyTotal hE (ihl hx) (ihr hy) ((Code.apply_eq_ok hc).1 hxy)
  | call c t ih =>
    obtain ⟨y, hy, hcy⟩ := evaluate_call_eq_ok h
    obtain ⟨op, hc⟩ := Code.op?_of_apply hcy
    rw [rowValue_call hc]
    exact Op.alike_applyTotal hE (.refl _) (ih hy) ((Code.apply_eq_ok hc).1 hcy)
  | foreign kind text => cases h
  | missing => cases h

/-- No power in the tree hides at the point that an operand is NaN or that it is refused. -/
def PowersKeepNaN (point : List Float) : Tree Float → Prop
  | binary c l r => l.PowersKeepNaN point ∧ r.PowersKeepNaN point ∧
      ¬ (c.op? = some .pow ∧ powHides (l.rowValue point) (r.rowValue point))
  | call _ t => t.PowersKeepNaN point
  | _ => True

/-- Where an operator of a tree is refused, the row of the tree has NaN. -/
theorem isNaN_rowValue (hE : Elementary.Consistent) (hN : Elementary.KeepsNaN) {t : Tree Float}
    (ht : t.WellFormed) {point : List Float} (hk : t.PowersKeepNaN point) {f : DomainFault}
    (h : t.evaluate point = .error (.domain f)) : (t.rowValue point).isNaN := by
  induction t with
  | num z => cases h
  | var i =>
    simp only [evaluate] at h
    cases hi : point[i]? with
    | none => rw [hi] at h; cases h
    | some z => rw [hi] at h; cases h
  | binary c l r ihl ihr =>
    -- the fault is the left operand's, or else the right operand's, or else the operator's own
    obtain ⟨hbinary, hl, hr⟩ := ht
    obtain ⟨hkl, hkr, hpow⟩ := hk
    obtain ⟨op, hc, hb⟩ := Code.op?_of_isBinary hbinary
    have hpow : ¬ (op = .pow ∧ powHides (l.rowValue point) (r.rowValue point)) := by
      rintro ⟨rfl, hides⟩
      exact hpow ⟨hc, hides⟩
    rw [rowValue_binary hc]
    cases hx : l.evaluate point with
    | error fault =>
      simp only [evaluate, hx] at h
      cases h
      exact Op.isNaN_applyTotal_binary hN hb hpow (.inl (ihl hl hkl hx))
    | ok x => cases hy : r.evaluate point with
      | error fault =>
        simp only [evaluate, hx, hy] at h
        cases h
        exact Op.isNaN_applyTotal_binary hN hb hpow (.inr (ihr hr hkr hy))
      | ok y =>
        rw [evaluate_binary hx hy, Code.apply_of_op? hc] at h
        cases hv : op.apply x y with
        | ok v => rw [hv] at h; cases h
        | error f' =>
          exact Op.isNaN_applyTotal_of_error hE (alike_rowValue hE hx) (alike_rowValue hE hy)
            hpow hv
  | call c t ih =>
    obtain ⟨hfunction, ht⟩ := ht
    obtain ⟨op, hc, hf⟩ := Code.op?_of_isFunction hfunction
    rw [rowValue_call hc]
    cases hy : t.evaluate point with
    | error fault =>
      simp only [evaluate, hy] at h
      cases h
      exact Op.isNaN_applyTotal_function hN hf (ih ht hk hy)
    | ok y =>
      rw [evaluate_call hy, Code.apply_of_op? hc] at h
      cases hv : op.apply Scalar.absent y with
      | ok v => rw [hv] at h; cases h
      | error f' =>
        have hpow : ¬ (op = .pow ∧ powHides nan (t.rowValue point)) := by
          rintro ⟨rfl, -⟩
          cases hf
        exact Op.isNaN_applyTotal_of_error hE (.refl _) (alike_rowValue hE hy) hpow hv
  | foreign kind text => cases h
  | missing => cases h

end Tree

namespace Equation

variable {e : Equation Float} {samples : Samples} {points : List (List Float)} {columns : Nat}

/-- A batch over a well-formed equation is the list of the values of its rows. -/
theorem evaluateAll_eq [Elementary] (hroot : e.root.WellFormed)
    (hindices : ∀ i ∈ e.root.indices, i < e.names.length)
    (hmatrix : samples.matrix? = .ok (points, columns)) (hcolumns : e.names.length ≤ columns) :
    e.evaluateAll samples =
      if e.root.isTooDeep then .error (.nestedTooDeeply "evaluate_batch")
      else .ok (points.map fun point => e.root.rowValue point) := by
  have hrow : ∀ i ∈ e.root.indices, ∀ point ∈ points, i < point.length := by
    intro i hi point hpoint
    rw [Samples.length_of_mem hmatrix point hpoint]
    exact lt_of_lt_of_le (hindices i hi) hcolumns
  rw [evaluateAll, hmatrix]
  simp only [bind, Except.bind, if_neg (Nat.not_lt.2 hcolumns), Tree.evaluateAll_eq hroot hrow]

/-- Where evaluation has a value at a point, the batch has one like it in the row of the point,
whatever the other rows are. The batch has an entry for each row unless the equation is too deep. -/
theorem evaluateAll_agrees [Elementary] (hE : Elementary.Consistent) (hroot : e.root.WellFormed)
    (hindices : ∀ i ∈ e.root.indices, i < e.names.length)
    (hmatrix : samples.matrix? = .ok (points, columns)) (hcolumns : e.names.length ≤ columns) :
    if e.root.isTooDeep then e.evaluateAll samples = .error (.nestedTooDeeply "evaluate_batch")
    else
      ∃ values, e.evaluateAll samples = .ok values ∧ values.length = points.length ∧
        ∀ (i : Nat) (point : List Float) (v : Float), points[i]? = some point →
          e.evaluate point = .ok v → ∃ w, values[i]? = some w ∧ Alike v w := by
  rw [evaluateAll_eq hroot hindices hmatrix hcolumns]
  split
  · rfl
  · refine ⟨_, rfl, List.length_map _, fun i point v hpoint hv => ?_⟩
    obtain ⟨-, -, hroot⟩ := evaluate_eq_ok.1 hv
    refine ⟨e.root.rowValue point, ?_, Tree.alike_rowValue hE hroot⟩
    rw [List.getElem?_map, hpoint]
    rfl

/-- The root of -0 and of -1 in one batch: evaluation gives -0 for the first and refuses the second,
and the batch has 0 for the first. -/
theorem evaluateAll_agrees_root :
    letI : Elementary := .simple
    let e : Equation Float := ⟨.pow (.var 0) (.num 0.5), ["x"], by decide⟩
    let samples : Samples := .rows [[-0], [-1]]
    Elementary.Consistent ∧ e.root.WellFormed ∧ (∀ i ∈ e.root.indices, i < e.names.length) ∧
      samples.matrix? = .ok ([[-0], [-1]], 1) ∧ e.names.length ≤ 1 ∧ e.evaluate [-0] = .ok (-0) ∧
      ∃ values w, e.evaluateAll samples = .ok values ∧ values.length = 2 ∧ values[0]? = some w ∧
        Alike (-0) w := by
  intro e samples
  let _ : Elementary := .simple
  have hroot : e.root.WellFormed := by decide
  have hindices : ∀ i ∈ e.root.indices, i < e.names.length := by decide
  have hmatrix : samples.matrix? = .ok ([[-0], [-1]], 1) := rfl
  have hvalue : e.evaluate [-0] = .ok (-0) := by decide +kernel
  have h := evaluateAll_agrees Elementary.consistent_simple hroot hindices hmatrix (le_refl 1)
  rw [if_neg (by decide)] at h
  obtain ⟨values, hvalues, hlength, h⟩ := h
  obtain ⟨w, hw, hvw⟩ := h 0 [-0] (-0) rfl hvalue
  exact ⟨Elementary.consistent_simple, hroot, hindices, hmatrix, le_refl 1, hvalue, values, w,
    hvalues, hlength, hw, hvw⟩

/-- A tree that is too deep has no batch, and a function in the place of an arithmetic operator has
a value at a point and NaN in a batch. -/
theorem evaluateAll_disagrees :
    (let e : Equation Float := ⟨Tree.sums 1000, ["x"], by decide⟩;
      e.root.WellFormed ∧ (∀ i ∈ e.root.indices, i < e.names.length) ∧
        e.evaluateAll (.rows [[1]]) = .error (.nestedTooDeeply "evaluate_batch")) ∧
    (let e : Equation Float := ⟨.binary (.op .sqrt) (.num 0) (.num 0), ["x"], by decide⟩;
      (∀ i ∈ e.root.indices, i < e.names.length) ∧ e.evaluate [1] = .ok 0 ∧
        e.evaluateAll (.rows [[1]]) = .ok [nan] ∧ ¬ Alike 0 nan) := by
  constructor
  · intro e
    have hroot : e.root.WellFormed := Tree.wellFormed_sums 1000
    have hindices : ∀ i ∈ e.root.indices, i < e.names.length := fun i hi =>
      Nat.lt_one_iff.2 (Tree.eq_zero_of_mem_indices_sums hi)
    have hdeep : e.root.isTooDeep := Tree.isTooDeep_sums.2 (Nat.le_refl Tree.maxDepth)
    have hmatrix : (Samples.rows [[1]]).matrix? = .ok ([[1]], 1) := rfl
    refine ⟨hroot, hindices, ?_⟩
    rw [evaluateAll_eq hroot hindices hmatrix (le_refl 1), if_pos hdeep]
  · intro e
    refine ⟨by decide, ?_, ?_, ?_⟩
    · decide +kernel
    · decide +kernel
    · decide +kernel

/-- Where evaluation refuses an operator at a point, the batch has NaN in the row of the point,
unless a power hides it. -/
theorem evaluateAll_marks_faults [Elementary] (hE : Elementary.Consistent)
    (hN : Elementary.KeepsNaN) (hroot : e.root.WellFormed)
    (hindices : ∀ i ∈ e.root.indices, i < e.names.length)
    (hmatrix : samples.matrix? = .ok (points, columns)) (hcolumns : e.names.length ≤ columns)
    {i : Nat} {point : List Float} {f : DomainFault} (hpoint : points[i]? = some point)
    (hfault : e.evaluate point = .error (.domain f)) (hk : e.root.PowersKeepNaN point) :
    ∃ values w, e.evaluateAll samples = .ok values ∧ values[i]? = some w ∧ w.isNaN := by
  rw [evaluateAll_eq hroot hindices hmatrix hcolumns]
  unfold evaluate at hfault
  split at hfault
  · cases hfault
  split at hfault
  · cases hfault
  · rename_i hdeep
    rw [if_neg hdeep]
    refine ⟨_, e.root.rowValue point, rfl, ?_, Tree.isNaN_rowValue hE hN hroot hk hfault⟩
    rw [List.getElem?_map, hpoint]
    rfl

/-- `(1/x)^2` at 0: the quotient is refused, and the power keeps its NaN. -/
theorem evaluateAll_marks_faults_square :
    letI : Elementary := .simple
    let e : Equation Float := ⟨.pow (.div (.num 1) (.var 0)) (.num 2), ["x"], by decide⟩
    let samples : Samples := .rows [[0]]
    Elementary.Consistent ∧ Elementary.KeepsNaN ∧ e.root.WellFormed ∧
      (∀ i ∈ e.root.indices, i < e.names.length) ∧ samples.matrix? = .ok ([[0]], 1) ∧
      e.names.length ≤ 1 ∧ e.evaluate [0] = .error (.domain .divisionByZero) ∧
      e.root.PowersKeepNaN [0] ∧
      ∃ values w, e.evaluateAll samples = .ok values ∧ values[0]? = some w ∧ w.isNaN := by
  intro e samples
  let _ : Elementary := .simple
  have hroot : e.root.WellFormed := by decide
  have hindices : ∀ i ∈ e.root.indices, i < e.names.length := by decide
  have hmatrix : samples.matrix? = .ok ([[0]], 1) := rfl
  have hfault : e.evaluate [0] = .error (.domain .divisionByZero) := by decide +kernel
  have hquotient : ¬ powHides ((Tree.div (.num 1) (.var 0)).rowValue [0]) 2 := by decide +kernel
  have hk : e.root.PowersKeepNaN [0] :=
    ⟨⟨trivial, trivial, fun h => nomatch h.1⟩, trivial, fun h => hquotient h.2⟩
  exact ⟨Elementary.consistent_simple, Elementary.keepsNaN_simple, hroot, hindices, hmatrix,
    le_refl 1, hfault, hk, evaluateAll_marks_faults Elementary.consistent_simple
      Elementary.keepsNaN_simple hroot hindices hmatrix (le_refl 1) rfl hfault hk⟩

/-- `(1/x)^0` at 0: the quotient is refused, and the power hides its NaN. -/
theorem evaluateAll_hides_fault :
    letI : Elementary := .simple
    let e : Equation Float := ⟨.pow (.div (.num 1) (.var 0)) (.num 0), ["x"], by decide⟩
    e.evaluate [0] = .error (.domain .divisionByZero) ∧ e.evaluateAll (.rows [[0]]) = .ok [1] := by
  decide +kernel

end Equation

end FormulaCalculus
