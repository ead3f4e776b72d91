import FormulaCalculus.Batch
import FormulaCalculus.Proofs.Batch.Operators
import FormulaCalculus.Proofs.Tree.Copy

/-!
# Batches row by row

A batch goes through the tree once, with a column for every node. `evaluateAll_eq`: the column of a
well-formed tree has in each row what the tree gives at the point of that row alone, so the rows do
not bear on each other.
-/

namespace FormulaCalculus

open Batch

/-! ### Codes -/

/-- The number in the slot of an operator is that of the operator. -/
theorem Batch.ofNumber?_number? {c : Code} {op : Op} (hc : c.op? = some op) :
    ∃ n, number? c = .ok n ∧ Op.ofNumber? n = some op := by
  cases c with
  | op o =>
    cases hc
    exact ⟨op.number, rfl, Op.ofNumber?_number op⟩
  | number n => exact ⟨n, rfl, hc⟩
  | word s => cases hc
  | other kind text => cases hc

variable [Elementary]

/-! ### A tree at a point -/

/-- What a batch has for a tree in the row of a point. -/
def Tree.rowValue (values : List Float) : Tree Float → Float
  | num v => v
  | var i => values[i]?.getD nan
  | binary c l r =>
      (c.op?.map fun op => op.applyTotal (l.rowValue values) (r.rowValue values)).getD nan
  | call c t => (c.op?.map fun op => op.applyTotal nan (t.rowValue values)).getD nan
  | _ => nan

omit [Elementary] in
theorem variableColumn_eq {points : List (List Float)} {i : Nat}
    (h : ∀ point ∈ points, i < point.length) :
    variableColumn points i = .ok (points.map fun point => point[i]?.getD nan) := by
  unfold variableColumn
  induction points with
  | nil => rfl
  | cons point points ih =>
    rw [List.mapM_cons, ih fun p hp => h p (List.mem_cons_of_mem _ hp),
      List.getElem?_eq_getElem (h point List.mem_cons_self)]
    simp only [List.map_cons, List.getElem?_eq_getElem (h point List.mem_cons_self)]
    rfl

omit [Elementary] in
theorem constantColumn_eq (points : List (List Float)) (v : Float) :
    constantColumn points.length v = points.map fun _ => v :=
  List.map_const'.symm

theorem binaryColumn_eq {op : Op} (hb : op.isBinary) (points : List (List Float))
    (f g : List Float → Float) :
    binaryColumn (some op) (points.map f) (points.map g) =
      points.map fun point => op.applyTotal (f point) (g point) := by
  simp only [binaryColumn, Option.filter_some, hb, if_true]
  rw [List.zipWith_map, List.zipWith_self]

theorem callColumn_eq {op : Op} (hf : op.isFunction) (points : List (List Float))
    (f : List Float → Float) :
    callColumn (some op) (points.map f) = points.map fun point => op.applyTotal nan (f point) := by
  simp only [callColumn, Option.filter_some, hf, if_true, List.map_map]
  rfl

namespace Tree

theorem rowValue_binary {c : Code} {op : Op} (hc : c.op? = some op) (l r : Tree Float)
    (values : List Float) : (binary c l r).rowValue values =
      op.applyTotal (l.rowValue values) (r.rowValue values) := by
  simp only [rowValue, hc, Option.map_some, Option.getD_some]

theorem rowValue_call {c : Code} {op : Op} (hc : c.op? = some op) (t : Tree Float)
    (values : List Float) : (call c t).rowValue values = op.applyTotal nan (t.rowValue values) := by
  simp only [rowValue, hc, Option.map_some, Option.getD_some]

/-- Every row of the column of a well-formed tree is found at its point alone. -/
theorem evaluateAll_eq {t : Tree Float} (ht : t.WellFormed) {points : List (List Float)}
    (h : ∀ i ∈ t.indices, ∀ point ∈ points, i < point.length) :
    t.evaluateAll points = .ok (points.map fun point => t.rowValue point) := by
  induction t with
  | num v => exact congrArg _ (constantColumn_eq points v)
  | var i => exact variableColumn_eq (h i (List.mem_singleton_self i))
  | binary c l r ihl ihr =>
    obtain ⟨hbinary, hl, hr⟩ := ht
    obtain ⟨op, hc, hb⟩ := Code.op?_of_isBinary hbinary
    obtain ⟨n, hn, hop⟩ := ofNumber?_number? hc
    rw [evaluateAll, ihl hl fun i hi => h i (mem_indices_binary.2 (.inl hi)),
      ihr hr fun i hi => h i (mem_indices_binary.2 (.inr hi))]
    simp only [bind, Except.bind, hn, hop, binaryColumn_eq hb, rowValue_binary hc]
    rfl
  | call c t ih =>
    obtain ⟨hfunction, ht⟩ := ht
    obtain ⟨op, hc, hf⟩ := Code.op?_of_isFunction hfunction
    obtain ⟨n, hn, hop⟩ := ofNumber?_number? hc
    rw [evaluateAll, ih ht fun i hi => h i (mem_indices_call.2 hi)]
    simp only [bind, Except.bind, hn, hop, callColumn_eq hf, rowValue_call hc]
    rfl
  | foreign kind text => exact ht.elim
  | missing => exact ht.elim

end Tree

/-! ### The points of a sample -/

omit [Elementary] in
/-- The rows of a matrix have as many entries as the matrix has columns. -/
theorem Samples.length_of_mem {samples : Samples} {points : List (List Float)} {columns : Nat}
    (h : samples.matrix? = .ok (points, columns)) : ∀ point ∈ points, point.length = columns := by
  cases samples with
  | column xs =>
    cases h
    intro point hpoint
    obtain ⟨x, -, rfl⟩ := List.mem_map.1 hpoint
    rfl
  | rows ps => cases ps with
    | nil => cases h; nofun
    | cons p ps =>
      simp only [matrix?, regular?] at h
      split at h
      · rename_i hall
        cases h
        intro point hpoint
        exact of_decide_eq_true (List.all_eq_true.1 hall point hpoint)
      · cases h
  | other => cases h

end FormulaCalculus
