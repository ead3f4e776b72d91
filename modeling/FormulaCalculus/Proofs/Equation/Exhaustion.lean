import FormulaCalculus.Batch
import FormulaCalculus.Proofs.Derivative.Malformed
import FormulaCalculus.Proofs.Formula.Faults
import FormulaCalculus.Proofs.Simplify.Interruption
import FormulaCalculus.Proofs.Tree.Deep

/-!
# Which operations let the exhaustion of the stack out

Evaluation, batches and repeated passes contain it: they report a tree that is too deep. A
derivative contains it while it is formed, but not while it is measured; a single pass and the
reader of formulas measure a tree without a guard. `recursion_escapes` has the exact conditions.
-/

namespace FormulaCalculus

theorem Fault.not_isExhaustion {fault : Fault}
    (h : (fault.family == .recursion || fault.family == .depthLimit) = false) :
    ¬fault.IsExhaustion := by
  rintro (rfl | ⟨operation, rfl⟩)
  · cases h
  · cases h

/-- If something goes wrong, it is not the exhaustion of the stack. -/
abbrev Contained {β : Type} (x : Except Fault β) : Prop :=
  Ensures (fun _ => True) (fun fault => ¬fault.IsExhaustion) x

/-- The operation reports a tree that is too deep where `deep` says so and only there, and it never
lets the exhaustion of the stack out. -/
structure Guarded {β : Type} (operation : String) (deep : Prop) (result : Except Fault β) :
    Prop where
  contained : result ≠ .error .recursion
  reported_iff : result = .error (.nestedTooDeeply operation) ↔ deep

section Guarded
variable {β : Type} {operation : String} {deep : Prop} {x : Except Fault β} {fault : Fault}

theorem Guarded.of_reported (h : deep) :
    Guarded operation deep (.error (.nestedTooDeeply operation) : Except Fault β) :=
  ⟨nofun, iff_of_true rfl h⟩

theorem Guarded.of_contained (hx : Contained x) (h : ¬deep) : Guarded operation deep x :=
  ⟨fun hr => (hr ▸ hx).fault (.inl rfl),
    iff_of_false (fun hr => (hr ▸ hx).fault (.inr ⟨operation, rfl⟩)) h⟩

end Guarded

namespace Tree

variable {α : Type} {t : Tree α}

/-! ### Measuring -/

theorem size?_eq_recursion_iff : t.size? = .error .recursion ↔ t.isTooDeep := by
  unfold size? checkMeasurable
  by_cases hd : t.isTooDeep
  · rw [if_pos hd]
    exact iff_of_true rfl hd
  · rw [if_neg hd]
    refine iff_of_false (fun h => ?_) hd
    split at h <;> cases h

theorem size?_of_not_isComplete (hc : t.isComplete = false) (hd : t.isTooDeep = false) :
    t.size? = .error .absentChild := by
  simp only [size?, checkMeasurable, hc, hd]
  rfl

/-! ### Walks -/

section Walks
variable [Scalar α] {ε : α}

theorem contained_mapError {β : Type} (x : Except DomainFault β) :
    Contained (x.mapError .domain) := by
  cases x with
  | ok y => exact .ok trivial
  | error d => exact .error (Fault.not_isExhaustion rfl)

theorem contained_apply (c : Code) (x y : α) : Contained (c.apply x y) := by
  unfold Code.apply
  split
  · exact .error (Fault.not_isExhaustion rfl)
  · exact contained_mapError _

theorem contained_evaluate (values : List α) (t : Tree α) : Contained (t.evaluate values) := by
  induction t with
  | num v => exact .ok trivial
  | var i =>
    unfold evaluate
    split
    · exact .ok trivial
    · exact .error (Fault.not_isExhaustion rfl)
  | binary c l r ihl ihr =>
    exact ihl.bind fun x _ => ihr.bind fun y _ => contained_apply c x y
  | call c x ih => exact ih.bind fun y _ => contained_apply c _ y
  | foreign | missing => exact .error (Fault.not_isExhaustion rfl)

theorem contained_replace? (c : Code) (l r : Tree α) : Contained (replace? ε c l r) := by
  have hmap {β γ : Type} {x : Except Fault β} (f : β → γ) (h : Contained x) :
      Contained (f <$> x) := by
    cases h with
    | ok h => exact .ok h
    | error h => exact .error h
  unfold replace?
  split
  · exact .error (Fault.not_isExhaustion rfl)
  split
  · exact hmap _ (contained_mapError _)
  · exact hmap _ (contained_mapError _)
  · exact contained_mapError _

theorem contained_simplifyPass (t : Tree α) : Contained (simplifyPass ε t).outcome := by
  induction t with
  | num | var => exact .ok trivial
  | foreign | missing => exact .error (Fault.not_isExhaustion rfl)
  | binary c l r ihl ihr =>
    cases hl : (simplifyPass ε l).outcome with
    | error fault =>
      rw [simplifyPass_binary_of_left hl]
      exact .error (hl ▸ ihl).fault
    | ok a =>
      cases hr : (simplifyPass ε r).outcome with
      | error fault =>
        rw [simplifyPass_binary_of_right hl hr]
        exact .error (hr ▸ ihr).fault
      | ok b =>
        rw [simplifyPass_binary_eq hl hr, outcome_finish]
        exact contained_replace? c _ _
  | call c x ih =>
    cases hx : (simplifyPass ε x).outcome with
    | error fault =>
      rw [simplifyPass_call_of_error hx]
      exact .error (hx ▸ ih).fault
    | ok a =>
      rw [simplifyPass_call_eq hx, outcome_finish]
      exact contained_replace? c _ _

theorem contained_differentiate? (t : Tree α) (target : Int) :
    Contained (t.differentiate? target) := by
  have hends : Ensures _ (Fault.IsMalformation True) (t.differentiate? target) :=
    ensures_differentiate? fun h => absurd trivial h
  refine hends.imp (fun _ _ => trivial) fun fault hfault => ?_
  rcases hfault with h | h | ⟨rfl, -⟩
  · exact Fault.not_isExhaustion (by rw [h]; rfl)
  · exact Fault.not_isExhaustion (by rw [h]; rfl)
  · exact Fault.not_isExhaustion rfl

end Walks

section Batch

theorem contained_number? (c : Code) : Contained (Batch.number? c) := by
  unfold Batch.number?
  split
  · exact .ok trivial
  · exact .ok trivial
  · split
    · exact .ok trivial
    · exact .error (Fault.not_isExhaustion rfl)
  · exact .error (Fault.not_isExhaustion rfl)

theorem contained_evaluateAll [Elementary] (points : List (List Float)) (t : Tree Float) :
    Contained (t.evaluateAll points) := by
  induction t with
  | num v => exact .ok trivial
  | var i =>
    refine .mapM fun point _ => ?_
    split
    · exact .ok trivial
    · exact .error (Fault.not_isExhaustion rfl)
  | binary c l r ihl ihr =>
    exact ihl.bind fun xs _ => ihr.bind fun ys _ =>
      (contained_number? c).bind fun n _ => .ok trivial
  | call c x ih => exact ih.bind fun xs _ => (contained_number? c).bind fun n _ => .ok trivial
  | foreign | missing => exact .error (Fault.not_isExhaustion rfl)

theorem contained_matrix? (samples : Samples) : Contained samples.matrix? := by
  have hregular (points : List (List Float)) : Contained (Samples.regular? points) := by
    unfold Samples.regular?
    split
    · exact .ok trivial
    · exact .error (Fault.not_isExhaustion rfl)
  cases samples with
  | column xs => exact .ok trivial
  | rows points =>
    cases points with
    | nil => exact .ok trivial
    | cons p ps => exact (hregular _).bind fun _ _ => .ok trivial
  | other => exact .error (Fault.not_isExhaustion rfl)

end Batch

end Tree

/-! ### Operations -/

namespace Equation

open FormulaCalculus.Tree

section Scalar
variable {α : Type} [Scalar α] {ε : α} {e e' : Equation α}

theorem guarded_evaluate (e : Equation α) (values : List α) :
    Guarded "evaluate" (e.names.length ≤ values.length ∧ e.root.isTooDeep)
      (e.evaluate values) := by
  unfold evaluate
  split
  · rename_i hfew
    exact .of_contained (.error (Fault.not_isExhaustion rfl)) fun h => by omega
  split
  · rename_i hfew hdeep
    exact .of_reported ⟨Nat.le_of_not_lt hfew, hdeep⟩
  · rename_i hdeep
    exact .of_contained (contained_evaluate values e.root) fun h => hdeep h.2

theorem runPass_of_isTooDeep (hd : e.root.isTooDeep) :
    e.runPass ε = (e, .error (.nestedTooDeeply "simplify")) := by
  simp only [runPass, simplify?, hd, if_true]

/-- A pass over a tree that can be walked contains the exhaustion of the stack. -/
theorem contained_runPass (hd : e.root.isTooDeep = false) : Contained (e.runPass ε).2 := by
  rw [runPass_eq hd]
  have hpass := contained_simplifyPass (ε := ε) e.root
  cases ho : (e.root.simplifyPass ε).outcome with
  | ok o => exact .ok trivial
  | error fault => exact .error (ho ▸ hpass).fault

theorem contained_repeatPasses (hd : e.root.isTooDeep = false) {limit : Count}
    {fuel passed : Nat} : Contained (repeatPasses ε limit fuel passed e).result.outcome := by
  induction fuel generalizing e passed with
  | zero => exact .ok trivial
  | succ fuel ih =>
    unfold repeatPasses
    split
    · rename_i e' fault hrun
      have hpass := contained_runPass (ε := ε) hd
      rw [hrun] at hpass
      exact .error hpass.fault
    · exact .ok trivial
    · rename_i e' n hrun
      -- no pass makes the tree deeper, so the next one can walk it too
      obtain ⟨p, o, hp, -, rfl, -⟩ := runPass_eq_ok hrun
      obtain ⟨-, rfl⟩ := simplify?_eq_ok.1 hp
      exact ih (isTooDeep_eq_false_of_le hd (depth_simplifyPass_le ε e.root))

theorem guarded_simplifyFully (e : Equation α) (ε : α) (limit : Count) :
    Guarded "simplify" (0 < limit.value ∧ e.root.isTooDeep)
      (e.simplifyFully ε limit).result.outcome := by
  unfold simplifyFully
  split
  · rename_i hnone
    exact .of_contained (.error (Fault.not_isExhaustion rfl)) fun h => by omega
  · rename_i hlimit
    cases hd : e.root.isTooDeep with
    | false => exact .of_contained (contained_repeatPasses hd) fun h => nomatch h.2
    | true =>
      obtain ⟨n, hn⟩ : ∃ n, limit.value.toNat = n + 1 := ⟨limit.value.toNat - 1, by omega⟩
      rw [hn, repeatPasses, runPass_of_isTooDeep hd]
      exact .of_reported ⟨by omega, rfl⟩

/-- A single pass measures the tree first. -/
theorem simplify_eq_recursion_iff (e : Equation α) (ε : α) :
    (e.simplify ε).result.outcome = .error .recursion ↔ e.root.isTooDeep := by
  rw [← size?_eq_recursion_iff]
  cases hsize : e.root.size? with
  | error fault => simp [simplify, hsize]
  | ok n =>
    refine iff_of_false (fun h => ?_) (fun h => by cases h)
    have hpass := contained_simplifyPass (ε := ε) e.root
    rw [(simplify_of_size? hsize ε).2] at h
    cases ho : (e.root.simplifyPass ε).outcome with
    | error fault =>
      rw [ho] at h hpass
      cases h
      exact hpass.fault (.inl rfl)
    | ok o =>
      rw [ho] at h
      cases h

/-- A derivative is formed under a guard and measured without one. -/
theorem differentiate_eq_recursion_iff (e : Equation α) (i : Int) :
    (e.differentiate i).outcome = .error .recursion ↔
      0 ≤ i ∧ i < max e.names.length 1 ∧ e.root.isTooDeep = false ∧ e.root.isComplete ∧
        ∃ d, e.root.differentiate? i = .ok d ∧ d.isTooDeep := by
  unfold differentiate
  split
  · exact iff_of_false nofun fun ⟨h0, hi, _⟩ => by omega
  rename_i hindex
  split
  · rename_i hdeep
    exact iff_of_false nofun fun ⟨_, _, hshallow, _⟩ => nomatch hdeep.symm.trans hshallow
  rename_i hdeep
  rw [Bool.not_eq_true] at hdeep
  simp only [Traced.outcome_bind, Traced.outcome_ofExcept, Traced.outcome_report,
    Traced.outcome_pure]
  have hformed := contained_differentiate? e.root i
  cases hd : e.root.differentiate? i with
  | error fault =>
    rw [hd] at hformed
    refine iff_of_false (fun h => ?_) nofun
    cases h
    exact hformed.fault (.inl rfl)
  | ok d =>
    cases hc : e.root.isComplete with
    | false =>
      rw [size?_of_not_isComplete hc hdeep]
      exact iff_of_false nofun nofun
    | true =>
      rw [size?_of_isComplete hc hdeep]
      have hmeasured : (d.size? >>= fun _ => .ok (e.withRoot d)) =
          (.error .recursion : Except Fault (Equation α)) ↔ d.isTooDeep := by
        rw [← size?_eq_recursion_iff]
        cases d.size? with
        | ok n => exact iff_of_false nofun nofun
        | error fault => exact ⟨fun h => by cases h; rfl, fun h => by cases h; rfl⟩
      refine hmeasured.trans ⟨fun h => ⟨by omega, by omega, hdeep, rfl, d, rfl, h⟩, ?_⟩
      rintro ⟨-, -, -, -, _, ⟨⟩, h⟩
      exact h

end Scalar

theorem guarded_evaluateAll [Elementary] (e : Equation Float) (samples : Samples) :
    Guarded "evaluate_batch"
      ((∃ points columns, samples.matrix? = .ok (points, columns) ∧ e.names.length ≤ columns) ∧
        e.root.isTooDeep) (e.evaluateAll samples) := by
  unfold evaluateAll
  have hmatrix := contained_matrix? samples
  cases hm : samples.matrix? with
  | error fault =>
    exact .of_contained (.error (hm ▸ hmatrix).fault) fun ⟨⟨_, _, h, _⟩, _⟩ => nomatch h
  | ok matrix =>
    obtain ⟨points, columns⟩ := matrix
    simp only [bind, Except.bind]
    split
    · rename_i hfew
      refine .of_contained (.error (Fault.not_isExhaustion rfl)) ?_
      rintro ⟨⟨_, _, ⟨⟩, h⟩, -⟩
      omega
    split
    · rename_i hfew hdeep
      exact .of_reported ⟨⟨_, _, rfl, Nat.le_of_not_lt hfew⟩, hdeep⟩
    · rename_i hdeep
      exact .of_contained (contained_evaluateAll points e.root) fun h => hdeep h.2

end Equation

namespace Formula

variable {limit : Count} {formula : String}

/-- An equation that was read is measured without a guard. -/
theorem parse_eq_recursion_iff : (parse limit (some formula)).outcome = .error .recursion ↔
    read? limit formula = .error .recursion ∨
      ∃ e, read? limit formula = .ok e ∧ e.root.isTooDeep := by
  cases hread : read? limit formula with
  | error fault =>
    rw [outcome_parse_of_read?_error hread]
    refine ⟨fun h => .inl (by cases h; rfl), ?_⟩
    rintro (h | ⟨e, h, -⟩)
    · cases h; rfl
    · cases h
  | ok e =>
    rw [outcome_parse_of_read? hread]
    constructor
    · intro h
      split at h
      · exact .inr ⟨e, rfl, by assumption⟩
      · cases h
    · rintro (h | ⟨e', h, hdeep⟩)
      · cases h
      · cases h
        exact if_pos hdeep

/-- Reading itself exhausts the stack only under a limit that lets more brackets be open than the
stack has room for, and by a formula that opens so many. -/
theorem lt_of_read?_eq_recursion (h : read? limit formula = .error .recursion) :
    Tree.maxDepth < limit.value ∧
      ∃ tokens, Token.scan formula = .ok tokens ∧ Tree.maxDepth < nesting tokens := by
  constructor
  · by_contra hlimit
    obtain ⟨f, position, hf⟩ := isFormula_of_read? (Int.not_lt.1 hlimit) h
    cases hf
  cases hscan : Token.scan formula with
  | error fault =>
    unfold read? at h
    rw [hscan] at h
    cases h
    obtain ⟨f, position, hf⟩ := isFormula_of_scanFrom hscan
    cases hf
  | ok tokens =>
    refine ⟨tokens, rfl, ?_⟩
    have hreading : readTokens limit (variableNames tokens) tokens = .error .recursion := by
      rw [read?_of_scan hscan] at h
      cases hr : readTokens limit (variableNames tokens) tokens with
      | error fault => rw [hr] at h; cases h; rfl
      | ok root => rw [hr] at h; cases h
    have hexhausts : Exhausts limit (variableNames tokens) {} tokens := by
      unfold readTokens at hreading
      split at hreading
      · cases hreading
      unfold Exhausts
      cases hfold : tokens.foldlM (State.step limit (variableNames tokens)) {} with
      | error fault => rw [hfold] at hreading; cases hreading; rfl
      | ok s =>
        simp only [hfold, bind, Except.bind] at hreading
        split at hreading <;> cases hreading
    have hopen := hexhausts.not_openAtMost
    rw [openAtMost_iff] at hopen
    simpa using hopen

end Formula

/-- Evaluation, batches and repeated passes contain the exhaustion of the stack: they report exactly
the trees that are too deep, for arguments that they admit. It comes out of a derivative if that is
too deep to be measured while the tree is not, out of a single pass if the tree is too deep, and out
of the reader if the equation is, or if more brackets are open than the stack has room for. -/
theorem recursion_escapes [Elementary] :
    (∀ (e : Equation Float) (values : List Float),
      Guarded "evaluate" (e.names.length ≤ values.length ∧ e.root.isTooDeep)
        (e.evaluate values)) ∧
    (∀ (e : Equation Float) (samples : Samples),
      Guarded "evaluate_batch"
        ((∃ points columns, samples.matrix? = .ok (points, columns) ∧ e.names.length ≤ columns) ∧
          e.root.isTooDeep) (e.evaluateAll samples)) ∧
    (∀ (e : Equation Float) (ε : Float) (limit : Count),
      Guarded "simplify" (0 < limit.value ∧ e.root.isTooDeep)
        (e.simplifyFully ε limit).result.outcome) ∧
    (∀ (e : Equation Float) (i : Int), (e.differentiate i).outcome = .error .recursion ↔
      0 ≤ i ∧ i < max e.names.length 1 ∧ e.root.isTooDeep = false ∧ e.root.isComplete ∧
        ∃ d, e.root.differentiate? i = .ok d ∧ d.isTooDeep) ∧
    (∀ (e : Equation Float) (ε : Float),
      (e.simplify ε).result.outcome = .error .recursion ↔ e.root.isTooDeep) ∧
    ∀ (limit : Count) (formula : String),
      ((Formula.parse limit (some formula)).outcome = .error .recursion ↔
        Formula.read? limit formula = .error .recursion ∨
          ∃ e, Formula.read? limit formula = .ok e ∧ e.root.isTooDeep) ∧
      (Formula.read? limit formula = .error .recursion → Tree.maxDepth < limit.value ∧
        ∃ tokens, Token.scan formula = .ok tokens ∧ Tree.maxDepth < Formula.nesting tokens) :=
  ⟨Equation.guarded_evaluate, Equation.guarded_evaluateAll, Equation.guarded_simplifyFully,
    Equation.differentiate_eq_recursion_iff, Equation.simplify_eq_recursion_iff,
    fun _ _ => ⟨Formula.parse_eq_recursion_iff, Formula.lt_of_read?_eq_recursion⟩⟩

/-- A long sum: the repeated passes report it, and the single pass, which measures it first, lets
the exhaustion of the stack out. -/
theorem simplify_lets_recursion_out :
    let e : Equation Float := ⟨Tree.sums 1000, ["x"], by decide⟩
    e.root.WellFormed ∧
      (e.simplifyFully 1e-9 1).result.outcome = .error (.nestedTooDeeply "simplify") ∧
      (e.simplify 1e-9).result.outcome = .error .recursion ∧
      Fault.recursion.family ≠ .depthLimit := by
  intro e
  have hdeep : e.root.isTooDeep := Tree.isTooDeep_sums.2 (Nat.le_refl Tree.maxDepth)
  refine ⟨Tree.wellFormed_sums 1000, ?_, ?_, by decide⟩
  · exact (Equation.guarded_simplifyFully e 1e-9 1).reported_iff.2 ⟨by decide, hdeep⟩
  · exact (Equation.simplify_eq_recursion_iff e 1e-9).2 hdeep

end FormulaCalculus
