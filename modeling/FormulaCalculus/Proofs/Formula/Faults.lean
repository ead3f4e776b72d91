import FormulaCalculus.Proofs.Equation.Outcomes
import FormulaCalculus.Proofs.Formula.Steps

/-!
# Faults of reading

A reader objects to a formula at a position. While the stack has room for as many brackets as the
limit allows, that is all it does; the equation it builds may still be too deep to be measured.
-/

namespace FormulaCalculus

/-- A formula cannot be read. -/
def Fault.IsFormula (fault : Fault) : Prop :=
  ∃ f position, fault = .formula f position

namespace Formula

section Steps

variable {limit : Count} {names : List String} {s : State} {t : Token} {fault : Fault}

theorem isFormula_of_scanFrom {read : List Token} {position : Nat} {cs : List Char}
    (h : Token.scanFrom read position cs = .error fault) : fault.IsFormula := by
  fun_induction Token.scanFrom read position cs with
  | case1 => cases h
  | case2 read position c cs _ => exact ⟨_, _, (Except.error.inj h).symm⟩
  | case3 read position c cs n _ ih => exact ih h
  | case4 read position c cs l n _ ih => exact ih h

/-- The stack is exhausted only if the limit lets more brackets be open than it has room for. -/
theorem Fails.recursion_or_isFormula (h : Fails limit names s t fault) :
    fault = .recursion ∧ Tree.maxDepth < limit.value ∨ fault.IsFormula := by
  cases h with
  | exhausted _ hl hm => exact .inl ⟨rfl, by omega⟩
  | refused | due | pending | held => exact .inr ⟨_, _, rfl⟩

theorem recursion_or_isFormula_of_steps {ts : List Token}
    (h : ts.foldlM (State.step limit names) s = .error fault) :
    fault = .recursion ∧ Tree.maxDepth < limit.value ∨ fault.IsFormula := by
  obtain ⟨_, _, _, _, -, -, hfail⟩ := exists_of_foldlM_eq_error h
  exact hfail.recursion_or_isFormula

variable (hlimit : limit.value ≤ Tree.maxDepth)
include hlimit

theorem isFormula_of_readTokens {ts : List Token}
    (h : readTokens limit names ts = .error fault) : fault.IsFormula := by
  unfold readTokens at h
  split at h
  · exact ⟨_, _, (Except.error.inj h).symm⟩
  · cases hs : ts.foldlM (State.step limit names) {} with
    | error f =>
      rw [hs] at h
      cases h
      exact (recursion_or_isFormula_of_steps hs).resolve_left fun hf => by omega
    | ok s =>
      rw [hs] at h
      simp only [bind, Except.bind] at h
      split at h
      · cases h
      · exact ⟨_, _, (Except.error.inj h).symm⟩

theorem isFormula_of_read? {formula : String} (h : read? limit formula = .error fault) :
    fault.IsFormula := by
  unfold read? at h
  cases hs : Token.scan formula with
  | error f =>
    rw [hs] at h
    cases h
    exact isFormula_of_scanFrom hs
  | ok ts =>
    rw [hs] at h
    simp only [bind, Except.bind] at h
    split at h
    · rename_i f hr
      cases h
      exact isFormula_of_readTokens hlimit hr
    · cases h

omit hlimit in
theorem read?_of_scan {formula : String} {tokens : List Token}
    (hscan : Token.scan formula = .ok tokens) :
    read? limit formula = (readTokens limit (variableNames tokens) tokens).map fun root =>
      ⟨root, variableNames tokens, nodup_eraseDups _⟩ := by
  unfold read?
  rw [hscan]
  simp only [bind, Except.bind]
  cases readTokens limit (variableNames tokens) tokens <;> rfl

omit hlimit in
theorem outcome_parse_of_read?_error {formula : String} (h : read? limit formula = .error fault) :
    (parse limit (some formula)).outcome = .error fault := by
  simp only [parse, Traced.outcome_bind, Traced.outcome_ofExcept, h]
  rfl

omit hlimit in
theorem outcome_parse_of_scan_error {formula : String} (h : Token.scan formula = .error fault) :
    (parse limit (some formula)).outcome = .error fault := by
  refine outcome_parse_of_read?_error ?_
  unfold read?
  rw [h]
  rfl

omit hlimit in
/-- What the tokens are read as is reported unless it is too deep to be measured. -/
theorem outcome_parse_of_scan {formula : String} {tokens : List Token}
    (hscan : Token.scan formula = .ok tokens) : (parse limit (some formula)).outcome = (do
      let root ← readTokens limit (variableNames tokens) tokens
      if root.isTooDeep then .error .recursion
      else .ok ⟨root, variableNames tokens, nodup_eraseDups _⟩) := by
  cases hr : readTokens limit (variableNames tokens) tokens with
  | error f =>
    rw [outcome_parse hscan, hr]
    rfl
  | ok root =>
    obtain ⟨ts, last, rfl, hts⟩ := scan_eq_ok hscan
    obtain ⟨p, -, -, -, hroot⟩ := derives_of_readTokens hts hr
    exact outcome_parse_of_readTokens (e := ⟨root, _, nodup_eraseDups _⟩) hscan hr rfl
      (hroot ▸ isComplete_tree p)

omit hlimit in
/-- An equation that was read is reported unless it is too deep to be measured. -/
theorem outcome_parse_of_read? {formula : String} {e : Equation Float}
    (h : read? limit formula = .ok e) :
    (parse limit (some formula)).outcome =
      if e.root.isTooDeep then .error .recursion else .ok e := by
  cases hscan : Token.scan formula with
  | error f =>
    unfold read? at h
    rw [hscan] at h
    cases h
  | ok tokens =>
    rw [read?_of_scan hscan] at h
    rw [outcome_parse_of_scan hscan]
    cases hr : readTokens limit (variableNames tokens) tokens with
    | error f => rw [hr] at h; cases h
    | ok root =>
      rw [hr] at h
      cases h
      rfl

theorem ensures_parse (formula : String) :
    Ensures (fun e => e.Walkable ∧ read? limit formula = .ok e)
      (fun fault => fault.IsFormula ∨
        fault = .recursion ∧ ∃ e, read? limit formula = .ok e ∧ e.root.isTooDeep)
      (parse limit (some formula)).outcome := by
  cases hread : read? limit formula with
  | error fault =>
    rw [outcome_parse_of_read?_error hread]
    exact .error (.inl (isFormula_of_read? hlimit hread))
  | ok e =>
    have hparse := outcome_parse_of_read? hread
    rw [hparse]
    split at hparse
    · rename_i hdeep
      rw [if_pos hdeep]
      exact .error (.inr ⟨rfl, e, rfl, hdeep⟩)
    · rename_i hdeep
      rw [if_neg hdeep]
      exact .ok ⟨walkable_of_parse hparse, rfl⟩

end Steps

end Formula

end FormulaCalculus
