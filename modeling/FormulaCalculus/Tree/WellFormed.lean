import FormulaCalculus.Tree.Traversal

/-!
# Well-formed trees

A tree is well-formed when every operator sits at a node of its arity and no child is missing or of
an unknown kind. `validate` decides this with a worklist, and checks the variables on the way.
-/

namespace FormulaCalculus.Tree

variable {α : Type}

def WellFormed : Tree α → Prop
  | num _ => True
  | var _ => True
  | binary c l r => c.isBinary ∧ l.WellFormed ∧ r.WellFormed
  | call c x => c.isFunction ∧ x.WellFormed
  | foreign .. => False
  | missing => False

instance decidableWellFormed : (t : Tree α) → Decidable t.WellFormed
  | num _ => inferInstanceAs (Decidable True)
  | var _ => inferInstanceAs (Decidable True)
  | binary _ l r =>
    have := decidableWellFormed l
    have := decidableWellFormed r
    inferInstanceAs (Decidable (_ ∧ _ ∧ _))
  | call _ x =>
    have := decidableWellFormed x
    inferInstanceAs (Decidable (_ ∧ _))
  | foreign .. => inferInstanceAs (Decidable False)
  | missing => inferInstanceAs (Decidable False)

/-- Checks the trees on the worklist from its head, each right operand before the left one. Where
the number of variables is given, no index may reach it. -/
def validateAll (count : Option Int) : List (Tree α) → Except Fault Unit
  | [] => .ok ()
  | num _ :: rest => validateAll count rest
  | var i :: rest =>
    match count with
    | some n =>
      if n ≤ (i : Int) then .error (.indexOutsideTable i n) else validateAll count rest
    | none => validateAll count rest
  | binary c l r :: rest =>
    if !c.isBinary then .error (.binaryCarries c)
    else if l.isMissing || r.isMissing then .error .operandMissing
    else validateAll count (r :: l :: rest)
  | call c x :: rest =>
    if !c.isFunction then .error (.functionCarries c)
    else if x.isMissing then .error .argumentMissing
    else validateAll count (x :: rest)
  | t :: _ => .error (.unknownKind t.kind)
termination_by rest => totalSize rest
decreasing_by all_goals simp only [totalSize, size]; omega

def validate (t : Tree α) (count : Option Int) : Except Fault Unit :=
  validateAll count [t]

end FormulaCalculus.Tree
