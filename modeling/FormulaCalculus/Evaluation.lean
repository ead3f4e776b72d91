import FormulaCalculus.Equation

/-!
# Evaluation at a point

Operands are evaluated from the left, and only then is the operator looked up. A function sees the
absent number as its left operand.
-/

namespace FormulaCalculus

variable {α : Type} [Scalar α]

/-- The value of the operator that a slot holds. -/
def Code.apply (c : Code) (x y : α) : Except Fault α :=
  match c.op? with
  | none => .error (.noOperator c)
  | some o => (o.apply x y).mapError .domain

def Tree.evaluate (values : List α) : Tree α → Except Fault α
  | num v => .ok v
  | var i => match values[i]? with
    | some v => .ok v
    | none => .error .outOfRange
  | binary c l r => do
    let x ← l.evaluate values
    let y ← r.evaluate values
    c.apply x y
  | call c x => do
    let y ← x.evaluate values
    c.apply Scalar.absent y
  | t => .error (.cannot "evaluate" t.kind)

/-- The value of a tree that is walked without an equation around it. -/
def Tree.evaluateBare (t : Tree α) (values : List α) : Except Fault α := do
  t.checkDepth
  t.evaluate values

/-- The value at a point, which gives one number for each variable of the table or more. -/
def Equation.evaluate (e : Equation α) (values : List α) : Except Fault α :=
  if values.length < e.names.length then .error (.tooFewValues e.names values.length)
  else if e.root.isTooDeep then .error (.nestedTooDeeply "evaluate")
  else e.root.evaluate values

end FormulaCalculus
