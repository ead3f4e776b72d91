import FormulaCalculus.Equation
import FormulaCalculus.Tree.Traversal

/-!
# Derivatives

One rule for each operator. A rule copies every operand that its result mentions, so a derivative
consists of nodes that were built by the checked constructors.
-/

namespace FormulaCalculus

variable {α : Type} [Scalar α]

namespace Tree

def square (t : Tree α) : Tree α :=
  pow t (int 2)

def negate (t : Tree α) : Tree α :=
  mul (int (-1)) t

/-- The derivative of `node`, whose operator is `op` with the operands `l` and `r`; `dl` and `dr`
are the operands' derivatives. A function has its argument in `r`. -/
def differentiateWith (op : Op) (target : Int) (node l r : Tree α)
    (dl dr : Except Fault (Tree α)) : Except Fault (Tree α) :=
  match op with
  | .add => return add (← dl) (← dr)
  | .sub => return sub (← dl) (← dr)
  | .mul => return add (mul (← dl) (← r.copy?)) (mul (← l.copy?) (← dr))
  | .div => do
    let numerator := sub (mul (← dl) (← r.copy?)) (mul (← l.copy?) (← dr))
    return div numerator (square (← r.copy?))
  | .pow =>
    if !r.mentions target then do
      let r ← r.copy?
      let l ← l.copy?
      return mul (mul r (pow l (sub r (int 1)))) (← dl)
    else if !l.mentions target then do
      let node ← node.copy?
      let l ← l.copy?
      return mul (mul node (call (.op .ln) l)) (← dr)
    else do
      let dr ← dr
      let l ← l.copy?
      let r ← r.copy?
      let dl ← dl
      let node ← node.copy?
      return mul node (add (mul dr (call (.op .ln) l)) (div (mul r dl) l))
  | .ln => return div (← dr) (← r.copy?)
  | .sqrt => return div (← dr) (mul (int 2) (← node.copy?))
  | .sin => return mul (call (.op .cos) (← r.copy?)) (← dr)
  | .cos => return mul (negate (call (.op .sin) (← r.copy?))) (← dr)
  | .tg => return div (← dr) (square (call (.op .cos) (← r.copy?)))
  | .ctg => return div (negate (← dr)) (square (call (.op .sin) (← r.copy?)))
  | .arcsin => return div (← dr) (call (.op .sqrt) (sub (int 1) (square (← r.copy?))))
  | .arccos => return div (negate (← dr)) (call (.op .sqrt) (sub (int 1) (square (← r.copy?))))
  | .arctg => return div (← dr) (add (int 1) (square (← r.copy?)))
  | .arcctg => return div (negate (← dr)) (add (int 1) (square (← r.copy?)))

/-- The derivative by the variable with index `target`. -/
def differentiate? (target : Int) : Tree α → Except Fault (Tree α)
  | num _ => .ok (int 0)
  | var i => .ok (int (if (i : Int) = target then 1 else 0))
  | binary c l r =>
    match c.op? with
    | none => .error (.noOperator c)
    | some op =>
      if op.isFunction then .error .absentChild
      else differentiateWith op target (binary c l r) l r
        (l.differentiate? target) (r.differentiate? target)
  | call c x =>
    match c.op? with
    | none => .error (.noOperator c)
    | some op =>
      differentiateWith op target (call c x) missing x
        (.error (.cannot "differentiate" (missing : Tree α).kind)) (x.differentiate? target)
  | t => .error (.cannot "differentiate" t.kind)

/-- The derivative of a tree that is walked without an equation around it. -/
def differentiateBare (t : Tree α) (target : Int) : Except Fault (Tree α) := do
  t.checkDepth
  t.differentiate? target

end Tree

/-- The derivative by one of the variables; an equation without variables has one, index 0. -/
def Equation.differentiate (e : Equation α) (i : Int) : Outcome α (Equation α) := do
  if i < 0 ∨ max e.names.length 1 ≤ i then
    Traced.ofExcept (.error (.noSuchVariable i e.names))
  else if e.root.isTooDeep then Traced.ofExcept (.error (.nestedTooDeeply "differentiate"))
  else
    let root ← Traced.ofExcept (e.root.differentiate? i)
    let before ← Traced.ofExcept e.root.size?
    let after ← Traced.ofExcept root.size?
    Traced.report (.differentiated before e.names[i.toNat]? after)
    return e.withRoot root

end FormulaCalculus
