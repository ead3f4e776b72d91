import FormulaCalculus.Decimal.Notation
import FormulaCalculus.Equation

/-!
# Algebra terms

The terms of a computer algebra system that knows sums, products, powers and functions but neither
differences nor quotients: these are written with the factor -1 and the exponent -1.
-/

namespace FormulaCalculus

inductive AlgebraTerm
  | symbol (name : String)
  | integer (n : Int)
  | float (v : Float)
  | minusOne
  | add (a b : AlgebraTerm)
  | mul (a b : AlgebraTerm)
  | pow (a b : AlgebraTerm)
  | apply (function : Op) (a : AlgebraTerm)
  | derivative (a x : AlgebraTerm)
  deriving Repr

namespace AlgebraTerm

def functionName : Op → String
  | .ln => "log"
  | .tg => "tan"
  | .ctg => "cot"
  | .arcsin => "asin"
  | .arccos => "acos"
  | .arctg => "atan"
  | .arcctg => "acot"
  | op => op.symbol

/-- The term as nested calls of constructors. -/
def text : AlgebraTerm → String
  | symbol name => "Symbol(" ++ name ++ ")"
  | integer n => "Integer(" ++ toString n ++ ")"
  | float v => "Float(" ++ Decimal.generalText v ++ ")"
  | minusOne => "-1"
  | add a b => "Add(" ++ a.text ++ ", " ++ b.text ++ ")"
  | mul a b => "Mul(" ++ a.text ++ ", " ++ b.text ++ ")"
  | pow a b => "Pow(" ++ a.text ++ ", " ++ b.text ++ ")"
  | apply f a => functionName f ++ "(" ++ a.text ++ ")"
  | derivative a b => "diff(" ++ a.text ++ ", " ++ b.text ++ ")"

open Float.Model in
/-- The integer that a double equals. -/
def integer? (x : Float) : Option Int :=
  match x.toModel.unpack with
  | .zero _ => some 0
  | .finite s m q _ =>
    let unit := Nat.pow 2 (-q).toNat
    if m % unit = 0 then some (s.apply (m * Nat.pow 2 q.toNat / unit)) else none
  | _ => none

def ofNumber (v : Float) : AlgebraTerm :=
  match integer? v with
  | some n => integer n
  | none => float v

def ofTree? (names : List String) : Tree Float → Except Fault AlgebraTerm
  | .num v => .ok (ofNumber v)
  | .var i => match names[i]? with
    | some name => .ok (symbol name)
    | none => .error .outOfRange
  | .binary c l r => do
    let a ← ofTree? names l
    let b ← ofTree? names r
    match c.op? with
    | some .add => return add a b
    | some .sub => return add a (mul minusOne b)
    | some .mul => return mul a b
    | some .div => return mul a (pow b minusOne)
    | some .pow => return pow a b
    | _ => .error (.noAlgebra c)
  | .call c x =>
    match c.op?.filter Op.isFunction with
    | some op => return apply op (← ofTree? names x)
    | none => .error (.noSymbol c)
  | .foreign .. | .missing => .error .absentChild

def ofEquation? (e : Equation Float) : Except Fault AlgebraTerm :=
  if e.root.isTooDeep then .error .recursion else ofTree? e.names e.root

/-- The derivative by a variable, left to the algebra system. -/
def derivative? (e : Equation Float) (i : Int) : Except Fault AlgebraTerm := do
  let term ← ofEquation? e
  let name ← e.name? i
  return derivative term (symbol name)

end AlgebraTerm

end FormulaCalculus
