import FormulaCalculus.Decimal.Reader
import FormulaCalculus.Equation
import FormulaCalculus.Tree.WellFormed

/-!
# Evaluation of many points

A column of doubles per node, one entry for each point. An entry outside the domain of an operator
is NaN, and so is every entry under a code that is no operator of that arity.
-/

namespace FormulaCalculus

variable [Elementary]

/-- Points as they are given: one column of numbers, one row for each point, or neither. -/
inductive Samples
  | column (values : List Float)
  | rows (points : List (List Float))
  | other

namespace Batch

def nan : Float := 0 / 0

/-- A code applied to two columns. -/
def binaryColumn (op? : Option Op) (xs ys : List Float) : List Float :=
  match op?.filter Op.isBinary with
  | some op => List.zipWith op.applyTotal xs ys
  | none => List.zipWith (fun _ _ => nan) xs ys

/-- A code applied to the arguments of a function. -/
def callColumn (op? : Option Op) (xs : List Float) : List Float :=
  match op?.filter Op.isFunction with
  | some op => xs.map (op.applyTotal nan)
  | none => xs.map fun _ => nan

def constantColumn (count : Nat) (value : Float) : List Float :=
  List.replicate count value

def variableColumn (points : List (List Float)) (i : Nat) : Except Fault (List Float) :=
  points.mapM fun point => match point[i]? with
    | some v => .ok v
    | none => .error .outOfRange

/-- A column by its place; negative places count from the end of each row. -/
def columnAt (points : List (List Float)) (i : Int) : Except Fault (List Float) :=
  points.mapM fun point =>
    let place := if i < 0 then i + point.length else i
    match if place < 0 then none else point[place.toNat]? with
    | some v => .ok v
    | none => .error .outOfRange

/-- The number of an operator; a text in its slot is read as a number. -/
def number? : Code → Except Fault Int
  | .op op => .ok op.number
  | .number n => .ok n
  | .word s => match Decimal.readInt? s with
    | some n => .ok n
    | none => .error (.notAnInteger s)
  | .other kind _ => .error (.noNumber kind)

end Batch

open Batch

namespace Tree

def evaluateAll (points : List (List Float)) : Tree Float → Except Fault (List Float)
  | num v => .ok (constantColumn points.length v)
  | var i => variableColumn points i
  | binary c l r => do
    let xs ← l.evaluateAll points
    let ys ← r.evaluateAll points
    return binaryColumn (Op.ofNumber? (← number? c)) xs ys
  | call c x => do
    let xs ← x.evaluateAll points
    return callColumn (Op.ofNumber? (← number? c)) xs
  | _ => .error .absentChild

end Tree

namespace Samples

/-- Rows, if they agree in their length. -/
def regular? (points : List (List Float)) : Except Fault (List (List Float)) :=
  if points.all (·.length = (points.headD []).length) then .ok points
  else .error (.ragged points.length)

/-- The points with their number of coordinates; a column holds points of one coordinate. -/
def matrix? : Samples → Except Fault (List (List Float) × Nat)
  | column xs => .ok (xs.map ([·]), 1)
  | rows [] => .ok ([], 1)
  | rows (p :: ps) => return (← regular? (p :: ps), p.length)
  | other => .error .notAMatrix

/-- The points as they are given; those of a column have no coordinates. -/
def points? : Samples → Except Fault (List (List Float))
  | column xs => .ok (xs.map fun _ => [])
  | rows ps => regular? ps
  | other => .error .outOfRange

end Samples

def Equation.evaluateAll (e : Equation Float) (samples : Samples) : Except Fault (List Float) := do
  let (points, columns) ← samples.matrix?
  if columns < e.names.length then .error (.tooFewColumns e.names.length columns)
  else if e.root.isTooDeep then .error (.nestedTooDeeply "evaluate_batch")
  else e.root.evaluateAll points

/-- Whether a tree is well-formed and finite at all samples, if any are given. -/
def Tree.isValid (t : Tree Float) (count : Option Int) (samples : Option Samples) :
    Except Fault Bool :=
  match t.validate count, samples with
  | .error _, _ => .ok false
  | .ok (), none => .ok true
  | .ok (), some s => do
    let points ← s.points?
    t.checkDepth
    return (← t.evaluateAll points).all Float.isFinite

end FormulaCalculus
