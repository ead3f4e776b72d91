import FormulaCalculus.Fault
import FormulaCalculus.Tolerance

/-!
# Settings

Tolerance, limits and precision, with a check of every field. `Settings.update?` refuses a change
as a whole; the fields are checked in a fixed order, so one fault is reported of several.
-/

namespace FormulaCalculus

structure Settings where
  /-- How near to 0 or 1 a number must be for an identity to apply. -/
  tolerance : Tolerance := .double 1e-9
  maxNestingDepth : Count := 100
  maxSimplifyPasses : Count := 32
  /-- Digits after the point in printed formulas; none keeps them all. -/
  numberPrecision : Option Count := none
  deriving Repr

/-- A value given for a field, of the right kind or not. -/
inductive Given
  | nothing
  | truth (b : Bool)
  | whole (n : Int)
  | double (x : Float)
  | other
  deriving Repr

namespace Given

def tolerance? : Given → Option Tolerance
  | truth b => some (.whole (if b then 1 else 0))
  | whole n => some (.whole n)
  | double x => some (.double x)
  | _ => none

/-- The value as a count that is at least `least`. -/
def count? (least : Int) (g : Given) : Option Count :=
  let c? := match g with
    | truth b => some (Count.truth b)
    | whole n => some (Count.number n)
    | _ => none
  c?.filter (least ≤ ·.value)

end Given

namespace Settings

/-- The tolerance that the simplifier uses. -/
def epsilon (s : Settings) : Float :=
  s.tolerance.bound

/-- The precision that printers use. -/
def precision (s : Settings) : Option Nat :=
  s.numberPrecision.map (·.value.toNat)

def fieldNames : List String :=
  ["epsilon", "max_nesting_depth", "max_simplify_passes", "number_precision"]

/-- The last value given for a field. -/
def given? (fields : List (String × Given)) (name : String) : Option Given :=
  (fields.reverse.find? (·.1 = name)).map (·.2)

def updateEpsilon? (s : Settings) : Option Given → Except Fault Settings
  | none => .ok s
  | some g => match g.tolerance? with
    | none => .error .epsilonNotNumeric
    | some t => if t.isNegative then .error .negativeEpsilon else .ok { s with tolerance := t }

def updateNestingDepth? (s : Settings) : Option Given → Except Fault Settings
  | none => .ok s
  | some g => match g.count? 1 with
    | none => .error .badNestingDepth
    | some c => .ok { s with maxNestingDepth := c }

def updateSimplifyPasses? (s : Settings) : Option Given → Except Fault Settings
  | none => .ok s
  | some g => match g.count? 1 with
    | none => .error .badSimplifyPasses
    | some c => .ok { s with maxSimplifyPasses := c }

def updateNumberPrecision? (s : Settings) : Option Given → Except Fault Settings
  | none => .ok s
  | some .nothing => .ok { s with numberPrecision := none }
  | some g => match g.count? 0 with
    | none => .error .badNumberPrecision
    | some c => .ok { s with numberPrecision := some c }

/-- The settings with new values for some fields, if each of them is known and valid. -/
def update? (s : Settings) (fields : List (String × Given)) : Except Fault Settings := do
  if let some (name, _) := fields.find? fun f => !fieldNames.contains f.1 then
    throw (.unknownSetting name)
  let s ← s.updateEpsilon? (given? fields "epsilon")
  let s ← s.updateNestingDepth? (given? fields "max_nesting_depth")
  let s ← s.updateSimplifyPasses? (given? fields "max_simplify_passes")
  s.updateNumberPrecision? (given? fields "number_precision")

end Settings

end FormulaCalculus
