import FormulaCalculus.Traced
import FormulaCalculus.Tree.Basic

/-!
# Equations

A tree together with the table of the variable names that its indices refer to, and the events that
operations on equations report.
-/

namespace FormulaCalculus

structure Equation (α : Type) where
  root : Tree α
  names : List String
  names_nodup : names.Nodup

namespace Equation

variable {α : Type}

def ofTree? (root : Tree α) (names : List String) : Except Fault (Equation α) :=
  if h : names.Nodup then .ok ⟨root, names, h⟩ else .error .duplicateNames

/-- The same table over another tree. -/
def withRoot (e : Equation α) (root : Tree α) : Equation α :=
  { e with root }

@[simp] theorem root_withRoot (e : Equation α) (root : Tree α) : (e.withRoot root).root = root :=
  rfl

def copy? (e : Equation α) : Except Fault (Equation α) := do
  e.root.checkDepth
  return e.withRoot (← e.root.copy?)

/-- The place of a name in the table. -/
def indexOf? (e : Equation α) (name : String) : Except Fault Nat :=
  match e.names.idxOf? name with
  | some i => .ok i
  | none => .error (.noVariable name)

/-- The name at a place in the table; negative places count from its end. -/
def name? (e : Equation α) (i : Int) : Except Fault String :=
  match e.names[(if i < 0 then i + e.names.length else i).toNat]? with
  | some name => if i + e.names.length < 0 then .error .outOfRange else .ok name
  | none => .error .outOfRange

/-- The name that a variable is shown by, `X` and its index where the table ends. -/
def shownName (names : List String) (i : Nat) : String :=
  names[i]?.getD ("X" ++ toString i)

/-- The same names and equal trees. -/
def same [Scalar α] (a b : Equation α) : Bool :=
  a.names == b.names && a.root.same b.root

/-- Whether equations are equal; trees over different names are not compared. -/
def same? [Scalar α] (a b : Equation α) : Except Fault Bool :=
  if a.names ≠ b.names then .ok false else a.root.same? b.root

end Equation

/-- What operations on equations over `α` report. -/
inductive Event (α : Type) where
  | parsed (size : Nat) (names : List String)
  | parsedTree (equation : Equation α)
  | differentiated (before : Nat) (name : Option String) (after : Nat)
  | simplified (before after replaced : Nat)
  | settled (passes : Nat)
  | unsettled (passes : Count)
  | constantExpansion
  | coefficient (order : Nat) (point value : α)

abbrev Outcome (α β : Type) :=
  Traced (Event α) Fault β

end FormulaCalculus
