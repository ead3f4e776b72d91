import FormulaCalculus.Decimal.Notation
import FormulaCalculus.Equation

/-!
# Infix text

A formula is printed with every operation in brackets, or with only the brackets that a reader
needs: around a left operand that binds more loosely than its operator, and around a right operand
also when it binds equally, since every operator associates to the left.
-/

namespace FormulaCalculus

/-- How the leaves of a tree are printed. -/
structure Style where
  name : Nat → String
  number : Float → String

/-- A number as formulas show it, to a precision that is checked here. -/
def numberText? (precision : Option Int) (x : Float) : Except Fault String :=
  match precision with
  | none => .ok (Decimal.plainText none x)
  | some p =>
    if p < 0 then .error .negativePrecision else .ok (Decimal.plainText (some p.toNat) x)

/-- Names from a table, and numbers to a precision. -/
def Style.of (names : List String) (precision : Option Nat) : Style where
  name := Equation.shownName names
  number := Decimal.plainText precision

/-- Variables by their index and numbers in full. -/
def Style.bare : Style :=
  .of [] none

namespace Code

/-- The spelling of the operator, empty if there is none. -/
def symbol (c : Code) : String :=
  c.op?.elim "" Op.symbol

def precedence (c : Code) : Nat :=
  c.op?.elim 0 Op.precedence

def checkSymbol (c : Code) : Except Fault Unit :=
  if c.op?.isSome then .ok () else .error (.noSymbol c)

end Code

namespace Tree

/-! ### Every operation in brackets -/

def fullText (s : Style) : Tree Float → String
  | num v => s.number v
  | var i => s.name i
  | binary c l r => "(" ++ l.fullText s ++ " " ++ c.symbol ++ " " ++ r.fullText s ++ ")"
  | call c x => c.symbol ++ "(" ++ x.fullText s ++ ")"
  | foreign _ text => text
  | missing => ""

/-- Finds the first fault in the order in which the full text is put together. -/
def checkFull (foreignPrints : Bool) : Tree Float → Except Fault Unit
  | num _ | var _ => .ok ()
  | binary c l r => do
    l.checkFull foreignPrints
    c.checkSymbol
    r.checkFull foreignPrints
  | call c x => do
    c.checkSymbol
    x.checkFull foreignPrints
  | foreign .. => if foreignPrints then .ok () else .error .absentChild
  | missing => .error .absentChild

def full? (s : Style) (t : Tree Float) : Except Fault String := do
  if t.isTooDeep then .error .recursion
  t.checkFull false
  return t.fullText s

/-- The text of a tree without a table of names; nodes of unknown kinds show their own text. -/
def text? (t : Tree Float) : Except Fault String := do
  if t.isTooDeep then .error .recursion
  t.checkFull true
  return t.fullText .bare

/-- The kind of the root and the text in brackets. -/
def describe? (t : Tree Float) : Except Fault String :=
  return t.kind ++ "(" ++ (← t.text?) ++ ")"

/-! ### Only the brackets that are needed -/

/-- How tightly a tree binds as an operand. -/
def binding : Tree Float → Nat
  | binary c .. => c.precedence
  | _ => Op.leafPrecedence

def bracketIf (p : Bool) (text : String) : String :=
  if p then "(" ++ text ++ ")" else text

def minimalText (s : Style) : Tree Float → String
  | num v => s.number v
  | var i => s.name i
  | binary c l r =>
    bracketIf (l.binding < c.precedence) (l.minimalText s) ++ " " ++ c.symbol ++ " "
      ++ bracketIf (r.binding ≤ c.precedence) (r.minimalText s)
  | call c x => c.symbol ++ "(" ++ x.minimalText s ++ ")"
  | foreign _ text => text
  | missing => ""

def checkMinimal : Tree Float → Except Fault Unit
  | num _ | var _ => .ok ()
  | binary c l r => do
    c.checkSymbol
    l.checkMinimal
    r.checkMinimal
  | call c x => do
    c.checkSymbol
    x.checkMinimal
  | foreign .. | missing => .error .absentChild

def minimal? (s : Style) (t : Tree Float) : Except Fault String := do
  if t.isTooDeep then .error .recursion
  t.checkMinimal
  return t.minimalText s

/-! ### A single node -/

def label (s : Style) : Tree Float → String
  | num v => s.number v
  | var i => s.name i
  | binary c .. => c.symbol
  | call c _ => c.symbol
  | foreign .. | missing => ""

def checkLabel : Tree Float → Except Fault Unit
  | num _ | var _ => .ok ()
  | binary c .. => c.checkSymbol
  | call c _ => c.checkSymbol
  | foreign .. | missing => .error .absentChild

def label? (s : Style) (t : Tree Float) : Except Fault String := do
  t.checkLabel
  return t.label s

end Tree

/-- The equation's text and its table. -/
def Equation.describe? (e : Equation Float) (s : Style) : Except Fault String := do
  let text ← e.root.full? s
  return "Equation(" ++ Text.quote text ++ ", variables=" ++ Text.quoteAll e.names ++ ")"

end FormulaCalculus
