import FormulaCalculus.Text.Quoted

/-!
# Operators

The five arithmetic operators and the ten functions, numbered from 0, and what the operator slot
of a node may hold.
-/

namespace FormulaCalculus

inductive Op
  | add | sub | mul | div | pow
  | ln | sqrt | cos | sin | tg | ctg | arcsin | arccos | arctg | arcctg
  deriving DecidableEq, Repr

namespace Op

def all : List Op :=
  [add, sub, mul, div, pow, ln, sqrt, cos, sin, tg, ctg, arcsin, arccos, arctg, arcctg]

def number (op : Op) : Nat :=
  op.ctorIdx

/-- The spelling in formulas. -/
def symbol : Op → String
  | add => "+"
  | sub => "-"
  | mul => "*"
  | div => "/"
  | pow => "^"
  | ln => "ln"
  | sqrt => "sqrt"
  | cos => "cos"
  | sin => "sin"
  | tg => "tg"
  | ctg => "ctg"
  | arcsin => "arcsin"
  | arccos => "arccos"
  | arctg => "arctg"
  | arcctg => "arcctg"

/-- The name in messages and listings. -/
def title : Op → String
  | add => "ADD"
  | sub => "SUB"
  | mul => "MUL"
  | div => "DIV"
  | pow => "POW"
  | op => op.symbol.toUpper

def isBinary : Op → Bool
  | add | sub | mul | div | pow => true
  | _ => false

def isFunction (op : Op) : Bool :=
  !op.isBinary

def arity (op : Op) : Nat :=
  if op.isBinary then 2 else 1

/-- How tightly an operator binds when it is printed. -/
def precedence : Op → Nat
  | add | sub => 1
  | mul | div => 2
  | _ => 3

/-- Numbers, variables and function calls bind tighter than any operator. -/
def leafPrecedence : Nat := 4

def ofNumber? (n : Int) : Option Op :=
  all.find? fun op => (op.number : Int) = n

def ofSymbol? (s : String) : Option Op :=
  all.find? (·.symbol = s)

/-- The function of that name. -/
def function? (name : String) : Option Op :=
  (ofSymbol? name).filter isFunction

theorem ofNumber?_number (op : Op) : ofNumber? op.number = some op := by
  cases op <;> rfl

theorem ofSymbol?_symbol (op : Op) : ofSymbol? op.symbol = some op := by
  cases op <;> decide

end Op

/-- The content of an operator slot. Trees are built with operators; a slot overwritten afterwards
may hold anything, and a number below 15 still stands for its operator. -/
inductive Code
  | op (op : Op)
  | number (n : Int)
  | word (text : String)
  /-- Anything else, by the names of its kind and of itself in messages. -/
  | other (kind text : String)
  deriving DecidableEq, Repr

namespace Code

def op? : Code → Option Op
  | op o => some o
  | number n => Op.ofNumber? n
  | _ => none

/-- The slot's content as messages show it. -/
def text : Code → String
  | op o => "<OpType." ++ o.title ++ ": " ++ toString o.number ++ ">"
  | number n => toString n
  | word s => Text.quote s
  | other _ text => text

/-- The same operator, or the same content where there is none. -/
def same (a b : Code) : Bool :=
  match a.op?, b.op? with
  | some x, some y => x == y
  | none, none => a == b
  | _, _ => false

def isBinary (c : Code) : Bool :=
  c.op?.any Op.isBinary

def isFunction (c : Code) : Bool :=
  c.op?.any Op.isFunction

end Code

end FormulaCalculus
