import FormulaCalculus.Print.Infix

/-!
# LaTeX

Brackets follow the infix rules. A quotient is a fraction, which needs no brackets, and a power's
base is bracketed unless it is a variable or a number that is not negative. A negative number to
the right of an operator is always bracketed.
-/

namespace FormulaCalculus

namespace Latex

def group (text : String) : String :=
  "\x7b" ++ text ++ "\x7d"

def bracket (text : String) : String :=
  "\\left(" ++ text ++ "\\right)"

/-- A name of several characters is set as one word. -/
def name (s : String) : String :=
  let escaped := String.ofList (s.toList.flatMap fun c => if c = '_' then ['\\', '_'] else [c])
  if s.length = 1 then escaped else "\\mathit" ++ group escaped

def function : Op → String
  | .ln => "\\ln"
  | .cos => "\\cos"
  | .sin => "\\sin"
  | .tg => "\\operatorname" ++ group "tg"
  | .ctg => "\\operatorname" ++ group "ctg"
  | .arcsin => "\\arcsin"
  | .arccos => "\\arccos"
  | .arctg => "\\operatorname" ++ group "arctg"
  | .arcctg => "\\operatorname" ++ group "arcctg"
  | _ => ""

/-- A function applied to a printed argument. -/
def apply (op : Op) (argument : String) : String :=
  if op = .sqrt then "\\sqrt" ++ group argument else function op ++ bracket argument

def symbol (op : Op) : String :=
  if op = .mul then "\\cdot" else op.symbol

def isNegative : Tree Float → Bool
  | .num v => v < 0
  | _ => false

def binding : Tree Float → Nat
  | .binary c .. => if c.op? = some .div then Op.leafPrecedence else c.precedence
  | _ => Op.leafPrecedence

def leftOperand (op : Op) (t : Tree Float) (text : String) : String :=
  if binding t < op.precedence then bracket text else text

def rightOperand (op : Op) (t : Tree Float) (text : String) : String :=
  if isNegative t || binding t ≤ op.precedence then bracket text else text

def powerBase (t : Tree Float) (text : String) : String :=
  match t with
  | .var _ => text
  | .num v => if v < 0 then bracket text else text
  | _ => bracket text

/-- An operator between printed operands. -/
def combine (op : Op) (l r : Tree Float) (left right : String) : String :=
  match op with
  | .div => "\\frac" ++ group left ++ group right
  | .pow => powerBase l left ++ "^" ++ group right
  | op => leftOperand op l left ++ " " ++ symbol op ++ " " ++ rightOperand op r right

end Latex

namespace Tree

def latexText (s : Style) : Tree Float → String
  | num v => s.number v
  | var i => Latex.name (s.name i)
  | binary c l r => c.op?.elim "" fun op => Latex.combine op l r (l.latexText s) (r.latexText s)
  | call c x => c.op?.elim "" fun op => Latex.apply op (x.latexText s)
  | foreign .. | missing => ""

def checkLatex : Tree Float → Except Fault Unit
  | num _ | var _ => .ok ()
  | binary c l r => do
    c.checkSymbol
    l.checkLatex
    r.checkLatex
  | call c x => do
    x.checkLatex
    if c.isFunction then .ok () else .error (.noSymbol c)
  | foreign .. | missing => .error .absentChild

def latex? (s : Style) (t : Tree Float) : Except Fault String := do
  if t.isTooDeep then .error .recursion
  t.checkLatex
  return t.latexText s

end Tree

namespace Latex

def environment (name body : String) : String :=
  "\\begin" ++ group name ++ "\n" ++ body ++ "\n\\end" ++ group name ++ "\n"

def equation (body : String) : String :=
  environment "equation" body

/-- An article around printed fragments; an empty title is none. -/
def document (title : String) (bodies : List String) : String :=
  let titled := fun lines : List String => if title.isEmpty then [] else lines
  let lines :=
    ["\\documentclass[a4paper,12pt]" ++ group "article",
      "\\usepackage[utf8]" ++ group "inputenc",
      "\\usepackage" ++ group "amsmath"]
    ++ titled ["\\title" ++ group title]
    ++ ["\\begin" ++ group "document"]
    ++ titled ["\\maketitle"]
    ++ bodies
    ++ ["\\end" ++ group "document"]
  "\n".intercalate lines ++ "\n"

end Latex

end FormulaCalculus
