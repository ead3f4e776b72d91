import FormulaCalculus.Print.Infix

/-!
# Outlines

A tree as one line per node, indented by its level. Empty slots below an operator show as `nil`,
the left slot of a function among them.
-/

namespace FormulaCalculus.Tree

def outlineLines (s : Style) (indent : String) : Tree Float → List String
  | binary c l r =>
    (indent ++ c.symbol)
      :: (l.outlineLines s (indent ++ "   ") ++ r.outlineLines s (indent ++ "   "))
  | call c x => (indent ++ c.symbol) :: (indent ++ "   nil") :: x.outlineLines s (indent ++ "   ")
  | missing => [indent ++ "nil"]
  | t => [indent ++ t.label s]

def outline (s : Style) (t : Tree Float) : String :=
  "\n".intercalate (t.outlineLines s "")

def checkOutline : Tree Float → Except Fault Unit
  | binary c l r => do
    c.checkSymbol
    l.checkOutline
    r.checkOutline
  | call c x => do
    c.checkSymbol
    x.checkOutline
  | foreign .. => .error .absentChild
  | _ => .ok ()

def outline? (s : Style) (t : Tree Float) : Except Fault String := do
  if t.isTooDeep then .error .recursion
  t.checkOutline
  return t.outline s

end FormulaCalculus.Tree
