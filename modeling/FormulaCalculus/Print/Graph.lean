import FormulaCalculus.Print.Infix

/-!
# Graphs

A tree as a list of vertices in preorder, each numbered by its place in the list, and as a Graphviz
description.
-/

namespace FormulaCalculus.Graph

structure Vertex where
  id : Nat
  kind : Nat
  label : String
  children : List Nat
  deriving DecidableEq, Repr

def Vertex.isLeaf (v : Vertex) : Bool :=
  v.children.isEmpty

/-- The vertices of a tree whose root gets the number `id`. -/
def verticesFrom (s : Style) (id : Nat) : Tree Float → List Vertex
  | .binary c l r =>
    let ls := verticesFrom s (id + 1) l
    let rs := verticesFrom s (id + 1 + ls.length) r
    ⟨id, 2, c.symbol, [id + 1, id + 1 + ls.length]⟩ :: (ls ++ rs)
  | .call c x => ⟨id, 3, c.symbol, [id + 1]⟩ :: verticesFrom s (id + 1) x
  | t => [⟨id, t.kindNumber, t.label s, []⟩]

def vertices (s : Style) (t : Tree Float) : List Vertex :=
  verticesFrom s 0 t

def edges (vs : List Vertex) : List (Nat × Nat) :=
  vs.flatMap fun v => v.children.map (v.id, ·)

def vertices? (s : Style) (t : Tree Float) : Except Fault (List Vertex) := do
  if t.isTooDeep then .error .recursion
  t.checkMinimal
  return vertices s t

/-! ### Graphviz -/

def escape (label : String) : String :=
  String.ofList (label.toList.flatMap fun c => if c = '\\' ∨ c = '"' then ['\\', c] else [c])

def vertexLine (v : Vertex) : String :=
  let style :=
    if v.isLeaf then "shape=box, style=filled, fillcolor=\"#d5e8d4\""
    else "shape=ellipse, style=filled, fillcolor=\"#dae8fc\""
  "    n" ++ toString v.id ++ " [label=\"" ++ escape v.label ++ "\", " ++ style ++ "];"

def edgeLine (e : Nat × Nat) : String :=
  "    n" ++ toString e.1 ++ " -> n" ++ toString e.2 ++ ";"

/-- Leaves are boxes and operators are ellipses. -/
def dot (name : String) (vs : List Vertex) : String :=
  let lines := ["digraph " ++ name ++ " \x7b", "    rankdir=TB;"]
    ++ vs.map vertexLine ++ (edges vs).map edgeLine ++ ["\x7d"]
  "\n".intercalate lines ++ "\n"

end FormulaCalculus.Graph
