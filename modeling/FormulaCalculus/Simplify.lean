import FormulaCalculus.Evaluation

/-!
# Simplification

One pass goes through the tree from the leaves up. A node whose operands are numbers becomes its
value; any other node is replaced as its operator's identities say. What an identity builds is not
looked at again in the same pass; passes are repeated until one replaces nothing.

A pass works on the tree in place: the slots below a node are filled with the results for its
children before the node itself is replaced. So a pass that fails leaves the tree with some
descendants replaced, and that tree is part of the result.
-/

namespace FormulaCalculus

variable {α : Type} [Scalar α]

namespace Tree

open Scalar

/-! ### Identities -/

/-- A number within `ε` of `c`; the tolerance 0 asks for equality. -/
def isNear (ε : α) (t : Tree α) (c : Int) : Bool :=
  match t with
  | num v => if eq ε (ofInt 0) then eq v (ofInt c) else lt (abs (Scalar.sub v (ofInt c))) ε
  | _ => false

def isExactly (t : Tree α) (c : Int) : Bool :=
  match t with
  | num v => eq v (ofInt c)
  | _ => false

def sameVariable : Tree α → Tree α → Bool
  | var i, var j => i == j
  | _, _ => false

/-- What the identities put in the place of an operator with the operands `l` and `r`, if anything.
A power is replaced for exact operands only. -/
def identity? (ε : α) (op : Op) (l r : Tree α) : Except DomainFault (Option (Tree α)) :=
  match op with
  | .add =>
    if isNear ε l 0 then .ok (some r)
    else if isNear ε r 0 then .ok (some l)
    else if sameVariable l r then .ok (some (mul (int 2) l))
    else .ok none
  | .sub =>
    if isNear ε l 0 then .ok (some (mul (int (-1)) r))
    else if isNear ε r 0 then .ok (some l)
    else if sameVariable l r then .ok (some (int 0))
    else .ok none
  | .mul =>
    if isNear ε l 0 || isNear ε r 0 then .ok (some (int 0))
    else if isNear ε l 1 then .ok (some r)
    else if isNear ε r 1 then .ok (some l)
    else if sameVariable l r then .ok (some (pow l (int 2)))
    else .ok none
  | .div =>
    if isNear ε r 0 then .error .divisionByZero
    else if isNear ε l 0 then .ok (some (int 0))
    else if isNear ε r 1 then .ok (some l)
    else if sameVariable l r then .ok (some (int 1))
    else .ok none
  | .pow =>
    if isExactly r 1 then .ok (some l)
    else if isExactly l 1 then .ok (some (int 1))
    else if isExactly l 0 then .ok (some (int 0))
    else .ok none
  | _ => .ok none

/-! ### A pass -/

/-- The result of a pass over a tree. -/
structure Pass (α : Type) where
  /-- The tree with the slots below its root filled anew. -/
  argument : Tree α
  /-- How many nodes were replaced, the root included. -/
  replaced : Nat
  /-- What replaces the tree; nothing if it stays. -/
  outcome : Except Fault (Option (Tree α))

/-- What the slot of the tree holds afterwards. -/
def Pass.tree (p : Pass α) : Tree α :=
  match p.outcome with
  | .ok (some t) => t
  | _ => p.argument

def Pass.keep (t : Tree α) : Pass α :=
  ⟨t, 0, .ok none⟩

/-- The replacement of a node whose children are simplified: its value if its operands are numbers,
and else what an identity says. A function has an empty left slot. -/
def replace? (ε : α) (c : Code) (l r : Tree α) : Except Fault (Option (Tree α)) :=
  match c.op? with
  | none => .error (.noOperator c)
  | some op =>
    match l, r with
    | num x, num y => (fun v => some (num v)) <$> (op.apply x y).mapError .domain
    | missing, num y => (fun v => some (num v)) <$> (op.apply absent y).mapError .domain
    | l, r => (identity? ε op l r).mapError .domain

/-- The pass over `node` after `replaced` nodes below it. -/
def finish (node : Tree α) (replaced : Nat) (outcome : Except Fault (Option (Tree α))) :
    Pass α :=
  match outcome with
  | .ok (some t) => ⟨node, replaced + 1, .ok (some t)⟩
  | outcome => ⟨node, replaced, outcome⟩

def simplifyPass (ε : α) : Tree α → Pass α
  | num v => .keep (num v)
  | var i => .keep (var i)
  | binary c l r =>
    let p := simplifyPass ε l
    match p.outcome with
    | .error fault => ⟨binary c p.argument r, p.replaced, .error fault⟩
    | .ok _ =>
      let q := simplifyPass ε r
      match q.outcome with
      | .error fault => ⟨binary c p.tree q.argument, p.replaced + q.replaced, .error fault⟩
      | .ok _ =>
        finish (binary c p.tree q.tree) (p.replaced + q.replaced) (replace? ε c p.tree q.tree)
  | call c x =>
    let p := simplifyPass ε x
    match p.outcome with
    | .error fault => ⟨call c p.argument, p.replaced, .error fault⟩
    | .ok _ => finish (call c p.tree) p.replaced (replace? ε c missing p.tree)
  | t => ⟨t, 0, .error (.cannot "simplify" t.kind)⟩

/-- A pass over a tree that is not too deep to walk. -/
def simplify? (ε : α) (t : Tree α) : Except Fault (Pass α) :=
  if t.isTooDeep then .error (.nestedTooDeeply "simplify") else .ok (t.simplifyPass ε)

end Tree

/-! ### Equations -/

/-- An operation that changes an equation in place: the equation as it leaves it, and the result. -/
structure Rework (α β : Type) where
  equation : Equation α
  result : Outcome α β

namespace Equation

/-- One pass, with the number of nodes it replaced. -/
def runPass (e : Equation α) (ε : α) : Equation α × Except Fault Nat :=
  match e.root.simplify? ε with
  | .error fault => (e, .error fault)
  | .ok p => (e.withRoot p.tree, p.outcome.map fun _ => p.replaced)

/-- A single pass. -/
def simplify (e : Equation α) (ε : α) : Rework α Unit :=
  match e.root.size? with
  | .error fault => ⟨e, .ofExcept (.error fault)⟩
  | .ok before =>
    match e.runPass ε with
    | (e, .error fault) => ⟨e, .ofExcept (.error fault)⟩
    | (e, .ok replaced) =>
      ⟨e, do
        let after ← .ofExcept e.root.size?
        .report (.simplified before after replaced)⟩

/-- Passes until one replaces nothing, at most `limit` of them; `passed` came before. -/
def repeatPasses (ε : α) (limit : Count) : (fuel passed : Nat) → Equation α → Rework α Count
  | 0, _, e => ⟨e, do
      .report (.unsettled limit)
      return limit⟩
  | fuel + 1, passed, e =>
    match e.runPass ε with
    | (e, .error fault) => ⟨e, .ofExcept (.error fault)⟩
    | (e, .ok 0) => ⟨e, do
        .report (.settled (passed + 1))
        return .number (passed + 1)⟩
    | (e, .ok _) => repeatPasses ε limit fuel (passed + 1) e

/-- Passes up to a fixed point; the result counts them, the last one included. -/
def simplifyFully (e : Equation α) (ε : α) (limit : Count) : Rework α Count :=
  if limit.value ≤ 0 then ⟨e, .ofExcept (.error .badPassLimit)⟩
  else repeatPasses ε limit limit.value.toNat 0 e

end Equation

end FormulaCalculus
