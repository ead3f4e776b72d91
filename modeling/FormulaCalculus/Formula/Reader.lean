import FormulaCalculus.Decimal.Reader
import FormulaCalculus.Equation
import FormulaCalculus.Formula.Token

/-!
# Reading formulas

The operators of the three levels `+ -`, `* /` and `^` all associate to the left. A minus is a sign
where an operand is due and a number follows without a gap. The reader takes one token at a time;
its state holds, for every open bracket, the operands that wait for the rest of their operator.
-/

namespace FormulaCalculus.Formula

/-- Left operands that wait, one at most for each level. -/
structure Waiting where
  sum : Option (Op × Tree Float) := none
  product : Option (Op × Tree Float) := none
  power : Option (Tree Float) := none
  deriving Repr

namespace Waiting

def join : Option (Op × Tree Float) → Tree Float → Tree Float
  | some (op, l), r => .binary (.op op) l r
  | none, r => r

/-- An operand together with the powers that waited for it. -/
def closePower (w : Waiting) (t : Tree Float) : Tree Float :=
  join (w.power.map (Op.pow, ·)) t

def closeProduct (w : Waiting) (t : Tree Float) : Tree Float :=
  join w.product (w.closePower t)

def closeSum (w : Waiting) (t : Tree Float) : Tree Float :=
  join w.sum (w.closeProduct t)

/-- An operator follows the operand `t`. -/
def push (w : Waiting) (op : Op) (t : Tree Float) : Waiting :=
  match op.precedence with
  | 1 => { sum := some (op, w.closeSum t) }
  | 2 => { w with product := some (op, w.closeProduct t), power := none }
  | _ => { w with power := some (w.closePower t) }

end Waiting

/-- An open bracket: what waits outside of it, the function that it belongs to, its position. -/
structure Bracket where
  outside : Waiting
  function : Option Op
  position : Nat
  deriving Repr

inductive Mode
  /-- An operand is due. -/
  | operand
  /-- A minus was read where an operand is due. -/
  | sign (position : Nat)
  /-- A function name was read. -/
  | function (op : Op) (position : Nat)
  /-- A name was read that is no function. -/
  | variable (name : String) (position : Nat)
  /-- An operand is complete. -/
  | operator (t : Tree Float)
  | done (t : Tree Float)
  deriving Repr

structure State where
  brackets : List Bracket := []
  waiting : Waiting := {}
  mode : Mode := .operand
  deriving Repr

namespace State

def open? (limit : Count) (s : State) (function : Option Op) (position : Nat) :
    Except Fault State :=
  let depth := s.brackets.length + 1
  if limit.value < depth then .error (.formula (.nestedTooDeeply limit) position)
  else if Tree.maxDepth < depth then .error .recursion
  else .ok { brackets := ⟨s.waiting, function, position⟩ :: s.brackets }

/-- The state after the operand `t`. -/
def complete (s : State) (t : Tree Float) : State :=
  { s with mode := .operator t }

/-- Where an operand is due. -/
def operand? (limit : Count) (s : State) (t : Token) : Except Fault State :=
  match t.lexeme with
  | .number digits => .ok (s.complete (.num (Decimal.readLiteral digits)))
  | .name letters =>
    let name := String.ofList letters
    match Op.function? name with
    | some op => .ok { s with mode := .function op t.position }
    | none => .ok { s with mode := .variable name t.position }
  | .op .sub => .ok { s with mode := .sign t.position }
  | .opening => s.open? limit none t.position
  | .finish => .error (.formula .missingLastOperand t.position)
  | lexeme => .error (.formula (.missingOperand lexeme.text) t.position)

/-- After the operand `x`. -/
def operator? (s : State) (x : Tree Float) (t : Token) : Except Fault State :=
  match t.lexeme, s.brackets with
  | .op op, _ => .ok { s with waiting := s.waiting.push op x, mode := .operand }
  | .closing, b :: bs =>
    let inside := s.waiting.closeSum x
    let x := match b.function with
      | some op => .call (.op op) inside
      | none => inside
    .ok { brackets := bs, waiting := b.outside, mode := .operator x }
  | .closing, [] => .error (.formula .unmatchedClose t.position)
  | .finish, [] => .ok { s with mode := .done (s.waiting.closeSum x) }
  | _, b :: _ => .error (.formula (.unmatchedOpen b.position) t.position)
  | lexeme, [] => .error (.formula (.trailing lexeme.text) t.position)

/-- Takes a token. `names` numbers the variables. -/
def step (limit : Count) (names : List String) (s : State) (t : Token) : Except Fault State :=
  match s.mode with
  | .operand => s.operand? limit t
  | .sign position =>
    match t.lexeme with
    | .number digits =>
      if t.position = position + 1 then .ok (s.complete (.num (-Decimal.readLiteral digits)))
      else .error (.formula (.missingOperand "-") position)
    | _ => .error (.formula (.missingOperand "-") position)
  | .function op position =>
    if t.lexeme = .opening then s.open? limit (some op) t.position
    else .error (.formula (.bareFunction op.symbol) position)
  | .variable name position =>
    if t.lexeme = .opening then .error (.formula (.unknownFunction name) position)
    else s.operator? (.var (names.idxOf name)) t
  | .operator x => s.operator? x t
  | .done x => s.operator? x t

end State

/-- The variables of a formula in the order of their first occurrence. -/
def variableNames (tokens : List Token) : List String :=
  (tokens.filterMap fun t => match t.lexeme with
    | .name letters =>
      let name := String.ofList letters
      if (Op.function? name).isSome then none else some name
    | _ => none).eraseDups

theorem nodup_eraseDups [BEq α] [LawfulBEq α] (l : List α) : l.eraseDups.Nodup := by
  match l with
  | [] => simp
  | a :: as =>
    rw [List.eraseDups_cons, List.nodup_cons]
    have : (as.filter fun b => !b == a).length ≤ as.length := List.length_filter_le _ _
    refine ⟨fun h => ?_, nodup_eraseDups _⟩
    simp [List.mem_eraseDups] at h
termination_by l.length

/-- The tree of a token list over the table `names`. -/
def readTokens (limit : Count) (names : List String) (tokens : List Token) :
    Except Fault (Tree Float) :=
  match tokens with
  | [⟨.finish, _⟩] => .error (.formula .emptyFormula 0)
  | tokens => do
    let s ← tokens.foldlM (State.step limit names) {}
    match s.mode with
    | .done t => return t
    | _ => .error (.formula .missingLastOperand 0)

/-- The equation of a formula with at most `limit` brackets open at a time. -/
def read? (limit : Count) (formula : String) : Except Fault (Equation Float) := do
  let tokens ← Token.scan formula
  let root ← readTokens limit (variableNames tokens) tokens
  return ⟨root, variableNames tokens, nodup_eraseDups _⟩

/-- Reads a formula and reports its size; `none` stands for something that is not text. -/
def parse (limit : Count) (formula : Option String) : Outcome Float (Equation Float) := do
  let some formula := formula | .ofExcept (.error .formulaNotText)
  let e ← .ofExcept (read? limit formula)
  let size ← .ofExcept e.root.size?
  .report (.parsed size e.names)
  .report (.parsedTree e)
  return e

end FormulaCalculus.Formula
