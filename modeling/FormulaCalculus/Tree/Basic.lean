import FormulaCalculus.Scalar

/-!
# Expression trees

A tree over the numbers `α`. Trees are built by the checked constructors, which keep every operator
at a node of its arity; a slot can be overwritten afterwards, so a node may hold any code, a child
may be missing, and a node may be of a kind that the library does not know.
-/

namespace FormulaCalculus

inductive Tree (α : Type) where
  | num (value : α)
  | var (index : Nat)
  | binary (code : Code) (left right : Tree α)
  | call (code : Code) (argument : Tree α)
  /-- A leaf of an unknown kind with a text of its own. -/
  | foreign (kind text : String)
  /-- The content of an empty slot. -/
  | missing
  deriving DecidableEq, Repr

namespace Tree

variable {α : Type}

instance : Inhabited (Tree α) := ⟨missing⟩

/-- The kind of a node as messages call it. -/
def kind : Tree α → String
  | num _ => "NumberNode"
  | var _ => "VariableNode"
  | binary .. => "BinaryOpNode"
  | call .. => "UnaryOpNode"
  | foreign kind _ => kind
  | missing => "NoneType"

/-- The kinds of nodes numbered from 0: number, variable, two operands, function. -/
def kindNumber : Tree α → Nat
  | var _ => 1
  | binary .. => 2
  | call .. => 3
  | _ => 0

def isMissing : Tree α → Bool
  | missing => true
  | _ => false

def isNumber : Tree α → Bool
  | num _ => true
  | _ => false

/-! ### Children -/

/-- The left operand; a function has none. -/
def left : Tree α → Tree α
  | binary _ l _ => l
  | _ => missing

/-- The right operand, which for a function is its argument. -/
def right : Tree α → Tree α
  | binary _ _ r => r
  | call _ x => x
  | _ => missing

def children : Tree α → List (Tree α)
  | binary _ l r => [l, r]
  | call _ x => [x]
  | _ => []

def isLeaf (t : Tree α) : Bool :=
  t.children.isEmpty

/-- The number of nodes, empty slots included. -/
def size : Tree α → Nat
  | binary _ l r => 1 + l.size + r.size
  | call _ x => 1 + x.size
  | _ => 1

theorem size_pos (t : Tree α) : 0 < t.size := by
  cases t <;> simp only [size] <;> omega

/-- The number of levels. -/
def depth : Tree α → Nat
  | binary _ l r => 1 + max l.depth r.depth
  | call _ x => 1 + x.depth
  | _ => 1

theorem depth_pos (t : Tree α) : 0 < t.depth := by
  cases t <;> simp only [depth] <;> omega

/-- The nodes of all trees on a worklist. -/
def totalSize : List (Tree α) → Nat
  | [] => 0
  | t :: rest => t.size + totalSize rest

theorem totalSize_append (ts us : List (Tree α)) :
    totalSize (ts ++ us) = totalSize ts + totalSize us := by
  induction ts with
  | nil => exact (Nat.zero_add _).symm
  | cons t ts ih => rw [List.cons_append, totalSize, totalSize, ih, Nat.add_assoc]

/-- Whether every child is there. -/
def isComplete : Tree α → Bool
  | binary _ l r => l.isComplete && r.isComplete
  | call _ x => x.isComplete
  | missing => false
  | _ => true

/-- No recursive walk goes deeper than this many levels. One limit for all walks is an abstraction:
what runs out is the stack, of which a level takes more in one walk than in another. So is that a
tree beyond the limit stops a walk before anything else on its way could. -/
def maxDepth : Nat := 1000

def isTooDeep (t : Tree α) : Bool :=
  maxDepth < t.depth

def checkDepth (t : Tree α) : Except Fault Unit :=
  if t.isTooDeep then .error .recursion else .ok ()

/-- Succeeds on the trees that can be measured: complete ones that are not too deep. -/
def checkMeasurable (t : Tree α) : Except Fault Unit :=
  if t.isTooDeep then .error .recursion
  else if !t.isComplete then .error .absentChild
  else .ok ()

def size? (t : Tree α) : Except Fault Nat := do
  t.checkMeasurable
  return t.size

def depth? (t : Tree α) : Except Fault Nat := do
  t.checkMeasurable
  return t.depth

theorem size?_eq_ite {t : Tree α} (hc : t.isComplete) :
    t.size? = if t.isTooDeep then .error .recursion else .ok t.size := by
  simp only [size?, checkMeasurable, hc]
  split <;> rfl

theorem size?_of_isComplete {t : Tree α} (hc : t.isComplete) (hd : t.isTooDeep = false) :
    t.size? = .ok t.size := by
  rw [size?_eq_ite hc, if_neg (by rw [hd]; exact Bool.false_ne_true)]

/-! ### Checked constructors -/

def var? (i : Int) : Except Fault (Tree α) :=
  if i < 0 then .error (.negativeIndex i) else .ok (var i.toNat)

def binary? (code : Code) (l r : Tree α) : Except Fault (Tree α) :=
  match code.op?.filter Op.isBinary with
  | none => .error (.notBinary code)
  | some op =>
    if l.isMissing || r.isMissing then .error (.twoOperandsNeeded op) else .ok (binary (.op op) l r)

def call? (code : Code) (x : Tree α) : Except Fault (Tree α) :=
  match code.op?.filter Op.isFunction with
  | none => .error (.notFunction code)
  | some op => if x.isMissing then .error (.argumentNeeded op) else .ok (call (.op op) x)

/-- A copy, built anew by the checked constructors. -/
def copy? : Tree α → Except Fault (Tree α)
  | binary code l r => do
    let l ← l.copy?
    let r ← r.copy?
    binary? code l r
  | call code x => do
    let x ← x.copy?
    call? code x
  | missing => .error .absentChild
  | t => .ok t

/-! ### Building by operator -/

section Build

variable [Scalar α]

def int (n : Int) : Tree α :=
  num (Scalar.ofInt n)

end Build

def add (l r : Tree α) : Tree α :=
  binary (.op .add) l r

def sub (l r : Tree α) : Tree α :=
  binary (.op .sub) l r

def mul (l r : Tree α) : Tree α :=
  binary (.op .mul) l r

def div (l r : Tree α) : Tree α :=
  binary (.op .div) l r

def pow (l r : Tree α) : Tree α :=
  binary (.op .pow) l r

/-! ### Equality -/

/-- The same shape with the same operators and variables, and numbers that `eq` identifies. -/
def sameWith (eq : α → α → Bool) : Tree α → Tree α → Bool
  | num x, num y => eq x y
  | var i, var j => i == j
  | binary c l r, binary c' l' r' => c.same c' && sameWith eq l l' && sameWith eq r r'
  | call c x, call c' x' => c.same c' && sameWith eq x x'
  | foreign k t, foreign k' t' => k == k' && t == t'
  | missing, missing => true
  | _, _ => false

/-- Structural equality; the zeros are equal, and NaN differs from itself. -/
def same [Scalar α] (s t : Tree α) : Bool :=
  sameWith Scalar.eq s t

/-- Whether trees are equal. Nodes of different kinds differ at once, the others are walked. -/
def same? [Scalar α] (s t : Tree α) : Except Fault Bool :=
  if s.kindNumber ≠ t.kindNumber then .ok false
  else do
    s.checkMeasurable
    t.checkMeasurable
    return s.same t

end Tree

end FormulaCalculus
