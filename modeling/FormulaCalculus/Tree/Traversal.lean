import FormulaCalculus.Tree.Basic

/-!
# Traversals

The walks pass over empty slots and list every other node. A function is listed before its argument
in order, since its left slot is empty. All but the walk in breadth are recursive, so they end at
trees that are too deep, and so do the queries, which go by the walk in preorder.
-/

namespace FormulaCalculus.Tree

variable {α : Type}

def preorder : Tree α → List (Tree α)
  | binary c l r => binary c l r :: (l.preorder ++ r.preorder)
  | call c x => call c x :: x.preorder
  | missing => []
  | t => [t]

def inorder : Tree α → List (Tree α)
  | binary c l r => l.inorder ++ binary c l r :: r.inorder
  | call c x => call c x :: x.inorder
  | missing => []
  | t => [t]

def postorder : Tree α → List (Tree α)
  | binary c l r => l.postorder ++ r.postorder ++ [binary c l r]
  | call c x => x.postorder ++ [call c x]
  | missing => []
  | t => [t]

inductive WalkOrder
  | pre
  | inside
  | post
  deriving DecidableEq, Repr

def WalkOrder.ofName? : String → Option WalkOrder
  | "pre" => some .pre
  | "in" => some .inside
  | "post" => some .post
  | _ => none

def walk (t : Tree α) : WalkOrder → List (Tree α)
  | .pre => t.preorder
  | .inside => t.inorder
  | .post => t.postorder

def walk? (t : Tree α) (order : WalkOrder) : Except Fault (List (Tree α)) := do
  t.checkDepth
  return t.walk order

def walkNamed (t : Tree α) (order : String) : Except Fault (List (Tree α)) :=
  match WalkOrder.ofName? order with
  | some order => t.walk? order
  | none => .error (.badWalkOrder order)

/-! ### Breadth first -/

theorem totalSize_children_lt (t : Tree α) : totalSize t.children < t.size := by
  cases t <;> simp only [children, totalSize, size] <;> omega

/-- Takes the nodes off the head of the queue and appends their children at its end. -/
def visitQueue : List (Tree α) → List (Tree α)
  | [] => []
  | t :: queue => t :: visitQueue (queue ++ t.children)
termination_by queue => totalSize queue
decreasing_by
  have := totalSize_children_lt t
  simp only [totalSize_append, totalSize]
  omega

def breadthFirst (t : Tree α) : List (Tree α) :=
  visitQueue [t]

/-- All nodes, `breadth_first` or `depth_first`. -/
def nodesNamed (t : Tree α) (order : String) : Except Fault (List (Tree α)) :=
  match order with
  | "breadth_first" => if t.isComplete then .ok t.breadthFirst else .error .absentChild
  | "depth_first" => t.walk? .pre
  | _ => .error (.badTraversalOrder order)

/-! ### Queries -/

def index? : Tree α → Option Nat
  | var i => some i
  | _ => none

def value? : Tree α → Option α
  | num v => some v
  | _ => none

def code? : Tree α → Option Code
  | binary c .. => some c
  | call c _ => some c
  | _ => none

/-- The indices of the variables, one for each occurrence. -/
def indices (t : Tree α) : List Nat :=
  t.preorder.filterMap index?

theorem indices_binary (c : Code) (l r : Tree α) :
    (binary c l r).indices = l.indices ++ r.indices := by
  simp [indices, preorder, index?, List.filterMap_cons]

theorem indices_call (c : Code) (t : Tree α) : (call c t).indices = t.indices := by
  simp [indices, preorder, index?, List.filterMap_cons]

theorem mem_indices_binary {i : Nat} {c : Code} {l r : Tree α} :
    i ∈ (binary c l r).indices ↔ i ∈ l.indices ∨ i ∈ r.indices := by
  rw [indices_binary, List.mem_append]

theorem mem_indices_call {i : Nat} {c : Code} {t : Tree α} :
    i ∈ (call c t).indices ↔ i ∈ t.indices := by
  rw [indices_call]

def numbers (t : Tree α) : List (Tree α) :=
  t.preorder.filter isNumber

theorem mem_numbers_num {x y : α} : num x ∈ (num y).numbers ↔ x = y := by
  simp [numbers, preorder, isNumber]

theorem mem_numbers_binary {x : α} {c : Code} {l r : Tree α} :
    num x ∈ (binary c l r).numbers ↔ num x ∈ l.numbers ∨ num x ∈ r.numbers := by
  simp [numbers, preorder, isNumber]

theorem mem_numbers_call {x : α} {c : Code} {t : Tree α} :
    num x ∈ (call c t).numbers ↔ num x ∈ t.numbers := by
  simp [numbers, preorder, isNumber]

theorem forall_numbers_binary {p : α → Prop} {c : Code} {l r : Tree α} :
    (∀ x, num x ∈ (binary c l r).numbers → p x) ↔
      (∀ x, num x ∈ l.numbers → p x) ∧ ∀ x, num x ∈ r.numbers → p x := by
  simp only [mem_numbers_binary, or_imp, forall_and]

theorem forall_numbers_call {p : α → Prop} {c : Code} {t : Tree α} :
    (∀ x, num x ∈ (call c t).numbers → p x) ↔ ∀ x, num x ∈ t.numbers → p x := by
  simp only [mem_numbers_call]

def mentions (t : Tree α) (i : Int) : Bool :=
  t.indices.any fun j => (j : Int) = i

theorem mentions_binary {i : Int} (c : Code) (l r : Tree α) :
    (binary c l r).mentions i = (l.mentions i || r.mentions i) := by
  rw [mentions, indices_binary, List.any_append]
  rfl

theorem mentions_call {i : Int} (c : Code) (t : Tree α) :
    (call c t).mentions i = t.mentions i := by
  rw [mentions, indices_call]
  rfl

theorem mentions_var {i : Int} (j : Nat) : (var j : Tree α).mentions i = decide ((j : Int) = i) :=
  Bool.or_false _

/-- The largest index of a variable, or -1. -/
def maxIndex (t : Tree α) : Int :=
  t.indices.foldl (fun (m : Int) (i : Nat) => max m i) (-1)

/-! ### Queries of a tree of any depth -/

def variables? (t : Tree α) : Except Fault (List (Tree α)) :=
  return (← t.walk? .pre).filter (·.index?.isSome)

def numbers? (t : Tree α) : Except Fault (List (Tree α)) := do
  t.checkDepth
  return t.numbers

/-- The operator nodes that hold a code. -/
def withCode? (t : Tree α) (code : Code) : Except Fault (List (Tree α)) :=
  return (← t.walk? .pre).filter fun n => n.code?.any code.same

def maxIndex? (t : Tree α) : Except Fault Int := do
  t.checkDepth
  return t.maxIndex

/-- How often each variable occurs, in the order of the indices. -/
def occurrences? (t : Tree α) : Except Fault (List (Nat × Nat)) := do
  t.checkDepth
  return (t.indices.eraseDups.mergeSort (· ≤ ·)).map fun i => (i, t.indices.count i)

/-- Whether a variable occurs, with room for so many levels. The walk stops where it is found. -/
def finds? (i : Int) : (room : Nat) → Tree α → Except Fault Bool
  | 0, _ => .error .recursion
  | _ + 1, var j => .ok ((j : Int) = i)
  | room + 1, binary _ l r => do if ← finds? i room l then return true else finds? i room r
  | room + 1, call _ x => finds? i room x
  | _ + 1, _ => .ok false

def mentions? (t : Tree α) (i : Int) : Except Fault Bool :=
  finds? i maxDepth t

theorem finds?_eq {i : Int} {room : Nat} {t : Tree α} (h : t.depth ≤ room) :
    finds? i room t = .ok (t.mentions i) := by
  induction room generalizing t with
  | zero => exact absurd h (Nat.not_le.2 t.depth_pos)
  | succ room ih =>
    cases t with
    | binary c l r =>
      simp only [depth] at h
      simp only [finds?, ih (t := l) (by omega), ih (t := r) (by omega), mentions_binary]
      cases l.mentions i <;> rfl
    | call c x =>
      simp only [depth] at h
      rw [finds?, ih (by omega), mentions_call]
    | num | var | foreign | missing => simp [finds?, mentions, indices, preorder, index?]

/-- On a tree that can be walked the search finds what the indices say, so the rules of derivatives,
which look into parts of such a tree, go by the indices. -/
theorem mentions?_eq {t : Tree α} (h : t.isTooDeep = false) (i : Int) :
    t.mentions? i = .ok (t.mentions i) :=
  finds?_eq (Nat.not_lt.1 (of_decide_eq_false h))

/-- On a tree of any depth an answer is right. -/
theorem mentions_of_finds? {i : Int} {room : Nat} {t : Tree α} {b : Bool}
    (h : finds? i room t = .ok b) : t.mentions i = b := by
  induction room generalizing t b with
  | zero => cases h
  | succ room ih =>
    cases t with
    | binary c l r =>
      rw [mentions_binary]
      rw [finds?] at h
      cases hl : finds? i room l with
      | error fault => rw [hl] at h; cases h
      | ok found =>
        rw [hl] at h
        cases found with
        | true =>
          obtain rfl : true = b := Except.ok.inj h
          rw [ih hl, Bool.true_or]
        | false => rw [ih hl, ih h, Bool.false_or]
    | call c x => rw [mentions_call, ih h]
    | num | var | foreign | missing =>
      simpa [finds?, mentions, indices, preorder, index?] using h

end FormulaCalculus.Tree
