import FormulaCalculus.Derivative
import FormulaCalculus.Simplify

/-!
# Taylor polynomials

The coefficient of order `n` is the value of the `n`-th derivative at the point over the factorial
of `n`; each derivative is taken of the one before and simplified by one pass. The sum grows to the
left, so a polynomial contains the ones of lower order as left operands.
-/

namespace FormulaCalculus

variable {α : Type} [Scalar α]

namespace Taylor

/-- The base of the powers: the variable, less the point unless that is zero. -/
def base (point : α) : Tree α :=
  if Scalar.eq point (Scalar.ofInt 0) then .var 0 else .sub (.var 0) (.num point)

/-- A sum with a term added: the power of the order `n`, with the coefficient `c`. -/
def plusTerm (point c : α) (n : Nat) (total : Tree α) : Tree α :=
  .add total (.mul (.num c) (.pow (base point) (.int n)))

def nextDerivative (ε : α) (e : Equation α) : Outcome α (Equation α) := do
  let d ← e.differentiate 0
  let s := d.simplify ε
  s.result
  return s.equation

/-- Adds the terms of the orders `n + 1`, …, `n + count` to `total`. `derivative` is the one of
order `n + 1`, and `factorial` that of `n`. -/
def addTerms (ε point : α) : (count n factorial : Nat) → (derivative : Equation α) →
    (total : Tree α) → Outcome α (Tree α)
  | 0, _, _, _, total => return total
  | count + 1, n, factorial, derivative, total => do
    let value ← .ofExcept (derivative.evaluate [point])
    .report (.coefficient (n + 1) point value)
    let factorial := factorial * (n + 1)
    let some divisor := Scalar.ofNat? factorial | .ofExcept (.error .factorialOverflow)
    let total := plusTerm point (Scalar.div value divisor) (n + 1) total
    if count = 0 then return total
    let derivative ← nextDerivative ε derivative
    addTerms ε point count (n + 1) factorial derivative total

end Taylor

/-- The order to which an equation can be expanded: it has at most one variable and the order is not
negative. `none` is an order that is no integer. -/
def Equation.expansionOrder? (e : Equation α) (order : Option Int) : Except Fault Nat :=
  if 1 < e.names.length then .error (.severalVariables e.names)
  else
    match order.filter (0 ≤ ·) with
    | none => .error .badOrder
    | some order => .ok order.toNat

/-- The polynomial of an equation in at most one variable. -/
def Equation.taylor (e : Equation α) (ε : α) (order : Option Int) (point : α) :
    Outcome α (Equation α) := do
  let order ← .ofExcept (e.expansionOrder? order)
  let value ← .ofExcept (e.evaluate [point])
  if e.names.isEmpty then
    .report .constantExpansion
    return e.withRoot (.num value)
  else
    let derivative ← Taylor.nextDerivative ε e
    let root ← Taylor.addTerms ε point order 0 1 derivative (.num value)
    return e.withRoot root

end FormulaCalculus
