/-!
# Counts

A limit or a precision as its owner wrote it. A truth value serves as a count, 1 or 0, and keeps
its spelling wherever the count is shown.
-/

namespace FormulaCalculus

inductive Count
  | number (n : Int)
  | truth (b : Bool)
  deriving DecidableEq, Repr

namespace Count

def value : Count → Int
  | number n => n
  | truth b => if b then 1 else 0

def text : Count → String
  | number n => toString n
  | truth b => if b then "True" else "False"

end Count

instance (n : Nat) : OfNat Count n := ⟨.number n⟩

end FormulaCalculus
