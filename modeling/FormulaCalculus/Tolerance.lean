/-!
# Tolerances

A tolerance as its owner wrote it. An integer stays what it is, although numbers are compared to a
tolerance as doubles and not every integer is one: it is compared to as the least double from it on,
below which there are the same doubles.
-/

namespace FormulaCalculus

inductive Tolerance
  | double (x : Float)
  | whole (n : Int)
  deriving Repr

namespace Tolerance

/-- An integer as a multiple of its last unit if it has 53 digits in base 2, rounded up. -/
def roundedUp (n : Nat) : Nat :=
  let unit := Nat.pow 2 (n.log2 - 52)
  (n + (unit - 1)) / unit * unit

/-- The least double from an integer on. It is infinite if there is no finite one. -/
def ceiling (n : Nat) : Float :=
  if (roundedUp n).log2 < 1024 then Float.ofNat (roundedUp n) else 1 / 0

/-- The double that numbers are compared to. No negative tolerance is accepted. -/
def bound : Tolerance → Float
  | double x => x
  | whole n => ceiling n.toNat

/-- Whether a tolerance is below 0, which NaN is not. -/
def isNegative : Tolerance → Bool
  | double x => x < 0
  | whole n => n < 0

end Tolerance

end FormulaCalculus
