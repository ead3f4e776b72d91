/-!
# Decimal numbers

A magnitude `digits * 10 ^ exponent`, and rounding a quotient to the nearest whole number.
-/

namespace FormulaCalculus

structure Decimal where
  digits : Nat
  exponent : Int
  deriving DecidableEq, Repr

namespace Decimal

/-- The same number without zeros at the end of its digits; zero has exponent 0. -/
def trim (d : Decimal) : Decimal :=
  if _h : d.digits = 0 then ⟨0, 0⟩
  else if d.digits % 10 = 0 then trim ⟨d.digits / 10, d.exponent + 1⟩
  else d
termination_by d.digits
decreasing_by omega

/-- How many digits follow the point when no zero is written at the end. -/
def places (d : Decimal) : Nat :=
  (-d.exponent).toNat

/-- `num / den` rounded to the nearest whole number, a half to the even neighbour. -/
def roundDiv (num den : Nat) : Nat :=
  let whole := num / den
  match compare (2 * (num % den)) den with
  | .lt => whole
  | .gt => whole + 1
  | .eq => whole + whole % 2

end Decimal

end FormulaCalculus
