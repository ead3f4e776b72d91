import FormulaCalculus.Decimal.Shortest

/-!
# Writing doubles

Two notations over the shortest decimal. Formulas use the plain one: positional, without a zero or
a point at the end, so that a formula reader needs no exponents. Values are reported in the general
one, which keeps a fraction digit and is scientific below `10 ^ -4` and from `10 ^ 16` on.
-/

namespace FormulaCalculus.Decimal

def zeros (n : Nat) : List Char :=
  List.replicate n '0'

/-- The digits before and after the point. -/
def split (d : Decimal) : List Char × List Char :=
  let ds := Nat.toDigits 10 d.digits
  if 0 ≤ d.exponent then (ds ++ zeros d.exponent.toNat, [])
  else if d.places < ds.length then ds.splitAt (ds.length - d.places)
  else (['0'], zeros (d.places - ds.length) ++ ds)

/-- The decimal in positional notation without a point at the end. -/
def plain (d : Decimal) : List Char :=
  match d.split with
  | (whole, []) => whole
  | (whole, fraction) => whole ++ '.' :: fraction

/-- An exponent with its sign and at least two digits. -/
def signedExponent (e : Int) : List Char :=
  let ds := Nat.toDigits 10 e.natAbs
  (if e < 0 then '-' else '+') :: (zeros (2 - ds.length) ++ ds)

/-- The decimal in general notation. -/
def general (d : Decimal) : List Char :=
  let ds := Nat.toDigits 10 d.digits
  let e := d.exponent + (ds.length - 1 : Nat)
  if -4 ≤ e ∧ e < 16 then
    match d.split with
    | (whole, []) => whole ++ ['.', '0']
    | (whole, fraction) => whole ++ '.' :: fraction
  else
    match ds with
    | d :: [] => d :: 'e' :: signedExponent e
    | d :: ds => d :: '.' :: ds ++ 'e' :: signedExponent e
    | [] => []

open Float.Model in
/-- A double whose magnitude, if it is finite, is written by `write m q`. -/
def writeDouble (zero : List Char) (write : Nat → Int → List Char) (x : Float) : String :=
  let sign : UnpackedFloat.Sign → List Char → List Char
    | .negative, cs => '-' :: cs
    | .positive, cs => cs
  String.ofList <| match x.toModel.unpack with
    | .notANumber => ['n', 'a', 'n']
    | .infinity s => sign s ['i', 'n', 'f']
    | .zero s => sign s zero
    | .finite s m q _ => sign s (write m q)

/-- The notation of formulas. With a precision, digits beyond it are rounded off the exact value. -/
def plainText (precision : Option Nat) : Float → String :=
  writeDouble ['0'] fun m q =>
    let d := shortest m q
    match precision with
    | none => d.plain
    | some p => if p < d.places then (rounded m q p).plain else d.plain

/-- The notation of reported values. -/
def generalText : Float → String :=
  writeDouble ['0', '.', '0'] fun m q => (shortest m q).general

end FormulaCalculus.Decimal
