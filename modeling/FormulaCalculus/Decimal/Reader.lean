import FormulaCalculus.Text.Blank
import FormulaCalculus.Text.Digit

/-!
# Reading numbers

Formula literals are digits with at most one point between them. Numbers that a user types as
arguments may also carry a sign, an exponent, blanks at the ends and single underscores between
digits. Every reader rounds to the nearest double, a half to the even one.
-/

namespace FormulaCalculus.Decimal

open Text

/-- The double nearest to `m * 10 ^ e`. -/
def toDouble (m : Nat) (e : Int) : Float :=
  Float.ofScientific m (e < 0) e.natAbs

/-- The value of a literal: digits, and after a point more digits. -/
def readLiteral (cs : List Char) : Float :=
  toDouble (numeral cs) (-((cs.dropWhile (· != '.')).length - 1 : Nat))

/-- The digits at the head of a text; one underscore may stand between two digits. -/
def digitRun : List Char → List Nat × List Char
  | [] => ([], [])
  | c :: cs =>
    match digit? c with
    | none => ([], c :: cs)
    | some d =>
      let (ds, rest) := match cs with
        | '_' :: next :: cs =>
          if isDigit next then digitRun (next :: cs) else ([], '_' :: next :: cs)
        | cs => digitRun cs
      (d :: ds, rest)

def ofDigits (ds : List Nat) : Nat :=
  ds.foldl (fun n d => 10 * n + d) 0

/-- A sign at the head, and the text after it. -/
def signed : List Char → Bool × List Char
  | '-' :: cs => (true, cs)
  | '+' :: cs => (false, cs)
  | cs => (false, cs)

/-- The exponent that makes up the rest of a number; an empty rest means 0. -/
def exponent? : List Char → Option Int
  | [] => some 0
  | e :: cs =>
    if e = 'e' ∨ e = 'E' then
      let (negative, cs) := signed cs
      match digitRun cs with
      | ([], _) => none
      | (ds, []) => some (if negative then -(ofDigits ds : Int) else ofDigits ds)
      | _ => none
    else none

/-- An unsigned number: digits, a point, digits, an exponent; digits on one side suffice. -/
def magnitude? (cs : List Char) : Option Float :=
  let (whole, rest) := digitRun cs
  let (fraction, rest) := match rest with
    | '.' :: cs => digitRun cs
    | rest => ([], rest)
  if whole.isEmpty && fraction.isEmpty then none
  else (exponent? rest).map fun e =>
    toDouble (ofDigits (whole ++ fraction)) (e - fraction.length)

/-- The blanks around a number, information separators not among them. -/
def isMargin (c : Char) : Bool :=
  isBlank c && !(0x1c ≤ c.toNat && c.toNat ≤ 0x1f)

def dropMargins (cs : List Char) : List Char :=
  ((cs.dropWhile isMargin).reverse.dropWhile isMargin).reverse

/-- A double as a user types it; infinity and NaN are spelled out in letters of either case. -/
def readDouble? (s : String) : Option Float :=
  let (negative, cs) := signed (dropMargins s.toList)
  let word := String.ofList (cs.map Char.toLower)
  let x? :=
    if word = "inf" ∨ word = "infinity" then some (1 / 0)
    else if word = "nan" then some (0 / 0)
    else magnitude? cs
  x?.map fun x => if negative then -x else x

/-- A whole number as a user types it, of at most 4300 digits. -/
def readInt? (s : String) : Option Int :=
  let (negative, cs) := signed (dropMargins s.toList)
  match digitRun cs with
  | ([], _) => none
  | (ds, []) =>
    if 4300 < ds.length then none
    else some (if negative then -(ofDigits ds : Int) else ofDigits ds)
  | _ => none

end FormulaCalculus.Decimal
