/-!
# Lines

A text file may end its lines by a line feed, a carriage return or both; reading it leaves line
feeds only. A message is cut into lines at every Unicode line boundary.
-/

namespace FormulaCalculus.Text

/-- Every line end becomes a line feed. -/
def unifyLineEnds : List Char → List Char
  | '\r' :: '\n' :: cs => '\n' :: unifyLineEnds cs
  | '\r' :: cs => '\n' :: unifyLineEnds cs
  | c :: cs => c :: unifyLineEnds cs
  | [] => []

/-- The characters that end a line, the line feed after a carriage return apart. -/
def endsLine (c : Char) : Bool :=
  [0x0a, 0x0b, 0x0c, 0x0d, 0x1c, 0x1d, 0x1e, 0x85, 0x2028, 0x2029].contains c.toNat

/-- The lines of a text without their ends; `line` holds the current one, reversed. -/
def splitLines (line : List Char) : List Char → List (List Char)
  | [] => if line.isEmpty then [] else [line.reverse]
  | '\r' :: '\n' :: cs => line.reverse :: splitLines [] cs
  | c :: cs => if endsLine c then line.reverse :: splitLines [] cs else splitLines (c :: line) cs

def lines (s : String) : List String :=
  (splitLines [] s.toList).map String.ofList

example : lines "a\r\nb\n\nc" = ["a", "b", "", "c"] := by decide +kernel
example : lines "a\n" = ["a"] ∧ lines "" = [] := by decide +kernel

end FormulaCalculus.Text
