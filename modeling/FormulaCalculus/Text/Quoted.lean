import FormulaCalculus.Text.Printable

/-!
# Quoted text

Messages quote names between single quotes, or between double quotes when the text holds a single
quote and no double one. The backslash, the closing quote and characters that do not print are
escaped, so a quoted text is one line of printable characters.
-/

namespace FormulaCalculus.Text

/-- The last `width` hexadecimal digits of `n`. -/
def hex (width n : Nat) : List Char :=
  (List.range width).reverse.map fun i => Nat.digitChar (n / Nat.pow 16 i % 16)

def quoteFor (cs : List Char) : Char :=
  if cs.contains '\'' && !cs.contains '"' then '"' else '\''

/-- A character as it stands between two `quote`s. -/
def escape (quote c : Char) : List Char :=
  if c = '\\' ∨ c = quote then ['\\', c]
  else if c = '\n' then ['\\', 'n']
  else if c = '\r' then ['\\', 'r']
  else if c = '\t' then ['\\', 't']
  else if isPrintable c then [c]
  else if c.toNat < 0x100 then '\\' :: 'x' :: hex 2 c.toNat
  else if c.toNat < 0x10000 then '\\' :: 'u' :: hex 4 c.toNat
  else '\\' :: 'U' :: hex 8 c.toNat

def quote (s : String) : String :=
  let q := quoteFor s.toList
  String.ofList (q :: s.toList.flatMap (escape q) ++ [q])

/-- The quoted texts between square brackets. -/
def quoteAll (names : List String) : String :=
  "[" ++ ", ".intercalate (names.map quote) ++ "]"

example : quote "it's" = "\"it's\"" := by decide +kernel
example : quote "a'\"b" = "'a\\'\"b'" := by decide +kernel
example : quoteAll ["x", "\n"] = "['x', '\\n']" := by decide +kernel

end FormulaCalculus.Text
