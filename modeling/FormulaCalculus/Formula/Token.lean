import FormulaCalculus.Fault
import FormulaCalculus.Text.Blank
import FormulaCalculus.Text.Digit

/-!
# Tokens

A formula is cut into numbers, names, operators and brackets, each as long as possible; blanks may
stand between them. The last token marks the end of the text.
-/

namespace FormulaCalculus

inductive Lexeme
  /-- Digits, with a point between digits at most once. -/
  | number (digits : List Char)
  | name (letters : List Char)
  | op (op : Op)
  | opening
  | closing
  | finish
  deriving DecidableEq, Repr

structure Token where
  lexeme : Lexeme
  position : Nat
  deriving DecidableEq, Repr

namespace Lexeme

/-- The part of the formula that a lexeme was read from. -/
def text : Lexeme → String
  | number digits => String.ofList digits
  | name letters => String.ofList letters
  | op o => o.symbol
  | opening => "("
  | closing => ")"
  | finish => ""

def title : Lexeme → String
  | number _ => "NUMBER"
  | name _ => "IDENT"
  | op _ => "OPERATOR"
  | opening => "LPAREN"
  | closing => "RPAREN"
  | finish => "EOF"

def isNameStart (c : Char) : Bool :=
  c.isAlpha || c == '_'

def isNamePart (c : Char) : Bool :=
  c.isAlphanum || c == '_'

/-- The longest number at the head of a text. -/
def numberAt (cs : List Char) : List Char :=
  let whole := cs.takeWhile Text.isDigit
  match cs.dropWhile Text.isDigit with
  | '.' :: rest =>
    let fraction := rest.takeWhile Text.isDigit
    if fraction.isEmpty then whole else whole ++ '.' :: fraction
  | _ => whole

/-- The lexeme at the head of a text, none if blanks stand there, and how many characters it or
they take. -/
def ofHead? : List Char → Option (Option Lexeme × Nat)
  | [] => none
  | c :: cs =>
    if Text.isDigit c then
      let digits := numberAt (c :: cs)
      some (some (number digits), digits.length)
    else if isNameStart c then
      let letters := (c :: cs).takeWhile isNamePart
      some (some (name letters), letters.length)
    else if Text.isBlank c then some (none, ((c :: cs).takeWhile Text.isBlank).length)
    else match c with
      | '+' => some (some (op .add), 1)
      | '-' => some (some (op .sub), 1)
      | '*' => some (some (op .mul), 1)
      | '/' => some (some (op .div), 1)
      | '^' => some (some (op .pow), 1)
      | '(' => some (some opening, 1)
      | ')' => some (some closing, 1)
      | _ => none

theorem length_takeWhile_cons_pos {p : Char → Bool} {c : Char} (h : p c) (cs : List Char) :
    0 < ((c :: cs).takeWhile p).length := by
  simp [h]

theorem length_numberAt_pos {c : Char} (h : Text.isDigit c) (cs : List Char) :
    0 < (numberAt (c :: cs)).length := by
  have := length_takeWhile_cons_pos h cs
  unfold numberAt
  split
  · dsimp only
    split
    · exact this
    · rw [List.length_append]; omega
  · exact this

/-- Every step through a text takes a character at least. -/
theorem pos_of_ofHead? {cs : List Char} {l : Option Lexeme} {n : Nat}
    (h : ofHead? cs = some (l, n)) : 0 < n := by
  cases cs with
  | nil => cases h
  | cons c cs =>
    simp only [ofHead?] at h
    split at h
    · rename_i hd
      cases h; exact length_numberAt_pos hd cs
    · split at h
      · rename_i hn
        have hp : isNamePart c := by
          simp only [isNameStart, isNamePart, Char.isAlphanum, Bool.or_eq_true] at hn ⊢
          exact hn.imp_left Or.inl
        cases h; exact length_takeWhile_cons_pos hp cs
      · split at h
        · rename_i hb
          cases h; exact length_takeWhile_cons_pos hb cs
        · split at h <;> cases h <;> decide

end Lexeme

namespace Token

/-- The tokens of the text that starts at `position`, after the ones read so far, latest first. -/
def scanFrom (read : List Token) (position : Nat) : List Char → Except Fault (List Token)
  | [] => .ok (⟨.finish, position⟩ :: read).reverse
  | c :: cs =>
    match _h : Lexeme.ofHead? (c :: cs) with
    | none => .error (.formula (.unexpectedCharacter c) position)
    | some (none, n) => scanFrom read (position + n) ((c :: cs).drop n)
    | some (some l, n) => scanFrom (⟨l, position⟩ :: read) (position + n) ((c :: cs).drop n)
termination_by cs => cs.length
decreasing_by
  all_goals
    have := Lexeme.pos_of_ofHead? _h
    simp only [List.length_drop, List.length_cons]
    omega

def scan (formula : String) : Except Fault (List Token) :=
  scanFrom [] 0 formula.toList

def describe (t : Token) : String :=
  "Token(" ++ t.lexeme.title ++ ", '" ++ t.lexeme.text ++ "', " ++ toString t.position ++ ")"

end Token

end FormulaCalculus
