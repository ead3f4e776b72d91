import FormulaCalculus.Print.Latex
import FormulaCalculus.Proofs.Print.Spelling

/-!
# The grammar of LaTeX texts

    Sum     := Product ((' + ' | ' - ') Product)*
    Product := Power (' \cdot ' Power)*
    Power   := Primary ('^{' Sum '}')*
    Primary := Number | Name | '\frac{' Sum '}{' Sum '}'
             | '\sqrt{' Sum '}' | Function '\left(' Sum '\right)' | '\left(' Sum '\right)'

The repetitions fold to the left. Here a repetition is a part of its own that knows the phrase to
its left, so a text is taken apart from its head on; that a text can also grow at its end by an
operand is `Typesets.join`.
-/

namespace FormulaCalculus.Latex

open Formula

/-! ### Pieces -/

/-- What stands before the argument of a function, or before a text in brackets. -/
def opening : Option Op → List Char
  | none => "\\left(".toList
  | some .sqrt => "\\sqrt\x7b".toList
  | some op => (function op ++ "\\left(").toList

def closing (f : Option Op) : List Char :=
  if f = some .sqrt then ['\x7d'] else "\\right)".toList

/-- What a function or a bracket makes of a phrase. -/
def enclose : Option Op → Phrase → Phrase
  | none, p => p
  | some op, p => .call op p

/-- The operators that stand between operands on a line. -/
def lineOperators : Level → List Op
  | .sum => [.add, .sub]
  | .product => [.mul]
  | _ => []

/-- The characters from the operator up to its right operand. -/
def sign (op : Op) : List Char :=
  ' ' :: ((symbol op).toList ++ [' '])

inductive Part
  | whole (l : Level)
  /-- What follows the operand `left` on the level. -/
  | rest (l : Level) (left : Phrase)

/-! ### Texts -/

/-- `Typesets a cs p`: the characters make up the part `a` of a text, and with it `p` is said. -/
inductive Typesets : Part → List Char → Phrase → Prop
  | number {cs : List Char} {x : Float} (h : Spells cs x) :
    Typesets (.whole .primary) cs (.number x)
  | ident {name : String} (h : Word name.toList) :
    Typesets (.whole .primary) (Latex.name name).toList (.ident name)
  | fraction {cs ds : List Char} {p q : Phrase} (hp : Typesets (.whole .sum) cs p)
    (hq : Typesets (.whole .sum) ds q) :
    Typesets (.whole .primary) ("\\frac\x7b".toList ++ (cs ++ '\x7d' :: '\x7b' :: (ds ++ ['\x7d'])))
      (.binary .div p q)
  | enclosed {cs : List Char} {p : Phrase} (f : Option Op) (hf : f.all Op.isFunction)
    (h : Typesets (.whole .sum) cs p) :
    Typesets (.whole .primary) (opening f ++ (cs ++ closing f)) (enclose f p)
  | chain {l : Level} {cs ds : List Char} {p q : Phrase} (hl : l ≠ .primary)
    (hp : Typesets (.whole l.next) cs p) (hr : Typesets (.rest l p) ds q) :
    Typesets (.whole l) (cs ++ ds) q
  | stop {l : Level} {p : Phrase} : Typesets (.rest l p) [] p
  | more {l : Level} {op : Op} {cs ds : List Char} {p q r : Phrase} (hop : op ∈ lineOperators l)
    (hq : Typesets (.whole l.next) cs q) (hr : Typesets (.rest l (.binary op p q)) ds r) :
    Typesets (.rest l p) (sign op ++ (cs ++ ds)) r
  | power {cs ds : List Char} {p q r : Phrase} (hq : Typesets (.whole .sum) cs q)
    (hr : Typesets (.rest .power (.binary .pow p q)) ds r) :
    Typesets (.rest .power p) ('^' :: '\x7b' :: (cs ++ '\x7d' :: ds)) r

section Typesets
variable {k l : Level} {op : Op} {cs ds : List Char} {p q r : Phrase}

theorem lineOperators_ne_primary (h : op ∈ lineOperators l) : l ≠ .primary := by
  rintro rfl
  cases h

theorem levelOf_of_mem_lineOperators (h : op ∈ lineOperators l) : levelOf op = l := by
  cases l <;> revert op <;> decide

theorem Typesets.descend (hl : l ≠ .primary) (h : Typesets (.whole l.next) cs p) :
    Typesets (.whole l) cs p := by
  have := h.chain hl .stop
  rwa [List.append_nil] at this

/-- A text of a level is one of the looser levels too. -/
theorem Typesets.weaken (h : Typesets (.whole l) cs p) (hk : k.rank ≤ l.rank) :
    Typesets (.whole k) cs p := by
  cases k <;> cases l <;> first
    | exact h
    | exact .descend nofun h
    | exact .descend nofun (.descend nofun h)
    | exact .descend nofun (.descend nofun (.descend nofun h))
    | exact absurd hk (by decide)

theorem Typesets.snoc {left : Phrase} (h : Typesets (.rest l left) cs p)
    (hop : op ∈ lineOperators l) (hq : Typesets (.whole l.next) ds q) :
    Typesets (.rest l left) (cs ++ (sign op ++ ds)) (.binary op p q) := by
  generalize ha : Part.rest l left = a at h
  induction h generalizing l left with
  | @stop _ p =>
    cases ha
    have := Typesets.more hop hq (.stop (p := .binary op p q))
    rwa [List.append_nil] at this
  | more hop' hq' _ _ ih =>
    cases ha
    have := Typesets.more hop' hq' (ih hop hq rfl)
    simpa only [List.append_assoc] using this
  | power =>
    cases ha
    cases hop
  | _ => cases ha

/-- An operator on a line and its right operand. -/
theorem Typesets.join (hop : op ∈ lineOperators l) (hp : Typesets (.whole l) cs p)
    (hq : Typesets (.whole l.next) ds q) :
    Typesets (.whole l) (cs ++ (sign op ++ ds)) (.binary op p q) := by
  cases hp with
  | chain hl hhead hrest =>
    rw [List.append_assoc]
    exact .chain hl hhead (hrest.snoc hop hq)
  | _ => cases hop

theorem Typesets.bracket (h : Typesets (.whole l) cs p) :
    Typesets (.whole .primary) (opening none ++ (cs ++ closing none)) p :=
  .enclosed none rfl (h.weaken (Nat.zero_le _))

end Typesets

end FormulaCalculus.Latex
