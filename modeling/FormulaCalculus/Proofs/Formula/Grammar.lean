import FormulaCalculus.Formula.Reader

/-!
# The grammar of formulas

    Expr    := Add
    Add     := Mult (('+' | '-') Mult)*
    Mult    := Pow (('*' | '/') Pow)*
    Pow     := Primary ('^' Primary)*
    Primary := '(' Expr ')' | FuncName '(' Expr ')' | Number | Variable

A derivation from a level of this grammar denotes a phrase, which is a tree with variables by name.
A repetition is folded to the left, so it is given as a left recursion. How deep brackets nest is
counted over the prefixes of a token list.
-/

namespace FormulaCalculus.Formula

/-- What a formula says: a tree whose variables go by name. -/
inductive Phrase
  | number (x : Float)
  | ident (name : String)
  | binary (op : Op) (l r : Phrase)
  | call (op : Op) (x : Phrase)

/-- The levels of the grammar, the loosest first. -/
inductive Level
  | sum | product | power | primary
  deriving DecidableEq

namespace Level

/-- The operands of a level; a primary has none of its own. -/
def next : Level → Level
  | sum => product
  | product => power
  | power => primary
  | primary => primary

def operators : Level → List Op
  | sum => [.add, .sub]
  | product => [.mul, .div]
  | power => [.pow]
  | primary => []

/-- The place of a level among the four, the loosest first. -/
def rank : Level → Nat
  | sum => 0
  | product => 1
  | power => 2
  | primary => 3

theorem rank_le_next (l : Level) : l.rank ≤ l.next.rank := by
  cases l <;> decide

theorem rank_lt_next {k l : Level} (h : k.rank < l.rank) : k.rank < l.next.rank :=
  Nat.lt_of_lt_of_le h l.rank_le_next

end Level

/-- The level of an arithmetic operator. -/
def levelOf : Op → Level
  | .add | .sub => .sum
  | .mul | .div => .product
  | _ => .power

/-- Every arithmetic operator stands on one level. -/
theorem Level.mem_operators_iff {op : Op} {l : Level} :
    op ∈ l.operators ↔ op.isBinary ∧ levelOf op = l := by
  cases l <;> cases op <;> decide

/-- `Derives l ts p`: the tokens derive from the level `l` and denote `p`. -/
inductive Derives : Level → List Token → Phrase → Prop
  | number {t : Token} {digits : List Char} (h : t.lexeme = .number digits) :
    Derives .primary [t] (.number (Decimal.readLiteral digits))
  /-- The sign of a number stands right before its digits. -/
  | negative {s t : Token} {digits : List Char} (hs : s.lexeme = .op .sub)
    (ht : t.lexeme = .number digits) (hgap : t.position = s.position + 1) :
    Derives .primary [s, t] (.number (-Decimal.readLiteral digits))
  | ident {t : Token} {letters : List Char} (h : t.lexeme = .name letters)
    (hf : Op.function? (String.ofList letters) = none) :
    Derives .primary [t] (.ident (String.ofList letters))
  | group {o c : Token} {ts : List Token} {p : Phrase} (ho : o.lexeme = .opening)
    (hc : c.lexeme = .closing) (h : Derives .sum ts p) : Derives .primary (o :: (ts ++ [c])) p
  | call {f o c : Token} {letters : List Char} {op : Op} {ts : List Token} {p : Phrase}
    (hf : f.lexeme = .name letters) (hop : Op.function? (String.ofList letters) = some op)
    (ho : o.lexeme = .opening) (hc : c.lexeme = .closing) (h : Derives .sum ts p) :
    Derives .primary (f :: o :: (ts ++ [c])) (.call op p)
  | descend {l : Level} {ts : List Token} {p : Phrase} (h : Derives l.next ts p) : Derives l ts p
  | join {l : Level} {o : Token} {op : Op} {ts us : List Token} {p q : Phrase}
    (hop : op ∈ l.operators) (ho : o.lexeme = .op op) (hp : Derives l ts p)
    (hq : Derives l.next us q) : Derives l (ts ++ o :: us) (.binary op p q)

theorem Derives.ne_nil {l : Level} {ts : List Token} {p : Phrase} (h : Derives l ts p) :
    ts ≠ [] := by
  induction h with
  | number | negative | ident | group | call => exact List.cons_ne_nil _ _
  | descend _ ih => exact ih
  | join => exact List.append_ne_nil_of_right_ne_nil _ (List.cons_ne_nil _ _)

/-! ### Brackets -/

/-- How many more brackets a token opens than it closes. -/
def excessOf (t : Token) : Int :=
  match t.lexeme with
  | .opening => 1
  | .closing => -1
  | _ => 0

def excess : List Token → Int
  | [] => 0
  | t :: ts => excessOf t + excess ts

/-- At most `d` brackets are open at any point. -/
def OpenAtMost (d : Int) (ts : List Token) : Prop :=
  ∀ us, us <+: ts → excess us ≤ d

@[simp] theorem excess_nil : excess [] = 0 := rfl

@[simp] theorem excess_cons (t : Token) (ts : List Token) :
    excess (t :: ts) = excessOf t + excess ts := rfl

@[simp] theorem excess_append (ts us : List Token) : excess (ts ++ us) = excess ts + excess us := by
  induction ts with
  | nil => exact (Int.zero_add _).symm
  | cons t ts ih => rw [List.cons_append, excess_cons, excess_cons, ih, Int.add_assoc]

theorem excessOf_op {t : Token} {op : Op} (h : t.lexeme = .op op) : excessOf t = 0 := by
  simp only [excessOf, h]

theorem excessOf_number {t : Token} {digits : List Char} (h : t.lexeme = .number digits) :
    excessOf t = 0 := by
  simp only [excessOf, h]

theorem excessOf_name {t : Token} {letters : List Char} (h : t.lexeme = .name letters) :
    excessOf t = 0 := by
  simp only [excessOf, h]

theorem excessOf_opening {t : Token} (h : t.lexeme = .opening) : excessOf t = 1 := by
  simp only [excessOf, h]

theorem excessOf_closing {t : Token} (h : t.lexeme = .closing) : excessOf t = -1 := by
  simp only [excessOf, h]

/-- Every bracket that a derivation opens it also closes. -/
theorem Derives.balanced {l : Level} {ts : List Token} {p : Phrase} (h : Derives l ts p) :
    excess ts = 0 := by
  induction h with
  | number h => simp [excessOf_number h]
  | negative hs ht _ => simp [excessOf_op hs, excessOf_number ht]
  | ident h _ => simp [excessOf_name h]
  | group ho hc _ ih => simp [excessOf_opening ho, excessOf_closing hc, ih]
  | call hf _ ho hc _ ih => simp [excessOf_name hf, excessOf_opening ho, excessOf_closing hc, ih]
  | descend _ ih => exact ih
  | join _ ho _ _ ihp ihq => simp [excessOf_op ho, ihp, ihq]

namespace OpenAtMost
variable {d : Int} {ts us : List Token} {t o c : Token}

theorem nonneg (h : OpenAtMost d ts) : 0 ≤ d :=
  h [] List.nil_prefix

theorem mono {d' : Int} (h : OpenAtMost d ts) (hd : d ≤ d') : OpenAtMost d' ts :=
  fun us hus => Int.le_trans (h us hus) hd

theorem nil_iff : OpenAtMost d [] ↔ 0 ≤ d := by
  refine ⟨nonneg, fun h us hus => ?_⟩
  rw [List.prefix_nil.1 hus]
  exact h

theorem cons_iff : OpenAtMost d (t :: ts) ↔ 0 ≤ d ∧ OpenAtMost (d - excessOf t) ts := by
  constructor
  · intro h
    refine ⟨h.nonneg, fun us hus => ?_⟩
    have := h (t :: us) (List.cons_prefix_cons.2 ⟨rfl, hus⟩)
    rw [excess_cons] at this
    omega
  · rintro ⟨hd, h⟩ us hus
    cases us with
    | nil => exact hd
    | cons u us =>
      obtain ⟨rfl, hrest⟩ := List.cons_prefix_cons.1 hus
      have := h us hrest
      rw [excess_cons]
      omega

theorem append_iff : OpenAtMost d (ts ++ us) ↔ OpenAtMost d ts ∧ OpenAtMost (d - excess ts) us := by
  induction ts generalizing d with
  | nil =>
    rw [List.nil_append, excess_nil, Int.sub_zero, nil_iff]
    exact ⟨fun h => ⟨h.nonneg, h⟩, fun h => h.2⟩
  | cons t ts ih =>
    rw [List.cons_append, cons_iff, cons_iff, ih, excess_cons, and_assoc, Int.sub_sub]

theorem bracket_iff (ho : o.lexeme = .opening) (hc : c.lexeme = .closing) (h : excess ts = 0) :
    OpenAtMost d (o :: (ts ++ [c])) ↔ OpenAtMost (d - 1) ts := by
  rw [cons_iff, append_iff, cons_iff, nil_iff, excessOf_opening ho, excessOf_closing hc, h]
  refine ⟨fun h => h.2.1, fun h => ?_⟩
  have := h.nonneg
  exact ⟨by omega, h, by omega, by omega⟩

theorem join_iff {op : Op} (ho : o.lexeme = .op op) (h : excess ts = 0) :
    OpenAtMost d (ts ++ o :: us) ↔ OpenAtMost d ts ∧ OpenAtMost d us := by
  rw [append_iff, cons_iff, excessOf_op ho, h, Int.sub_zero, Int.sub_zero]
  exact ⟨fun h => ⟨h.1, h.2.2⟩, fun h => ⟨h.1, h.1.nonneg, h.2⟩⟩

end OpenAtMost

theorem openAtMost_finish {d : Int} {ts : List Token} {last : Nat} :
    OpenAtMost d (ts ++ [⟨.finish, last⟩]) ↔ OpenAtMost d ts ∧ excess ts ≤ d := by
  rw [OpenAtMost.append_iff, OpenAtMost.cons_iff, show excessOf ⟨.finish, last⟩ = 0 from rfl,
    OpenAtMost.nil_iff]
  exact and_congr_right fun _ => ⟨fun h => by omega, fun h => ⟨by omega, by omega⟩⟩

/-- The greatest number of brackets that are open at a point. -/
def nesting : List Token → Int
  | [] => 0
  | t :: ts => max 0 (excessOf t + nesting ts)

theorem openAtMost_iff {d : Int} {ts : List Token} : OpenAtMost d ts ↔ nesting ts ≤ d := by
  induction ts generalizing d with
  | nil => exact OpenAtMost.nil_iff
  | cons t ts ih =>
    rw [OpenAtMost.cons_iff, ih, nesting]
    omega

/-! ### Names -/

/-- The name that a token uses as a variable. -/
def identifier? (t : Token) : Option String :=
  match t.lexeme with
  | .name letters =>
    if (Op.function? (String.ofList letters)).isSome then none else some (String.ofList letters)
  | _ => none

def identifiers (ts : List Token) : List String :=
  ts.filterMap identifier?

/-- `names` lists the members of `ids`, each once, in the order of their first occurrences. -/
structure FirstOccurrences (ids names : List String) : Prop where
  mem_iff : ∀ name, name ∈ names ↔ name ∈ ids
  ordered : names.Pairwise fun a b => ids.idxOf a < ids.idxOf b

/-- `Denotes names p t`: the tree is the phrase with every name replaced by an index that points
at it in the table. -/
inductive Denotes (names : List String) : Phrase → Tree Float → Prop
  | number (x : Float) : Denotes names (.number x) (.num x)
  | ident {name : String} {i : Nat} (h : names[i]? = some name) :
    Denotes names (.ident name) (.var i)
  | binary (op : Op) {p q : Phrase} {l r : Tree Float} (hl : Denotes names p l)
    (hr : Denotes names q r) : Denotes names (.binary op p q) (.binary (.op op) l r)
  | call (op : Op) {p : Phrase} {x : Tree Float} (hx : Denotes names p x) :
    Denotes names (.call op p) (.call (.op op) x)

/-- The tree of a phrase: every name becomes its place in the table. -/
def Phrase.tree (names : List String) : Phrase → Tree Float
  | .number x => .num x
  | .ident name => .var (names.idxOf name)
  | .binary op p q => .binary (.op op) (p.tree names) (q.tree names)
  | .call op p => .call (.op op) (p.tree names)

theorem Denotes.eq_tree {names : List String} (hn : names.Nodup) {p : Phrase} {t : Tree Float}
    (h : Denotes names p t) : t = p.tree names := by
  induction h with
  | number => rfl
  | @ident name i h =>
    obtain ⟨hi, rfl⟩ := List.getElem?_eq_some_iff.1 h
    rw [Phrase.tree, hn.idxOf_getElem i hi]
  | binary _ _ _ ihl ihr => rw [Phrase.tree, ihl, ihr]
  | call _ _ ih => rw [Phrase.tree, ih]

section Names
variable {t : Token} {ts us : List Token}

theorem identifiers_append : identifiers (ts ++ us) = identifiers ts ++ identifiers us :=
  List.filterMap_append

theorem identifiers_cons_of_none (h : identifier? t = none) :
    identifiers (t :: ts) = identifiers ts :=
  List.filterMap_cons_none h

theorem identifier?_ident {letters : List Char} (h : t.lexeme = .name letters)
    (hf : Op.function? (String.ofList letters) = none) :
    identifier? t = some (String.ofList letters) := by
  simp only [identifier?, h, hf, Option.isSome_none, Bool.false_eq_true, if_false]

theorem identifier?_function {letters : List Char} {op : Op} (h : t.lexeme = .name letters)
    (hop : Op.function? (String.ofList letters) = some op) : identifier? t = none := by
  simp only [identifier?, h, hop, Option.isSome_some, if_true]

theorem identifier?_of_ne_name (h : ∀ letters, t.lexeme ≠ .name letters) :
    identifier? t = none := by
  unfold identifier?
  split
  · exact absurd ‹_› (h _)
  · rfl

end Names

/-- The names that a phrase uses, from left to right. -/
def Phrase.idents : Phrase → List String
  | .number _ => []
  | .ident name => [name]
  | .binary _ p q => p.idents ++ q.idents
  | .call _ p => p.idents

theorem Derives.identifiers_eq {l : Level} {ts : List Token} {p : Phrase} (h : Derives l ts p) :
    identifiers ts = p.idents := by
  induction h with
  | number h => exact identifiers_cons_of_none (identifier?_of_ne_name (by rw [h]; nofun))
  | negative hs ht _ =>
    rw [identifiers_cons_of_none (identifier?_of_ne_name (by rw [hs]; nofun))]
    exact identifiers_cons_of_none (identifier?_of_ne_name (by rw [ht]; nofun))
  | ident h hf => exact List.filterMap_cons_some (identifier?_ident h hf)
  | group ho hc _ ih =>
    rw [identifiers_cons_of_none (identifier?_of_ne_name (by rw [ho]; nofun)), identifiers_append,
      identifiers_cons_of_none (identifier?_of_ne_name (by rw [hc]; nofun)), ih]
    exact List.append_nil _
  | call hf hop ho hc _ ih =>
    rw [identifiers_cons_of_none (identifier?_function hf hop),
      identifiers_cons_of_none (identifier?_of_ne_name (by rw [ho]; nofun)), identifiers_append,
      identifiers_cons_of_none (identifier?_of_ne_name (by rw [hc]; nofun)), ih]
    exact List.append_nil _
  | descend _ ih => exact ih
  | join _ ho _ _ ihp ihq =>
    rw [identifiers_append, identifiers_cons_of_none (identifier?_of_ne_name (by rw [ho]; nofun)),
      ihp, ihq]
    rfl

theorem Phrase.denotes_tree {names : List String} (p : Phrase)
    (h : ∀ name ∈ p.idents, name ∈ names) : Denotes names p (p.tree names) := by
  induction p with
  | number x => exact .number x
  | ident name =>
    have hlt := List.idxOf_lt_length_of_mem (h name List.mem_cons_self)
    exact .ident (List.getElem?_eq_some_iff.2 ⟨hlt, List.getElem_idxOf hlt⟩)
  | binary op p q ihp ihq =>
    rw [Phrase.idents, List.forall_mem_append] at h
    exact .binary op (ihp h.1) (ihq h.2)
  | call op p ih => exact .call op (ih h)

end FormulaCalculus.Formula
