import FormulaCalculus.Proofs.Formula.Grammar
import Mathlib.Tactic.SplitIfs

/-!
# The steps of the reader

`Step` is the reader's step as a relation with one rule for each thing that a token can do;
`step_eq_ok_iff` says that these are all, and `fails_of_step` does the same for steps that fail.
What waits in a state is looked at level by level, and the number of open brackets follows the
tokens.
-/

namespace FormulaCalculus.Formula

namespace Waiting
variable {k l : Level} {op : Op} {w w' : Waiting} {x : Tree Float}

/-- The left operand that waits on a level, with its operator. -/
def slot (w : Waiting) : Level → Option (Op × Tree Float)
  | .sum => w.sum
  | .product => w.product
  | .power => w.power.map (Op.pow, ·)
  | .primary => none

/-- An operand together with all that waits for it on a level and on the tighter ones. -/
def close (w : Waiting) : Level → Tree Float → Tree Float
  | .sum => w.closeSum
  | .product => w.closeProduct
  | .power => w.closePower
  | .primary => id

theorem close_eq_join (w : Waiting) (l : Level) (x : Tree Float) :
    w.close l x = join (w.slot l) (w.close l.next x) := by
  cases l <;> rfl

theorem slot_empty (l : Level) : ({} : Waiting).slot l = none := by
  cases l <;> rfl

/-- The level of an operator is the only one with it. -/
theorem mem_operators_cases (h : op ∈ l.operators) :
    l = .sum ∧ op.precedence = 1 ∨ l = .product ∧ op.precedence = 2 ∨
      l = .power ∧ op = .pow ∧ op.precedence = 3 := by
  cases l <;> simp only [Level.operators, List.mem_cons, List.not_mem_nil, or_false] at h
  · rcases h with rfl | rfl <;> exact Or.inl ⟨rfl, rfl⟩
  · rcases h with rfl | rfl <;> exact Or.inr (Or.inl ⟨rfl, rfl⟩)
  · subst h; exact Or.inr (Or.inr ⟨rfl, rfl, rfl⟩)

theorem slot_push_self (h : op ∈ l.operators) : (w.push op x).slot l = some (op, w.close l x) := by
  rcases mem_operators_cases h with ⟨rfl, hp⟩ | ⟨rfl, hp⟩ | ⟨rfl, rfl, -⟩
  · simp only [push, hp, slot, close]
  · simp only [push, hp, slot, close]
  · rfl

theorem slot_push_of_lt (h : op ∈ l.operators) (hk : k.rank < l.rank) :
    (w.push op x).slot k = w.slot k := by
  rcases mem_operators_cases h with ⟨rfl, hp⟩ | ⟨rfl, hp⟩ | ⟨rfl, -, hp⟩ <;>
    cases k <;> first | exact absurd hk (by decide) | simp only [push, hp, slot]

theorem slot_push_of_gt (h : op ∈ l.operators) (hk : l.rank < k.rank) :
    (w.push op x).slot k = none := by
  rcases mem_operators_cases h with ⟨rfl, hp⟩ | ⟨rfl, hp⟩ | ⟨rfl, -, hp⟩ <;>
    cases k <;> first | exact absurd hk (by decide) | simp only [push, hp, slot, Option.map_none]

end Waiting

/-- The operand that a mode holds. -/
inductive Holds (names : List String) : Mode → Tree Float → Prop
  | operator (x : Tree Float) : Holds names (.operator x) x
  | ident (name : String) (position : Nat) :
    Holds names (.variable name position) (.var (names.idxOf name))
  | done (x : Tree Float) : Holds names (.done x) x

/-- What a bracket makes of its content. -/
def around : Option Op → Tree Float → Tree Float
  | some op, x => .call (.op op) x
  | none, x => x

/-- All that a token can do to a state. -/
inductive Step (limit : Count) (names : List String) : State → Token → State → Prop
  | number {bs : List Bracket} {w : Waiting} {t : Token} {digits : List Char}
    (h : t.lexeme = .number digits) :
    Step limit names ⟨bs, w, .operand⟩ t ⟨bs, w, .operator (.num (Decimal.readLiteral digits))⟩
  | sign {bs : List Bracket} {w : Waiting} {t : Token} (h : t.lexeme = .op .sub) :
    Step limit names ⟨bs, w, .operand⟩ t ⟨bs, w, .sign t.position⟩
  | negative {bs : List Bracket} {w : Waiting} {t : Token} {digits : List Char} {position : Nat}
    (h : t.lexeme = .number digits) (hgap : t.position = position + 1) :
    Step limit names ⟨bs, w, .sign position⟩ t
      ⟨bs, w, .operator (.num (-Decimal.readLiteral digits))⟩
  | function {bs : List Bracket} {w : Waiting} {t : Token} {letters : List Char} {op : Op}
    (h : t.lexeme = .name letters) (hop : Op.function? (String.ofList letters) = some op) :
    Step limit names ⟨bs, w, .operand⟩ t ⟨bs, w, .function op t.position⟩
  | ident {bs : List Bracket} {w : Waiting} {t : Token} {letters : List Char}
    (h : t.lexeme = .name letters) (hf : Op.function? (String.ofList letters) = none) :
    Step limit names ⟨bs, w, .operand⟩ t ⟨bs, w, .variable (String.ofList letters) t.position⟩
  | group {bs : List Bracket} {w : Waiting} {t : Token} (h : t.lexeme = .opening)
    (hl : (bs.length : Int) + 1 ≤ limit.value) (hm : bs.length + 1 ≤ Tree.maxDepth) :
    Step limit names ⟨bs, w, .operand⟩ t ⟨⟨w, none, t.position⟩ :: bs, {}, .operand⟩
  | call {bs : List Bracket} {w : Waiting} {t : Token} {op : Op} {position : Nat}
    (h : t.lexeme = .opening) (hl : (bs.length : Int) + 1 ≤ limit.value)
    (hm : bs.length + 1 ≤ Tree.maxDepth) :
    Step limit names ⟨bs, w, .function op position⟩ t
      ⟨⟨w, some op, t.position⟩ :: bs, {}, .operand⟩
  | operator {bs : List Bracket} {w : Waiting} {m : Mode} {x : Tree Float} {t : Token} {op : Op}
    (hx : Holds names m x) (h : t.lexeme = .op op) :
    Step limit names ⟨bs, w, m⟩ t ⟨bs, w.push op x, .operand⟩
  | close {b : Bracket} {bs : List Bracket} {w : Waiting} {m : Mode} {x : Tree Float} {t : Token}
    (hx : Holds names m x) (h : t.lexeme = .closing) :
    Step limit names ⟨b :: bs, w, m⟩ t
      ⟨bs, b.outside, .operator (around b.function (w.closeSum x))⟩
  | finish {w : Waiting} {m : Mode} {x : Tree Float} {t : Token} (hx : Holds names m x)
    (h : t.lexeme = .finish) : Step limit names ⟨[], w, m⟩ t ⟨[], w, .done (w.closeSum x)⟩

section Steps
variable {limit : Count} {names : List String} {s s' : State} {t : Token} {ts : List Token}

theorem open?_eq_ok {function : Option Op} {position : Nat}
    (h : s.open? limit function position = .ok s') :
    (s.brackets.length : Int) + 1 ≤ limit.value ∧ s.brackets.length + 1 ≤ Tree.maxDepth ∧
      s' = ⟨⟨s.waiting, function, position⟩ :: s.brackets, {}, .operand⟩ := by
  simp only [State.open?] at h
  split_ifs at h with hl hm
  cases h
  exact ⟨by omega, by omega, rfl⟩

theorem open?_of_le {function : Option Op} {position : Nat}
    (hl : (s.brackets.length : Int) + 1 ≤ limit.value)
    (hm : s.brackets.length + 1 ≤ Tree.maxDepth) :
    s.open? limit function position =
      .ok ⟨⟨s.waiting, function, position⟩ :: s.brackets, {}, .operand⟩ := by
  have hl' : ¬ limit.value < ((s.brackets.length + 1 : Nat) : Int) := by omega
  have hm' : ¬ Tree.maxDepth < s.brackets.length + 1 := by omega
  simp only [State.open?, if_neg hl', if_neg hm']

theorem open?_of_gt {function : Option Op} {position : Nat}
    (hl : (s.brackets.length : Int) + 1 ≤ limit.value)
    (hm : ¬s.brackets.length + 1 ≤ Tree.maxDepth) :
    s.open? limit function position = .error .recursion := by
  have hl' : ¬ limit.value < ((s.brackets.length + 1 : Nat) : Int) := by omega
  simp only [State.open?, if_neg hl', if_pos (Nat.lt_of_not_le hm)]

theorem step_of_operator? {bs : List Bracket} {w : Waiting} {m : Mode} {x : Tree Float}
    (hx : Holds names m x) (h : State.operator? ⟨bs, w, m⟩ x t = .ok s') :
    Step limit names ⟨bs, w, m⟩ t s' := by
  simp only [State.operator?] at h
  split at h
  · cases h; exact .operator hx (by assumption)
  · cases h
    rename_i b bs hc
    obtain ⟨outside, _ | op, position⟩ := b <;> exact .close hx hc
  · cases h
  · cases h; exact .finish hx (by assumption)
  · cases h
  · cases h

theorem Step.of_eq_ok (h : State.step limit names s t = .ok s') : Step limit names s t s' := by
  obtain ⟨bs, w, m⟩ := s
  cases m with
  | operand =>
    simp only [State.step, State.operand?] at h
    split at h
    · cases h; exact .number (by assumption)
    · split at h <;> cases h
      · exact .function (by assumption) (by assumption)
      · exact .ident (by assumption) (by assumption)
    · cases h; exact .sign (by assumption)
    · obtain ⟨hl, hm, rfl⟩ := open?_eq_ok h
      exact .group (by assumption) hl hm
    · cases h
    · cases h
  | sign position =>
    simp only [State.step] at h
    split at h
    · split_ifs at h with hgap
      cases h; exact .negative (by assumption) hgap
    · cases h
  | function op position =>
    simp only [State.step] at h
    split_ifs at h with ho
    obtain ⟨hl, hm, rfl⟩ := open?_eq_ok h
    exact .call ho hl hm
  | «variable» name position =>
    simp only [State.step] at h
    split_ifs at h
    exact step_of_operator? (.ident name position) h
  | operator x => exact step_of_operator? (.operator x) h
  | done x => exact step_of_operator? (.done x) h

theorem step_holds {bs : List Bracket} {w : Waiting} {m : Mode} {x : Tree Float}
    (hx : Holds names m x) (ht : t.lexeme ≠ .opening) :
    State.step limit names ⟨bs, w, m⟩ t = State.operator? ⟨bs, w, m⟩ x t := by
  cases hx with
  | operator | done => rfl
  | ident => simp only [State.step, if_neg ht]

theorem Step.eq_ok (h : Step limit names s t s') : State.step limit names s t = .ok s' := by
  cases h with
  | number h => simp only [State.step, State.operand?, h, State.complete]
  | sign h => simp only [State.step, State.operand?, h]
  | negative h hgap => simp only [State.step, h, if_pos hgap, State.complete]
  | function h hop => simp only [State.step, State.operand?, h, hop]
  | ident h hf => simp only [State.step, State.operand?, h, hf]
  | group h hl hm =>
    simp only [State.step, State.operand?, h]
    exact open?_of_le hl hm
  | call h hl hm =>
    simp only [State.step, if_pos h]
    exact open?_of_le hl hm
  | operator hx h =>
    rw [step_holds hx (by rw [h]; nofun)]
    simp only [State.operator?, h]
  | @close b _ _ _ _ _ hx h =>
    rw [step_holds hx (by rw [h]; nofun)]
    obtain ⟨outside, _ | op, position⟩ := b <;> simp only [State.operator?, h, around]
  | finish hx h =>
    rw [step_holds hx (by rw [h]; nofun)]
    simp only [State.operator?, h]

theorem step_eq_ok_iff : State.step limit names s t = .ok s' ↔ Step limit names s t s' :=
  ⟨Step.of_eq_ok, Step.eq_ok⟩

end Steps

/-! ### Steps that fail -/

/-- A token was read that cannot be an operand by itself, at the position. -/
inductive Pending : Mode → Nat → Prop
  | sign (position : Nat) : Pending (.sign position) position
  | function (op : Op) (position : Nat) : Pending (.function op position) position
  | ident (name : String) (position : Nat) : Pending (.variable name position) position

/-- All ways in which a token can make a step fail. -/
inductive Fails (limit : Count) (names : List String) (s : State) (t : Token) : Fault → Prop
  | refused : Fails limit names s t (.formula (.nestedTooDeeply limit) t.position)
  | exhausted (h : t.lexeme = .opening) (hl : (s.brackets.length : Int) + 1 ≤ limit.value)
    (hm : Tree.maxDepth < s.brackets.length + 1) : Fails limit names s t .recursion
  | due {f : SyntaxFault} (h : s.mode = .operand) : Fails limit names s t (.formula f t.position)
  | pending {f : SyntaxFault} {position : Nat} (h : Pending s.mode position) :
    Fails limit names s t (.formula f position)
  | held {f : SyntaxFault} {x : Tree Float} (h : Holds names s.mode x) :
    Fails limit names s t (.formula f t.position)

section Failing
variable {limit : Count} {names : List String} {s : State} {t : Token} {fault : Fault}

theorem fails_of_open? {function : Option Op} (ht : t.lexeme = .opening)
    (h : s.open? limit function t.position = .error fault) : Fails limit names s t fault := by
  simp only [State.open?] at h
  split_ifs at h with hl hm
  · cases h; exact .refused
  · cases h; exact .exhausted ht (by omega) hm

theorem fails_of_operand? (hs : s.mode = .operand) (h : s.operand? limit t = .error fault) :
    Fails limit names s t fault := by
  simp only [State.operand?] at h
  split at h
  · cases h
  · split at h <;> cases h
  · cases h
  · exact fails_of_open? (by assumption) h
  · cases h; exact .due hs
  · cases h; exact .due hs

theorem fails_of_operator? {x : Tree Float} (hx : Holds names s.mode x)
    (h : s.operator? x t = .error fault) : Fails limit names s t fault := by
  simp only [State.operator?] at h
  split at h
  · cases h
  · cases h
  · cases h; exact .held hx
  · cases h
  · cases h; exact .held hx
  · cases h; exact .held hx

theorem fails_of_step (h : State.step limit names s t = .error fault) :
    Fails limit names s t fault := by
  obtain ⟨bs, w, m⟩ := s
  cases m with
  | operand => exact fails_of_operand? rfl h
  | sign position =>
    simp only [State.step] at h
    split at h
    · split_ifs at h
      cases h; exact .pending (.sign position)
    · cases h; exact .pending (.sign position)
  | function op position =>
    simp only [State.step] at h
    split_ifs at h with ht
    · exact fails_of_open? ht h
    · cases h; exact .pending (.function op position)
  | «variable» name position =>
    simp only [State.step] at h
    split_ifs at h
    · cases h; exact .pending (.ident name position)
    · exact fails_of_operator? (.ident name position) h
  | operator x => exact fails_of_operator? (.operator x) h
  | done x => exact fails_of_operator? (.done x) h

end Failing

/-! ### Runs -/

/-- Reading the tokens leads from one state to the other. -/
def Run (limit : Count) (names : List String) (s : State) (ts : List Token) (s' : State) : Prop :=
  ts.foldlM (State.step limit names) s = .ok s'

/-- Reading the tokens exhausts the stack. -/
def Exhausts (limit : Count) (names : List String) (s : State) (ts : List Token) : Prop :=
  ts.foldlM (State.step limit names) s = .error .recursion

/-- The number of brackets that may be open; a limit below zero allows none. -/
def mostOpen (limit : Count) : Int :=
  max limit.value 0

section Runs
variable {limit : Count} {names : List String} {s s₁ s' : State} {t : Token} {ts us : List Token}

theorem run_nil_iff : Run limit names s [] s' ↔ s = s' := by
  simp only [Run, List.foldlM_nil, pure, Except.pure, Except.ok.injEq]

theorem run_cons_iff : Run limit names s (t :: ts) s' ↔
    ∃ s₁, Step limit names s t s₁ ∧ Run limit names s₁ ts s' := by
  simp only [Run, List.foldlM_cons, ← step_eq_ok_iff]
  cases State.step limit names s t with
  | ok s₁ => simp only [bind, Except.bind, Except.ok.injEq, exists_eq_left']
  | error e => simp only [bind, Except.bind, reduceCtorEq, false_and, exists_false]

theorem run_append_iff : Run limit names s (ts ++ us) s' ↔
    ∃ s₁, Run limit names s ts s₁ ∧ Run limit names s₁ us s' := by
  induction ts generalizing s with
  | nil => simp only [List.nil_append, run_nil_iff, exists_eq_left']
  | cons t ts ih =>
    simp only [List.cons_append, run_cons_iff, ih]
    exact ⟨fun ⟨a, ha, b, hb, hu⟩ => ⟨b, ⟨a, ha, hb⟩, hu⟩,
      fun ⟨b, ⟨a, ha, hb⟩, hu⟩ => ⟨a, ha, b, hb, hu⟩⟩

theorem run_singleton_iff : Run limit names s [t] s' ↔ Step limit names s t s' := by
  simp only [run_cons_iff, run_nil_iff, exists_eq_right]

theorem Run.cons (h : Step limit names s t s₁) (hr : Run limit names s₁ ts s') :
    Run limit names s (t :: ts) s' :=
  run_cons_iff.2 ⟨s₁, h, hr⟩

theorem Run.append (h : Run limit names s ts s₁) (hr : Run limit names s₁ us s') :
    Run limit names s (ts ++ us) s' :=
  run_append_iff.2 ⟨s₁, h, hr⟩

/-- The open brackets follow the tokens, and the limit and the stack bound them. -/
theorem Step.length_brackets (h : Step limit names s t s') :
    (s'.brackets.length : Int) = s.brackets.length + excessOf t ∧
      (s'.brackets.length : Int) ≤ max (min limit.value Tree.maxDepth) s.brackets.length := by
  cases h with
  | number h | negative h => simp only [excessOf_number h]; omega
  | sign h | operator _ h => simp only [excessOf_op h]; omega
  | function h | ident h => simp only [excessOf_name h]; omega
  | group h hl hm | call h hl hm => simp only [excessOf_opening h, List.length_cons]; omega
  | close _ h => simp only [excessOf_closing h, List.length_cons]; omega
  | finish _ h => simp only [excessOf, h]; omega

theorem Run.length_brackets (h : Run limit names s ts s') :
    (s'.brackets.length : Int) = s.brackets.length + excess ts ∧
      OpenAtMost
        (max (min limit.value Tree.maxDepth) s.brackets.length - s.brackets.length) ts := by
  induction ts generalizing s with
  | nil =>
    rw [← run_nil_iff.1 h, excess_nil, OpenAtMost.nil_iff]
    omega
  | cons t ts ih =>
    obtain ⟨s₁, ht, hr⟩ := run_cons_iff.1 h
    have hstep := ht.length_brackets
    obtain ⟨hlen, hopen⟩ := ih hr
    rw [excess_cons, OpenAtMost.cons_iff]
    exact ⟨by omega, by omega, hopen.mono (by omega)⟩

/-- A run that fails stops at one of its tokens. -/
theorem exists_of_foldlM_eq_error {fault : Fault}
    (h : ts.foldlM (State.step limit names) s = .error fault) :
    ∃ pre t post s', ts = pre ++ t :: post ∧ Run limit names s pre s' ∧
      Fails limit names s' t fault := by
  induction ts generalizing s with
  | nil => cases h
  | cons t ts ih =>
    rw [List.foldlM_cons] at h
    cases hs : State.step limit names s t with
    | error f =>
      rw [hs] at h
      cases h
      exact ⟨[], t, ts, s, rfl, run_nil_iff.2 rfl, fails_of_step hs⟩
    | ok s₁ =>
      rw [hs] at h
      obtain ⟨pre, u, post, s', rfl, hrun, hfail⟩ := ih h
      exact ⟨t :: pre, u, post, s', rfl, .cons (step_eq_ok_iff.1 hs) hrun, hfail⟩

theorem Exhausts.cons (h : Step limit names s t s₁) (he : Exhausts limit names s₁ ts) :
    Exhausts limit names s (t :: ts) := by
  rw [Exhausts, List.foldlM_cons, h.eq_ok]
  exact he

theorem Exhausts.cons_of_error (h : State.step limit names s t = .error .recursion) :
    Exhausts limit names s (t :: ts) := by
  rw [Exhausts, List.foldlM_cons, h]
  rfl

theorem Exhausts.append_right (h : Exhausts limit names s ts) (us : List Token) :
    Exhausts limit names s (ts ++ us) := by
  rw [Exhausts, List.foldlM_append, h]
  rfl

theorem Run.append_exhausts (h : Run limit names s ts s₁) (he : Exhausts limit names s₁ us) :
    Exhausts limit names s (ts ++ us) := by
  rw [Exhausts, List.foldlM_append, h]
  exact he

/-- Only brackets exhaust the stack. -/
theorem Exhausts.not_openAtMost (h : Exhausts limit names s ts) :
    ¬OpenAtMost (Tree.maxDepth - s.brackets.length) ts := by
  induction ts generalizing s with
  | nil => cases h
  | cons t ts ih =>
    rw [Exhausts, List.foldlM_cons] at h
    rw [OpenAtMost.cons_iff]
    rintro ⟨-, hopen⟩
    cases hs : State.step limit names s t with
    | ok s₁ =>
      rw [hs] at h
      have := (step_eq_ok_iff.1 hs).length_brackets
      exact ih h (hopen.mono (by omega))
    | error e =>
      rw [hs] at h
      cases h
      cases fails_of_step hs with
      | exhausted ho _ hdeep =>
        have := hopen.nonneg
        rw [excessOf_opening ho] at this
        omega

end Runs

end FormulaCalculus.Formula
