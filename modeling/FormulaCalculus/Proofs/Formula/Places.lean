import FormulaCalculus.Proofs.Formula.Acceptance

/-!
# Reading does not depend on places

Of the positions of tokens the reader uses one thing: whether a number stands right behind a minus.
On two token lists that agree in this and in their lexemes it goes through states that differ in the
positions that they keep, and it ends with the same tree or objects at corresponding tokens:
`readTokens_parallel`.
-/

namespace FormulaCalculus.Formula

/-- The token is a number right behind a minus. -/
def isSigned (before : Option Token) (t : Token) : Bool :=
  match before, t.lexeme with
  | some ⟨.op .sub, position⟩, .number _ => t.position == position + 1
  | _, _ => false

/-- The lexemes of the tokens, each with a mark if it is a number right behind a minus. -/
def marks (before : Option Token) : List Token → List (Lexeme × Bool)
  | [] => []
  | t :: ts => (t.lexeme, isSigned before t) :: marks (some t) ts

theorem map_fst_marks (before : Option Token) (ts : List Token) :
    (marks before ts).map Prod.fst = ts.map (·.lexeme) := by
  induction ts generalizing before with
  | nil => rfl
  | cons t ts ih => rw [marks, List.map_cons, List.map_cons, ih]

theorem lexemes_eq_of_marks {ts us : List Token} (h : marks none ts = marks none us) :
    ts.map (·.lexeme) = us.map (·.lexeme) := by
  rw [← map_fst_marks none, ← map_fst_marks none, h]

/-! ### States that differ in places -/

section Parallel
variable (R : Nat → Nat → Prop)

/-- Brackets that differ in their places at most. -/
structure Bracket.Parallel (b b' : Bracket) : Prop where
  outside : b.outside = b'.outside
  function : b.function = b'.function
  position : R b.position b'.position

/-- Modes that differ in their places at most; a sign stands where the last token does. -/
inductive Mode.Parallel : Option Token → Option Token → Mode → Mode → Prop
  | operand {a a' : Option Token} : Parallel a a' .operand .operand
  | sign {p p' : Nat} (h : R p p') :
    Parallel (some ⟨.op .sub, p⟩) (some ⟨.op .sub, p'⟩) (.sign p) (.sign p')
  | function {a a' : Option Token} {p p' : Nat} (op : Op) (h : R p p') :
    Parallel a a' (.function op p) (.function op p')
  | ident {a a' : Option Token} {p p' : Nat} (name : String) (h : R p p') :
    Parallel a a' (.variable name p) (.variable name p')
  | operator {a a' : Option Token} (x : Tree Float) : Parallel a a' (.operator x) (.operator x)
  | done {a a' : Option Token} (x : Tree Float) : Parallel a a' (.done x) (.done x)

structure State.Parallel (a a' : Option Token) (s s' : State) : Prop where
  brackets : List.Forall₂ (Bracket.Parallel R) s.brackets s'.brackets
  waiting : s.waiting = s'.waiting
  mode : Mode.Parallel R a a' s.mode s'.mode

/-- Objections to a formula that differ in their places. -/
inductive SameFault : Fault → Fault → Prop
  | exhausted : SameFault .recursion .recursion
  | empty : SameFault (.formula .emptyFormula 0) (.formula .emptyFormula 0)
  | place {f : SyntaxFault} {p p' : Nat} (h : R p p') : SameFault (.formula f p) (.formula f p')
  | unmatched {q q' p p' : Nat} (hopen : R q q') (h : R p p') :
    SameFault (.formula (.unmatchedOpen q) p) (.formula (.unmatchedOpen q') p')

/-- Both fail by corresponding faults, or both succeed as the relation says. -/
inductive SameResult {α : Type} (S : α → α → Prop) : Except Fault α → Except Fault α → Prop
  | ok {x y : α} (h : S x y) : SameResult S (.ok x) (.ok y)
  | error {f g : Fault} (h : SameFault R f g) : SameResult S (.error f) (.error g)

end Parallel

theorem SameResult.bind {R : Nat → Nat → Prop} {α β : Type} {S : α → α → Prop} {T : β → β → Prop}
    {x y : Except Fault α} {f g : α → Except Fault β} (h : SameResult R S x y)
    (hfg : ∀ a b, x = .ok a → S a b → SameResult R T (f a) (g b)) :
    SameResult R T (x >>= f) (y >>= g) := by
  rcases h with h | h
  · exact hfg _ _ rfl h
  · exact .error h

section Equal
variable {R : Nat → Nat → Prop} {α : Type} {x y : Except Fault α}

theorem SameResult.ok_iff (h : SameResult R Eq x y) {a : α} : x = .ok a ↔ y = .ok a := by
  rcases h with rfl | h
  · exact Iff.rfl
  · exact ⟨nofun, nofun⟩

theorem SameResult.fault (h : SameResult R Eq x y) {f g : Fault} (hx : x = .error f)
    (hy : y = .error g) : SameFault R f g := by
  rcases h with h | h
  · cases hx
  · cases hx
    cases hy
    exact h

end Equal

section Steps
variable {R : Nat → Nat → Prop} {limit : Count} {names : List String} {s s' : State} {l : Lexeme}
  {p p' : Nat} {a a' : Option Token} {t t' : Token} {ts ts' : List Token}

theorem open?_parallel (function : Option Op)
    (hbrackets : List.Forall₂ (Bracket.Parallel R) s.brackets s'.brackets)
    (hwaiting : s.waiting = s'.waiting) (h : R p p') :
    SameResult R (State.Parallel R a a') (s.open? limit function p)
      (s'.open? limit function p') := by
  simp only [State.open?, hbrackets.length_eq]
  split
  · exact .error (.place h)
  split
  · exact .error .exhausted
  · exact .ok ⟨.cons ⟨hwaiting, rfl, h⟩ hbrackets, rfl, .operand⟩

theorem operator?_parallel (x : Tree Float)
    (hbrackets : List.Forall₂ (Bracket.Parallel R) s.brackets s'.brackets)
    (hwaiting : s.waiting = s'.waiting) (h : R p p') :
    SameResult R (State.Parallel R a a') (s.operator? x ⟨l, p⟩) (s'.operator? x ⟨l, p'⟩) := by
  obtain ⟨bs, w, m⟩ := s
  obtain ⟨bs', w', m'⟩ := s'
  obtain rfl : w = w' := hwaiting
  cases l with
  | op op => exact .ok ⟨hbrackets, rfl, .operand⟩
  | closing =>
    rcases hbrackets with _ | ⟨hb, hbrackets⟩
    · exact .error (.place h)
    · rename_i b b' bs bs'
      obtain ⟨outside, function, q⟩ := b
      obtain ⟨outside', function', q'⟩ := b'
      obtain rfl : outside = outside' := hb.outside
      obtain rfl : function = function' := hb.function
      exact .ok ⟨hbrackets, rfl, .operator _⟩
  | finish =>
    rcases hbrackets with _ | ⟨hb, hbrackets⟩
    · exact .ok ⟨.nil, rfl, .done _⟩
    · exact .error (.unmatched hb.position h)
  | number | name | opening =>
    rcases hbrackets with _ | ⟨hb, hbrackets⟩
    · exact .error (.place h)
    · exact .error (.unmatched hb.position h)

theorem operand?_parallel (hbrackets : List.Forall₂ (Bracket.Parallel R) s.brackets s'.brackets)
    (hwaiting : s.waiting = s'.waiting) (h : R p p') :
    SameResult R (State.Parallel R (some ⟨l, p⟩) (some ⟨l, p'⟩)) (s.operand? limit ⟨l, p⟩)
      (s'.operand? limit ⟨l, p'⟩) := by
  cases l with
  | number digits => exact .ok ⟨hbrackets, hwaiting, .operator _⟩
  | name letters =>
    simp only [State.operand?]
    split
    · exact .ok ⟨hbrackets, hwaiting, .function _ h⟩
    · exact .ok ⟨hbrackets, hwaiting, .ident _ h⟩
  | op op =>
    cases op with
    | sub => exact .ok ⟨hbrackets, hwaiting, .sign h⟩
    | _ => exact .error (.place h)
  | opening => exact open?_parallel none hbrackets hwaiting h
  | closing => exact .error (.place h)
  | finish => exact .error (.place h)

/-- A step on corresponding tokens. -/
theorem step_parallel (hs : State.Parallel R a a' s s') (hl : t.lexeme = t'.lexeme)
    (hsigned : isSigned a t = isSigned a' t') (h : R t.position t'.position) :
    SameResult R (State.Parallel R (some t) (some t')) (State.step limit names s t)
      (State.step limit names s' t') := by
  obtain ⟨l, p⟩ := t
  obtain ⟨l', p'⟩ := t'
  obtain rfl : l = l' := hl
  obtain ⟨bs, w, m⟩ := s
  obtain ⟨bs', w', m'⟩ := s'
  obtain ⟨hbrackets, hwaiting, hm⟩ := hs
  rcases hm with _ | hq | ⟨op, hq⟩ | ⟨name, hq⟩ | x | x
  · exact operand?_parallel hbrackets hwaiting h
  · rename_i q q'
    cases l with
    | number digits =>
      have hiff : p = q + 1 ↔ p' = q' + 1 := by simpa [isSigned] using hsigned
      simp only [State.step]
      by_cases hgap : p = q + 1
      · rw [if_pos hgap, if_pos (hiff.1 hgap)]
        exact .ok ⟨hbrackets, hwaiting, .operator _⟩
      · rw [if_neg hgap, if_neg (mt hiff.2 hgap)]
        exact .error (.place hq)
    | _ => exact .error (.place hq)
  · simp only [State.step]
    split
    · exact open?_parallel (some op) hbrackets hwaiting h
    · exact .error (.place hq)
  · simp only [State.step]
    split
    · exact .error (.place hq)
    · exact operator?_parallel _ hbrackets hwaiting h
  · exact operator?_parallel x hbrackets hwaiting h
  · exact operator?_parallel x hbrackets hwaiting h

/-- Runs over corresponding tokens. -/
theorem foldlM_parallel (hs : State.Parallel R a a' s s') (hmarks : marks a ts = marks a' ts')
    (h : List.Forall₂ (fun t t' : Token => R t.position t'.position) ts ts') :
    SameResult R (fun s s' => ∃ b b', State.Parallel R b b' s s')
      (ts.foldlM (State.step limit names) s) (ts'.foldlM (State.step limit names) s') := by
  induction h generalizing s s' a a' with
  | nil => exact .ok ⟨a, a', hs⟩
  | @cons t t' ts ts' ht _ ih =>
    rw [marks, marks, List.cons.injEq, Prod.mk.injEq] at hmarks
    obtain ⟨⟨hl, hsigned⟩, hmarks⟩ := hmarks
    rw [List.foldlM_cons, List.foldlM_cons]
    exact (step_parallel hs hl hsigned ht).bind fun _ _ _ hs₁ => ih hs₁ hmarks

end Steps

/-! ### Readings -/

section Readings
variable {tokens tokens' : List Token}

/-- The places of corresponding tokens. -/
def Places (tokens tokens' : List Token) (p p' : Nat) : Prop :=
  ∃ (i : Nat) (t t' : Token), tokens[i]? = some t ∧ tokens'[i]? = some t' ∧ t.position = p ∧
    t'.position = p'

theorem forall₂_places (h : tokens.length = tokens'.length) :
    List.Forall₂ (fun t t' : Token => Places tokens tokens' t.position t'.position) tokens
      tokens' := by
  refine List.forall₂_iff_get.2 ⟨h, fun i hi hi' => ?_⟩
  exact ⟨i, tokens[i], tokens'[i], List.getElem?_eq_getElem hi, List.getElem?_eq_getElem hi', rfl,
    rfl⟩

theorem variableNames_congr (h : tokens.map (·.lexeme) = tokens'.map (·.lexeme)) :
    variableNames tokens = variableNames tokens' := by
  have hids (ts : List Token) : identifiers ts =
      (ts.map (·.lexeme)).filterMap fun l => identifier? ⟨l, 0⟩ := by
    rw [List.filterMap_map]
    rfl
  rw [variableNames_eq, variableNames_eq, hids, hids, h]

theorem Step.mode_of_finish {limit : Count} {names : List String} {s s' : State} {t : Token}
    (h : Step limit names s t s') (ht : t.lexeme = .finish) : ∃ x, s'.mode = .done x := by
  cases h with
  | finish => exact ⟨_, rfl⟩
  | number h | sign h | negative h | function h | ident h | group h | call h | operator _ h
  | close _ h => rw [ht] at h; cases h

theorem readTokens_of_ne {limit : Count} {names : List String}
    (h : tokens.map (·.lexeme) ≠ [.finish]) : readTokens limit names tokens = (do
      let s ← List.foldlM (State.step limit names) {} tokens
      match s.mode with
      | .done t => return t
      | _ => .error (.formula .missingLastOperand 0)) := by
  unfold readTokens
  split
  · exact absurd rfl h
  · rfl

/-- The same tree, or objections at corresponding tokens. -/
theorem readTokens_parallel (limit : Count) (names : List String) {ts : List Token} {last : Nat}
    (htokens : tokens = ts ++ [⟨.finish, last⟩]) (h : marks none tokens = marks none tokens') :
    SameResult (Places tokens tokens') Eq (readTokens limit names tokens)
      (readTokens limit names tokens') := by
  have hlexemes := lexemes_eq_of_marks h
  have hlength : tokens.length = tokens'.length := by simpa using congrArg List.length hlexemes
  by_cases hempty : tokens.map (·.lexeme) = [.finish]
  · have hempty' : tokens'.map (·.lexeme) = [.finish] := hlexemes ▸ hempty
    obtain ⟨⟨_, p⟩, rfl, rfl⟩ := List.map_eq_singleton_iff.1 hempty
    obtain ⟨⟨_, p'⟩, rfl, rfl⟩ := List.map_eq_singleton_iff.1 hempty'
    exact .error .empty
  rw [readTokens_of_ne hempty, readTokens_of_ne (hlexemes ▸ hempty)]
  refine (foldlM_parallel ⟨.nil, rfl, .operand⟩ h (forall₂_places hlength)).bind ?_
  rintro s s' hrun ⟨a, a', -, -, hmode⟩
  -- The mark of the end, which comes last, leaves the reader done.
  rw [htokens] at hrun
  obtain ⟨s₁, -, hlast⟩ := run_append_iff.1 hrun
  obtain ⟨x, hx⟩ := (run_singleton_iff.1 hlast).mode_of_finish rfl
  rw [hx] at hmode ⊢
  generalize s'.mode = m' at hmode ⊢
  cases hmode
  exact .ok rfl

end Readings

end FormulaCalculus.Formula
