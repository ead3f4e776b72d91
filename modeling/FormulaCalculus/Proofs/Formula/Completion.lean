import FormulaCalculus.Proofs.Decimal.Literal
import FormulaCalculus.Proofs.Formula.Cuts
import FormulaCalculus.Proofs.Formula.Faults

/-!
# What stands before a fault can be completed

The reader objects to a token only where the tokens before it begin a formula that it takes: at that
token an operand is due or one is complete, so the operand, if it is missing, and a closing bracket
for every open one make up such a formula. `parse_blames` says so for whole formulas.
-/

namespace FormulaCalculus.Formula

/-! ### The token that is blamed -/

section Steps
variable {limit : Count} {names : List String} {s : State} {ts pre : List Token} {x : Tree Float}
  {position : Nat}

/-- A token is left pending only where an operand is due. -/
theorem Step.of_pending {t : Token} {s' : State} (h : Step limit names s t s')
    (hp : Pending s'.mode position) : t.position = position ∧ s.mode = .operand := by
  cases h <;> cases hp <;> exact ⟨rfl, rfl⟩

/-- Before the token that is pending, an operand was due. -/
theorem Run.of_pending (h : Run limit names {} pre s) (hp : Pending s.mode position) :
    ∃ us t s', pre = us ++ [t] ∧ t.position = position ∧ Run limit names {} us s' ∧
      s'.mode = .operand := by
  rcases List.eq_nil_or_concat pre with rfl | ⟨us, t, rfl⟩
  · rw [← run_nil_iff.1 h] at hp
    cases hp
  · rw [List.concat_eq_append] at h ⊢
    obtain ⟨s', hrun, hlast⟩ := run_append_iff.1 h
    obtain ⟨hposition, hs⟩ := (run_singleton_iff.1 hlast).of_pending hp
    exact ⟨us, t, s', rfl, hposition, hrun, hs⟩

/-- The token that is blamed: before it an operand is due or one is complete. -/
theorem exists_blamed {f : SyntaxFault}
    (h : ts.foldlM (State.step limit names) {} = .error (.formula f position)) :
    ∃ pre t post s, ts = pre ++ t :: post ∧ t.position = position ∧ Run limit names {} pre s ∧
      (f = .nestedTooDeeply limit ∨ s.mode = .operand ∨ ∃ x, Holds names s.mode x) := by
  obtain ⟨pre, t, post, s, rfl, hrun, hfail⟩ := exists_of_foldlM_eq_error h
  cases hfail with
  | refused => exact ⟨pre, t, post, s, rfl, rfl, hrun, .inl rfl⟩
  | due hs => exact ⟨pre, t, post, s, rfl, rfl, hrun, .inr (.inl hs)⟩
  | pending hp =>
    obtain ⟨us, u, s', rfl, hposition, hrun, hs⟩ := hrun.of_pending hp
    exact ⟨us, u, t :: post, s', List.append_assoc .., hposition, hrun, .inr (.inl hs)⟩
  | held hx => exact ⟨pre, t, post, s, rfl, rfl, hrun, .inr (.inr ⟨_, hx⟩)⟩

/-! ### Completing a formula -/

/-- As many closing brackets as are open close all of them. -/
theorem run_closings (limit : Count) {bs : List Bracket} {w : Waiting} {m : Mode} {cl : List Token}
    (hx : Holds names m x) (hlength : cl.length = bs.length)
    (hcl : ∀ t ∈ cl, t.lexeme = .closing) :
    ∃ w' m' y, Run limit names ⟨bs, w, m⟩ cl ⟨[], w', m'⟩ ∧ Holds names m' y := by
  induction bs generalizing cl w m x with
  | nil =>
    obtain rfl := List.length_eq_zero_iff.1 hlength
    exact ⟨w, m, x, run_nil_iff.2 rfl, hx⟩
  | cons b bs ih =>
    obtain ⟨c, cl, rfl⟩ := List.exists_cons_of_length_eq_add_one hlength
    rw [List.forall_mem_cons] at hcl
    obtain ⟨w', m', y, hrun, hy⟩ := ih (.operator _) (Nat.succ.inj hlength) hcl.2
    exact ⟨w', m', y, .cons (.close hx hcl.1) hrun, hy⟩

end Steps

theorem exists_cut_closings (position n : Nat) :
    ∃ cl, Cut [] position (List.replicate n ')') cl ∧ cl.length = n ∧
      ∀ t ∈ cl, t.lexeme = .closing := by
  induction n generalizing position with
  | zero => exact ⟨[], .nil, rfl, List.forall_mem_nil _⟩
  | succ n ih =>
    obtain ⟨cl, hcut, hlength, hcl⟩ := ih (position + 1)
    refine ⟨⟨.closing, position⟩ :: cl, ?_, ?_, List.forall_mem_cons.2 ⟨rfl, hcl⟩⟩
    · exact .lexeme .closing trivial hcut
    · rw [List.length_cons, hlength]

/-- With some text behind them, the characters are a formula that the reader takes, and its tokens
start with the given ones. -/
def Begins (limit : Count) (cs : List Char) (ts : List Token) : Prop :=
  ∃ rest us e, Token.scan (String.ofList (cs ++ rest)) = .ok (ts ++ us) ∧
    read? limit (String.ofList (cs ++ rest)) = .ok e ∧
    (parse limit (some (String.ofList (cs ++ rest)))).outcome =
      if e.root.isTooDeep then .error .recursion else .ok e

section Begins
variable {limit : Count} {names : List String} {s : State} {cs : List Char} {ts : List Token}
  {x : Tree Float}

/-- Which table numbers the variables does not matter for whether a formula is read. -/
theorem exists_read? {formula : String} {last : Nat} {root : Tree Float}
    (hscan : Token.scan formula = .ok (ts ++ [⟨.finish, last⟩]))
    (h : readTokens limit names (ts ++ [⟨.finish, last⟩]) = .ok root) :
    ∃ e, read? limit formula = .ok e := by
  obtain ⟨ts', last', heq, hts⟩ := scan_eq_ok hscan
  obtain ⟨rfl, -⟩ := List.append_inj' heq rfl
  obtain ⟨p, hp, hopen, hstack, -⟩ := derives_of_readTokens hts h
  rw [read?_of_scan hscan]
  rcases readTokens_of_derives hp hopen with hread | ⟨-, hexhausted⟩
  · rw [hread]
    exact ⟨_, rfl⟩
  · exact absurd hstack hexhausted

/-- Behind an operand the closing brackets are all that is missing. -/
theorem Begins.of_holds (hcs : Cut [] 0 cs ts) (h : Run limit names {} ts s)
    (hx : Holds names s.mode x) : Begins limit cs ts := by
  obtain ⟨bs, w, m⟩ := s
  obtain ⟨cl, hcl, hlength, hclosing⟩ := exists_cut_closings (0 + cs.length) bs.length
  obtain ⟨w', m', y, hrun, hy⟩ := run_closings limit (w := w) hx hlength hclosing
  have hstops : Stops (List.replicate bs.length ')') := fun c hc =>
    .inr (.inr (List.eq_of_mem_replicate (List.mem_of_mem_head? hc)))
  have htext : Cut [] 0 (cs ++ List.replicate bs.length ')') (ts ++ cl) := by
    refine .append (hcs.of_stops ?_) hcl
    rw [List.append_nil]
    exact hstops.endsBefore
  have hscan : Token.scan (String.ofList (cs ++ List.replicate bs.length ')')) =
      .ok (ts ++ cl ++ [⟨.finish, 0 + (cs ++ List.replicate bs.length ')').length⟩]) := by
    rw [Token.scan, String.toList_ofList]
    exact htext.scan_eq_ok
  have hne : ts ++ cl ≠ [] := by
    intro hnil
    rw [(List.append_eq_nil_iff.1 hnil).1, run_nil_iff] at h
    cases h
    cases hx
  obtain ⟨e, he⟩ := exists_read? hscan
    (readTokens_of_run hne ((h.append hrun).append (run_singleton_iff.2 (.finish hy rfl))) rfl)
  rw [List.append_assoc] at hscan
  exact ⟨_, _, e, hscan, he, outcome_parse_of_read? he⟩

/-- Where an operand is due, one more has to be written. -/
theorem Begins.of_due (hcs : Cut [] 0 cs ts) (h : Run limit names {} ts s)
    (hs : s.mode = .operand) : Begins limit cs ts := by
  obtain ⟨bs, w, m⟩ := s
  obtain rfl : m = .operand := hs
  set t : Token := ⟨.name ['x'], 0 + cs.length + 1⟩
  have hword : Word ['x'] := by decide
  have hx : Cut [] (0 + cs.length) [' ', 'x'] [t] :=
    .blank (by decide) (.lexeme (.name hword) (endsBefore_nil _) .nil)
  have htext : Cut [] 0 (cs ++ [' ', 'x']) (ts ++ [t]) :=
    .append (hcs.of_stops (endsBefore_blank (by decide) _)) hx
  have hstep : Step limit names ⟨bs, w, .operand⟩ t ⟨bs, w, .variable "x" t.position⟩ :=
    .ident rfl (by decide)
  obtain ⟨rest, us, e, hscan, he⟩ :=
    Begins.of_holds htext (h.append (run_singleton_iff.2 hstep)) (.ident _ _)
  rw [List.append_assoc, List.append_assoc] at hscan
  rw [List.append_assoc] at he
  exact ⟨_, _, e, hscan, he⟩

/-! ### Faults -/

/-- What stands before a blamed token begins a formula that is read. -/
theorem begins_of_blamed {formula : String} {tokens : List Token} {f : SyntaxFault} {position : Nat}
    (hscan : Token.scan formula = .ok tokens)
    (h : tokens.foldlM (State.step limit names) {} = .error (.formula f position)) :
    position ≤ formula.toList.length ∧ (f = .nestedTooDeeply limit ∨
      Begins limit (formula.toList.take position) (tokens.filter (·.position < position))) := by
  obtain ⟨pre, t, post, s, rfl, rfl, hrun, hblamed⟩ := exists_blamed h
  obtain ⟨hle, hcut, hfilter⟩ := cut_before hscan
  have hend : Cut [] 0 (formula.toList.take t.position) pre := hcut.of_stops endsBefore_nil
  refine ⟨hle, ?_⟩
  rw [hfilter]
  rcases hblamed with hf | hs | ⟨x, hx⟩
  · exact .inl hf
  · exact .inr (.of_due hend hrun hs)
  · exact .inr (.of_holds hend hrun hx)

/-- What the reader objects to in the tokens of a formula. -/
theorem blames_of_readTokens {formula : String} {tokens : List Token} {fault : Fault}
    (hscan : Token.scan formula = .ok tokens) (h : readTokens limit names tokens = .error fault) :
    fault = .recursion ∨ ∃ f position, fault = .formula f position ∧
      position ≤ formula.toList.length ∧ (f = .nestedTooDeeply limit ∨
        Begins limit (formula.toList.take position) (tokens.filter (·.position < position))) := by
  obtain ⟨ts, last, rfl, hts⟩ := scan_eq_ok hscan
  by_cases hempty : ts = []
  · subst hempty
    cases h
    have hrun : Run limit names {} [] {} := run_nil_iff.2 rfl
    exact .inr ⟨_, 0, rfl, Nat.zero_le _, .inr (.of_due .nil hrun rfl)⟩
  rw [readTokens_append hempty] at h
  cases hfold : List.foldlM (State.step limit names) {} (ts ++ [⟨.finish, last⟩]) with
  | error f =>
    rw [hfold] at h
    cases h
    rcases recursion_or_isFormula_of_steps hfold with ⟨rfl, -⟩ | ⟨f, position, rfl⟩
    · exact .inl rfl
    · exact .inr ⟨f, position, rfl, begins_of_blamed hscan hfold⟩
  | ok s =>
    obtain ⟨s₁, hrun, hfinish⟩ := run_append_iff.1 hfold
    obtain ⟨x, hx, -⟩ := (reached_start.run hrun hts).finish (run_singleton_iff.1 hfinish) rfl
    rw [hfold] at h
    simp only [bind, Except.bind, hx] at h
    cases h

end Begins

theorem readDouble?_of_scan {formula : String} {tokens : List Token} {t : Token}
    {digits : List Char} (hscan : Token.scan formula = .ok tokens) (ht : t ∈ tokens)
    (hdigits : t.lexeme = .number digits) :
    Decimal.readDouble? (String.ofList digits) = some (Decimal.readLiteral digits) := by
  obtain ⟨ts, last, rfl, hts⟩ := scan_eq_ok hscan
  rcases List.mem_append.1 ht with ht | ht
  · have hordinary := hts t ht
    rw [hdigits] at hordinary
    cases hordinary with
    | number h => exact Decimal.readDouble?_of_numeral h
  · rw [List.mem_singleton.1 ht] at hdigits
    cases hdigits

/-- Every number of a formula is a number for the general reader of doubles. If the parser refuses a
formula, the stack is exhausted, or it blames a position of the text or its end. What stands before
that position begins a formula that is read under the same limit, unless no token starts there or
the limit leaves no room for a bracket. -/
theorem parse_blames (limit : Count) (formula : String) :
    (∀ tokens, Token.scan formula = .ok tokens → ∀ t ∈ tokens, ∀ digits,
      t.lexeme = .number digits →
        Decimal.readDouble? (String.ofList digits) = some (Decimal.readLiteral digits)) ∧
    ∀ fault, (parse limit (some formula)).outcome = .error fault →
      fault = .recursion ∨ ∃ f position, fault = .formula f position ∧
        position ≤ formula.toList.length ∧
        ((∃ c, f = .unexpectedCharacter c) ∨ f = .nestedTooDeeply limit ∨
          ∃ tokens, Token.scan formula = .ok tokens ∧
            Begins limit (formula.toList.take position)
              (tokens.filter (·.position < position))) := by
  refine ⟨fun _ hscan _ ht _ hdigits => readDouble?_of_scan hscan ht hdigits, ?_⟩
  intro fault h
  cases hscan : Token.scan formula with
  | error f =>
    rw [outcome_parse_of_scan_error hscan] at h
    cases h
    obtain ⟨as, c, rest, ts, hsplit, -, -, rfl⟩ := cut_of_scan_eq_error hscan
    refine .inr ⟨_, _, rfl, ?_, .inl ⟨c, rfl⟩⟩
    rw [hsplit, List.length_append]
    omega
  | ok tokens =>
    rw [outcome_parse_of_scan hscan] at h
    cases hread : readTokens limit (variableNames tokens) tokens with
    | error f =>
      rw [hread] at h
      cases h
      rcases blames_of_readTokens hscan hread with rfl | ⟨f, position, rfl, hle, hf⟩
      · exact .inl rfl
      · exact .inr ⟨f, position, rfl, hle, .inr (hf.imp_right fun hf => ⟨tokens, rfl, hf⟩)⟩
    | ok root =>
      rw [hread] at h
      simp only [bind, Except.bind] at h
      split at h
      · cases h
        exact .inl rfl
      · cases h

/-- `2*(x+)`: the closing bracket is blamed, and `2*(x+` begins a formula. -/
theorem parse_blames_bracket :
    (parse 1 (some "2*(x+)")).outcome = .error (.formula (.missingOperand ")") 5) ∧
      Begins 1 "2*(x+".toList [⟨.number ['2'], 0⟩, ⟨.op .mul, 1⟩, ⟨.opening, 2⟩, ⟨.name ['x'], 3⟩,
        ⟨.op .add, 4⟩] := by
  have hscan : Token.scan "2*(x+)" = .ok [⟨.number ['2'], 0⟩, ⟨.op .mul, 1⟩, ⟨.opening, 2⟩,
      ⟨.name ['x'], 3⟩, ⟨.op .add, 4⟩, ⟨.closing, 5⟩, ⟨.finish, 6⟩] := by cbv
  have hfault : (parse 1 (some "2*(x+)")).outcome =
      .error (.formula (.missingOperand ")") 5) := by
    rw [outcome_parse hscan]
    rfl
  refine ⟨hfault, ?_⟩
  rcases (parse_blames 1 "2*(x+)").2 _ hfault with h | ⟨f, position, heq, -, h⟩
  · cases h
  cases heq
  rcases h with ⟨c, h⟩ | h | ⟨tokens, htokens, h⟩
  · cases h
  · cases h
  · obtain rfl := Except.ok.inj (hscan.symm.trans htokens)
    exact h

end FormulaCalculus.Formula
