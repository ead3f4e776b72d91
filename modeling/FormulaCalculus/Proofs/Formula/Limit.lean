import FormulaCalculus.Proofs.Formula.Acceptance

/-!
# The limit on open brackets

A reader with a lower limit reads the same, or it fails at the bracket that exceeds the limit. So
of the formulas that derive from the grammar the limit refuses those that nest too deeply, and
there is no other difference: `readTokens_of_not_openAtMost`, and for whole formulas
`parse_iff_nesting_le`.
-/

namespace FormulaCalculus.Formula

section
variable {limit limit' : Count}

/-- The reading fails at a bracket for which the limit leaves no room. -/
def Refused {β : Type} (limit : Count) (result : Except Fault β) : Prop :=
  ∃ position, result = .error (.formula (.nestedTooDeeply limit) position)

theorem Refused.bind {β γ : Type} {x : Except Fault β} (h : Refused limit x)
    (f : β → Except Fault γ) : Refused limit (x >>= f) := by
  obtain ⟨position, rfl⟩ := h
  exact ⟨position, rfl⟩

theorem open?_of_limit_le (h : limit.value ≤ limit'.value) (s : State) (function : Option Op)
    (position : Nat) : s.open? limit function position = s.open? limit' function position ∨
      Refused limit (s.open? limit function position) := by
  by_cases hl : limit.value < ((s.brackets.length + 1 : Nat) : Int)
  · refine Or.inr ⟨position, ?_⟩
    simp only [State.open?, if_pos hl]
  · have hl' : ¬ limit'.value < ((s.brackets.length + 1 : Nat) : Int) := by omega
    left
    simp only [State.open?, if_neg hl, if_neg hl']

theorem step_of_limit_le (h : limit.value ≤ limit'.value) (names : List String) (s : State)
    (t : Token) :
    State.step limit names s t = State.step limit' names s t ∨
      Refused limit (State.step limit names s t) := by
  obtain ⟨bs, w, m⟩ := s
  cases m with
  | operand =>
    simp only [State.step, State.operand?]
    split
    · exact Or.inl rfl
    · exact Or.inl rfl
    · exact Or.inl rfl
    · exact open?_of_limit_le h _ none t.position
    · exact Or.inl rfl
    · exact Or.inl rfl
  | function op position =>
    simp only [State.step]
    split
    · exact open?_of_limit_le h _ (some op) t.position
    · exact Or.inl rfl
  | _ => exact Or.inl rfl

theorem foldlM_of_limit_le (h : limit.value ≤ limit'.value) (names : List String) (s : State)
    (ts : List Token) :
    ts.foldlM (State.step limit names) s = ts.foldlM (State.step limit' names) s ∨
      Refused limit (ts.foldlM (State.step limit names) s) := by
  induction ts generalizing s with
  | nil => exact Or.inl rfl
  | cons t ts ih =>
    rw [List.foldlM_cons, List.foldlM_cons]
    rcases step_of_limit_le h names s t with hs | hs
    · rw [hs]
      cases State.step limit' names s t with
      | error fault => exact Or.inl rfl
      | ok s' => exact ih s'
    · exact Or.inr (hs.bind _)

theorem readTokens_of_limit_le (h : limit.value ≤ limit'.value) (names : List String)
    (ts : List Token) :
    readTokens limit names ts = readTokens limit' names ts ∨
      Refused limit (readTokens limit names ts) := by
  unfold readTokens
  split
  · exact Or.inl rfl
  · rcases foldlM_of_limit_le h names {} ts with hr | hr
    · exact Or.inl (by rw [hr])
    · exact Or.inr (hr.bind _)

end

section
variable {limit : Count} {names : List String} {ts : List Token} {last : Nat} {p : Phrase}

/-- What derives from the grammar is refused if the limit does not allow its brackets. -/
theorem readTokens_of_not_openAtMost (hp : Derives .sum ts p) (hts : ∀ t ∈ ts, Ordinary t.lexeme)
    (hstack : OpenAtMost Tree.maxDepth ts) (ho : ¬OpenAtMost (mostOpen limit) ts) :
    Refused limit (readTokens limit names (ts ++ [⟨.finish, last⟩])) := by
  -- A limit that allows all that the stack does reads the tokens.
  set limit' : Count := .number (max limit.value Tree.maxDepth) with hlimit'
  have hle : limit.value ≤ limit'.value := le_max_left _ _
  have hroom : OpenAtMost (mostOpen limit') ts :=
    hstack.mono ((le_max_right _ _).trans (le_max_left _ _))
  rcases readTokens_of_limit_le hle names (ts ++ [⟨.finish, last⟩]) with hr | hr
  · rcases readTokens_of_derives hp hroom with h | ⟨-, h⟩
    · obtain ⟨-, -, hopen, -⟩ := derives_of_readTokens hts (hr.trans h)
      exact absurd hopen ho
    · exact absurd hstack h
  · exact hr

end

/-- What was read under some limit is read as the same equation under every limit that is not below
the number of brackets that the formula has open at once, and refused under the others. -/
theorem parse_iff_nesting_le {limit : Count} {formula : String} {e : Equation Float}
    (h : (parse limit (some formula)).outcome = .ok e) :
    ∃ tokens, Token.scan formula = .ok tokens ∧
      (∀ d : Count, (∃ e', (parse d (some formula)).outcome = .ok e') ↔
        nesting tokens ≤ mostOpen d) ∧
      (∀ (d : Count) (e' : Equation Float),
        (parse d (some formula)).outcome = .ok e' → e' = e) ∧
      ∀ d : Count, mostOpen d < nesting tokens → Refused d (parse d (some formula)).outcome := by
  obtain ⟨tokens, hscan⟩ := scan_of_outcome_parse h
  obtain ⟨ts, last, rfl, hts⟩ := scan_eq_ok hscan
  obtain ⟨hn, hr⟩ := outcome_parse_eq_ok hscan h
  obtain ⟨p, hp, -, hstack, hroot⟩ := derives_of_readTokens hts hr
  obtain ⟨-, -, -, -, -, -, hdeep⟩ := derives_of_parse h
  have hfinish {d : Count} : OpenAtMost (mostOpen d) ts ↔
      nesting (ts ++ [⟨.finish, last⟩]) ≤ mostOpen d := by
    rw [← openAtMost_iff, openAtMost_finish, hp.balanced]
    exact (and_iff_left_of_imp OpenAtMost.nonneg).symm
  -- The bound on the stack that the first reading kept holds for every limit.
  have hread (d : Count) (hd : nesting (ts ++ [⟨.finish, last⟩]) ≤ mostOpen d) :
      (parse d (some formula)).outcome = .ok e := by
    rcases readTokens_of_derives hp (hfinish.2 hd) with hr' | ⟨-, hexhausted⟩
    · rw [hroot] at hr'
      rw [outcome_parse_of_readTokens hscan (hn ▸ hr') hn (hroot ▸ isComplete_tree p), hdeep]
      rfl
    · exact absurd hstack hexhausted
  have hrefused (d : Count) (hd : mostOpen d < nesting (ts ++ [⟨.finish, last⟩])) :
      Refused d (parse d (some formula)).outcome := by
    rw [outcome_parse hscan]
    exact (readTokens_of_not_openAtMost hp hts hstack (mt hfinish.1 (not_le.2 hd))).bind _
  have hallowed (d : Count) (e' : Equation Float)
      (he' : (parse d (some formula)).outcome = .ok e') :
      nesting (ts ++ [⟨.finish, last⟩]) ≤ mostOpen d := by
    by_contra hd
    obtain ⟨position, hfault⟩ := hrefused d (not_le.1 hd)
    rw [hfault] at he'
    cases he'
  refine ⟨_, hscan, fun d => ⟨fun ⟨e', he'⟩ => hallowed d e' he', fun hd => ⟨e, hread d hd⟩⟩, ?_,
    hrefused⟩
  intro d e' he'
  exact Except.ok.inj (he'.symm.trans (hread d (hallowed d e' he')))

/-- `sin((x))` is read under the limit 2, so also under 3, and it is refused under 1. -/
theorem parse_iff_nesting_le_sin :
    let e : Equation Float := ⟨.call (.op .sin) (.var 0), ["x"], by decide⟩
    (parse 2 (some "sin((x))")).outcome = .ok e ∧ (parse 3 (some "sin((x))")).outcome = .ok e ∧
      Refused 1 (parse 1 (some "sin((x))")).outcome := by
  intro e
  have hscan : Token.scan "sin((x))" = .ok [⟨.name ['s', 'i', 'n'], 0⟩, ⟨.opening, 3⟩,
      ⟨.opening, 4⟩, ⟨.name ['x'], 5⟩, ⟨.closing, 6⟩, ⟨.closing, 7⟩, ⟨.finish, 8⟩] := by cbv
  have hok : (parse 2 (some "sin((x))")).outcome = .ok e := by
    rw [outcome_parse hscan]
    rfl
  obtain ⟨tokens, htokens, hiff, hsame, hrefused⟩ := parse_iff_nesting_le hok
  obtain rfl := Except.ok.inj (hscan.symm.trans htokens)
  obtain ⟨e', he'⟩ := (hiff 3).2 (by decide)
  exact ⟨hok, hsame 3 e' he' ▸ he', hrefused 1 (by decide)⟩

end FormulaCalculus.Formula
