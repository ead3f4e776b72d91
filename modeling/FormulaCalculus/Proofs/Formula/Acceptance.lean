import FormulaCalculus.Proofs.Formula.Completeness
import FormulaCalculus.Proofs.Formula.Soundness
import Mathlib

/-!
# What the reader accepts

`parse_accepts_grammar`: the equations that `parse` returns are the ones that the grammar gives,
with a table that lists the variables by their first occurrence.
-/

namespace FormulaCalculus.Formula

/-! ### First occurrences -/

theorem FirstOccurrences.nodup {ids names : List String} (h : FirstOccurrences ids names) :
    names.Nodup :=
  h.ordered.imp fun hlt heq => absurd (heq ▸ hlt) (Nat.lt_irrefl _)

theorem FirstOccurrences.unique {ids names names' : List String} (h : FirstOccurrences ids names)
    (h' : FirstOccurrences ids names') : names = names' := by
  have hperm : names.Perm names' := (List.perm_ext_iff_of_nodup h.nodup h'.nodup).2 fun name => by
    rw [h.mem_iff, h'.mem_iff]
  exact hperm.eq_of_pairwise (fun _ _ _ _ hab hba => absurd hab (Nat.lt_asymm hba)) h.ordered
    h'.ordered

theorem firstOccurrences_eraseDups (ids : List String) : FirstOccurrences ids ids.eraseDups := by
  refine ⟨fun name => List.mem_eraseDups, ?_⟩
  induction ids using List.reverseRecOn with
  | nil => exact List.Pairwise.nil
  | append_singleton ids id ih =>
    have hkeep : ids.eraseDups.Pairwise
        fun a b => (ids ++ [id]).idxOf a < (ids ++ [id]).idxOf b :=
      ih.imp_of_mem fun ha hb hlt => by
        rwa [List.idxOf_append_of_mem (List.mem_eraseDups.1 ha),
          List.idxOf_append_of_mem (List.mem_eraseDups.1 hb)]
    rw [List.eraseDups_append]
    by_cases hid : id ∈ ids
    · simpa [List.removeAll, hid] using hkeep
    · have hnew : ([id].removeAll ids).eraseDups = [id] := by
        simp [List.removeAll, hid, List.eraseDups_cons]
      rw [hnew, List.pairwise_append]
      refine ⟨hkeep, List.pairwise_singleton _ _, fun a ha b hb => ?_⟩
      rw [List.mem_singleton.1 hb, List.idxOf_append_of_mem (List.mem_eraseDups.1 ha),
        List.idxOf_append_of_notMem hid]
      exact Nat.lt_of_lt_of_le (List.idxOf_lt_length_of_mem (List.mem_eraseDups.1 ha))
        (Nat.le_add_right _ _)

theorem variableNames_eq (tokens : List Token) :
    variableNames tokens = (identifiers tokens).eraseDups :=
  rfl

theorem firstOccurrences_iff {tokens : List Token} {names : List String} :
    FirstOccurrences (identifiers tokens) names ↔ names = variableNames tokens := by
  rw [variableNames_eq]
  exact ⟨fun h => h.unique (firstOccurrences_eraseDups _),
    fun h => h ▸ firstOccurrences_eraseDups _⟩

/-! ### Reading token lists -/

section Reading
variable {limit : Count} {names : List String} {ts : List Token} {last : Nat} {root : Tree Float}
  {p : Phrase}

theorem readTokens_append (hts : ts ≠ []) : readTokens limit names (ts ++ [⟨.finish, last⟩]) = (do
    let s ← List.foldlM (State.step limit names) {} (ts ++ [⟨.finish, last⟩])
    match s.mode with
    | .done t => return t
    | _ => .error (.formula .missingLastOperand 0)) := by
  unfold readTokens
  split
  · rename_i position h
    have := congrArg List.length h
    simp only [List.length_append, List.length_singleton, Nat.add_eq_right,
      List.length_eq_zero_iff] at this
    exact absurd this hts
  · rfl

theorem readTokens_of_run {s : State} (hts : ts ≠ [])
    (h : Run limit names {} (ts ++ [⟨.finish, last⟩]) s) (hs : s.mode = .done root) :
    readTokens limit names (ts ++ [⟨.finish, last⟩]) = .ok root := by
  rw [readTokens_append hts, h]
  simp only [bind, Except.bind, hs]
  rfl

theorem run_of_readTokens (h : readTokens limit names (ts ++ [⟨.finish, last⟩]) = .ok root) :
    ∃ s, Run limit names {} (ts ++ [⟨.finish, last⟩]) s ∧ s.mode = .done root := by
  have hts : ts ≠ [] := by
    rintro rfl
    cases h
  rw [readTokens_append hts] at h
  cases hr : List.foldlM (State.step limit names) {} (ts ++ [⟨.finish, last⟩]) with
  | error e => rw [hr] at h; cases h
  | ok s =>
    rw [hr] at h
    simp only [bind, Except.bind] at h
    split at h
    · cases h; exact ⟨s, hr, by assumption⟩
    · cases h

/-- What is read derives from the grammar within the limit. -/
theorem derives_of_readTokens (hts : ∀ t ∈ ts, Ordinary t.lexeme)
    (h : readTokens limit names (ts ++ [⟨.finish, last⟩]) = .ok root) :
    ∃ p, Derives .sum ts p ∧ OpenAtMost (mostOpen limit) ts ∧ OpenAtMost Tree.maxDepth ts ∧
      p.tree names = root := by
  obtain ⟨s, hr, hs⟩ := run_of_readTokens h
  obtain ⟨s₁, hr, hf⟩ := run_append_iff.1 hr
  obtain ⟨x, hx, p, hp, rfl⟩ := (reached_start.run hr hts).finish (run_singleton_iff.1 hf) rfl
  obtain rfl : p.tree names = root := by
    rw [hs] at hx
    cases hx
    rfl
  have hopen := hr.length_brackets.2
  simp only [List.length_nil] at hopen
  exact ⟨p, hp, hopen.mono (by simp only [mostOpen]; omega), hopen.mono (by omega), rfl⟩

/-- What derives from the grammar within the limit is read, if the stack suffices. -/
theorem readTokens_of_derives (hp : Derives .sum ts p) (ho : OpenAtMost (mostOpen limit) ts) :
    readTokens limit names (ts ++ [⟨.finish, last⟩]) = .ok (p.tree names) ∨
      readTokens limit names (ts ++ [⟨.finish, last⟩]) = .error .recursion ∧
        ¬OpenAtMost Tree.maxDepth ts := by
  have hroom : OpenAtMost (room limit []) ts := by
    rwa [room, List.length_nil, Int.ofNat_zero, Int.sub_zero]
  have hread : Reads limit names [] {} .sum (p.tree names) {} ts :=
    hp.reads (fun k _ => Waiting.slot_empty k) hroom
  rcases hread with he | ⟨_, hr, _, hx, hclosed⟩
  · refine Or.inr ⟨?_, by simpa using he.not_openAtMost⟩
    rw [readTokens_append hp.ne_nil, he.append_right]
    rfl
  · refine Or.inl (readTokens_of_run hp.ne_nil
      (hr.append (run_singleton_iff.2 (.finish hx rfl))) ?_)
    rw [← hclosed]
    rfl

theorem isComplete_tree (p : Phrase) : (p.tree names).isComplete := by
  induction p with
  | number | ident => rfl
  | binary _ _ _ ihp ihq => simp only [Phrase.tree, Tree.isComplete, ihp, ihq, Bool.and_self]
  | call _ _ ih => simp only [Phrase.tree, Tree.isComplete, ih]

end Reading

/-! ### Reading formulas -/

section Parse
variable {limit : Count} {formula : String} {tokens ts : List Token} {last : Nat} {p : Phrase}
  {e : Equation Float}

theorem outcome_parse (hscan : Token.scan formula = .ok tokens) :
    (parse limit (some formula)).outcome = (do
      let root ← readTokens limit (variableNames tokens) tokens
      let _ ← root.size?
      return ⟨root, variableNames tokens, nodup_eraseDups _⟩) := by
  unfold parse
  simp only [Traced.outcome_bind, Traced.outcome_ofExcept, Traced.outcome_report,
    Traced.outcome_pure, read?, hscan]
  simp only [bind, Except.bind]
  cases readTokens limit (variableNames tokens) tokens <;> rfl

theorem scan_of_outcome_parse (h : (parse limit (some formula)).outcome = .ok e) :
    ∃ tokens, Token.scan formula = .ok tokens := by
  cases hscan : Token.scan formula with
  | ok tokens => exact ⟨tokens, rfl⟩
  | error f =>
    unfold parse at h
    simp only [Traced.outcome_bind, Traced.outcome_ofExcept, read?, hscan] at h
    cases h

theorem outcome_parse_eq_ok (hscan : Token.scan formula = .ok tokens)
    (h : (parse limit (some formula)).outcome = .ok e) :
    e.names = variableNames tokens ∧ readTokens limit e.names tokens = .ok e.root := by
  rw [outcome_parse hscan] at h
  cases hr : readTokens limit (variableNames tokens) tokens with
  | error f => rw [hr] at h; cases h
  | ok root =>
    rw [hr] at h
    simp only [bind, Except.bind] at h
    cases hs : root.size? with
    | error f => rw [hs] at h; cases h
    | ok n =>
      rw [hs] at h
      cases h
      exact ⟨rfl, hr⟩

theorem outcome_parse_of_readTokens (hscan : Token.scan formula = .ok tokens)
    (hr : readTokens limit (variableNames tokens) tokens = .ok e.root)
    (hn : e.names = variableNames tokens) (hc : e.root.isComplete) :
    (parse limit (some formula)).outcome =
      if e.root.isTooDeep then .error .recursion else .ok e := by
  obtain ⟨root, names, hnodup⟩ := e
  obtain rfl : names = variableNames tokens := hn
  rw [outcome_parse hscan, hr]
  simp only [bind, Except.bind, Tree.size?_eq_ite hc]
  cases root.isTooDeep <;> rfl

theorem Derives.variableNames_eq (hp : Derives .sum ts p) :
    variableNames (ts ++ [⟨.finish, last⟩]) = p.idents.eraseDups := by
  rw [Formula.variableNames_eq, identifiers_append, hp.identifiers_eq]
  exact congrArg List.eraseDups (List.append_nil _)

/-- An equation that was read is the tree of a phrase over the phrase's names. -/
theorem derives_of_parse (h : (parse limit (some formula)).outcome = .ok e) :
    ∃ ts p, (∀ t ∈ ts, Ordinary t.lexeme) ∧ Derives .sum ts p ∧ e.root = p.tree e.names ∧
      e.names = p.idents.eraseDups ∧ e.root.isTooDeep = false := by
  obtain ⟨tokens, hscan⟩ := scan_of_outcome_parse h
  obtain ⟨ts, last, rfl, hts⟩ := scan_eq_ok hscan
  obtain ⟨hn, hr⟩ := outcome_parse_eq_ok hscan h
  obtain ⟨p, hp, -, -, hroot⟩ := derives_of_readTokens hts hr
  refine ⟨ts, p, hts, hp, hroot.symm, hn.trans hp.variableNames_eq, ?_⟩
  rw [outcome_parse_of_readTokens hscan (hn ▸ hr) hn (hroot ▸ isComplete_tree p)] at h
  split at h
  · cases h
  · rwa [← Bool.not_eq_true]

end Parse

/-- Stack exhaustion aside, a formula is accepted when its tokens derive from the grammar with no
more open brackets than the limit allows, and its equation is the one that the derivation denotes
over the names in the order of their first occurrence. -/
theorem parse_accepts_grammar {limit : Count} {formula : String} {tokens : List Token}
    (hscan : Token.scan formula = .ok tokens)
    (hstack : (parse limit (some formula)).outcome ≠ .error .recursion) :
    ((∃ e, (parse limit (some formula)).outcome = .ok e) ↔
      ∃ p, Derives .sum tokens.dropLast p ∧ OpenAtMost (mostOpen limit) tokens.dropLast) ∧
    ∀ e, (parse limit (some formula)).outcome = .ok e ↔
      ∃ p, Derives .sum tokens.dropLast p ∧ OpenAtMost (mostOpen limit) tokens.dropLast ∧
        Denotes e.names p e.root ∧ FirstOccurrences (identifiers tokens) e.names := by
  obtain ⟨ts, last, rfl, hts⟩ := scan_eq_ok hscan
  rw [List.dropLast_concat]
  have hids : ∀ name ∈ identifiers ts, name ∈ variableNames (ts ++ [⟨.finish, last⟩]) := by
    intro name hname
    rw [variableNames_eq, List.mem_eraseDups, identifiers_append]
    exact List.mem_append_left _ hname
  -- The equation of a derivation is accepted: its tokens are read, and the stack suffices.
  have haccept (p : Phrase) (hp : Derives .sum ts p) (ho : OpenAtMost (mostOpen limit) ts)
      (e : Equation Float) (hn : e.names = variableNames (ts ++ [⟨.finish, last⟩]))
      (hroot : e.root = p.tree e.names) : (parse limit (some formula)).outcome = .ok e := by
    have hcomplete : e.root.isComplete := by
      rw [hroot]
      exact isComplete_tree p
    rcases readTokens_of_derives hp ho with hr | ⟨hr, -⟩
    · rw [← hroot, hn] at hr
      rw [outcome_parse_of_readTokens hscan hr hn hcomplete] at hstack ⊢
      split
      · rename_i hdeep
        exact absurd (if_pos hdeep) hstack
      · rfl
    · rw [hn] at hr
      rw [outcome_parse hscan, hr] at hstack
      exact absurd rfl hstack
  have hsound (e : Equation Float) (h : (parse limit (some formula)).outcome = .ok e) :
      ∃ p, Derives .sum ts p ∧ OpenAtMost (mostOpen limit) ts ∧ Denotes e.names p e.root ∧
        FirstOccurrences (identifiers (ts ++ [⟨.finish, last⟩])) e.names := by
    obtain ⟨hn, hr⟩ := outcome_parse_eq_ok hscan h
    obtain ⟨p, hp, ho, -, hroot⟩ := derives_of_readTokens hts hr
    refine ⟨p, hp, ho, ?_, firstOccurrences_iff.2 hn⟩
    rw [← hroot]
    exact p.denotes_tree (by rwa [hn, ← hp.identifiers_eq])
  refine ⟨⟨fun ⟨e, h⟩ => ?_, fun ⟨p, hp, ho⟩ => ?_⟩, fun e => ⟨hsound e, ?_⟩⟩
  · obtain ⟨p, hp, ho, -⟩ := hsound e h
    exact ⟨p, hp, ho⟩
  · exact ⟨_, haccept p hp ho ⟨p.tree _, _, nodup_eraseDups _⟩ rfl rfl⟩
  · rintro ⟨p, hp, ho, hd, hn⟩
    exact haccept p hp ho e (firstOccurrences_iff.1 hn) (hd.eq_tree e.names_nodup)

/-- The tokens of `2^(x--1)`: the first minus subtracts, the second is a sign. -/
def signTokens : List Token :=
  [⟨.number ['2'], 0⟩, ⟨.op .pow, 1⟩, ⟨.opening, 2⟩, ⟨.name ['x'], 3⟩, ⟨.op .sub, 4⟩, ⟨.op .sub, 5⟩,
    ⟨.number ['1'], 6⟩, ⟨.closing, 7⟩, ⟨.finish, 8⟩]

theorem parse_accepts_grammar_sign :
    let e : Equation Float := ⟨.pow (.num (Decimal.readLiteral ['2']))
      (.sub (.var 0) (.num (-Decimal.readLiteral ['1']))), ["x"], by decide⟩
    Token.scan "2^(x--1)" = .ok signTokens ∧
      (parse 1 (some "2^(x--1)")).outcome ≠ .error .recursion ∧
      (parse 1 (some "2^(x--1)")).outcome = .ok e ∧
      ∃ p, Derives .sum signTokens.dropLast p ∧ OpenAtMost (mostOpen 1) signTokens.dropLast ∧
        Denotes e.names p e.root ∧ FirstOccurrences (identifiers signTokens) e.names := by
  intro e
  have hscan : Token.scan "2^(x--1)" = .ok signTokens := by cbv
  have hok : (parse 1 (some "2^(x--1)")).outcome = .ok e := by
    rw [outcome_parse hscan]
    rfl
  have hstack : (parse 1 (some "2^(x--1)")).outcome ≠ .error .recursion := by
    rw [hok]
    intro h
    cases h
  exact ⟨hscan, hstack, hok, ((parse_accepts_grammar hscan hstack).2 e).1 hok⟩

end FormulaCalculus.Formula
