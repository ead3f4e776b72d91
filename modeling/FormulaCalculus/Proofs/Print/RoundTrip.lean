import FormulaCalculus.Proofs.Decimal.PlainText
import FormulaCalculus.Proofs.Print.Minimal
import FormulaCalculus.Settings
import FormulaCalculus.Tree.Traversal

/-!
# Minimal text is read back

`parse_minimal_parse`: what a formula was read as is read again from its minimal text. The text has
the tokens of a formula for the same phrase, and nests its brackets no deeper than any such formula,
so neither the limit nor the stack gets in the way.
-/

namespace FormulaCalculus.Formula

section Says
variable {names : List String} {l : Level} {ts : List Token} {p : Phrase}

theorem shownName_idxOf {name : String} (h : name ∈ names) :
    Equation.shownName names (names.idxOf name) = name := by
  have hlt := List.idxOf_lt_length_of_mem h
  rw [Equation.shownName, List.getElem?_eq_getElem hlt, List.getElem_idxOf hlt, Option.getD_some]

/-- Over a table of its names, the tree of a derivation says the phrase that was derived. -/
theorem Derives.says (h : Derives l ts p) (hts : ∀ t ∈ ts, Ordinary t.lexeme)
    (hn : ∀ name ∈ p.idents, name ∈ names)
    (hx : ∀ x, .num x ∈ (p.tree names).numbers → Spells (Decimal.plainText none x).toList x) :
    Says (.of names none) (p.tree names) p := by
  induction h with
  | number | negative => exact .num (hx _ (Tree.mem_numbers_num.2 rfl))
  | @ident t letters h hf =>
    have hword : Word letters := by
      have := hts t List.mem_cons_self
      rw [h] at this
      cases this
      assumption
    have hname : (Style.of names none).name (names.idxOf (String.ofList letters)) =
        String.ofList letters := shownName_idxOf (hn _ List.mem_cons_self)
    have := Says.var (s := .of names none) (i := names.idxOf (String.ofList letters)) (by
      rw [hname]
      exact ⟨by rwa [String.toList_ofList], hf⟩)
    rwa [hname] at this
  | group _ _ _ ih => exact ih (fun t ht => hts t (by simp [ht])) hn hx
  | call _ hop _ _ _ ih =>
    exact .call rfl (Option.filter_eq_some_iff.1 hop).2
      (ih (fun t ht => hts t (by simp [ht])) hn (Tree.forall_numbers_call.1 hx))
  | descend _ ih => exact ih hts hn hx
  | join hop _ _ _ ihp ihq =>
    rw [Phrase.idents, List.forall_mem_append] at hn
    obtain ⟨hxp, hxq⟩ := Tree.forall_numbers_binary.1 hx
    refine .binary rfl (Level.mem_operators_iff.1 hop).1 (ihp ?_ hn.1 hxp) (ihq ?_ hn.2 hxq)
    · exact fun t ht => hts t (List.mem_append_left _ ht)
    · exact fun t ht => hts t (List.mem_append_right _ (List.mem_cons_of_mem _ ht))

theorem minimal?_eq_ok {s : Style} {t : Tree Float} (h : Says s t p) (hdeep : t.isTooDeep = false) :
    t.minimal? s = .ok (t.minimalText s) := by
  simp only [Tree.minimal?, hdeep, h.checkMinimal_eq_ok]
  rfl

end Says

theorem identifiers_finish {ts : List Token} {last : Nat} :
    identifiers (ts ++ [⟨.finish, last⟩]) = identifiers ts := by
  rw [identifiers_append]
  exact List.append_nil _

/-- The minimal text of what a formula was read as is read as the same equation, and its brackets
nest no deeper than the formula's. -/
theorem parse_minimal_parse {σ : Settings} (hprecision : σ.numberPrecision = none)
    {formula : String} {e : Equation Float}
    (h : (parse σ.maxNestingDepth (some formula)).outcome = .ok e)
    (hfinite : ∀ x, .num x ∈ e.root.numbers → x.isFinite) :
    ∃ text, e.root.minimal? (.of e.names σ.precision) = .ok text ∧
      (parse σ.maxNestingDepth (some text)).outcome = .ok e ∧
      ∃ tokens tokens', Token.scan formula = .ok tokens ∧ Token.scan text = .ok tokens' ∧
        ∀ d, OpenAtMost d tokens → OpenAtMost d tokens' := by
  obtain ⟨tokens, hscan⟩ := scan_of_outcome_parse h
  obtain ⟨ts, last, rfl, hts⟩ := scan_eq_ok hscan
  obtain ⟨hn, hr⟩ := outcome_parse_eq_ok hscan h
  obtain ⟨p, hp, ho, hstack, hroot⟩ := derives_of_readTokens hts hr
  have hcomplete : e.root.isComplete := by
    rw [← hroot]
    exact isComplete_tree p
  obtain ⟨-, -, -, -, -, -, hdeep⟩ := derives_of_parse h
  have hsays : Says (.of e.names none) e.root p := by
    rw [← hroot]
    refine hp.says hts (fun name hname => ?_) fun x hx =>
      Decimal.spells_plainText (hfinite x (by rwa [← hroot]))
    rw [hn, variableNames_eq, List.mem_eraseDups, identifiers_finish, hp.identifiers_eq]
    exact hname
  -- The tokens of the text derive the same phrase, with brackets no deeper than the formula's.
  obtain ⟨us, hscans, hq, hopen⟩ := hsays.prints_minimalText 0
  have hnest {d : Int} (hd : OpenAtMost d ts) : OpenAtMost d us := by
    have := hp.nest_le hd
    exact hopen.mono (by omega)
  have hscan' := hscans.scan_eq_ok
  have hn' (last : Nat) : e.names = variableNames (us ++ [⟨.finish, last⟩]) := by
    rw [hn, variableNames_eq, variableNames_eq, identifiers_finish, identifiers_finish,
      hp.identifiers_eq, hq.identifiers_eq]
  have hprecise : σ.precision = none := by
    rw [Settings.precision, hprecision, Option.map_none]
  refine ⟨_, by rw [hprecise]; exact minimal?_eq_ok hsays hdeep, ?_, _, _, hscan, hscan', ?_⟩
  · rcases readTokens_of_derives (hq.weaken (Nat.zero_le _)) (hnest ho) with hr' | ⟨-, hexhausted⟩
    · rw [outcome_parse_of_readTokens hscan' (by rw [← hn', hr', hroot]) (hn' _) hcomplete, hdeep]
      rfl
    · exact absurd (hnest hstack) hexhausted
  · intro d hd
    rw [openAtMost_finish, hp.balanced] at hd
    rw [openAtMost_finish, hq.balanced]
    exact ⟨hnest hd.1, hd.2⟩

/-- `2-(x--0.1)` keeps its brackets. -/
theorem parse_minimal_parse_difference :
    let e : Equation Float := ⟨.sub (.num (Decimal.readLiteral ['2']))
      (.sub (.var 0) (.num (-Decimal.readLiteral ['0', '.', '1']))), ["x"], by decide⟩
    ({} : Settings).numberPrecision = none ∧
      (parse ({} : Settings).maxNestingDepth (some "2-(x--0.1)")).outcome = .ok e ∧
      (∀ x, .num x ∈ e.root.numbers → x.isFinite) ∧
      ∃ text, e.root.minimal? (.of e.names none) = .ok text ∧
        (parse ({} : Settings).maxNestingDepth (some text)).outcome = .ok e := by
  intro e
  have hscan : Token.scan "2-(x--0.1)" = .ok [⟨.number ['2'], 0⟩, ⟨.op .sub, 1⟩, ⟨.opening, 2⟩,
      ⟨.name ['x'], 3⟩, ⟨.op .sub, 4⟩, ⟨.op .sub, 5⟩, ⟨.number ['0', '.', '1'], 6⟩, ⟨.closing, 9⟩,
      ⟨.finish, 10⟩] := by cbv
  have hok : (parse ({} : Settings).maxNestingDepth (some "2-(x--0.1)")).outcome = .ok e := by
    rw [outcome_parse hscan]
    rfl
  have hfinite : ∀ x, .num x ∈ e.root.numbers → x.isFinite := by
    intro x hx
    have hx : x = Decimal.readLiteral ['2'] ∨ x = -Decimal.readLiteral ['0', '.', '1'] := by
      simpa [e, Tree.sub, Tree.mem_numbers_binary, Tree.numbers, Tree.preorder, Tree.isNumber]
        using hx
    rcases hx with rfl | rfl <;> decide +kernel
  obtain ⟨text, htext, hparse, -⟩ := parse_minimal_parse (σ := {}) rfl hok hfinite
  exact ⟨rfl, hok, hfinite, text, htext, hparse⟩

end FormulaCalculus.Formula
