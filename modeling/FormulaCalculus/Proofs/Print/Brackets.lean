import FormulaCalculus.Proofs.Equality.Trees
import FormulaCalculus.Proofs.Formula.Cuts
import FormulaCalculus.Proofs.Print.ReadBack

/-!
# Brackets of the minimal text

The minimal text has the least number of brackets: a formula that is read as an equal equation has
no fewer opening ones. Hence every one of them is needed, those of functions included: a text that
lacks one is a formula for something else, or no formula.
-/

namespace FormulaCalculus.Formula

/-! ### Opening brackets of a formula -/

/-- How many brackets a token list opens. -/
def openings (ts : List Token) : Nat :=
  ts.countP fun t => t.lexeme = .opening

theorem openings_append (ts us : List Token) :
    openings (ts ++ us) = openings ts + openings us :=
  List.countP_append

theorem openings_cons_opening {t : Token} {ts : List Token} (h : t.lexeme = .opening) :
    openings (t :: ts) = openings ts + 1 :=
  List.countP_cons_of_pos (by rw [h]; rfl)

theorem openings_cons_of_ne {t : Token} {ts : List Token} (h : t.lexeme ≠ .opening) :
    openings (t :: ts) = openings ts :=
  List.countP_cons_of_neg (by simpa using h)

/-- How many brackets the minimal text for a phrase has, counted by the opening ones. -/
def Phrase.brackets : Phrase → Nat
  | .number _ => 0
  | .ident _ => 0
  | .binary op p q => p.brackets + p.wrap (levelOf op) + (q.brackets + q.wrap (levelOf op).next)
  | .call _ p => p.brackets + 1

theorem wrap_le_one (l : Level) (p : Phrase) : p.wrap l ≤ 1 := by
  rw [Phrase.wrap]
  split_ifs <;> omega

/-- Whatever formula a phrase is derived from, it has as many brackets as the minimal text. -/
theorem Derives.brackets_le {l : Level} {ts : List Token} {p : Phrase} (h : Derives l ts p) :
    p.brackets + p.wrap l ≤ openings ts := by
  induction h with
  | number | negative | ident => exact Nat.zero_le _
  | @group o c ts p ho hc _ ih =>
    rw [openings_cons_opening ho, openings_append]
    have := wrap_le_one .primary p
    omega
  | call hf _ ho hc _ ih =>
    rw [openings_cons_of_ne (by rw [hf]; nofun), openings_cons_opening ho, openings_append,
      Phrase.brackets, show Phrase.wrap .primary (.call _ _) = 0 from wrap_level (.call _ _)]
    omega
  | @descend l _ p _ ih =>
    have := wrap_mono l.rank_le_next p
    omega
  | @join l o op ts us p q hop ho _ _ ihp ihq =>
    obtain ⟨-, rfl⟩ := Level.mem_operators_iff.1 hop
    rw [openings_append, openings_cons_of_ne (by rw [ho]; nofun), Phrase.brackets,
      show Phrase.wrap (levelOf op) (.binary op p q) = 0 from wrap_level (.binary op p q)]
    omega

/-! ### Opening brackets of a text -/

section Scan
variable {cs : List Char}

theorem Numeral.opening_notMem (h : Numeral cs) : '(' ∉ cs :=
  fun hmem => absurd (h.isDigit_or_point _ hmem) (by decide)

theorem Word.opening_notMem (h : Word cs) : '(' ∉ cs :=
  fun hmem => absurd (isNamePart_of_word h _ hmem) (by decide)

theorem Ordinary.count_opening {l : Lexeme} (h : Ordinary l) :
    l.text.toList.count '(' = if l = .opening then 1 else 0 := by
  cases h with
  | number h =>
    rw [Lexeme.text, String.toList_ofList]
    exact List.count_eq_zero.2 h.opening_notMem
  | name h =>
    rw [Lexeme.text, String.toList_ofList]
    exact List.count_eq_zero.2 h.opening_notMem
  | @op op => cases op <;> rfl
  | opening | closing => rfl

/-- A text opens as many brackets as the tokens that it is cut into. -/
theorem Cut.openings_eq {rest : List Char} {position : Nat} {ts : List Token}
    (h : Cut rest position cs ts) : openings ts = cs.count '(' := by
  induction h with
  | nil => rfl
  | blank hc _ ih =>
    rw [ih, List.count_cons_of_ne]
    rintro rfl
    revert hc
    decide
  | @lexeme position l cs ts hl _ _ ih =>
    rw [List.count_append, ← ih, hl.count_opening]
    by_cases hopening : l = .opening
    · rw [openings_cons_opening hopening, if_pos hopening, Nat.add_comm]
    · rw [openings_cons_of_ne hopening, if_neg hopening, Nat.zero_add]

theorem openings_scan {formula : String} {tokens : List Token}
    (h : Token.scan formula = .ok tokens) : openings tokens = formula.toList.count '(' := by
  obtain ⟨ts, rfl, hcut⟩ := cut_of_scan_eq_ok h
  rw [openings_append, hcut.openings_eq]
  rfl

end Scan

/-! ### Opening brackets of the minimal text -/

section Text
variable {s : Style} {t : Tree Float} {p : Phrase} {cs : List Char}

theorem Spells.opening_notMem {x : Float} (h : Spells cs x) : '(' ∉ cs := by
  cases h with
  | plain h => exact h.opening_notMem
  | negative h =>
    rw [List.mem_cons]
    exact not_or.2 ⟨by decide, h.opening_notMem⟩

theorem opening_notMem_symbol {op : Op} (h : op.isBinary) : '(' ∉ op.symbol.toList := by
  cases op with
  | add | sub | mul | div | pow => decide
  | _ => cases h

theorem count_operand (l : Level) (p : Phrase) (cs : List Char) :
    (if p.level.rank < l.rank then '(' :: (cs ++ [')']) else cs).count '(' =
      cs.count '(' + p.wrap l := by
  rw [Phrase.wrap]
  split_ifs
  · rw [List.count_cons_self, List.count_append]
    rfl
  · rfl

theorem Says.count_minimalText (h : Says s t p) :
    (t.minimalText s).toList.count '(' = p.brackets := by
  induction h with
  | num h => exact List.count_eq_zero.2 h.opening_notMem
  | var h => exact List.count_eq_zero.2 h.1.opening_notMem
  | @binary c op l r p q hop hbin hl hr ihl ihr =>
    rw [toList_minimalText_binary, hl.binding_eq, hr.binding_eq]
    simp only [Code.precedence, Code.symbol, hop, Option.elim_some, precedence_eq,
      Nat.add_lt_add_iff_right, Nat.add_le_add_iff_right]
    have hright := count_operand (levelOf op).next q (r.minimalText s).toList
    rw [rank_next_levelOf hbin] at hright
    simp only [Nat.lt_succ_iff] at hright
    rw [List.count_append, count_operand, List.count_cons_of_ne (by decide), List.count_append,
      List.count_eq_zero.2 (opening_notMem_symbol hbin), List.count_cons_of_ne (by decide), hright,
      ihl, ihr, Nat.zero_add, Phrase.brackets]
  | @call c op x p hop hfun _ ih =>
    rw [toList_minimalText_call]
    simp only [Code.symbol, hop, Option.elim_some]
    rw [List.count_append, List.count_eq_zero.2 (word_symbol hfun).opening_notMem,
      List.count_cons_self, List.count_append, ih, Nat.zero_add]
    rfl

end Text

/-! ### Equal equations -/

/-- Phrases with like trees have their brackets in the same places. -/
theorem level_brackets_of_like {R : Float → Float → Prop} {names names' : List String}
    {p q : Phrase} (h : Tree.Like R (p.tree names) (q.tree names')) :
    p.level = q.level ∧ p.brackets = q.brackets := by
  induction p generalizing q with
  | number | ident =>
    cases q with
    | number | ident => exact ⟨rfl, rfl⟩
    | binary | call => cases h
  | binary op p₁ p₂ ih₁ ih₂ =>
    cases q with
    | binary op' q₁ q₂ =>
      cases h with
      | binary hc hl hr =>
        obtain rfl : op = op' := Option.some.inj (Code.op?_eq_of_same hc)
        obtain ⟨hlevel₁, hbrackets₁⟩ := ih₁ hl
        obtain ⟨hlevel₂, hbrackets₂⟩ := ih₂ hr
        exact ⟨rfl, by
          simp only [Phrase.brackets, Phrase.wrap, hlevel₁, hbrackets₁, hlevel₂, hbrackets₂]⟩
    | number | ident | call => cases h
  | call op p ih =>
    cases q with
    | call op' q =>
      cases h with
      | call _ ht => exact ⟨rfl, congrArg (· + 1) (ih ht).2⟩
    | number | ident | binary => cases h

/-- A formula that is read as an equation equal to what the tree says has no fewer brackets than the
minimal text of the tree. -/
theorem Says.count_minimalText_le {s : Style} {t : Tree Float} {p : Phrase} (hp : Says s t p)
    {limit : Count} {formula : String} {e : Equation Float}
    (h : (parse limit (some formula)).outcome = .ok e) {names : List String}
    (hsame : (p.tree names).same e.root) :
    (t.minimalText s).toList.count '(' ≤ formula.toList.count '(' := by
  obtain ⟨tokens, hscan⟩ := scan_of_outcome_parse h
  obtain ⟨ts, last, rfl, hts⟩ := scan_eq_ok hscan
  obtain ⟨-, hr⟩ := outcome_parse_eq_ok hscan h
  obtain ⟨q, hq, -, -, hroot⟩ := derives_of_readTokens hts hr
  rw [← hroot] at hsame
  calc (t.minimalText s).toList.count '(' = p.brackets := hp.count_minimalText
    _ = q.brackets := (level_brackets_of_like (Tree.like_of_sameWith hsame)).2
    _ ≤ openings ts := (Nat.le_add_right _ _).trans hq.brackets_le
    _ ≤ openings (ts ++ [⟨.finish, last⟩]) := by
      rw [openings_append]
      exact Nat.le_add_right _ _
    _ = formula.toList.count '(' := openings_scan hscan

/-- `text'` is `text` without one opening bracket and one of the closing ones after it. -/
def DropsPair (text text' : String) : Prop :=
  ∃ us vs ws, text.toList = us ++ '(' :: (vs ++ ')' :: ws) ∧ text'.toList = us ++ (vs ++ ws)

theorem DropsPair.count_lt {text text' : String} (h : DropsPair text text') :
    text'.toList.count '(' < text.toList.count '(' := by
  obtain ⟨us, vs, ws, htext, htext'⟩ := h
  rw [htext, htext', List.count_append, List.count_append, List.count_append, List.count_cons_self,
    List.count_append, List.count_cons_of_ne (by decide)]
  omega

/-- The minimal text is a formula, and under no limit is a text that lacks a pair of its brackets
read as an equal equation. -/
theorem minimal_brackets_needed (precision : Option Nat) {e : Equation Float}
    (hroot : e.root.WellFormed) (hfinite : ∀ x, .num x ∈ e.root.numbers → x.isFinite)
    (hnames : ∀ name ∈ e.names, Identifier name) (hdeep : e.root.isTooDeep = false) :
    ∃ text tokens e₀, e.root.minimal? (.of e.names precision) = .ok text ∧
      Token.scan text = .ok tokens ∧
      (∀ limit, nesting tokens ≤ mostOpen limit → (parse limit (some text)).outcome = .ok e₀) ∧
      ∀ text', DropsPair text text' → ∀ limit e₁,
        (parse limit (some text')).outcome = .ok e₁ → e₀.same e₁ = false := by
  obtain ⟨p, hp⟩ := exists_says precision hnames hroot hfinite
  obtain ⟨ts, hs, hts, hopen⟩ := hp.prints_minimalText 0
  have hshallow : e.root.depth ≤ Tree.maxDepth := by simpa [Tree.isTooDeep] using hdeep
  have hstack : OpenAtMost Tree.maxDepth ts :=
    hopen.mono (by have := hp.nest_lt_depth; omega)
  refine ⟨_, _, ⟨p.tree p.idents.eraseDups, p.idents.eraseDups, nodup_eraseDups _⟩,
    minimal?_eq_ok hp hdeep, hs.scan_eq_ok, fun limit hlimit => ?_, ?_⟩
  · rw [← openAtMost_iff, openAtMost_finish] at hlimit
    exact outcome_parse_of_derives hs (hts.weaken (Nat.zero_le _)) hlimit.1 hstack
      ((hp.isTooDeep_tree _).trans hdeep)
  · intro text' hdrop limit e₁ he₁
    rw [← Bool.not_eq_true, Equation.same, Bool.and_eq_true]
    rintro ⟨-, hsame⟩
    exact absurd (hp.count_minimalText_le he₁ hsame) (Nat.not_le.2 hdrop.count_lt)

/-- Without its brackets `x - (y - x)` is another difference. -/
theorem minimal_brackets_needed_difference :
    let e : Equation Float := ⟨.sub (.var 0) (.sub (.var 1) (.var 0)), ["x", "y"], by decide⟩
    e.root.WellFormed ∧ (∀ x, .num x ∈ e.root.numbers → x.isFinite) ∧
      (∀ name ∈ e.names, Identifier name) ∧ e.root.isTooDeep = false ∧
      e.root.minimal? (.of e.names none) = .ok "x - (y - x)" ∧
      ∃ e₀ e₁, (parse 1 (some "x - (y - x)")).outcome = .ok e₀ ∧
        (parse 1 (some "x - y - x")).outcome = .ok e₁ ∧ e₀.same e₁ = false := by
  intro e
  have hroot : e.root.WellFormed := by decide
  have hfinite : ∀ x, .num x ∈ e.root.numbers → x.isFinite := by
    intro x hx
    simp [e, Tree.sub, Tree.numbers, Tree.preorder, Tree.isNumber] at hx
  have hnames : ∀ name ∈ e.names, Identifier name := by
    have hidentifier : Identifier "x" ∧ Identifier "y" := by
      unfold Identifier
      decide
    simpa [e] using hidentifier
  have hminimal : e.root.minimal? (.of e.names none) = .ok "x - (y - x)" := rfl
  have hscan : Token.scan "x - (y - x)" = .ok [⟨.name ['x'], 0⟩, ⟨.op .sub, 2⟩, ⟨.opening, 4⟩,
      ⟨.name ['y'], 5⟩, ⟨.op .sub, 7⟩, ⟨.name ['x'], 9⟩, ⟨.closing, 10⟩, ⟨.finish, 11⟩] := by cbv
  have hscan' : Token.scan "x - y - x" = .ok [⟨.name ['x'], 0⟩, ⟨.op .sub, 2⟩, ⟨.name ['y'], 4⟩,
      ⟨.op .sub, 6⟩, ⟨.name ['x'], 8⟩, ⟨.finish, 9⟩] := by cbv
  have hless : (parse 1 (some "x - y - x")).outcome =
      .ok ⟨.sub (.sub (.var 0) (.var 1)) (.var 0), ["x", "y"], by decide⟩ := by
    rw [outcome_parse hscan']
    rfl
  obtain ⟨text, tokens, e₀, htext, htokens, hparse, hneeded⟩ :=
    minimal_brackets_needed none hroot hfinite hnames (by decide)
  obtain rfl := Except.ok.inj (hminimal.symm.trans htext)
  obtain rfl := Except.ok.inj (hscan.symm.trans htokens)
  have hdrop : DropsPair "x - (y - x)" "x - y - x" :=
    ⟨"x - ".toList, "y - x".toList, [], by decide, by decide⟩
  exact ⟨hroot, hfinite, hnames, by decide, hminimal, e₀, _, hparse 1 (by decide), hless,
    hneeded _ hdrop 1 _ hless⟩

end FormulaCalculus.Formula
