import FormulaCalculus.Proofs.Formula.Limit
import FormulaCalculus.Proofs.Print.Full
import FormulaCalculus.Proofs.Print.RoundTrip
import FormulaCalculus.Proofs.Tree.Copy

/-!
# Both texts are read back

`parse_shown`: whatever well-formed tree an equation has, and to whatever precision it is printed,
both of its texts are read as the tree that is shown, with the variables numbered anew, if the limit
allows their brackets. `parse_full_parse`: the full text of what a formula was read as is read as
the same equation just if the limit is not below the levels of the tree, however few brackets the
formula had.
-/

namespace FormulaCalculus.Formula

/-! ### What a style shows -/

section Shown
variable {names : List String} {s : Style} {t : Tree Float} {p : Phrase}

/-- The name by which an index outside of the table goes. -/
theorem identifier_index (i : Nat) : Identifier ("X" ++ toString i) := by
  have hletters : ("X" ++ toString i).toList = 'X' :: Nat.toDigits 10 i := by
    rw [String.toList_append]
    exact congrArg ('X' :: ·) (String.toList_ofList)
  refine ⟨⟨'X', Nat.toDigits 10 i, hletters, by decide, fun c hc => ?_⟩, ?_⟩
  · have := Decimal.isDigit_toDigits i c hc
    simp only [Lexeme.isNamePart, Char.isAlphanum, this, Bool.or_true, Bool.true_or]
  · rw [Op.function?, Option.filter_eq_none_iff]
    intro op hop
    have hsymbol := List.find?_some hop
    rw [decide_eq_true_eq] at hsymbol
    have hhead := congrArg (fun s : String => s.toList.head?) hsymbol
    rw [hletters, List.head?_cons] at hhead
    cases op <;> exact absurd hhead (by decide)

theorem identifier_shownName (hnames : ∀ name ∈ names, Identifier name) (i : Nat) :
    Identifier (Equation.shownName names i) := by
  rw [Equation.shownName]
  cases hi : names[i]? with
  | none => exact identifier_index i
  | some name => exact hnames name (List.mem_of_getElem? hi)

theorem exists_says (precision : Option Nat) (hnames : ∀ name ∈ names, Identifier name)
    (ht : t.WellFormed) (hfinite : ∀ x, .num x ∈ t.numbers → x.isFinite) :
    ∃ p, Says (.of names precision) t p := by
  induction t with
  | num x =>
    obtain ⟨y, hy⟩ :=
      Decimal.exists_spells_plainText precision (hfinite x (Tree.mem_numbers_num.2 rfl))
    exact ⟨_, .num hy⟩
  | var i => exact ⟨_, .var (identifier_shownName hnames i)⟩
  | binary c l r ihl ihr =>
    obtain ⟨hc, hl, hr⟩ := ht
    obtain ⟨op, hop, hbin⟩ := Code.op?_of_isBinary hc
    obtain ⟨hfinitel, hfiniter⟩ := Tree.forall_numbers_binary.1 hfinite
    obtain ⟨p, hp⟩ := ihl hl hfinitel
    obtain ⟨q, hq⟩ := ihr hr hfiniter
    exact ⟨_, .binary hop hbin hp hq⟩
  | call c x ih =>
    obtain ⟨hc, hx⟩ := ht
    obtain ⟨op, hop, hfun⟩ := Code.op?_of_isFunction hc
    obtain ⟨p, hp⟩ := ih hx (Tree.forall_numbers_call.1 hfinite)
    exact ⟨_, .call hop hfun hp⟩
  | foreign kind text => exact ht.elim
  | missing => exact ht.elim

theorem Says.depth_tree (h : Says s t p) (names : List String) :
    (p.tree names).depth = t.depth := by
  induction h with
  | num | var => rfl
  | binary _ _ _ _ ihl ihr => simp only [Phrase.tree, Tree.depth, ihl, ihr]
  | call _ _ _ ih => simp only [Phrase.tree, Tree.depth, ih]

/-- The names of the phrase are those that the style shows the variables by, from left to right. -/
theorem Says.idents_eq (h : Says s t p) : p.idents = t.indices.map s.name := by
  induction h with
  | num | var => rfl
  | binary _ _ _ _ ihl ihr => rw [Phrase.idents, ihl, ihr, Tree.indices_binary, List.map_append]
  | call _ _ _ ih => rw [Phrase.idents, ih, Tree.indices_call]

theorem Says.isTooDeep_tree (h : Says s t p) (names : List String) :
    (p.tree names).isTooDeep = t.isTooDeep := by
  rw [Tree.isTooDeep, h.depth_tree, Tree.isTooDeep]

end Shown

/-! ### Reading a text for a phrase -/

section Reading
variable {limit : Count} {s : Style} {t : Tree Float} {text : String} {us : List Token}
  {p : Phrase}

theorem outcome_parse_of_derives (hs : Scans text.toList 0 us) (hp : Derives .sum us p)
    (hopen : OpenAtMost (mostOpen limit) us) (hstack : OpenAtMost Tree.maxDepth us)
    (hdeep : (p.tree p.idents.eraseDups).isTooDeep = false) :
    (parse limit (some text)).outcome =
      .ok ⟨p.tree p.idents.eraseDups, p.idents.eraseDups, nodup_eraseDups _⟩ := by
  set e : Equation Float := ⟨p.tree p.idents.eraseDups, p.idents.eraseDups, nodup_eraseDups _⟩
  have hn : e.names = variableNames (us ++ [⟨.finish, text.toList.length⟩]) :=
    hp.variableNames_eq.symm
  rcases readTokens_of_derives hp hopen with hr | ⟨-, hexhausted⟩
  · rw [outcome_parse_of_readTokens hs.scan_eq_ok (e := e) (by rw [← hn]; exact hr) hn
      (isComplete_tree p), if_neg (by rw [hdeep]; exact Bool.false_ne_true)]
  · exact absurd hstack hexhausted

/-- The text of a tree is cut into tokens, and if the limit allows their brackets, it is read as a
tree that says what the style shows, over a table of the names in the order of their first
occurrence. -/
def ReadsBack (limit : Count) (s : Style) (t : Tree Float) (text : String) : Prop :=
  ∃ tokens, Token.scan text = .ok tokens ∧ OpenAtMost (t.depth - 1 : Nat) tokens ∧
    (OpenAtMost (mostOpen limit) tokens → ∃ p e, Says s t p ∧
      (parse limit (some text)).outcome = .ok e ∧ Denotes e.names p e.root ∧
      FirstOccurrences (t.indices.map s.name) e.names)

theorem Says.readsBack (h : Says s t p) (hdeep : t.isTooDeep = false)
    (hs : Scans text.toList 0 us) (hp : Derives .sum us p)
    (ho : OpenAtMost (t.depth - 1 : Nat) us) : ReadsBack limit s t text := by
  have hfinish {d : Int} : OpenAtMost d (us ++ [⟨.finish, text.toList.length⟩]) ↔
      OpenAtMost d us := by
    rw [openAtMost_finish, hp.balanced]
    exact and_iff_left_of_imp OpenAtMost.nonneg
  refine ⟨_, hs.scan_eq_ok, hfinish.2 ho, fun hopen => ?_⟩
  have hshallow : t.depth ≤ Tree.maxDepth := by simpa [Tree.isTooDeep] using hdeep
  refine ⟨p, _, h, outcome_parse_of_derives hs hp (hfinish.1 hopen) (ho.mono (by omega))
    (by rw [h.isTooDeep_tree, hdeep]), ?_, ?_⟩
  · exact p.denotes_tree fun name hname => List.mem_eraseDups.2 hname
  · rw [← h.idents_eq]
    exact firstOccurrences_eraseDups _

end Reading

/-- Both texts of an equation are read back as what they show: variables go by their names in the
table, or by `X` and their index outside of it, and a number is the one that its text denotes. -/
theorem parse_shown (σ : Settings) {e : Equation Float} (hroot : e.root.WellFormed)
    (hfinite : ∀ x, .num x ∈ e.root.numbers → x.isFinite)
    (hnames : ∀ name ∈ e.names, Identifier name) :
    let s := Style.of e.names σ.precision
    if e.root.isTooDeep then
      e.root.full? s = .error .recursion ∧ e.root.minimal? s = .error .recursion
    else ∃ full minimal, e.root.full? s = .ok full ∧ e.root.minimal? s = .ok minimal ∧
      ReadsBack σ.maxNestingDepth s e.root full ∧
      ReadsBack σ.maxNestingDepth s e.root minimal := by
  intro s
  obtain ⟨p, hp⟩ := exists_says σ.precision hnames hroot hfinite
  cases hdeep : e.root.isTooDeep with
  | true =>
    rw [if_pos rfl, Tree.full?, Tree.minimal?, hdeep]
    exact ⟨rfl, rfl⟩
  | false =>
    rw [if_neg Bool.false_ne_true]
    obtain ⟨us, hs, hus, hopen⟩ := hp.encloses_fullText 0
    obtain ⟨vs, hs', hvs, hopen'⟩ := hp.prints_minimalText 0
    have hnest := hp.nest_lt_depth
    exact ⟨_, _, full?_eq_ok hp hdeep, minimal?_eq_ok hp hdeep,
      hp.readsBack hdeep hs (hus.weaken (Nat.zero_le _)) ((hopen _).2 (Int.le_refl _)),
      hp.readsBack hdeep hs' (hvs.weaken (Nat.zero_le _)) (hopen'.mono (by omega))⟩

/-- `(-0.25) ^ (y - X7)` over the table `x`, `y`, to one digit. -/
theorem parse_shown_power :
    let σ : Settings := { numberPrecision := some 1 }
    let e : Equation Float := ⟨.pow (.num (-0.25)) (.sub (.var 1) (.var 7)), ["x", "y"], by decide⟩
    let s := Style.of e.names σ.precision
    e.root.WellFormed ∧ (∀ x, .num x ∈ e.root.numbers → x.isFinite) ∧
      (∀ name ∈ e.names, Identifier name) ∧ ∃ full minimal e₁ e₂, e.root.full? s = .ok full ∧
        (parse σ.maxNestingDepth (some full)).outcome = .ok e₁ ∧ e₁.names = ["y", "X7"] ∧
        e.root.minimal? s = .ok minimal ∧
        (parse σ.maxNestingDepth (some minimal)).outcome = .ok e₂ ∧ e₂.names = ["y", "X7"] := by
  intro σ e s
  have hroot : e.root.WellFormed := by decide
  have hfinite : ∀ x, .num x ∈ e.root.numbers → x.isFinite := by
    intro x hx
    obtain rfl : x = -0.25 := by
      simpa [e, Tree.pow, Tree.sub, Tree.numbers, Tree.preorder, Tree.isNumber] using hx
    decide +kernel
  have hnames : ∀ name ∈ e.names, Identifier name := by
    have hidentifier : Identifier "x" ∧ Identifier "y" := by
      unfold Identifier
      decide
    simpa [e] using hidentifier
  have hread (text : String) (h : ReadsBack σ.maxNestingDepth s e.root text) :
      ∃ e', (parse σ.maxNestingDepth (some text)).outcome = .ok e' ∧ e'.names = ["y", "X7"] := by
    obtain ⟨tokens, -, ho, hparse⟩ := h
    obtain ⟨p, e', -, he, -, hfirst⟩ := hparse (ho.mono (by decide))
    exact ⟨e', he, hfirst.unique (firstOccurrences_eraseDups ["y", "X7"])⟩
  have h := parse_shown σ hroot hfinite hnames
  rw [if_neg (by decide)] at h
  obtain ⟨full, minimal, hfull, hminimal, hreads, hreads'⟩ := h
  obtain ⟨e₁, he₁, hn₁⟩ := hread full hreads
  obtain ⟨e₂, he₂, hn₂⟩ := hread minimal hreads'
  exact ⟨hroot, hfinite, hnames, full, minimal, e₁, e₂, hfull, he₁, hn₁, hminimal, he₂, hn₂⟩

/-! ### The full text of what was read -/

section Full
variable {limit : Count} {formula text : String} {e : Equation Float} {us : List Token} {p : Phrase}

theorem refused_parse_of_derives (hs : Scans text.toList 0 us) (hp : Derives .sum us p)
    (hstack : OpenAtMost Tree.maxDepth us) (ho : ¬OpenAtMost (mostOpen limit) us) :
    Refused limit (parse limit (some text)).outcome := by
  obtain ⟨ts, last, htokens, hts⟩ := scan_eq_ok hs.scan_eq_ok
  obtain ⟨rfl, -⟩ := List.append_inj' htokens rfl
  rw [outcome_parse hs.scan_eq_ok]
  exact (readTokens_of_not_openAtMost hp hts hstack ho).bind _

/-- What was read with finite numbers says a phrase, of which it is the tree over its names. -/
theorem says_of_parse (h : (parse limit (some formula)).outcome = .ok e)
    (hfinite : ∀ x, .num x ∈ e.root.numbers → x.isFinite) :
    ∃ p, Says (.of e.names none) e.root p ∧ e.root = p.tree e.names ∧
      e.names = p.idents.eraseDups ∧ e.root.isTooDeep = false := by
  obtain ⟨ts, p, hts, hp, hroot, hn, hdeep⟩ := derives_of_parse h
  refine ⟨p, ?_, hroot, hn, hdeep⟩
  rw [hroot]
  exact hp.says hts (fun name hname => by rwa [hn, List.mem_eraseDups]) fun x hx =>
    Decimal.spells_plainText (hfinite x (by rwa [hroot]))

end Full

/-- The full text of what a formula was read as nests one bracket for each level of the tree above
the leaves. It is read as the same equation if the limit allows so many, and else it is refused. -/
theorem parse_full_parse {σ : Settings} (hprecision : σ.numberPrecision = none)
    {formula : String} {e : Equation Float}
    (h : (parse σ.maxNestingDepth (some formula)).outcome = .ok e)
    (hfinite : ∀ x, .num x ∈ e.root.numbers → x.isFinite) :
    ∃ text, e.root.full? (.of e.names σ.precision) = .ok text ∧
      if e.root.depth ≤ mostOpen σ.maxNestingDepth + 1 then
        (parse σ.maxNestingDepth (some text)).outcome = .ok e
      else Refused σ.maxNestingDepth (parse σ.maxNestingDepth (some text)).outcome := by
  obtain ⟨p, hsays, hroot, hn, hdeep⟩ := says_of_parse h hfinite
  have hprecise : σ.precision = none := by
    rw [Settings.precision, hprecision, Option.map_none]
  obtain ⟨us, hs, hp, ho⟩ := hsays.encloses_fullText 0
  have hpos := e.root.depth_pos
  have hshallow : e.root.depth ≤ Tree.maxDepth := by simpa [Tree.isTooDeep] using hdeep
  have hstack : OpenAtMost Tree.maxDepth us := (ho _).2 (by omega)
  have hdeep' := hsays.isTooDeep_tree p.idents.eraseDups
  refine ⟨_, by rw [hprecise]; exact full?_eq_ok hsays hdeep, ?_⟩
  split_ifs with hlimit
  · rw [outcome_parse_of_derives hs (hp.weaken (Nat.zero_le _)) ((ho _).2 (by omega)) hstack
      (hdeep'.trans hdeep)]
    obtain ⟨root, names, hnodup⟩ := e
    obtain rfl : names = p.idents.eraseDups := hn
    obtain rfl : root = p.tree p.idents.eraseDups := hroot
    rfl
  · exact refused_parse_of_derives hs (hp.weaken (Nat.zero_le _)) hstack fun hopen =>
      hlimit (by have := (ho _).1 hopen; omega)

/-- The tokens of `x+x+x`. -/
def sumTokens : List Token :=
  [⟨.name ['x'], 0⟩, ⟨.op .add, 1⟩, ⟨.name ['x'], 2⟩, ⟨.op .add, 3⟩, ⟨.name ['x'], 4⟩, ⟨.finish, 5⟩]

/-- `x+x+x` has no brackets, and two levels of them in its full text. -/
theorem parse_full_parse_sum :
    let σ : Settings := { maxNestingDepth := 2 }
    let e : Equation Float := ⟨.add (.add (.var 0) (.var 0)) (.var 0), ["x"], by decide⟩
    σ.numberPrecision = none ∧ (parse σ.maxNestingDepth (some "x+x+x")).outcome = .ok e ∧
      (∀ x, .num x ∈ e.root.numbers → x.isFinite) ∧
      ∃ text, e.root.full? (.of e.names σ.precision) = .ok text ∧
        (parse σ.maxNestingDepth (some text)).outcome = .ok e := by
  intro σ e
  have hscan : Token.scan "x+x+x" = .ok sumTokens := by cbv
  have hok : (parse σ.maxNestingDepth (some "x+x+x")).outcome = .ok e := by
    rw [outcome_parse hscan]
    rfl
  have hfinite : ∀ x, .num x ∈ e.root.numbers → x.isFinite := by
    intro x hx
    simp [e, Tree.add, Tree.numbers, Tree.preorder, Tree.isNumber] at hx
  obtain ⟨text, htext, hparse⟩ := parse_full_parse (σ := σ) rfl hok hfinite
  rw [if_pos (by decide)] at hparse
  exact ⟨rfl, hok, hfinite, text, htext, hparse⟩

/-- Under a limit of one bracket `x+x+x` is read, and its full text is not. -/
theorem full_of_parse_refused :
    let σ : Settings := { maxNestingDepth := 1 }
    let e : Equation Float := ⟨.add (.add (.var 0) (.var 0)) (.var 0), ["x"], by decide⟩
    (parse σ.maxNestingDepth (some "x+x+x")).outcome = .ok e ∧
      e.root.full? (.of e.names σ.precision) = .ok "((x + x) + x)" ∧
      (parse σ.maxNestingDepth (some "((x + x) + x)")).outcome =
        .error (.formula (.nestedTooDeeply 1) 1) := by
  intro σ e
  have hscan : Token.scan "x+x+x" = .ok sumTokens := by cbv
  have hscan' : Token.scan "((x + x) + x)" = .ok [⟨.opening, 0⟩, ⟨.opening, 1⟩, ⟨.name ['x'], 2⟩,
      ⟨.op .add, 4⟩, ⟨.name ['x'], 6⟩, ⟨.closing, 7⟩, ⟨.op .add, 9⟩, ⟨.name ['x'], 11⟩,
      ⟨.closing, 12⟩, ⟨.finish, 13⟩] := by cbv
  refine ⟨?_, ?_, ?_⟩
  · rw [outcome_parse hscan]
    rfl
  · rfl
  · rw [outcome_parse hscan']
    rfl

end FormulaCalculus.Formula
