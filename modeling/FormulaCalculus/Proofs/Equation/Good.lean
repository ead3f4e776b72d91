import FormulaCalculus.Proofs.Derivative.Validity
import FormulaCalculus.Proofs.Formula.Acceptance
import FormulaCalculus.Proofs.Simplify.FixedPoint
import FormulaCalculus.Proofs.Simplify.Validity
import FormulaCalculus.Taylor

/-!
# Good equations

An equation is good if the validator accepts its tree over its table. What a formula is read as is
good, and every operation makes good equations over the same table of good ones. A simplification
that fails leaves a good equation, too.
-/

namespace FormulaCalculus

namespace Equation

variable {α : Type} {e e' e'' : Equation α} {t : Tree α}

/-- The validator accepts the tree over the table. -/
def Good (e : Equation α) : Prop :=
  e.root.validate (some e.names.length) = .ok ()

theorem good_iff : e.Good ↔ e.root.Valid (some e.names.length) :=
  Tree.validate_eq_ok_iff

/-- The equation `e'` is good and has the table of `e`. -/
structure Keeps (e e' : Equation α) : Prop where
  good : e'.Good
  names_eq : e'.names = e.names

/-- What may go wrong with a good equation: an operator is outside its domain, or the tree is too
deep for the stack. -/
def MayRaise (e : Equation α) (fault : Fault) : Prop :=
  fault.IsDomain ∨ fault.IsExhaustion ∧ e.root.isTooDeep

theorem Good.keeps (h : e.Good) : Keeps e e :=
  ⟨h, rfl⟩

theorem Keeps.trans (h : Keeps e e') (h' : Keeps e' e'') : Keeps e e'' :=
  ⟨h'.good, h'.names_eq.trans h.names_eq⟩

theorem keeps_withRoot (h : t.Valid (some e.names.length)) : Keeps e (e.withRoot t) :=
  ⟨good_iff.2 h, rfl⟩

/-! ### Copies and derivatives -/

theorem Good.keeps_of_copy? (h : e.Good) (hcopy : e.copy? = .ok e') : Keeps e e' := by
  obtain ⟨t, ht, hvalid⟩ := (good_iff.1 h).exists_copy
  simp only [copy?, ht] at hcopy
  cases hdepth : e.root.checkDepth with
  | error fault => rw [hdepth] at hcopy; cases hcopy
  | ok u =>
    rw [hdepth] at hcopy
    obtain rfl : e.withRoot t = e' := Except.ok.inj hcopy
    exact keeps_withRoot hvalid

variable [Scalar α]

/-- By one of its variables a good equation has a derivative, unless a tree is too deep. -/
theorem Good.outcome_differentiate (h : e.Good) {i : Int} (h0 : 0 ≤ i)
    (hi : i < max e.names.length 1) : ∃ d, e.root.differentiate? i = .ok d ∧
      d.Valid (some e.names.length) ∧ (e.differentiate i).outcome =
        if e.root.isTooDeep then .error (.nestedTooDeeply "differentiate")
        else if d.isTooDeep then .error .recursion else .ok (e.withRoot d) := by
  have hroot := good_iff.1 h
  obtain ⟨d, hd, hvalid⟩ := hroot.exists_differentiate i
  refine ⟨d, hd, hvalid, ?_⟩
  have hindex : ¬ (i < 0 ∨ ((max e.names.length 1 : ℕ) : Int) ≤ i) := by omega
  rw [differentiate, if_neg hindex]
  cases hdeep : e.root.isTooDeep with
  | true => rfl
  | false =>
    simp only [Bool.false_eq_true, if_false, Traced.outcome_ofExcept, hd, bind,
      Tree.size?_of_isComplete hroot.wellFormed.isComplete hdeep,
      Tree.size?_eq_ite hvalid.wellFormed.isComplete]
    cases d.isTooDeep <;> rfl

theorem Good.keeps_of_differentiate (h : e.Good) {i : Int}
    (hok : (e.differentiate i).outcome = .ok e') : Keeps e e' := by
  by_cases hi : i < 0 ∨ ((max e.names.length 1 : ℕ) : Int) ≤ i
  · rw [differentiate, if_pos hi] at hok
    cases hok
  · obtain ⟨d, -, hvalid, houtcome⟩ := h.outcome_differentiate (i := i) (by omega) (by omega)
    rw [houtcome] at hok
    split_ifs at hok
    obtain rfl := Except.ok.inj hok
    exact keeps_withRoot hvalid

/-! ### Simplification -/

section Simplify
variable {β : Type} {ε : α}

omit [Scalar α] in
theorem MayRaise.of_isTooDeep (h : e'.root.isTooDeep → e.root.isTooDeep) {fault : Fault}
    (hf : e'.MayRaise fault) : e.MayRaise fault :=
  hf.imp_right fun hdeep => ⟨hdeep.1, h hdeep.2⟩

omit [Scalar α] in
theorem Good.mayRaise_of_size? (h : e.Good) {fault : Fault} (hf : e.root.size? = .error fault) :
    e.MayRaise fault := by
  rw [Tree.size?_eq_ite (good_iff.1 h).wellFormed.isComplete] at hf
  split_ifs at hf with hdeep
  exact Or.inr ⟨Or.inl (Except.error.inj hf).symm, hdeep⟩

theorem Good.runPass_of_error (h : e.Good) {fault : Fault}
    (hrun : e.runPass ε = (e', .error fault)) : Keeps e e' ∧ e.MayRaise fault := by
  have hpass := (good_iff.1 h).simplifyPass ε
  unfold Equation.runPass Tree.simplify? at hrun
  cases hdeep : e.root.isTooDeep with
  | true =>
    rw [hdeep] at hrun
    cases hrun
    exact ⟨h.keeps, Or.inr ⟨Or.inr ⟨_, rfl⟩, hdeep⟩⟩
  | false =>
    rw [hdeep] at hrun
    cases houtcome : (e.root.simplifyPass ε).outcome with
    | error g =>
      simp only [houtcome, Bool.false_eq_true, if_false] at hrun
      cases hrun
      exact ⟨keeps_withRoot hpass.tree, Or.inl (hpass.faults _ houtcome)⟩
    | ok o =>
      simp only [houtcome, Bool.false_eq_true, if_false] at hrun
      cases hrun

/-- A pass that succeeds makes no tree too deep. -/
theorem Good.runPass_of_ok (h : e.Good) {n : Nat} (hrun : e.runPass ε = (e', .ok n)) :
    Keeps e e' ∧ (e'.root.isTooDeep → e.root.isTooDeep) := by
  obtain ⟨p, o, hp, ho, rfl, -⟩ := runPass_eq_ok hrun
  obtain ⟨hdeep, rfl⟩ := Tree.simplify?_eq_ok.1 hp
  refine ⟨keeps_withRoot ((good_iff.1 h).simplifyPass ε).tree, fun hdeep' => ?_⟩
  rw [root_withRoot, Tree.isTooDeep_eq_false_of_le hdeep (Tree.depth_simplifyPass_le _ _)] at hdeep'
  cases hdeep'

/-- A good equation with the table of `e` is left, and nothing goes wrong but what `P` allows. -/
structure Reworks (P : Fault → Prop) (e : Equation α) (r : Rework α β) : Prop where
  keeps : Keeps e r.equation
  faults : ∀ fault, r.result.outcome = .error fault → P fault

theorem Good.simplify (h : e.Good) (ε : α) : Reworks e.MayRaise e (e.simplify ε) := by
  unfold Equation.simplify
  split
  · rename_i fault hf
    exact ⟨h.keeps, fun g hg => Except.error.inj hg ▸ h.mayRaise_of_size? hf⟩
  split
  · rename_i e' fault hrun
    obtain ⟨hkeeps, hfault⟩ := h.runPass_of_error hrun
    exact ⟨hkeeps, fun g hg => Except.error.inj hg ▸ hfault⟩
  · rename_i e' n hrun
    obtain ⟨hkeeps, hdeep⟩ := h.runPass_of_ok hrun
    refine ⟨hkeeps, fun fault hf => (hkeeps.good.mayRaise_of_size? ?_).of_isTooDeep hdeep⟩
    simp only [Traced.outcome_bind, Traced.outcome_ofExcept] at hf
    cases hafter : e'.root.size? with
    | error g => rw [hafter] at hf; cases hf; rfl
    | ok n => rw [hafter] at hf; cases hf

theorem Good.repeatPasses (h : e.Good) (ε : α) (limit : Count) (fuel passed : Nat) :
    Reworks e.MayRaise e (repeatPasses ε limit fuel passed e) := by
  induction fuel generalizing e passed with
  | zero => exact ⟨h.keeps, nofun⟩
  | succ fuel ih =>
    unfold Equation.repeatPasses
    split
    · rename_i e' fault hrun
      obtain ⟨hkeeps, hfault⟩ := h.runPass_of_error hrun
      exact ⟨hkeeps, fun g hg => Except.error.inj hg ▸ hfault⟩
    · rename_i e' hrun
      exact ⟨(h.runPass_of_ok hrun).1, nofun⟩
    · rename_i e' n hrun
      obtain ⟨hkeeps, hdeep⟩ := h.runPass_of_ok hrun
      have hrest := ih hkeeps.good (passed + 1)
      exact ⟨hkeeps.trans hrest.keeps, fun fault hf => (hrest.faults fault hf).of_isTooDeep hdeep⟩

/-- Repeated passes raise what a single one may raise, if they are to be made at all. -/
theorem Good.simplifyFully (h : e.Good) (ε : α) (limit : Count) :
    Reworks (fun fault => e.MayRaise fault ∨ limit.value ≤ 0 ∧ fault = .badPassLimit) e
      (e.simplifyFully ε limit) := by
  unfold Equation.simplifyFully
  split_ifs with hlimit
  · exact ⟨h.keeps, fun fault hf => Or.inr ⟨hlimit, (Except.error.inj hf).symm⟩⟩
  · have hpasses := h.repeatPasses ε limit limit.value.toNat 0
    exact ⟨hpasses.keeps, fun fault hf => Or.inl (hpasses.faults fault hf)⟩

end Simplify

/-! ### Taylor polynomials -/

section Taylor
variable {n : Int} {ε point : α}

theorem valid_base (hn : 0 < n) : (Taylor.base point).Valid (some n) := by
  have hvar : (.var 0 : Tree α).Valid (some n) := by
    rw [Tree.valid_var_iff]
    rintro _ ⟨⟩
    exact hn
  unfold Taylor.base
  split
  · exact hvar
  · exact Tree.valid_of_isBinary rfl hvar (Tree.valid_num _)

theorem valid_plusTerm (hn : 0 < n) {total : Tree α} (h : total.Valid (some n)) (point c : α)
    (k : Nat) : (Taylor.plusTerm point c k total).Valid (some n) := by
  have hpower : (Tree.pow (Taylor.base point) (.int k)).Valid (some n) :=
    Tree.valid_of_isBinary rfl (valid_base hn) (Tree.valid_num _)
  exact Tree.valid_of_isBinary rfl h (Tree.valid_of_isBinary rfl (Tree.valid_num _) hpower)

theorem valid_addTerms (hn : 0 < n) {count k factorial : Nat} {total : Tree α}
    (htotal : total.Valid (some n))
    (h : (Taylor.addTerms ε point count k factorial e total).outcome = .ok t) :
    t.Valid (some n) := by
  induction count generalizing k factorial e total with
  | zero =>
    obtain rfl : total = t := Except.ok.inj h
    exact htotal
  | succ count ih =>
    rw [Taylor.addTerms] at h
    obtain ⟨value, -, h⟩ := Traced.exists_of_outcome_bind h
    obtain ⟨-, -, h⟩ := Traced.exists_of_outcome_bind h
    dsimp only at h
    split at h
    · rename_i divisor hdivisor
      have hsum := valid_plusTerm hn htotal point (Scalar.div value divisor) (k + 1)
      split at h
      · obtain rfl := Except.ok.inj h
        exact hsum
      · obtain ⟨e', -, h⟩ := Traced.exists_of_outcome_bind h
        exact ih hsum h
    · cases h

/-- Every tree that an expansion yields is built anew, so `e` need not be good. -/
theorem keeps_of_taylor {order : Option Int} (h : (e.taylor ε order point).outcome = .ok e') :
    Keeps e e' := by
  unfold taylor at h
  obtain ⟨order, -, h⟩ := Traced.exists_of_outcome_bind h
  obtain ⟨value, -, h⟩ := Traced.exists_of_outcome_bind h
  split at h
  · obtain ⟨-, -, h⟩ := Traced.exists_of_outcome_bind h
    obtain rfl := Except.ok.inj h
    exact keeps_withRoot (Tree.valid_num value)
  · rename_i hnames
    obtain ⟨derivative, -, h⟩ := Traced.exists_of_outcome_bind h
    obtain ⟨root, hroot, h⟩ := Traced.exists_of_outcome_bind h
    obtain rfl := Except.ok.inj h
    have hpos : 0 < e.names.length := List.length_pos_iff.2 (by simpa using hnames)
    exact keeps_withRoot (valid_addTerms (by omega) (Tree.valid_num value) hroot)

end Taylor

/-! ### Evaluation -/

theorem Good.mayRaise_of_evaluate (h : e.Good) {values : List α}
    (hvalues : e.names.length ≤ values.length) {fault : Fault}
    (hf : e.evaluate values = .error fault) : e.MayRaise fault := by
  rw [evaluate, if_neg (Nat.not_lt.2 hvalues)] at hf
  split_ifs at hf with hdeep
  · exact Or.inr ⟨Or.inr ⟨_, (Except.error.inj hf).symm⟩, hdeep⟩
  · exact Or.inl ((good_iff.1 h).isDomain_of_evaluate hvalues hf)

end Equation

/-! ### Formulas -/

namespace Formula

variable {names : List String} {l : Level} {ts : List Token} {p : Phrase}

theorem Derives.valid_tree (h : Derives l ts p) (hn : ∀ name ∈ p.idents, name ∈ names) :
    (p.tree names).Valid (some names.length) := by
  induction h with
  | number | negative => exact Tree.valid_num _
  | ident =>
    rw [Phrase.tree, Tree.valid_var_iff]
    rintro _ ⟨⟩
    exact Int.ofNat_lt.2 (List.idxOf_lt_length_of_mem (hn _ List.mem_cons_self))
  | group _ _ _ ih => exact ih hn
  | call _ hop _ _ _ ih =>
    exact Tree.valid_of_isFunction (Option.filter_eq_some_iff.1 hop).2 (ih hn)
  | descend _ ih => exact ih hn
  | join hop _ _ _ ihp ihq =>
    rw [Phrase.idents, List.forall_mem_append] at hn
    exact Tree.valid_of_isBinary (Level.mem_operators_iff.1 hop).1 (ihp hn.1) (ihq hn.2)

/-- What a formula is read as is good. -/
theorem good_of_parse {limit : Count} {formula : Option String} {e : Equation Float}
    (h : (parse limit formula).outcome = .ok e) : e.Good := by
  cases formula with
  | none => cases h
  | some formula =>
    obtain ⟨ts, p, -, hp, hroot, hn, -⟩ := derives_of_parse h
    rw [Equation.good_iff, hroot]
    exact hp.valid_tree fun name hname => by rwa [hn, List.mem_eraseDups]

end Formula

end FormulaCalculus
