import FormulaCalculus.Proofs.Algebra.Reading
import FormulaCalculus.Proofs.Tree.ExactValue
import FormulaCalculus.Proofs.Tree.Validator
import FormulaCalculus.Tree.Traversal

/-!
# Algebra terms mean what their trees mean

Over the real numbers the term of a valid tree has the value of the tree, and none where the tree
has none, if both read the inverse cotangent alike. Trees evaluate it as `π/2` less the inverse
tangent. The principal inverse cotangent is the same on what is not negative, and `π` less on what
is.
-/

namespace FormulaCalculus

/-! ### Trees over the real numbers -/

namespace Tree

/-- The tree with the exact values of its numbers. -/
noncomputable def exact : Tree Float → Tree ℝ
  | num x => num (Double.exact x : ℚ)
  | var i => var i
  | binary c l r => binary c l.exact r.exact
  | call c t => call c t.exact
  | foreign kind text => foreign kind text
  | missing => missing

theorem valid_exact_iff {count : Option Int} {t : Tree Float} :
    t.exact.Valid count ↔ t.Valid count := by
  induction t with
  | num x => exact iff_of_true (valid_num _) (valid_num x)
  | var i => rw [exact, valid_var_iff, valid_var_iff]
  | binary c l r ihl ihr => rw [exact, valid_binary_iff, valid_binary_iff, ihl, ihr]
  | call c t ih => rw [exact, valid_call_iff, valid_call_iff, ih]
  | foreign | missing => exact iff_of_false (fun h => h.wellFormed) fun h => h.wellFormed

theorem WellFormed.exact {t : Tree Float} (h : t.WellFormed) : t.exact.WellFormed :=
  valid_none_iff.1 (valid_exact_iff.2 (valid_none_iff.2 h))

/-- Whatever value the argument of an inverse cotangent has satisfies `p`. -/
def ArccotArguments (p : ℝ → Prop) (values : List ℝ) : Tree ℝ → Prop
  | binary _ l r => l.ArccotArguments p values ∧ r.ArccotArguments p values
  | call c t => t.ArccotArguments p values ∧
      (c.op? = some .arcctg → ∀ y, t.evaluate values = .ok y → p y)
  | _ => True

theorem arccotArguments_of_forall {p : ℝ → Prop} {values : List ℝ} {t : Tree ℝ} (hp : ∀ y, p y) :
    t.ArccotArguments p values := by
  induction t with
  | binary c l r ihl ihr => exact ⟨ihl, ihr⟩
  | call c t ih => exact ⟨ih, fun _ y _ => hp y⟩
  | _ => trivial

theorem ArccotArguments.mono {p q : ℝ → Prop} {values : List ℝ} {t : Tree ℝ}
    (hpq : ∀ y, p y → q y) (h : t.ArccotArguments p values) : t.ArccotArguments q values := by
  induction t with
  | binary c l r ihl ihr => exact ⟨ihl h.1, ihr h.2⟩
  | call c t ih => exact ⟨ih h.1, fun hc y hy => hpq y (h.2 hc y hy)⟩
  | _ => trivial

theorem toOption_evaluate_binary {c : Code} {op : Op} (hc : c.op? = some op) {l r : Tree ℝ}
    {values : List ℝ} : ((binary c l r).evaluate values).toOption =
      (l.evaluate values).toOption.bind fun x =>
        (r.evaluate values).toOption.bind fun y => (op.apply x y).toOption := by
  refine Option.ext fun v => ?_
  simp only [Option.bind_eq_some_iff, toOption_eq_some]
  constructor
  · intro h
    obtain ⟨x, y, hx, hy, hv⟩ := evaluate_binary_eq_ok h
    exact ⟨x, hx, y, hy, (Code.apply_eq_ok hc).1 hv⟩
  · rintro ⟨x, hx, y, hy, hv⟩
    rw [evaluate_binary hx hy]
    exact (Code.apply_eq_ok hc).2 hv

theorem toOption_evaluate_call {c : Code} {op : Op} (hc : c.op? = some op) {t : Tree ℝ}
    {values : List ℝ} : ((call c t).evaluate values).toOption =
      (t.evaluate values).toOption.bind fun y => (op.apply Scalar.absent y).toOption := by
  refine Option.ext fun v => ?_
  simp only [Option.bind_eq_some_iff, toOption_eq_some]
  constructor
  · intro h
    obtain ⟨y, hy, hv⟩ := evaluate_call_eq_ok h
    exact ⟨y, hy, (Code.apply_eq_ok hc).1 hv⟩
  · rintro ⟨y, hy, hv⟩
    rw [evaluate_call hy]
    exact (Code.apply_eq_ok hc).2 hv

end Tree

/-- The values of the names of a table. -/
def Equation.assignment {α β : Type} (e : Equation α) (values : List β) (name : String) :
    Option β := do
  values[← e.names.idxOf? name]?

theorem Equation.assignment_of_getElem? {α β : Type} {e : Equation α} {values : List β} {i : Nat}
    {name : String} (h : e.names[i]? = some name) : e.assignment values name = values[i]? := by
  obtain ⟨hi, rfl⟩ := List.getElem?_eq_some_iff.1 h
  have hplace : e.names.idxOf? e.names[i] = some i := by
    refine List.idxOf?_eq_some_iff.2 ⟨hi, rfl, fun j hj hsame => ?_⟩
    have := (e.names_nodup.getElem_inj_iff).1 hsame
    omega
  rw [assignment, hplace]
  rfl

namespace AlgebraTerm

/-! ### Terms of valid trees -/

/-- The term of an operator with two operands. -/
def combine : Op → AlgebraTerm → AlgebraTerm → AlgebraTerm
  | .sub, a, b => add a (mul minusOne b)
  | .mul, a, b => mul a b
  | .div, a, b => mul a (pow b minusOne)
  | .pow, a, b => pow a b
  | _, a, b => add a b

section

variable {names : List String} {c : Code} {op : Op} {l r t : Tree Float} {a b : AlgebraTerm}

theorem ofTree?_binary (hc : c.op? = some op) (hop : op.isBinary) (hl : ofTree? names l = .ok a)
    (hr : ofTree? names r = .ok b) : ofTree? names (.binary c l r) = .ok (combine op a b) := by
  rw [ofTree?, hl, hr, hc]
  cases op with
  | add | sub | mul | div | pow => rfl
  | _ => cases hop

theorem ofTree?_call (hc : c.op? = some op) (hop : op.isFunction) (ht : ofTree? names t = .ok a) :
    ofTree? names (.call c t) = .ok (apply op a) := by
  rw [ofTree?, ht, hc, Option.filter_some, if_pos hop]
  rfl

theorem value?_combine {arccot : ℝ → ℝ} {env : String → Option ℝ} (hop : op.isBinary) :
    (combine op a b).value? arccot env = (a.value? arccot env).bind fun x =>
      (b.value? arccot env).bind fun y => (op.apply x y).toOption := by
  cases op with
  | add | mul => rfl
  | sub =>
    simp only [combine, value?, Option.bind_eq_bind, Option.pure_def, Option.bind_assoc,
      Option.bind_some, neg_one_mul, ← sub_eq_add_neg]
    rfl
  | div =>
    simp only [combine, value?, Option.bind_eq_bind, Option.pure_def, Option.bind_assoc,
      Option.bind_some, toOption_apply_div, Option.map_eq_bind, Function.comp_def]
  | pow =>
    simp only [toOption_apply_pow]
    rfl
  | _ => cases hop

end

/-- The term of a valid tree has the values that the tree has, if its inverse cotangents are read at
their arguments as the tree reads them. -/
theorem exists_ofTree? {e : Equation Float} {arccot : ℝ → ℝ} {values : List ℝ} {t : Tree Float}
    (ht : t.Valid (some e.names.length)) (hfinite : ∀ x, .num x ∈ t.numbers → x.isFinite)
    (harccot : t.exact.ArccotArguments (fun y => arccot y = continuousArccot y) values) :
    ∃ term, ofTree? e.names t = .ok term ∧
      term.value? arccot (e.assignment values) = (t.exact.evaluate values).toOption := by
  induction t with
  | num x => exact ⟨_, rfl, value?_ofNumber (hfinite x (Tree.mem_numbers_num.2 rfl))⟩
  | var i =>
    have hi : i < e.names.length := Int.ofNat_lt.1 (Tree.valid_var_iff.1 ht _ rfl)
    have hname := List.getElem?_eq_getElem hi
    refine ⟨symbol e.names[i], by rw [ofTree?, hname], ?_⟩
    rw [value?, Equation.assignment_of_getElem? hname, Tree.exact, Tree.evaluate]
    cases values[i]? <;> rfl
  | binary c l r ihl ihr =>
    obtain ⟨hc, hl, hr⟩ := Tree.valid_binary_iff.1 ht
    obtain ⟨op, hop, hbinary⟩ := Code.op?_of_isBinary hc
    obtain ⟨hfinitel, hfiniter⟩ := Tree.forall_numbers_binary.1 hfinite
    obtain ⟨a, ha, hva⟩ := ihl hl hfinitel harccot.1
    obtain ⟨b, hb, hvb⟩ := ihr hr hfiniter harccot.2
    refine ⟨combine op a b, ofTree?_binary hop hbinary ha hb, ?_⟩
    rw [value?_combine hbinary, hva, hvb, Tree.exact, Tree.toOption_evaluate_binary hop]
  | call c t ih =>
    obtain ⟨hc, ht⟩ := Tree.valid_call_iff.1 ht
    obtain ⟨op, hop, hfunction⟩ := Code.op?_of_isFunction hc
    obtain ⟨a, ha, hva⟩ := ih ht (Tree.forall_numbers_call.1 hfinite) harccot.1
    refine ⟨apply op a, ofTree?_call hop hfunction ha, ?_⟩
    rw [value?, hva, Tree.exact, Tree.toOption_evaluate_call hop]
    refine Option.bind_congr fun y hy => (toOption_apply_function hfunction fun hop' => ?_).symm
    exact harccot.2 (hop' ▸ hop) y (toOption_eq_some.1 hy)
  | foreign | missing => exact ht.wellFormed.elim

/-! ### Terms of equations -/

theorem ofEquation?_of_ofTree? {e : Equation Float} {term : AlgebraTerm}
    (hdeep : e.root.isTooDeep = false) (h : ofTree? e.names e.root = .ok term) :
    ofEquation? e = .ok term := by
  rw [ofEquation?, hdeep, if_neg Bool.false_ne_true, h]

/-- Wherever a tree has a value, its term has the same one, if no inverse cotangent is taken of a
negative number there. The inverse cotangent of a negative number loses `π` in the term. -/
theorem ofTree?_keeps_value (e : Equation Float) (values : List ℝ) {v : ℝ}
    (hlength : values.length = e.names.length) (hroot : e.root.WellFormed)
    (hfinite : ∀ x, .num x ∈ e.root.numbers → x.isFinite)
    (hv : e.root.exact.evaluate values = .ok v) :
    ∃ term, ofTree? e.names e.root = .ok term ∧
      (e.root.isTooDeep = false → ofEquation? e = .ok term) ∧
      term.value? continuousArccot (e.assignment values) = some v ∧
      (e.root.exact.ArccotArguments (0 ≤ ·) values →
        term.value? principalArccot (e.assignment values) = some v) ∧
      ∀ c t y, e.root = .call c t → c.op? = some .arcctg → t.exact.evaluate values = .ok y →
        y < 0 → t.exact.ArccotArguments (0 ≤ ·) values →
        term.value? principalArccot (e.assignment values) = some (v - Real.pi) := by
  have hvalid : e.root.Valid (some e.names.length) := by
    rw [← hlength, ← Tree.valid_exact_iff]
    exact (Tree.WellFormed.exact hroot).valid_of_evaluate hv
  -- There is one term; its readings differ only in the inverse cotangent.
  obtain ⟨term, hterm, hvalue⟩ :=
    exists_ofTree? hvalid hfinite (Tree.arccotArguments_of_forall fun _ => rfl)
  refine ⟨term, hterm, fun hdeep => ofEquation?_of_ofTree? hdeep hterm,
    hvalue.trans (toOption_eq_some.2 hv), fun harccot => ?_, ?_⟩
  · obtain ⟨term', hterm', hvalue'⟩ :=
      exists_ofTree? hvalid hfinite (harccot.mono fun _ => principalArccot_of_nonneg)
    obtain rfl := Except.ok.inj (hterm.symm.trans hterm')
    exact hvalue'.trans (toOption_eq_some.2 hv)
  · intro c t y hcall hop hy hneg harccot
    rw [hcall] at hvalid hfinite hterm hv
    obtain ⟨a, ha, hvalue'⟩ := exists_ofTree? (Tree.valid_call_iff.1 hvalid).2
      (Tree.forall_numbers_call.1 hfinite) (harccot.mono fun _ => principalArccot_of_nonneg)
    obtain rfl := Except.ok.inj (hterm.symm.trans (ofTree?_call hop rfl ha))
    have hv' : v = continuousArccot y := by
      rw [Tree.exact, Tree.evaluate_call hy, Code.apply_eq_ok hop] at hv
      exact (Except.ok.inj hv).symm
    rw [value?, hvalue', toOption_eq_some.2 hy, hv', ← principalArccot_of_neg hneg]
    rfl

theorem ofTree?_keeps_value_quotient :
    let e : Equation Float := ⟨.sub (.div (.num 2) (.var 0)) (.call (.op .arcctg) (.var 0)), ["x"],
      by decide⟩
    e.root.WellFormed ∧ (∀ x, .num x ∈ e.root.numbers → x.isFinite) ∧
      e.root.exact.evaluate [1] = .ok (2 / 1 - Real.pi / 4) ∧
      ∃ term, ofEquation? e = .ok term ∧
        term.value? principalArccot (e.assignment [1]) = some (2 / 1 - Real.pi / 4) := by
  intro e
  have hroot : e.root.WellFormed := by decide
  have hfinite : ∀ x, .num x ∈ e.root.numbers → x.isFinite := by
    intro x hx
    obtain rfl : x = 2 := by
      simpa [e, Tree.sub, Tree.div, Tree.numbers, Tree.preorder, Tree.isNumber] using hx
    decide +kernel
  have htwo : ((Double.exact 2 : ℚ) : ℝ) = 2 := by
    rw [Double.exact_of_integer? (n := 2) (by decide +kernel), Rat.cast_intCast, Int.cast_ofNat]
  have hquotient : (Tree.div (.num (2 : ℝ)) (.var 0)).evaluate [1] = .ok (2 / 1) := by
    rw [Tree.div, Tree.evaluate_binary rfl rfl, Code.apply_eq_ok rfl, Op.apply_div_eq_ok]
    exact ⟨one_ne_zero, rfl⟩
  have harccot : (Tree.call (.op .arcctg) (.var 0)).evaluate [(1 : ℝ)] = .ok (Real.pi / 4) := by
    have hone : Real.pi / 4 = continuousArccot 1 := by
      rw [continuousArccot, Real.arctan_one]
      ring
    rw [Tree.evaluate_call rfl, Code.apply_eq_ok rfl, hone]
    rfl
  have hv : e.root.exact.evaluate [1] = .ok (2 / 1 - Real.pi / 4) := by
    rw [← htwo] at hquotient ⊢
    exact Tree.evaluate_sub hquotient harccot
  obtain ⟨term, -, hterm, -, hsame, -⟩ := ofTree?_keeps_value e [1] rfl hroot hfinite hv
  refine ⟨hroot, hfinite, hv, term, hterm rfl, hsame ⟨⟨trivial, trivial⟩, trivial, ?_⟩⟩
  intro _ y hy
  obtain rfl := Except.ok.inj hy
  exact zero_le_one

/-- `arcctg(-1)` is `3π/4` as a tree and `-π/4` as a term. -/
theorem ofTree?_loses_value :
    let e : Equation Float := ⟨.call (.op .arcctg) (.num (-1)), [], List.nodup_nil⟩
    e.root.WellFormed ∧ (∀ x, .num x ∈ e.root.numbers → x.isFinite) ∧
      e.root.exact.evaluate [] = .ok (3 * Real.pi / 4) ∧
      ∃ term, ofEquation? e = .ok term ∧
        term.value? principalArccot (e.assignment []) = some (-(Real.pi / 4)) ∧
        -(Real.pi / 4) ≠ 3 * Real.pi / 4 := by
  intro e
  have hfinite : (-1 : Float).isFinite := by decide +kernel
  have hone : ((Double.exact (-1) : ℚ) : ℝ) = -1 := by
    rw [Double.exact_of_integer? (n := -1) (by decide +kernel), Rat.cast_intCast, Int.cast_neg,
      Int.cast_one]
  have hthree : continuousArccot (-1) = 3 * Real.pi / 4 := by
    rw [continuousArccot, Real.arctan_neg, Real.arctan_one]
    ring
  refine ⟨by decide, fun x hx => ?_, ?_, _,
    ofEquation?_of_ofTree? rfl (ofTree?_call rfl rfl rfl), ?_, ?_⟩
  · obtain rfl : x = -1 := by simpa [e, Tree.numbers, Tree.preorder, Tree.isNumber] using hx
    exact hfinite
  · rw [Tree.exact, Tree.exact, hone, Tree.evaluate_call rfl, Code.apply_eq_ok rfl, ← hthree]
    rfl
  · rw [value?, value?_ofNumber hfinite, hone]
    show some (principalArccot (-1)) = _
    rw [principalArccot_of_neg (by norm_num), hthree]
    congr 1
    ring
  · have := Real.pi_pos
    intro h
    linarith

end AlgebraTerm

end FormulaCalculus
