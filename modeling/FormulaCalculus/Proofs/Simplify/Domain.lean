import FormulaCalculus.Proofs.Double.Identities
import FormulaCalculus.Proofs.Equality.Operators
import FormulaCalculus.Proofs.Equation.Outcomes
import FormulaCalculus.Proofs.Simplify.Meaning

/-!
# Where a simplification fails

Where an expression has a value and the identities that a pass applies are exact, the pass succeeds,
and if it leaves a number or a variable, that is the value. So if a pass fails, the expression has a
value only at arguments at which an identity is not exact: a number near 0 or 1 is taken for 0 or 1,
or a zero swallows an operand that is infinite or NaN, or the exponent 0.
-/

namespace FormulaCalculus

open Double

/-- The powers that the identities of powers rely on. -/
structure Elementary.PowLaws [Elementary] : Prop where
  pow_one (x : Float) : Alike (pow x 1) x
  one_pow (y : Float) : Alike (pow 1 y) 1
  zero_pow {y : Float} : Float.lt 0 y → Alike (pow 0 y) 0

section Powers

variable [Elementary] {x y : Float}

theorem alike_powDouble_one (hE : Elementary.Respectful) (hP : Elementary.PowLaws)
    (h : powDefined x y) (hy : y == 1) : Alike (powDouble x y) x := by
  have hone : powDouble x 1 = Elementary.pow x 1 := rfl
  exact (alike_powDouble hE h (.refl x) (.inl hy)).trans (hone ▸ hP.pow_one x)

theorem alike_one_powDouble (hE : Elementary.Respectful) (hP : Elementary.PowLaws)
    (h : powDefined x y) (hx : x == 1) : Alike (powDouble x y) 1 := by
  refine (alike_powDouble hE h (.inl hx) (.refl y)).trans ?_
  unfold powDouble
  split
  · exact .inl (by decide +kernel)
  split
  · exact .inl (by decide +kernel)
  split
  · exact .inl (by decide +kernel)
  · exact hP.one_pow y

/-- A positive power of a zero is a zero if the elementary function says so. -/
theorem beq_zero_powDouble (hx : x == 0) (hy : Float.lt 0 y) (h : Elementary.pow x y == 0) :
    powDouble x y == 0 := by
  unfold powDouble
  split
  · rename_i hminus
    rw [(Alike.refl 0).lt_eq (.inl hminus)] at hy
    cases hy
  split
  · exact (alike_sqrt_of_eq_zero hx).beq_zero
  split
  · have hzero : (0 : Float) * 0 = 0 := rfl
    have hsquare : Alike (x * x) (0 * 0) := .mul (.inl hx) (.inl hx)
    rw [hzero] at hsquare
    exact hsquare.beq_zero
  · exact h

theorem alike_zero_powDouble (hE : Elementary.Respectful) (hP : Elementary.PowLaws)
    (h : powDefined x y) (hx : x == 0) (hy : Float.lt 0 y) : Alike (powDouble x y) 0 :=
  (alike_powDouble hE h (.inl hx) (.refl y)).trans
    (.inl (beq_zero_powDouble (by decide +kernel) hy (hP.zero_pow hy).beq_zero))

end Powers

/-! ### Elementary functions with these laws -/

/-- A power that is also right for the base 0. -/
def zeroPow (x y : Float) : Float :=
  if x == 0 && Float.lt 0 y then 0 else simplePow x y

/-- Functions that are right at the zeros. -/
@[reducible]
def Elementary.zeros : Elementary :=
  { simple with pow := zeroPow }

theorem alike_zeroPow {x x' y y' : Float} (hdefined : powDefined x y) (hx : Alike x x')
    (hy : Alike y y') : Alike (zeroPow x y) (zeroPow x' y') := by
  unfold zeroPow
  rw [← hx.beq_eq (.refl 0), ← (Alike.refl 0).lt_eq hy]
  split
  · exact .refl 0
  · exact alike_simplePow hdefined hx hy

theorem alike_simplePow_one (x : Float) : Alike (simplePow x 1) x := by
  change Alike (if x == 1 then 1 else x * 1) x
  split
  · rename_i hx
    exact Alike.symm (.inl hx)
  · exact alike_mul_one (by decide +kernel)

theorem alike_one_simplePow (y : Float) : Alike (simplePow 1 y) 1 := by
  have hne : ((1 : Float) == 0) = false := by decide +kernel
  have heq : ((1 : Float) == 1) = true := by decide +kernel
  simp only [simplePow, hne, heq, Bool.false_eq_true, if_true, if_false]
  repeat' split
  all_goals exact .inl (by decide +kernel)

theorem Elementary.respectful_zeros : @Respectful zeros :=
  letI := zeros
  have h := @Consistent.toRespectful simple consistent_simple
  { alike_pow := alike_zeroPow
    alike_ln := @h.alike_ln
    alike_cos := @h.alike_cos
    alike_sin := @h.alike_sin
    alike_tan := @h.alike_tan
    alike_arcsin := @h.alike_arcsin
    alike_arccos := @h.alike_arccos
    alike_arctan := @h.alike_arctan }

theorem Elementary.powLaws_zeros : @PowLaws zeros :=
  letI := zeros
  { pow_one := fun x => by
      change Alike (zeroPow x 1) x
      unfold zeroPow
      split
      · rename_i hx
        exact Alike.symm (.inl (Bool.and_eq_true_iff.1 hx).1)
      · exact alike_simplePow_one x
    one_pow := alike_one_simplePow
    zero_pow := fun {y} hy => by
      change Alike (zeroPow 0 y) 0
      rw [zeroPow, hy]
      exact .refl 0 }

namespace Tree

variable [Elementary] {ε x y v w : Float} {op : Op} {c : Code} {l r t : Tree Float}
  {values : List Float}

/-! ### Identities that are not exact -/

/-- The numbers that the identities of an operator look for on its left and on its right. -/
def literals : Op → List Int × List Int
  | .add | .sub => ([0], [0])
  | .mul => ([0, 1], [0, 1])
  | .div => ([0], [0, 1])
  | _ => ([], [])

omit [Elementary] in
theorem literals_of_isFunction (hop : op.isFunction) : literals op = ([], []) := by
  cases op <;> first | rfl | cases hop

/-- The identities of `op` are not exact for the operands `l`, `r` where these stand for the values
`x` and `y`. -/
inductive Misleads (ε : Float) (l r : Tree Float) (x y : Float) : Op → Prop
  | left {op : Op} {n : Int} (hn : n ∈ (literals op).1) (h : l.isNear ε n)
    (hne : l.isExactly n = false) : Misleads ε l r x y op
  | right {op : Op} {n : Int} (hn : n ∈ (literals op).2) (h : r.isNear ε n)
    (hne : r.isExactly n = false) : Misleads ε l r x y op
  | zero_mul (h : l.isExactly 0) (hy : y.isFinite = false) : Misleads ε l r x y .mul
  | mul_zero (h : r.isExactly 0) (hx : x.isFinite = false) : Misleads ε l r x y .mul
  | zero_div (h : l.isExactly 0) (hy : y.isNaN) : Misleads ε l r x y .div
  | zero_pow (h : l.isExactly 0) (hlow : Float.lt y 0 = false) (hhigh : Float.lt 0 y = false) :
    Misleads ε l r x y .pow

/-- At the arguments `values` the identities that a pass applies are exact, wherever it does not
compute. -/
def Faithful (ε : Float) (values : List Float) : Tree Float → Prop
  | binary c l r => l.Faithful ε values ∧ r.Faithful ε values ∧
    ∀ op x y, c.op? = some op → l.evaluate values = .ok x → r.evaluate values = .ok y →
      ¬ Foldable (l.simplifyPass ε).tree (r.simplifyPass ε).tree →
      ¬ Misleads ε (l.simplifyPass ε).tree (r.simplifyPass ε).tree x y op
  | call _ t => t.Faithful ε values
  | _ => True

/-! ### What a leaf stands for -/

/-- If the tree is a number or a variable, its value is `v`; an empty slot is the absent number. -/
def Stands (values : List Float) (v : Float) : Tree Float → Prop
  | num w => Alike v w
  | var i => ∃ w, values[i]? = some w ∧ Alike v w
  | missing => Alike v Scalar.absent
  | _ => True

theorem Stands.of_alike (h : Stands values v t) (hw : Alike w v) : Stands values w t := by
  cases t with
  | num u => exact hw.trans h
  | var i =>
    obtain ⟨u, hu, hv⟩ := h
    exact ⟨u, hu, hw.trans hv⟩
  | missing => exact hw.trans h
  | _ => trivial

theorem Stands.eq_zero (h : Stands values v t) (hn : t.isExactly 0) : v == 0 := by
  obtain ⟨a, rfl⟩ := num_of_isExactly hn
  have h : Alike v a := h
  rw [h.beq_eq (.refl 0)]
  exact hn

theorem Stands.eq_one (h : Stands values v t) (hn : t.isExactly 1) : v == 1 := by
  obtain ⟨a, rfl⟩ := num_of_isExactly hn
  have h : Alike v a := h
  rw [h.beq_eq (.refl 1)]
  exact hn

theorem Misleads.exact_left (h : ¬ Misleads ε l r x y op) {n : Int} (hn : n ∈ (literals op).1)
    (hnear : l.isNear ε n) : l.isExactly n := by
  by_contra hne
  exact h (.left hn hnear (Bool.eq_false_iff.2 hne))

theorem Misleads.exact_right (h : ¬ Misleads ε l r x y op) {n : Int} (hn : n ∈ (literals op).2)
    (hnear : r.isNear ε n) : r.isExactly n := by
  by_contra hne
  exact h (.right hn hnear (Bool.eq_false_iff.2 hne))

/-! ### Single nodes -/

/-- Where it is exact, an identity puts a leaf in the place of a sum only if it stands for the
sum. -/
theorem stands_add (h : Rewrite ε .add l r t) (hexact : ¬ Misleads ε l r x y .add)
    (hl : Stands values x l) (hr : Stands values y r) : Stands values (x + y) t := by
  cases h with
  | zero_add _ h =>
    exact hr.of_alike (alike_zero_add (hl.eq_zero (Misleads.exact_left hexact (by decide) h)))
  | add_zero _ h =>
    exact hl.of_alike (alike_add_zero (hr.eq_zero (Misleads.exact_right hexact (by decide) h)))
  | add_self i => trivial

/-- Two operands that are one variable stand for one finite value. -/
theorem Stands.exists_of_var {i : Nat} (hl : Stands values x (var i)) (hr : Stands values y (var i))
    (hfinite : ∀ v ∈ values, v.isFinite) : ∃ w : Float, w.isFinite ∧ Alike x w ∧ Alike y w := by
  obtain ⟨w, hw, hx⟩ := hl
  obtain ⟨w', hw', hy⟩ := hr
  obtain rfl := Option.some.inj (hw.symm.trans hw')
  exact ⟨w, hfinite w (List.mem_of_getElem? hw), hx, hy⟩

theorem stands_sub (hfinite : ∀ v ∈ values, v.isFinite) (h : Rewrite ε .sub l r t)
    (hexact : ¬ Misleads ε l r x y .sub) (hl : Stands values x l) (hr : Stands values y r) :
    Stands values (x - y) t := by
  cases h with
  | zero_sub _ h => trivial
  | sub_zero _ h =>
    exact hl.of_alike (alike_sub_zero (hr.eq_zero (Misleads.exact_right hexact (by decide) h)))
  | sub_self i =>
    obtain ⟨w, hw, hx, hy⟩ := hl.exists_of_var hr hfinite
    exact (hx.sub hy).trans (alike_sub_self hw)

theorem stands_mul (h : Rewrite ε .mul l r t) (hexact : ¬ Misleads ε l r x y .mul)
    (hl : Stands values x l) (hr : Stands values y r) : Stands values (x * y) t := by
  cases h with
  | zero_mul _ h =>
    have hzero := Misleads.exact_left hexact (by decide) h
    have hy : y.isFinite := by
      by_contra hy
      exact hexact (.zero_mul hzero (Bool.eq_false_iff.2 hy))
    exact alike_zero_mul (hl.eq_zero hzero) hy
  | mul_zero _ h =>
    have hzero := Misleads.exact_right hexact (by decide) h
    have hx : x.isFinite := by
      by_contra hx
      exact hexact (.mul_zero hzero (Bool.eq_false_iff.2 hx))
    exact alike_mul_zero (hr.eq_zero hzero) hx
  | one_mul _ h =>
    exact hr.of_alike (alike_one_mul (hl.eq_one (Misleads.exact_left hexact (by decide) h)))
  | mul_one _ h =>
    exact hl.of_alike (alike_mul_one (hr.eq_one (Misleads.exact_right hexact (by decide) h)))
  | mul_self i => trivial

theorem stands_div (hfinite : ∀ v ∈ values, v.isFinite) (h : Rewrite ε .div l r t)
    (hexact : ¬ Misleads ε l r x y .div) (hl : Stands values x l) (hr : Stands values y r)
    (hzero : (y == 0) = false) : Stands values (x / y) t := by
  cases h with
  | zero_div _ h =>
    have hx := Misleads.exact_left hexact (by decide) h
    have hnan : y.isNaN = false := by
      by_contra hnan
      exact hexact (.zero_div hx (Bool.not_eq_false _ ▸ hnan))
    exact alike_zero_div (hl.eq_zero hx) hnan hzero
  | div_one _ h =>
    exact hl.of_alike (alike_div_one (hr.eq_one (Misleads.exact_right hexact (by decide) h)))
  | div_self i =>
    obtain ⟨w, hw, hx, hy⟩ := hl.exists_of_var hr hfinite
    have hw0 : (w == 0) = false := by rw [← hzero, hy.beq_eq (.refl 0)]
    exact (hx.div hy hzero).trans (alike_div_self hw hw0)

theorem stands_pow (hE : Elementary.Respectful) (hP : Elementary.PowLaws)
    (h : Rewrite ε .pow l r t) (hexact : ¬ Misleads ε l r x y .pow) (hl : Stands values x l)
    (hr : Stands values y r) (hdefined : powDefined x y) : Stands values (powDouble x y) t := by
  cases h with
  | pow_one _ h => exact hl.of_alike (alike_powDouble_one hE hP hdefined (hr.eq_one h))
  | one_pow _ h => exact alike_one_powDouble hE hP hdefined (hl.eq_one h)
  | zero_pow _ h =>
    have hx := hl.eq_zero h
    have hlow : Float.lt y 0 = false := by
      by_contra hneg
      rw [Bool.not_eq_false] at hneg
      rw [powDefined, hx, hneg] at hdefined
      cases hdefined
    have hhigh : Float.lt 0 y = true := by
      by_contra hhigh
      exact hexact (.zero_pow h hlow (Bool.eq_false_iff.2 hhigh))
    exact alike_zero_powDouble hE hP hdefined hx hhigh

/-- Where it is exact, an identity puts a leaf in the place of a node only if it stands for the
node's value. -/
theorem stands_of_rewrite (hE : Elementary.Respectful) (hP : Elementary.PowLaws)
    (hfinite : ∀ v ∈ values, v.isFinite) (h : Rewrite ε op l r t)
    (hexact : ¬ Misleads ε l r x y op) (hl : Stands values x l) (hr : Stands values y r)
    (hv : op.apply x y = .ok v) : Stands values v t := by
  cases op with
  | add => exact Except.ok.inj hv ▸ stands_add h hexact hl hr
  | sub => exact Except.ok.inj hv ▸ stands_sub hfinite h hexact hl hr
  | mul => exact Except.ok.inj hv ▸ stands_mul h hexact hl hr
  | div =>
    rw [Op.apply_div_eq] at hv
    split at hv
    · cases hv
    · rename_i hzero
      exact Except.ok.inj hv ▸ stands_div hfinite h hexact hl hr (Bool.eq_false_iff.2 hzero)
  | pow =>
    rw [Op.apply_pow_eq] at hv
    split at hv
    · cases hv
    split at hv
    · cases hv
    · rename_i hpole hfraction
      have hdefined : powDefined x y := by simp [powDefined, hpole, hfraction]
      exact Except.ok.inj hv ▸ stands_pow hE hP h hexact hl hr hdefined
  | _ => cases h

theorem not_misleads_of_isFunction (hop : op.isFunction) : ¬ Misleads ε l r x y op := by
  intro h
  cases h with
  | left hn | right hn =>
    rw [literals_of_isFunction hop] at hn
    cases hn
  | _ => cases hop

/-- A node with a value is not refused, and where a leaf takes its place that is the value. -/
theorem exists_replace (hE : Elementary.Respectful) (hP : Elementary.PowLaws)
    (hfinite : ∀ v ∈ values, v.isFinite) (hc : c.op? = some op) (hl : Stands values x l)
    (hr : Stands values y r) (hexact : ¬ Foldable l r → ¬ Misleads ε l r x y op)
    (hv : op.apply x y = .ok v) :
    ∃ o, replace? ε c l r = .ok o ∧ ∀ t ∈ o, Stands values v t := by
  by_cases hf : Foldable l r
  · obtain ⟨b, rfl⟩ := hf.exists_num
    have hx : Alike x l.operandValue := by cases hf <;> exact hl
    have hagree := op.agree_apply hE hx hr
    rw [hv] at hagree
    rw [replace?_of_foldable hc hf]
    cases hw : op.apply l.operandValue b with
    | error fault => rw [hw] at hagree; cases hagree
    | ok w =>
      rw [hw] at hagree
      cases hagree with
      | ok hvw => exact ⟨some (num w), rfl, fun t ht => Option.some.inj ht ▸ hvw⟩
  · have hexact := hexact hf
    rw [replace?_of_not_foldable hc hf]
    cases hi : identity? ε op l r with
    | error fault =>
      obtain ⟨rfl, hnear⟩ := eq_div_of_identity? hi
      -- the divisor is a zero, so the quotient has no value
      have hzero := hr.eq_zero (Misleads.exact_right hexact (by decide) hnear)
      rw [Op.apply_div_eq, if_pos hzero] at hv
      cases hv
    | ok o =>
      refine ⟨o, rfl, fun t ht => ?_⟩
      obtain rfl := Option.mem_def.1 ht
      exact stands_of_rewrite hE hP hfinite (rewrite_of_identity? hi) hexact hl hr hv

/-! ### A whole tree -/

/-- A pass over a tree that has a value succeeds, and what it leaves stands for the value. -/
theorem exists_simplifyPass (hE : Elementary.Respectful) (hP : Elementary.PowLaws)
    (hfinite : ∀ v ∈ values, v.isFinite) (hw : t.WellFormed) (hfaithful : t.Faithful ε values)
    (hv : t.evaluate values = .ok v) :
    ∃ o, (t.simplifyPass ε).outcome = .ok o ∧ Stands values v (t.simplifyPass ε).tree := by
  induction t generalizing v with
  | num w =>
    obtain rfl := evaluate_num_eq hv
    exact ⟨none, rfl, Alike.refl w⟩
  | var i =>
    simp only [evaluate] at hv
    cases hi : values[i]? with
    | none => rw [hi] at hv; cases hv
    | some w =>
      rw [hi] at hv
      cases hv
      exact ⟨none, rfl, v, hi, .refl v⟩
  | binary c l r ihl ihr =>
    obtain ⟨hbinary, hwl, hwr⟩ := hw
    obtain ⟨op, hop, -⟩ := Code.op?_of_isBinary hbinary
    obtain ⟨hfl, hfr, hexact⟩ := hfaithful
    obtain ⟨x, y, hx, hy, hxy⟩ := evaluate_binary_eq_ok hv
    obtain ⟨a, ha, hl⟩ := ihl hwl hfl hx
    obtain ⟨b, hb, hr⟩ := ihr hwr hfr hy
    obtain ⟨o, ho, hstands⟩ := exists_replace hE hP hfinite hop hl hr (hexact op x y hop hx hy)
      ((Code.apply_eq_ok hop).1 hxy)
    obtain ⟨houtcome, htree⟩ := simplifyPass_binary_of_ok ha hb ho
    refine ⟨o, houtcome, ?_⟩
    rw [htree]
    cases o with
    | none => trivial
    | some u => exact hstands u rfl
  | call c t ih =>
    obtain ⟨hfunction, hwt⟩ := hw
    obtain ⟨op, hop, hf⟩ := Code.op?_of_isFunction hfunction
    obtain ⟨y, hy, hcy⟩ := evaluate_call_eq_ok hv
    obtain ⟨a, ha, ht⟩ := ih hwt hfaithful hy
    obtain ⟨o, ho, hstands⟩ := exists_replace hE hP hfinite hop (l := missing) (Alike.refl _) ht
      (fun _ => not_misleads_of_isFunction hf) ((Code.apply_eq_ok hop).1 hcy)
    obtain ⟨houtcome, htree⟩ := simplifyPass_call_of_ok ha ho
    refine ⟨o, houtcome, ?_⟩
    rw [htree]
    cases o with
    | none => trivial
    | some u => exact hstands u rfl
  | foreign | missing => exact hw.elim

end Tree

namespace Equation

variable {e : Equation Float} {ε : Float} {values : List Float}

/-- If a pass over an equation breaks off because an operator is outside its domain, the equation
has no value at any finite arguments at which the identities of the pass are exact. -/
theorem undefined_of_simplify [Elementary] (hE : Elementary.Respectful)
    (hP : Elementary.PowLaws) (he : e.Good) {d : DomainFault}
    (h : (e.simplify ε).result.outcome = .error (.domain d))
    (hvalues : e.names.length ≤ values.length) (hfinite : ∀ v ∈ values, v.isFinite)
    (hfaithful : e.root.Faithful ε values) : ∃ d', e.evaluate values = .error (.domain d') := by
  have hshallow : e.root.isTooDeep = false := by
    by_contra hdeep
    rw [Bool.not_eq_false] at hdeep
    have hsize := Tree.size?_eq_ite (good_iff.1 he).wellFormed.isComplete
    simp only [simplify, hsize, hdeep, if_true] at h
    cases h
  have hwalk : e.Walkable := ⟨he, hshallow⟩
  have hensures := hwalk.ensures_evaluate values hvalues
  cases hv : e.evaluate values with
  | error fault =>
    rw [hv] at hensures
    obtain ⟨d', rfl⟩ := hensures.fault
    exact ⟨d', rfl⟩
  | ok v =>
    rw [hv] at hensures
    obtain ⟨o, ho, -⟩ :=
      Tree.exists_simplifyPass hE hP hfinite hwalk.wellFormed hfaithful hensures.value
    have hrun : e.runPass ε = (e.withRoot (e.root.simplifyPass ε).tree,
        .ok (e.root.simplifyPass ε).replaced) := by
      simp only [runPass, Tree.simplify?, hshallow, Bool.false_eq_true, if_false, ho]
      rfl
    rw [hwalk.outcome_simplify hrun] at h
    cases h

/-- `x/(x-x)` at 3. -/
theorem undefined_of_simplify_self :
    letI : Elementary := .zeros
    let e : Equation Float := ⟨.div (.var 0) (.sub (.var 0) (.var 0)), ["x"], by decide⟩
    Elementary.Respectful ∧ Elementary.PowLaws ∧ e.Good ∧
      (e.simplify 1e-9).result.outcome = .error (.domain .divisionByZero) ∧
      e.names.length ≤ [(3 : Float)].length ∧ (∀ v ∈ [(3 : Float)], v.isFinite) ∧
      e.root.Faithful 1e-9 [3] ∧ ∃ d, e.evaluate [3] = .error (.domain d) := by
  intro e
  have hE := Elementary.respectful_zeros
  have hP := Elementary.powLaws_zeros
  have hscan : Token.scan "x/(x-x)" = .ok [⟨.name ['x'], 0⟩, ⟨.op .div, 1⟩, ⟨.opening, 2⟩,
      ⟨.name ['x'], 3⟩, ⟨.op .sub, 4⟩, ⟨.name ['x'], 5⟩, ⟨.closing, 6⟩, ⟨.finish, 7⟩] := by cbv
  have hok : (Formula.parse 100 (some "x/(x-x)")).outcome = .ok e := by
    rw [Formula.outcome_parse hscan]
    rfl
  have he : e.Good := Formula.good_of_parse hok
  refine ⟨hE, hP, he, ?fault, by decide, ?finite, ?faithful,
    @undefined_of_simplify e 1e-9 [3] .zeros hE hP he _ ?fault (by decide) ?finite ?faithful⟩
  case fault => decide +kernel
  case finite => decide +kernel
  case faithful =>
    refine ⟨trivial, ⟨trivial, trivial, ?_⟩, ?_⟩
    · rintro op x y ⟨⟩ - - - (⟨-, h, -⟩ | ⟨-, h, -⟩) <;> cases h
    · intro op x y hop _ _ _ hmisleads
      cases hop
      cases hmisleads with
      | left _ h | zero_div h => cases h
      | right hn h hne =>
        -- the divisor has become 0
        obtain rfl | rfl := List.mem_pair.1 hn
        · exact absurd hne (by decide +kernel)
        · exact absurd h (by decide +kernel)

/-- A quotient that is rejected at the tolerance 1e-9 has a value: its divisor is not zero but near
it. So does one whose divisor is a power of zero with the exponent 0. -/
theorem simplify_rejects_defined :
    letI : Elementary := .zeros
    let e : Equation Float :=
      ⟨.div (.var 0) (.num (Decimal.readLiteral "0.0000000001".toList)), ["x"], by decide⟩
    let e' : Equation Float := ⟨.div (.num (Decimal.readLiteral ['1']))
      (.pow (.num (Decimal.readLiteral ['0'])) (.var 0)), ["x"], by decide⟩
    ((Formula.parse 100 (some "x/0.0000000001")).outcome = .ok e ∧
      (e.simplify 1e-9).result.outcome = .error (.domain .divisionByZero) ∧
      e.evaluate [1] = .ok 1e10) ∧
    ((Formula.parse 100 (some "1/0^x")).outcome = .ok e' ∧
      (e'.simplify 1e-9).result.outcome = .error (.domain .divisionByZero) ∧
      e'.evaluate [0] = .ok 1) := by
  intro e e'
  let _ : Elementary := .zeros
  have hscan : Token.scan "x/0.0000000001" = .ok [⟨.name ['x'], 0⟩, ⟨.op .div, 1⟩,
      ⟨.number "0.0000000001".toList, 2⟩, ⟨.finish, 14⟩] := by cbv
  have hscan' : Token.scan "1/0^x" = .ok [⟨.number ['1'], 0⟩, ⟨.op .div, 1⟩, ⟨.number ['0'], 2⟩,
      ⟨.op .pow, 3⟩, ⟨.name ['x'], 4⟩, ⟨.finish, 5⟩] := by cbv
  refine ⟨⟨?_, rfl, rfl⟩, ?_, rfl, rfl⟩
  · rw [Formula.outcome_parse hscan]
    rfl
  · rw [Formula.outcome_parse hscan']
    rfl

end Equation

end FormulaCalculus
