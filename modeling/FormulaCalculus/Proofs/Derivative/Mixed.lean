import FormulaCalculus.Proofs.Derivative.Jet
import FormulaCalculus.Proofs.Derivative.Validity

/-!
# Mixed partial derivatives commute

A second derivative has the mixed rate of the tree for its value, or none. For a power the two
orders may take different rules: one reads the exponent as a constant, the other the base. They
agree through `a^(b - 1) = a^b / a`, which asks for a base other than 0, and a rule with a logarithm
or a quotient has a value at no other base.

A derivative can have a value where the tree has none, as `1 / x` has at -1 and `ln(x)` has not. But
a second derivative has one only where the first derivative has: that is a sum, a product or a
quotient, whose derivative evaluates all of its operands.
-/

namespace FormulaCalculus

/-- What the mixed rates of powers ask of powers. -/
structure SlopeLaws (α : Type) [Field α] [Scalar α] : Prop where
  pow_two (x : α) : Scalar.pow x 2 = x * x
  pow_sub_one (x y : α) : x ≠ 0 → Scalar.pow x (y - 1) = Scalar.pow x y / x

namespace Tree

section

variable {α : Type} [Field α] [LinearOrder α] [Scalar α] [ExactScalar α] {values : List α}
  {i j : Int} {node l r t l' r' t' : Tree α} {w : Dual α}

/-! ### What a dual number tells of the operands -/

omit [LinearOrder α] [ExactScalar α] in
theorem exists_evaluateDual_operands {c : Code}
    (h : (binary c l r).evaluateDual i values = .ok w) :
    (∃ x, l.evaluateDual i values = .ok x) ∧ ∃ y, r.evaluateDual i values = .ok y := by
  obtain ⟨op, x, y, v, -, hx, hy, -⟩ := evaluateDual_binary_eq_ok h
  exact ⟨⟨x, hx⟩, y, hy⟩

theorem ne_zero_of_evaluateDual_div {y : Dual α} (h : (div l r).evaluateDual i values = .ok w)
    (hr : r.OnlyDual i values y) : y.value ≠ 0 := by
  obtain ⟨op, x, y', v, hc, -, hy, hv, -⟩ := evaluateDual_binary_eq_ok h
  cases hc
  obtain rfl := hr y' hy
  exact (Op.apply_div_eq_ok.1 hv).1

theorem ne_zero_of_evaluateDual_ln {y : Dual α}
    (h : (call (.op .ln) t).evaluateDual i values = .ok w) (ht : t.OnlyDual i values y) :
    y.value ≠ 0 := by
  obtain ⟨op, y', v, hc, hy, hv, -⟩ := evaluateDual_call_eq_ok h
  cases hc
  obtain rfl := ht y' hy
  exact (Op.apply_ln_eq_ok.1 hv).1.ne'

/-! ### The rules -/

/-- A copy `t'` of the tree `t` and its derivative `d` in the first variable have the dual numbers
of the jet `z` in the second variable, if they have any. -/
structure TracksJet (values : List α) (i j : Int) (t t' d : Tree α) (z : Jet α) : Prop where
  copy : t'.OnlyDual j values z.swap.dual
  derivative : d.OnlyDual j values z.rate
  still : t.mentions i = false → z.Still
  still_swap : t.mentions j = false → z.swap.Still

/-- The rule of a power that has an exponent without the first variable. -/
theorem onlyDual_power_steady {dl : Tree α} {x y : Jet α}
    (hmentions : r'.mentions j = r.mentions j) (hx : TracksJet values i j l l' dl x)
    (hy : r'.OnlyDual j values y.swap.dual) (hsteady : r.mentions j = false → y.second = 0) :
    (mul (mul r' (pow l' (sub r' (int 1)))) dl).OnlyDual j values
      (Op.pow.jet true (!r.mentions j) x y).rate := by
  have hexponent : (sub r' (int 1)).OnlyDual j values ⟨y.value - 1, y.second⟩ :=
    (hy.sub (.int 1)).congr (by simp [Jet.swap, Jet.dual])
  have hmentions' : (sub r' (int 1)).mentions j = r.mentions j := by
    rw [sub, mentions_binary, hmentions]
    exact Bool.or_false _
  refine ((hy.mul (hx.copy.pow hexponent)).mul hx.derivative).congr ?_
  simp only [Op.jet, Jet.rate, Jet.dual, Jet.swap, Op.rate, Op.mixed, hmentions', Dual.mk.injEq,
    if_true, true_and]
  cases hj : r.mentions j with
  | false =>
    simp only [Bool.not_false, if_true, hsteady hj]
    ring
  | true =>
    simp only [Bool.not_true, Bool.false_eq_true, if_false, Op.steadyMixed]
    ring

/-- The rule of a power that has the first variable in the exponent only. -/
theorem onlyDual_power_exponent (hlaws : SlopeLaws α) {dl dr : Tree α} {x y : Jet α}
    (hmentions : r'.mentions j = r.mentions j) (hx : TracksJet values i j l l' dl x)
    (hy : TracksJet values i j r r' dr y) (hi : l.mentions i = false) :
    (mul (mul (pow l' r') (call (.op .ln) l')) dr).OnlyDual j values
      (Op.pow.jet false (!r.mentions j) x y).rate := by
  intro w hw
  -- the logarithm beside the power has a value, so the base is not 0
  obtain ⟨⟨_, hnode⟩, -⟩ := exists_evaluateDual_operands hw
  obtain ⟨-, _, hln⟩ := exists_evaluateDual_operands hnode
  have hx0 : x.value ≠ 0 := ne_zero_of_evaluateDual_ln hln hx.copy
  have hpower := hlaws.pow_sub_one x.value y.value hx0
  obtain ⟨hfirst, hmixed⟩ := hx.still hi
  refine (((hx.copy.pow hy.copy).mul hx.copy.ln).mul hy.derivative).congr ?_ w hw
  simp only [Op.jet, Jet.rate, Jet.dual, Jet.swap, Op.rate, Op.mixed, hmentions, Dual.mk.injEq,
    Bool.false_eq_true, if_false, hfirst, hmixed]
  refine ⟨by ring, ?_⟩
  cases hj : r.mentions j with
  | false =>
    -- in the other order the exponent counts as a constant first
    obtain ⟨hsecond, hmixed'⟩ := hy.still_swap hj
    simp only [Jet.swap] at hsecond hmixed'
    simp only [Bool.not_false, if_true, Op.steadyMixed, hsecond, hmixed', hpower]
    field_simp
    ring
  | true =>
    simp only [Bool.not_true, Bool.false_eq_true, if_false]
    field_simp
    ring

/-- The rule of a power that has the first variable in the base and in the exponent. -/
theorem onlyDual_power_both (hlaws : SlopeLaws α) {dl dr : Tree α} {x y : Jet α}
    (hmentions : r'.mentions j = r.mentions j) (hx : TracksJet values i j l l' dl x)
    (hy : TracksJet values i j r r' dr y) :
    (mul (pow l' r') (add (mul dr (call (.op .ln) l')) (div (mul r' dl) l'))).OnlyDual j values
      (Op.pow.jet false (!r.mentions j) x y).rate := by
  intro w hw
  -- and here the quotient by the base has one
  obtain ⟨-, _, hsum⟩ := exists_evaluateDual_operands hw
  obtain ⟨-, _, hquotient⟩ := exists_evaluateDual_operands hsum
  have hx0 : x.value ≠ 0 := ne_zero_of_evaluateDual_div hquotient hx.copy
  have hpower := hlaws.pow_sub_one x.value y.value hx0
  refine ((hx.copy.pow hy.copy).mul ((hy.derivative.mul hx.copy.ln).add
    ((hy.copy.mul hx.derivative).div hx.copy))).congr ?_ w hw
  simp only [Op.jet, Jet.rate, Jet.dual, Jet.swap, Op.rate, Op.mixed, hmentions, Dual.mk.injEq,
    Bool.false_eq_true, if_false, true_and]
  cases hj : r.mentions j with
  | false =>
    obtain ⟨hsecond, hmixed⟩ := hy.still_swap hj
    simp only [Jet.swap] at hsecond hmixed
    simp only [Bool.not_false, if_true, Op.steadyMixed, hsecond, hmixed, hpower]
    field_simp
    ring
  | true =>
    simp only [Bool.not_true, Bool.false_eq_true, if_false]
    field_simp
    ring

/-- The rules of the arithmetic operators. -/
theorem differentiateWith_jet (hlaws : SlopeLaws α) {op : Op} (hb : op.isBinary) (dl dr : Tree α)
    (hnode : node.copy? = .ok (binary (.op op) l' r')) (hl : l.copy? = .ok l')
    (hr : r.copy? = .ok r') (hmentions : r'.mentions j = r.mentions j) :
    ∃ d, differentiateWith op i node l r (.ok dl) (.ok dr) = .ok d ∧
      ∀ values x y, TracksJet values i j l l' dl x → TracksJet values i j r r' dr y →
        d.OnlyDual j values (op.jet (!r.mentions i) (!r.mentions j) x y).rate := by
  simp only [differentiateWith, hnode, hl, hr]
  cases op with
  | add => exact ⟨_, rfl, fun values x y hx hy => hx.derivative.add hy.derivative⟩
  | sub => exact ⟨_, rfl, fun values x y hx hy => hx.derivative.sub hy.derivative⟩
  | mul =>
    refine ⟨_, rfl, fun values x y hx hy => ?_⟩
    refine ((hx.derivative.mul hy.copy).add (hx.copy.mul hy.derivative)).congr ?_
    simp only [Op.jet, Jet.rate, Jet.dual, Jet.swap, Op.rate, Op.mixed, Dual.mk.injEq, true_and]
    ring
  | div =>
    refine ⟨_, rfl, fun values x y hx hy w hw => ?_⟩
    have hsquare := hy.copy.square hlaws.pow_two
    have hy0 : y.value ≠ 0 :=
      (pow_ne_zero_iff two_ne_zero).1 (ne_zero_of_evaluateDual_div hw hsquare)
    have hslope : Op.squareSlope y.value = 2 * y.value := by
      rw [Op.squareSlope_eq, hlaws.pow_sub_one _ _ hy0, hlaws.pow_two, mul_div_cancel_right₀ _ hy0]
    refine (((hx.derivative.mul hy.copy).sub (hx.copy.mul hy.derivative)).div hsquare).congr ?_ w hw
    simp only [Op.jet, Jet.rate, Jet.dual, Jet.swap, Op.rate, Op.mixed, Dual.mk.injEq, hslope]
    refine ⟨by rw [pow_two], ?_⟩
    push_cast
    field_simp
    ring
  | pow =>
    cases hri : r.mentions i with
    | false =>
      exact ⟨_, rfl, fun values x y hx hy => onlyDual_power_steady hmentions hx hy.copy fun h =>
        (hy.still_swap h).1⟩
    | true =>
      cases hli : l.mentions i with
      | false =>
        exact ⟨_, rfl, fun values x y hx hy => onlyDual_power_exponent hlaws hmentions hx hy hli⟩
      | true =>
        exact ⟨_, rfl, fun values x y hx hy => onlyDual_power_both hlaws hmentions hx hy⟩
  | _ => cases hb

/-- The rules of the functions. The argument is `r`; the left slot is empty. -/
theorem differentiateWith_function_jet (hlaws : SlopeLaws α) {op : Op} (hf : op.isFunction)
    (dl : Except Fault (Tree α)) (dr : Tree α) (hnode : node.copy? = .ok (call (.op op) r'))
    (hr : r.copy? = .ok r') :
    ∃ d, differentiateWith op i node missing r dl (.ok dr) = .ok d ∧
      ∀ values y, TracksJet values i j r r' dr y →
        d.OnlyDual j values (op.jet false false (.const Scalar.absent) y).rate := by
  simp only [differentiateWith, hnode, hr]
  have hroot {values} {y : Jet α} (hy : r'.OnlyDual j values y.swap.dual) :
      (call (.op .sqrt) (sub (int 1) (square r'))).OnlyDual j values
        ⟨(Op.arcsin.divisor y.value).value, (Op.arcsin.divisor y.value).rate * y.second⟩ := by
    refine ((OnlyDual.int 1).sub (hy.square hlaws.pow_two)).sqrt.congr ?_
    simp [Op.divisor, Jet.swap, Jet.dual, mul_assoc]
  have hplus {values} {y : Jet α} (hy : r'.OnlyDual j values y.swap.dual) :
      (add (int 1) (square r')).OnlyDual j values
        ⟨(Op.arctg.divisor y.value).value, (Op.arctg.divisor y.value).rate * y.second⟩ :=
    ((OnlyDual.int 1).add (hy.square hlaws.pow_two)).congr
      (by simp [Op.divisor, Jet.swap, Jet.dual])
  cases op with
  | ln =>
    refine ⟨_, rfl, fun values y hy => hy.derivative.quotient (hy.copy.congr ?_)⟩
    simp [Op.divisor, Jet.swap, Jet.dual]
  | sqrt =>
    refine ⟨_, rfl, fun values y hy =>
      hy.derivative.quotient (((OnlyDual.int 2).mul hy.copy.sqrt).congr ?_)⟩
    simp [Op.divisor, Jet.swap, Jet.dual, mul_assoc]
  | cos =>
    refine ⟨_, rfl, fun values y hy => (hy.copy.sin.negate.mul hy.derivative).congr ?_⟩
    simp only [Op.jet, Jet.rate, Jet.dual, Jet.swap, Op.rate, Op.mixed, Op.bend, Dual.mk.injEq,
      true_and]
    ring
  | sin =>
    refine ⟨_, rfl, fun values y hy => (hy.copy.cos.mul hy.derivative).congr ?_⟩
    simp only [Op.jet, Jet.rate, Jet.dual, Jet.swap, Op.rate, Op.mixed, Op.bend, Dual.mk.injEq,
      true_and]
    ring
  | tg =>
    refine ⟨_, rfl, fun values y hy =>
      hy.derivative.quotient ((hy.copy.cos.square hlaws.pow_two).congr ?_)⟩
    rw [← mul_assoc]
    rfl
  | ctg =>
    refine ⟨_, rfl, fun values y hy =>
      hy.derivative.neg_quotient ((hy.copy.sin.square hlaws.pow_two).congr ?_)⟩
    rw [← mul_assoc]
    rfl
  | arcsin => exact ⟨_, rfl, fun values y hy => hy.derivative.quotient (hroot hy.copy)⟩
  | arccos => exact ⟨_, rfl, fun values y hy => hy.derivative.neg_quotient (hroot hy.copy)⟩
  | arctg => exact ⟨_, rfl, fun values y hy => hy.derivative.quotient (hplus hy.copy)⟩
  | arcctg => exact ⟨_, rfl, fun values y hy => hy.derivative.neg_quotient (hplus hy.copy)⟩
  | _ => cases hf

/-! ### The whole tree -/

omit [LinearOrder α] [ExactScalar α] in
/-- A copy has the variables of the tree and its dual numbers. -/
theorem copy_dual (h : t.WellFormed) (hcopy : t.copy? = .ok t') :
    (∀ i, t'.mentions i = t.mentions i) ∧
      ∀ i values, t'.evaluateDual i values = t.evaluateDual i values := by
  induction t generalizing t' with
  | num | var =>
    cases hcopy
    exact ⟨fun _ => rfl, fun _ _ => rfl⟩
  | binary c l r ihl ihr =>
    obtain ⟨hbinary, hl, hr⟩ := h
    obtain ⟨op, hc, hb⟩ := Code.op?_of_isBinary hbinary
    obtain ⟨l', hcopyl, hwl, -⟩ := copy?_of_wellFormed hl
    obtain ⟨r', hcopyr, hwr, -⟩ := copy?_of_wellFormed hr
    cases hcopy.symm.trans (copy?_binary hc hb hcopyl hcopyr hwl hwr)
    obtain ⟨hmentionsl, hduall⟩ := ihl hl hcopyl
    obtain ⟨hmentionsr, hdualr⟩ := ihr hr hcopyr
    refine ⟨fun i => ?_, fun i values => ?_⟩
    · rw [mentions_binary, mentions_binary, hmentionsl, hmentionsr]
    · simp only [evaluateDual, hduall, hdualr, hmentionsr, Code.applyDual, hc]
      rfl
  | call c t ih =>
    obtain ⟨hfunction, ht⟩ := h
    obtain ⟨op, hc, hf⟩ := Code.op?_of_isFunction hfunction
    obtain ⟨s, hs, hw, -⟩ := copy?_of_wellFormed ht
    cases hcopy.symm.trans (copy?_call hc hf hs hw)
    obtain ⟨hmentions, hdual⟩ := ih ht hs
    refine ⟨fun i => ?_, fun i values => ?_⟩
    · rw [mentions_call, mentions_call, hmentions]
    · simp only [evaluateDual, hdual, Code.applyDual, hc]
      rfl
  | foreign kind text => exact h.elim
  | missing => exact h.elim

omit [LinearOrder α] [ExactScalar α] in
theorem tracksJet {d : Tree α} (hdual : t'.evaluateDual j values = t.evaluateDual j values)
    (hd : d.OnlyDual j values (t.jet i j values).rate) :
    TracksJet values i j t t' d (t.jet i j values) where
  copy := by
    unfold OnlyDual
    rw [hdual]
    exact onlyDual_jet_swap i t
  derivative := hd
  still := jet_still
  still_swap h := by
    rw [← jet_swap]
    exact jet_still h

/-- The derivative in the first variable has the mixed rate of the tree for its rate in the second
one, if it has any. -/
theorem exists_differentiate?_jet (hlaws : SlopeLaws α) (ht : t.WellFormed) (i j : Int) :
    ∃ d, t.differentiate? i = .ok d ∧ ∀ values, d.OnlyDual j values (t.jet i j values).rate := by
  refine exists_differentiate?_of_rules
    (Q := fun t d => ∀ values, d.OnlyDual j values (t.jet i j values).rate) inherited_wellFormed
    (fun _ values => (OnlyDual.int 0).congr ?_) (fun k _ values => (OnlyDual.int _).congr ?_) ?_ ?_
    ht
  · rw [Int.cast_zero]
    rfl
  · simp only [jet, Jet.rate]
    split <;> simp
  · intro c op l r l' r' dl dr hc hop h hl hr hnode hjetl hjetr
    obtain ⟨hmentions, hdualr⟩ := copy_dual h.2.2 hr
    obtain ⟨d, hd, hjet⟩ := differentiateWith_jet (i := i) (j := j) hlaws hop dl dr hnode hl hr
      (hmentions j)
    refine ⟨d, hd, fun values => ?_⟩
    rw [jet_binary hc]
    exact hjet values _ _ (tracksJet ((copy_dual h.2.1 hl).2 j values) (hjetl values))
      (tracksJet (hdualr j values) (hjetr values))
  · intro c op t t' dt dl hc hop h ht hnode hjett
    obtain ⟨d, hd, hjet⟩ :=
      differentiateWith_function_jet (i := i) (j := j) hlaws hop dl dt hnode ht
    refine ⟨d, hd, fun values => ?_⟩
    rw [jet_call hc]
    exact hjet values _ (tracksJet ((copy_dual h.2 ht).2 j values) (hjett values))

/-! ### Where a derivative is defined -/

omit [Field α] [LinearOrder α] [ExactScalar α] in
theorem WellFormed.exists_differentiate? (h : t.WellFormed) (i : Int) :
    ∃ d, t.differentiate? i = .ok d ∧ d.WellFormed := by
  have hvalid : t.Valid none := ⟨h, nofun⟩
  obtain ⟨d, hd, hvalid⟩ := hvalid.exists_differentiate i
  exact ⟨d, hd, hvalid.wellFormed⟩

/-- The tree has derivatives, and wherever one of them has a value, so does the tree. -/
def DefinedByDerivative (t : Tree α) : Prop :=
  ∀ i, ∃ d, t.differentiate? i = .ok d ∧
    ∀ values w, d.evaluate values = .ok w → ∃ v, t.evaluate values = .ok v

namespace DefinedByDerivative

omit [Field α] [LinearOrder α] [ExactScalar α] in
theorem int (n : Int) : (int n : Tree α).DefinedByDerivative :=
  fun _ => ⟨_, rfl, fun _ _ _ => ⟨_, rfl⟩⟩

theorem add (hl : l.DefinedByDerivative) (hr : r.DefinedByDerivative) :
    (add l r).DefinedByDerivative := by
  intro i
  obtain ⟨dl, hdl, hl⟩ := hl i
  obtain ⟨dr, hdr, hr⟩ := hr i
  refine ⟨_, differentiate?_add hdl hdr, fun values w hw => ?_⟩
  obtain ⟨x, y, hx, hy, -⟩ := evaluate_binary_eq_ok hw
  obtain ⟨u, hu⟩ := hl values x hx
  obtain ⟨v, hv⟩ := hr values y hy
  exact ⟨_, evaluate_add hu hv⟩

theorem sub (hl : l.DefinedByDerivative) (hr : r.DefinedByDerivative) :
    (sub l r).DefinedByDerivative := by
  intro i
  obtain ⟨dl, hdl, hl⟩ := hl i
  obtain ⟨dr, hdr, hr⟩ := hr i
  refine ⟨_, differentiate?_sub hdl hdr, fun values w hw => ?_⟩
  obtain ⟨x, y, hx, hy, -⟩ := evaluate_binary_eq_ok hw
  obtain ⟨u, hu⟩ := hl values x hx
  obtain ⟨v, hv⟩ := hr values y hy
  exact ⟨_, evaluate_sub hu hv⟩

/-- The derivative of a product holds a copy of each factor. -/
theorem mul (h : (mul l r).WellFormed) : (mul l r).DefinedByDerivative := by
  intro i
  obtain ⟨-, hl, hr⟩ := h
  obtain ⟨dl, hdl, -⟩ := hl.exists_differentiate? i
  obtain ⟨dr, hdr, -⟩ := hr.exists_differentiate? i
  obtain ⟨l', hcopyl, -, hevall⟩ := copy?_of_wellFormed hl
  obtain ⟨r', hcopyr, -, hevalr⟩ := copy?_of_wellFormed hr
  refine ⟨_, differentiate?_mul hdl hdr hcopyl hcopyr, fun values w hw => ?_⟩
  obtain ⟨_, _, hfirst, hsecond, -⟩ := evaluate_binary_eq_ok hw
  obtain ⟨_, y, -, hy, -⟩ := evaluate_binary_eq_ok hfirst
  obtain ⟨x, _, hx, -⟩ := evaluate_binary_eq_ok hsecond
  exact ⟨_, evaluate_mul ((hevall values).symm.trans hx) ((hevalr values).symm.trans hy)⟩

/-- The derivative of a quotient holds copies too, and its own divisor is 0 where the divisor is. -/
theorem div (hpow : ∀ a : α, Scalar.pow a 2 = a * a) (h : (div l r).WellFormed) :
    (div l r).DefinedByDerivative := by
  intro i
  obtain ⟨-, hl, hr⟩ := h
  obtain ⟨dl, hdl, -⟩ := hl.exists_differentiate? i
  obtain ⟨dr, hdr, -⟩ := hr.exists_differentiate? i
  obtain ⟨l', hcopyl, -, hevall⟩ := copy?_of_wellFormed hl
  obtain ⟨r', hcopyr, -, hevalr⟩ := copy?_of_wellFormed hr
  refine ⟨_, differentiate?_div hdl hdr hcopyl hcopyr, fun values w hw => ?_⟩
  obtain ⟨_, s, hnumerator, hs, hquotient⟩ := evaluate_binary_eq_ok hw
  obtain ⟨_, _, hfirst, hsecond, -⟩ := evaluate_binary_eq_ok hnumerator
  obtain ⟨_, y, -, hy, -⟩ := evaluate_binary_eq_ok hfirst
  obtain ⟨x, _, hx, -⟩ := evaluate_binary_eq_ok hsecond
  obtain rfl := (OnlyValue.of_evaluate hy).square hpow s hs
  rw [Code.apply_eq_ok rfl, Op.apply_div_eq_ok] at hquotient
  have hy0 : y ≠ 0 := (pow_ne_zero_iff two_ne_zero).1 hquotient.1
  refine ⟨x / y, ?_⟩
  rw [Tree.div, evaluate_binary ((hevall values).symm.trans hx) ((hevalr values).symm.trans hy),
    Code.apply_eq_ok rfl, Op.apply_div_eq_ok]
  exact ⟨hy0, rfl⟩

end DefinedByDerivative

/-- A rule puts sums, products or quotients on top. -/
theorem exists_definedByDerivative_of_isBinary (hpow : ∀ a : α, Scalar.pow a 2 = a * a) {op : Op}
    {dl dr node' : Tree α} (hop : op.isBinary) (hnode : node.copy? = .ok node')
    (hl : l.copy? = .ok l') (hr : r.copy? = .ok r')
    (hdl : dl.WellFormed → dl.DefinedByDerivative) (hdr : dr.WellFormed → dr.DefinedByDerivative) :
    ∃ d, differentiateWith op i node l r (.ok dl) (.ok dr) = .ok d ∧
      (d.WellFormed → d.DefinedByDerivative) := by
  simp only [differentiateWith, hnode, hl, hr]
  cases op with
  | add => exact ⟨_, rfl, fun h => (hdl h.2.1).add (hdr h.2.2)⟩
  | sub => exact ⟨_, rfl, fun h => (hdl h.2.1).sub (hdr h.2.2)⟩
  | mul => exact ⟨_, rfl, fun h => (DefinedByDerivative.mul h.2.1).add (.mul h.2.2)⟩
  | div => exact ⟨_, rfl, .div hpow⟩
  | pow =>
    cases hri : r.mentions i with
    | false => exact ⟨_, rfl, .mul⟩
    | true =>
      cases hli : l.mentions i with
      | false => exact ⟨_, rfl, .mul⟩
      | true => exact ⟨_, rfl, .mul⟩
  | _ => cases hop

theorem exists_definedByDerivative_of_isFunction (hpow : ∀ a : α, Scalar.pow a 2 = a * a) {op : Op}
    {node' : Tree α} (hop : op.isFunction) (hnode : node.copy? = .ok node')
    (hr : r.copy? = .ok r') (dl : Except Fault (Tree α)) (dr : Tree α) :
    ∃ d, differentiateWith op i node l r dl (.ok dr) = .ok d ∧
      (d.WellFormed → d.DefinedByDerivative) := by
  simp only [differentiateWith, hnode, hr]
  cases op with
  | sin | cos => exact ⟨_, rfl, .mul⟩
  | ln | sqrt | tg | ctg | arcsin | arccos | arctg | arcctg => exact ⟨_, rfl, .div hpow⟩
  | _ => cases hop

theorem exists_definedByDerivative (hpow : ∀ a : α, Scalar.pow a 2 = a * a) (ht : t.WellFormed)
    (i : Int) : ∃ d, t.differentiate? i = .ok d ∧ d.WellFormed ∧ d.DefinedByDerivative := by
  obtain ⟨d, hd, hdefined⟩ := exists_differentiate?_of_rules (i := i)
    (Q := fun _ d => d.WellFormed → d.DefinedByDerivative) inherited_wellFormed
    (fun _ _ => .int 0) (fun _ _ _ => .int _)
    (fun _ hop _ hl hr hnode hdl hdr =>
      exists_definedByDerivative_of_isBinary hpow hop hnode hl hr hdl hdr)
    (fun dl _ hop _ ht hnode _ => exists_definedByDerivative_of_isFunction hpow hop hnode ht dl _)
    ht
  obtain ⟨d', hd', hwd⟩ := ht.exists_differentiate? i
  cases hd.symm.trans hd'
  exact ⟨d, hd, hwd, hdefined hwd⟩

/-! ### Mixed derivatives -/

/-- A second derivative has the mixed rate of the tree for its value, or none. -/
theorem exists_differentiate?_differentiate? (hlaws : SlopeLaws α) (ht : t.WellFormed)
    (i j : Int) : ∃ d dd, t.differentiate? i = .ok d ∧ d.differentiate? j = .ok dd ∧
      ∀ values, dd.OnlyValue values (t.jet i j values).mixed := by
  obtain ⟨d, hd, hwd, hdefined⟩ := exists_definedByDerivative hlaws.pow_two ht i
  obtain ⟨d', hd', hjet⟩ := exists_differentiate?_jet hlaws ht i j
  cases hd.symm.trans hd'
  obtain ⟨dd, hdd, hrate⟩ := Tree.exists_differentiate? hlaws.pow_two hwd j
  refine ⟨d, dd, hd, hdd, fun values w hw => ?_⟩
  obtain ⟨dd', hdd', hdefined⟩ := hdefined j
  cases hdd.symm.trans hdd'
  obtain ⟨v, hv⟩ := hdefined values w hw
  obtain ⟨rate, hdual, honly⟩ := hrate values v hv
  have hrate := congrArg Dual.rate (hjet values _ hdual)
  exact (honly w hw).trans hrate

/-- Mixed partial derivatives commute: in exact arithmetic a well-formed tree has both derivatives
by two variables, taken one after the other, and where both orders give a value, they give the same
one. -/
theorem mixed_derivatives_commute (hsquare : ∀ a : α, Scalar.pow a 2 = a * a)
    (hpred : ∀ a b : α, a ≠ 0 → Scalar.pow a (b - 1) = Scalar.pow a b / a) (t : Tree α)
    (ht : t.WellFormed) (i j : Int) :
    ∃ di dj dij dji, t.differentiate? i = .ok di ∧ di.differentiate? j = .ok dij ∧
      t.differentiate? j = .ok dj ∧ dj.differentiate? i = .ok dji ∧
      ∀ values v w, dij.evaluate values = .ok v → dji.evaluate values = .ok w → v = w := by
  have hlaws : SlopeLaws α := ⟨hsquare, hpred⟩
  obtain ⟨di, dij, hdi, hdij, hij⟩ := exists_differentiate?_differentiate? hlaws ht i j
  obtain ⟨dj, dji, hdj, hdji, hji⟩ := exists_differentiate?_differentiate? hlaws ht j i
  refine ⟨di, dj, dij, dji, hdi, hdij, hdj, hdji, fun values v w hv hw => ?_⟩
  have hsymm : (t.jet j i values).mixed = (t.jet i j values).mixed := by
    rw [jet_swap]
    rfl
  rw [hij values v hv, hji values w hw, hsymm]

end

/-- `x^y` at (2, 3): the first derivative by `x` takes the exponent for a constant, the one by `y`
the base, and either second derivative has the value `4 + 12 ln 2`. -/
theorem mixed_derivatives_commute_power :
    let x : Tree ℝ := var 0
    let y : Tree ℝ := var 1
    let ln : Tree ℝ := call (.op .ln) x
    let p : Tree ℝ := pow x (sub y (int 1))
    let dx := mul (mul y p) (int 1)
    let dxy := add
      (mul (add (mul (int 1) p) (mul y (mul (mul p ln) (sub (int 1) (int 0))))) (int 1))
      (mul (mul y p) (int 0))
    let dy := mul (mul (pow x y) ln) (int 1)
    let dyx := add (mul (add (mul dx ln) (mul (pow x y) (div (int 1) x))) (int 1))
      (mul (mul (pow x y) ln) (int 0))
    (∀ a : ℝ, Scalar.pow a 2 = a * a) ∧
      (∀ a b : ℝ, a ≠ 0 → Scalar.pow a (b - 1) = Scalar.pow a b / a) ∧ (pow x y).WellFormed ∧
      (pow x y).differentiate? 0 = .ok dx ∧ dx.differentiate? 1 = .ok dxy ∧
      (pow x y).differentiate? 1 = .ok dy ∧ dy.differentiate? 0 = .ok dyx ∧
      dxy.evaluate [2, 3] = .ok (4 + 12 * Real.log 2) ∧
      dyx.evaluate [2, 3] = .ok (4 + 12 * Real.log 2) := by
  intro x y ln p dx dxy dy dyx
  have hpred : ∀ a b : ℝ, a ≠ 0 → Scalar.pow a (b - 1) = Scalar.pow a b / a :=
    fun a b ha => Real.rpow_sub_one ha b
  have ht : (pow x y).WellFormed := by decide
  have hdx : (pow x y).differentiate? 0 = .ok dx := rfl
  have hdxy : dx.differentiate? 1 = .ok dxy := rfl
  have hdy : (pow x y).differentiate? 1 = .ok dy := rfl
  have hdyx : dy.differentiate? 0 = .ok dyx := rfl
  have hx : x.evaluate [2, 3] = .ok 2 := rfl
  have hy : y.evaluate [2, 3] = .ok 3 := rfl
  have h0 : (int 0 : Tree ℝ).evaluate [2, 3] = .ok ((0 : Int) : ℝ) := evaluate_int 0
  have h1 : (int 1 : Tree ℝ).evaluate [2, 3] = .ok ((1 : Int) : ℝ) := evaluate_int 1
  have hln : ln.evaluate [2, 3] = .ok (Real.log 2) := by
    rw [evaluate_call hx, Code.apply_eq_ok rfl, Op.apply_ln_eq_ok]
    exact ⟨two_pos, rfl⟩
  have hexponent : (sub y (int 1)).evaluate [2, 3] = .ok ((2 : Int) : ℝ) :=
    (evaluate_sub hy h1).trans (congrArg _ (by norm_num))
  have hp : p.evaluate [2, 3] = .ok 4 := by
    refine (evaluate_pow hx hexponent (by norm_num)).trans (congrArg _ ?_)
    show (2 : ℝ) ^ ((2 : Int) : ℝ) = 4
    rw [Real.rpow_intCast]
    norm_num
  have hpower : (pow x y).evaluate [2, 3] = .ok 8 := by
    refine (evaluate_pow hx (n := 3) (hy.trans (by norm_num)) (by norm_num)).trans (congrArg _ ?_)
    show (2 : ℝ) ^ ((3 : Int) : ℝ) = 8
    rw [Real.rpow_intCast]
    norm_num
  have hvalue : dxy.evaluate [2, 3] = .ok (4 + 12 * Real.log 2) := by
    refine (evaluate_add (evaluate_mul (evaluate_add (evaluate_mul h1 hp) (evaluate_mul hy
      (evaluate_mul (evaluate_mul hp hln) (evaluate_sub h1 h0)))) h1)
      (evaluate_mul (evaluate_mul hy hp) h0)).trans (congrArg _ ?_)
    push_cast
    ring
  have hquotient : (div (int 1) x).evaluate [2, 3] = .ok (((1 : Int) : ℝ) / 2) := by
    rw [div, evaluate_binary h1 hx, Code.apply_eq_ok rfl, Op.apply_div_eq_ok]
    exact ⟨two_ne_zero, rfl⟩
  have hvalue' := evaluate_add (evaluate_mul (evaluate_add (evaluate_mul
    (evaluate_mul (evaluate_mul hy hp) h1) hln) (evaluate_mul hpower hquotient)) h1)
    (evaluate_mul (evaluate_mul hpower hln) h0)
  obtain ⟨dx', dy', dxy', dyx', hdx', hdxy', hdy', hdyx', h⟩ :=
    mixed_derivatives_commute powerLaws_real.pow_two hpred (pow x y) ht 0 1
  cases hdx.symm.trans hdx'
  cases hdy.symm.trans hdy'
  cases hdxy.symm.trans hdxy'
  cases hdyx.symm.trans hdyx'
  refine ⟨powerLaws_real.pow_two, hpred, ht, hdx, hdxy, hdy, hdyx, hvalue, ?_⟩
  rw [h [2, 3] _ _ hvalue hvalue']
  exact hvalue'

end Tree

end FormulaCalculus
