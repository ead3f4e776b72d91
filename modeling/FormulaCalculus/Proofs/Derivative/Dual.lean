import FormulaCalculus.Proofs.Derivative.Rules
import FormulaCalculus.Proofs.Tree.Copy
import FormulaCalculus.Proofs.Tree.ExactValue

/-!
# The derivative is the derivative

`evaluateDual` evaluates a tree over dual numbers, each of which carries a rate of change beside its
value; the variable of interest changes at the rate 1 and everything else at the rate 0. In exact
arithmetic the rates obey the rules of calculus by definition, and `evaluate_differentiate` says
that a derivative tree has the rate of the tree for its value, wherever it has one.

A derivative copies operands next to the operands' derivatives, and for a power the rule depends on
where the variable occurs. What ties the rules to the rates is that a tree without the variable has
the rate 0.
-/

namespace FormulaCalculus

/-- A number together with its rate of change. -/
structure Dual (α : Type) where
  value : α
  rate : α

section Semantics

variable {α : Type} [Field α] [Scalar α]

/-- The rate of an operator's value, by the values and the rates of its operands. The exponent of a
power is `steady` if the variable does not occur in it. A quotient by 0 counts as 0 here, so what
does not change has the rate 0 even where a slope is infinite. -/
def Op.rate (op : Op) (steady : Bool) (x y : Dual α) : α :=
  match op with
  | add => x.rate + y.rate
  | sub => x.rate - y.rate
  | mul => x.rate * y.value + x.value * y.rate
  | div => (x.rate * y.value - x.value * y.rate) / (y.value * y.value)
  | pow =>
    if steady then y.value * Scalar.pow x.value (y.value - 1) * x.rate
    else Scalar.pow x.value y.value *
      (y.rate * Scalar.ln x.value + y.value * x.rate / x.value)
  | ln => 1 / y.value * y.rate
  | sqrt => 1 / ((2 : ℕ) * Scalar.sqrt y.value) * y.rate
  | cos => -Scalar.sin y.value * y.rate
  | sin => Scalar.cos y.value * y.rate
  | tg => 1 / Scalar.cos y.value ^ 2 * y.rate
  | ctg => -1 / Scalar.sin y.value ^ 2 * y.rate
  | arcsin => 1 / Scalar.sqrt (1 - y.value ^ 2) * y.rate
  | arccos => -1 / Scalar.sqrt (1 - y.value ^ 2) * y.rate
  | arctg => 1 / (1 + y.value ^ 2) * y.rate
  | arcctg => -1 / (1 + y.value ^ 2) * y.rate

def Code.applyDual (c : Code) (steady : Bool) (x y : Dual α) : Except Fault (Dual α) :=
  match c.op? with
  | none => .error (.noOperator c)
  | some o => do
    let value ← (o.apply x.value y.value).mapError .domain
    return ⟨value, o.rate steady x y⟩

theorem Code.applyDual_eq_ok {c : Code} {op : Op} {steady : Bool} {x y : Dual α} {v : α}
    (hc : c.op? = some op) (hv : op.apply x.value y.value = .ok v) :
    c.applyDual steady x y = .ok ⟨v, op.rate steady x y⟩ := by
  simp only [applyDual, hc, hv]
  rfl

/-- What does not change has no rate. -/
theorem Op.rate_eq_zero {op : Op} {steady : Bool} {x y : Dual α} (hx : x.rate = 0)
    (hy : y.rate = 0) : op.rate steady x y = 0 := by
  cases op <;> simp [rate, hx, hy]

/-- The value of a tree with its rate of change in the variable with index `target`. -/
def Tree.evaluateDual (target : Int) (values : List α) : Tree α → Except Fault (Dual α)
  | num v => .ok ⟨v, 0⟩
  | var i => match values[i]? with
    | some v => .ok ⟨v, if (i : Int) = target then 1 else 0⟩
    | none => .error .outOfRange
  | binary c l r => do
    let x ← l.evaluateDual target values
    let y ← r.evaluateDual target values
    c.applyDual (!r.mentions target) x y
  | call c t => do
    let y ← t.evaluateDual target values
    c.applyDual false ⟨Scalar.absent, 0⟩ y
  | t => .error (.cannot "evaluate" t.kind)

end Semantics

namespace Tree

/-! ### Rates -/

section

variable {α : Type} [Field α] [Scalar α] {values : List α} {i : Int} {v : α}

theorem evaluateDual_binary {c : Code} {op : Op} {l r : Tree α} {x y : Dual α}
    (hc : c.op? = some op) (hl : l.evaluateDual i values = .ok x)
    (hr : r.evaluateDual i values = .ok y) (hv : op.apply x.value y.value = .ok v) :
    (binary c l r).evaluateDual i values = .ok ⟨v, op.rate (!r.mentions i) x y⟩ := by
  simp only [evaluateDual, hl, hr]
  exact Code.applyDual_eq_ok hc hv

theorem evaluateDual_call {c : Code} {op : Op} {t : Tree α} {y : Dual α} (hc : c.op? = some op)
    (ht : t.evaluateDual i values = .ok y) (hv : op.apply Scalar.absent y.value = .ok v) :
    (call c t).evaluateDual i values = .ok ⟨v, op.rate false ⟨Scalar.absent, 0⟩ y⟩ := by
  simp only [evaluateDual, ht]
  exact Code.applyDual_eq_ok hc hv

/-- Where a tree has a value, it has a rate, which is 0 if the variable does not occur. -/
theorem exists_evaluateDual {t : Tree α} (h : t.evaluate values = .ok v) :
    ∃ rate, t.evaluateDual i values = .ok ⟨v, rate⟩ ∧ (t.mentions i = false → rate = 0) := by
  induction t generalizing v with
  | num z =>
    obtain rfl := evaluate_num_eq h
    exact ⟨0, rfl, fun _ => rfl⟩
  | var j =>
    simp only [evaluate] at h
    cases hj : values[j]? with
    | none => rw [hj] at h; cases h
    | some z =>
      rw [hj] at h
      cases h
      refine ⟨if (j : Int) = i then 1 else 0, by simp only [evaluateDual, hj], fun hi => ?_⟩
      rw [mentions_var, decide_eq_false_iff_not] at hi
      exact if_neg hi
  | binary c l r ihl ihr =>
    obtain ⟨x, y, hx, hy, hxy⟩ := evaluate_binary_eq_ok h
    obtain ⟨x', hx', hzerol⟩ := ihl hx
    obtain ⟨y', hy', hzeror⟩ := ihr hy
    obtain ⟨op, hc⟩ := Code.op?_of_apply hxy
    refine ⟨_, evaluateDual_binary hc hx' hy' ((Code.apply_eq_ok hc).1 hxy), fun hi => ?_⟩
    rw [mentions_binary, Bool.or_eq_false_iff] at hi
    exact Op.rate_eq_zero (hzerol hi.1) (hzeror hi.2)
  | call c t ih =>
    obtain ⟨y, hy, hcy⟩ := evaluate_call_eq_ok h
    obtain ⟨y', hy', hzero⟩ := ih hy
    obtain ⟨op, hc⟩ := Code.op?_of_apply hcy
    refine ⟨_, evaluateDual_call hc hy' ((Code.apply_eq_ok hc).1 hcy), fun hi => ?_⟩
    rw [mentions_call] at hi
    exact Op.rate_eq_zero rfl (hzero hi)
  | foreign kind text => cases h
  | missing => cases h

end

/-! ### The rules -/

section

variable {α : Type} [Field α] [LinearOrder α] [Scalar α] [ExactScalar α] {values : List α}
  {i : Int} {node l r node' l' r' : Tree α}

/-- A copy `t'` of the tree `t` has the value of the dual number `x`, and the derivative `dt` its
rate, if they have any. -/
structure Tracks (values : List α) (i : Int) (t t' dt : Tree α) (x : Dual α) : Prop where
  value : t'.OnlyValue values x.value
  rate : dt.OnlyValue values x.rate
  steady : t.mentions i = false → x.rate = 0

omit [LinearOrder α] [ExactScalar α] in
theorem Tracks.of_evaluateDual {t t' dt : Tree α} {v rate : α}
    (hcopy : t'.evaluate values = t.evaluate values) (hv : t.evaluate values = .ok v)
    (hdual : t.evaluateDual i values = .ok ⟨v, rate⟩) (hrate : dt.OnlyValue values rate) :
    Tracks values i t t' dt ⟨v, rate⟩ := by
  refine ⟨.of_evaluate (hcopy.trans hv), hrate, ?_⟩
  obtain ⟨rate', hdual', hzero⟩ := exists_evaluateDual hv (i := i)
  cases hdual.symm.trans hdual'
  exact hzero

/-- The rules of the arithmetic operators. -/
theorem differentiateWith_binary (hpow : ∀ a : α, Scalar.pow a 2 = a * a) {op : Op}
    (hb : op.isBinary) (dl dr : Tree α) (hnode : node.copy? = .ok node') (hl : l.copy? = .ok l')
    (hr : r.copy? = .ok r') :
    ∃ d, differentiateWith op i node l r (.ok dl) (.ok dr) = .ok d ∧
      ∀ values x y v, Tracks values i l l' dl x → Tracks values i r r' dr y →
        op.apply x.value y.value = .ok v → node'.OnlyValue values v →
        d.OnlyValue values (op.rate (!r.mentions i) x y) := by
  simp only [differentiateWith, hnode, hl, hr]
  cases op with
  | add => exact ⟨_, rfl, fun values x y v hx hy _ _ => hx.rate.add hy.rate⟩
  | sub => exact ⟨_, rfl, fun values x y v hx hy _ _ => hx.rate.sub hy.rate⟩
  | mul =>
    exact ⟨_, rfl, fun values x y v hx hy _ _ => (hx.rate.mul hy.value).add (hx.value.mul hy.rate)⟩
  | div =>
    refine ⟨_, rfl, fun values x y v hx hy _ _ => ?_⟩
    refine OnlyValue.congr (((hx.rate.mul hy.value).sub (hx.value.mul hy.rate)).div
      (hy.value.square hpow)) ?_
    simp only [Op.rate, pow_two]
  | pow =>
    simp only [Op.rate]
    cases hmr : r.mentions i with
    | false =>
      exact ⟨_, rfl, fun values x y v hx hy _ _ =>
        (hy.value.mul (hx.value.pow (hy.value.sub .one))).mul hx.rate⟩
    | true =>
      cases hml : l.mentions i with
      | false =>
        refine ⟨_, rfl, fun values x y v hx hy hv hnode => ?_⟩
        obtain ⟨-, -, rfl⟩ := Op.apply_pow_eq_ok.1 hv
        refine OnlyValue.congr ((hnode.mul hx.value.ln).mul hy.rate) ?_
        -- the base does not change, which leaves the first term of the general rule
        simp only [hx.steady hml, Bool.not_true, Bool.false_eq_true, if_false]
        ring
      | true =>
        refine ⟨_, rfl, fun values x y v hx hy hv hnode => ?_⟩
        obtain ⟨-, -, rfl⟩ := Op.apply_pow_eq_ok.1 hv
        exact hnode.mul ((hy.rate.mul hx.value.ln).add ((hy.value.mul hx.rate).div hx.value))
  | _ => cases hb

/-- The square root that the derivatives of arcsin and arccos divide by. -/
theorem onlyValue_sqrt_one_sub (hpow : ∀ a : α, Scalar.pow a 2 = a * a) {y : α}
    (hy : r'.OnlyValue values y) :
    (Tree.call (.op .sqrt) (sub (int 1) (square r'))).OnlyValue values
      (Scalar.sqrt (1 - y ^ 2)) :=
  (OnlyValue.one.sub (hy.square hpow)).sqrt

/-- The rules of the functions. The argument is `r`; the left slot is empty. -/
theorem differentiateWith_function (hpow : ∀ a : α, Scalar.pow a 2 = a * a) {op : Op}
    (hf : op.isFunction) (dl : Except Fault (Tree α)) (dr : Tree α) (hnode : node.copy? = .ok node')
    (hr : r.copy? = .ok r') :
    ∃ d, differentiateWith op i node missing r dl (.ok dr) = .ok d ∧
      ∀ values y v, Tracks values i r r' dr y → op.apply Scalar.absent y.value = .ok v →
        node'.OnlyValue values v → d.OnlyValue values (op.rate false ⟨Scalar.absent, 0⟩ y) := by
  simp only [differentiateWith, hnode, hr]
  cases op with
  | ln =>
    refine ⟨_, rfl, fun values y v hy _ _ => (hy.rate.div hy.value).congr ?_⟩
    simp only [Op.rate]
    ring
  | sqrt =>
    refine ⟨_, rfl, fun values y v hy hv hnode => ?_⟩
    obtain rfl := Op.eq_of_apply_sqrt hv
    have htwo : (int 2 : Tree α).OnlyValue values 2 := (OnlyValue.int 2).congr (Int.cast_ofNat 2)
    refine (hy.rate.div (htwo.mul hnode)).congr ?_
    simp only [Op.rate]
    ring
  | cos => exact ⟨_, rfl, fun values y v hy _ _ => hy.value.sin.negate.mul hy.rate⟩
  | sin => exact ⟨_, rfl, fun values y v hy _ _ => hy.value.cos.mul hy.rate⟩
  | tg =>
    refine ⟨_, rfl, fun values y v hy _ _ => (hy.rate.div (hy.value.cos.square hpow)).congr ?_⟩
    simp only [Op.rate]
    ring
  | ctg =>
    refine ⟨_, rfl, fun values y v hy _ _ =>
      (hy.rate.negate.div (hy.value.sin.square hpow)).congr ?_⟩
    simp only [Op.rate]
    ring
  | arcsin =>
    refine ⟨_, rfl, fun values y v hy _ _ =>
      (hy.rate.div (onlyValue_sqrt_one_sub hpow hy.value)).congr ?_⟩
    simp only [Op.rate]
    ring
  | arccos =>
    refine ⟨_, rfl, fun values y v hy _ _ =>
      (hy.rate.negate.div (onlyValue_sqrt_one_sub hpow hy.value)).congr ?_⟩
    simp only [Op.rate]
    ring
  | arctg =>
    refine ⟨_, rfl, fun values y v hy _ _ =>
      (hy.rate.div (OnlyValue.one.add (hy.value.square hpow))).congr ?_⟩
    simp only [Op.rate]
    ring
  | arcctg =>
    refine ⟨_, rfl, fun values y v hy _ _ =>
      (hy.rate.negate.div (OnlyValue.one.add (hy.value.square hpow))).congr ?_⟩
    simp only [Op.rate]
    ring
  | _ => cases hf

/-! ### The whole tree -/

/-- A well-formed tree has a derivative, and where the tree has a value, the derivative has the rate
for its value or none. -/
theorem exists_differentiate? (hpow : ∀ a : α, Scalar.pow a 2 = a * a) {t : Tree α}
    (ht : t.WellFormed) (i : Int) :
    ∃ d, t.differentiate? i = .ok d ∧ ∀ values v, t.evaluate values = .ok v →
      ∃ rate, t.evaluateDual i values = .ok ⟨v, rate⟩ ∧ d.OnlyValue values rate := by
  refine exists_differentiate?_of_rules (Q := fun t d => ∀ values v, t.evaluate values = .ok v →
      ∃ rate, t.evaluateDual i values = .ok ⟨v, rate⟩ ∧ d.OnlyValue values rate)
    inherited_wellFormed (fun z values v hv => ?_) (fun j _ values v hv => ?_) ?_ ?_ ht
  · obtain rfl := evaluate_num_eq hv
    exact ⟨0, rfl, (OnlyValue.int 0).congr Int.cast_zero⟩
  · simp only [evaluate] at hv
    cases hj : values[j]? with
    | none => rw [hj] at hv; cases hv
    | some z =>
      rw [hj] at hv
      cases hv
      refine ⟨if (j : Int) = i then 1 else 0, by simp only [evaluateDual, hj], ?_⟩
      exact (OnlyValue.int _).congr (by split <;> norm_num)
  · intro c op l r l' r' dl dr hc hb h hl hr hnode hratel hrater
    obtain ⟨d, hd, hrate⟩ := differentiateWith_binary (i := i) hpow hb dl dr hnode hl hr
    refine ⟨d, hd, fun values v hv => ?_⟩
    obtain ⟨x, y, hx, hy, hxy⟩ := evaluate_binary_eq_ok hv
    rw [Code.apply_eq_ok hc] at hxy
    obtain ⟨x', hdualx, hdx⟩ := hratel values x hx
    obtain ⟨y', hdualy, hdy⟩ := hrater values y hy
    exact ⟨_, evaluateDual_binary hc hdualx hdualy hxy,
      hrate values _ _ v (.of_evaluateDual (evaluate_copy h.2.1 hl values) hx hdualx hdx)
        (.of_evaluateDual (evaluate_copy h.2.2 hr values) hy hdualy hdy) hxy
        (.of_evaluate ((evaluate_copy h hnode values).trans hv))⟩
  · intro c op t t' dt dl hc hf h ht hnode hratet
    obtain ⟨d, hd, hrate⟩ := differentiateWith_function (i := i) hpow hf dl dt hnode ht
    refine ⟨d, hd, fun values v hv => ?_⟩
    obtain ⟨y, hy, hcy⟩ := evaluate_call_eq_ok hv
    rw [Code.apply_eq_ok hc] at hcy
    obtain ⟨y', hdualy, hdy⟩ := hratet values y hy
    exact ⟨_, evaluateDual_call hc hdualy hcy,
      hrate values _ v (.of_evaluateDual (evaluate_copy h.2 ht values) hy hdualy hdy) hcy
        (.of_evaluate ((evaluate_copy h hnode values).trans hv))⟩

/-- The symbolic derivative is the derivative: in exact arithmetic a well-formed tree has a
derivative by every variable, and wherever the tree and the derivative have values, the value of the
derivative is the rate that the evaluation over dual numbers finds beside the value of the tree. -/
theorem evaluate_differentiate (hpow : ∀ a : α, Scalar.pow a 2 = a * a) (t : Tree α)
    (ht : t.WellFormed) (i : Int) :
    ∃ d, t.differentiate? i = .ok d ∧ ∀ values v w, t.evaluate values = .ok v →
      d.evaluate values = .ok w → t.evaluateDual i values = .ok ⟨v, w⟩ := by
  obtain ⟨d, hd, hrate⟩ := exists_differentiate? hpow ht i
  refine ⟨d, hd, fun values v w hv hw => ?_⟩
  obtain ⟨rate, hdual, honly⟩ := hrate values v hv
  rw [hdual, honly w hw]

end

/-- `x^3` at -2 by `x`: the base is negative, the value -8 and the rate 12. -/
theorem evaluate_differentiate_cube :
    let t : Tree ℝ := pow (var 0) (int 3)
    let d : Tree ℝ := mul (mul (int 3) (pow (var 0) (sub (int 3) (int 1)))) (int 1)
    (∀ a : ℝ, Scalar.pow a 2 = a * a) ∧ t.WellFormed ∧ t.differentiate? 0 = .ok d ∧
      t.evaluate [-2] = .ok (-8) ∧ d.evaluate [-2] = .ok 12 ∧
      t.evaluateDual 0 [-2] = .ok ⟨-8, 12⟩ := by
  intro t d
  have hd : t.differentiate? 0 = .ok d := rfl
  have ht : t.WellFormed := by decide
  have hx : (var 0 : Tree ℝ).evaluate [-2] = .ok (-2) := rfl
  have hvalue : t.evaluate [-2] = .ok (-8) := by
    refine (evaluate_pow hx (evaluate_int 3) (by norm_num)).trans (congrArg _ ?_)
    show (-2 : ℝ) ^ ((3 : Int) : ℝ) = -8
    rw [Real.rpow_intCast]
    norm_num
  have hexponent : (sub (int 3) (int 1) : Tree ℝ).evaluate [-2] = .ok ((2 : Int) : ℝ) :=
    (evaluate_sub (evaluate_int 3) (evaluate_int 1)).trans (congrArg _ (by norm_num))
  have hrate : d.evaluate [-2] = .ok 12 := by
    have hpower := evaluate_pow hx hexponent (by norm_num)
    refine (evaluate_mul (evaluate_mul (evaluate_int 3) hpower) (evaluate_int 1)).trans
      (congrArg _ ?_)
    show ((3 : Int) : ℝ) * (-2 : ℝ) ^ ((2 : Int) : ℝ) * ((1 : Int) : ℝ) = 12
    rw [Real.rpow_intCast]
    norm_num
  obtain ⟨d', hd', h⟩ := evaluate_differentiate powerLaws_real.pow_two t ht 0
  cases hd.symm.trans hd'
  exact ⟨powerLaws_real.pow_two, ht, hd, hvalue, hrate, h [-2] (-8) 12 hvalue hrate⟩

end Tree

end FormulaCalculus
