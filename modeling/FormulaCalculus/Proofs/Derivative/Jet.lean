import FormulaCalculus.Proofs.Derivative.Dual

/-!
# Mixed rates of change

A jet carries a value, its rates of change in two variables, and the mixed rate: that of the first
rate in the second variable. The mixed rates of the operators are read off the rules and brought
into a form that treats the variables alike. A power has several forms, as its rule looks at where
the variables occur; exchanging the variables exchanges the forms.
-/

namespace FormulaCalculus

/-- A value with its rates of change in two variables and its mixed rate. -/
structure Jet (α : Type) where
  value : α
  first : α
  second : α
  mixed : α

namespace Jet

variable {α : Type}

/-- The variables exchanged. -/
def swap (z : Jet α) : Jet α :=
  ⟨z.value, z.second, z.first, z.mixed⟩

/-- The value as the first variable changes. -/
def dual (z : Jet α) : Dual α :=
  ⟨z.value, z.first⟩

/-- The first rate as the second variable changes. -/
def rate (z : Jet α) : Dual α :=
  ⟨z.first, z.mixed⟩

/-- What does not change. -/
def const [Zero α] (v : α) : Jet α :=
  ⟨v, 0, 0, 0⟩

/-- The first variable changes nothing. -/
def Still [Zero α] (z : Jet α) : Prop :=
  z.first = 0 ∧ z.mixed = 0

end Jet

variable {α : Type}

/-! ### Operators -/

section

variable [Field α] [Scalar α]

namespace Op

/-- The slope of the square as the rule for powers has it. -/
def squareSlope (y : α) : α :=
  (2 : ℕ) * Scalar.pow y ((2 : ℕ) - 1)

theorem squareSlope_eq (y : α) : squareSlope y = 2 * Scalar.pow y (2 - 1) := by
  rw [squareSlope, Nat.cast_ofNat]

/-- The divisor in the rule of a function, and how it changes with the argument. -/
def divisor (op : Op) (y : α) : Dual α :=
  match op with
  | ln => ⟨y, 1⟩
  | sqrt => ⟨(2 : ℕ) * Scalar.sqrt y, (2 : ℕ) * (1 / ((2 : ℕ) * Scalar.sqrt y))⟩
  | tg => ⟨Scalar.cos y ^ 2, squareSlope (Scalar.cos y) * -Scalar.sin y⟩
  | ctg => ⟨Scalar.sin y ^ 2, squareSlope (Scalar.sin y) * Scalar.cos y⟩
  | arcsin | arccos =>
    ⟨Scalar.sqrt (1 - y ^ 2), 1 / ((2 : ℕ) * Scalar.sqrt (1 - y ^ 2)) * -squareSlope y⟩
  | arctg | arcctg => ⟨1 + y ^ 2, squareSlope y⟩
  | _ => ⟨1, 0⟩

/-- How the slope of a function changes with its argument. -/
def bend (op : Op) (y : α) : α :=
  let d := op.divisor y
  match op with
  | cos => -Scalar.cos y
  | sin => -Scalar.sin y
  | ctg | arccos | arcctg => d.rate / (d.value * d.value)
  | _ => -d.rate / (d.value * d.value)

/-- The mixed rate of a power whose exponent changes in the second variable only. -/
def steadyMixed (x y : Jet α) : α :=
  let power := Scalar.pow x.value (y.value - 1)
  let rate := power * (y.second * Scalar.ln x.value + (y.value - 1) * x.second / x.value)
  y.value * power * x.mixed + (y.second * power + y.value * rate) * x.first

/-- The mixed rate of an operator. The exponent of a power can be steady in either variable. -/
def mixed (op : Op) (steady steady' : Bool) (x y : Jet α) : α :=
  match op with
  | add => x.mixed + y.mixed
  | sub => x.mixed - y.mixed
  | mul => x.mixed * y.value + x.first * y.second + x.second * y.first + x.value * y.mixed
  | div =>
    x.mixed / y.value
      - (x.first * y.second + x.second * y.first + x.value * y.mixed) / (y.value * y.value)
      + (2 : ℕ) * x.value * (y.first * y.second) / (y.value * y.value * y.value)
  | pow =>
    match steady, steady' with
    | true, true =>
      y.value * ((y.value - 1) * Scalar.pow x.value (y.value - 1 - 1) * (x.first * x.second)
        + Scalar.pow x.value (y.value - 1) * x.mixed)
    | true, false => steadyMixed x y
    | false, true => steadyMixed x.swap y.swap
    | false, false =>
      let log := Scalar.ln x.value
      Scalar.pow x.value y.value *
        ((y.first * log + y.value * x.first / x.value) *
          (y.second * log + y.value * x.second / x.value)
        + (y.mixed * log + (y.first * x.second + y.second * x.first + y.value * x.mixed) / x.value
          - y.value * (x.first * x.second) / (x.value * x.value)))
  | op =>
    op.rate false ⟨Scalar.absent, 0⟩ ⟨y.value, y.mixed⟩ + op.bend y.value * (y.first * y.second)

/-- The mixed rate treats the variables alike. -/
theorem mixed_swap (op : Op) (steady steady' : Bool) (x y : Jet α) :
    op.mixed steady' steady x.swap y.swap = op.mixed steady steady' x y := by
  cases op with
  | pow =>
    -- `simp` exchanges the two forms with one steady exponent
    cases steady <;> cases steady' <;> simp only [mixed, Jet.swap]
    · ring
    · ring
  | add | sub => rfl
  | mul | div =>
    simp only [mixed, Jet.swap]
    ring
  | _ => simp only [mixed, Jet.swap, mul_comm y.second]

/-- Operands that the first variable does not change make a value that it does not change. -/
theorem mixed_eq_zero {op : Op} {steady steady' : Bool} {x y : Jet α} (hx : x.Still)
    (hy : y.Still) : op.mixed steady steady' x y = 0 := by
  cases op with
  | pow =>
    cases steady <;> cases steady' <;>
      simp [mixed, steadyMixed, Jet.swap, hx.1, hx.2, hy.1, hy.2]
  | _ => simp [mixed, rate, hx.1, hx.2, hy.1, hy.2]

/-- The value of an operator, 0 outside its domain. -/
def value (op : Op) (x y : α) : α :=
  (op.apply x y).toOption.getD 0

theorem value_eq {op : Op} {x y v : α} (h : op.apply x y = .ok v) : op.value x y = v := by
  rw [value, h]
  rfl

/-- The jet of an operator's value. -/
def jet (op : Op) (steady steady' : Bool) (x y : Jet α) : Jet α :=
  ⟨op.value x.value y.value, op.rate steady x.dual y.dual, op.rate steady' x.swap.dual y.swap.dual,
    op.mixed steady steady' x y⟩

theorem jet_swap (op : Op) (steady steady' : Bool) (x y : Jet α) :
    op.jet steady' steady x.swap y.swap = (op.jet steady steady' x y).swap := by
  rw [jet, jet, mixed_swap]
  rfl

theorem jet_still {op : Op} {steady steady' : Bool} {x y : Jet α} (hx : x.Still) (hy : y.Still) :
    (op.jet steady steady' x y).Still :=
  ⟨rate_eq_zero hx.1 hy.1, mixed_eq_zero hx hy⟩

end Op

/-! ### Trees -/

namespace Tree

variable {i j : Int} {values : List α} {l r t : Tree α}

/-- The jet of a tree in the variables with the indices `i` and `j`, 0 where it is undefined. -/
def jet (i j : Int) (values : List α) : Tree α → Jet α
  | num v => .const v
  | var k =>
    ⟨values[k]?.getD 0, if (k : Int) = i then 1 else 0, if (k : Int) = j then 1 else 0, 0⟩
  | binary c l r =>
    match c.op? with
    | some op => op.jet (!r.mentions i) (!r.mentions j) (l.jet i j values) (r.jet i j values)
    | none => .const 0
  | call c t =>
    match c.op? with
    | some op => op.jet false false (.const Scalar.absent) (t.jet i j values)
    | none => .const 0
  | _ => .const 0

theorem jet_binary {c : Code} {op : Op} (hc : c.op? = some op) (l r : Tree α) :
    (binary c l r).jet i j values =
      op.jet (!r.mentions i) (!r.mentions j) (l.jet i j values) (r.jet i j values) := by
  simp only [jet, hc]

theorem jet_call {c : Code} {op : Op} (hc : c.op? = some op) (t : Tree α) :
    (call c t).jet i j values = op.jet false false (.const Scalar.absent) (t.jet i j values) := by
  simp only [jet, hc]

theorem jet_swap (t : Tree α) : t.jet j i values = (t.jet i j values).swap := by
  induction t with
  | num | var | foreign | missing => rfl
  | binary c l r ihl ihr =>
    cases hc : c.op? with
    | none => simp only [jet, hc]; rfl
    | some op => rw [jet_binary hc, jet_binary hc, ihl, ihr, Op.jet_swap]
  | call c t ih =>
    cases hc : c.op? with
    | none => simp only [jet, hc]; rfl
    | some op =>
      rw [jet_call hc, jet_call hc, ih]
      exact Op.jet_swap op false false (.const Scalar.absent) _

/-- A tree that does not mention the first variable does not change with it. -/
theorem jet_still (h : t.mentions i = false) : (t.jet i j values).Still := by
  induction t with
  | num | foreign | missing => exact ⟨rfl, rfl⟩
  | var k =>
    rw [mentions_var, decide_eq_false_iff_not] at h
    exact ⟨if_neg h, rfl⟩
  | binary c l r ihl ihr =>
    rw [mentions_binary, Bool.or_eq_false_iff] at h
    cases hc : c.op? with
    | none => simp only [jet, hc]; exact ⟨rfl, rfl⟩
    | some op => rw [jet_binary hc]; exact Op.jet_still (ihl h.1) (ihr h.2)
  | call c t ih =>
    rw [mentions_call] at h
    cases hc : c.op? with
    | none => simp only [jet, hc]; exact ⟨rfl, rfl⟩
    | some op => rw [jet_call hc]; exact Op.jet_still ⟨rfl, rfl⟩ (ih h)

/-! ### The only dual number a tree can have -/

/-- The tree has the dual number `z` in the variable with index `i`, or none. -/
def OnlyDual (i : Int) (values : List α) (t : Tree α) (z : Dual α) : Prop :=
  ∀ w, t.evaluateDual i values = .ok w → w = z

theorem evaluateDual_binary_eq_ok {c : Code} {w : Dual α}
    (h : (binary c l r).evaluateDual i values = .ok w) :
    ∃ op x y v, c.op? = some op ∧ l.evaluateDual i values = .ok x ∧
      r.evaluateDual i values = .ok y ∧ op.apply x.value y.value = .ok v ∧
      w = ⟨v, op.rate (!r.mentions i) x y⟩ := by
  simp only [evaluateDual] at h
  cases hx : l.evaluateDual i values with
  | error fault => rw [hx] at h; cases h
  | ok x =>
    cases hy : r.evaluateDual i values with
    | error fault => rw [hx, hy] at h; cases h
    | ok y =>
      rw [hx, hy] at h
      change c.applyDual _ x y = .ok w at h
      cases hc : c.op? with
      | none => simp only [Code.applyDual, hc] at h; cases h
      | some op =>
        cases hv : op.apply x.value y.value with
        | error fault => simp only [Code.applyDual, hc, hv] at h; cases h
        | ok v =>
          rw [Code.applyDual_eq_ok hc hv] at h
          exact ⟨op, x, y, v, rfl, rfl, rfl, hv, (Except.ok.inj h).symm⟩

theorem evaluateDual_call_eq_ok {c : Code} {w : Dual α}
    (h : (call c t).evaluateDual i values = .ok w) :
    ∃ op y v, c.op? = some op ∧ t.evaluateDual i values = .ok y ∧
      op.apply Scalar.absent y.value = .ok v ∧ w = ⟨v, op.rate false ⟨Scalar.absent, 0⟩ y⟩ := by
  simp only [evaluateDual] at h
  cases hy : t.evaluateDual i values with
  | error fault => rw [hy] at h; cases h
  | ok y =>
    rw [hy] at h
    change c.applyDual false ⟨Scalar.absent, 0⟩ y = .ok w at h
    cases hc : c.op? with
    | none => simp only [Code.applyDual, hc] at h; cases h
    | some op =>
      cases hv : op.apply Scalar.absent y.value with
      | error fault => simp only [Code.applyDual, hc, hv] at h; cases h
      | ok v =>
        rw [Code.applyDual_eq_ok hc hv] at h
        exact ⟨op, y, v, rfl, rfl, hv, (Except.ok.inj h).symm⟩

theorem onlyDual_jet (j : Int) (t : Tree α) :
    t.OnlyDual i values (t.jet i j values).dual := by
  induction t with
  | num v =>
    intro w h
    exact (Except.ok.inj h).symm
  | var k =>
    intro w h
    simp only [evaluateDual] at h
    cases hk : values[k]? with
    | none => rw [hk] at h; cases h
    | some v =>
      rw [hk] at h
      cases h
      simp only [jet, Jet.dual, hk, Option.getD_some]
  | binary c l r ihl ihr =>
    intro w h
    obtain ⟨op, x, y, v, hc, hx, hy, hv, rfl⟩ := evaluateDual_binary_eq_ok h
    obtain rfl := ihl x hx
    obtain rfl := ihr y hy
    rw [jet_binary hc, ← Op.value_eq hv]
    rfl
  | call c t ih =>
    intro w h
    obtain ⟨op, y, v, hc, hy, hv, rfl⟩ := evaluateDual_call_eq_ok h
    obtain rfl := ih y hy
    rw [jet_call hc, ← Op.value_eq hv]
    rfl
  | foreign | missing =>
    intro w h
    cases h

/-- The dual number in the second variable. -/
theorem onlyDual_jet_swap (i : Int) (t : Tree α) :
    t.OnlyDual j values (t.jet i j values).swap.dual := by
  rw [← jet_swap]
  exact onlyDual_jet i t

namespace OnlyDual

variable {x y z : Dual α} {a b : α}

theorem congr (h : t.OnlyDual i values x) (hxz : x = z) : t.OnlyDual i values z :=
  hxz ▸ h

theorem binary {op : Op} (hl : l.OnlyDual i values x) (hr : r.OnlyDual i values y)
    (hop : ∀ v, op.apply x.value y.value = .ok v → v = a) :
    (binary (.op op) l r).OnlyDual i values ⟨a, op.rate (!r.mentions i) x y⟩ := by
  intro w h
  obtain ⟨op', x', y', v, hc, hx, hy, hv, rfl⟩ := evaluateDual_binary_eq_ok h
  cases hc
  obtain rfl := hl x' hx
  obtain rfl := hr y' hy
  rw [hop v hv]

theorem call {op : Op} (ht : t.OnlyDual i values y)
    (hop : ∀ v, op.apply Scalar.absent y.value = .ok v → v = a) :
    (call (.op op) t).OnlyDual i values ⟨a, op.rate false ⟨Scalar.absent, 0⟩ y⟩ := by
  intro w h
  obtain ⟨op', y', v, hc, hy, hv, rfl⟩ := evaluateDual_call_eq_ok h
  cases hc
  obtain rfl := ht y' hy
  rw [hop v hv]

theorem cos (ht : t.OnlyDual i values y) : (Tree.call (.op .cos) t).OnlyDual i values
    ⟨Scalar.cos y.value, -Scalar.sin y.value * y.rate⟩ :=
  ht.call fun _ => Op.eq_of_apply_cos

theorem sin (ht : t.OnlyDual i values y) : (Tree.call (.op .sin) t).OnlyDual i values
    ⟨Scalar.sin y.value, Scalar.cos y.value * y.rate⟩ :=
  ht.call fun _ => Op.eq_of_apply_sin

theorem ln (ht : t.OnlyDual i values y) : (Tree.call (.op .ln) t).OnlyDual i values
    ⟨Scalar.ln y.value, 1 / y.value * y.rate⟩ :=
  ht.call fun _ => Op.eq_of_apply_ln

theorem sqrt (ht : t.OnlyDual i values y) : (Tree.call (.op .sqrt) t).OnlyDual i values
    ⟨Scalar.sqrt y.value, 1 / ((2 : ℕ) * Scalar.sqrt y.value) * y.rate⟩ :=
  ht.call fun _ => Op.eq_of_apply_sqrt

variable [LinearOrder α] [ExactScalar α]

theorem int (n : Int) : (int n : Tree α).OnlyDual i values ⟨n, 0⟩ := by
  intro w h
  cases h
  rw [ExactScalar.ofInt_eq]

theorem add (hl : l.OnlyDual i values x) (hr : r.OnlyDual i values y) :
    (add l r).OnlyDual i values ⟨x.value + y.value, x.rate + y.rate⟩ :=
  hl.binary hr fun _ => Op.apply_add_eq_ok.1

theorem sub (hl : l.OnlyDual i values x) (hr : r.OnlyDual i values y) :
    (sub l r).OnlyDual i values ⟨x.value - y.value, x.rate - y.rate⟩ :=
  hl.binary hr fun _ => Op.apply_sub_eq_ok.1

theorem mul (hl : l.OnlyDual i values x) (hr : r.OnlyDual i values y) :
    (mul l r).OnlyDual i values ⟨x.value * y.value, x.rate * y.value + x.value * y.rate⟩ :=
  hl.binary hr fun _ => Op.apply_mul_eq_ok.1

theorem div (hl : l.OnlyDual i values x) (hr : r.OnlyDual i values y) :
    (div l r).OnlyDual i values ⟨x.value / y.value,
      (x.rate * y.value - x.value * y.rate) / (y.value * y.value)⟩ :=
  hl.binary hr fun _ hv => (Op.apply_div_eq_ok.1 hv).2

theorem pow (hl : l.OnlyDual i values x) (hr : r.OnlyDual i values y) :
    (pow l r).OnlyDual i values
      ⟨Scalar.pow x.value y.value, Op.pow.rate (!r.mentions i) x y⟩ :=
  hl.binary hr fun _ hv => (Op.apply_pow_eq_ok.1 hv).2.2

theorem negate (ht : t.OnlyDual i values x) :
    (negate t).OnlyDual i values ⟨-x.value, -x.rate⟩ :=
  ((int (-1)).mul ht).congr (by simp)

/-- A quotient by a divisor that changes by the slope `s`. -/
theorem quotient {d s : α} {y : Jet α} (ht : t.OnlyDual i values y.rate)
    (hr : r.OnlyDual i values ⟨d, s * y.second⟩) :
    (Tree.div t r).OnlyDual i values
      ⟨1 / d * y.first, 1 / d * y.mixed + -s / (d * d) * (y.first * y.second)⟩ := by
  refine (ht.div hr).congr ?_
  simp only [Jet.rate, Dual.mk.injEq]
  refine ⟨by ring, ?_⟩
  field_simp
  ring

theorem neg_quotient {d s : α} {y : Jet α} (ht : t.OnlyDual i values y.rate)
    (hr : r.OnlyDual i values ⟨d, s * y.second⟩) :
    (Tree.div (Tree.negate t) r).OnlyDual i values
      ⟨-1 / d * y.first, -1 / d * y.mixed + s / (d * d) * (y.first * y.second)⟩ := by
  refine (quotient (y := ⟨y.value, -y.first, y.second, -y.mixed⟩) ht.negate hr).congr ?_
  rw [Dual.mk.injEq]
  exact ⟨by ring, by ring⟩

theorem square (hpow : ∀ a : α, Scalar.pow a 2 = a * a) (ht : t.OnlyDual i values x) :
    (square t).OnlyDual i values ⟨x.value ^ 2, Op.squareSlope x.value * x.rate⟩ := by
  have h := ht.pow (int 2)
  rw [Int.cast_ofNat, hpow, ← pow_two] at h
  rw [Op.squareSlope_eq]
  exact h

end OnlyDual

end Tree

end

end FormulaCalculus
