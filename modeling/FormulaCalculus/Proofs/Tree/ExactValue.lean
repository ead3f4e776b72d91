import FormulaCalculus.Derivative
import FormulaCalculus.Proofs.Simplify.Meaning

/-!
# Values of trees in exact arithmetic

The value of a tree that is built by operator, from the values of its operands. `OnlyValue` says
what value a tree has if it has one at all, so that an operator asks nothing about its domain.
-/

namespace FormulaCalculus

/-! ### Functions -/

namespace Op

variable {α : Type} [Scalar α] {x y v : α}

theorem eq_of_apply_ln (h : Op.ln.apply x y = .ok v) : v = Scalar.ln y := by
  simp only [apply] at h
  split at h
  · cases h
  · cases h; rfl

theorem eq_of_apply_sqrt (h : Op.sqrt.apply x y = .ok v) : v = Scalar.sqrt y := by
  simp only [apply] at h
  split at h
  · cases h
  · cases h; rfl

theorem eq_of_apply_cos (h : Op.cos.apply x y = .ok v) : v = Scalar.cos y := by
  cases h; rfl

theorem eq_of_apply_sin (h : Op.sin.apply x y = .ok v) : v = Scalar.sin y := by
  cases h; rfl

end Op

namespace Tree

/-! ### Values -/

section

variable {α : Type} [Field α] [LinearOrder α] [Scalar α] [ExactScalar α] {values : List α}
  {l r : Tree α} {x y : α}

theorem evaluate_add (hl : l.evaluate values = .ok x) (hr : r.evaluate values = .ok y) :
    (add l r).evaluate values = .ok (x + y) := by
  rw [add, evaluate_binary hl hr, Code.apply_eq_ok rfl, Op.apply_add_eq_ok]

theorem evaluate_sub (hl : l.evaluate values = .ok x) (hr : r.evaluate values = .ok y) :
    (sub l r).evaluate values = .ok (x - y) := by
  rw [sub, evaluate_binary hl hr, Code.apply_eq_ok rfl, Op.apply_sub_eq_ok]

theorem evaluate_mul (hl : l.evaluate values = .ok x) (hr : r.evaluate values = .ok y) :
    (mul l r).evaluate values = .ok (x * y) := by
  rw [mul, evaluate_binary hl hr, Code.apply_eq_ok rfl, Op.apply_mul_eq_ok]

/-- A power with a whole exponent is defined, unless zero gets a negative one. -/
theorem evaluate_pow {n : Int} (hl : l.evaluate values = .ok x)
    (hr : r.evaluate values = .ok (n : α)) (h : ¬ (x = 0 ∧ (n : α) < 0)) :
    (pow l r).evaluate values = .ok (Scalar.pow x n) := by
  rw [pow, evaluate_binary hl hr, Code.apply_eq_ok rfl, Op.apply_pow_eq_ok]
  exact ⟨h, fun _ => ⟨n, rfl⟩, rfl⟩

end

/-! ### The only value a tree can have -/

/-- The tree has the value `v` or none. -/
def OnlyValue {α : Type} [Scalar α] (values : List α) (t : Tree α) (v : α) : Prop :=
  ∀ w, t.evaluate values = .ok w → w = v

namespace OnlyValue

variable {α : Type} [Scalar α] {values : List α} {l r t : Tree α} {v w x y : α}

theorem of_evaluate (h : t.evaluate values = .ok v) : t.OnlyValue values v :=
  fun _ hw => Except.ok.inj (hw.symm.trans h)

theorem congr (h : t.OnlyValue values v) (hvw : v = w) : t.OnlyValue values w :=
  hvw ▸ h

theorem binary {op : Op} (hl : l.OnlyValue values x) (hr : r.OnlyValue values y)
    (hop : ∀ v, op.apply x y = .ok v → v = w) : (binary (.op op) l r).OnlyValue values w := by
  intro v hv
  obtain ⟨x', y', hx', hy', hxy⟩ := evaluate_binary_eq_ok hv
  rw [hl x' hx', hr y' hy', Code.apply_eq_ok rfl] at hxy
  exact hop v hxy

theorem call {op : Op} (ht : t.OnlyValue values y)
    (hop : ∀ v, op.apply Scalar.absent y = .ok v → v = w) :
    (call (.op op) t).OnlyValue values w := by
  intro v hv
  obtain ⟨y', hy', hcy⟩ := evaluate_call_eq_ok hv
  rw [ht y' hy', Code.apply_eq_ok rfl] at hcy
  exact hop v hcy

theorem cos (ht : t.OnlyValue values y) :
    (Tree.call (.op .cos) t).OnlyValue values (Scalar.cos y) :=
  ht.call fun _ => Op.eq_of_apply_cos

theorem sin (ht : t.OnlyValue values y) :
    (Tree.call (.op .sin) t).OnlyValue values (Scalar.sin y) :=
  ht.call fun _ => Op.eq_of_apply_sin

theorem ln (ht : t.OnlyValue values y) :
    (Tree.call (.op .ln) t).OnlyValue values (Scalar.ln y) :=
  ht.call fun _ => Op.eq_of_apply_ln

theorem sqrt (ht : t.OnlyValue values y) :
    (Tree.call (.op .sqrt) t).OnlyValue values (Scalar.sqrt y) :=
  ht.call fun _ => Op.eq_of_apply_sqrt

variable [Field α] [LinearOrder α] [ExactScalar α]

theorem int (n : Int) : (int n : Tree α).OnlyValue values n :=
  of_evaluate (evaluate_int n)

theorem one : (Tree.int 1 : Tree α).OnlyValue values 1 :=
  (int 1).congr Int.cast_one

theorem add (hl : l.OnlyValue values x) (hr : r.OnlyValue values y) :
    (add l r).OnlyValue values (x + y) :=
  hl.binary hr fun _ => Op.apply_add_eq_ok.1

theorem sub (hl : l.OnlyValue values x) (hr : r.OnlyValue values y) :
    (sub l r).OnlyValue values (x - y) :=
  hl.binary hr fun _ => Op.apply_sub_eq_ok.1

theorem mul (hl : l.OnlyValue values x) (hr : r.OnlyValue values y) :
    (mul l r).OnlyValue values (x * y) :=
  hl.binary hr fun _ => Op.apply_mul_eq_ok.1

theorem div (hl : l.OnlyValue values x) (hr : r.OnlyValue values y) :
    (div l r).OnlyValue values (x / y) :=
  hl.binary hr fun _ hv => (Op.apply_div_eq_ok.1 hv).2

theorem pow (hl : l.OnlyValue values x) (hr : r.OnlyValue values y) :
    (pow l r).OnlyValue values (Scalar.pow x y) :=
  hl.binary hr fun _ hv => (Op.apply_pow_eq_ok.1 hv).2.2

theorem negate (ht : t.OnlyValue values x) : (negate t).OnlyValue values (-x) := by
  have h := (int (-1)).mul ht
  rw [Int.cast_neg, Int.cast_one, neg_one_mul] at h
  exact h

theorem square (hpow : ∀ a : α, Scalar.pow a 2 = a * a) (ht : t.OnlyValue values x) :
    (square t).OnlyValue values (x ^ 2) := by
  have h := ht.pow (int 2)
  rw [Int.cast_ofNat, hpow, ← pow_two] at h
  exact h

end OnlyValue

end Tree

end FormulaCalculus
