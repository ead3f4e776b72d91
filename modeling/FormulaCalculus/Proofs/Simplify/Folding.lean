import FormulaCalculus.Proofs.Simplify.Meaning
import FormulaCalculus.Tree.Traversal

/-!
# Folding is evaluation

In a tree without variables every node comes to be folded, so a pass is an evaluation: operands from
the left, then the operator. It leaves the value alone or breaks off by the fault of the evaluation,
and no identity and no tolerance has a part in it.
-/

namespace FormulaCalculus

/-- A fault of an evaluation as a pass has it: only the message about a node of an unknown kind
names the operation. -/
def Fault.inPass : Fault → Fault
  | .cannot _ kind => .cannot "simplify" kind
  | fault => fault

namespace Tree

variable {α : Type}

/-- The number of nodes that hold an operator. -/
def operators : Tree α → Nat
  | binary _ l r => l.operators + r.operators + 1
  | call _ x => x.operators + 1
  | _ => 0

variable [Scalar α] {ε x y v : α} {c : Code} {l r t : Tree α} {values : List α} {fault : Fault}

/-! ### Single nodes -/

/-- A node with numbers for operands is replaced by its value, and a fault of its evaluation is a
fault of the replacement. -/
theorem replace?_of_apply {z : Except Fault α} (hf : Foldable l (num y))
    (h : c.apply l.operandValue y = z) :
    replace? ε c l (num y) = (fun v => some (num v)) <$> z := by
  subst h
  unfold replace? Code.apply
  cases hf <;> cases c.op? <;> rfl

theorem inPass_of_apply (h : c.apply x y = .error fault) : fault.inPass = fault := by
  unfold Code.apply at h
  split at h
  · cases h; rfl
  · cases hv : Op.apply _ x y with
    | error d => rw [hv] at h; cases h; rfl
    | ok v => rw [hv] at h; cases h

theorem evaluate_binary_eq_error (h : (binary c l r).evaluate values = .error fault) :
    l.evaluate values = .error fault ∨
      ∃ x, l.evaluate values = .ok x ∧ (r.evaluate values = .error fault ∨
        ∃ y, r.evaluate values = .ok y ∧ c.apply x y = .error fault) := by
  simp only [evaluate] at h
  cases hl : l.evaluate values with
  | error f => rw [hl] at h; cases h; exact .inl rfl
  | ok x =>
    cases hr : r.evaluate values with
    | error f => rw [hl, hr] at h; cases h; exact .inr ⟨x, rfl, .inl rfl⟩
    | ok y => rw [hl, hr] at h; exact .inr ⟨x, rfl, .inr ⟨y, rfl, h⟩⟩

theorem evaluate_call_eq_error (h : (call c t).evaluate values = .error fault) :
    t.evaluate values = .error fault ∨
      ∃ y, t.evaluate values = .ok y ∧ c.apply Scalar.absent y = .error fault := by
  simp only [evaluate] at h
  cases ht : t.evaluate values with
  | error f => rw [ht] at h; cases h; exact .inl rfl
  | ok y => rw [ht] at h; exact .inr ⟨y, rfl, h⟩

/-! ### A whole tree -/

omit [Scalar α] in
theorem indices_eq_nil_binary (h : (binary c l r).indices = []) :
    l.indices = [] ∧ r.indices = [] := by
  rwa [indices_binary, List.append_eq_nil_iff] at h

/-- The pass succeeds and leaves the number `v` alone, all operators replaced. -/
structure FoldsTo (ε : α) (t : Tree α) (v : α) : Prop where
  outcome : ∃ o, (t.simplifyPass ε).outcome = .ok o
  tree : (t.simplifyPass ε).tree = num v
  replaced : (t.simplifyPass ε).replaced = t.operators

theorem foldsTo_of_evaluate (ε : α) (hclosed : t.indices = []) (h : t.evaluate values = .ok v) :
    FoldsTo ε t v := by
  induction t generalizing v with
  | num x =>
    obtain rfl := evaluate_num_eq h
    exact ⟨⟨none, rfl⟩, rfl, rfl⟩
  | var i => cases hclosed
  | binary c l r ihl ihr =>
    obtain ⟨hl, hr⟩ := indices_eq_nil_binary hclosed
    obtain ⟨x, y, hx, hy, hxy⟩ := evaluate_binary_eq_ok h
    obtain ⟨⟨a, ha⟩, hlt, hln⟩ := ihl hl hx
    obtain ⟨⟨b, hb⟩, hrt, hrn⟩ := ihr hr hy
    have hpass := simplifyPass_binary_eq (c := c) ha hb
    rw [hlt, hrt, hln, hrn, replace?_of_apply (.operands x y) hxy] at hpass
    exact ⟨⟨_, by rw [hpass]; rfl⟩, by rw [hpass]; rfl, by rw [hpass]; rfl⟩
  | call c t ih =>
    obtain ⟨y, hy, hcy⟩ := evaluate_call_eq_ok h
    obtain ⟨⟨a, ha⟩, ht, hn⟩ := ih (indices_call c t ▸ hclosed) hy
    have hpass := simplifyPass_call_eq (c := c) ha
    rw [ht, hn, replace?_of_apply (.argument y) hcy] at hpass
    exact ⟨⟨_, by rw [hpass]; rfl⟩, by rw [hpass]; rfl, by rw [hpass]; rfl⟩
  | foreign | missing => cases h

/-- The first fault of the evaluation is the first one of the pass. -/
theorem outcome_of_evaluate (ε : α) (hclosed : t.indices = [])
    (h : t.evaluate values = .error fault) :
    (t.simplifyPass ε).outcome = .error fault.inPass := by
  induction t with
  | num x => cases h
  | var i => cases hclosed
  | binary c l r ihl ihr =>
    obtain ⟨hl, hr⟩ := indices_eq_nil_binary hclosed
    rcases evaluate_binary_eq_error h with h | ⟨x, hx, h | ⟨y, hy, h⟩⟩
    · rw [simplifyPass_binary_of_left (ihl hl h)]
    · obtain ⟨a, ha⟩ := (foldsTo_of_evaluate ε hl hx).outcome
      rw [simplifyPass_binary_of_right ha (ihr hr h)]
    · obtain ⟨⟨a, ha⟩, hlt, -⟩ := foldsTo_of_evaluate ε hl hx
      obtain ⟨⟨b, hb⟩, hrt, -⟩ := foldsTo_of_evaluate ε hr hy
      rw [simplifyPass_binary_eq ha hb, outcome_finish, hlt, hrt,
        replace?_of_apply (.operands x y) h, inPass_of_apply h]
      rfl
  | call c t ih =>
    have ht : t.indices = [] := indices_call c t ▸ hclosed
    rcases evaluate_call_eq_error h with h | ⟨y, hy, h⟩
    · rw [simplifyPass_call_of_error (ih ht h)]
    · obtain ⟨⟨a, ha⟩, htree, -⟩ := foldsTo_of_evaluate ε ht hy
      rw [simplifyPass_call_eq ha, outcome_finish, htree,
        replace?_of_apply (.argument y) h, inPass_of_apply h]
      rfl
  | foreign | missing => cases h; rfl

/-- Folding is evaluation: on a tree without variables that can be walked, whatever its operator
slots hold, a pass at any tolerance leaves the value alone and has replaced every operator node if
the tree has a value, and breaks off by the fault of the evaluation if it has none. -/
theorem simplify?_of_closed (t : Tree α) (hclosed : t.indices = []) (ε : α) (values : List α) :
    (t.isTooDeep = false → t.simplify? ε = .ok (t.simplifyPass ε)) ∧
    (∀ v, t.evaluate values = .ok v → (∃ o, (t.simplifyPass ε).outcome = .ok o) ∧
      (t.simplifyPass ε).tree = num v ∧ (t.simplifyPass ε).replaced = t.operators) ∧
    (∀ d, t.evaluate values = .error (.domain d) →
      (t.simplifyPass ε).outcome = .error (.domain d)) ∧
    (∀ c, t.evaluate values = .error (.noOperator c) →
      (t.simplifyPass ε).outcome = .error (.noOperator c)) ∧
    ∀ operation kind, t.evaluate values = .error (.cannot operation kind) →
      (t.simplifyPass ε).outcome = .error (.cannot "simplify" kind) := by
  refine ⟨fun hdeep => simplify?_eq_ok.2 ⟨hdeep, rfl⟩, fun v h => ?_,
    fun _ => outcome_of_evaluate ε hclosed, fun _ => outcome_of_evaluate ε hclosed,
    fun _ _ => outcome_of_evaluate ε hclosed⟩
  obtain ⟨houtcome, htree, hreplaced⟩ := foldsTo_of_evaluate ε hclosed h
  exact ⟨houtcome, htree, hreplaced⟩

/-- `2 * (1 / 0.0000000001)` at the tolerance 1e-9: the divisor is within it, but the quotient is
computed. In `sqrt(-1) + t` and `t + sqrt(-1)` with an unknown operator in `t`, the left fault is
met first. -/
theorem simplify?_of_closed_quotient :
    let s : Tree Float := binary (.number 2) (num 2) (div (num 1) (num 1e-10))
    let root : Tree Float := call (.number 6) (num (-1))
    let t : Tree Float := binary (.number 99) (num 1) (num 1)
    s.indices = [] ∧ (add root t).indices = [] ∧ (add t root).indices = [] ∧
      s.evaluate [] = .ok 2e10 ∧ (s.simplifyPass 1e-9).tree = num 2e10 ∧
      (s.simplifyPass 1e-9).replaced = 2 ∧
      ((add root t).simplifyPass 1e-9).outcome = .error (.domain .rootOfNegative) ∧
      ((add t root).simplifyPass 1e-9).outcome = .error (.noOperator (.number 99)) := by
  intro s root t
  obtain ⟨-, hvalue, -⟩ := simplify?_of_closed s rfl 1e-9 []
  obtain ⟨-, -, hdomain, -⟩ := simplify?_of_closed (add root t) rfl 1e-9 []
  obtain ⟨-, -, -, hoperator, -⟩ := simplify?_of_closed (add t root) rfl 1e-9 []
  have hs : s.evaluate [] = .ok 2e10 := rfl
  obtain ⟨-, htree, hreplaced⟩ := hvalue _ hs
  exact ⟨rfl, rfl, rfl, hs, htree, hreplaced, hdomain _ rfl, hoperator _ rfl⟩

end Tree

end FormulaCalculus
