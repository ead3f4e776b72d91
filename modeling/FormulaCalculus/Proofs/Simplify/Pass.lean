import FormulaCalculus.Simplify

/-!
# What a pass does

The replacement of a single node: either the operands are numbers and the node becomes its value,
or an identity decides. From this, a pass over each kind of node in terms of the passes over its
operands, with the inversion of a pass that succeeds; and a relation between a tree and what any
pass leaves of it, from which follows what no pass can do, such as make a tree deeper.
-/

namespace FormulaCalculus.Tree

variable {α : Type}

/-! ### A single node -/

/-- The operands are numbers; a function has an empty left slot. -/
inductive Foldable : Tree α → Tree α → Prop
  | operands (x y : α) : Foldable (num x) (num y)
  | argument (y : α) : Foldable missing (num y)

theorem Foldable.exists_num {l r : Tree α} (h : Foldable l r) : ∃ y, r = num y := by
  cases h <;> exact ⟨_, rfl⟩

theorem ok_of_mapError {φ ψ β : Type} {f : φ → ψ} {x : Except φ β} {y : β}
    (h : x.mapError f = .ok y) : x = .ok y := by
  cases x with
  | error e => cases h
  | ok z => cases h; rfl

theorem Pass.tree_of_ok {p : Pass α} {o : Option (Tree α)} (h : p.outcome = .ok o) :
    p.tree = o.getD p.argument := by
  unfold Pass.tree
  rw [h]
  cases o <;> rfl

theorem Pass.tree_of_error {p : Pass α} {fault : Fault} (h : p.outcome = .error fault) :
    p.tree = p.argument := by
  unfold Pass.tree
  rw [h]

@[simp] theorem outcome_finish (t : Tree α) (n : Nat) (x : Except Fault (Option (Tree α))) :
    (finish t n x).outcome = x := by
  unfold finish; split <;> rfl

@[simp] theorem argument_finish (t : Tree α) (n : Nat) (x : Except Fault (Option (Tree α))) :
    (finish t n x).argument = t := by
  unfold finish; split <;> rfl

variable [Scalar α] {ε : α}

/-- The left operand as an operator sees it. -/
def operandValue : Tree α → α
  | num x => x
  | _ => Scalar.absent

/-- The replacement of a node that cannot be folded is what the identities say. -/
theorem replace?_of_not_foldable {c : Code} {op : Op} {l r : Tree α} (hc : c.op? = some op)
    (h : ¬ Foldable l r) : replace? ε c l r = (identity? ε op l r).mapError .domain := by
  unfold replace?
  simp only [hc]
  split
  · exact absurd (.operands _ _) h
  · exact absurd (.argument _) h
  · rfl

/-- The replacement of a node with numbers for operands is its value. -/
theorem replace?_of_foldable {c : Code} {op : Op} {l : Tree α} {y : α} (hc : c.op? = some op)
    (h : Foldable l (num y)) :
    replace? ε c l (num y) =
      (fun v => some (num v)) <$> (op.apply l.operandValue y).mapError Fault.domain := by
  cases h <;> simp only [replace?, hc] <;> rfl

theorem replace?_num_num {c : Code} {op : Op} {x y v : α} (hc : c.op? = some op)
    (hv : op.apply x y = .ok v) : replace? ε c (num x) (num y) = .ok (some (num v)) := by
  simp only [replace?_of_foldable hc (.operands x y), operandValue, hv]
  rfl

theorem op?_of_replace? {c : Code} {l r : Tree α} {o : Option (Tree α)}
    (h : replace? ε c l r = .ok o) : ∃ op, c.op? = some op := by
  cases hc : c.op? with
  | none => simp [replace?, hc] at h
  | some op => exact ⟨op, rfl⟩

/-- A node is folded, or the identities decide. -/
theorem replace?_cases {c : Code} {l r : Tree α} {o : Option (Tree α)}
    (h : replace? ε c l r = .ok o) :
    ∃ op, c.op? = some op ∧
      ((∃ y v, Foldable l r ∧ r = num y ∧ op.apply l.operandValue y = .ok v ∧ o = some (num v)) ∨
        (¬ Foldable l r ∧ identity? ε op l r = .ok o)) := by
  obtain ⟨op, hc⟩ := op?_of_replace? h
  refine ⟨op, hc, ?_⟩
  by_cases hf : Foldable l r
  · obtain ⟨y, rfl⟩ := hf.exists_num
    rw [replace?_of_foldable hc hf] at h
    cases hv : op.apply l.operandValue y with
    | error e => rw [hv] at h; cases h
    | ok v => rw [hv] at h; cases h; exact .inl ⟨y, v, hf, rfl, hv, rfl⟩
  · rw [replace?_of_not_foldable hc hf] at h
    exact .inr ⟨hf, ok_of_mapError h⟩

/-! ### The identities -/

theorem num_of_isNear {t : Tree α} {c : Int} (h : t.isNear ε c) : ∃ x, t = num x := by
  cases t with
  | num x => exact ⟨x, rfl⟩
  | _ => cases h

theorem num_of_isExactly {t : Tree α} {c : Int} (h : t.isExactly c) : ∃ x, t = num x := by
  cases t with
  | num x => exact ⟨x, rfl⟩
  | _ => cases h

omit [Scalar α] in
theorem var_of_sameVariable {l r : Tree α} (h : l.sameVariable r) : ∃ i, l = var i ∧ r = var i := by
  cases l <;> cases r <;> simp_all [sameVariable]

/-- `Rewrite ε op l r t`: an identity puts `t` in the place of `op` with the operands `l`, `r`. -/
inductive Rewrite (ε : α) : Op → Tree α → Tree α → Tree α → Prop
  | zero_add {x : α} (r : Tree α) (h : (num x).isNear ε 0) : Rewrite ε .add (num x) r r
  | add_zero {y : α} (l : Tree α) (h : (num y).isNear ε 0) : Rewrite ε .add l (num y) l
  | add_self (i : Nat) : Rewrite ε .add (var i) (var i) (mul (int 2) (var i))
  | zero_sub {x : α} (r : Tree α) (h : (num x).isNear ε 0) :
    Rewrite ε .sub (num x) r (mul (int (-1)) r)
  | sub_zero {y : α} (l : Tree α) (h : (num y).isNear ε 0) : Rewrite ε .sub l (num y) l
  | sub_self (i : Nat) : Rewrite ε .sub (var i) (var i) (int 0)
  | zero_mul {x : α} (r : Tree α) (h : (num x).isNear ε 0) : Rewrite ε .mul (num x) r (int 0)
  | mul_zero {y : α} (l : Tree α) (h : (num y).isNear ε 0) : Rewrite ε .mul l (num y) (int 0)
  | one_mul {x : α} (r : Tree α) (h : (num x).isNear ε 1) : Rewrite ε .mul (num x) r r
  | mul_one {y : α} (l : Tree α) (h : (num y).isNear ε 1) : Rewrite ε .mul l (num y) l
  | mul_self (i : Nat) : Rewrite ε .mul (var i) (var i) (pow (var i) (int 2))
  | zero_div {x : α} (r : Tree α) (h : (num x).isNear ε 0) : Rewrite ε .div (num x) r (int 0)
  | div_one {y : α} (l : Tree α) (h : (num y).isNear ε 1) : Rewrite ε .div l (num y) l
  | div_self (i : Nat) : Rewrite ε .div (var i) (var i) (int 1)
  | pow_one {y : α} (l : Tree α) (h : (num y).isExactly 1) : Rewrite ε .pow l (num y) l
  | one_pow {x : α} (r : Tree α) (h : (num x).isExactly 1) : Rewrite ε .pow (num x) r (int 1)
  | zero_pow {x : α} (r : Tree α) (h : (num x).isExactly 0) : Rewrite ε .pow (num x) r (int 0)

theorem rewrite_of_identity? {op : Op} {l r t : Tree α} (h : identity? ε op l r = .ok (some t)) :
    Rewrite ε op l r t := by
  cases op with
  | add =>
    simp only [identity?] at h
    split at h
    · obtain ⟨x, rfl⟩ := num_of_isNear ‹_›
      cases h; exact .zero_add r ‹_›
    split at h
    · obtain ⟨y, rfl⟩ := num_of_isNear ‹_›
      cases h; exact .add_zero l ‹_›
    split at h
    · obtain ⟨i, rfl, rfl⟩ := var_of_sameVariable ‹_›
      cases h; exact .add_self i
    · cases h
  | sub =>
    simp only [identity?] at h
    split at h
    · obtain ⟨x, rfl⟩ := num_of_isNear ‹_›
      cases h; exact .zero_sub r ‹_›
    split at h
    · obtain ⟨y, rfl⟩ := num_of_isNear ‹_›
      cases h; exact .sub_zero l ‹_›
    split at h
    · obtain ⟨i, rfl, rfl⟩ := var_of_sameVariable ‹_›
      cases h; exact .sub_self i
    · cases h
  | mul =>
    simp only [identity?, Bool.or_eq_true] at h
    split at h
    · rename_i hz
      cases h
      rcases hz with hz | hz
      · obtain ⟨x, rfl⟩ := num_of_isNear hz
        exact .zero_mul r hz
      · obtain ⟨y, rfl⟩ := num_of_isNear hz
        exact .mul_zero l hz
    split at h
    · obtain ⟨x, rfl⟩ := num_of_isNear ‹_›
      cases h; exact .one_mul r ‹_›
    split at h
    · obtain ⟨y, rfl⟩ := num_of_isNear ‹_›
      cases h; exact .mul_one l ‹_›
    split at h
    · obtain ⟨i, rfl, rfl⟩ := var_of_sameVariable ‹_›
      cases h; exact .mul_self i
    · cases h
  | div =>
    simp only [identity?] at h
    split at h
    · cases h
    split at h
    · obtain ⟨x, rfl⟩ := num_of_isNear ‹_›
      cases h; exact .zero_div r ‹_›
    split at h
    · obtain ⟨y, rfl⟩ := num_of_isNear ‹_›
      cases h; exact .div_one l ‹_›
    split at h
    · obtain ⟨i, rfl, rfl⟩ := var_of_sameVariable ‹_›
      cases h; exact .div_self i
    · cases h
  | pow =>
    simp only [identity?] at h
    split at h
    · obtain ⟨y, rfl⟩ := num_of_isExactly ‹_›
      cases h; exact .pow_one l ‹_›
    split at h
    · obtain ⟨x, rfl⟩ := num_of_isExactly ‹_›
      cases h; exact .one_pow r ‹_›
    split at h
    · obtain ⟨x, rfl⟩ := num_of_isExactly ‹_›
      cases h; exact .zero_pow r ‹_›
    · cases h
  | _ => simp only [identity?] at h; cases h

/-- Only a quotient can fail to be replaced, by its divisor. -/
theorem exists_identity? {op : Op} (hop : op ≠ .div) (l r : Tree α) :
    ∃ o, identity? ε op l r = .ok o := by
  cases op with
  | div => exact absurd rfl hop
  | add | sub | mul | pow =>
    simp only [identity?]
    repeat' split
    all_goals exact ⟨_, rfl⟩
  | _ => exact ⟨none, rfl⟩

theorem eq_div_of_identity? {op : Op} {l r : Tree α} {fault : DomainFault}
    (h : identity? ε op l r = .error fault) : op = .div ∧ r.isNear ε 0 := by
  by_cases hop : op = .div
  · subst hop
    refine ⟨rfl, ?_⟩
    simp only [identity?] at h
    split at h
    · assumption
    repeat' split at h
    all_goals cases h
  · obtain ⟨o, ho⟩ := exists_identity? (ε := ε) hop l r
    rw [ho] at h
    cases h

/-- A function is replaced by its value only: no identity applies beside an empty slot. -/
theorem replace?_missing_eq_ok {c : Code} {x t : Tree α}
    (h : replace? ε c missing x = .ok (some t)) :
    ∃ op y v, c.op? = some op ∧ x = num y ∧ op.apply Scalar.absent y = .ok v ∧ t = num v := by
  obtain ⟨op, hop, ⟨y, v, -, rfl, hv, ht⟩ | ⟨hf, hi⟩⟩ := replace?_cases h
  · exact ⟨op, y, v, hop, rfl, hv, Option.some.inj ht⟩
  · have hx : ∀ y, x ≠ num y := fun y hy => hf (hy ▸ .argument y)
    cases rewrite_of_identity? hi <;> exact absurd rfl (hx _)

/-! ### A whole tree -/

theorem simplifyPass_binary_of_left {c : Code} {l r : Tree α} {fault : Fault}
    (h : (simplifyPass ε l).outcome = .error fault) : simplifyPass ε (binary c l r) =
      ⟨binary c (simplifyPass ε l).tree r, (simplifyPass ε l).replaced, .error fault⟩ := by
  simp only [simplifyPass, h, Pass.tree_of_error h]

theorem simplifyPass_binary_of_right {c : Code} {l r : Tree α} {a : Option (Tree α)}
    {fault : Fault} (ha : (simplifyPass ε l).outcome = .ok a)
    (h : (simplifyPass ε r).outcome = .error fault) : simplifyPass ε (binary c l r) =
      ⟨binary c (simplifyPass ε l).tree (simplifyPass ε r).tree,
        (simplifyPass ε l).replaced + (simplifyPass ε r).replaced, .error fault⟩ := by
  simp only [simplifyPass, ha, h, Pass.tree_of_error h]

/-- Once the passes over its operands have succeeded, the node itself is looked at. -/
theorem simplifyPass_binary_eq {c : Code} {l r : Tree α} {a b : Option (Tree α)}
    (ha : (simplifyPass ε l).outcome = .ok a) (hb : (simplifyPass ε r).outcome = .ok b) :
    simplifyPass ε (binary c l r) =
      finish (binary c (simplifyPass ε l).tree (simplifyPass ε r).tree)
        ((simplifyPass ε l).replaced + (simplifyPass ε r).replaced)
        (replace? ε c (simplifyPass ε l).tree (simplifyPass ε r).tree) := by
  simp only [simplifyPass, ha, hb]

/-- A pass over a node with two operands succeeds if the passes over the operands do and the node's
replacement does. -/
theorem simplifyPass_binary {c : Code} {l r : Tree α} {o : Option (Tree α)}
    (h : (simplifyPass ε (binary c l r)).outcome = .ok o) :
    (∃ a, (simplifyPass ε l).outcome = .ok a) ∧ (∃ b, (simplifyPass ε r).outcome = .ok b) ∧
      replace? ε c (simplifyPass ε l).tree (simplifyPass ε r).tree = .ok o ∧
      (simplifyPass ε (binary c l r)).tree =
        o.getD (binary c (simplifyPass ε l).tree (simplifyPass ε r).tree) := by
  have ht := Pass.tree_of_ok h
  cases hl : (simplifyPass ε l).outcome with
  | error e => rw [simplifyPass_binary_of_left hl] at h; cases h
  | ok a =>
    cases hr : (simplifyPass ε r).outcome with
    | error e => rw [simplifyPass_binary_of_right hl hr] at h; cases h
    | ok b =>
      simp only [simplifyPass_binary_eq hl hr, outcome_finish, argument_finish] at h ht ⊢
      exact ⟨⟨a, rfl⟩, ⟨b, rfl⟩, h, ht⟩

/-- A pass over a node with two operands, from the passes over the operands. -/
theorem simplifyPass_binary_of_ok {c : Code} {l r : Tree α} {a b o : Option (Tree α)}
    (hl : (simplifyPass ε l).outcome = .ok a) (hr : (simplifyPass ε r).outcome = .ok b)
    (h : replace? ε c (simplifyPass ε l).tree (simplifyPass ε r).tree = .ok o) :
    (simplifyPass ε (binary c l r)).outcome = .ok o ∧ (simplifyPass ε (binary c l r)).tree =
      o.getD (binary c (simplifyPass ε l).tree (simplifyPass ε r).tree) := by
  have hok : (simplifyPass ε (binary c l r)).outcome = .ok o := by
    rw [simplifyPass_binary_eq hl hr, outcome_finish, h]
  exact ⟨hok, (simplifyPass_binary hok).2.2.2⟩

theorem simplifyPass_call_of_error {c : Code} {x : Tree α} {fault : Fault}
    (h : (simplifyPass ε x).outcome = .error fault) : simplifyPass ε (call c x) =
      ⟨call c (simplifyPass ε x).tree, (simplifyPass ε x).replaced, .error fault⟩ := by
  simp only [simplifyPass, h, Pass.tree_of_error h]

theorem simplifyPass_call_eq {c : Code} {x : Tree α} {a : Option (Tree α)}
    (ha : (simplifyPass ε x).outcome = .ok a) : simplifyPass ε (call c x) =
      finish (call c (simplifyPass ε x).tree) (simplifyPass ε x).replaced
        (replace? ε c missing (simplifyPass ε x).tree) := by
  simp only [simplifyPass, ha]

theorem simplifyPass_call {c : Code} {x : Tree α} {o : Option (Tree α)}
    (h : (simplifyPass ε (call c x)).outcome = .ok o) :
    (∃ a, (simplifyPass ε x).outcome = .ok a) ∧
      replace? ε c missing (simplifyPass ε x).tree = .ok o ∧
      (simplifyPass ε (call c x)).tree = o.getD (call c (simplifyPass ε x).tree) := by
  have ht := Pass.tree_of_ok h
  cases hx : (simplifyPass ε x).outcome with
  | error e => rw [simplifyPass_call_of_error hx] at h; cases h
  | ok a =>
    simp only [simplifyPass_call_eq hx, outcome_finish, argument_finish] at h ht ⊢
    exact ⟨⟨a, rfl⟩, h, ht⟩

/-- A pass over a function, from the pass over its argument. -/
theorem simplifyPass_call_of_ok {c : Code} {x : Tree α} {a o : Option (Tree α)}
    (hx : (simplifyPass ε x).outcome = .ok a)
    (h : replace? ε c missing (simplifyPass ε x).tree = .ok o) :
    (simplifyPass ε (call c x)).outcome = .ok o ∧ (simplifyPass ε (call c x)).tree =
      o.getD (call c (simplifyPass ε x).tree) := by
  have hok : (simplifyPass ε (call c x)).outcome = .ok o := by
    rw [simplifyPass_call_eq hx, outcome_finish, h]
  exact ⟨hok, (simplifyPass_call hok).2.2⟩

/-! ### What a pass leaves, whether it succeeds or not -/

/-- `Replaces ε t t' n`: replacing `n` nodes, from the leaves up, makes `t'` of `t`. -/
inductive Replaces (ε : α) : Tree α → Tree α → Nat → Prop
  | refl (t : Tree α) : Replaces ε t t 0
  | binary {c : Code} {l l' r r' : Tree α} {m n : Nat} (hl : Replaces ε l l' m)
    (hr : Replaces ε r r' n) : Replaces ε (binary c l r) (binary c l' r') (m + n)
  | call {c : Code} {x x' : Tree α} {n : Nat} (hx : Replaces ε x x' n) :
    Replaces ε (call c x) (call c x') n
  | fold {c : Code} {l l' r r' : Tree α} {m n : Nat} (v : α) (hl : Replaces ε l l' m)
    (hr : Replaces ε r r' n) : Replaces ε (binary c l r) (num v) (m + n + 1)
  | fold_call {c : Code} {x x' : Tree α} {n : Nat} (v : α) (hx : Replaces ε x x' n) :
    Replaces ε (call c x) (num v) (n + 1)
  | rewrite {c : Code} {op : Op} {l l' r r' t : Tree α} {m n : Nat} (hop : c.op? = some op)
    (hl : Replaces ε l l' m) (hr : Replaces ε r r' n) (h : Rewrite ε op l' r' t) :
    Replaces ε (binary c l r) t (m + n + 1)

theorem replaces_simplifyPass (ε : α) (t : Tree α) :
    Replaces ε t (simplifyPass ε t).tree (simplifyPass ε t).replaced := by
  induction t with
  | num | var | foreign | missing => exact .refl _
  | binary c l r ihl ihr =>
    cases hl : (simplifyPass ε l).outcome with
    | error fault =>
      rw [simplifyPass_binary_of_left hl]
      exact .binary ihl (.refl r)
    | ok a =>
      cases hr : (simplifyPass ε r).outcome with
      | error fault =>
        rw [simplifyPass_binary_of_right hl hr]
        exact .binary ihl ihr
      | ok b =>
        rw [simplifyPass_binary_eq hl hr]
        rcases h : replace? ε c (simplifyPass ε l).tree (simplifyPass ε r).tree with
          fault | _ | t
        · exact .binary ihl ihr
        · exact .binary ihl ihr
        · obtain ⟨op, hop, ⟨-, v, -, -, -, hv⟩ | ⟨-, hi⟩⟩ := replace?_cases h
          · cases hv
            exact .fold v ihl ihr
          · exact .rewrite hop ihl ihr (rewrite_of_identity? hi)
  | call c x ih =>
    cases hx : (simplifyPass ε x).outcome with
    | error fault =>
      rw [simplifyPass_call_of_error hx]
      exact .call ih
    | ok a =>
      rw [simplifyPass_call_eq hx]
      rcases h : replace? ε c missing (simplifyPass ε x).tree with fault | _ | t
      · exact .call ih
      · exact .call ih
      · obtain ⟨-, -, v, -, -, -, rfl⟩ := replace?_missing_eq_ok h
        exact .fold_call v ih

theorem Rewrite.depth_le {op : Op} {l r t : Tree α} (h : Rewrite ε op l r t) :
    t.depth ≤ 1 + max l.depth r.depth := by
  cases h <;> simp only [depth, mul, pow, int] <;> omega

theorem Replaces.depth_le {t t' : Tree α} {n : Nat} (h : Replaces ε t t' n) :
    t'.depth ≤ t.depth := by
  induction h with
  | refl t => exact Nat.le_refl _
  | binary _ _ ihl ihr => simp only [depth]; omega
  | call _ ih => simp only [depth]; omega
  | fold v _ _ ihl ihr => simp only [depth]; omega
  | fold_call v _ ih => simp only [depth]; omega
  | rewrite hop _ _ h ihl ihr =>
    have := h.depth_le
    simp only [depth]
    omega

/-- A pass makes no tree deeper. -/
theorem depth_simplifyPass_le (ε : α) (t : Tree α) : (simplifyPass ε t).tree.depth ≤ t.depth :=
  (replaces_simplifyPass ε t).depth_le

theorem Rewrite.isComplete {op : Op} {l r t : Tree α} (h : Rewrite ε op l r t)
    (hl : l.isComplete) (hr : r.isComplete) : t.isComplete := by
  cases h with
  | zero_add | one_mul => exact hr
  | add_zero | sub_zero | mul_one | div_one | pow_one => exact hl
  | zero_sub => exact hr
  | _ => rfl

theorem Replaces.isComplete {t t' : Tree α} {n : Nat} (h : Replaces ε t t' n)
    (ht : t.isComplete) : t'.isComplete := by
  induction h with
  | refl => exact ht
  | binary _ _ ihl ihr =>
    obtain ⟨hl, hr⟩ := Bool.and_eq_true_iff.1 ht
    exact Bool.and_eq_true_iff.2 ⟨ihl hl, ihr hr⟩
  | call _ ih => exact ih ht
  | fold | fold_call => rfl
  | rewrite _ _ _ h ihl ihr =>
    obtain ⟨hl, hr⟩ := Bool.and_eq_true_iff.1 ht
    exact h.isComplete (ihl hl) (ihr hr)

end FormulaCalculus.Tree
