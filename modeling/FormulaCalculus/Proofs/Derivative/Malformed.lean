import FormulaCalculus.Derivative
import FormulaCalculus.Proofs.Equation.Outcomes

/-!
# Derivatives of malformed trees

Any code may stand in a slot, any child may be missing, and nodes of unknown kinds may occur. A rule
that finds no operator or one of the wrong arity says so; a rule that asks a node for a child that
it does not have fails in another way. `differentiate?_ends` lists the ways in which a derivative
ends, and `Equipped` describes the trees on which no rule asks in vain.
-/

namespace FormulaCalculus

/-- What goes wrong in a malformed tree: an operator or a kind of node is unknown, an operator has
another arity, or, where `gap` holds, a child is absent. -/
def Fault.IsMalformation (gap : Prop) (fault : Fault) : Prop :=
  fault.family = .unknownOperator ∨ fault.family = .arity ∨ fault = .absentChild ∧ gap

namespace Tree

variable {α : Type} {c : Code} {t l r node : Tree α}

/-- Every rule finds the children that it asks for: none is missing, no node of two operands holds a
function, and no function call a power. Codes that are no operators and unknown kinds may occur. -/
def Equipped : Tree α → Prop
  | binary c l r => c.isFunction = false ∧ l.Equipped ∧ r.Equipped
  | call c x => c.op? ≠ some .pow ∧ x.Equipped
  | missing => False
  | _ => True

theorem isMissing_eq_false_of_isComplete (h : t.isComplete) : t.isMissing = false := by
  cases t with
  | missing => cases h
  | _ => rfl

theorem isComplete_binary (hl : l.isComplete) (hr : r.isComplete) :
    (binary c l r).isComplete := by
  simp [isComplete, hl, hr]

theorem isComplete_call (h : t.isComplete) : (call c t).isComplete := by
  simpa [isComplete] using h

/-! ### Copies -/

section Copy
variable {gap : Prop}

theorem ensures_binary? (c : Code) (hl : l.isComplete) (hr : r.isComplete) :
    Ensures (fun d => d.isComplete) (Fault.IsMalformation gap) (binary? c l r) := by
  unfold binary?
  split
  · exact .error (.inr (.inl rfl))
  · rw [isMissing_eq_false_of_isComplete hl, isMissing_eq_false_of_isComplete hr]
    exact .ok (isComplete_binary hl hr)

theorem ensures_call? (c : Code) (h : t.isComplete) :
    Ensures (fun d => d.isComplete) (Fault.IsMalformation gap) (call? c t) := by
  unfold call?
  split
  · exact .error (.inr (.inl rfl))
  · rw [isMissing_eq_false_of_isComplete h]
    exact .ok (isComplete_call h)

theorem ensures_copy? (h : ¬gap → t.Equipped) :
    Ensures (fun d => d.isComplete) (Fault.IsMalformation gap) t.copy? := by
  induction t with
  | num | var | foreign => exact .ok rfl
  | binary c l r ihl ihr =>
    exact (ihl fun hg => (h hg).2.1).bind fun l' hl' =>
      (ihr fun hg => (h hg).2.2).bind fun r' hr' => ensures_binary? c hl' hr'
  | call c t ih => exact (ih fun hg => (h hg).2).bind fun t' ht' => ensures_call? c ht'
  | missing => exact .error (.inr (.inr ⟨rfl, by_contra h⟩))

end Copy

/-! ### Rules -/

section Rules
variable [Scalar α] {E : Fault → Prop} {op : Op} {target : Int} {dl dr : Except Fault (Tree α)}

theorem isComplete_int (n : Int) : (int n : Tree α).isComplete :=
  rfl

theorem isComplete_square (h : t.isComplete) : t.square.isComplete :=
  isComplete_binary h rfl

theorem isComplete_negate (h : t.isComplete) : t.negate.isComplete :=
  isComplete_binary rfl h

/-- The rule of an operator with two operands fails as one of its parts does. -/
theorem ensures_differentiateWith_of_isBinary (hop : op.isBinary)
    (hnode : Ensures (fun d => d.isComplete) E node.copy?)
    (hl : Ensures (fun d => d.isComplete) E l.copy?)
    (hr : Ensures (fun d => d.isComplete) E r.copy?) (hdl : Ensures (fun d => d.isComplete) E dl)
    (hdr : Ensures (fun d => d.isComplete) E dr) :
    Ensures (fun d => d.isComplete) E (differentiateWith op target node l r dl dr) := by
  cases op with
  | add => exact hdl.bind fun _ hdl => hdr.bind fun _ hdr => .ok (isComplete_binary hdl hdr)
  | sub => exact hdl.bind fun _ hdl => hdr.bind fun _ hdr => .ok (isComplete_binary hdl hdr)
  | mul =>
    refine hdl.bind fun _ hdl => hr.bind fun _ hr => hl.bind fun _ hl => hdr.bind fun _ hdr => ?_
    exact .ok (isComplete_binary (isComplete_binary hdl hr) (isComplete_binary hl hdr))
  | div =>
    refine hdl.bind fun _ hdl => hr.bind fun _ hr₁ => hl.bind fun _ hl => hdr.bind fun _ hdr =>
      hr.bind fun _ hr₂ => .ok ?_
    exact isComplete_binary (isComplete_binary (isComplete_binary hdl hr₁)
      (isComplete_binary hl hdr)) (isComplete_square hr₂)
  | pow =>
    simp only [differentiateWith]
    split
    · refine hr.bind fun _ hr => hl.bind fun _ hl => hdl.bind fun _ hdl => .ok ?_
      exact isComplete_binary (isComplete_binary hr
        (isComplete_binary hl (isComplete_binary hr (isComplete_int 1)))) hdl
    split
    · refine hnode.bind fun _ hnode => hl.bind fun _ hl => hdr.bind fun _ hdr => .ok ?_
      exact isComplete_binary (isComplete_binary hnode (isComplete_call hl)) hdr
    · refine hdr.bind fun _ hdr => hl.bind fun _ hl => hr.bind fun _ hr => hdl.bind fun _ hdl =>
        hnode.bind fun _ hnode => .ok ?_
      exact isComplete_binary hnode (isComplete_binary (isComplete_binary hdr (isComplete_call hl))
        (isComplete_binary (isComplete_binary hr hdl) hl))
  | _ => cases hop

/-- The rule of a function does not look at the operand on its left. -/
theorem ensures_differentiateWith_of_isFunction (hop : op.isFunction)
    (hnode : Ensures (fun d => d.isComplete) E node.copy?)
    (hr : Ensures (fun d => d.isComplete) E r.copy?)
    (hdr : Ensures (fun d => d.isComplete) E dr) :
    Ensures (fun d => d.isComplete) E (differentiateWith op target node l r dl dr) := by
  have hroot {r' : Tree α} (hr' : r'.isComplete) :
      (call (.op .sqrt) (sub (int 1) r'.square)).isComplete :=
    isComplete_call (isComplete_binary (isComplete_int 1) (isComplete_square hr'))
  have hplus {r' : Tree α} (hr' : r'.isComplete) : (add (int 1) r'.square).isComplete :=
    isComplete_binary (isComplete_int 1) (isComplete_square hr')
  cases op with
  | ln => exact hdr.bind fun _ hdr => hr.bind fun _ hr => .ok (isComplete_binary hdr hr)
  | sqrt =>
    exact hdr.bind fun _ hdr => hnode.bind fun _ hnode =>
      .ok (isComplete_binary hdr (isComplete_binary (isComplete_int 2) hnode))
  | sin =>
    exact hr.bind fun _ hr => hdr.bind fun _ hdr => .ok (isComplete_binary (isComplete_call hr) hdr)
  | cos =>
    exact hr.bind fun _ hr => hdr.bind fun _ hdr =>
      .ok (isComplete_binary (isComplete_negate (isComplete_call hr)) hdr)
  | tg =>
    exact hdr.bind fun _ hdr => hr.bind fun _ hr =>
      .ok (isComplete_binary hdr (isComplete_square (isComplete_call hr)))
  | ctg =>
    exact hdr.bind fun _ hdr => hr.bind fun _ hr =>
      .ok (isComplete_binary (isComplete_negate hdr) (isComplete_square (isComplete_call hr)))
  | arcsin => exact hdr.bind fun _ hdr => hr.bind fun _ hr => .ok (isComplete_binary hdr (hroot hr))
  | arccos =>
    exact hdr.bind fun _ hdr => hr.bind fun _ hr =>
      .ok (isComplete_binary (isComplete_negate hdr) (hroot hr))
  | arctg => exact hdr.bind fun _ hdr => hr.bind fun _ hr => .ok (isComplete_binary hdr (hplus hr))
  | arcctg =>
    exact hdr.bind fun _ hdr => hr.bind fun _ hr =>
      .ok (isComplete_binary (isComplete_negate hdr) (hplus hr))
  | _ => cases hop

/-- The rule of an operator with two operands at a function call, which has no left operand: only
the rule of a power copies it before differentiating it. -/
theorem ensures_differentiateWith_missing {gap : Prop} (hop : op.isBinary) (hgap : op = .pow → gap)
    (hnode : Ensures (fun d => d.isComplete) (Fault.IsMalformation gap) node.copy?)
    (hr : Ensures (fun d => d.isComplete) (Fault.IsMalformation gap) r.copy?)
    (hdr : Ensures (fun d => d.isComplete) (Fault.IsMalformation gap) dr) :
    Ensures (fun d => d.isComplete) (Fault.IsMalformation gap)
      (differentiateWith op target node missing r
        (.error (.cannot "differentiate" (missing : Tree α).kind)) dr) := by
  by_cases hpow : op = .pow
  · refine ensures_differentiateWith_of_isBinary hop hnode ?_ hr (.error (.inl rfl)) hdr
    exact .error (.inr (.inr ⟨rfl, hgap hpow⟩))
  · cases op with
    | pow => exact absurd rfl hpow
    | add | sub | mul | div => exact .error (.inl rfl)
    | _ => cases hop

theorem ensures_differentiate? {gap : Prop} (h : ¬gap → t.Equipped) :
    Ensures (fun d => d.isComplete) (Fault.IsMalformation gap) (t.differentiate? target) := by
  induction t with
  | num | var => exact .ok rfl
  | foreign | missing => exact .error (.inl rfl)
  | binary c l r ihl ihr =>
    have hnode := ensures_copy? h
    unfold differentiate?
    split
    · exact .error (.inl rfl)
    rename_i op hop
    split
    · rename_i hfunction
      refine .error (.inr (.inr ⟨rfl, by_contra fun hg => ?_⟩))
      have hnone := (h hg).1
      simp [Code.isFunction, hop, hfunction] at hnone
    · rename_i hfunction
      have hbinary : op.isBinary := by simpa [Op.isFunction] using hfunction
      have hl hg := (h hg).2.1
      have hr hg := (h hg).2.2
      exact ensures_differentiateWith_of_isBinary hbinary hnode (ensures_copy? hl)
        (ensures_copy? hr) (ihl hl) (ihr hr)
  | call c x ih =>
    have hnode := ensures_copy? h
    have hx hg := (h hg).2
    unfold differentiate?
    split
    · exact .error (.inl rfl)
    rename_i op hop
    by_cases hfunction : op.isFunction
    · exact ensures_differentiateWith_of_isFunction hfunction hnode (ensures_copy? hx) (ih hx)
    · have hbinary : op.isBinary := by simpa [Op.isFunction] using hfunction
      refine ensures_differentiateWith_missing hbinary ?_ hnode (ensures_copy? hx) (ih hx)
      rintro rfl
      exact by_contra fun hg => (h hg).1 hop

/-- A derivative is a tree with no child missing, or it fails: an operator or a kind of node is
unknown, or an operator has another arity, or a rule asks for a child that is absent, and that
happens on no tree that is equipped for the rules. -/
theorem differentiate?_ends (t : Tree α) (target : Int) :
    (∃ d, t.differentiate? target = .ok d ∧ d.isComplete) ∨
      ∃ fault, t.differentiate? target = .error fault ∧
        (fault.family = .unknownOperator ∨ fault.family = .arity ∨
          fault = .absentChild ∧ ¬t.Equipped) := by
  have hends : Ensures (fun d => d.isComplete) (Fault.IsMalformation (¬t.Equipped))
      (t.differentiate? target) := ensures_differentiate? not_not.1
  cases hd : t.differentiate? target with
  | ok d => exact .inl ⟨d, rfl, (hd ▸ hends).value⟩
  | error fault => exact .inr ⟨fault, rfl, (hd ▸ hends).fault⟩

end Rules

/-- A missing factor, a function at a node of two operands and a power at a function call each make
a rule ask for an absent child, and that fault is neither of the two families. -/
theorem differentiate?_asks_in_vain :
    (mul (var 0) missing : Tree Float).differentiate? 0 = .error .absentChild ∧
      (binary (.op .sin) (var 0) (var 0) : Tree Float).differentiate? 0 = .error .absentChild ∧
      (call (.op .pow) (num 1) : Tree Float).differentiate? 0 = .error .absentChild ∧
      Fault.absentChild.family ≠ .unknownOperator ∧ Fault.absentChild.family ≠ .arity :=
  ⟨rfl, rfl, rfl, by decide, by decide⟩

end Tree

end FormulaCalculus
