import FormulaCalculus.Derivative
import FormulaCalculus.Proofs.Tree.Copy

/-!
# What the rules of differentiation read

Which rule a node gets, and what it takes for every derivative to have a property.
-/

namespace FormulaCalculus.Tree

/-! ### The rule of a node -/

section

variable {α : Type} [Scalar α] {i : Int} {l r t : Tree α}

theorem differentiate?_binary {c : Code} {op : Op} (hc : c.op? = some op) (hb : op.isBinary) :
    (binary c l r).differentiate? i = differentiateWith op i (binary c l r) l r
      (l.differentiate? i) (r.differentiate? i) := by
  have hf : op.isFunction = false := by rw [Op.isFunction, hb]; rfl
  simp only [differentiate?, hc, hf, Bool.false_eq_true, if_false]

theorem differentiate?_call {c : Code} {op : Op} (hc : c.op? = some op) :
    (call c t).differentiate? i = differentiateWith op i (call c t) missing t
      (.error (.cannot "differentiate" (missing : Tree α).kind)) (t.differentiate? i) := by
  simp only [differentiate?, hc]

theorem differentiate?_add {dl dr : Tree α} (hl : l.differentiate? i = .ok dl)
    (hr : r.differentiate? i = .ok dr) : (add l r).differentiate? i = .ok (add dl dr) := by
  rw [add, differentiate?_binary rfl rfl, hl, hr]
  rfl

theorem differentiate?_sub {dl dr : Tree α} (hl : l.differentiate? i = .ok dl)
    (hr : r.differentiate? i = .ok dr) : (sub l r).differentiate? i = .ok (sub dl dr) := by
  rw [sub, differentiate?_binary rfl rfl, hl, hr]
  rfl

theorem differentiate?_mul {l' r' dl dr : Tree α} (hl : l.differentiate? i = .ok dl)
    (hr : r.differentiate? i = .ok dr) (hcopyl : l.copy? = .ok l') (hcopyr : r.copy? = .ok r') :
    (mul l r).differentiate? i = .ok (add (mul dl r') (mul l' dr)) := by
  rw [mul, differentiate?_binary rfl rfl, hl, hr]
  simp only [differentiateWith, hcopyl, hcopyr]
  rfl

theorem differentiate?_div {l' r' dl dr : Tree α} (hl : l.differentiate? i = .ok dl)
    (hr : r.differentiate? i = .ok dr) (hcopyl : l.copy? = .ok l') (hcopyr : r.copy? = .ok r') :
    (div l r).differentiate? i = .ok (div (sub (mul dl r') (mul l' dr)) (square r')) := by
  rw [div, differentiate?_binary rfl rfl, hl, hr]
  simp only [differentiateWith, hcopyl, hcopyr]
  rfl

/-- A numeral in the exponent. -/
theorem differentiate?_pow_num {l' dl : Tree α} (c : α) (hl : l.differentiate? i = .ok dl)
    (hcopy : l.copy? = .ok l') : (pow l (num c)).differentiate? i =
      .ok (mul (mul (num c) (pow l' (sub (num c) (int 1)))) dl) := by
  rw [pow, differentiate?_binary rfl rfl, hl]
  simp only [differentiateWith, hcopy]
  rfl

/-! ### Induction -/

/-- A property of well-formed trees that their subtrees share. -/
structure Inherited (W : Tree α → Prop) : Prop where
  wellFormed : ∀ {t}, W t → t.WellFormed
  operands : ∀ {c l r}, W (binary c l r) → W l ∧ W r
  argument : ∀ {c t}, W (call c t) → W t

omit [Scalar α] in
theorem inherited_wellFormed : Inherited (WellFormed : Tree α → Prop) :=
  ⟨id, And.right, And.right⟩

/-- A tree with the property `W` has a derivative in the relation `Q`, if the leaves have and the
rules carry `Q` from the operands to the node. -/
theorem exists_differentiate?_of_rules {W : Tree α → Prop} {Q : Tree α → Tree α → Prop}
    (hW : Inherited W) (hnum : ∀ v, Q (num v) (int 0))
    (hvar : ∀ k : Nat, W (var k) → Q (var k) (int (if (k : Int) = i then 1 else 0)))
    (hbinary : ∀ {c : Code} {op : Op} {l r l' r' dl dr : Tree α}, c.op? = some op → op.isBinary →
      W (binary c l r) → l.copy? = .ok l' → r.copy? = .ok r' →
      (binary c l r).copy? = .ok (binary (.op op) l' r') → Q l dl → Q r dr →
      ∃ d, differentiateWith op i (binary c l r) l r (.ok dl) (.ok dr) = .ok d ∧
        Q (binary c l r) d)
    (hcall : ∀ {c : Code} {op : Op} {t t' dt : Tree α} (dl : Except Fault (Tree α)),
      c.op? = some op → op.isFunction → W (call c t) → t.copy? = .ok t' →
      (call c t).copy? = .ok (call (.op op) t') → Q t dt →
      ∃ d, differentiateWith op i (call c t) missing t dl (.ok dt) = .ok d ∧ Q (call c t) d)
    (ht : W t) : ∃ d, t.differentiate? i = .ok d ∧ Q t d := by
  induction t with
  | num v => exact ⟨_, rfl, hnum v⟩
  | var k => exact ⟨_, rfl, hvar k ht⟩
  | binary c l r ihl ihr =>
    obtain ⟨hl, hr⟩ := hW.operands ht
    obtain ⟨op, hc, hop⟩ := Code.op?_of_isBinary (hW.wellFormed ht).1
    obtain ⟨dl, hdl, hQl⟩ := ihl hl
    obtain ⟨dr, hdr, hQr⟩ := ihr hr
    obtain ⟨l', hcopyl, hwl, -⟩ := copy?_of_wellFormed (hW.wellFormed hl)
    obtain ⟨r', hcopyr, hwr, -⟩ := copy?_of_wellFormed (hW.wellFormed hr)
    rw [differentiate?_binary hc hop, hdl, hdr]
    exact hbinary hc hop ht hcopyl hcopyr (copy?_binary hc hop hcopyl hcopyr hwl hwr) hQl hQr
  | call c t ih =>
    obtain ⟨op, hc, hop⟩ := Code.op?_of_isFunction (hW.wellFormed ht).1
    obtain ⟨dt, hdt, hQ⟩ := ih (hW.argument ht)
    obtain ⟨t', hcopy, hwt, -⟩ := copy?_of_wellFormed (hW.wellFormed (hW.argument ht))
    rw [differentiate?_call hc, hdt]
    exact hcall _ hc hop ht hcopy (copy?_call hc hop hcopy hwt) hQ
  | foreign kind text => exact (hW.wellFormed ht).elim
  | missing => exact (hW.wellFormed ht).elim

end

end FormulaCalculus.Tree
