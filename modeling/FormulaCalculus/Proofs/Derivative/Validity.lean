import FormulaCalculus.Proofs.Derivative.Rules
import FormulaCalculus.Proofs.Tree.Validity

/-!
# Derivatives are valid

Every valid tree has a derivative, and it is valid over the same table: a rule puts nodes of the
arity of their operators around copies of the operands and around their derivatives.
-/

namespace FormulaCalculus.Tree

variable {α : Type} {count : Option Int} {op : Op} {target : Int} {node l r dl dr t : Tree α}

section Build

theorem valid_of_isBinary (hop : op.isBinary) (hl : l.Valid count) (hr : r.Valid count) :
    (binary (.op op) l r).Valid count :=
  valid_binary_iff.2 ⟨hop, hl, hr⟩

theorem valid_of_isFunction (hop : op.isFunction) (ht : t.Valid count) :
    (call (.op op) t).Valid count :=
  valid_call_iff.2 ⟨hop, ht⟩

variable [Scalar α]

theorem Valid.square (h : t.Valid count) : t.square.Valid count :=
  valid_of_isBinary rfl h (valid_num _)

theorem Valid.negate (h : t.Valid count) : t.negate.Valid count :=
  valid_of_isBinary rfl (valid_num _) h

end Build

variable [Scalar α]

/-- The rule of an operator with two operands. -/
theorem exists_differentiateWith_of_isBinary (hop : op.isBinary) (hnode : node.Valid count)
    (hl : l.Valid count) (hr : r.Valid count) (hdl : dl.Valid count) (hdr : dr.Valid count) :
    ∃ d, differentiateWith op target node l r (.ok dl) (.ok dr) = .ok d ∧ d.Valid count := by
  obtain ⟨node', hnode, hvnode⟩ := hnode.exists_copy
  obtain ⟨l', hl, hvl⟩ := hl.exists_copy
  obtain ⟨r', hr, hvr⟩ := hr.exists_copy
  have hln : (call (.op .ln) l').Valid count := valid_of_isFunction rfl hvl
  cases op with
  | add => exact ⟨_, rfl, valid_of_isBinary rfl hdl hdr⟩
  | sub => exact ⟨_, rfl, valid_of_isBinary rfl hdl hdr⟩
  | mul =>
    simp only [differentiateWith, hl, hr]
    exact ⟨_, rfl, valid_of_isBinary rfl (valid_of_isBinary rfl hdl hvr)
      (valid_of_isBinary rfl hvl hdr)⟩
  | div =>
    simp only [differentiateWith, hl, hr]
    exact ⟨_, rfl, valid_of_isBinary rfl (valid_of_isBinary rfl (valid_of_isBinary rfl hdl hvr)
      (valid_of_isBinary rfl hvl hdr)) hvr.square⟩
  | pow =>
    simp only [differentiateWith, hl, hr, hnode]
    split
    · exact ⟨_, rfl, valid_of_isBinary rfl (valid_of_isBinary rfl hvr (valid_of_isBinary rfl hvl
        (valid_of_isBinary rfl hvr (valid_num _)))) hdl⟩
    split
    · exact ⟨_, rfl, valid_of_isBinary rfl (valid_of_isBinary rfl hvnode hln) hdr⟩
    · have hquotient : (div (mul r' dl) l').Valid count :=
        valid_of_isBinary rfl (valid_of_isBinary rfl hvr hdl) hvl
      exact ⟨_, rfl, valid_of_isBinary rfl hvnode
        (valid_of_isBinary rfl (valid_of_isBinary rfl hdr hln) hquotient)⟩
  | _ => cases hop

/-- The rule of a function, which does not look at the operand on its left. -/
theorem exists_differentiateWith_of_isFunction (hop : op.isFunction) (hnode : node.Valid count)
    (hr : r.Valid count) (hdr : dr.Valid count) (dl : Except Fault (Tree α)) :
    ∃ d, differentiateWith op target node l r dl (.ok dr) = .ok d ∧ d.Valid count := by
  obtain ⟨node', hnode, hvnode⟩ := hnode.exists_copy
  obtain ⟨r', hr, hvr⟩ := hr.exists_copy
  have hint (n : Int) : (int n : Tree α).Valid count := valid_num _
  have hcall {f : Op} (hf : f.isFunction) : (call (.op f) r').Valid count :=
    valid_of_isFunction hf hvr
  have hroot : (call (.op .sqrt) (sub (int 1) r'.square)).Valid count :=
    valid_of_isFunction rfl (valid_of_isBinary rfl (hint 1) hvr.square)
  have hplus : (add (int 1) r'.square).Valid count :=
    valid_of_isBinary rfl (hint 1) hvr.square
  cases op with
  | ln =>
    simp only [differentiateWith, hr]
    exact ⟨_, rfl, valid_of_isBinary rfl hdr hvr⟩
  | sqrt =>
    simp only [differentiateWith, hnode]
    exact ⟨_, rfl, valid_of_isBinary rfl hdr (valid_of_isBinary rfl (hint 2) hvnode)⟩
  | cos =>
    simp only [differentiateWith, hr]
    exact ⟨_, rfl, valid_of_isBinary rfl (hcall rfl).negate hdr⟩
  | sin =>
    simp only [differentiateWith, hr]
    exact ⟨_, rfl, valid_of_isBinary rfl (hcall rfl) hdr⟩
  | tg =>
    simp only [differentiateWith, hr]
    exact ⟨_, rfl, valid_of_isBinary rfl hdr (hcall rfl).square⟩
  | ctg =>
    simp only [differentiateWith, hr]
    exact ⟨_, rfl, valid_of_isBinary rfl hdr.negate (hcall rfl).square⟩
  | arcsin =>
    simp only [differentiateWith, hr]
    exact ⟨_, rfl, valid_of_isBinary rfl hdr hroot⟩
  | arccos =>
    simp only [differentiateWith, hr]
    exact ⟨_, rfl, valid_of_isBinary rfl hdr.negate hroot⟩
  | arctg =>
    simp only [differentiateWith, hr]
    exact ⟨_, rfl, valid_of_isBinary rfl hdr hplus⟩
  | arcctg =>
    simp only [differentiateWith, hr]
    exact ⟨_, rfl, valid_of_isBinary rfl hdr.negate hplus⟩
  | _ => cases hop

omit [Scalar α] in
theorem inherited_valid (count : Option Int) : Inherited (Valid count : Tree α → Prop) where
  wellFormed := Valid.wellFormed
  operands h := (valid_binary_iff.1 h).2
  argument h := (valid_call_iff.1 h).2

theorem Valid.exists_differentiate (h : t.Valid count) (target : Int) :
    ∃ d, t.differentiate? target = .ok d ∧ d.Valid count := by
  refine exists_differentiate?_of_rules (Q := fun _ d => d.Valid count) (inherited_valid count)
    (fun _ => valid_num _) (fun _ _ => valid_num _) ?_ ?_ h
  · intro c op l r l' r' dl dr _ hop h _ _ _ hdl hdr
    obtain ⟨hl, hr⟩ := (inherited_valid count).operands h
    exact exists_differentiateWith_of_isBinary hop h hl hr hdl hdr
  · intro c op t t' dt dl _ hop h _ _ hdt
    exact exists_differentiateWith_of_isFunction hop h ((inherited_valid count).argument h) hdt dl

end FormulaCalculus.Tree
