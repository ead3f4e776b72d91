import FormulaCalculus.Proofs.Derivative.Rules
import Mathlib.Tactic.Ring

/-!
# How much a derivative grows

A rule mentions the derivative of each operand once, and puts a bounded number of nodes and of
copies of the operands around them. So a node adds nodes in proportion to the size of its subtree;
the subtrees of one level have together at most the size of the tree, whence the bound of
`exists_differentiate?_le`, a product of the size and the depth.
-/

namespace FormulaCalculus.Tree

variable {α : Type} [Scalar α] {op : Op} {node s t l r l' r' : Tree α}

theorem size_copy (h : t.WellFormed) (hcopy : t.copy? = .ok s) :
    s.size = t.size ∧ s.depth = t.depth := by
  induction t generalizing s with
  | num | var => cases hcopy; exact ⟨rfl, rfl⟩
  | binary c l r ihl ihr =>
    obtain ⟨hc, hl, hr⟩ := h
    obtain ⟨op, hop, hbin⟩ := Code.op?_of_isBinary hc
    obtain ⟨l', hcopyl, hwl, -⟩ := copy?_of_wellFormed hl
    obtain ⟨r', hcopyr, hwr, -⟩ := copy?_of_wellFormed hr
    cases (copy?_binary hop hbin hcopyl hcopyr hwl hwr).symm.trans hcopy
    simp only [size, depth, ihl hl hcopyl, ihr hr hcopyr, and_self]
  | call c t ih =>
    obtain ⟨hc, ht⟩ := h
    obtain ⟨op, hop, hfun⟩ := Code.op?_of_isFunction hc
    obtain ⟨t', hcopy', hwt, -⟩ := copy?_of_wellFormed ht
    cases (copy?_call hop hfun hcopy' hwt).symm.trans hcopy
    simp only [size, depth, ih ht hcopy', and_self]
  | foreign | missing => exact h.elim

/-! ### One rule -/

theorem exists_differentiateWith_le_of_isBinary (hop : op.isBinary) (hl : l.copy? = .ok l')
    (hr : r.copy? = .ok r') (hnode : node.copy? = .ok (binary (.op op) l' r')) (target : Int)
    (dl dr : Tree α) :
    ∃ d, differentiateWith op target node l r (.ok dl) (.ok dr) = .ok d ∧
      d.size ≤ dl.size + dr.size + 3 * (l'.size + r'.size) + 7 ∧
      d.depth ≤ max (max dl.depth dr.depth) (max l'.depth r'.depth) + 4 := by
  have hposl := l'.depth_pos
  have hposr := r'.depth_pos
  cases op with
  | add | sub =>
    refine ⟨_, rfl, ?_⟩
    simp only [add, sub, size, depth]
    omega
  | mul | div =>
    simp only [differentiateWith, hl, hr]
    refine ⟨_, rfl, ?_⟩
    simp only [add, sub, mul, div, square, pow, int, size, depth]
    omega
  | pow =>
    simp only [differentiateWith, hl, hr, hnode]
    split
    · refine ⟨_, rfl, ?_⟩
      simp only [sub, mul, pow, int, size, depth]
      omega
    split
    · refine ⟨_, rfl, ?_⟩
      simp only [mul, size, depth]
      omega
    · refine ⟨_, rfl, ?_⟩
      simp only [add, mul, div, size, depth]
      omega
  | _ => cases hop

theorem exists_differentiateWith_le_of_isFunction (hop : op.isFunction) (hr : r.copy? = .ok r')
    (hnode : node.copy? = .ok (call (.op op) r')) (target : Int) (dl : Except Fault (Tree α))
    (dr : Tree α) :
    ∃ d, differentiateWith op target node l r dl (.ok dr) = .ok d ∧
      d.size ≤ dr.size + r'.size + 8 ∧ d.depth ≤ max dr.depth r'.depth + 4 := by
  have hpos := r'.depth_pos
  cases op with
  | add | sub | mul | div | pow => cases hop
  | sqrt =>
    simp only [differentiateWith, hnode]
    refine ⟨_, rfl, ?_⟩
    simp only [mul, div, int, size, depth]
    omega
  | _ =>
    simp only [differentiateWith, hr]
    refine ⟨_, rfl, ?_⟩
    simp only [add, sub, mul, div, square, negate, pow, int, size, depth]
    omega

/-! ### Whole trees -/

/-- The derivative of a tree is at most four times as deep as the tree, and has at most four nodes
for every node and level of it. -/
theorem exists_differentiate?_le (h : t.WellFormed) (target : Int) :
    ∃ d, t.differentiate? target = .ok d ∧ d.size ≤ 4 * t.size * t.depth ∧
      d.depth ≤ 4 * t.depth := by
  have hleaf (s : Tree α) (x : α) :
      (num x).size ≤ 4 * s.size * s.depth ∧ (num x).depth ≤ 4 * s.depth := by
    have := Nat.mul_pos s.size_pos s.depth_pos
    have := s.depth_pos
    simp only [size, depth, Nat.mul_assoc]
    omega
  refine exists_differentiate?_of_rules
    (Q := fun t d => d.size ≤ 4 * t.size * t.depth ∧ d.depth ≤ 4 * t.depth) inherited_wellFormed
    (fun _ => hleaf _ _) (fun _ _ => hleaf _ _) ?_ ?_ h
  · intro c op l r l' r' dl dr _ hop h hl hr hnode hdl hdr
    obtain ⟨d, hd, hsize, hdepth⟩ :=
      exists_differentiateWith_le_of_isBinary hop hl hr hnode target dl dr
    obtain ⟨hsizel, hdepthl⟩ := size_copy h.2.1 hl
    obtain ⟨hsizer, hdepthr⟩ := size_copy h.2.2 hr
    refine ⟨d, hd, ?_, ?_⟩
    · -- each operand is charged with the depth of the deeper one
      have hl : dl.size ≤ 4 * l.size * max l.depth r.depth :=
        hdl.1.trans (Nat.mul_le_mul_left _ (Nat.le_max_left _ _))
      have hr : dr.size ≤ 4 * r.size * max l.depth r.depth :=
        hdr.1.trans (Nat.mul_le_mul_left _ (Nat.le_max_right _ _))
      have := l.depth_pos
      calc d.size
        _ ≤ 4 * l.size * max l.depth r.depth + 4 * r.size * max l.depth r.depth
            + 4 * (l.size + r.size) + 4 * max l.depth r.depth + 4 := by omega
        _ = 4 * (binary c l r).size * (binary c l r).depth := by
            simp only [size, depth]
            ring
    · simp only [depth]
      omega
  · intro c op x x' dx dl _ hop h hx hnode hdx
    obtain ⟨d, hd, hsize, hdepth⟩ :=
      exists_differentiateWith_le_of_isFunction hop hx hnode target dl dx
    obtain ⟨hsizex, hdepthx⟩ := size_copy h.2 hx
    refine ⟨d, hd, ?_, ?_⟩
    · have := x.size_pos
      have := x.depth_pos
      calc d.size
        _ ≤ 4 * x.size * x.depth + 4 * x.size + 4 * x.depth + 4 := by omega
        _ = 4 * (call c x).size * (call c x).depth := by
            simp only [size, depth]
            ring
    · simp only [depth]
      omega

/-- `x^sin(x)`, whose rule copies the base three times and the exponent twice. -/
theorem exists_differentiate?_le_power :
    let t : Tree Float := pow (var 0) (call (.op .sin) (var 0))
    t.WellFormed ∧ ∃ d, t.differentiate? 0 = .ok d ∧ d.size ≤ 4 * 4 * 3 ∧ d.depth ≤ 4 * 3 := by
  intro t
  have ht : t.WellFormed := by decide
  exact ⟨ht, exists_differentiate?_le ht 0⟩

end FormulaCalculus.Tree
