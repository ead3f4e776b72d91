import FormulaCalculus.Print.Graph
import FormulaCalculus.Print.Latex
import FormulaCalculus.Print.Outline
import FormulaCalculus.Proofs.Tree.Copy

/-!
# Printing well-formed trees

Every operator of a well-formed tree has a spelling and every slot is filled, so each form of a tree
that can be walked is printed.
-/

namespace FormulaCalculus

theorem Code.checkSymbol_of_isBinary {c : Code} (h : c.isBinary) : c.checkSymbol = .ok () := by
  obtain ⟨op, hop, -⟩ := op?_of_isBinary h
  rw [checkSymbol, hop]
  rfl

theorem Code.checkSymbol_of_isFunction {c : Code} (h : c.isFunction) : c.checkSymbol = .ok () := by
  obtain ⟨op, hop, -⟩ := op?_of_isFunction h
  rw [checkSymbol, hop]
  rfl

namespace Tree

variable {t : Tree Float}

/-- A check that finds no fault in a leaf, and none in a node whose operands it accepts. -/
theorem WellFormed.accepted {check : Tree Float → Except Fault Unit}
    (hnum : ∀ v, check (num v) = .ok ()) (hvar : ∀ i, check (var i) = .ok ())
    (hbinary : ∀ c l r, c.isBinary → c.checkSymbol = .ok () → check l = .ok () →
      check r = .ok () → check (binary c l r) = .ok ())
    (hcall : ∀ c x, c.isFunction → c.checkSymbol = .ok () → check x = .ok () →
      check (call c x) = .ok ())
    (h : t.WellFormed) : check t = .ok () := by
  induction t with
  | num v => exact hnum v
  | var i => exact hvar i
  | binary c l r ihl ihr =>
    obtain ⟨hc, hl, hr⟩ := h
    exact hbinary c l r hc (Code.checkSymbol_of_isBinary hc) (ihl hl) (ihr hr)
  | call c x ih =>
    obtain ⟨hc, hx⟩ := h
    exact hcall c x hc (Code.checkSymbol_of_isFunction hc) (ih hx)
  | foreign | missing => exact h.elim

variable (h : t.WellFormed)
include h

theorem WellFormed.checkFull (foreignPrints : Bool) : t.checkFull foreignPrints = .ok () := by
  refine h.accepted (fun _ => rfl) (fun _ => rfl) (fun c l r _ hc hl hr => ?_) fun c x _ hc hx => ?_
  · rw [Tree.checkFull, hl, hc, hr]
    rfl
  · rw [Tree.checkFull, hc, hx]
    rfl

theorem WellFormed.checkMinimal : t.checkMinimal = .ok () := by
  refine h.accepted (fun _ => rfl) (fun _ => rfl) (fun c l r _ hc hl hr => ?_) fun c x _ hc hx => ?_
  · rw [Tree.checkMinimal, hc, hl, hr]
    rfl
  · rw [Tree.checkMinimal, hc, hx]
    rfl

theorem WellFormed.checkOutline : t.checkOutline = .ok () := by
  refine h.accepted (fun _ => rfl) (fun _ => rfl) (fun c l r _ hc hl hr => ?_) fun c x _ hc hx => ?_
  · rw [Tree.checkOutline, hc, hl, hr]
    rfl
  · rw [Tree.checkOutline, hc, hx]
    rfl

theorem WellFormed.checkLatex : t.checkLatex = .ok () := by
  refine h.accepted (fun _ => rfl) (fun _ => rfl) (fun c l r _ hc hl hr => ?_) fun c x hc _ hx => ?_
  · rw [Tree.checkLatex, hc, hl, hr]
    rfl
  · rw [Tree.checkLatex, hx, hc]
    rfl

variable (hshallow : t.isTooDeep = false) (s : Style)
include hshallow

theorem WellFormed.full? : t.full? s = .ok (t.fullText s) := by
  simp only [Tree.full?, hshallow, h.checkFull]
  rfl

theorem WellFormed.minimal? : t.minimal? s = .ok (t.minimalText s) := by
  simp only [Tree.minimal?, hshallow, h.checkMinimal]
  rfl

theorem WellFormed.outline? : t.outline? s = .ok (t.outline s) := by
  simp only [Tree.outline?, hshallow, h.checkOutline]
  rfl

theorem WellFormed.latex? : t.latex? s = .ok (t.latexText s) := by
  simp only [Tree.latex?, hshallow, h.checkLatex]
  rfl

theorem WellFormed.vertices? : Graph.vertices? s t = .ok (Graph.vertices s t) := by
  simp only [Graph.vertices?, hshallow, h.checkMinimal]
  rfl

end Tree

end FormulaCalculus
