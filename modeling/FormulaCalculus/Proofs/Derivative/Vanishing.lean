import FormulaCalculus.Proofs.Derivative.Rules
import FormulaCalculus.Proofs.Double.Identities
import FormulaCalculus.Proofs.Settings
import FormulaCalculus.Proofs.Simplify.Meaning
import FormulaCalculus.Proofs.Tree.Copy

/-!
# Derivatives by variables that do not occur

Every rule puts the derivatives of the operands where a zero takes the copies around it with it: as
terms of a sum, as a factor or as the dividend. So the derivative by a variable that does not occur
collapses to a zero in one pass. A copy that stays symbolic beside a zero gives way to it by an
identity, and a copy that comes to be a number is folded with it, which gives a zero as long as the
number is finite.
-/

namespace FormulaCalculus.Tree

open Double

section

variable [Elementary] {ε x y z : Float} {op : Op} {l r t dl dr node l' r' node' : Tree Float}
  {o : Option (Tree Float)} {i : Int}

/-! ### Single nodes -/

theorem ofInt_zero_beq : (Scalar.ofInt 0 : Float) == 0 := by
  have h : doubleOfInt 0 == 0 := by decide +kernel
  exact h

theorem isNear_zero (hε : Float.le 0 ε) (hz : z == 0) : (num z).isNear ε 0 := by
  simp only [isNear]
  split
  · exact hz
  · rename_i hne
    have hdistance : Alike (z - 0).abs 0 :=
      ((alike_sub_zero (by decide +kernel)).trans (.inl hz)).abs
    exact (hdistance.lt_eq (.refl ε)).trans (lt_of_le_of_beq_eq_false hε (Bool.eq_false_iff.2 hne))

/-- If the operands are numbers, they are finite, or their value is no NaN. -/
def foldsFinitely (c : Code) : Tree Float → Tree Float → Bool
  | num x, num y => x.isFinite && y.isFinite || (c.apply x y).toOption.all (!·.isNaN)
  | _, _ => true

theorem isFinite_of_foldsFinitely {c : Code} {v : Float}
    (h : foldsFinitely c (num x) (num y)) (hv : c.apply x y = .ok v) :
    x.isFinite ∧ y.isFinite ∨ v.isNaN = false := by
  simpa [foldsFinitely, hv, Except.toOption] using h

/-- A product with a zero gives way to a zero. -/
theorem replace?_zero_mul (hε : Float.le 0 ε) (hz : z == 0)
    (hfinite : foldsFinitely (.op .mul) (num z) r)
    (h : replace? ε (.op .mul) (num z) r = .ok o) : ∃ w, o = some (num w) ∧ w == 0 := by
  obtain ⟨op, hop, ⟨y, v, -, rfl, hv, rfl⟩ | ⟨-, hi⟩⟩ := replace?_cases h
  · cases hop
    have hy := isFinite_of_foldsFinitely hfinite ((Code.apply_eq_ok rfl).2 hv)
    cases hv
    exact ⟨_, rfl, beq_zero_mul hz (hy.imp_left And.right)⟩
  · cases hop
    simp only [identity?, isNear_zero hε hz, Bool.true_or, if_true] at hi
    cases hi
    exact ⟨_, rfl, ofInt_zero_beq⟩

theorem replace?_mul_zero (hε : Float.le 0 ε) (hz : z == 0) (hl : l.isComplete)
    (hfinite : foldsFinitely (.op .mul) l (num z))
    (h : replace? ε (.op .mul) l (num z) = .ok o) : ∃ w, o = some (num w) ∧ w == 0 := by
  obtain ⟨op, hop, ⟨y, v, hf, hy, hv, rfl⟩ | ⟨-, hi⟩⟩ := replace?_cases h
  · cases hop
    cases hy
    cases hf with
    | operands x =>
      have hx := isFinite_of_foldsFinitely hfinite ((Code.apply_eq_ok rfl).2 hv)
      cases hv
      exact ⟨_, rfl, beq_mul_zero hz (hx.imp_left And.left)⟩
    | argument => cases hl
  · cases hop
    simp only [identity?, isNear_zero hε hz, Bool.or_true, if_true] at hi
    cases hi
    exact ⟨_, rfl, ofInt_zero_beq⟩

/-- Unless its divisor is refused, a quotient with the dividend 0 gives way to a zero. -/
theorem replace?_zero_div (hε : Float.le 0 ε) (hz : z == 0)
    (hfinite : foldsFinitely (.op .div) (num z) r)
    (h : replace? ε (.op .div) (num z) r = .ok o) : ∃ w, o = some (num w) ∧ w == 0 := by
  obtain ⟨op, hop, ⟨y, v, -, rfl, hv, rfl⟩ | ⟨-, hi⟩⟩ := replace?_cases h
  · cases hop
    have hy := isFinite_of_foldsFinitely hfinite ((Code.apply_eq_ok rfl).2 hv)
    simp only [operandValue, Op.apply] at hv
    split at hv
    · cases hv
    · rename_i hne
      cases hv
      exact ⟨_, rfl, beq_zero_div hz (Bool.eq_false_iff.2 hne) (hy.imp_left And.right)⟩
  · cases hop
    simp only [identity?, isNear_zero hε hz, if_true] at hi
    split at hi
    · cases hi
    · cases hi
      exact ⟨_, rfl, ofInt_zero_beq⟩

/-! ### Zeros that a pass leaves -/

/-- The numbers that a pass over the tree folds two by two are finite, or give no NaN. -/
def foldsFinite (ε : Float) : Tree Float → Bool
  | binary c l r => l.foldsFinite ε && r.foldsFinite ε &&
    foldsFinitely c (l.simplifyPass ε).tree (r.simplifyPass ε).tree
  | call _ t => t.foldsFinite ε
  | _ => true

/-- If the pass over the tree succeeds and folds finite numbers, it leaves a zero. -/
def Vanishes (ε : Float) (t : Tree Float) : Prop :=
  ∀ o, (t.simplifyPass ε).outcome = .ok o → t.foldsFinite ε →
    ∃ z, (t.simplifyPass ε).tree = num z ∧ z == 0

namespace Vanishes

theorem int_zero : (int 0).Vanishes ε :=
  fun _ _ _ => ⟨_, rfl, ofInt_zero_beq⟩

/-- A node vanishes if what replaces it is a zero. -/
theorem binary (h : ∀ a b o, (l.simplifyPass ε).outcome = .ok a → l.foldsFinite ε →
      (r.simplifyPass ε).outcome = .ok b → r.foldsFinite ε →
      foldsFinitely (.op op) (l.simplifyPass ε).tree (r.simplifyPass ε).tree →
      replace? ε (.op op) (l.simplifyPass ε).tree (r.simplifyPass ε).tree = .ok o →
      ∃ z, o = some (num z) ∧ z == 0) : (binary (.op op) l r).Vanishes ε := by
  intro o ho hfinite
  simp only [foldsFinite, Bool.and_eq_true] at hfinite
  obtain ⟨⟨hl, hr⟩, hnode⟩ := hfinite
  obtain ⟨⟨a, ha⟩, ⟨b, hb⟩, hreplace, htree⟩ := simplifyPass_binary ho
  obtain ⟨z, rfl, hz⟩ := h a b o ha hl hb hr hnode hreplace
  exact ⟨z, htree, hz⟩

theorem add (hl : l.Vanishes ε) (hr : r.Vanishes ε) : (add l r).Vanishes ε := by
  refine binary fun a b o ha hfl hb hfr _ h => ?_
  obtain ⟨x, hx, hx0⟩ := hl a ha hfl
  obtain ⟨y, hy, hy0⟩ := hr b hb hfr
  rw [hx, hy, replace?_num_num rfl rfl] at h
  cases h
  exact ⟨_, rfl, beq_zero_add hx0 hy0⟩

theorem sub (hl : l.Vanishes ε) (hr : r.Vanishes ε) : (sub l r).Vanishes ε := by
  refine binary fun a b o ha hfl hb hfr _ h => ?_
  obtain ⟨x, hx, hx0⟩ := hl a ha hfl
  obtain ⟨y, hy, hy0⟩ := hr b hb hfr
  rw [hx, hy, replace?_num_num rfl rfl] at h
  cases h
  exact ⟨_, rfl, beq_zero_sub hx0 hy0⟩

theorem mul_left (hε : Float.le 0 ε) (hl : l.Vanishes ε) (r : Tree Float) :
    (mul l r).Vanishes ε := by
  refine binary fun a b o ha hfl _ _ hnode h => ?_
  obtain ⟨z, hz, hz0⟩ := hl a ha hfl
  rw [hz] at hnode h
  exact replace?_zero_mul hε hz0 hnode h

theorem mul_right (hε : Float.le 0 ε) (hr : r.Vanishes ε) (l : Tree Float) :
    (mul l r).Vanishes ε := by
  refine binary fun a b o ha _ hb hfr hnode h => ?_
  obtain ⟨z, hz, hz0⟩ := hr b hb hfr
  rw [hz] at hnode h
  have hcomplete := (replaces_simplifyPass ε l).isComplete (isComplete_of_simplifyPass ha)
  exact replace?_mul_zero hε hz0 hcomplete hnode h

theorem div (hε : Float.le 0 ε) (hl : l.Vanishes ε) (r : Tree Float) : (div l r).Vanishes ε := by
  refine binary fun a b o ha hfl _ _ hnode h => ?_
  obtain ⟨z, hz, hz0⟩ := hl a ha hfl
  rw [hz] at hnode h
  exact replace?_zero_div hε hz0 hnode h

theorem negate (hε : Float.le 0 ε) (ht : t.Vanishes ε) : t.negate.Vanishes ε :=
  mul_right hε ht _

end Vanishes

/-! ### The rules -/

/-- The rules of the arithmetic operators. The exponent of a power does not mention the variable
either, so that the power is taken down by its base. -/
theorem exists_vanishes_of_isBinary (hε : Float.le 0 ε) (hop : op.isBinary)
    (hr : r.mentions i = false) (hcopyl : l.copy? = .ok l') (hcopyr : r.copy? = .ok r')
    (hdl : dl.Vanishes ε) (hdr : dr.Vanishes ε) :
    ∃ d, differentiateWith op i node l r (.ok dl) (.ok dr) = .ok d ∧ d.Vanishes ε := by
  simp only [differentiateWith, hcopyl, hcopyr, hr]
  have hproducts : (mul dl r').Vanishes ε ∧ (mul l' dr).Vanishes ε :=
    ⟨hdl.mul_left hε r', hdr.mul_right hε l'⟩
  cases op with
  | add => exact ⟨_, rfl, hdl.add hdr⟩
  | sub => exact ⟨_, rfl, hdl.sub hdr⟩
  | mul => exact ⟨_, rfl, hproducts.1.add hproducts.2⟩
  | div => exact ⟨_, rfl, (hproducts.1.sub hproducts.2).div hε _⟩
  | pow => exact ⟨_, rfl, hdl.mul_right hε _⟩
  | _ => cases hop

/-- The rules of the functions. -/
theorem exists_vanishes_of_isFunction (hε : Float.le 0 ε) (hop : op.isFunction)
    (hcopy : r.copy? = .ok r') (hnode : node.copy? = .ok node') (hdr : dr.Vanishes ε)
    (dl : Except Fault (Tree Float)) :
    ∃ d, differentiateWith op i node l r dl (.ok dr) = .ok d ∧ d.Vanishes ε := by
  simp only [differentiateWith, hcopy, hnode]
  cases op with
  | ln | sqrt | tg | arcsin | arctg => exact ⟨_, rfl, hdr.div hε _⟩
  | ctg | arccos | arcctg => exact ⟨_, rfl, (hdr.negate hε).div hε _⟩
  | sin | cos => exact ⟨_, rfl, hdr.mul_right hε _⟩
  | _ => cases hop

/-! ### The whole tree -/

omit [Elementary] in
theorem inherited_absent (i : Int) :
    Inherited fun t : Tree Float => t.WellFormed ∧ t.mentions i = false where
  wellFormed h := h.1
  operands := by
    rintro c l r ⟨⟨-, hl, hr⟩, hi⟩
    rw [mentions_binary, Bool.or_eq_false_iff] at hi
    exact ⟨⟨hl, hi.1⟩, hr, hi.2⟩
  argument := by
    rintro c t ⟨⟨-, ht⟩, hi⟩
    rw [mentions_call] at hi
    exact ⟨ht, hi⟩

theorem exists_differentiate?_vanishes (hε : Float.le 0 ε) (ht : t.WellFormed)
    (hi : t.mentions i = false) : ∃ d, t.differentiate? i = .ok d ∧ d.Vanishes ε := by
  refine exists_differentiate?_of_rules (Q := fun _ d => d.Vanishes ε) (inherited_absent i)
    (fun _ => .int_zero) (fun k h => ?_) ?_ ?_ ⟨ht, hi⟩
  · rw [mentions_var, decide_eq_false_iff_not] at h
    rw [if_neg h.2]
    exact .int_zero
  · intro c op l r l' r' dl dr _ hop h hl hr _ hdl hdr
    exact exists_vanishes_of_isBinary hε hop ((inherited_absent i).operands h).2.2 hl hr hdl hdr
  · intro c op t t' dt dl _ hop _ ht hnode hdt
    exact exists_vanishes_of_isFunction hε hop ht hnode hdt dl

/-- Differentiating by a variable that does not occur gives a literal zero: at every tolerance that
the settings accept, NaN apart, a pass over the derivative that succeeds and folds no number that is
infinite or NaN leaves nothing but a number that equals 0. -/
theorem simplifyPass_differentiate_absent {σ : Settings} {fields : List (String × Given)}
    (hσ : ({} : Settings).update? fields = .ok σ) (hnan : σ.epsilon.isNaN = false)
    (t : Tree Float) (ht : t.WellFormed) (i : Int) (hi : t.mentions i = false) :
    ∃ d, t.differentiate? i = .ok d ∧ ∀ o, (d.simplifyPass σ.epsilon).outcome = .ok o →
      d.foldsFinite σ.epsilon → ∃ z, (d.simplifyPass σ.epsilon).tree = num z ∧ z == 0 :=
  exists_differentiate?_vanishes (Settings.zero_le_epsilon hσ hnan) ht hi

end

/-- `(x * sqrt(4)) / ln(x)` by `y`: one copy is folded with a zero and the others stay symbolic. -/
theorem simplifyPass_differentiate_absent_quotient :
    let σ : Settings := { tolerance := .double 0.5 }
    let s : Tree Float := mul (var 0) (call (.op .sqrt) (num 4))
    let t : Tree Float := div s (call (.op .ln) (var 0))
    let ds : Tree Float := add (mul (int 0) (call (.op .sqrt) (num 4)))
      (mul (var 0) (div (int 0) (mul (int 2) (call (.op .sqrt) (num 4)))))
    let d : Tree Float := div (sub (mul ds (call (.op .ln) (var 0))) (mul s (div (int 0) (var 0))))
      (square (call (.op .ln) (var 0)))
    ({} : Settings).update? [("epsilon", .double 0.5)] = .ok σ ∧ σ.epsilon.isNaN = false ∧
      t.WellFormed ∧ t.mentions 1 = false ∧ t.differentiate? 1 = .ok d ∧
      (d.simplifyPass σ.epsilon).outcome = .ok (some (int 0)) ∧ d.foldsFinite σ.epsilon ∧
      ∃ z, (d.simplifyPass σ.epsilon).tree = num z ∧ z == 0 := by
  intro σ s t ds d
  have hσ : ({} : Settings).update? [("epsilon", .double 0.5)] = .ok σ := rfl
  have hnan : σ.epsilon.isNaN = false := by decide +kernel
  have ht : t.WellFormed := by decide
  have hi : t.mentions 1 = false := by decide
  have hd : t.differentiate? 1 = .ok d := rfl
  have hpass : (d.simplifyPass σ.epsilon).outcome = .ok (some (int 0)) := by decide +kernel
  have hfinite : d.foldsFinite σ.epsilon := by decide +kernel
  obtain ⟨d', hd', h⟩ := simplifyPass_differentiate_absent hσ hnan t ht 1 hi
  cases hd.symm.trans hd'
  exact ⟨hσ, hnan, ht, hi, hd, hpass, hfinite, h _ hpass hfinite⟩

end FormulaCalculus.Tree
