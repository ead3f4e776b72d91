import FormulaCalculus.Proofs.Derivative.Rules
import FormulaCalculus.Proofs.Equality.Operators
import FormulaCalculus.Proofs.Tree.Copy

/-!
# Equal trees

Trees of one shape, with the same operators and variables, and with numbers in a relation `R`: for
equality of doubles this is structural equality. Such trees have the same measures and variables,
their copies and derivatives are related in the same way, and where `R` is likeness of doubles their
values are alike.
-/

namespace FormulaCalculus

theorem Code.same_refl (c : Code) : c.same c := by
  unfold same
  cases c.op? <;> simp

theorem Code.op?_eq_of_same {c c' : Code} (h : c.same c') : c.op? = c'.op? := by
  unfold same at h
  split at h
  · rename_i hc hc'
    rw [hc, hc', beq_iff_eq.1 h]
  · rename_i hc hc'
    rw [hc, hc']
  · cases h

theorem Code.eq_of_same {c c' : Code} (h : c.same c') (hc : c.op? = none) : c = c' := by
  have hc' := (op?_eq_of_same h).symm.trans hc
  unfold same at h
  rw [hc, hc'] at h
  exact beq_iff_eq.1 h

namespace Tree

variable {α : Type}

/-- The same shape with the same operators and variables, and numbers in the relation `R`. -/
inductive Like (R : α → α → Prop) : Tree α → Tree α → Prop
  | num {x y : α} (h : R x y) : Like R (num x) (num y)
  | var (i : Nat) : Like R (var i) (var i)
  | binary {c c' : Code} {l l' r r' : Tree α} (hc : c.same c') (hl : Like R l l')
    (hr : Like R r r') : Like R (binary c l r) (binary c' l' r')
  | call {c c' : Code} {t t' : Tree α} (hc : c.same c') (ht : Like R t t') :
    Like R (call c t) (call c' t')
  | foreign (kind text : String) : Like R (foreign kind text) (foreign kind text)
  | missing : Like R missing missing

theorem like_of_sameWith {eq : α → α → Bool} {s t : Tree α} (h : s.sameWith eq t) :
    Like (fun x y => eq x y) s t := by
  induction s generalizing t with
  | num x => cases t <;> simp only [sameWith, Bool.false_eq_true] at h; exact .num h
  | var i =>
    cases t <;> simp only [sameWith, Bool.false_eq_true, beq_iff_eq] at h
    exact h ▸ .var i
  | binary c l r ihl ihr =>
    cases t <;> simp only [sameWith, Bool.false_eq_true, Bool.and_eq_true] at h
    exact .binary h.1.1 (ihl h.1.2) (ihr h.2)
  | call c t ih =>
    cases t <;> simp only [sameWith, Bool.false_eq_true, Bool.and_eq_true] at h
    exact .call h.1 (ih h.2)
  | foreign k x =>
    cases t <;> simp only [sameWith, Bool.false_eq_true, Bool.and_eq_true, beq_iff_eq] at h
    obtain ⟨rfl, rfl⟩ := h
    exact .foreign k x
  | missing => cases t <;> simp only [sameWith, Bool.false_eq_true] at h; exact .missing

namespace Like

variable {R S : α → α → Prop} {s s' t t' l l' r r' node node' dl dl' dr dr' : Tree α}

theorem sameWith {eq : α → α → Bool} (h : Like (fun x y => eq x y) s t) : s.sameWith eq t := by
  induction h with
  | num h => exact h
  | var i => exact beq_self_eq_true i
  | binary hc _ _ ihl ihr => simp only [Tree.sameWith, hc, ihl, ihr, Bool.and_self]
  | call hc _ ih => simp only [Tree.sameWith, hc, ih, Bool.and_self]
  | foreign k x => simp only [Tree.sameWith, beq_self_eq_true, Bool.and_self]
  | missing => rfl

theorem mono (hR : ∀ x y, R x y → S x y) (h : Like R s t) : Like S s t := by
  induction h with
  | num h => exact .num (hR _ _ h)
  | var i => exact .var i
  | binary hc _ _ ihl ihr => exact .binary hc ihl ihr
  | call hc _ ih => exact .call hc ih
  | foreign k x => exact .foreign k x
  | missing => exact .missing

theorem operator (op : Op) (hl : Like R l l') (hr : Like R r r') :
    Like R (.binary (.op op) l r) (.binary (.op op) l' r') :=
  .binary (Code.same_refl _) hl hr

theorem function (op : Op) (ht : Like R t t') : Like R (.call (.op op) t) (.call (.op op) t') :=
  .call (Code.same_refl _) ht

theorem wellFormed (h : Like R s t) (hs : s.WellFormed) : t.WellFormed := by
  induction h with
  | num | var => trivial
  | binary hc _ _ ihl ihr =>
    exact ⟨by rw [Code.isBinary, ← Code.op?_eq_of_same hc]; exact hs.1, ihl hs.2.1, ihr hs.2.2⟩
  | call hc _ ih =>
    exact ⟨by rw [Code.isFunction, ← Code.op?_eq_of_same hc]; exact hs.1, ih hs.2⟩
  | foreign | missing => exact hs

theorem depth_eq (h : Like R s t) : s.depth = t.depth := by
  induction h with
  | binary _ _ _ ihl ihr => simp only [depth, ihl, ihr]
  | call _ _ ih => simp only [depth, ih]
  | _ => rfl

theorem isTooDeep_eq (h : Like R s t) : s.isTooDeep = t.isTooDeep := by
  rw [isTooDeep, isTooDeep, h.depth_eq]

theorem indices_eq (h : Like R s t) : s.indices = t.indices := by
  induction h with
  | binary _ _ _ ihl ihr => rw [indices_binary, indices_binary, ihl, ihr]
  | call _ _ ih => rw [indices_call, indices_call, ih]
  | _ => rfl

theorem mentions_eq (h : Like R s t) (i : Int) : s.mentions i = t.mentions i := by
  rw [mentions, mentions, h.indices_eq]

/-! ### Derivatives -/

theorem exists_copy (h : Like R s t) (hs : s.WellFormed) :
    ∃ s' t', s.copy? = .ok s' ∧ t.copy? = .ok t' ∧ Like R s' t' ∧ s'.WellFormed := by
  induction h with
  | num h => exact ⟨_, _, rfl, rfl, .num h, trivial⟩
  | var i => exact ⟨_, _, rfl, rfl, .var i, trivial⟩
  | binary hc _ _ ihl ihr =>
    obtain ⟨hbinary, hl, hr⟩ := hs
    obtain ⟨op, hop, hb⟩ := Code.op?_of_isBinary hbinary
    obtain ⟨l, l', hcopyl, hcopyl', hl, hwl⟩ := ihl hl
    obtain ⟨r, r', hcopyr, hcopyr', hr, hwr⟩ := ihr hr
    exact ⟨_, _, copy?_binary hop hb hcopyl hcopyr hwl hwr,
      copy?_binary ((Code.op?_eq_of_same hc).symm.trans hop) hb hcopyl' hcopyr'
        (hl.wellFormed hwl) (hr.wellFormed hwr), .operator op hl hr, ⟨hb, hwl, hwr⟩⟩
  | call hc _ ih =>
    obtain ⟨hfunction, ht⟩ := hs
    obtain ⟨op, hop, hf⟩ := Code.op?_of_isFunction hfunction
    obtain ⟨x, x', hcopy, hcopy', hx, hwx⟩ := ih ht
    exact ⟨_, _, copy?_call hop hf hcopy hwx,
      copy?_call ((Code.op?_eq_of_same hc).symm.trans hop) hf hcopy' (hx.wellFormed hwx),
      .function op hx, ⟨hf, hwx⟩⟩
  | foreign | missing => exact hs.elim

variable [Scalar α]

section Rules

variable {op : Op} {i : Int} (hint : ∀ n : Int, n.natAbs ≤ 2 → R (Scalar.ofInt n) (Scalar.ofInt n))
include hint

theorem int (n : Int) (hn : n.natAbs ≤ 2) : Like R (Tree.int n) (Tree.int n) :=
  .num (hint n hn)

theorem square (h : Like R s t) : Like R s.square t.square :=
  .operator .pow h (int hint 2 (by decide))

theorem negate (h : Like R s t) : Like R s.negate t.negate :=
  .operator .mul (int hint (-1) (by decide)) h

/-- The rule of an operator with two operands. -/
theorem differentiateWith_binary (hop : op.isBinary) (hnode : Like R node node')
    (hwnode : node.WellFormed) (hl : Like R l l') (hwl : l.WellFormed) (hr : Like R r r')
    (hwr : r.WellFormed) (hdl : Like R dl dl') (hdr : Like R dr dr') :
    ∃ d d', differentiateWith op i node l r (.ok dl) (.ok dr) = .ok d ∧
      differentiateWith op i node' l' r' (.ok dl') (.ok dr') = .ok d' ∧ Like R d d' := by
  have hmentionsl := hl.mentions_eq i
  have hmentionsr := hr.mentions_eq i
  obtain ⟨n, n', hn, hn', hnode, -⟩ := hnode.exists_copy hwnode
  obtain ⟨x, x', hx, hx', hl, -⟩ := hl.exists_copy hwl
  obtain ⟨y, y', hy, hy', hr, -⟩ := hr.exists_copy hwr
  have hln := hl.function .ln
  cases op with
  | add => exact ⟨_, _, rfl, rfl, .operator .add hdl hdr⟩
  | sub => exact ⟨_, _, rfl, rfl, .operator .sub hdl hdr⟩
  | mul =>
    simp only [differentiateWith, hx, hx', hy, hy']
    exact ⟨_, _, rfl, rfl, .operator .add (.operator .mul hdl hr) (.operator .mul hl hdr)⟩
  | div =>
    simp only [differentiateWith, hx, hx', hy, hy']
    exact ⟨_, _, rfl, rfl, .operator .div
      (.operator .sub (.operator .mul hdl hr) (.operator .mul hl hdr)) (hr.square hint)⟩
  | pow =>
    simp only [differentiateWith, hx, hx', hy, hy', hn, hn', ← hmentionsl, ← hmentionsr]
    split
    · have hless := Like.operator .sub hr (int hint 1 (by decide))
      exact ⟨_, _, rfl, rfl, .operator .mul (.operator .mul hr (.operator .pow hl hless)) hdl⟩
    split
    · exact ⟨_, _, rfl, rfl, .operator .mul (.operator .mul hnode hln) hdr⟩
    · exact ⟨_, _, rfl, rfl, .operator .mul hnode
        (.operator .add (.operator .mul hdr hln) (.operator .div (.operator .mul hr hdl) hl))⟩
  | _ => cases hop

/-- The rule of a function, which does not look at the operand on its left. -/
theorem differentiateWith_function (hop : op.isFunction) (hnode : Like R node node')
    (hwnode : node.WellFormed) (hr : Like R r r') (hwr : r.WellFormed) (hdr : Like R dr dr')
    (x : Tree α) (dx : Except Fault (Tree α)) :
    ∃ d d', differentiateWith op i node x r dx (.ok dr) = .ok d ∧
      differentiateWith op i node' x r' dx (.ok dr') = .ok d' ∧ Like R d d' := by
  obtain ⟨n, n', hn, hn', hnode, -⟩ := hnode.exists_copy hwnode
  obtain ⟨y, y', hy, hy', hr, -⟩ := hr.exists_copy hwr
  have hroot := (Like.operator .sub (int hint 1 (by decide)) (hr.square hint)).function .sqrt
  have hplus := Like.operator .add (int hint 1 (by decide)) (hr.square hint)
  have hnegate := hdr.negate hint
  cases op with
  | ln =>
    simp only [differentiateWith, hy, hy']
    exact ⟨_, _, rfl, rfl, .operator .div hdr hr⟩
  | sqrt =>
    simp only [differentiateWith, hn, hn']
    exact ⟨_, _, rfl, rfl, .operator .div hdr (.operator .mul (int hint 2 (by decide)) hnode)⟩
  | cos =>
    simp only [differentiateWith, hy, hy']
    exact ⟨_, _, rfl, rfl, .operator .mul ((hr.function .sin).negate hint) hdr⟩
  | sin =>
    simp only [differentiateWith, hy, hy']
    exact ⟨_, _, rfl, rfl, .operator .mul (hr.function .cos) hdr⟩
  | tg =>
    simp only [differentiateWith, hy, hy']
    exact ⟨_, _, rfl, rfl, .operator .div hdr ((hr.function .cos).square hint)⟩
  | ctg =>
    simp only [differentiateWith, hy, hy']
    exact ⟨_, _, rfl, rfl, .operator .div hnegate ((hr.function .sin).square hint)⟩
  | arcsin =>
    simp only [differentiateWith, hy, hy']
    exact ⟨_, _, rfl, rfl, .operator .div hdr hroot⟩
  | arccos =>
    simp only [differentiateWith, hy, hy']
    exact ⟨_, _, rfl, rfl, .operator .div hnegate hroot⟩
  | arctg =>
    simp only [differentiateWith, hy, hy']
    exact ⟨_, _, rfl, rfl, .operator .div hdr hplus⟩
  | arcctg =>
    simp only [differentiateWith, hy, hy']
    exact ⟨_, _, rfl, rfl, .operator .div hnegate hplus⟩
  | _ => cases hop

theorem exists_differentiate (h : Like R s t) (hs : s.WellFormed) (i : Int) :
    ∃ d d', s.differentiate? i = .ok d ∧ t.differentiate? i = .ok d' ∧ Like R d d' := by
  induction h with
  | num => exact ⟨_, _, rfl, rfl, int hint 0 (by decide)⟩
  | var => exact ⟨_, _, rfl, rfl, int hint _ (by split <;> decide)⟩
  | @binary c c' l l' r r' hc hl hr ihl ihr =>
    obtain ⟨hbinary, hwl, hwr⟩ := hs
    obtain ⟨op, hop, hb⟩ := Code.op?_of_isBinary hbinary
    obtain ⟨dl, dl', hdl, hdl', hlikel⟩ := ihl hwl
    obtain ⟨dr, dr', hdr, hdr', hliker⟩ := ihr hwr
    rw [differentiate?_binary hop hb,
      differentiate?_binary ((Code.op?_eq_of_same hc).symm.trans hop) hb, hdl, hdl', hdr, hdr']
    exact differentiateWith_binary hint hb (.binary hc hl hr) ⟨hbinary, hwl, hwr⟩ hl hwl hr hwr
      hlikel hliker
  | @call c c' t t' hc ht ih =>
    obtain ⟨hfunction, hwt⟩ := hs
    obtain ⟨op, hop, hf⟩ := Code.op?_of_isFunction hfunction
    obtain ⟨d, d', hd, hd', hlike⟩ := ih hwt
    rw [differentiate?_call hop, differentiate?_call ((Code.op?_eq_of_same hc).symm.trans hop), hd,
      hd']
    exact differentiateWith_function hint hf (.call hc ht) ⟨hfunction, hwt⟩ ht hwt hlike _ _
  | foreign | missing => exact hs.elim

end Rules

end Like

end Tree

/-! ### Doubles for numbers -/

open Double

/-- How trees compare their numbers: as doubles, except that a NaN may be found equal to a NaN. -/
structure ComparesNumbers (eq : Float → Float → Bool) : Prop where
  of_beq : ∀ {x y : Float}, x == y → eq x y
  alike : ∀ {x y : Float}, eq x y → Alike x y

namespace ComparesNumbers

variable {eq : Float → Float → Bool}

theorem of_int (h : ComparesNumbers eq) (n : Int) (hn : n.natAbs ≤ 2) :
    eq (doubleOfInt n) (doubleOfInt n) := by
  refine h.of_beq ?_
  obtain ⟨hlow, hhigh⟩ : -2 ≤ n ∧ n ≤ 2 := by omega
  interval_cases n <;> decide +kernel

theorem like (h : ComparesNumbers eq) {s t : Tree Float} (hst : s.sameWith eq t) :
    Tree.Like Alike s t :=
  (Tree.like_of_sameWith hst).mono fun _ _ => h.alike

end ComparesNumbers

theorem comparesNumbers_beq : ComparesNumbers Float.beq :=
  ⟨id, .inl⟩

section Values

variable [Elementary]

theorem Code.agree_apply (hE : Elementary.Respectful) {c c' : Code} {x x' y y' : Float}
    (hc : c.same c') (hx : Alike x x') (hy : Alike y y') :
    Agree Alike (c.apply x y) (c'.apply x' y') := by
  unfold Code.apply
  rw [← Code.op?_eq_of_same hc]
  cases hop : c.op? with
  | none => exact Code.eq_of_same hc hop ▸ .error _
  | some op => exact (op.agree_apply hE hx hy).mapError _

theorem Tree.Like.agree_evaluate (hE : Elementary.Respectful) {s t : Tree Float}
    (h : Like Alike s t) (values : List Float) :
    Agree Alike (s.evaluate values) (t.evaluate values) := by
  induction h with
  | num h => exact .ok h
  | var i =>
    simp only [evaluate]
    split
    · exact .ok (.refl _)
    · exact .error _
  | binary hc _ _ ihl ihr =>
    exact ihl.bind fun x x' hx => ihr.bind fun y y' hy => Code.agree_apply hE hc hx hy
  | call hc _ ih => exact ih.bind fun y y' hy => Code.agree_apply hE hc (.refl _) hy
  | foreign | missing => exact .error _

end Values

end FormulaCalculus
