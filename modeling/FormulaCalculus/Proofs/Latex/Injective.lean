import FormulaCalculus.Proofs.Decimal.PlainText
import FormulaCalculus.Proofs.Double.Alike
import FormulaCalculus.Proofs.Latex.Unambiguous
import FormulaCalculus.Proofs.Print.Minimal
import FormulaCalculus.Proofs.Tree.Copy

/-!
# Trees are told apart by their LaTeX text

`same_of_latex_eq`: well-formed trees over one table that have the same LaTeX text are equal. The
text of a tree is one of the texts of the grammar, so it determines what the tree says.
-/

namespace FormulaCalculus.Latex

open Formula

/-- What a tree says over a table: its variables go by their names, and numbers of operators stand
for the operators. -/
inductive Means (names : List String) : Tree Float → Phrase → Prop
  | num (x : Float) : Means names (.num x) (.number x)
  | var {i : Nat} {name : String} (h : names[i]? = some name) : Means names (.var i) (.ident name)
  | binary {c : Code} {op : Op} {l r : Tree Float} {p q : Phrase} (hop : c.op? = some op)
    (hbin : op.isBinary) (hl : Means names l p) (hr : Means names r q) :
    Means names (.binary c l r) (.binary op p q)
  | call {c : Code} {op : Op} {x : Tree Float} {p : Phrase} (hop : c.op? = some op)
    (hfun : op.isFunction) (hx : Means names x p) : Means names (.call c x) (.call op p)

section Means
variable {names : List String} {s t : Tree Float} {p : Phrase}

theorem exists_means (ht : t.WellFormed) (hindices : ∀ i ∈ t.indices, i < names.length) :
    ∃ p, Means names t p := by
  induction t with
  | num x => exact ⟨_, .num x⟩
  | var i => exact ⟨_, .var (List.getElem?_eq_getElem (hindices i List.mem_cons_self))⟩
  | binary c l r ihl ihr =>
    obtain ⟨hc, hl, hr⟩ := ht
    obtain ⟨op, hop, hbin⟩ := Code.op?_of_isBinary hc
    obtain ⟨p, hp⟩ := ihl hl fun i hi => hindices i (Tree.mem_indices_binary.2 (Or.inl hi))
    obtain ⟨q, hq⟩ := ihr hr fun i hi => hindices i (Tree.mem_indices_binary.2 (Or.inr hi))
    exact ⟨_, .binary hop hbin hp hq⟩
  | call c x ih =>
    obtain ⟨hc, hx⟩ := ht
    obtain ⟨op, hop, hfun⟩ := Code.op?_of_isFunction hc
    obtain ⟨p, hp⟩ := ih hx fun i hi => hindices i (Tree.mem_indices_call.2 hi)
    exact ⟨_, .call hop hfun hp⟩
  | foreign kind text => exact ht.elim
  | missing => exact ht.elim

theorem same_of_op? {c c' : Code} {op : Op} (h : c.op? = some op) (h' : c'.op? = some op) :
    c.same c' = true := by
  simp only [Code.same, h, h', beq_self_eq_true]

/-- Trees that say the same are equal, since no name stands twice in the table. -/
theorem Means.same (hs : Means names s p) (ht : Means names t p) (hnames : names.Nodup)
    (hfinite : ∀ x, .num x ∈ s.numbers → x.isFinite) : s.same t := by
  induction hs generalizing t with
  | num x =>
    cases ht
    exact Double.beq_self_of_isFinite (hfinite x (Tree.mem_numbers_num.2 rfl))
  | var hi =>
    cases ht with
    | var hj =>
      obtain ⟨hlt, rfl⟩ := List.getElem?_eq_some_iff.1 hi
      obtain rfl := (List.getElem?_inj hlt hnames).1 (hi.trans hj.symm)
      exact beq_self_eq_true _
  | binary hop _ _ _ ihl ihr =>
    cases ht with
    | binary hop' _ hl' hr' =>
      simp only [Tree.same, Tree.sameWith, same_of_op? hop hop', Bool.true_and, Bool.and_eq_true]
      obtain ⟨hfinitel, hfiniter⟩ := Tree.forall_numbers_binary.1 hfinite
      exact ⟨ihl hl' hfinitel, ihr hr' hfiniter⟩
  | call hop _ _ ih =>
    cases ht with
    | call hop' _ hx' =>
      simp only [Tree.same, Tree.sameWith, same_of_op? hop hop', Bool.true_and]
      exact ih hx' (Tree.forall_numbers_call.1 hfinite)

end Means

/-! ### Pieces of a text -/

/-- The tightest level that a phrase is typeset on without brackets around it. -/
def levelIn : Phrase → Level
  | .binary .div _ _ => .primary
  | p => p.level

section Pieces
variable {names : List String} {op : Op} {t : Tree Float} {p q : Phrase} {l : Level}
  {text left right : String}

theorem toList_group (text : String) :
    (group text).toList = '\x7b' :: (text.toList ++ ['\x7d']) := by
  simp only [group, String.toList_append, List.append_assoc]
  rfl

theorem toList_bracket (text : String) :
    (bracket text).toList = opening none ++ (text.toList ++ closing none) := by
  rw [bracket, String.toList_append, String.toList_append, List.append_assoc]
  rfl

theorem typesets_bracket (h : Typesets (.whole l) text.toList p) :
    Typesets (.whole .primary) (bracket text).toList p := by
  rw [toList_bracket]
  exact h.bracket

theorem Means.binding_eq (h : Means names t p) : binding t = (levelIn p).rank + 1 := by
  cases h with
  | num | var | call => rfl
  | @binary c op _ _ _ _ hop =>
    simp only [binding, Code.precedence, hop, Option.elim_some]
    cases op <;> rfl

theorem Means.leftOperand (h : Means names t p)
    (htext : Typesets (.whole (levelIn p)) text.toList p) (op : Op) :
    Typesets (.whole (levelOf op)) (leftOperand op t text).toList p := by
  unfold Latex.leftOperand
  rw [h.binding_eq, precedence_eq]
  split_ifs with hlt
  · exact (typesets_bracket htext).weaken (Level.rank_le_primary _)
  · exact htext.weaken (by omega)

theorem Means.rightOperand (h : Means names t p)
    (htext : Typesets (.whole (levelIn p)) text.toList p) (hop : op.isBinary) :
    Typesets (.whole (levelOf op).next) (rightOperand op t text).toList p := by
  unfold Latex.rightOperand
  rw [h.binding_eq, precedence_eq]
  split_ifs with hle
  · exact (typesets_bracket htext).weaken (Level.rank_le_primary _)
  · refine htext.weaken ?_
    rw [Bool.or_eq_true, decide_eq_true_eq, not_or] at hle
    rw [rank_next_levelOf hop]
    omega

theorem Means.powerBase (h : Means names t p)
    (htext : Typesets (.whole (levelIn p)) text.toList p) :
    Typesets (.whole .primary) (powerBase t text).toList p := by
  unfold Latex.powerBase
  cases h with
  | num =>
    dsimp only
    split
    · exact typesets_bracket htext
    · exact htext
  | var => exact htext
  | binary | call => exact typesets_bracket htext

theorem toList_apply (op : Op) (text : String) :
    (apply op text).toList = opening (some op) ++ (text.toList ++ closing (some op)) := by
  unfold Latex.apply
  split_ifs with hop
  · subst hop
    rw [String.toList_append, toList_group]
    rfl
  · have hopening : opening (some op) = (function op ++ "\\left(").toList := by
      cases op <;> first | rfl | exact absurd rfl hop
    rw [hopening, closing, if_neg (by simpa using hop), bracket]
    simp only [String.toList_append, List.append_assoc]

theorem typesets_apply (hf : op.isFunction) (h : Typesets (.whole l) text.toList p) :
    Typesets (.whole .primary) (apply op text).toList (.call op p) := by
  rw [toList_apply]
  exact .enclosed (some op) hf (h.weaken (Nat.zero_le _))

theorem toList_line (op : Op) (left right : String) :
    (left ++ " " ++ symbol op ++ " " ++ right).toList =
      left.toList ++ (sign op ++ right.toList) := by
  simp only [String.toList_append, sign, List.append_assoc, List.cons_append]
  rfl

theorem toList_fraction (left right : String) : ("\\frac" ++ group left ++ group right).toList =
    "\\frac\x7b".toList ++ (left.toList ++ '\x7d' :: '\x7b' :: (right.toList ++ ['\x7d'])) := by
  simp only [String.toList_append, toList_group, List.append_assoc, List.cons_append]
  rfl

theorem toList_power (left right : String) : (left ++ "^" ++ group right).toList =
    left.toList ++ '^' :: '\x7b' :: (right.toList ++ '\x7d' :: []) := by
  simp only [String.toList_append, toList_group, List.append_assoc]
  rfl

theorem typesets_combine {s : Tree Float} (hop : op.isBinary) (hs : Means names s p)
    (ht : Means names t q) (hleft : Typesets (.whole (levelIn p)) left.toList p)
    (hright : Typesets (.whole (levelIn q)) right.toList q) :
    Typesets (.whole (levelIn (.binary op p q))) (combine op s t left right).toList
      (.binary op p q) := by
  have hline (hmem : op ∈ lineOperators (levelOf op)) : Typesets (.whole (levelOf op))
      (leftOperand op s left ++ " " ++ symbol op ++ " " ++ rightOperand op t right).toList
      (.binary op p q) := by
    rw [toList_line]
    exact (hs.leftOperand hleft op).join hmem (ht.rightOperand hright hop)
  cases op with
  | add | sub | mul => exact hline (by decide)
  | div =>
    rw [combine, toList_fraction]
    exact .fraction (hleft.weaken (Nat.zero_le _)) (hright.weaken (Nat.zero_le _))
  | pow =>
    rw [combine, toList_power]
    exact .chain nofun (hs.powerBase hleft) (.power (hright.weaken (Nat.zero_le _)) .stop)
  | _ => cases hop

end Pieces

/-! ### Whole texts -/

section Texts
variable {names : List String} {s t : Tree Float} {p : Phrase} {text : String}

theorem Means.typesets (h : Means names t p) (hnames : ∀ name ∈ names, Word name.toList)
    (hfinite : ∀ x, .num x ∈ t.numbers → x.isFinite) :
    Typesets (.whole (levelIn p)) (t.latexText (.of names none)).toList p := by
  induction h with
  | num x => exact .number (Decimal.spells_plainText (hfinite x (Tree.mem_numbers_num.2 rfl)))
  | @var i name hi =>
    have hname : (Style.of names none).name i = name := by
      simp only [Style.of, Equation.shownName, hi, Option.getD_some]
    rw [Tree.latexText, hname]
    exact .ident (hnames name (List.mem_of_getElem? hi))
  | binary hop hbin hl hr ihl ihr =>
    obtain ⟨hfinitel, hfiniter⟩ := Tree.forall_numbers_binary.1 hfinite
    rw [Tree.latexText, hop, Option.elim_some]
    exact typesets_combine hbin hl hr (ihl hfinitel) (ihr hfiniter)
  | call hop hfun _ ih =>
    rw [Tree.latexText, hop, Option.elim_some]
    exact typesets_apply hfun (ih (Tree.forall_numbers_call.1 hfinite))

theorem latexText_of_latex? {s : Style} (h : t.latex? s = .ok text) : t.latexText s = text := by
  unfold Tree.latex? at h
  cases hcheck : t.checkLatex with
  | error f => simp only [hcheck, bind, Except.bind] at h; split at h <;> cases h
  | ok u =>
    simp only [hcheck, bind, Except.bind] at h
    split at h
    · cases h
    · exact Except.ok.inj h

theorem typesets_of_latex? (ht : t.WellFormed) (hindices : ∀ i ∈ t.indices, i < names.length)
    (hnames : ∀ name ∈ names, Word name.toList)
    (hfinite : ∀ x, .num x ∈ t.numbers → x.isFinite)
    (h : t.latex? (.of names none) = .ok text) :
    ∃ p, Means names t p ∧ Typesets (.whole .sum) text.toList p := by
  obtain ⟨p, hp⟩ := exists_means ht hindices
  have := (hp.typesets hnames hfinite).weaken (k := .sum) (Nat.zero_le _)
  rw [latexText_of_latex? h] at this
  exact ⟨p, hp, this⟩

/-- Well-formed trees over one table of names that have the same LaTeX text are equal. -/
theorem same_of_latex_eq (hdistinct : names.Nodup) (hnames : ∀ name ∈ names, Word name.toList)
    (hs : s.WellFormed) (ht : t.WellFormed) (hsindices : ∀ i ∈ s.indices, i < names.length)
    (htindices : ∀ i ∈ t.indices, i < names.length)
    (hsfinite : ∀ x, .num x ∈ s.numbers → x.isFinite)
    (htfinite : ∀ x, .num x ∈ t.numbers → x.isFinite)
    (hstext : s.latex? (.of names none) = .ok text)
    (httext : t.latex? (.of names none) = .ok text) : s.same t := by
  obtain ⟨p, hsp, hp⟩ := typesets_of_latex? hs hsindices hnames hsfinite hstext
  obtain ⟨q, htq, hq⟩ := typesets_of_latex? ht htindices hnames htfinite httext
  obtain ⟨-, rfl⟩ := hp.unique hq (.finish) (.finish) rfl
  exact hsp.same htq hdistinct hsfinite

end Texts

/-- `(x-(-2))^sin(y_1)` and the same tree with the numbers of its operators. -/
theorem same_of_latex_eq_codes :
    let names := ["x", "y_1"]
    let s : Tree Float := .pow (.sub (.var 0) (.num (-2))) (.call (.op .sin) (.var 1))
    let t : Tree Float := .binary (.number 4) (.binary (.number 1) (.var 0) (.num (-2)))
      (.call (.number 8) (.var 1))
    let text :=
      "\\left(x - \\left(-2\\right)\\right)^\x7b\\sin\\left(\\mathit\x7by\\_1\x7d\\right)\x7d"
    s.latex? (.of names none) = .ok text ∧ t.latex? (.of names none) = .ok text ∧ s.same t := by
  intro names s t text
  have hstext : s.latex? (.of names none) = .ok text := by decide +kernel
  have httext : t.latex? (.of names none) = .ok text := by decide +kernel
  have hfinite (c c' c'' : Code) (x : Float) (hx : .num x ∈ (Tree.binary c
      (.binary c' (.var 0) (.num (-2))) (.call c'' (.var 1))).numbers) : x.isFinite := by
    obtain rfl : x = -2 := by
      simpa [Tree.mem_numbers_binary, Tree.mem_numbers_call, Tree.numbers, Tree.preorder,
        Tree.isNumber] using hx
    decide +kernel
  exact ⟨hstext, httext, same_of_latex_eq (by decide) (by decide) (by decide) (by decide)
    (by decide) (by decide) (hfinite _ _ _) (hfinite _ _ _) hstext httext⟩

end FormulaCalculus.Latex
