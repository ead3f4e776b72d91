import FormulaCalculus.Proofs.Latex.Injective
import FormulaCalculus.Proofs.Print.ReadBack

/-!
# Minus signs in LaTeX texts

A minus right after an operator belongs to the number that the text of the right operand starts
with. The printer puts that operand in brackets if it is a negative number itself. It does not look
for a zero that is shown with a minus, nor at the first number of an operand that needs no brackets
otherwise: `signedOperand_latex_iff`.
-/

namespace FormulaCalculus.Latex

open Formula

/-! ### Texts with a minus -/

/-- A minus right before a digit. -/
def StartsMinus (cs : List Char) : Prop :=
  ∃ d tail, cs = '-' :: d :: tail ∧ Text.isDigit d

/-- A blank right before a minus of that kind. -/
def BareMinus (cs : List Char) : Prop :=
  ∃ us vs, cs = us ++ ' ' :: vs ∧ StartsMinus vs

/-- An operator right before a minus of that kind. -/
def SignedOperand (cs : List Char) : Prop :=
  ∃ op ∈ [Op.add, .sub, .mul], ∃ d, Text.isDigit d ∧ sign op ++ ['-', d] <:+: cs

/-- Neither a minus nor a digit stands at the head. -/
def Breaks (cs : List Char) : Prop :=
  ∀ c, cs.head? = some c → c ≠ '-' ∧ Text.isDigit c = false

section Texts
variable {c : Char} {cs ds : List Char} {x : Float}

theorem breaks_cons (h : c ≠ '-' ∧ Text.isDigit c = false) : Breaks (c :: cs) := by
  rintro _ ⟨⟩
  exact h

theorem not_startsMinus_nil : ¬StartsMinus [] := by
  rintro ⟨_, _, h, -⟩
  cases h

theorem not_startsMinus_cons (h : c ≠ '-') : ¬StartsMinus (c :: cs) := by
  rintro ⟨_, _, ⟨⟩, -⟩
  exact h rfl

theorem startsMinus_append (h : Breaks ds) : StartsMinus (cs ++ ds) ↔ StartsMinus cs := by
  rcases cs with _ | ⟨c, _ | ⟨d, cs⟩⟩
  · refine iff_of_false ?_ not_startsMinus_nil
    rintro ⟨_, _, rfl, -⟩
    exact (h '-' rfl).1 rfl
  · refine iff_of_false ?_ (by rintro ⟨_, _, ⟨⟩, -⟩)
    rintro ⟨d, _, ⟨⟩, hd⟩
    rw [(h d rfl).2] at hd
    cases hd
  · constructor <;> (rintro ⟨_, _, ⟨⟩, hd⟩; exact ⟨_, _, rfl, hd⟩)

theorem not_bareMinus_nil : ¬BareMinus [] := by
  rintro ⟨us, vs, h, -⟩
  exact absurd h.symm (List.append_ne_nil_of_right_ne_nil _ (List.cons_ne_nil _ _))

theorem bareMinus_cons : BareMinus (c :: cs) ↔ c = ' ' ∧ StartsMinus cs ∨ BareMinus cs := by
  constructor
  · rintro ⟨us, vs, h, hvs⟩
    rcases us with _ | ⟨_, us⟩ <;> cases h
    · exact Or.inl ⟨rfl, hvs⟩
    · exact Or.inr ⟨us, vs, rfl, hvs⟩
  · rintro (⟨rfl, h⟩ | ⟨us, vs, rfl, hvs⟩)
    · exact ⟨[], cs, rfl, h⟩
    · exact ⟨c :: us, vs, rfl, hvs⟩

theorem bareMinus_append (h : Breaks ds) : BareMinus (cs ++ ds) ↔ BareMinus cs ∨ BareMinus ds := by
  induction cs with
  | nil => exact (or_iff_right not_bareMinus_nil).symm
  | cons c cs ih =>
    rw [List.cons_append, bareMinus_cons, bareMinus_cons, startsMinus_append h, ih, or_assoc]

theorem bareMinus_append_of_notMem (h : ' ' ∉ cs) : BareMinus (cs ++ ds) ↔ BareMinus ds := by
  induction cs with
  | nil => rfl
  | cons c cs ih =>
    rw [List.mem_cons, not_or] at h
    rw [List.cons_append, bareMinus_cons, ih h.2]
    exact or_iff_right fun hc => h.1 hc.1.symm

theorem not_bareMinus_of_notMem (h : ' ' ∉ cs) : ¬BareMinus cs := by
  rw [← List.append_nil cs, bareMinus_append_of_notMem h]
  exact not_bareMinus_nil

theorem SignedOperand.mono (h : SignedOperand cs) (hcs : cs <:+: ds) : SignedOperand ds := by
  obtain ⟨op, hop, d, hd, hinfix⟩ := h
  exact ⟨op, hop, d, hd, hinfix.trans hcs⟩

theorem SignedOperand.bareMinus (h : SignedOperand cs) : BareMinus cs := by
  obtain ⟨op, -, d, hd, us, vs, rfl⟩ := h
  refine ⟨us ++ ' ' :: (symbol op).toList, '-' :: d :: vs, ?_, _, _, rfl, hd⟩
  simp only [sign, List.append_assoc, List.cons_append, List.nil_append]

theorem signedOperand_sign {op : Op} (hop : op ∈ [Op.add, .sub, .mul]) (h : StartsMinus cs) :
    SignedOperand (sign op ++ cs) := by
  obtain ⟨d, tail, rfl, hd⟩ := h
  refine ⟨op, hop, d, hd, [], tail, ?_⟩
  simp only [List.append_assoc, List.nil_append, List.cons_append]

/-! ### Numbers and names -/

/-- The number is shown with a minus. -/
def IsSigned (v : Float) : Prop :=
  v < 0 ∨ v = -0.0

section Sign
open Float.Model

theorem unpack_neg_zero : (-0.0 : Float).toModel.unpack = .zero .negative :=
  rfl

theorem isSigned_iff_of_zero {s : UnpackedFloat.Sign} (hx : x.toModel.unpack = .zero s) :
    IsSigned x ↔ s = .negative := by
  have hlt : ¬x < 0 := by
    show ¬Float.lt x 0 = true
    rw [Double.lt_eq, hx]
    exact Bool.false_ne_true
  rw [IsSigned, or_iff_right hlt]
  constructor
  · rintro rfl
    exact (UnpackedFloat.zero.inj (unpack_neg_zero.symm.trans hx)).symm
  · rintro rfl
    exact congrArg Float.ofModel (Double.pack_unpack_zero hx).symm

theorem isSigned_iff_of_finite {s : UnpackedFloat.Sign} {m : Nat} {q : Int} {hm : 0 < m}
    (hx : x.toModel.unpack = .finite s m q hm) : IsSigned x ↔ s = .negative := by
  have hzero : x ≠ -0.0 := by
    rintro rfl
    rw [unpack_neg_zero] at hx
    cases hx
  rw [IsSigned, or_iff_left hzero]
  show Float.lt x 0 = true ↔ _
  rw [Double.lt_eq, hx]
  cases s with
  | positive => exact iff_of_false Bool.false_ne_true (by rintro ⟨⟩)
  | negative => exact iff_of_true rfl rfl

end Sign

theorem notMem_of_spells (h : Spells cs x) : ' ' ∉ cs := by
  have hnumeral {cs : List Char} (h : Numeral cs) : ' ' ∉ cs :=
    fun hmem => absurd (h.isDigit_or_point _ hmem) (by decide)
  cases h with
  | plain h => exact hnumeral h
  | negative h =>
    rw [List.mem_cons]
    exact not_or.2 ⟨by decide, hnumeral h⟩

theorem not_startsMinus_numeral (h : Numeral cs) : ¬StartsMinus cs := by
  obtain ⟨c, tail, rfl, hc⟩ := h.head
  refine not_startsMinus_cons ?_
  rintro rfl
  exact absurd hc (by decide)

theorem startsMinus_numeral (h : Numeral cs) : StartsMinus ('-' :: cs) := by
  obtain ⟨c, tail, rfl, hc⟩ := h.head
  exact ⟨c, tail, rfl, hc⟩

theorem startsMinus_writeDouble {zero : List Char} {write : Nat → Int → List Char}
    (hzero : Numeral zero) (hwrite : ∀ m q, Numeral (write m q)) (h : x.isFinite) :
    StartsMinus (Decimal.writeDouble zero write x).toList ↔ IsSigned x := by
  have hfinite : x.toModel.unpack.isFinite := h
  rw [Decimal.writeDouble, String.toList_ofList]
  cases hx : x.toModel.unpack with
  | notANumber | infinity =>
    rw [hx] at hfinite
    cases hfinite
  | zero s =>
    rw [isSigned_iff_of_zero hx]
    cases s with
    | positive => exact iff_of_false (not_startsMinus_numeral hzero) (by rintro ⟨⟩)
    | negative => exact iff_of_true (startsMinus_numeral hzero) rfl
  | finite s m q hm =>
    rw [isSigned_iff_of_finite hx]
    cases s with
    | positive => exact iff_of_false (not_startsMinus_numeral (hwrite m q)) (by rintro ⟨⟩)
    | negative => exact iff_of_true (startsMinus_numeral (hwrite m q)) rfl

theorem startsMinus_plainText (precision : Option Nat) (h : x.isFinite) :
    StartsMinus (Decimal.plainText precision x).toList ↔ IsSigned x := by
  obtain ⟨write, hplain, hwrite⟩ := Decimal.plainText_eq_writeDouble precision
  rw [hplain]
  exact startsMinus_writeDouble Decimal.numeral_zero hwrite h

theorem word_shownName {names : List String} (h : ∀ name ∈ names, Word name.toList) (i : Nat) :
    Word (Equation.shownName names i).toList := by
  rw [Equation.shownName]
  cases hi : names[i]? with
  | none => exact (identifier_index i).1
  | some name => exact h name (List.mem_of_getElem? hi)

/-- The text of a name consists of its characters and of what it is set with. -/
theorem notMem_name {n : String} (h : Word n.toList) (hpart : Lexeme.isNamePart c = false)
    (hset : c ∉ "\\mathit\x7b_\x7d".toList) : c ∉ (name n).toList := by
  have hletters : c ∉ n.toList := fun hmem =>
    Bool.false_ne_true (hpart.symm.trans (isNamePart_of_word h c hmem))
  have hsubset {cs : List Char} (hcs : cs ⊆ "\\mathit\x7b_\x7d".toList) : c ∉ cs :=
    fun hmem => hset (hcs hmem)
  have hescape : c ∉ escape n.toList := by
    rw [escape, List.mem_flatMap]
    rintro ⟨d, hd, hmem⟩
    split at hmem
    · exact hsubset (by decide) hmem
    · exact hletters (List.mem_singleton.1 hmem ▸ hd)
  rcases name_cases h with ⟨d, -, hletter, hname⟩ | ⟨-, hname⟩ | hname
  · rwa [hname, ← hletter]
  · rw [hname]
    exact hsubset (by decide)
  · rw [hname, List.mem_append, List.mem_append, not_or, not_or]
    exact ⟨hsubset (by decide), hescape, hsubset (by decide)⟩

end Texts

/-! ### Pieces -/

section Pieces
variable {op : Op} {cs : List Char} {left right text : String}

theorem notMem_opening (f : Option Op) : ' ' ∉ opening f := by
  rcases f with _ | op
  · decide
  · cases op <;> decide

theorem head_opening (f : Option Op) : ∃ tail, opening f = '\\' :: tail := by
  have hhead : (opening f).head? = some '\\' := by
    rcases f with _ | op
    · rfl
    · cases op <;> rfl
  exact List.head?_eq_some_iff.1 hhead

theorem breaks_closing (f : Option Op) : Breaks (closing f) := by
  unfold closing
  split <;> exact breaks_cons (by decide)

theorem notMem_closing (f : Option Op) : ' ' ∉ closing f := by
  unfold closing
  split <;> decide

theorem bareMinus_enclosed (f : Option Op) :
    BareMinus (opening f ++ (cs ++ closing f)) ↔ BareMinus cs := by
  rw [bareMinus_append_of_notMem (notMem_opening f), bareMinus_append (breaks_closing f)]
  exact or_iff_left (not_bareMinus_of_notMem (notMem_closing f))

theorem not_startsMinus_enclosed (f : Option Op) : ¬StartsMinus (opening f ++ cs) := by
  obtain ⟨tail, htail⟩ := head_opening f
  rw [htail]
  exact not_startsMinus_cons (by decide)

theorem bareMinus_bracket : BareMinus (bracket text).toList ↔ BareMinus text.toList := by
  rw [toList_bracket, bareMinus_enclosed]

theorem not_startsMinus_bracket : ¬StartsMinus (bracket text).toList := by
  rw [toList_bracket]
  exact not_startsMinus_enclosed none

theorem breaks_sign : Breaks (sign op ++ cs) :=
  breaks_cons (by decide)

theorem bareMinus_sign (hop : op ∈ [Op.add, .sub, .mul]) :
    BareMinus (sign op ++ cs) ↔ StartsMinus cs ∨ BareMinus cs := by
  have hblank : ' ' ∉ (symbol op).toList := by
    revert op
    decide
  -- A blank ends the symbol, so the minus of a difference does not stand before a digit.
  have hsymbol : ¬StartsMinus (symbol op).toList := by
    rintro ⟨d, tail, h, -⟩
    have hshort : ∀ op ∈ [Op.add, .sub, .mul],
        (symbol op).toList.head? ≠ some '-' ∨ (symbol op).toList.length ≤ 1 := by decide
    rcases hshort op hop with hhead | hlength
    · exact hhead (by rw [h]; rfl)
    · rw [h, List.length_cons, List.length_cons] at hlength
      omega
  have htext : sign op ++ cs = ' ' :: ((symbol op).toList ++ ' ' :: cs) := by
    simp only [sign, List.append_assoc, List.cons_append, List.nil_append]
  rw [htext, bareMinus_cons, startsMinus_append (breaks_cons (by decide)),
    bareMinus_append_of_notMem hblank, bareMinus_cons, or_iff_right fun h => hsymbol h.2]
  exact or_congr_left (and_iff_right rfl)

theorem bareMinus_fraction :
    BareMinus ("\\frac" ++ group left ++ group right).toList ↔
      BareMinus left.toList ∨ BareMinus right.toList := by
  have hbrace {cs : List Char} : Breaks ('\x7d' :: cs) := breaks_cons (by decide)
  rw [toList_fraction, bareMinus_append_of_notMem (by decide), bareMinus_append hbrace,
    bareMinus_cons, bareMinus_cons, bareMinus_append hbrace]
  simp [not_bareMinus_of_notMem]

theorem bareMinus_power :
    BareMinus (left ++ "^" ++ group right).toList ↔
      BareMinus left.toList ∨ BareMinus right.toList := by
  rw [toList_power, bareMinus_append (breaks_cons (by decide)), bareMinus_cons, bareMinus_cons,
    bareMinus_append (breaks_cons (by decide))]
  simp [not_bareMinus_of_notMem]

theorem combine_eq_line (hop : op ∈ [Op.add, .sub, .mul]) (l r : Tree Float) :
    (combine op l r left right).toList =
      (leftOperand op l left).toList ++ (sign op ++ (rightOperand op r right).toList) := by
  cases op with
  | add | sub | mul => exact toList_line _ _ _
  | _ => exact absurd hop (by decide)

end Pieces

/-! ### Trees -/

/-- The number that the text of a tree starts with, if it starts with one. -/
def leadingNumber : Tree Float → Option Float
  | .num v => some v
  | .binary c l _ =>
    match c.op? with
    | some .pow => l.value?.filter fun v => !decide (v < 0)
    | some .div => none
    | some op => if binding l < op.precedence then none else leadingNumber l
    | none => none
  | _ => none

/-- A sum, difference or product of the tree has a right operand without brackets whose text starts
with the minus of a number. -/
def ExposesMinus (t : Tree Float) : Prop :=
  ∃ c l r op, .binary c l r ∈ t.preorder ∧ c.op? = some op ∧ op ∈ [Op.add, .sub, .mul] ∧
    isNegative r = false ∧ op.precedence < binding r ∧ ∃ v ∈ leadingNumber r, IsSigned v

section Trees
variable {names : List String} {precision : Option Nat} {c : Code} {op : Op} {t l r : Tree Float}
  {text left right : String}

theorem ExposesMinus.mono (h : ExposesMinus l) (ht : l.preorder ⊆ t.preorder) : ExposesMinus t := by
  obtain ⟨c, x, y, op, hmem, hexposed⟩ := h
  exact ⟨c, x, y, op, ht hmem, hexposed⟩

theorem not_isSigned_none : ¬∃ v ∈ (none : Option Float), IsSigned v := by
  rintro ⟨_, ⟨⟩, -⟩

theorem startsMinus_leftOperand
    (h : StartsMinus text.toList ↔ ∃ v ∈ leadingNumber l, IsSigned v) :
    StartsMinus (leftOperand op l text).toList ↔
      ∃ v ∈ (if binding l < op.precedence then none else leadingNumber l), IsSigned v := by
  unfold leftOperand
  split_ifs
  · exact iff_of_false not_startsMinus_bracket not_isSigned_none
  · exact h

theorem startsMinus_rightOperand
    (h : StartsMinus text.toList ↔ ∃ v ∈ leadingNumber r, IsSigned v) :
    StartsMinus (rightOperand op r text).toList ↔
      isNegative r = false ∧ op.precedence < binding r ∧ ∃ v ∈ leadingNumber r, IsSigned v := by
  rw [← h, ← Bool.not_eq_true, ← Nat.not_le, ← and_assoc, ← not_or]
  unfold rightOperand
  simp only [Bool.or_eq_true, decide_eq_true_eq]
  split_ifs with hbracket
  · exact iff_of_false not_startsMinus_bracket fun h => h.1 hbracket
  · exact (and_iff_right hbracket).symm

theorem startsMinus_powerBase (hl : l.WellFormed)
    (h : StartsMinus text.toList ↔ ∃ v ∈ leadingNumber l, IsSigned v) :
    StartsMinus (powerBase l text).toList ↔
      ∃ v ∈ l.value?.filter fun v => !decide (v < 0), IsSigned v := by
  cases l with
  | num v =>
    rw [powerBase]
    split_ifs with hv
    · exact iff_of_false not_startsMinus_bracket (by simp [Tree.value?, hv])
    · rw [h]
      simp [Tree.value?, hv, leadingNumber]
  | var => exact h
  | binary | call => exact iff_of_false not_startsMinus_bracket not_isSigned_none
  | foreign | missing => exact hl.elim

theorem bareMinus_operand (p : Prop) [Decidable p] :
    BareMinus (if p then bracket text else text).toList ↔ BareMinus text.toList := by
  split_ifs
  · exact bareMinus_bracket
  · rfl

theorem bareMinus_powerBase (l : Tree Float) :
    BareMinus (powerBase l text).toList ↔ BareMinus text.toList := by
  cases l with
  | num v => exact bareMinus_operand (v < 0)
  | var => rfl
  | _ => exact bareMinus_bracket

/-- The text of a tree starts with a minus just if it starts with a number that does. -/
theorem startsMinus_latexText (ht : t.WellFormed) (hnames : ∀ name ∈ names, Word name.toList)
    (hfinite : ∀ x, .num x ∈ t.numbers → x.isFinite) :
    StartsMinus (t.latexText (.of names precision)).toList ↔ ∃ v ∈ leadingNumber t, IsSigned v := by
  induction t with
  | num v =>
    have hv := startsMinus_plainText precision (hfinite v (Tree.mem_numbers_num.2 rfl))
    refine hv.trans ⟨fun h => ⟨v, rfl, h⟩, ?_⟩
    rintro ⟨_, ⟨⟩, h⟩
    exact h
  | var i =>
    refine iff_of_false ?_ not_isSigned_none
    have hminus := notMem_name (word_shownName hnames i) (c := '-') (by decide) (by decide)
    rintro ⟨d, tail, h, -⟩
    exact hminus (h ▸ List.mem_cons_self)
  | binary c l r ihl ihr =>
    obtain ⟨hc, hl, -⟩ := ht
    obtain ⟨op, hop, hbin⟩ := Code.op?_of_isBinary hc
    have hleft := ihl hl (Tree.forall_numbers_binary.1 hfinite).1
    rw [Tree.latexText, hop, Option.elim_some]
    simp only [leadingNumber, hop]
    cases op with
    | add | sub | mul =>
      rw [combine_eq_line (by decide), startsMinus_append breaks_sign]
      exact startsMinus_leftOperand hleft
    | div =>
      rw [combine, toList_fraction]
      exact iff_of_false (not_startsMinus_cons (by decide)) not_isSigned_none
    | pow =>
      rw [combine, toList_power, startsMinus_append (breaks_cons (by decide))]
      exact startsMinus_powerBase hl hleft
    | _ => cases hbin
  | call c x ih =>
    obtain ⟨op, hop, -⟩ := Code.op?_of_isFunction ht.1
    rw [Tree.latexText, hop, Option.elim_some, toList_apply]
    exact iff_of_false (not_startsMinus_enclosed (some op)) not_isSigned_none
  | foreign | missing => exact ht.elim

theorem exposesMinus_of_bareMinus (ht : t.WellFormed) (hnames : ∀ name ∈ names, Word name.toList)
    (hfinite : ∀ x, .num x ∈ t.numbers → x.isFinite)
    (h : BareMinus (t.latexText (.of names precision)).toList) : ExposesMinus t := by
  induction t with
  | num v =>
    obtain ⟨y, hy⟩ :=
      Decimal.exists_spells_plainText precision (hfinite v (Tree.mem_numbers_num.2 rfl))
    exact absurd h (not_bareMinus_of_notMem (notMem_of_spells hy))
  | var i =>
    have hblank := notMem_name (word_shownName hnames i) (c := ' ') (by decide) (by decide)
    exact absurd h (not_bareMinus_of_notMem hblank)
  | binary c l r ihl ihr =>
    obtain ⟨hc, hl, hr⟩ := ht
    obtain ⟨op, hop, hbin⟩ := Code.op?_of_isBinary hc
    obtain ⟨hfinitel, hfiniter⟩ := Tree.forall_numbers_binary.1 hfinite
    have hinl (h : BareMinus (l.latexText (.of names precision)).toList) :
        ExposesMinus (.binary c l r) :=
      (ihl hl hfinitel h).mono fun _ hmem => List.mem_cons_of_mem _ (List.mem_append_left _ hmem)
    have hinr (h : BareMinus (r.latexText (.of names precision)).toList) :
        ExposesMinus (.binary c l r) :=
      (ihr hr hfiniter h).mono fun _ hmem => List.mem_cons_of_mem _ (List.mem_append_right _ hmem)
    have hline (hsign : op ∈ [Op.add, .sub, .mul])
        (h : BareMinus (combine op l r (l.latexText (.of names precision))
          (r.latexText (.of names precision))).toList) : ExposesMinus (.binary c l r) := by
      rw [combine_eq_line hsign, bareMinus_append breaks_sign, bareMinus_sign hsign, leftOperand,
        bareMinus_operand,
        startsMinus_rightOperand (startsMinus_latexText hr hnames hfiniter), rightOperand,
        bareMinus_operand] at h
      rcases h with h | h | h
      · exact hinl h
      · exact ⟨c, l, r, op, List.mem_cons_self, hop, hsign, h⟩
      · exact hinr h
    rw [Tree.latexText, hop, Option.elim_some] at h
    cases op with
    | add | sub | mul => exact hline (by decide) h
    | div => exact (bareMinus_fraction.1 h).elim hinl hinr
    | pow =>
      rw [combine, bareMinus_power, bareMinus_powerBase] at h
      exact h.elim hinl hinr
    | _ => cases hbin
  | call c x ih =>
    obtain ⟨op, hop, -⟩ := Code.op?_of_isFunction ht.1
    rw [Tree.latexText, hop, Option.elim_some, toList_apply, bareMinus_enclosed] at h
    exact (ih ht.2 (Tree.forall_numbers_call.1 hfinite) h).mono
      fun _ hmem => List.mem_cons_of_mem _ hmem
  | foreign | missing => exact ht.elim

theorem infix_bracket : text.toList <:+: (bracket text).toList := by
  rw [toList_bracket]
  exact List.infix_append' _ _ _

theorem infix_operand (p : Prop) [Decidable p] :
    text.toList <:+: (if p then bracket text else text).toList := by
  split_ifs
  · exact infix_bracket
  · exact List.infix_rfl

theorem infix_powerBase (l : Tree Float) : text.toList <:+: (powerBase l text).toList := by
  cases l with
  | num v => exact infix_operand (v < 0)
  | var => exact List.infix_rfl
  | _ => exact infix_bracket

theorem infix_combine (hop : op.isBinary) (l r : Tree Float) :
    left.toList <:+: (combine op l r left right).toList ∧
      right.toList <:+: (combine op l r left right).toList := by
  have hline (hsign : op ∈ [Op.add, .sub, .mul]) :
      left.toList <:+: (combine op l r left right).toList ∧
        right.toList <:+: (combine op l r left right).toList := by
    rw [combine_eq_line hsign]
    exact ⟨(infix_operand _).trans (List.prefix_append _ _).isInfix, (infix_operand _).trans
      ((List.suffix_append _ _).trans (List.suffix_append _ _)).isInfix⟩
  cases op with
  | add | sub | mul => exact hline (by decide)
  | div =>
    rw [combine, toList_fraction]
    exact ⟨List.infix_append' _ _ _,
      "\\frac\x7b".toList ++ (left.toList ++ ['\x7d', '\x7b']), ['\x7d'], by
        simp only [List.append_assoc, List.cons_append, List.nil_append]⟩
  | pow =>
    rw [combine, toList_power]
    exact ⟨(infix_powerBase l).trans (List.prefix_append _ _).isInfix,
      (powerBase l left).toList ++ ['^', '\x7b'], ['\x7d'], by
        simp only [List.append_assoc, List.cons_append, List.nil_append]⟩
  | _ => cases hop

theorem signedOperand_of_exposesMinus (ht : t.WellFormed)
    (hnames : ∀ name ∈ names, Word name.toList) (hfinite : ∀ x, .num x ∈ t.numbers → x.isFinite)
    (h : ExposesMinus t) : SignedOperand (t.latexText (.of names precision)).toList := by
  induction t with
  | num | var =>
    obtain ⟨c, l, r, op, hmem, -⟩ := h
    cases List.mem_singleton.1 hmem
  | binary c l r ihl ihr =>
    obtain ⟨hc, hl, hr⟩ := ht
    obtain ⟨op, hop, hbin⟩ := Code.op?_of_isBinary hc
    obtain ⟨hfinitel, hfiniter⟩ := Tree.forall_numbers_binary.1 hfinite
    rw [Tree.latexText, hop, Option.elim_some]
    obtain ⟨c', l', r', op', hmem, hop', hsign, hexposed⟩ := h
    rcases List.mem_cons.1 hmem with hroot | hmem
    · cases hroot
      obtain rfl := Option.some.inj (hop.symm.trans hop')
      rw [combine_eq_line hsign]
      exact (signedOperand_sign hsign ((startsMinus_rightOperand
        (startsMinus_latexText hr hnames hfiniter)).2 hexposed)).mono
        (List.suffix_append _ _).isInfix
    rcases List.mem_append.1 hmem with hmem | hmem
    · exact (ihl hl hfinitel ⟨c', l', r', op', hmem, hop', hsign, hexposed⟩).mono
        (infix_combine hbin l r).1
    · exact (ihr hr hfiniter ⟨c', l', r', op', hmem, hop', hsign, hexposed⟩).mono
        (infix_combine hbin l r).2
  | call c x ih =>
    obtain ⟨op, hop, -⟩ := Code.op?_of_isFunction ht.1
    obtain ⟨c', l', r', op', hmem, hexposed⟩ := h
    rw [Tree.latexText, hop, Option.elim_some, toList_apply]
    rcases List.mem_cons.1 hmem with hroot | hmem
    · cases hroot
    · exact (ih ht.2 (Tree.forall_numbers_call.1 hfinite) ⟨c', l', r', op', hmem, hexposed⟩).mono
        (List.infix_append' _ _ _)
  | foreign | missing => exact ht.elim

end Trees

/-- An operator of the text stands right before the minus of a number just if it is the operator of
a sum, difference or product whose right operand is no negative number, needs no brackets, and
starts with a number that is negative or the negative zero. -/
theorem signedOperand_latex_iff {names : List String} {precision : Option Nat} {t : Tree Float}
    {text : String} (ht : t.WellFormed) (hnames : ∀ name ∈ names, Word name.toList)
    (hfinite : ∀ x, .num x ∈ t.numbers → x.isFinite)
    (h : t.latex? (.of names precision) = .ok text) :
    SignedOperand text.toList ↔ ExposesMinus t := by
  obtain rfl := latexText_of_latex? h
  exact ⟨fun h => exposesMinus_of_bareMinus ht hnames hfinite h.bareMinus,
    signedOperand_of_exposesMinus ht hnames hfinite⟩

/-- The zero of `x + -0` is no negative number, but it is shown with a minus. -/
theorem signedOperand_latex_zero :
    let t : Tree Float := .add (.var 0) (.num (-0.0))
    t.WellFormed ∧ (∀ name ∈ ["x"], Word name.toList) ∧
      (∀ x, .num x ∈ t.numbers → x.isFinite) ∧ t.latex? (.of ["x"] none) = .ok "x + -0" ∧
      SignedOperand "x + -0".toList := by
  intro t
  have hnames : ∀ name ∈ ["x"], Word name.toList := by decide
  have hfinite : ∀ x, .num x ∈ t.numbers → x.isFinite := by
    intro x hx
    obtain rfl : x = -0.0 := by
      simpa [t, Tree.add, Tree.mem_numbers_binary, Tree.numbers, Tree.preorder, Tree.isNumber]
        using hx
    decide +kernel
  have hlatex : t.latex? (.of ["x"] none) = .ok "x + -0" := by decide +kernel
  have hexposed : ExposesMinus t :=
    ⟨_, _, _, .add, List.mem_cons_self, rfl, by decide, by decide +kernel, by decide, _, rfl,
      Or.inr rfl⟩
  exact ⟨by decide, hnames, hfinite, hlatex,
    (signedOperand_latex_iff (by decide) hnames hfinite hlatex).2 hexposed⟩

/-- The right operand of `x + -1 * x` needs no brackets, and starts with a negative number. -/
theorem signedOperand_latex_product :
    let t : Tree Float := .add (.var 0) (.mul (.num (-1)) (.var 0))
    t.WellFormed ∧ (∀ x, .num x ∈ t.numbers → x.isFinite) ∧
      t.latex? (.of ["x"] none) = .ok "x + -1 \\cdot x" ∧
      SignedOperand "x + -1 \\cdot x".toList := by
  intro t
  refine ⟨by decide, fun x hx => ?_, by decide +kernel, .add, by decide, '1', by decide, ['x'],
    " \\cdot x".toList, by decide⟩
  obtain rfl : x = -1 := by
    simpa [t, Tree.add, Tree.mul, Tree.mem_numbers_binary, Tree.numbers, Tree.preorder,
      Tree.isNumber] using hx
  decide +kernel

end FormulaCalculus.Latex
