import FormulaCalculus.Print.Infix
import FormulaCalculus.Proofs.Formula.Grammar
import FormulaCalculus.Proofs.Formula.Scanning

/-!
# Printed text in the grammar

`Says s t p`: a style shows the tree as the phrase. `Prints l p d cs`: wherever the text stands, its
tokens derive the phrase from the level with at most `d` open brackets. Printed texts are put
together of such texts.
-/

namespace FormulaCalculus

namespace Formula

/-- The text of a number, with the number that it denotes. -/
inductive Spells : List Char → Float → Prop
  | plain {cs : List Char} (h : Numeral cs) : Spells cs (Decimal.readLiteral cs)
  | negative {cs : List Char} (h : Numeral cs) : Spells ('-' :: cs) (-Decimal.readLiteral cs)

/-- The name of a variable. -/
def Identifier (name : String) : Prop :=
  Word name.toList ∧ Op.function? name = none

/-- The tree is shown as the phrase. -/
inductive Says (s : Style) : Tree Float → Phrase → Prop
  | num {x y : Float} (h : Spells (s.number x).toList y) : Says s (.num x) (.number y)
  | var {i : Nat} (h : Identifier (s.name i)) : Says s (.var i) (.ident (s.name i))
  | binary {c : Code} {op : Op} {l r : Tree Float} {p q : Phrase} (hop : c.op? = some op)
    (hbin : op.isBinary) (hl : Says s l p) (hr : Says s r q) :
    Says s (.binary c l r) (.binary op p q)
  | call {c : Code} {op : Op} {x : Tree Float} {p : Phrase} (hop : c.op? = some op)
    (hfun : op.isFunction) (hx : Says s x p) : Says s (.call c x) (.call op p)

/-! ### Levels -/

theorem precedence_eq (op : Op) : op.precedence = (levelOf op).rank + 1 := by
  cases op <;> rfl

/-- The tightest level that a phrase derives from without brackets around it. -/
def Phrase.level : Phrase → Level
  | .binary op _ _ => levelOf op
  | _ => .primary

theorem Level.rank_le_primary (l : Level) : l.rank ≤ Level.primary.rank := by
  cases l <;> decide

/-- A phrase of a level is an operand of the looser ones too. -/
theorem Derives.weaken {k l : Level} {ts : List Token} {p : Phrase} (h : Derives l ts p)
    (hk : k.rank ≤ l.rank) : Derives k ts p := by
  cases k <;> cases l <;> first
    | exact h
    | exact .descend h
    | exact .descend (.descend h)
    | exact .descend (.descend (.descend h))
    | exact absurd hk (by decide)

/-! ### Texts -/

def Prints (l : Level) (p : Phrase) (d : Nat) (cs : List Char) : Prop :=
  ∀ position, ∃ ts, Scans cs position ts ∧ Derives l ts p ∧ OpenAtMost d ts

section Prints
variable {k l : Level} {p q : Phrase} {d d' : Nat} {cs ds : List Char}

theorem Prints.weaken (h : Prints l p d cs) (hk : k.rank ≤ l.rank) (hd : d ≤ d') :
    Prints k p d' cs := by
  intro position
  obtain ⟨ts, hs, hp, ho⟩ := h position
  exact ⟨ts, hs, hp.weaken hk, ho.mono (by omega)⟩

theorem openAtMost_singleton {t : Token} (h : excessOf t = 0) : OpenAtMost 0 [t] := by
  rw [OpenAtMost.cons_iff, h, Int.sub_zero, OpenAtMost.nil_iff]
  exact ⟨Int.le_refl 0, Int.le_refl 0⟩

theorem Spells.prints {x : Float} (h : Spells cs x) : Prints .primary (.number x) 0 cs := by
  intro position
  cases h with
  | plain h => exact ⟨_, h.scans, .number rfl, openAtMost_singleton rfl⟩
  | negative h =>
    refine ⟨_, h.scans_negative, .negative rfl rfl rfl, ?_⟩
    exact OpenAtMost.cons_iff.2 ⟨Int.le_refl 0, openAtMost_singleton rfl⟩

theorem Identifier.prints {name : String} (h : Identifier name) :
    Prints .primary (.ident name) 0 name.toList := by
  intro position
  refine ⟨_, h.1.scans, ?_, openAtMost_singleton rfl⟩
  have := Derives.ident (t := ⟨.name name.toList, position⟩) rfl
    (by rw [String.ofList_toList]; exact h.2)
  rwa [String.ofList_toList] at this

theorem Prints.bracket (h : Prints l p d cs) :
    Prints .primary p (d + 1) ('(' :: (cs ++ [')'])) := by
  intro position
  obtain ⟨ts, hs, hp, ho⟩ := h (position + 1)
  refine ⟨_, hs.bracket, .group rfl rfl (hp.weaken (Nat.zero_le _)), ?_⟩
  rw [OpenAtMost.bracket_iff rfl rfl hp.balanced]
  exact ho.mono (by omega)

theorem word_symbol {op : Op} (h : op.isFunction) : Word op.symbol.toList := by
  cases op <;> first | decide | cases h

theorem function?_symbol {op : Op} (h : op.isFunction) : Op.function? op.symbol = some op := by
  rw [Op.function?, Op.ofSymbol?_symbol, Option.filter_some, if_pos h]

theorem Prints.call {op : Op} (hfun : op.isFunction) (h : Prints l p d cs) :
    Prints .primary (.call op p) (d + 1) (op.symbol.toList ++ '(' :: (cs ++ [')'])) := by
  intro position
  obtain ⟨ts, hs, hp, ho⟩ := h (position + op.symbol.toList.length + 1)
  refine ⟨_, (word_symbol hfun).scans_call hs, .call rfl ?_ rfl rfl (hp.weaken (Nat.zero_le _)), ?_⟩
  · rw [String.ofList_toList]
    exact function?_symbol hfun
  · rw [OpenAtMost.cons_iff, show excessOf _ = 0 from rfl,
      OpenAtMost.bracket_iff rfl rfl hp.balanced]
    have := ho.nonneg
    exact ⟨by omega, ho.mono (by omega)⟩

theorem Prints.binary {op : Op} (hop : op.isBinary) (hl : Prints (levelOf op) p d cs)
    (hr : Prints (levelOf op).next q d ds) : Prints (levelOf op) (.binary op p q) d
      (cs ++ ' ' :: (op.symbol.toList ++ ' ' :: ds)) := by
  intro position
  obtain ⟨ts, hs, hp, ho⟩ := hl position
  obtain ⟨us, hs', hq, ho'⟩ := hr (position + cs.length + 3)
  have hmem : op ∈ (levelOf op).operators := Level.mem_operators_iff.2 ⟨hop, rfl⟩
  refine ⟨_, hs.binary hop hs', .join hmem rfl hp hq, ?_⟩
  rw [OpenAtMost.join_iff rfl hp.balanced]
  exact ⟨ho, ho'⟩

end Prints

end Formula

end FormulaCalculus
