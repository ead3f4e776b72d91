import FormulaCalculus.Proofs.Formula.Acceptance
import FormulaCalculus.Proofs.Print.Spelling

/-!
# Minimal text

The brackets of the minimal text are the ones that the levels of the grammar call for, so its tokens
derive the phrase that the tree says. No formula for a phrase nests its brackets less deeply, hence
what was read under a limit is read back under it.
-/

namespace FormulaCalculus

namespace Formula

/-- How many brackets an operand of a level needs around it. -/
def Phrase.wrap (l : Level) (p : Phrase) : Nat :=
  if p.level.rank < l.rank then 1 else 0

/-- How deeply the brackets of the minimal text nest. -/
def Phrase.nest : Phrase → Nat
  | .number _ => 0
  | .ident _ => 0
  | .binary op p q => max (p.nest + p.wrap (levelOf op)) (q.nest + q.wrap (levelOf op).next)
  | .call _ p => p.nest + 1

section Nesting
variable {k l : Level} {p q : Phrase} {ts : List Token} {d : Int}

theorem wrap_mono (h : k.rank ≤ l.rank) (p : Phrase) : p.wrap k ≤ p.wrap l := by
  simp only [Phrase.wrap]
  split_ifs <;> omega

theorem wrap_level (p : Phrase) : p.wrap p.level = 0 :=
  if_neg (Nat.lt_irrefl _)

/-- Whatever formula a phrase is derived from, its brackets nest as deeply as those of the minimal
text at least. -/
theorem Derives.nest_le (h : Derives l ts p) (ho : OpenAtMost d ts) :
    (p.nest : Int) + p.wrap l ≤ d := by
  induction h generalizing d with
  | number | negative | ident => exact ho.nonneg
  | @group o c ts p hopen hclose hp ih =>
    rw [OpenAtMost.bracket_iff hopen hclose hp.balanced] at ho
    have := ih ho
    have : p.wrap .primary ≤ 1 := by
      rw [Phrase.wrap]
      split_ifs <;> omega
    omega
  | call hf _ hopen hclose hp ih =>
    rw [OpenAtMost.cons_iff, excessOf_name hf, Int.sub_zero,
      OpenAtMost.bracket_iff hopen hclose hp.balanced] at ho
    have := ih ho.2
    rw [show Phrase.wrap .primary (.call _ _) = 0 from wrap_level (.call _ _), Phrase.nest]
    omega
  | @descend l _ p _ ih =>
    have := ih ho
    have := wrap_mono l.rank_le_next p
    omega
  | @join l o op ts us p q hop hlex hp hq ihp ihq =>
    rw [OpenAtMost.join_iff hlex hp.balanced] at ho
    have := ihp ho.1
    have := ihq ho.2
    obtain ⟨-, rfl⟩ := Level.mem_operators_iff.1 hop
    rw [show Phrase.wrap (levelOf op) (.binary op p q) = 0 from wrap_level (.binary op p q),
      Phrase.nest]
    omega

end Nesting

/-! ### The text -/

section Text
variable {s : Style} {t : Tree Float} {p q : Phrase} {l : Level} {cs : List Char}

theorem Prints.operand (h : Prints p.level p p.nest cs) (l : Level) :
    Prints l p (p.nest + p.wrap l)
      (if p.level.rank < l.rank then '(' :: (cs ++ [')']) else cs) := by
  unfold Phrase.wrap
  split_ifs with hl
  · exact h.bracket.weaken l.rank_le_primary (Nat.le_refl _)
  · exact h.weaken (Nat.le_of_not_lt hl) (Nat.le_refl _)

theorem toList_bracketIf (b : Bool) (text : String) : (Tree.bracketIf b text).toList =
    if b then '(' :: (text.toList ++ [')']) else text.toList := by
  cases b
  · rfl
  · simp [Tree.bracketIf]

theorem Says.binding_eq (h : Says s t p) : t.binding = p.level.rank + 1 := by
  cases h with
  | num | var | call => rfl
  | binary hop hbin =>
    simp only [Tree.binding, Code.precedence, hop, Option.elim_some, Phrase.level,
      precedence_eq]

theorem rank_next_levelOf {op : Op} (h : op.isBinary) :
    (levelOf op).next.rank = (levelOf op).rank + 1 := by
  cases op with
  | add | sub | mul | div | pow => rfl
  | _ => cases h

theorem toList_minimalText_binary (c : Code) (l r : Tree Float) :
    ((Tree.binary c l r).minimalText s).toList =
      (if l.binding < c.precedence then '(' :: ((l.minimalText s).toList ++ [')'])
        else (l.minimalText s).toList) ++ ' ' :: (c.symbol.toList ++ ' ' ::
      (if r.binding ≤ c.precedence then '(' :: ((r.minimalText s).toList ++ [')'])
        else (r.minimalText s).toList)) := by
  simp only [Tree.minimalText, String.toList_append, toList_bracketIf, decide_eq_true_eq,
    List.append_assoc]
  rfl

theorem toList_minimalText_call (c : Code) (x : Tree Float) :
    ((Tree.call c x).minimalText s).toList =
      c.symbol.toList ++ '(' :: ((x.minimalText s).toList ++ [')']) := by
  simp only [Tree.minimalText, String.toList_append, List.append_assoc]
  rfl

theorem Says.prints_minimalText (h : Says s t p) :
    Prints p.level p p.nest (t.minimalText s).toList := by
  induction h with
  | num h => exact h.prints
  | var h => exact h.prints
  | @binary c op l r p q hop hbin hl hr ihl ihr =>
    have hleft := (ihl.operand (levelOf op)).weaken (Nat.le_refl _)
      (Nat.le_max_left _ (q.nest + q.wrap (levelOf op).next))
    have hright := (ihr.operand (levelOf op).next).weaken (Nat.le_refl _)
      (Nat.le_max_right (p.nest + p.wrap (levelOf op)) _)
    have hprints := Prints.binary hbin hleft hright
    -- A right operand of the operator's own level binds too loosely for the next one.
    rw [rank_next_levelOf hbin] at hprints
    rw [toList_minimalText_binary, hl.binding_eq, hr.binding_eq]
    simp only [Code.precedence, Code.symbol, hop, Option.elim_some, precedence_eq,
      Nat.add_lt_add_iff_right]
    exact hprints
  | call hop hfun hx ih =>
    have hprints := ih.call hfun
    rw [toList_minimalText_call]
    simp only [Code.symbol, hop, Option.elim_some]
    exact hprints

theorem Says.checkMinimal_eq_ok (h : Says s t p) : t.checkMinimal = .ok () := by
  induction h with
  | num | var => rfl
  | binary hop _ _ _ ihl ihr => simp only [Tree.checkMinimal, Code.checkSymbol, hop, ihl, ihr]; rfl
  | call hop _ _ ih => simp only [Tree.checkMinimal, Code.checkSymbol, hop, ih]; rfl

end Text

end Formula

end FormulaCalculus
