import FormulaCalculus.Proofs.Print.Minimal

/-!
# Full text

Every operation of the full text stands in brackets, so its tokens derive the phrase that the tree
says from a primary, and its brackets nest as deeply as the tree has levels below its leaves. The
minimal text nests no deeper.
-/

namespace FormulaCalculus.Formula

/-- Wherever the text stands, its tokens derive the phrase from a primary, and their brackets nest
exactly `d` levels deep. -/
def Encloses (p : Phrase) (d : Nat) (cs : List Char) : Prop :=
  ∀ position, ∃ ts, Scans cs position ts ∧ Derives .primary ts p ∧
    ∀ k : Int, OpenAtMost k ts ↔ (d : Int) ≤ k

section Encloses
variable {p q : Phrase} {d d' : Nat} {cs ds : List Char}

theorem Prints.encloses (h : Prints .primary p 0 cs) : Encloses p 0 cs := by
  intro position
  obtain ⟨ts, hs, hp, ho⟩ := h position
  exact ⟨ts, hs, hp, fun k => ⟨OpenAtMost.nonneg, fun hk => ho.mono hk⟩⟩

theorem Encloses.binary {op : Op} (hop : op.isBinary) (hl : Encloses p d cs)
    (hr : Encloses q d' ds) : Encloses (.binary op p q) (max d d' + 1)
      ('(' :: (cs ++ ' ' :: (op.symbol.toList ++ ' ' :: ds) ++ [')'])) := by
  intro position
  obtain ⟨ts, hs, hp, ho⟩ := hl (position + 1)
  obtain ⟨us, hs', hq, ho'⟩ := hr (position + 1 + cs.length + 3)
  have hmem : op ∈ (levelOf op).operators := Level.mem_operators_iff.2 ⟨hop, rfl⟩
  have hjoin : Derives (levelOf op) (ts ++ ⟨.op op, position + 1 + cs.length + 1⟩ :: us)
      (.binary op p q) :=
    .join hmem rfl (hp.weaken (Level.rank_le_primary _)) (hq.weaken (Level.rank_le_primary _))
  refine ⟨_, (hs.binary hop hs').bracket, .group rfl rfl (hjoin.weaken (Nat.zero_le _)),
    fun k => ?_⟩
  rw [OpenAtMost.bracket_iff rfl rfl hjoin.balanced, OpenAtMost.join_iff rfl hp.balanced, ho, ho']
  omega

theorem Encloses.call {op : Op} (hfun : op.isFunction) (h : Encloses p d cs) :
    Encloses (.call op p) (d + 1) (op.symbol.toList ++ '(' :: (cs ++ [')'])) := by
  intro position
  obtain ⟨ts, hs, hp, ho⟩ := h (position + op.symbol.toList.length + 1)
  refine ⟨_, (word_symbol hfun).scans_call hs, .call rfl ?_ rfl rfl (hp.weaken (Nat.zero_le _)),
    fun k => ?_⟩
  · rw [String.ofList_toList]
    exact function?_symbol hfun
  · rw [OpenAtMost.cons_iff, show excessOf _ = 0 from rfl, Int.sub_zero,
      OpenAtMost.bracket_iff rfl rfl hp.balanced, ho]
    omega

end Encloses

section Text
variable {s : Style} {t : Tree Float} {p : Phrase}

theorem toList_fullText_binary (c : Code) (l r : Tree Float) :
    ((Tree.binary c l r).fullText s).toList = '(' :: ((l.fullText s).toList ++
      ' ' :: (c.symbol.toList ++ ' ' :: (r.fullText s).toList) ++ [')']) := by
  simp only [Tree.fullText, String.toList_append, List.append_assoc, List.cons_append]
  rfl

theorem toList_fullText_call (c : Code) (x : Tree Float) :
    ((Tree.call c x).fullText s).toList =
      c.symbol.toList ++ '(' :: ((x.fullText s).toList ++ [')']) := by
  simp only [Tree.fullText, String.toList_append, List.append_assoc]
  rfl

theorem Says.encloses_fullText (h : Says s t p) :
    Encloses p (t.depth - 1) (t.fullText s).toList := by
  induction h with
  | num h => exact h.prints.encloses
  | var h => exact h.prints.encloses
  | @binary c op l r p q hop hbin hl hr ihl ihr =>
    have hencloses := ihl.binary hbin ihr
    rw [toList_fullText_binary]
    simp only [Code.symbol, hop, Option.elim_some]
    have hdepth : (Tree.binary c l r).depth - 1 = max (l.depth - 1) (r.depth - 1) + 1 := by
      have := Tree.depth_pos l
      simp only [Tree.depth]
      omega
    rwa [hdepth]
  | @call c op x p hop hfun hx ih =>
    have hencloses := ih.call hfun
    rw [toList_fullText_call]
    simp only [Code.symbol, hop, Option.elim_some]
    have hdepth : (Tree.call c x).depth - 1 = x.depth - 1 + 1 := by
      have := Tree.depth_pos x
      simp only [Tree.depth]
      omega
    rwa [hdepth]

theorem Says.nest_lt_depth (h : Says s t p) : p.nest < t.depth := by
  induction h with
  | num | var => exact Nat.one_pos
  | @binary c op l r p q _ _ _ _ ihl ihr =>
    have hwrap (p : Phrase) (l : Level) : p.wrap l ≤ 1 := by
      rw [Phrase.wrap]
      split_ifs <;> omega
    have := hwrap p (levelOf op)
    have := hwrap q (levelOf op).next
    simp only [Phrase.nest, Tree.depth]
    omega
  | call _ _ _ ih =>
    simp only [Phrase.nest, Tree.depth]
    omega

theorem Says.checkFull_eq_ok (h : Says s t p) (foreignPrints : Bool) :
    t.checkFull foreignPrints = .ok () := by
  induction h with
  | num | var => rfl
  | binary hop _ _ _ ihl ihr => simp only [Tree.checkFull, Code.checkSymbol, hop, ihl, ihr]; rfl
  | call hop _ _ ih => simp only [Tree.checkFull, Code.checkSymbol, hop, ih]; rfl

theorem full?_eq_ok (h : Says s t p) (hdeep : t.isTooDeep = false) :
    t.full? s = .ok (t.fullText s) := by
  simp only [Tree.full?, hdeep, h.checkFull_eq_ok]
  rfl

end Text

end FormulaCalculus.Formula
