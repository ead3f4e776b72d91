import FormulaCalculus.Proofs.Formula.Steps

/-!
# What the grammar derives is read

The reader is followed along a derivation. From a level `l` it starts with nothing waiting on `l`
and the tighter levels, leaves alone what waits on the looser ones, and ends with the derivation's
tree, part of it held by the mode and the rest waiting on `l` and the tighter levels.
-/

namespace FormulaCalculus.Formula

/-- How many more brackets may be opened inside of the open ones. -/
def room (limit : Count) (bs : List Bracket) : Int :=
  mostOpen limit - bs.length

theorem room_cons (limit : Count) (b : Bracket) (bs : List Bracket) :
    room limit (b :: bs) = room limit bs - 1 := by
  simp only [room, List.length_cons]
  omega

theorem lt_of_room {limit : Count} {bs : List Bracket} {ts : List Token}
    (h : OpenAtMost (room limit bs - 1) ts) : (bs.length : Int) + 1 ≤ limit.value := by
  have := h.nonneg
  simp only [room, mostOpen] at this
  omega

/-- The state holds `t` from the level `l` on; the looser levels are as `w` has them. -/
inductive Ends (names : List String) (bs : List Bracket) (w : Waiting) (l : Level)
    (t : Tree Float) : State → Prop
  | intro {w' : Waiting} {m : Mode} {x : Tree Float}
    (looser : ∀ k : Level, k.rank < l.rank → w'.slot k = w.slot k) (hx : Holds names m x)
    (closed : w'.close l x = t) : Ends names bs w l t ⟨bs, w', m⟩

theorem Ends.of_holds {names : List String} {bs : List Bracket} {w : Waiting} {m : Mode}
    {x : Tree Float} (h : Holds names m x) : Ends names bs w .primary x ⟨bs, w, m⟩ :=
  ⟨fun _ _ => rfl, h, rfl⟩

section Run
variable {limit : Count} {names : List String} {bs : List Bracket} {w : Waiting} {l : Level}
  {t : Tree Float} {ts us : List Token} {c : Token} {s s₁ : State}

/-- Reading the tokens leads to a state that holds `t`, unless it exhausts the stack. -/
def Reads (limit : Count) (names : List String) (bs : List Bracket) (w : Waiting) (l : Level)
    (t : Tree Float) (s : State) (ts : List Token) : Prop :=
  Exhausts limit names s ts ∨ ∃ s', Run limit names s ts s' ∧ Ends names bs w l t s'

theorem Reads.cons {o : Token} (h : Step limit names s o s₁)
    (hr : Reads limit names bs w l t s₁ ts) : Reads limit names bs w l t s (o :: ts) := by
  rcases hr with he | ⟨s', hr, hends⟩
  · exact Or.inl (.cons h he)
  · exact Or.inr ⟨s', .cons h hr, hends⟩

/-- The content of a bracket and its closing. -/
theorem Reads.closing {b : Bracket} (hc : c.lexeme = .closing)
    (h : Reads limit names (b :: bs) {} .sum t ⟨b :: bs, {}, .operand⟩ ts) :
    Reads limit names bs b.outside .primary (around b.function t) ⟨b :: bs, {}, .operand⟩
      (ts ++ [c]) := by
  rcases h with he | ⟨_, hr, _, hx, rfl⟩
  · exact Or.inl (he.append_right _)
  · exact Or.inr ⟨_, hr.append (run_singleton_iff.2 (.close hx hc)), .of_holds (.operator _)⟩

theorem Derives.reads {p : Phrase} (h : Derives l ts p)
    (hw : ∀ k : Level, l.rank ≤ k.rank → w.slot k = none) (ho : OpenAtMost (room limit bs) ts) :
    Reads limit names bs w l (p.tree names) ⟨bs, w, .operand⟩ ts := by
  induction h generalizing bs w with
  | number h => exact Or.inr ⟨_, run_singleton_iff.2 (.number h), .of_holds (.operator _)⟩
  | negative hs ht hgap =>
    exact .cons (.sign hs)
      (Or.inr ⟨_, run_singleton_iff.2 (.negative ht hgap), .of_holds (.operator _)⟩)
  | ident h hf => exact Or.inr ⟨_, run_singleton_iff.2 (.ident h hf), .of_holds (.ident _ _)⟩
  | @group o c ts p hopen hclose hp ih =>
    rw [OpenAtMost.bracket_iff hopen hclose hp.balanced] at ho
    have hroom : OpenAtMost (room limit (⟨w, none, o.position⟩ :: bs)) ts := by rwa [room_cons]
    have hinside := ih (fun k _ => Waiting.slot_empty k) hroom
    by_cases hm : bs.length + 1 ≤ Tree.maxDepth
    · exact .cons (.group hopen (lt_of_room ho) hm) (hinside.closing hclose)
    · refine Or.inl (.cons_of_error ?_)
      simp only [State.step, State.operand?, hopen]
      exact open?_of_gt (lt_of_room ho) hm
  | @call f o c letters op ts p hf hop hopen hclose hp ih =>
    rw [OpenAtMost.cons_iff, excessOf_name hf, Int.sub_zero,
      OpenAtMost.bracket_iff hopen hclose hp.balanced] at ho
    have hroom : OpenAtMost (room limit (⟨w, some op, o.position⟩ :: bs)) ts := by
      rw [room_cons]
      exact ho.2
    have hinside := ih (fun k _ => Waiting.slot_empty k) hroom
    refine .cons (.function hf hop) ?_
    by_cases hm : bs.length + 1 ≤ Tree.maxDepth
    · exact .cons (.call hopen (lt_of_room ho.2) hm) (hinside.closing hclose)
    · refine Or.inl (.cons_of_error ?_)
      simp only [State.step, if_pos hopen]
      exact open?_of_gt (lt_of_room ho.2) hm
  | @descend l _ _ _ ih =>
    rcases ih (fun k hk => hw k (Nat.le_trans l.rank_le_next hk)) ho with
      he | ⟨_, hrun, @⟨w', m, x, hloose, hx, hclosed⟩⟩
    · exact Or.inl he
    · refine Or.inr ⟨_, hrun, fun k hk => hloose k (Level.rank_lt_next hk), hx, ?_⟩
      have hslot : w'.slot l = none := by
        by_cases hl : l.rank < l.next.rank
        · rw [hloose l hl, hw l (Nat.le_refl _)]
        · cases l <;> first | rfl | exact absurd (by decide) hl
      rw [Waiting.close_eq_join, hslot, hclosed]
      rfl
  | @join l o op ts us p q hop hlex hp hq ihp ihq =>
    rw [OpenAtMost.join_iff hlex hp.balanced] at ho
    have hlt : l.rank < l.next.rank := by
      cases l <;> first | decide | cases hop
    rcases ihp hw ho.1 with he | ⟨_, hrun, @⟨w₁, m, x, hloose, hx, hclosed⟩⟩
    · exact Or.inl (he.append_right _)
    · have hstep : Step limit names ⟨bs, w₁, m⟩ o ⟨bs, w₁.push op x, .operand⟩ := .operator hx hlex
      have htight : ∀ k : Level, l.next.rank ≤ k.rank → (w₁.push op x).slot k = none :=
        fun k hk => Waiting.slot_push_of_gt hop (Nat.lt_of_lt_of_le hlt hk)
      rcases ihq htight ho.2 with he | ⟨_, hrun', hloose', hy, hclosed'⟩
      · exact Or.inl (hrun.append_exhausts (.cons hstep he))
      · refine Or.inr ⟨_, hrun.append (.cons hstep hrun'), fun k hk => ?_, hy, ?_⟩
        · rw [hloose' k (Nat.lt_trans hk hlt), Waiting.slot_push_of_lt hop hk]
          exact hloose k hk
        · -- What waits on `l` is now the left operand, so closing `l` joins the two operands.
          rw [Waiting.close_eq_join, hloose' l hlt, Waiting.slot_push_self hop, hclosed, hclosed']
          rfl

end Run

end FormulaCalculus.Formula
