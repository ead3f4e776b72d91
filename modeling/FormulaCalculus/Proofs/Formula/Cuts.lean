import FormulaCalculus.Proofs.Formula.Scanning

/-!
# Cutting a text into tokens

`Cut rest position cs ts`: with `rest` behind them, the characters from `position` on are blanks and
the texts of the tokens. A scan cuts a text up to its end or up to the first character at which
nothing can be read. A cut can be parted in front of a token or a blank, moved to another position,
and put in front of another text that does not prolong the last lexeme.
-/

namespace FormulaCalculus.Formula

open Text

/-! ### Lexemes -/

theorem endsBefore_nil (l : Lexeme) : EndsBefore [] l :=
  stops_nil.endsBefore l

/-- Blanks prolong no lexeme. -/
theorem endsBefore_blank {c : Char} (h : isBlank c) (rest : List Char) (l : Lexeme) :
    EndsBefore (c :: rest) l := by
  refine endsBefore_of_head ?_ l
  rintro _ ⟨⟩
  refine ⟨eq_false_of_isBlank isBlank_eq_false_of_isDigit h,
    eq_false_of_isBlank isBlank_eq_false_of_isNamePart h, ?_⟩
  rintro rfl
  revert h
  decide

/-- Behind a lexeme only the next character counts, unless that is a point. -/
theorem EndsBefore.of_head {c : Char} {cs ds : List Char} {l : Lexeme} (hc : c ≠ '.')
    (h : EndsBefore (c :: cs) l) : EndsBefore (c :: ds) l := by
  cases l with
  | number digits =>
    refine ⟨h.1, .inr ?_⟩
    rintro _ _ ⟨⟩
    exact absurd rfl hc
  | name letters => exact h
  | _ => trivial

namespace Ordinary
variable {l : Lexeme}

theorem isBlank_eq_false (hl : Ordinary l) : ∀ c ∈ l.text.toList, isBlank c = false := by
  intro c hc
  cases hl with
  | number h =>
    rw [Lexeme.text, String.toList_ofList] at hc
    rcases h.isDigit_or_point c hc with hdigit | rfl
    · exact isBlank_eq_false_of_isDigit hdigit
    · decide
  | name h =>
    rw [Lexeme.text, String.toList_ofList] at hc
    exact isBlank_eq_false_of_isNamePart (isNamePart_of_word h c hc)
  | op h =>
    obtain ⟨d, hsymbol, hd, -⟩ := ofHead?_symbol h
    rw [Lexeme.text, hsymbol, List.mem_singleton] at hc
    rwa [hc]
  | opening =>
    rw [List.mem_singleton.1 hc]
    decide
  | closing =>
    rw [List.mem_singleton.1 hc]
    decide

/-- No lexeme starts with a point. -/
theorem head (hl : Ordinary l) : ∃ c tail, l.text.toList = c :: tail ∧ c ≠ '.' := by
  have h := hl.ofHead? (endsBefore_nil l)
  rw [List.append_nil] at h
  cases htext : l.text.toList with
  | nil => rw [htext] at h; cases h
  | cons c tail =>
    refine ⟨c, tail, rfl, ?_⟩
    rintro rfl
    rw [htext] at h
    cases h

theorem length_pos (hl : Ordinary l) : 0 < l.text.toList.length := by
  obtain ⟨c, tail, htext, -⟩ := hl.head
  rw [htext]
  exact Nat.succ_pos _

end Ordinary

/-! ### Cuts -/

/-- The characters are blanks and the texts of the tokens, and with `rest` behind them no text is
prolonged by what follows it. -/
inductive Cut (rest : List Char) : Nat → List Char → List Token → Prop
  | nil {position : Nat} : Cut rest position [] []
  | blank {position : Nat} {c : Char} {cs : List Char} {ts : List Token} (hc : isBlank c)
    (h : Cut rest (position + 1) cs ts) : Cut rest position (c :: cs) ts
  | lexeme {position : Nat} {l : Lexeme} {cs : List Char} {ts : List Token} (hl : Ordinary l)
    (hends : EndsBefore (cs ++ rest) l) (h : Cut rest (position + l.text.toList.length) cs ts) :
    Cut rest position (l.text.toList ++ cs) (⟨l, position⟩ :: ts)

/-- The token further to the right. -/
def shift (k : Nat) (t : Token) : Token :=
  { t with position := k + t.position }

namespace Cut
variable {rest rest' as bs cs : List Char} {position : Nat} {ts us : List Token} {t : Token}

theorem blanks {ws : List Char} (hws : ∀ c ∈ ws, isBlank c)
    (h : Cut rest (position + ws.length) cs ts) : Cut rest position (ws ++ cs) ts := by
  induction ws generalizing position with
  | nil => exact h
  | cons w ws ih =>
    rw [List.forall_mem_cons] at hws
    refine .blank hws.1 (ih hws.2 ?_)
    rwa [Nat.add_assoc, Nat.add_comm 1]

theorem append (h : Cut (bs ++ rest) position as ts) (h' : Cut rest (position + as.length) bs us) :
    Cut rest position (as ++ bs) (ts ++ us) := by
  induction h with
  | nil => exact h'
  | blank hc _ ih =>
    refine .blank hc (ih ?_)
    rwa [Nat.add_assoc, Nat.add_comm 1]
  | @lexeme position l cs ts hl hends _ ih =>
    rw [List.append_assoc]
    refine .lexeme hl ?_ (ih ?_)
    · rwa [List.append_assoc]
    · rwa [Nat.add_assoc, ← List.length_append]

theorem shift (h : Cut rest position cs ts) (k : Nat) :
    Cut rest (k + position) cs (ts.map (Formula.shift k)) := by
  induction h with
  | nil => exact .nil
  | blank hc _ ih => exact .blank hc ih
  | lexeme hl hends _ ih =>
    rw [← Nat.add_assoc] at ih
    exact .lexeme hl hends ih

/-- A text that is cut does not start with a point. -/
theorem head_ne_point {c : Char} (h : Cut rest position (c :: cs) ts) : c ≠ '.' := by
  generalize hcs : c :: cs = ds at h
  cases h with
  | nil => cases hcs
  | blank hc =>
    cases hcs
    rintro rfl
    revert hc
    decide
  | lexeme hl =>
    obtain ⟨d, tail, htext, hd⟩ := hl.head
    rw [htext] at hcs
    cases hcs
    exact hd

theorem congr (h : Cut rest position cs ts)
    (hrest : ∀ l, EndsBefore rest l → EndsBefore rest' l) : Cut rest' position cs ts := by
  induction h with
  | nil => exact .nil
  | blank hc _ ih => exact .blank hc ih
  | @lexeme position l cs ts hl hends h ih =>
    refine .lexeme hl ?_ ih
    cases cs with
    | nil => exact hrest l hends
    | cons c cs => exact hends.of_head h.head_ne_point

/-- A text that stops every lexeme may stand behind a cut. -/
theorem of_stops (h : Cut rest position cs ts) (hrest : ∀ l, EndsBefore rest' l) :
    Cut rest' position cs ts :=
  h.congr fun l _ => hrest l

theorem ordinary (h : Cut rest position cs ts) : ∀ t ∈ ts, Ordinary t.lexeme := by
  induction h with
  | nil => exact List.forall_mem_nil _
  | blank _ _ ih => exact ih
  | lexeme hl _ _ ih => exact List.forall_mem_cons.2 ⟨hl, ih⟩

/-- The texts of the tokens lie within the characters. -/
theorem within (h : Cut rest position cs ts) : ∀ t ∈ ts,
    position ≤ t.position ∧ t.position + t.lexeme.text.toList.length ≤ position + cs.length := by
  induction h with
  | nil => exact List.forall_mem_nil _
  | blank _ _ ih =>
    intro t ht
    have := ih t ht
    rw [List.length_cons]
    omega
  | lexeme hl _ _ ih =>
    rw [List.length_append]
    refine List.forall_mem_cons.2 ⟨⟨Nat.le_refl _, ?_⟩, fun t ht => ?_⟩
    · exact Nat.add_le_add_left (Nat.le_add_right _ _) _
    · have := ih t ht
      omega

/-- The text of a token stands at its position. -/
theorem text_prefix (h : Cut rest position cs ts) :
    ∀ t ∈ ts, t.lexeme.text.toList <+: cs.drop (t.position - position) := by
  induction h with
  | nil => exact List.forall_mem_nil _
  | @blank position c cs ts hc h ih =>
    intro t ht
    have hdrop : t.position - position = t.position - (position + 1) + 1 := by
      have := (h.within t ht).1
      omega
    rw [hdrop, List.drop_succ_cons]
    exact ih t ht
  | @lexeme position l cs ts hl hends h ih =>
    refine List.forall_mem_cons.2 ⟨?_, fun t ht => ?_⟩
    · rw [Nat.sub_self]
      exact List.prefix_append _ _
    · have hdrop : t.position - position =
          l.text.toList.length + (t.position - (position + l.text.toList.length)) := by
        have := (h.within t ht).1
        omega
      rw [hdrop, List.drop_length_add_append]
      exact ih t ht

/-- A token starts behind the text of each one before it. -/
theorem apart (h : Cut rest position cs ts) :
    ts.Pairwise fun a b => a.position + a.lexeme.text.toList.length ≤ b.position := by
  induction h with
  | nil => exact List.Pairwise.nil
  | blank _ _ ih => exact ih
  | lexeme _ _ h ih => exact List.pairwise_cons.2 ⟨fun b hb => (h.within b hb).1, ih⟩

theorem before_token (h : Cut rest position cs (ts ++ t :: us)) :
    ∃ as bs, cs = as ++ bs ∧ t.position = position + as.length ∧
      Cut (bs ++ rest) position as ts ∧ Cut rest t.position bs (t :: us) := by
  generalize hvs : ts ++ t :: us = vs at h
  induction h generalizing ts with
  | nil => cases ts <;> cases hvs
  | @blank position c cs vs hc h ih =>
    obtain ⟨as, bs, rfl, hposition, has, hbs⟩ := ih hvs
    refine ⟨c :: as, bs, rfl, ?_, .blank hc has, hbs⟩
    rw [hposition, List.length_cons]
    omega
  | @lexeme position l cs vs hl hends h ih =>
    cases ts with
    | nil =>
      cases hvs
      exact ⟨[], _, rfl, rfl, .nil, .lexeme hl hends h⟩
    | cons a ts =>
      cases hvs
      obtain ⟨as, bs, rfl, hposition, has, hbs⟩ := ih rfl
      refine ⟨l.text.toList ++ as, bs, (List.append_assoc ..).symm, ?_, .lexeme hl ?_ has, hbs⟩
      · rw [hposition, List.length_append, Nat.add_assoc]
      · rwa [List.append_assoc] at hends

theorem before_blank {c : Char} (hc : isBlank c) (h : Cut rest position (as ++ c :: bs) ts) :
    ∃ us vs, ts = us ++ vs ∧ Cut (c :: bs ++ rest) position as us ∧
      Cut rest (position + as.length) (c :: bs) vs := by
  generalize hcs : as ++ c :: bs = cs at h
  induction h generalizing as with
  | nil => cases as <;> cases hcs
  | @blank position d cs ts hd h ih =>
    cases as with
    | nil =>
      cases hcs
      exact ⟨[], ts, rfl, .nil, .blank hd h⟩
    | cons a as =>
      cases hcs
      obtain ⟨us, vs, rfl, hus, hvs⟩ := ih rfl
      refine ⟨us, vs, rfl, .blank hd hus, ?_⟩
      rwa [List.length_cons, Nat.add_comm as.length, ← Nat.add_assoc]
  | @lexeme position l cs ts hl hends h ih =>
    -- No blank stands in the text of a lexeme, so this one stands behind it.
    obtain ⟨as, rfl, rfl⟩ : ∃ ds, as = l.text.toList ++ ds ∧ ds ++ c :: bs = cs := by
      rcases List.append_eq_append_iff.1 hcs with ⟨ds, htext, hds⟩ | ⟨ds, has, hds⟩
      · cases ds with
        | nil => exact ⟨[], by rw [htext, List.append_nil, List.append_nil], hds⟩
        | cons d ds =>
          cases hds
          have := hl.isBlank_eq_false c (htext ▸ List.mem_append_right _ List.mem_cons_self)
          rw [hc] at this
          cases this
      · exact ⟨ds, has, hds.symm⟩
    obtain ⟨us, vs, rfl, hus, hvs⟩ := ih rfl
    refine ⟨_ :: us, vs, rfl, .lexeme hl ?_ hus, ?_⟩
    · rwa [List.append_assoc] at hends
    · rwa [List.length_append, ← Nat.add_assoc]

/-- A scan gets through a cut. -/
theorem scanFrom (h : Cut rest position cs ts) (read : List Token) :
    Token.scanFrom read position (cs ++ rest) =
      Token.scanFrom (ts.reverse ++ read) (position + cs.length) rest := by
  induction h generalizing read with
  | nil => rfl
  | blank hc _ ih =>
    rw [List.cons_append, scanFrom_blank hc, ih, List.length_cons, Nat.add_assoc, Nat.add_comm 1]
  | lexeme hl hends _ ih =>
    obtain ⟨c, tail, htext, -⟩ := hl.head
    have hread := hl.ofHead? hends
    rw [List.append_assoc, scanFrom_append (htext ▸ List.cons_ne_nil c tail) hread, ih,
      List.reverse_cons, List.append_assoc, List.length_append, ← Nat.add_assoc]
    rfl

end Cut

/-- Every text is cut up to its end or up to a character at which nothing can be read. -/
theorem exists_cut (position : Nat) (cs : List Char) :
    ∃ as rest ts, cs = as ++ rest ∧ Cut rest position as ts ∧ Lexeme.ofHead? rest = none := by
  fun_induction Token.scanFrom [] position cs with
  | case1 => exact ⟨[], [], [], rfl, .nil, rfl⟩
  | case2 _ _ c cs hnone => exact ⟨[], c :: cs, [], rfl, .nil, hnone⟩
  | case3 _ position c cs n hblank ih =>
    obtain ⟨blanks, rest, hcs, rfl, hblanks⟩ := exists_of_ofHead?_none hblank
    rw [hcs, List.drop_left] at ih
    obtain ⟨as, ds, ts, rfl, has, hnone⟩ := ih
    exact ⟨blanks ++ as, ds, ts, by rw [hcs, List.append_assoc], .blanks hblanks has, hnone⟩
  | case4 _ position c cs l n hread ih =>
    obtain ⟨hl, rest, hcs, rfl, hends⟩ := exists_of_ofHead? hread
    rw [hcs, List.drop_left] at ih
    obtain ⟨as, ds, ts, rfl, has, hnone⟩ := ih
    exact ⟨l.text.toList ++ as, ds, _, by rw [hcs, List.append_assoc],
      .lexeme hl hends has, hnone⟩

/-! ### Scans -/

section Scan
variable {read tokens pre post : List Token} {position : Nat} {cs ds : List Char} {c : Char}
  {t : Token} {fault : Fault}

theorem Cut.scan_eq_ok (h : Cut [] position cs read) : Token.scanFrom [] position cs =
    .ok (read ++ [⟨.finish, position + cs.length⟩]) := by
  have hscan := h.scanFrom []
  rw [List.append_nil, List.append_nil, Token.scanFrom, List.reverse_cons,
    List.reverse_reverse] at hscan
  exact hscan

theorem Cut.scan_eq_error (h : Cut (c :: ds) position cs read)
    (hnone : Lexeme.ofHead? (c :: ds) = none) : Token.scanFrom [] position (cs ++ c :: ds) =
      .error (.formula (.unexpectedCharacter c) (position + cs.length)) := by
  rw [h.scanFrom, Token.scanFrom]
  split
  · rfl
  all_goals
    rename_i hread
    rw [hnone] at hread
    cases hread

/-- A scan that succeeds has cut the whole text. -/
theorem cut_of_scan_eq_ok (h : Token.scanFrom [] position cs = .ok tokens) :
    ∃ ts, tokens = ts ++ [⟨.finish, position + cs.length⟩] ∧ Cut [] position cs ts := by
  obtain ⟨as, rest, ts, rfl, has, hnone⟩ := exists_cut position cs
  cases rest with
  | nil =>
    rw [List.append_nil] at h ⊢
    exact ⟨ts, Except.ok.inj (h.symm.trans has.scan_eq_ok), has⟩
  | cons c rest =>
    rw [has.scan_eq_error hnone] at h
    cases h

/-- A scan that fails has cut the text before a character at which nothing can be read. -/
theorem cut_of_scan_eq_error (h : Token.scanFrom [] position cs = .error fault) :
    ∃ as c rest ts, cs = as ++ c :: rest ∧ Cut (c :: rest) position as ts ∧
      Lexeme.ofHead? (c :: rest) = none ∧
      fault = .formula (.unexpectedCharacter c) (position + as.length) := by
  obtain ⟨as, rest, ts, rfl, has, hnone⟩ := exists_cut position cs
  cases rest with
  | nil =>
    rw [List.append_nil, has.scan_eq_ok] at h
    cases h
  | cons c rest =>
    rw [has.scan_eq_error hnone] at h
    exact ⟨as, c, rest, ts, rfl, has, hnone, (Except.error.inj h).symm⟩

/-- Tokens start one after the other, the mark of the end last. -/
theorem Cut.ascending (h : Cut [] position cs read) :
    List.Pairwise (fun a b : Token => a.position < b.position)
      (read ++ [⟨.finish, position + cs.length⟩]) := by
  rw [List.pairwise_append]
  refine ⟨h.apart.imp_of_mem fun ha _ hab => ?_, List.pairwise_singleton _ _, ?_⟩
  · have := (h.ordinary _ ha).length_pos
    omega
  · intro a ha b hb
    rw [List.mem_singleton.1 hb]
    have := (h.ordinary _ ha).length_pos
    have := (h.within _ ha).2
    show a.position < position + cs.length
    omega

/-- A token stands within the text, and what stands before it is cut into the tokens before it. -/
theorem cut_before {formula : String} (h : Token.scan formula = .ok (pre ++ t :: post)) :
    t.position ≤ formula.toList.length ∧
      Cut (formula.toList.drop t.position) 0 (formula.toList.take t.position) pre ∧
      (pre ++ t :: post).filter (·.position < t.position) = pre := by
  obtain ⟨ts, htokens, hcut⟩ := cut_of_scan_eq_ok h
  have hascending := hcut.ascending
  rw [← htokens, List.pairwise_append, List.pairwise_cons] at hascending
  obtain ⟨-, ⟨hpost, -⟩, hpre⟩ := hascending
  have hfilter : (pre ++ t :: post).filter (·.position < t.position) = pre := by
    have hbefore : pre.filter (·.position < t.position) = pre :=
      List.filter_eq_self.2 fun a ha => decide_eq_true (hpre a ha t List.mem_cons_self)
    have hbehind : (t :: post).filter (·.position < t.position) = [] := by
      rw [List.filter_eq_nil_iff]
      intro b hb
      rw [decide_eq_true_iff, Nat.not_lt]
      rcases List.mem_cons.1 hb with rfl | hb
      · exact Nat.le_refl _
      · exact Nat.le_of_lt (hpost b hb)
    rw [List.filter_append, hbefore, hbehind, List.append_nil]
  rw [Nat.zero_add] at htokens
  rcases List.eq_nil_or_concat post with rfl | ⟨post, last, rfl⟩
  · obtain ⟨rfl, hlast⟩ := List.append_inj' htokens rfl
    cases hlast
    refine ⟨Nat.le_refl _, ?_, hfilter⟩
    rwa [List.drop_length, List.take_length]
  · rw [List.concat_eq_append, ← List.cons_append, ← List.append_assoc] at htokens
    obtain ⟨rfl, -⟩ := List.append_inj' htokens rfl
    obtain ⟨as, bs, hsplit, hposition, has, -⟩ := hcut.before_token
    rw [Nat.zero_add] at hposition
    rw [hsplit, hposition, List.length_append, List.drop_left, List.take_left]
    rw [hposition] at hfilter
    exact ⟨Nat.le_add_right _ _, by rwa [List.append_nil] at has, hfilter⟩

end Scan

end FormulaCalculus.Formula
