import FormulaCalculus.Proofs.Formula.Cuts

/-!
# Tokens tile the text

`Tiling cs stop ts` says of the spans of the tokens what `Cut` says along the text: before `stop`
they stand one behind the other, each with the text of its token, with blanks alone between them,
and no number or name among them can be prolonged. Every round of a scan prolongs the tiling and
moves on, so a scan ends: where the text ends, or at the first place behind a tiling at which
neither a lexeme nor a blank starts (`scan_tiles`).
-/

namespace FormulaCalculus.Formula

open Text

/-! ### Tilings -/

/-- The place behind the text of a token. -/
def ending (t : Token) : Nat :=
  t.position + t.lexeme.text.toList.length

/-- The place is within the text of the token. -/
def Covers (t : Token) (i : Nat) : Prop :=
  t.position ≤ i ∧ i < ending t

/-- The text before a place consists of the texts of the tokens and of blanks. -/
structure Tiling (cs : List Char) (stop : Nat) (ts : List Token) : Prop where
  stop_le : stop ≤ cs.length
  /-- Numbers, names, operators and brackets; the mark of the end is not among them. -/
  ordinary : ∀ t ∈ ts, Ordinary t.lexeme
  /-- The spans ascend and do not overlap. -/
  apart : ts.Pairwise fun a b => a.position < b.position ∧ ending a ≤ b.position
  within : ∀ t ∈ ts, ending t ≤ stop
  /-- Each token has the text that stands at its position. -/
  slice : ∀ t ∈ ts, t.lexeme.text.toList <+: cs.drop t.position
  blank : ∀ i c, i < stop → cs[i]? = some c → (∀ t ∈ ts, ¬Covers t i) → isBlank c
  /-- No longer token of the same type starts at the position of a token. -/
  longest : ∀ t ∈ ts, ∀ l, Ordinary l → l.title = t.lexeme.title →
    l.text.toList <+: cs.drop t.position →
      l.text.toList.length ≤ t.lexeme.text.toList.length

/-- A character stands at the place, but neither a blank nor a lexeme starts there. -/
structure Blocked (cs : List Char) (p : Nat) : Prop where
  lt : p < cs.length
  not_blank : ∀ c, cs[p]? = some c → isBlank c = false
  not_lexeme : ∀ l, Ordinary l → ¬l.text.toList <+: cs.drop p

/-! ### What is read at a place -/

section Head
variable {cs rest : List Char} {l l' : Lexeme}

theorem Numeral.length_le_numberAt (h : Numeral cs) (rest : List Char) :
    cs.length ≤ (Lexeme.numberAt (cs ++ rest)).length := by
  unfold Lexeme.numberAt
  cases h with
  | whole _ h =>
    have hwhole : cs.length ≤ ((cs ++ rest).takeWhile isDigit).length := by
      rw [List.takeWhile_append_of_pos h, List.length_append]
      exact Nat.le_add_right _ _
    split
    · dsimp only
      split
      · exact hwhole
      · rw [List.length_append]
        exact Nat.le_add_right_of_le hwhole
    · exact hwhole
  | @point ds fs _ h hne' h' =>
    have hhead : ∀ c, ('.' :: (fs ++ rest)).head? = some c → isDigit c = false := by
      rintro _ ⟨⟩
      decide
    rw [List.append_assoc, List.cons_append, takeWhile_append_of_head h hhead,
      dropWhile_append_of_head h hhead]
    simp only [List.takeWhile_append_of_pos h']
    rw [if_neg (by simp [hne'])]
    simp only [List.length_append, List.length_cons]
    omega

/-- What is read at the head of a text is no shorter than any lexeme of its type there. -/
theorem Ordinary.exists_ofHead? (hl : Ordinary l) (rest : List Char) :
    ∃ l', Lexeme.ofHead? (l.text.toList ++ rest) = some (some l', l'.text.toList.length) ∧
      l'.title = l.title ∧ l.text.toList.length ≤ l'.text.toList.length := by
  cases hl with
  | @number digits h =>
    refine ⟨.number (Lexeme.numberAt (digits ++ rest)), ?_, rfl, ?_⟩
    · obtain ⟨c, tail, rfl, hc⟩ := h.head
      simp only [Lexeme.text, String.toList_ofList, List.cons_append, Lexeme.ofHead?, if_pos hc]
    · simp only [Lexeme.text, String.toList_ofList]
      exact h.length_le_numberAt rest
  | @name letters h =>
    refine ⟨.name ((letters ++ rest).takeWhile Lexeme.isNamePart), ?_, rfl, ?_⟩
    · obtain ⟨c, tail, rfl, hc, -⟩ := h
      simp only [Lexeme.text, String.toList_ofList, List.cons_append, Lexeme.ofHead?,
        isDigit_eq_false_of_isNameStart hc, if_pos hc, Bool.false_eq_true, if_false]
    · simp only [Lexeme.text, String.toList_ofList]
      rw [List.takeWhile_append_of_pos (isNamePart_of_word h), List.length_append]
      exact Nat.le_add_right _ _
  | op h => exact ⟨_, (Ordinary.op h).ofHead? trivial, rfl, Nat.le_refl _⟩
  | opening => exact ⟨_, Ordinary.opening.ofHead? trivial, rfl, Nat.le_refl _⟩
  | closing => exact ⟨_, Ordinary.closing.ofHead? trivial, rfl, Nat.le_refl _⟩

theorem Ordinary.eq_of_text (hl : Ordinary l) (hl' : Ordinary l')
    (h : l.text.toList = l'.text.toList) : l = l' := by
  have hread := hl.ofHead? (endsBefore_nil l)
  rw [h, hl'.ofHead? (endsBefore_nil l')] at hread
  cases hread
  rfl

/-- Nothing prolongs a lexeme if it is the longest one of its type that starts where it starts. -/
theorem Ordinary.endsBefore_iff (hl : Ordinary l) : EndsBefore rest l ↔
    ∀ l', Ordinary l' → l'.title = l.title → l'.text.toList <+: l.text.toList ++ rest →
      l'.text.toList.length ≤ l.text.toList.length := by
  constructor
  · rintro hends l' hl' - ⟨rest', hrest'⟩
    obtain ⟨_, hread, -, hle⟩ := hl'.exists_ofHead? rest'
    rw [hrest', hl.ofHead? hends] at hread
    cases hread
    exact hle
  · intro hlongest
    obtain ⟨l', hread, htitle, hle⟩ := hl.exists_ofHead? rest
    obtain ⟨hl', rest', htext, -, hends⟩ := exists_of_ofHead? hread
    have hle' := hlongest l' hl' htitle ⟨rest', htext.symm⟩
    obtain ⟨hsame, rfl⟩ := List.append_inj htext (Nat.le_antisymm hle hle')
    rwa [hl.eq_of_text hl' hsame]

theorem ofHead?_eq_none_iff : Lexeme.ofHead? cs = none ↔
    (∀ c, cs.head? = some c → isBlank c = false) ∧
      ∀ l, Ordinary l → ¬l.text.toList <+: cs := by
  constructor
  · intro hnone
    constructor
    · intro c hc
      obtain ⟨tail, rfl⟩ := List.head?_eq_some_iff.1 hc
      rw [Bool.eq_false_iff]
      intro hblank
      rw [ofHead?_blank hblank] at hnone
      cases hnone
    · rintro l hl ⟨rest, rfl⟩
      obtain ⟨l', hread, -⟩ := hl.exists_ofHead? rest
      rw [hread] at hnone
      cases hnone
  · rintro ⟨hblank, hlexeme⟩
    cases hread : Lexeme.ofHead? cs with
    | none => rfl
    | some found =>
      obtain ⟨_ | l, n⟩ := found
      · have hpos := Lexeme.pos_of_ofHead? hread
        obtain ⟨_ | ⟨b, bs⟩, rest, rfl, rfl, hblanks⟩ := exists_of_ofHead?_none hread
        · exact absurd hpos (Nat.lt_irrefl 0)
        · have := hblank b rfl
          rw [hblanks b List.mem_cons_self] at this
          cases this
      · obtain ⟨hl, rest, rfl, -⟩ := exists_of_ofHead? hread
        exact absurd (List.prefix_append _ _) (hlexeme l hl)

theorem length_le_of_ofHead? {l : Option Lexeme} {n : Nat} (h : Lexeme.ofHead? cs = some (l, n)) :
    n ≤ cs.length := by
  cases l with
  | none =>
    obtain ⟨_, _, rfl, rfl, -⟩ := exists_of_ofHead?_none h
    rw [List.length_append]
    exact Nat.le_add_right _ _
  | some l =>
    obtain ⟨-, _, rfl, rfl, -⟩ := exists_of_ofHead? h
    rw [List.length_append]
    exact Nat.le_add_right _ _

theorem blocked_iff {p : Nat} :
    Blocked cs p ↔ p < cs.length ∧ Lexeme.ofHead? (cs.drop p) = none := by
  rw [ofHead?_eq_none_iff, List.head?_drop]
  exact ⟨fun h => ⟨h.lt, h.not_blank, h.not_lexeme⟩, fun h => ⟨h.1, h.2.1, h.2.2⟩⟩

end Head

/-! ### From cuts to tilings -/

namespace Cut
variable {rest cs : List Char} {position : Nat} {ts : List Token} {t : Token}

/-- A token stands at its position, and nothing prolongs it there. -/
theorem at_token (h : Cut rest 0 cs ts) (ht : t ∈ ts) :
    ∃ ds, (cs ++ rest).drop t.position = t.lexeme.text.toList ++ ds ∧ EndsBefore ds t.lexeme := by
  obtain ⟨l, position⟩ := t
  obtain ⟨pre, post, rfl⟩ := List.append_of_mem ht
  obtain ⟨as, bs, rfl, hposition, -, hbs⟩ := h.before_token
  cases hbs with
  | blank hc hbs =>
    have := (hbs.within _ List.mem_cons_self).1
    omega
  | lexeme hl hends hbs =>
    refine ⟨_, ?_, hends⟩
    rw [hposition, Nat.zero_add, List.append_assoc, List.drop_left, List.append_assoc]

theorem isBlank_of_forall (h : Cut rest position cs ts) {i : Nat} {c : Char}
    (hc : cs[i]? = some c) (hts : ∀ t ∈ ts, ¬Covers t (position + i)) : isBlank c := by
  induction h generalizing i with
  | nil => cases hc
  | blank hblank _ ih =>
    cases i with
    | zero =>
      cases hc
      exact hblank
    | succ i =>
      refine ih hc ?_
      rwa [Nat.add_assoc, Nat.add_comm 1]
  | @lexeme position l cs ts hl hends h ih =>
    rw [List.forall_mem_cons] at hts
    -- The place is not within the text of this lexeme, so it is behind it.
    have hle : l.text.toList.length ≤ i := by
      by_contra hlt
      exact hts.1 ⟨Nat.le_add_right _ _, Nat.add_lt_add_left (Nat.lt_of_not_le hlt) _⟩
    rw [List.getElem?_append_right hle] at hc
    refine ih hc ?_
    rw [Nat.add_assoc, Nat.add_sub_cancel' hle]
    exact hts.2

theorem tiling (h : Cut rest 0 cs ts) : Tiling (cs ++ rest) cs.length ts where
  stop_le := by
    rw [List.length_append]
    exact Nat.le_add_right _ _
  ordinary := h.ordinary
  apart := h.apart.imp_of_mem fun ha _ hab =>
    ⟨Nat.lt_of_lt_of_le (Nat.lt_add_of_pos_right (h.ordinary _ ha).length_pos) hab, hab⟩
  within t ht := by
    have := (h.within t ht).2
    rwa [Nat.zero_add] at this
  slice t ht := by
    obtain ⟨ds, hdrop, -⟩ := h.at_token ht
    exact ⟨ds, hdrop.symm⟩
  blank i c hi hc hts := by
    rw [List.getElem?_append_left hi] at hc
    refine h.isBlank_of_forall hc ?_
    rwa [Nat.zero_add]
  longest t ht := by
    obtain ⟨ds, hdrop, hends⟩ := h.at_token ht
    rw [hdrop]
    exact (h.ordinary t ht).endsBefore_iff.1 hends

theorem single {l : Lexeme} (hl : Ordinary l) (hends : EndsBefore rest l) :
    Cut rest position l.text.toList [⟨l, position⟩] := by
  have : Cut rest position (l.text.toList ++ []) [⟨l, position⟩] := .lexeme hl hends .nil
  rwa [List.append_nil] at this

theorem of_blanks {ws : List Char} (hws : ∀ c ∈ ws, isBlank c) : Cut rest position ws [] := by
  have : Cut rest position (ws ++ []) [] := .blanks hws .nil
  rwa [List.append_nil] at this

/-- A cut of the text before a place goes on with a cut of what stands there. -/
theorem extend {bs : List Char} {p : Nat} {us : List Token} (h : Cut (cs.drop p) 0 (cs.take p) ts)
    (hp : p ≤ cs.length) (hdrop : cs.drop p = bs ++ rest) (h' : Cut rest p bs us) :
    Cut (cs.drop (p + bs.length)) 0 (cs.take (p + bs.length)) (ts ++ us) := by
  rw [hdrop] at h
  rw [← List.drop_drop, List.take_add, hdrop, List.drop_left, List.take_left]
  refine h.append ?_
  rwa [List.length_take_of_le hp, Nat.zero_add]

end Cut

/-! ### From tilings to cuts -/

namespace Tiling
variable {cs : List Char} {stop p : Nat} {ts : List Token} {t : Token}

theorem zero (cs : List Char) : Tiling cs 0 [] :=
  Cut.nil.tiling

theorem lt_ending (h : Tiling cs stop ts) (ht : t ∈ ts) : t.position < ending t :=
  Nat.lt_add_of_pos_right (h.ordinary t ht).length_pos

/-- The tokens before the last one tile the text before it. -/
theorem before_last (h : Tiling cs stop (ts ++ [t])) : Tiling cs t.position ts := by
  have hlt := h.lt_ending (List.mem_concat_self ..)
  have hwithin := h.within t (List.mem_concat_self ..)
  have hstop := h.stop_le
  have hts : ∀ a ∈ ts, a ∈ ts ++ [t] := fun a ha => List.mem_append_left _ ha
  obtain ⟨hapart, -, hlast⟩ := List.pairwise_append.1 h.apart
  refine ⟨by omega, fun a ha => h.ordinary a (hts a ha), hapart,
    fun a ha => (hlast a ha t (List.mem_singleton_self t)).2, fun a ha => h.slice a (hts a ha),
    fun i c hi hc huncovered => ?_, fun a ha => h.longest a (hts a ha)⟩
  refine h.blank i c (by omega) hc (List.forall_mem_append.2 ⟨huncovered, ?_⟩)
  rw [List.forall_mem_singleton]
  exact fun hcovers => Nat.not_le_of_lt hi hcovers.1

/-- Before a place that no token covers. -/
theorem before_uncovered (h : Tiling cs (stop + 1) ts) (hts : ∀ t ∈ ts, ¬Covers t stop) :
    Tiling cs stop ts where
  stop_le := Nat.le_of_succ_le h.stop_le
  ordinary := h.ordinary
  apart := h.apart
  within t ht := by
    have hlt := h.lt_ending ht
    have hwithin := h.within t ht
    by_contra hle
    exact hts t ht ⟨by omega, by omega⟩
  slice := h.slice
  blank i c hi := h.blank i c (Nat.lt_succ_of_lt hi)
  longest := h.longest

/-- A token that ends where the tiling ends is the last one. -/
theorem exists_eq_concat (h : Tiling cs stop ts) (ht : t ∈ ts) (hstop : ending t = stop) :
    ∃ us, ts = us ++ [t] := by
  obtain ⟨us, vs, rfl⟩ := List.append_of_mem ht
  cases vs with
  | nil => exact ⟨us, rfl⟩
  | cons v vs =>
    have hv : v ∈ us ++ t :: v :: vs :=
      List.mem_append_right _ (List.mem_cons_of_mem _ List.mem_cons_self)
    have hapart := (List.pairwise_append.1 h.apart).2.1
    have hbehind := (List.pairwise_cons.1 hapart).1 v List.mem_cons_self
    have hlt := h.lt_ending hv
    have hwithin := h.within v hv
    omega

/-- The last character before the end of a tiling is the end of the last token, or it is blank. -/
theorem last_token_or_blank (h : Tiling cs (p + 1) ts) :
    (∃ us t, ts = us ++ [t] ∧ ending t = p + 1 ∧ Tiling cs t.position us) ∨
      ∃ c, cs[p]? = some c ∧ isBlank c ∧ Tiling cs p ts := by
  by_cases hcovered : ∃ t ∈ ts, Covers t p
  · obtain ⟨t, ht, hcovers⟩ := hcovered
    have hending : ending t = p + 1 := Nat.le_antisymm (h.within t ht) hcovers.2
    obtain ⟨us, rfl⟩ := h.exists_eq_concat ht hending
    exact .inl ⟨us, t, rfl, hending, h.before_last⟩
  · have huncovered : ∀ t ∈ ts, ¬Covers t p := fun t ht hc => hcovered ⟨t, ht, hc⟩
    obtain ⟨c, hc⟩ : ∃ c, cs[p]? = some c := ⟨_, List.getElem?_eq_getElem h.stop_le⟩
    exact .inr ⟨c, hc, h.blank p c (Nat.lt_succ_self p) hc huncovered,
      h.before_uncovered huncovered⟩

theorem cut (h : Tiling cs stop ts) : Cut (cs.drop stop) 0 (cs.take stop) ts := by
  induction stop using Nat.strong_induction_on generalizing ts with
  | _ stop ih =>
    cases stop with
    | zero =>
      cases ts with
      | nil => exact .nil
      | cons t ts =>
        have hlt := h.lt_ending List.mem_cons_self
        have hwithin := h.within t List.mem_cons_self
        omega
    | succ p =>
      rcases h.last_token_or_blank with ⟨us, t, rfl, hending, hbefore⟩ | ⟨c, hc, hblank, hbefore⟩
      · have ht : t ∈ us ++ [t] := List.mem_concat_self
        obtain ⟨rest, hrest⟩ := h.slice t ht
        have hends : EndsBefore rest t.lexeme :=
          (h.ordinary t ht).endsBefore_iff.2 (hrest ▸ h.longest t ht)
        have hcut := ih t.position (hending ▸ h.lt_ending ht) hbefore
        rw [← hending]
        exact hcut.extend hbefore.stop_le hrest.symm (.single (h.ordinary t ht) hends)
      · obtain ⟨hp, rfl⟩ := List.getElem?_eq_some_iff.1 hc
        have := (ih p (Nat.lt_succ_self p) hbefore).extend hbefore.stop_le
          (List.drop_eq_getElem_cons hp) (.blank hblank .nil)
        rwa [List.append_nil] at this

end Tiling

theorem tiling_iff {cs : List Char} {stop : Nat} {ts : List Token} :
    Tiling cs stop ts ↔ stop ≤ cs.length ∧ Cut (cs.drop stop) 0 (cs.take stop) ts := by
  refine ⟨fun h => ⟨h.stop_le, h.cut⟩, fun ⟨hstop, hcut⟩ => ?_⟩
  have := hcut.tiling
  rwa [List.take_append_drop, List.length_take_of_le hstop] at this

/-! ### Rounds of a scan -/

/-- One round of a scan, between states of the tokens read so far, latest first, and the place
reached: blanks are passed over or a lexeme is read. -/
inductive Round (cs : List Char) : List Token × Nat → List Token × Nat → Prop
  | blanks {read : List Token} {p n : Nat} (h : Lexeme.ofHead? (cs.drop p) = some (none, n)) :
    Round cs (read, p) (read, p + n)
  | lexeme {read : List Token} {p n : Nat} {l : Lexeme}
    (h : Lexeme.ofHead? (cs.drop p) = some (some l, n)) : Round cs (read, p) (⟨l, p⟩ :: read, p + n)

section Rounds
variable {cs : List Char} {s s' : List Token × Nat}

/-- A round reads what stands at its place and goes on behind it. -/
theorem Round.exists_ofHead? (h : Round cs s s') : ∃ l n,
    Lexeme.ofHead? (cs.drop s.2) = some (l, n) ∧
      s' = ((l.map (⟨·, s.2⟩)).toList ++ s.1, s.2 + n) := by
  cases h with
  | blanks hread => exact ⟨none, _, hread, rfl⟩
  | lexeme hread => exact ⟨some _, _, hread, rfl⟩

/-- A round moves on, within the text. -/
theorem Round.lt (h : Round cs s s') : s.2 < s'.2 ∧ s'.2 ≤ cs.length := by
  obtain ⟨l, n, hread, rfl⟩ := h.exists_ofHead?
  have hpos := Lexeme.pos_of_ofHead? hread
  have hle := length_le_of_ofHead? hread
  rw [List.length_drop] at hle
  dsimp only
  omega

/-- Each round is one step of the recursion. -/
theorem Round.scanFrom_eq (h : Round cs s s') :
    Token.scanFrom s.1 s.2 (cs.drop s.2) = Token.scanFrom s'.1 s'.2 (cs.drop s'.2) := by
  have hlt := h.lt
  obtain ⟨l, n, hread, rfl⟩ := h.exists_ofHead?
  rw [List.drop_eq_getElem_cons (by omega)] at hread ⊢
  rw [scanFrom_of_ofHead? hread, ← List.drop_eq_getElem_cons, List.drop_drop]

/-- No scan goes round for ever. -/
theorem wellFounded_round (cs : List Char) : WellFounded (Function.swap (Round cs)) := by
  refine Subrelation.wf (fun h => ?_) (measure fun s => cs.length - s.2).wf
  obtain ⟨hlt, hle⟩ := h.lt
  exact Nat.sub_lt_sub_left (Nat.lt_of_lt_of_le hlt hle) hlt

theorem Tiling.round (ht : Tiling cs s.2 s.1.reverse) (h : Round cs s s') :
    Tiling cs s'.2 s'.1.reverse := by
  obtain ⟨hstop, hcut⟩ := tiling_iff.1 ht
  refine tiling_iff.2 ⟨h.lt.2, ?_⟩
  cases h with
  | blanks hread =>
    obtain ⟨blanks, rest, hcs, rfl, hblanks⟩ := exists_of_ofHead?_none hread
    have := hcut.extend hstop hcs (.of_blanks hblanks)
    rwa [List.append_nil] at this
  | lexeme hread =>
    obtain ⟨hl, rest, hcs, rfl, hends⟩ := exists_of_ofHead? hread
    rw [List.reverse_cons]
    exact hcut.extend hstop hcs (.single hl hends)

/-- At every place that a scan reaches, its tokens tile the text before. -/
theorem tiling_of_rounds (h : Relation.ReflTransGen (Round cs) ([], 0) s) :
    Tiling cs s.2 s.1.reverse := by
  induction h with
  | refl => exact .zero cs
  | tail _ hround ih => exact ih.round hround

theorem ofHead?_eq_none_of_last (h : ∀ s', ¬Round cs s s') :
    Lexeme.ofHead? (cs.drop s.2) = none := by
  obtain ⟨read, p⟩ := s
  cases hread : Lexeme.ofHead? (cs.drop p) with
  | none => rfl
  | some found =>
    obtain ⟨_ | l, n⟩ := found
    · exact absurd (.blanks hread) (h _)
    · exact absurd (.lexeme hread) (h _)

theorem scanFrom_eq_of_rounds (h : Relation.ReflTransGen (Round cs) ([], 0) s) :
    Token.scanFrom [] 0 cs = Token.scanFrom s.1 s.2 (cs.drop s.2) := by
  induction h with
  | refl => rfl
  | tail _ hround ih => exact ih.trans hround.scanFrom_eq

/-- A scan stops at a place behind a tiling at which nothing starts. -/
theorem Tiling.scanFrom_eq_error {p : Nat} {ts : List Token} (h : Tiling cs p ts)
    (hblocked : Blocked cs p) : ∃ c, cs[p]? = some c ∧
      Token.scanFrom [] 0 cs = .error (.formula (.unexpectedCharacter c) p) := by
  obtain ⟨hlt, hnone⟩ := blocked_iff.1 hblocked
  have hcut := h.cut
  rw [List.drop_eq_getElem_cons hlt] at hcut hnone
  have hscan := hcut.scan_eq_error hnone
  rw [← List.drop_eq_getElem_cons hlt, List.take_append_drop, Nat.zero_add,
    List.length_take_of_le hlt.le] at hscan
  exact ⟨cs[p], List.getElem?_eq_getElem hlt, hscan⟩

end Rounds

/-- No scan goes round for ever. It ends with tokens that tile the whole text, or at the first place
behind a tiling at which neither a lexeme nor a blank starts. -/
theorem scan_tiles (formula : String) :
    WellFounded (Function.swap (Round formula.toList)) ∧
    ∃ read stop, Relation.ReflTransGen (Round formula.toList) ([], 0) (read, stop) ∧
      Tiling formula.toList stop read.reverse ∧
      (stop = formula.length ∧
          Token.scan formula = .ok (read.reverse ++ [⟨.finish, formula.length⟩]) ∨
        ∃ c, formula.toList[stop]? = some c ∧
          Token.scan formula = .error (.formula (.unexpectedCharacter c) stop) ∧
          IsLeast {p | (∃ ts, Tiling formula.toList p ts) ∧ Blocked formula.toList p} stop) := by
  obtain ⟨⟨read, stop⟩, hrounds, hlast⟩ :=
    (wellFounded_round formula.toList).has_min {s | Relation.ReflTransGen _ ([], 0) s} ⟨_, .refl⟩
  have htiling : Tiling formula.toList stop read.reverse := tiling_of_rounds hrounds
  have hnone : Lexeme.ofHead? (formula.toList.drop stop) = none :=
    ofHead?_eq_none_of_last fun s hround => hlast s (hrounds.tail hround) hround
  refine ⟨wellFounded_round _, read, stop, hrounds, htiling, ?_⟩
  rcases htiling.stop_le.eq_or_lt with rfl | hlt
  · left
    have hscan := scanFrom_eq_of_rounds hrounds
    rw [List.drop_length, Token.scanFrom, List.reverse_cons] at hscan
    rw [← String.length_toList]
    exact ⟨rfl, hscan⟩
  · right
    have hblocked : Blocked formula.toList stop := blocked_iff.2 ⟨hlt, hnone⟩
    obtain ⟨c, hc, hscan⟩ := htiling.scanFrom_eq_error hblocked
    refine ⟨c, hc, hscan, ⟨⟨_, htiling⟩, hblocked⟩, ?_⟩
    -- A scan stops at one place only, so no other one is behind a tiling and blocked.
    rintro p ⟨⟨ts, hts⟩, hp⟩
    obtain ⟨d, -, hscan'⟩ := hts.scanFrom_eq_error hp
    rw [hscan] at hscan'
    cases hscan'
    exact Nat.le_refl _

/-- The second point belongs to no number. -/
example : Token.scan "1.5.2" = .error (.formula (.unexpectedCharacter '.') 3) := by cbv

end FormulaCalculus.Formula
