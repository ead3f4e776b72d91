import FormulaCalculus.Proofs.Formula.Cuts
import FormulaCalculus.Proofs.Formula.Faults
import FormulaCalculus.Proofs.Formula.Places

/-!
# Blanks carry no meaning

Blanks may be put between any two tokens, but not between a minus and the number whose sign it is;
they may be exchanged for other blanks, and at the ends of a text they may come and go. Such texts
are cut into tokens that agree in all but their positions, so the parser reads the same equation or
objects at the same place: `parse_respaced`.
-/

namespace FormulaCalculus.Formula

open Text

/-! ### Edits of blanks -/

/-- No token stands across the place between the texts: a scan of the first one comes to its end
between two tokens, or it stops before. -/
inductive Gap : List Char → List Char → Prop
  | boundary {as bs : List Char} {ts : List Token} (h : Cut bs 0 as ts) : Gap as bs
  | beyond {as bs ds : List Char} {c : Char} {ts : List Token} (h : Cut (c :: (ds ++ bs)) 0 as ts)
    (hnone : Lexeme.ofHead? (c :: (ds ++ bs)) = none) : Gap (as ++ c :: ds) bs

/-- The place between the texts is the one between a minus and a number. -/
def AtSign (as bs : List Char) : Prop :=
  as.getLast? = some '-' ∧ ∃ d, bs.head? = some d ∧ isDigit d

/-- An edit of the blanks of a text. -/
inductive Respacing : List Char → List Char → Prop
  /-- Blanks are exchanged for others. -/
  | exchange {as ws ws' bs : List Char} (hws : ∀ c ∈ ws, isBlank c) (hws' : ∀ c ∈ ws', isBlank c)
    (hne : ws ≠ []) (hne' : ws' ≠ []) : Respacing (as ++ (ws ++ bs)) (as ++ (ws' ++ bs))
  /-- The blanks in front of a text are others, or none. -/
  | front {ws ws' bs : List Char} (hws : ∀ c ∈ ws, isBlank c) (hws' : ∀ c ∈ ws', isBlank c) :
    Respacing (ws ++ bs) (ws' ++ bs)
  /-- The blanks behind a text are others, or none. -/
  | behind {as ws ws' : List Char} (hws : ∀ c ∈ ws, isBlank c) (hws' : ∀ c ∈ ws', isBlank c) :
    Respacing (as ++ ws) (as ++ ws')
  /-- Blanks are inserted where no token is parted and no number loses its sign. -/
  | insert {as ws bs : List Char} (hws : ∀ c ∈ ws, isBlank c) (hgap : Gap as bs)
    (hsign : ¬AtSign as bs) : Respacing (as ++ bs) (as ++ (ws ++ bs))

theorem gap_blanks {as ws bs : List Char} (hne : ws ≠ []) (hws : ∀ c ∈ ws, isBlank c) :
    Gap as (ws ++ bs) := by
  obtain ⟨w, ws, rfl⟩ := List.exists_cons_of_ne_nil hne
  have hw := hws w List.mem_cons_self
  obtain ⟨front, rest, us, hsplit, hfront, hnone⟩ := exists_cut 0 (as ++ (w :: ws ++ bs))
  rcases List.append_eq_append_iff.1 hsplit with ⟨ds, rfl, hds⟩ | ⟨ds, rfl, rfl⟩
  · cases ds with
    | nil =>
      rw [List.nil_append, List.cons_append] at hds
      rw [← hds, ofHead?_blank hw] at hnone
      cases hnone
    | cons d ds =>
      obtain ⟨rfl, hds⟩ := List.cons.inj hds
      obtain ⟨vs, -, -, has, -⟩ := hfront.before_blank hw
      rw [← hds] at has
      exact .boundary has
  · cases ds with
    | nil =>
      rw [List.append_nil]
      exact .boundary hfront
    | cons d ds => exact .beyond hfront hnone

theorem gap_end (as : List Char) : Gap as [] := by
  obtain ⟨front, rest, us, rfl, hfront, hnone⟩ := exists_cut 0 as
  cases rest with
  | nil =>
    rw [List.append_nil]
    exact .boundary hfront
  | cons c rest =>
    rw [← List.append_nil rest] at hfront hnone
    exact .beyond hfront hnone

/-! ### Marks of shifted tokens -/

section Marks
variable {rest rest' as bs : List Char} {before : Option Token} {ts us : List Token} {t u : Token}

theorem isSigned_iff : isSigned before t = true ↔ ∃ a digits, before = some a ∧
    a.lexeme = .op .sub ∧ t.lexeme = .number digits ∧ t.position = a.position + 1 := by
  unfold isSigned
  split
  · rename_i position digits ht
    rw [beq_iff_eq]
    refine ⟨fun h => ⟨_, digits, rfl, rfl, ht, h⟩, ?_⟩
    rintro ⟨_, _, ⟨⟩, -, -, h⟩
    exact h
  · rename_i hother
    refine iff_of_false Bool.false_ne_true ?_
    rintro ⟨⟨l, p⟩, digits, rfl, rfl, ht, -⟩
    exact hother p digits rfl ht

theorem marks_append (before : Option Token) (ts us : List Token) :
    marks before (ts ++ us) = marks before ts ++ marks (ts.getLast?.or before) us := by
  induction ts generalizing before with
  | nil => rfl
  | cons t ts ih =>
    rw [List.cons_append, marks, marks, ih, List.cons_append, List.getLast?_cons]
    cases ts.getLast? <;> rfl

theorem isSigned_shift_shift (k : Nat) (u v : Token) :
    isSigned (some (shift k u)) (shift k v) = isSigned (some u) v := by
  rw [Bool.eq_iff_iff, isSigned_iff, isSigned_iff]
  simp only [Option.some.injEq, exists_and_left, exists_eq_left', shift, Nat.add_assoc,
    Nat.add_left_cancel_iff]

theorem marks_shift (k : Nat) (u : Token) (us : List Token) :
    marks (some (shift k u)) (us.map (shift k)) = marks (some u) us := by
  induction us generalizing u with
  | nil => rfl
  | cons v us ih =>
    rw [List.map_cons, marks, marks, ih, isSigned_shift_shift]
    rfl

/-- A number behind blanks has no sign. -/
theorem isSigned_shift (h : Cut rest 0 as ts) (n : Nat) (u : Token) :
    isSigned ts.getLast? (shift (as.length + n) u) = true ↔
      isSigned ts.getLast? (shift as.length u) = true ∧ n = 0 := by
  rw [isSigned_iff, isSigned_iff]
  constructor
  · rintro ⟨a, digits, ha, hsub, hdigits, hposition⟩
    have hwithin := h.within a (List.mem_of_getLast? ha)
    have hpos := (h.ordinary a (List.mem_of_getLast? ha)).length_pos
    have hn : n = 0 := by
      simp only [shift] at hposition
      omega
    subst hn
    exact ⟨⟨a, digits, ha, hsub, hdigits, hposition⟩, rfl⟩
  · rintro ⟨h, rfl⟩
    exact h

theorem atSign_of_isSigned (h : Cut rest' 0 as ts) (hbs : Cut rest 0 bs (u :: us))
    (hsigned : isSigned ts.getLast? (shift as.length u) = true) : AtSign as (bs ++ rest) := by
  obtain ⟨a, digits, ha, hsub, hdigits, hposition⟩ := isSigned_iff.1 hsigned
  have hmem := List.mem_of_getLast? ha
  have hminus : (Lexeme.op .sub).text.toList = ['-'] := rfl
  have hwithin := (h.within a hmem).2
  have htext := h.text_prefix a hmem
  rw [hsub, hminus, List.length_singleton] at hwithin
  rw [hsub, hminus, Nat.sub_zero] at htext
  obtain ⟨hlast, hfirst⟩ : a.position + 1 = as.length ∧ u.position = 0 := by
    simp only [shift] at hposition
    omega
  constructor
  · obtain ⟨tail, htail⟩ := htext
    have hlength := congrArg List.length htail
    rw [List.length_append, List.length_singleton, List.length_drop] at hlength
    obtain rfl : tail = [] := List.eq_nil_of_length_eq_zero (by omega)
    rw [← List.take_append_drop a.position as, ← htail, List.append_nil, List.getLast?_concat]
  · have hnumber := hbs.ordinary u List.mem_cons_self
    have htext := hbs.text_prefix u List.mem_cons_self
    have hdigits : u.lexeme = .number digits := hdigits
    rw [hdigits] at hnumber
    rw [hdigits, hfirst, Lexeme.text, String.toList_ofList] at htext
    cases hnumber with
    | number hnumeral =>
      obtain ⟨d, tail, rfl, hd⟩ := hnumeral.head
      obtain ⟨ds, rfl⟩ := htext
      exact ⟨d, rfl, hd⟩

theorem isSigned_finish (before : Option Token) (position : Nat) :
    isSigned before ⟨.finish, position⟩ = false := by
  rw [Bool.eq_false_iff]
  intro h
  obtain ⟨_, _, -, -, hdigits, -⟩ := isSigned_iff.1 h
  cases hdigits

theorem marks_concat_finish (before : Option Token) (ts : List Token) (position : Nat) :
    marks before (ts ++ [⟨.finish, position⟩]) = marks before ts ++ [(.finish, false)] := by
  rw [marks_append, marks, marks, isSigned_finish]

/-- How far away the second text is does not matter for the marks, unless it starts with a number
that has a sign. -/
theorem marks_apart (h : Cut rest' 0 as ts) (hbs : Cut rest 0 bs us) {n n' : Nat}
    (hsign : AtSign as (bs ++ rest) → (n = 0 ↔ n' = 0)) :
    marks none (ts ++ us.map (shift (as.length + n))) =
      marks none (ts ++ us.map (shift (as.length + n'))) := by
  rw [marks_append, marks_append]
  cases us with
  | nil => rfl
  | cons u us =>
    have hsigned : isSigned ts.getLast? (shift (as.length + n) u) =
        isSigned ts.getLast? (shift (as.length + n') u) := by
      rw [Bool.eq_iff_iff, isSigned_shift h, isSigned_shift h]
      exact and_congr_right fun hs => hsign (atSign_of_isSigned h hbs hs)
    rw [Option.or_none, List.map_cons, List.map_cons, marks, marks, marks_shift, marks_shift,
      hsigned]
    rfl

end Marks

/-! ### Scans of edited texts -/

/-- The characters that are no blanks. -/
def visible (cs : List Char) : List Char :=
  cs.filter (!isBlank ·)

/-- The same character at both places, behind the same visible characters. -/
structure SameCharacter (c : Char) (cs ds : List Char) (p p' : Nat) : Prop where
  left : cs[p]? = some c
  right : ds[p']? = some c
  visible : visible (cs.take p) = visible (ds.take p')

/-- Both texts are cut into tokens that agree, or nothing can be read at the same character. -/
inductive SameScan (cs ds : List Char) : Prop
  | tokens {ts us : List Token} (h : Token.scanFrom [] 0 cs = .ok ts)
    (h' : Token.scanFrom [] 0 ds = .ok us) (hmarks : marks none ts = marks none us)
  | character {c : Char} {p p' : Nat}
    (h : Token.scanFrom [] 0 cs = .error (.formula (.unexpectedCharacter c) p))
    (h' : Token.scanFrom [] 0 ds = .error (.formula (.unexpectedCharacter c) p'))
    (hc : SameCharacter c cs ds p p')

section Scan
variable {as bs cs ds ws ws' : List Char} {ts us : List Token} {c : Char}

theorem visible_blanks (hws : ∀ c ∈ ws, isBlank c) : visible ws = [] := by
  rw [visible, List.filter_eq_nil_iff]
  exact fun c hc => by simp [hws c hc]

theorem visible_append (cs ds : List Char) : visible (cs ++ ds) = visible cs ++ visible ds :=
  List.filter_append ..

/-- Nothing can be read at the same character behind the same visible ones. -/
theorem sameScan_of_unreadable (h : Cut (c :: cs) 0 as ts) (h' : Cut (c :: ds) 0 bs us)
    (hnone : Lexeme.ofHead? (c :: cs) = none) (hnone' : Lexeme.ofHead? (c :: ds) = none)
    (hvisible : visible as = visible bs) : SameScan (as ++ c :: cs) (bs ++ c :: ds) := by
  have hat (es fs : List Char) : (es ++ c :: fs)[es.length]? = some c := by
    rw [List.getElem?_append_right (Nat.le_refl _), Nat.sub_self, List.getElem?_cons_zero]
  have hplace : SameCharacter c (as ++ c :: cs) (bs ++ c :: ds) as.length bs.length := by
    refine ⟨hat as cs, hat bs ds, ?_⟩
    rwa [List.take_left, List.take_left]
  refine .character ?_ ?_ hplace
  · rw [h.scan_eq_error hnone, Nat.zero_add]
  · rw [h'.scan_eq_error hnone', Nat.zero_add]

theorem SameScan.refl (cs : List Char) : SameScan cs cs := by
  cases h : Token.scanFrom [] 0 cs with
  | ok ts => exact .tokens h h rfl
  | error fault =>
    obtain ⟨as, c, rest, ts, rfl, has, hnone, -⟩ := cut_of_scan_eq_error h
    exact sameScan_of_unreadable has has hnone hnone rfl

theorem SameScan.trans {es : List Char} (h : SameScan cs ds) (h' : SameScan ds es) :
    SameScan cs es := by
  rcases h with ⟨hc, hd, hmarks⟩ | ⟨hc, hd, hplace⟩
  · rcases h' with ⟨hd', he, hmarks'⟩ | ⟨hd', he, hplace'⟩
    · obtain rfl := Except.ok.inj (hd.symm.trans hd')
      exact .tokens hc he (hmarks.trans hmarks')
    · cases hd.symm.trans hd'
  · rcases h' with ⟨hd', he, hmarks'⟩ | ⟨hd', he, hplace'⟩
    · cases hd.symm.trans hd'
    · cases hd.symm.trans hd'
      exact .character hc he ⟨hplace.left, hplace'.right, hplace.visible.trans hplace'.visible⟩

/-- Other blanks between two tokens. -/
theorem sameScan_of_cuts (h : Cut (ws ++ bs) 0 as ts) (h' : Cut (ws' ++ bs) 0 as ts)
    (hws : ∀ c ∈ ws, isBlank c) (hws' : ∀ c ∈ ws', isBlank c)
    (hsign : AtSign as bs → (ws = [] ↔ ws' = [])) :
    SameScan (as ++ (ws ++ bs)) (as ++ (ws' ++ bs)) := by
  obtain ⟨front, rest, us, rfl, hfront, hnone⟩ := exists_cut 0 bs
  have hcut {vs : List Char} (h : Cut (vs ++ (front ++ rest)) 0 as ts)
      (hvs : ∀ c ∈ vs, isBlank c) : Cut rest 0 (as ++ (vs ++ front))
        (ts ++ us.map (shift (as.length + vs.length))) := by
    refine .append ?_ (.blanks hvs ?_)
    · rwa [List.append_assoc]
    · rw [Nat.zero_add]
      exact hfront.shift _
  cases rest with
  | nil =>
    rw [List.append_nil]
    refine .tokens (hcut h hws).scan_eq_ok (hcut h' hws').scan_eq_ok ?_
    rw [marks_concat_finish, marks_concat_finish, marks_apart h hfront fun hs => ?_]
    rw [List.length_eq_zero_iff, List.length_eq_zero_iff]
    exact hsign hs
  | cons c rest =>
    have hvisible : visible (as ++ (ws ++ front)) = visible (as ++ (ws' ++ front)) := by
      simp only [visible_append, visible_blanks hws, visible_blanks hws']
    have hsame := sameScan_of_unreadable (hcut h hws) (hcut h' hws') hnone hnone hvisible
    rwa [List.append_assoc, List.append_assoc, List.append_assoc, List.append_assoc] at hsame

theorem ofHead?_eq_none_of_head (h : Lexeme.ofHead? (c :: cs) = none) (ds : List Char) :
    Lexeme.ofHead? (c :: ds) = none := by
  simp only [Lexeme.ofHead?] at h ⊢
  split at h
  · cases h
  split at h
  · cases h
  split at h
  · cases h
  · rename_i hdigit hname hblank
    rw [if_neg hdigit, if_neg hname, if_neg hblank]
    exact h

/-- Of the character behind the next one it counts only whether it is a digit. -/
theorem EndsBefore.of_heads {l : Lexeme} (h : EndsBefore (c :: cs) l)
    (hds : ∀ d, ds.head? = some d → isDigit d → cs.head? = some d) : EndsBefore (c :: ds) l := by
  cases l with
  | number digits =>
    refine ⟨h.1, h.2.imp_right fun hpoint => ?_⟩
    rintro d tail ⟨⟩
    by_contra hd
    obtain ⟨es, rfl⟩ := List.head?_eq_some_iff.1 (hds d rfl (by simpa using hd))
    exact hd (hpoint d es rfl)
  | name letters => exact h
  | _ => trivial

/-- Other blanks in a gap. -/
theorem sameScan_of_gap (h : Gap as (ws ++ bs)) (hends : ∀ l, EndsBefore (ws' ++ bs) l)
    (hws : ∀ c ∈ ws, isBlank c) (hws' : ∀ c ∈ ws', isBlank c)
    (hsign : AtSign as bs → (ws = [] ↔ ws' = [])) :
    SameScan (as ++ (ws ++ bs)) (as ++ (ws' ++ bs)) := by
  rcases h with h | ⟨h, hnone⟩
  · exact sameScan_of_cuts h (h.of_stops hends) hws hws' hsign
  · rename_i as ds c ts
    have hnone' := ofHead?_eq_none_of_head hnone (ds ++ (ws' ++ bs))
    rw [List.append_assoc, List.append_assoc]
    refine sameScan_of_unreadable h (h.congr fun l hl => hl.of_heads ?_) hnone hnone' rfl
    intro d hd hdigit
    cases ds with
    | nil =>
      rw [(hends (.number [])).1 d hd] at hdigit
      cases hdigit
    | cons e ds => exact hd

theorem endsBefore_blanks (hne : ws ≠ []) (hws : ∀ c ∈ ws, isBlank c) (l : Lexeme) :
    EndsBefore (ws ++ bs) l := by
  obtain ⟨w, vs, rfl⟩ := List.exists_cons_of_ne_nil hne
  exact endsBefore_blank (hws w List.mem_cons_self) _ l

theorem sameScan_of_respacing (h : Respacing cs ds) : SameScan cs ds := by
  cases h with
  | exchange hws hws' hne hne' =>
    exact sameScan_of_gap (gap_blanks hne hws) (endsBefore_blanks hne' hws') hws hws'
      fun _ => iff_of_false hne hne'
  | @front ws ws' bs hws hws' =>
    show SameScan ([] ++ (ws ++ bs)) ([] ++ (ws' ++ bs))
    exact sameScan_of_cuts .nil .nil hws hws' fun h => nomatch h.1
  | @behind as ws ws' hws hws' =>
    have hgap : Gap as (ws ++ []) := by
      by_cases hne : ws = []
      · rw [hne]
        exact gap_end as
      · exact gap_blanks hne hws
    have hends (l : Lexeme) : EndsBefore (ws' ++ []) l := by
      by_cases hne : ws' = []
      · rw [hne]
        exact endsBefore_nil l
      · exact endsBefore_blanks hne hws' l
    rw [← List.append_nil ws, ← List.append_nil ws']
    exact sameScan_of_gap hgap hends hws hws' fun ⟨_, _, hd, _⟩ => nomatch hd
  | @insert as ws bs hws hgap hsign =>
    by_cases hne : ws = []
    · rw [hne]
      exact .refl _
    · show SameScan (as ++ ([] ++ bs)) (as ++ (ws ++ bs))
      exact sameScan_of_gap hgap (endsBefore_blanks hne hws) (List.forall_mem_nil _) hws
        fun h => absurd h hsign

/-- Edits of the blanks of a text, one after the other. -/
abbrev Respaced : List Char → List Char → Prop :=
  Relation.ReflTransGen Respacing

theorem sameScan_of_respaced (h : Respaced cs ds) : SameScan cs ds := by
  induction h with
  | refl => exact .refl _
  | tail _ hstep ih => exact ih.trans (sameScan_of_respacing hstep)

end Scan

/-! ### Formulas -/

/-- Faults that two texts have in common: the parser objects to corresponding tokens, or nothing can
be read at the same character. -/
inductive SamePlace (s s' : String) : Fault → Fault → Prop
  | token {tokens tokens' : List Token} {fault fault' : Fault} (h : Token.scan s = .ok tokens)
    (h' : Token.scan s' = .ok tokens')
    (hlexemes : tokens.map (·.lexeme) = tokens'.map (·.lexeme))
    (hfault : SameFault (Places tokens tokens') fault fault') : SamePlace s s' fault fault'
  | character {c : Char} {p p' : Nat} (hc : SameCharacter c s.toList s'.toList p p') :
    SamePlace s s' (.formula (.unexpectedCharacter c) p) (.formula (.unexpectedCharacter c) p')

/-- Tokens that agree in their marks are parsed alike. -/
theorem outcome_parse_parallel (limit : Count) {s s' : String} {tokens tokens' : List Token}
    (h : Token.scan s = .ok tokens) (h' : Token.scan s' = .ok tokens')
    (hmarks : marks none tokens = marks none tokens') :
    SameResult (Places tokens tokens') Eq (parse limit (some s)).outcome
      (parse limit (some s')).outcome := by
  obtain ⟨ts, last, htokens, -⟩ := scan_eq_ok h
  have hnames := variableNames_congr (lexemes_eq_of_marks hmarks)
  have hread : SameResult (Places tokens tokens') Eq
      (readTokens limit (variableNames tokens) tokens)
      (readTokens limit (variableNames tokens') tokens') := by
    rw [← hnames]
    exact readTokens_parallel limit _ htokens hmarks
  rw [outcome_parse_of_scan h, outcome_parse_of_scan h']
  refine hread.bind ?_
  rintro root _ - rfl
  split
  · exact .error .exhausted
  · refine .ok ?_
    simp only [hnames]

/-- A formula whose blanks are edited is the same equation, or the parser objects to the same place
of it. -/
theorem parse_respaced {limit : Count} {s s' : String} (h : Respaced s.toList s'.toList) :
    (∀ e, (parse limit (some s)).outcome = .ok e ↔ (parse limit (some s')).outcome = .ok e) ∧
    ∀ fault fault', (parse limit (some s)).outcome = .error fault →
      (parse limit (some s')).outcome = .error fault' → SamePlace s s' fault fault' := by
  rcases sameScan_of_respaced h with ⟨hs, hs', hmarks⟩ | ⟨hs, hs', hplace⟩
  · have hsame := outcome_parse_parallel limit hs hs' hmarks
    exact ⟨fun e => hsame.ok_iff, fun fault fault' hf hf' =>
      .token hs hs' (lexemes_eq_of_marks hmarks) (hsame.fault hf hf')⟩
  · rw [outcome_parse_of_scan_error hs, outcome_parse_of_scan_error hs']
    refine ⟨fun e => ⟨nofun, nofun⟩, ?_⟩
    rintro _ _ ⟨⟩ ⟨⟩
    exact .character hplace

/-- `x--1` and `x- -1`: the first minus subtracts, the second is a sign. -/
theorem parse_respaced_sign :
    Respaced "x--1".toList "x- -1".toList ∧
      let e : Equation Float :=
        ⟨.sub (.var 0) (.num (-Decimal.readLiteral ['1'])), ["x"], by decide⟩
      (parse 0 (some "x--1")).outcome = .ok e ∧ (parse 0 (some "x- -1")).outcome = .ok e := by
  have hcut : Cut ['-', '1'] 0 ['x', '-'] [⟨.name ['x'], 0⟩, ⟨.op .sub, 1⟩] := by
    have hname : Word ['x'] := by decide
    have hminus : Op.sub.isBinary := rfl
    refine .lexeme (.name hname) ?_ (.lexeme (.op hminus) trivial .nil)
    rintro _ ⟨⟩
    decide
  have hsign : ¬AtSign ['x', '-'] ['-', '1'] := by
    rintro ⟨-, _, ⟨⟩, hdigit⟩
    revert hdigit
    decide
  have hinsert : Respacing (['x', '-'] ++ ['-', '1']) (['x', '-'] ++ ([' '] ++ ['-', '1'])) :=
    .insert (List.forall_mem_singleton.2 (by decide)) (.boundary hcut) hsign
  have htext : "x--1".toList = ['x', '-'] ++ ['-', '1'] := by decide
  have htext' : "x- -1".toList = ['x', '-'] ++ ([' '] ++ ['-', '1']) := by decide
  have hrespaced : Respaced "x--1".toList "x- -1".toList := by
    rw [htext, htext']
    exact .single hinsert
  have hscan : Token.scan "x--1" = .ok [⟨.name ['x'], 0⟩, ⟨.op .sub, 1⟩, ⟨.op .sub, 2⟩,
      ⟨.number ['1'], 3⟩, ⟨.finish, 4⟩] := by cbv
  refine ⟨hrespaced, ?_⟩
  intro e
  have hok : (parse 0 (some "x--1")).outcome = .ok e := by
    rw [outcome_parse hscan]
    rfl
  exact ⟨hok, ((parse_respaced hrespaced).1 e).1 hok⟩

end FormulaCalculus.Formula
