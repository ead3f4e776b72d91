import FormulaCalculus.Proofs.Latex.Grammar

/-!
# LaTeX texts are unambiguous

`Typesets.unique`: if two texts of one part, each followed by something that cannot continue it,
make up the same characters, then they are the same text and say the same. What cannot continue a
level is the end, a looser operator, and whatever closes an argument.
-/

namespace FormulaCalculus.Latex

open Formula Text

/-! ### Texts of which none starts another -/

section PrefixFree
variable {ι : Type} {text : ι → List Char} {all : List ι} {a b : ι} {u v : List Char}

def PrefixFree (text : ι → List Char) (all : List ι) : Prop :=
  ∀ a ∈ all, ∀ b ∈ all, text a <+: text b → a = b

theorem PrefixFree.append_inj (h : PrefixFree text all) (ha : a ∈ all) (hb : b ∈ all)
    (heq : text a ++ u = text b ++ v) : a = b ∧ u = v := by
  have hab : a = b := by
    rcases List.prefix_or_prefix_of_prefix (List.prefix_append (text a) u)
      (heq ▸ List.prefix_append (text b) v) with hp | hp
    · exact h a ha b hb hp
    · exact (h b hb a ha hp).symm
  subst hab
  exact ⟨rfl, List.append_cancel_left heq⟩

end PrefixFree

/-! ### Commands -/

/-- What a primary with a backslash at its head starts with. -/
inductive Lead
  | enclosed (f : Option Op)
  | fraction
  | word
  | underscore
  deriving DecidableEq

namespace Lead

def text : Lead → List Char
  | enclosed f => opening f
  | fraction => "\\frac\x7b".toList
  | word => "\\mathit\x7b".toList
  | underscore => "\\_".toList

def all : List Lead :=
  fraction :: word :: underscore :: enclosed none ::
    (Op.all.filter Op.isFunction).map fun op => enclosed (some op)

theorem mem_all_enclosed {f : Option Op} (hf : f.all Op.isFunction) : enclosed f ∈ all := by
  rcases f with _ | op
  · decide
  · cases op <;> first | decide | cases hf

theorem head_text {a : Lead} (ha : a ∈ all) : ∃ tail, a.text = '\\' :: tail := by
  have hall : ∀ a ∈ all, a.text.head? = some '\\' := by decide
  exact List.head?_eq_some_iff.1 (hall a ha)

theorem prefixFree : PrefixFree text all := by
  unfold PrefixFree
  decide +kernel

end Lead

/-! ### Signs -/

theorem prefixFree_sign : PrefixFree sign [.add, .sub, .mul] := by
  unfold PrefixFree
  decide

theorem mem_signs {op : Op} {l : Level} (h : op ∈ lineOperators l) :
    op ∈ [Op.add, .sub, .mul] := by
  cases l <;> revert op <;> decide

theorem sign_append_inj {op op' : Op} {k l : Level} {u v : List Char} (h : op ∈ lineOperators k)
    (h' : op' ∈ lineOperators l) (heq : sign op ++ u = sign op' ++ v) : op = op' ∧ u = v :=
  prefixFree_sign.append_inj (mem_signs h) (mem_signs h') heq

/-! ### Names -/

section Names
variable {m n : String} {u v cs ds : List Char}

def escape (cs : List Char) : List Char :=
  cs.flatMap fun c => if c = '_' then ['\\', '_'] else [c]

theorem escape_cons (c : Char) (cs : List Char) :
    escape (c :: cs) = (if c = '_' then ['\\', '_'] else [c]) ++ escape cs :=
  List.flatMap_cons

theorem ne_of_isNamePart {c : Char} (h : Lexeme.isNamePart c) : c ≠ '\\' ∧ c ≠ '\x7d' := by
  constructor <;> (rintro rfl; exact absurd h (by decide))

/-- The head of an escaped name is not the brace that ends it. -/
theorem escape_cons_append_ne {c : Char} (hc : Lexeme.isNamePart c) (cs u v : List Char) :
    escape (c :: cs) ++ u ≠ '\x7d' :: v := by
  intro h
  rw [escape_cons] at h
  split at h
  · exact absurd (List.cons.inj h).1 (by decide)
  · exact (ne_of_isNamePart hc).2 (List.cons.inj h).1

theorem escape_inj (hcs : ∀ c ∈ cs, Lexeme.isNamePart c) (hds : ∀ c ∈ ds, Lexeme.isNamePart c)
    (h : escape cs ++ '\x7d' :: u = escape ds ++ '\x7d' :: v) : cs = ds ∧ u = v := by
  induction cs generalizing ds with
  | nil =>
    cases ds with
    | nil => exact ⟨rfl, (List.cons.inj h).2⟩
    | cons d ds => exact absurd h.symm (escape_cons_append_ne (hds d List.mem_cons_self) _ _ _)
  | cons c cs ih =>
    cases ds with
    | nil => exact absurd h (escape_cons_append_ne (hcs c List.mem_cons_self) _ _ _)
    | cons d ds =>
      obtain ⟨hc, hcs⟩ := List.forall_mem_cons.1 hcs
      obtain ⟨hd, hds⟩ := List.forall_mem_cons.1 hds
      have hrest (h : escape cs ++ '\x7d' :: u = escape ds ++ '\x7d' :: v) (hcd : c = d) :
          c :: cs = d :: ds ∧ u = v := by
        obtain ⟨rfl, rfl⟩ := ih hcs hds h
        exact ⟨by rw [hcd], rfl⟩
      rw [escape_cons, escape_cons] at h
      -- A backslash is no character of a name, so an underscore is told by its escape.
      split_ifs at h with hcu hdu hdu
      · exact hrest (List.append_cancel_left ((List.append_assoc _ _ _).symm.trans
          (h.trans (List.append_assoc _ _ _)))) (hcu.trans hdu.symm)
      · exact absurd (List.cons.inj h).1.symm (ne_of_isNamePart hd).1
      · exact absurd (List.cons.inj h).1 (ne_of_isNamePart hc).1
      · exact hrest (List.cons.inj h).2 (List.cons.inj h).1

/-- A name is a letter, the underscore, or set as a word. -/
theorem name_cases (h : Word n.toList) :
    (∃ c, Lexeme.isNameStart c ∧ n.toList = [c] ∧ (name n).toList = [c]) ∨
      (n.toList = ['_'] ∧ (name n).toList = Lead.underscore.text) ∨
      (name n).toList = Lead.word.text ++ (escape n.toList ++ ['\x7d']) := by
  obtain ⟨c, tail, hn, hc, -⟩ := h
  by_cases hlength : n.length = 1
  · have htail : tail = [] := by
      rw [← String.length_toList, hn, List.length_cons] at hlength
      exact List.length_eq_zero_iff.1 (Nat.succ.inj hlength)
    have hname : (name n).toList = escape n.toList := by
      simp only [name, if_pos hlength, String.toList_ofList]
      rfl
    rw [htail] at hn
    rw [hname, hn, escape_cons]
    split_ifs with hu
    · exact Or.inr (Or.inl ⟨by rw [hu], rfl⟩)
    · exact Or.inl ⟨c, hc, rfl, rfl⟩
  · refine Or.inr (Or.inr ?_)
    simp only [name, if_neg hlength, group, String.toList_append, String.toList_ofList]
    rfl

theorem letter_append_ne {a : Lead} (ha : a ∈ Lead.all) {c : Char} (hc : Lexeme.isNameStart c) :
    [c] ++ u ≠ a.text ++ v := by
  obtain ⟨tail, htext⟩ := Lead.head_text ha
  rw [htext]
  intro h
  exact (ne_of_isNamePart (isNamePart_of_isNameStart hc)).1 (List.cons.inj h).1

theorem name_unique (hm : Word m.toList) (hn : Word n.toList)
    (h : (name m).toList ++ u = (name n).toList ++ v) : m = n ∧ u = v := by
  have hword : Lead.word ∈ Lead.all := by decide
  have hunderscore : Lead.underscore ∈ Lead.all := by decide
  rcases name_cases hm with ⟨c, hc, hmc, hm'⟩ | ⟨hmu, hm'⟩ | hm' <;>
    rcases name_cases hn with ⟨d, hd, hnd, hn'⟩ | ⟨hnu, hn'⟩ | hn' <;>
    rw [hm', hn'] at h
  · obtain ⟨rfl, rfl⟩ := List.cons.inj h
    exact ⟨String.toList_injective (hmc.trans hnd.symm), rfl⟩
  · exact absurd h (letter_append_ne hunderscore hc)
  · rw [List.append_assoc] at h
    exact absurd h (letter_append_ne hword hc)
  · exact absurd h.symm (letter_append_ne hunderscore hd)
  · exact ⟨String.toList_injective (hmu.trans hnu.symm), List.append_cancel_left h⟩
  · rw [List.append_assoc] at h
    exact absurd (Lead.prefixFree.append_inj hunderscore hword h).1 (by decide)
  · rw [List.append_assoc] at h
    exact absurd h.symm (letter_append_ne hword hd)
  · rw [List.append_assoc] at h
    exact absurd (Lead.prefixFree.append_inj hword hunderscore h).1 (by decide)
  · simp only [List.append_assoc] at h
    obtain ⟨hletters, rfl⟩ := escape_inj (isNamePart_of_word hm) (isNamePart_of_word hn)
      (List.append_cancel_left h)
    exact ⟨String.toList_injective hletters, rfl⟩

/-- A name is neither a fraction nor in brackets. -/
theorem name_append_ne {a : Lead} (hn : Word n.toList) (ha : a ∈ Lead.all)
    (hword : a ≠ .word) (hunderscore : a ≠ .underscore) : (name n).toList ++ u ≠ a.text ++ v := by
  rcases name_cases hn with ⟨c, hc, -, hn'⟩ | ⟨-, hn'⟩ | hn' <;> rw [hn']
  · exact letter_append_ne ha hc
  · exact fun h => hunderscore (Lead.prefixFree.append_inj (by decide) ha h).1.symm
  · rw [List.append_assoc]
    exact fun h => hword (Lead.prefixFree.append_inj (by decide) ha h).1.symm

end Names

/-! ### Numbers -/

section Numbers
variable {x y : Float} {n : String} {u v cs ds : List Char}

/-- Does not go on with a number. -/
def EndsNumber (rest : List Char) : Prop :=
  ∀ c, rest.head? = some c → isDigit c = false ∧ c ≠ '.'

theorem numeral_unique (hcs : Numeral cs) (hds : Numeral ds) (hu : EndsNumber u)
    (hv : EndsNumber v) (h : cs ++ u = ds ++ v) : cs = ds := by
  have hnumber {es w : List Char} (hes : Numeral es) (hw : EndsNumber w) :
      Lexeme.numberAt (es ++ w) = es :=
    hes.numberAt_append (fun c hc => (hw c hc).1) fun hpoint => (hw '.' hpoint).2 rfl
  rw [← hnumber hcs hu, h, hnumber hds hv]

theorem minus_append_ne (hcs : Numeral cs) : cs ++ u ≠ '-' :: v := by
  obtain ⟨c, tail, rfl, hc⟩ := hcs.head
  rintro ⟨⟩
  exact absurd hc (by decide)

theorem spells_unique (hx : Spells cs x) (hy : Spells ds y) (hu : EndsNumber u)
    (hv : EndsNumber v) (h : cs ++ u = ds ++ v) : cs = ds ∧ x = y := by
  cases hx with
  | plain hcs =>
    cases hy with
    | plain hds =>
      obtain rfl := numeral_unique hcs hds hu hv h
      exact ⟨rfl, rfl⟩
    | negative hds => exact absurd h (minus_append_ne hcs)
  | negative hcs =>
    cases hy with
    | plain hds => exact absurd h.symm (minus_append_ne hds)
    | negative hds =>
      obtain rfl := numeral_unique hcs hds hu hv (List.cons.inj h).2
      exact ⟨rfl, rfl⟩

theorem head_of_spells (h : Spells cs x) : ∃ c tail, cs = c :: tail ∧ (c = '-' ∨ isDigit c) := by
  cases h with
  | plain h =>
    obtain ⟨c, tail, rfl, hc⟩ := h.head
    exact ⟨c, tail, rfl, Or.inr hc⟩
  | negative h => exact ⟨_, _, rfl, Or.inl rfl⟩

theorem spells_append_ne_lead {a : Lead} (hx : Spells cs x) (ha : a ∈ Lead.all) :
    cs ++ u ≠ a.text ++ v := by
  obtain ⟨c, tail, rfl, hc⟩ := head_of_spells hx
  obtain ⟨tail', htext⟩ := Lead.head_text ha
  rw [htext]
  intro h
  obtain rfl := (List.cons.inj h).1
  exact absurd hc (by decide)

theorem spells_append_ne_name (hx : Spells cs x) (hn : Word n.toList) :
    cs ++ u ≠ (name n).toList ++ v := by
  rcases name_cases hn with ⟨d, hd, -, hn'⟩ | ⟨-, hn'⟩ | hn' <;> rw [hn']
  · obtain ⟨c, tail, rfl, hc⟩ := head_of_spells hx
    rintro ⟨⟩
    rcases hc with rfl | hc
    · exact absurd hd (by decide)
    · rw [isDigit_eq_false_of_isNameStart hd] at hc
      cases hc
  · exact spells_append_ne_lead hx (by decide)
  · rw [List.append_assoc]
    exact spells_append_ne_lead hx (by decide)

end Numbers

/-! ### What follows a text -/

/-- What may stand after a text of the level. -/
inductive Follows (l : Level) : List Char → Prop
  | finish : Follows l []
  | brace (cs : List Char) : Follows l ('\x7d' :: cs)
  | command (cs : List Char) : Follows l ('\\' :: cs)
  | power (hl : l = .primary) (cs : List Char) : Follows l ('^' :: cs)
  | operator {k : Level} {op : Op} (hop : op ∈ lineOperators k) (hk : k.rank < l.rank)
    (cs : List Char) : Follows l (sign op ++ cs)

section Follows
variable {k l : Level} {op : Op} {u cs : List Char} {p q : Phrase}

theorem Follows.weaken (h : Follows k u) (hl : k.rank ≤ l.rank) : Follows l u := by
  cases h with
  | finish => exact .finish
  | brace => exact .brace _
  | command => exact .command _
  | power hk =>
    subst hk
    exact .power (by cases l <;> first | rfl | exact absurd hl (by decide)) _
  | operator hop hk => exact .operator hop (Nat.lt_of_lt_of_le hk hl) _

theorem Follows.ne_sign (h : Follows l u) (hop : op ∈ lineOperators l) : u ≠ sign op ++ cs := by
  cases h with
  | operator hop' hk =>
    intro heq
    obtain ⟨rfl, -⟩ := sign_append_inj hop' hop heq
    rw [← levelOf_of_mem_lineOperators hop, levelOf_of_mem_lineOperators hop'] at hk
    exact absurd hk (Nat.lt_irrefl _)
  | _ => exact fun heq => absurd (congrArg List.head? heq) (by simp [sign])

theorem Follows.ne_caret (h : Follows l u) (hl : l ≠ .primary) : u ≠ '^' :: cs := by
  cases h with
  | power h => exact absurd h hl
  | _ => exact fun heq => absurd (congrArg List.head? heq) (by simp [sign])

theorem Follows.endsNumber (h : Follows l u) : EndsNumber u := by
  cases h <;> rintro _ ⟨⟩ <;> exact ⟨by decide, by decide⟩

theorem follows_closing (f : Option Op) (u : List Char) : Follows l (closing f ++ u) := by
  unfold closing
  split
  · exact .brace _
  · exact .command _

/-- What follows an operand is the rest of its level and whatever follows that. -/
theorem Typesets.follows (h : Typesets (.rest l p) cs q) (hl : l ≠ .primary) (hu : Follows l u) :
    Follows l.next (cs ++ u) := by
  have hlt : l.rank < l.next.rank := by
    cases l <;> first | decide | exact absurd rfl hl
  cases h with
  | stop => exact hu.weaken (Nat.le_of_lt hlt)
  | more hop =>
    rw [List.append_assoc]
    exact .operator hop hlt _
  | power => exact .power rfl _

end Follows

/-! ### Reading a text -/

def Part.level : Part → Level
  | whole l => l
  | rest l _ => l

/-- From a given head on, there is only one text of a part, and it says one phrase. -/
theorem Typesets.unique {a : Part} {cs ds u v : List Char} {p q : Phrase} (h : Typesets a cs p)
    (h' : Typesets a ds q) (hu : Follows a.level u) (hv : Follows a.level v)
    (heq : cs ++ u = ds ++ v) : cs = ds ∧ p = q := by
  induction h generalizing ds u v q with
  | number hx =>
    cases h' with
    | number hy =>
      obtain ⟨rfl, rfl⟩ := spells_unique hx hy hu.endsNumber hv.endsNumber heq
      exact ⟨rfl, rfl⟩
    | ident hn => exact absurd heq (spells_append_ne_name hx hn)
    | fraction =>
      rw [List.append_assoc] at heq
      exact absurd heq (spells_append_ne_lead (a := .fraction) hx (by decide))
    | enclosed f hf =>
      rw [List.append_assoc] at heq
      exact absurd heq (spells_append_ne_lead hx (Lead.mem_all_enclosed hf))
    | chain hl => exact absurd rfl hl
  | ident hm =>
    cases h' with
    | number hy => exact absurd heq.symm (spells_append_ne_name hy hm)
    | ident hn =>
      obtain ⟨rfl, -⟩ := name_unique hm hn heq
      exact ⟨rfl, rfl⟩
    | fraction =>
      rw [List.append_assoc] at heq
      exact absurd heq (name_append_ne (a := .fraction) hm (by decide) nofun nofun)
    | enclosed f hf =>
      rw [List.append_assoc] at heq
      exact absurd heq (name_append_ne hm (Lead.mem_all_enclosed hf) nofun nofun)
    | chain hl => exact absurd rfl hl
  | fraction _ _ ihp ihq =>
    cases h' with
    | number hy =>
      rw [List.append_assoc] at heq
      exact absurd heq.symm (spells_append_ne_lead (a := .fraction) hy (by decide))
    | ident hn =>
      rw [List.append_assoc] at heq
      exact absurd heq.symm (name_append_ne (a := .fraction) hn (by decide) nofun nofun)
    | fraction hp' hq' =>
      simp only [List.append_assoc, List.cons_append] at heq
      have hrest := List.append_cancel_left heq
      obtain ⟨rfl, rfl⟩ := ihp hp' (.brace _) (.brace _) hrest
      have hrest := (List.cons.inj (List.cons.inj (List.append_cancel_left hrest)).2).2
      obtain ⟨rfl, rfl⟩ := ihq hq' (.brace _) (.brace _) hrest
      exact ⟨rfl, rfl⟩
    | enclosed f hf =>
      rw [List.append_assoc, List.append_assoc (opening f)] at heq
      exact absurd (Lead.prefixFree.append_inj (a := .fraction) (by decide)
        (Lead.mem_all_enclosed hf) heq).1 nofun
    | chain hl => exact absurd rfl hl
  | enclosed f hf _ ih =>
    cases h' with
    | number hy =>
      rw [List.append_assoc] at heq
      exact absurd heq.symm (spells_append_ne_lead hy (Lead.mem_all_enclosed hf))
    | ident hn =>
      rw [List.append_assoc] at heq
      exact absurd heq.symm (name_append_ne hn (Lead.mem_all_enclosed hf) nofun nofun)
    | fraction =>
      rw [List.append_assoc, List.append_assoc] at heq
      exact absurd (Lead.prefixFree.append_inj (b := .fraction) (Lead.mem_all_enclosed hf)
        (by decide) heq).1 nofun
    | enclosed f' hf' hp' =>
      simp only [List.append_assoc] at heq
      obtain ⟨hlead, hrest⟩ := Lead.prefixFree.append_inj (Lead.mem_all_enclosed hf)
        (Lead.mem_all_enclosed hf') heq
      cases hlead
      obtain ⟨rfl, rfl⟩ := ih hp' (follows_closing f u) (follows_closing f v) hrest
      exact ⟨rfl, rfl⟩
    | chain hl => exact absurd rfl hl
  | chain hl _ hr ihp ihr =>
    cases h' with
    | chain _ hp' hr' =>
      rw [List.append_assoc, List.append_assoc] at heq
      obtain ⟨rfl, rfl⟩ := ihp hp' (hr.follows hl hu) (hr'.follows hl hv) heq
      obtain ⟨rfl, rfl⟩ := ihr hr' hu hv (List.append_cancel_left heq)
      exact ⟨rfl, rfl⟩
    | _ => exact absurd rfl hl
  | stop =>
    cases h' with
    | stop => exact ⟨rfl, rfl⟩
    | more hop =>
      rw [List.append_assoc] at heq
      exact absurd heq (hu.ne_sign hop)
    | power => exact absurd heq (hu.ne_caret nofun)
  | more hop _ hr ihq ihr =>
    cases h' with
    | stop =>
      rw [List.append_assoc] at heq
      exact absurd heq.symm (hv.ne_sign hop)
    | more hop' hq' hr' =>
      simp only [List.append_assoc] at heq
      obtain ⟨rfl, hrest⟩ := sign_append_inj hop hop' heq
      have hl := lineOperators_ne_primary hop
      obtain ⟨rfl, rfl⟩ := ihq hq' (hr.follows hl hu) (hr'.follows hl hv) hrest
      obtain ⟨rfl, rfl⟩ := ihr hr' hu hv (List.append_cancel_left hrest)
      exact ⟨rfl, rfl⟩
    | power => cases hop
  | power _ _ ihq ihr =>
    cases h' with
    | stop => exact absurd heq.symm (hv.ne_caret nofun)
    | more hop => cases hop
    | power hq' hr' =>
      simp only [List.cons_append, List.append_assoc] at heq
      have hrest := (List.cons.inj (List.cons.inj heq).2).2
      obtain ⟨rfl, rfl⟩ := ihq hq' (.brace _) (.brace _) hrest
      obtain ⟨rfl, rfl⟩ := ihr hr' hu hv (List.cons.inj (List.append_cancel_left hrest)).2
      exact ⟨rfl, rfl⟩

end FormulaCalculus.Latex
