import FormulaCalculus.Formula.Token
import Mathlib

/-!
# Scanning

What a scan yields, and texts whose tokens are known. `Scans cs position ts`: wherever a blank, a
bracket or the end follows, the characters are cut into the tokens. Numerals and names are, and so
is what is put together of such texts as printers do, with a blank on both sides of an operator.
-/

namespace FormulaCalculus.Formula

open Text

/-! ### Classes of characters -/

theorem isDigit_le {c : Char} (h : isDigit c) : 48 ≤ c.toNat ∧ c.toNat ≤ 57 ∨ 0x660 ≤ c.toNat := by
  obtain ⟨d, hd⟩ := Option.isSome_iff_exists.1 h
  obtain ⟨z, hz, -⟩ := Option.map_eq_some_iff.1 hd
  have hmem := List.mem_of_find?_eq_some hz
  have hc := List.find?_some hz
  simp only [Bool.and_eq_true, decide_eq_true_eq] at hc
  have hzero : ∀ z ∈ digitZeros, z = 48 ∨ 0x660 ≤ z := by decide
  have := hzero z hmem
  omega

theorem isNameStart_gt {c : Char} (h : Lexeme.isNameStart c) : 57 < c.toNat ∧ c.toNat < 128 := by
  simp only [Lexeme.isNameStart, Char.isAlpha, Char.isUpper, Char.isLower, Bool.or_eq_true,
    Bool.and_eq_true, decide_eq_true_eq, beq_iff_eq] at h
  rcases h with (h | h) | rfl
  · exact ⟨Nat.lt_of_lt_of_le (by decide) h.1, Nat.lt_of_le_of_lt h.2 (by decide)⟩
  · exact ⟨Nat.lt_of_lt_of_le (by decide) h.1, Nat.lt_of_le_of_lt h.2 (by decide)⟩
  · decide

theorem isNamePart_of_isNameStart {c : Char} (h : Lexeme.isNameStart c) : Lexeme.isNamePart c := by
  simp only [Lexeme.isNameStart, Lexeme.isNamePart, Char.isAlphanum, Bool.or_eq_true] at h ⊢
  exact h.imp_left Or.inl

theorem isDigit_eq_false_of_isNameStart {c : Char} (h : Lexeme.isNameStart c) :
    isDigit c = false := by
  rw [Bool.eq_false_iff]
  intro hd
  have := isNameStart_gt h
  have := isDigit_le hd
  omega

theorem isBlank_eq_false_of_isDigit {c : Char} (h : isDigit c) : isBlank c = false := by
  have hapart : ∀ z ∈ digitZeros, ∀ b ∈ blanks, ¬(z ≤ b ∧ b ≤ z + 9) := by decide +kernel
  obtain ⟨d, hd⟩ := Option.isSome_iff_exists.1 h
  obtain ⟨z, hz, -⟩ := Option.map_eq_some_iff.1 hd
  have hc := List.find?_some hz
  simp only [Bool.and_eq_true, decide_eq_true_eq] at hc
  rw [isBlank, List.contains_eq_mem, decide_eq_false_iff_not]
  exact fun hb => hapart z (List.mem_of_find?_eq_some hz) _ hb hc

theorem isBlank_eq_false_of_isNamePart {c : Char} (h : Lexeme.isNamePart c) :
    isBlank c = false := by
  have hapart : ∀ b ∈ blanks, b < 48 ∨ 122 < b := by decide
  simp only [Lexeme.isNamePart, Char.isAlphanum, Char.isAlpha, Char.isUpper, Char.isLower,
    Char.isDigit, Bool.or_eq_true, Bool.and_eq_true, decide_eq_true_eq, beq_iff_eq, ge_iff_le,
    UInt32.le_iff_toNat_le] at h
  change (((65 ≤ c.toNat ∧ c.toNat ≤ 90) ∨ 97 ≤ c.toNat ∧ c.toNat ≤ 122) ∨
    48 ≤ c.toNat ∧ c.toNat ≤ 57) ∨ c = '_' at h
  rw [isBlank, List.contains_eq_mem, decide_eq_false_iff_not]
  intro hmem
  rcases h with h | rfl
  · have := hapart _ hmem
    omega
  · revert hmem
    decide

theorem isBlank_eq_false_of_isNameStart {c : Char} (h : Lexeme.isNameStart c) :
    isBlank c = false :=
  isBlank_eq_false_of_isNamePart (isNamePart_of_isNameStart h)

/-- A blank belongs to no class apart from the blanks. -/
theorem eq_false_of_isBlank {p : Char → Bool} {c : Char} (hp : p c → isBlank c = false)
    (h : isBlank c) : p c = false := by
  rw [Bool.eq_false_iff]
  intro hc
  rw [hp hc] at h
  cases h

/-! ### Lexemes -/

/-- Ends the lexeme before it. -/
def Stops (rest : List Char) : Prop :=
  ∀ c, rest.head? = some c → c = ' ' ∨ c = '(' ∨ c = ')'

theorem stops_nil : Stops [] :=
  nofun

theorem stops_cons {c : Char} {cs : List Char} (h : c = ' ' ∨ c = '(' ∨ c = ')') :
    Stops (c :: cs) := by
  rintro _ ⟨⟩
  exact h

section Span
variable {p : Char → Bool} {cs rest : List Char}

theorem takeWhile_append_of_head (hcs : ∀ c ∈ cs, p c)
    (hrest : ∀ c, rest.head? = some c → p c = false) : (cs ++ rest).takeWhile p = cs := by
  rw [List.takeWhile_append_of_pos hcs]
  cases rest with
  | nil => exact List.append_nil _
  | cons c rest => rw [List.takeWhile_cons_of_neg (by simp [hrest c rfl]), List.append_nil]

theorem dropWhile_append_of_head (hcs : ∀ c ∈ cs, p c)
    (hrest : ∀ c, rest.head? = some c → p c = false) : (cs ++ rest).dropWhile p = rest := by
  rw [List.dropWhile_append_of_pos hcs]
  cases rest with
  | nil => rfl
  | cons c rest => rw [List.dropWhile_cons_of_neg (by simp [hrest c rfl])]

end Span

/-- Digits, with a point between digits at most once. -/
inductive Numeral : List Char → Prop
  | whole {ds : List Char} (hne : ds ≠ []) (h : ∀ c ∈ ds, isDigit c) : Numeral ds
  | point {ds fs : List Char} (hne : ds ≠ []) (h : ∀ c ∈ ds, isDigit c) (hne' : fs ≠ [])
    (h' : ∀ c ∈ fs, isDigit c) : Numeral (ds ++ '.' :: fs)

/-- The characters of a name. -/
def Word (cs : List Char) : Prop :=
  ∃ c tail, cs = c :: tail ∧ Lexeme.isNameStart c ∧ ∀ x ∈ tail, Lexeme.isNamePart x

theorem word_iff {cs : List Char} :
    Word cs ↔ (cs.head?.any Lexeme.isNameStart && cs.tail.all Lexeme.isNamePart) = true := by
  cases cs with
  | nil => simp [Word]
  | cons c tail =>
    simp only [List.head?_cons, Option.any_some, List.tail_cons, Bool.and_eq_true,
      List.all_eq_true]
    refine ⟨?_, fun ⟨hc, ht⟩ => ⟨c, tail, rfl, hc, ht⟩⟩
    rintro ⟨_, _, ⟨⟩, hc, ht⟩
    exact ⟨hc, ht⟩

instance : DecidablePred Word :=
  fun _ => decidable_of_iff _ word_iff.symm

theorem isNamePart_of_word {cs : List Char} (h : Word cs) : ∀ c ∈ cs, Lexeme.isNamePart c := by
  obtain ⟨c, tail, rfl, hc, htail⟩ := h
  exact List.forall_mem_cons.2 ⟨isNamePart_of_isNameStart hc, htail⟩

/-- What a scan reads before the end. -/
inductive Ordinary : Lexeme → Prop
  | number {digits : List Char} (h : Numeral digits) : Ordinary (.number digits)
  | name {letters : List Char} (h : Word letters) : Ordinary (.name letters)
  | op {op : Op} (h : op.isBinary) : Ordinary (.op op)
  | opening : Ordinary .opening
  | closing : Ordinary .closing

theorem Numeral.isDigit_or_point {cs : List Char} (h : Numeral cs) :
    ∀ c ∈ cs, isDigit c ∨ c = '.' := by
  cases h with
  | whole _ h => exact fun c hc => Or.inl (h c hc)
  | point _ h _ h' =>
    rw [List.forall_mem_append, List.forall_mem_cons]
    exact ⟨fun c hc => Or.inl (h c hc), Or.inr rfl, fun c hc => Or.inl (h' c hc)⟩

theorem Numeral.head {cs : List Char} (h : Numeral cs) : ∃ c tail, cs = c :: tail ∧ isDigit c := by
  cases h with
  | whole hne h =>
    obtain ⟨c, tail, rfl⟩ := List.exists_cons_of_ne_nil hne
    exact ⟨c, tail, rfl, h c List.mem_cons_self⟩
  | point hne h =>
    obtain ⟨c, tail, rfl⟩ := List.exists_cons_of_ne_nil hne
    exact ⟨c, _, List.cons_append, h c List.mem_cons_self⟩

/-- The text does not prolong the lexeme that stands before it. -/
def EndsBefore (rest : List Char) : Lexeme → Prop
  | .number digits => (∀ c, rest.head? = some c → isDigit c = false) ∧
    ('.' ∈ digits ∨ ∀ c tail, rest = '.' :: c :: tail → isDigit c = false)
  | .name _ => ∀ c, rest.head? = some c → Lexeme.isNamePart c = false
  | _ => True

theorem endsBefore_of_head {rest : List Char} (h : ∀ c, rest.head? = some c →
    isDigit c = false ∧ Lexeme.isNamePart c = false ∧ c ≠ '.') (l : Lexeme) :
    EndsBefore rest l := by
  cases l with
  | number digits =>
    refine ⟨fun c hc => (h c hc).1, .inr ?_⟩
    rintro c tail rfl
    exact absurd rfl (h '.' rfl).2.2
  | name letters => exact fun c hc => (h c hc).2.1
  | _ => trivial

theorem Stops.endsBefore {rest : List Char} (h : Stops rest) (l : Lexeme) : EndsBefore rest l := by
  refine endsBefore_of_head (fun c hc => ?_) l
  rcases h c hc with rfl | rfl | rfl <;> decide

theorem Numeral.numberAt {cs rest : List Char} (h : Numeral cs)
    (hrest : EndsBefore rest (.number cs)) : Lexeme.numberAt (cs ++ rest) = cs := by
  obtain ⟨hdigit, hpoint⟩ := hrest
  unfold Lexeme.numberAt
  cases h with
  | whole _ h =>
    rw [takeWhile_append_of_head h hdigit, dropWhile_append_of_head h hdigit]
    split
    · rename_i tail
      have hnone : '.' ∉ cs := fun hmem => absurd (h '.' hmem) (by decide)
      have htail : tail.takeWhile isDigit = [] := by
        cases tail with
        | nil => rfl
        | cons c tail =>
          have hc := hpoint.resolve_left hnone c tail rfl
          rw [List.takeWhile_cons_of_neg (by simp [hc])]
      simp only [htail, List.isEmpty_nil, if_true]
    · rfl
  | @point ds fs _ h hne' h' =>
    have hhead : ∀ c, ('.' :: (fs ++ rest)).head? = some c → isDigit c = false := by
      rintro _ ⟨⟩
      decide
    rw [List.append_assoc, List.cons_append, takeWhile_append_of_head h hhead,
      dropWhile_append_of_head h hhead]
    simp only [takeWhile_append_of_head h' hdigit]
    rw [if_neg (by simpa using hne')]

/-- The number at the head of a text ends where neither a digit nor a point follows. -/
theorem Numeral.numberAt_append {cs rest : List Char} (h : Numeral cs)
    (hdigit : ∀ c, rest.head? = some c → isDigit c = false) (hpoint : rest.head? ≠ some '.') :
    Lexeme.numberAt (cs ++ rest) = cs := by
  refine h.numberAt ⟨hdigit, .inr ?_⟩
  rintro c tail rfl
  exact absurd rfl hpoint

theorem ofHead?_symbol {op : Op} (hop : op.isBinary) :
    ∃ c, op.symbol.toList = [c] ∧ isBlank c = false ∧
      ∀ rest, Lexeme.ofHead? (c :: rest) = some (some (.op op), 1) := by
  cases op with
  | add => exact ⟨'+', by decide, by decide, fun _ => rfl⟩
  | sub => exact ⟨'-', by decide, by decide, fun _ => rfl⟩
  | mul => exact ⟨'*', by decide, by decide, fun _ => rfl⟩
  | div => exact ⟨'/', by decide, by decide, fun _ => rfl⟩
  | pow => exact ⟨'^', by decide, by decide, fun _ => rfl⟩
  | _ => cases hop

/-- A lexeme is read off its own text if nothing behind prolongs it. -/
theorem Ordinary.ofHead? {l : Lexeme} {rest : List Char} (hl : Ordinary l)
    (hrest : EndsBefore rest l) :
    Lexeme.ofHead? (l.text.toList ++ rest) = some (some l, l.text.toList.length) := by
  cases hl with
  | number h =>
    have hn := h.numberAt hrest
    obtain ⟨c, tail, rfl, hc⟩ := h.head
    rw [Lexeme.text, String.toList_ofList]
    rw [List.cons_append] at hn ⊢
    simp only [Lexeme.ofHead?, if_pos hc, hn]
  | name h =>
    obtain ⟨c, tail, rfl, hc, htail⟩ := h
    have hspan : ((c :: tail) ++ rest).takeWhile Lexeme.isNamePart = c :: tail :=
      takeWhile_append_of_head (List.forall_mem_cons.2 ⟨isNamePart_of_isNameStart hc, htail⟩) hrest
    rw [Lexeme.text, String.toList_ofList]
    rw [List.cons_append] at hspan ⊢
    simp only [Lexeme.ofHead?, isDigit_eq_false_of_isNameStart hc, if_pos hc, hspan,
      Bool.false_eq_true, if_false]
  | op h =>
    obtain ⟨c, hsymbol, -, hhead⟩ := ofHead?_symbol h
    rw [Lexeme.text, hsymbol]
    exact hhead rest
  | opening => rfl
  | closing => rfl

theorem Numeral.ofHead? {cs rest : List Char} (h : Numeral cs) (hrest : Stops rest) :
    Lexeme.ofHead? (cs ++ rest) = some (some (.number cs), cs.length) := by
  have := (Ordinary.number h).ofHead? (hrest.endsBefore _)
  rwa [Lexeme.text, String.toList_ofList] at this

theorem Word.ofHead? {cs rest : List Char} (h : Word cs) (hrest : Stops rest) :
    Lexeme.ofHead? (cs ++ rest) = some (some (.name cs), cs.length) := by
  have := (Ordinary.name h).ofHead? (hrest.endsBefore _)
  rwa [Lexeme.text, String.toList_ofList] at this

/-! ### What a scan yields -/

theorem numeral_numberAt {c : Char} (hc : isDigit c) (cs : List Char) :
    Numeral (Lexeme.numberAt (c :: cs)) := by
  have hne : (c :: cs).takeWhile isDigit ≠ [] := by
    rw [List.takeWhile_cons_of_pos hc]
    exact List.cons_ne_nil _ _
  have hdigits (ds : List Char) : ∀ d ∈ ds.takeWhile isDigit, isDigit d :=
    fun d hd => List.all_eq_true.1 List.all_takeWhile d hd
  unfold Lexeme.numberAt
  split
  · dsimp only
    split
    · exact .whole hne (hdigits _)
    · rename_i hf
      exact .point hne (hdigits _) (by simpa using hf) (hdigits _)
  · exact .whole hne (hdigits _)

theorem head?_dropWhile (p : Char → Bool) (cs : List Char) :
    ∀ c, (cs.dropWhile p).head? = some c → p c = false := by
  intro c hc
  have h := List.head?_dropWhile_not p cs
  rwa [hc] at h

/-- The digits at the head of a text are all that belong to their number. -/
theorem numberAt_append (cs : List Char) : ∃ rest, cs = Lexeme.numberAt cs ++ rest ∧
    EndsBefore rest (.number (Lexeme.numberAt cs)) := by
  have hsplit := List.takeWhile_append_dropWhile (p := isDigit) (l := cs)
  have hhead := head?_dropWhile isDigit cs
  unfold Lexeme.numberAt
  split
  · rename_i tail htail
    dsimp only
    split
    · rename_i hnone
      refine ⟨cs.dropWhile isDigit, hsplit.symm, hhead, .inr ?_⟩
      rintro c tail' hdrop
      rw [htail] at hdrop
      cases hdrop
      by_contra hdigit
      rw [List.takeWhile_cons_of_pos (by simpa using hdigit)] at hnone
      cases hnone
    · refine ⟨tail.dropWhile isDigit, ?_, head?_dropWhile isDigit tail, .inl ?_⟩
      · rw [List.append_assoc, List.cons_append, List.takeWhile_append_dropWhile, ← htail, hsplit]
      · exact List.mem_append_right _ List.mem_cons_self
  · rename_i hpoint
    refine ⟨cs.dropWhile isDigit, hsplit.symm, hhead, .inr ?_⟩
    intro c tail hdrop
    exact absurd hdrop (hpoint _)

/-- What is read at the head of a text is the text of a lexeme, and nothing prolongs it. -/
theorem exists_of_ofHead? {cs : List Char} {l : Lexeme} {n : Nat}
    (h : Lexeme.ofHead? cs = some (some l, n)) : Ordinary l ∧
      ∃ rest, cs = l.text.toList ++ rest ∧ n = l.text.toList.length ∧ EndsBefore rest l := by
  cases cs with
  | nil => cases h
  | cons c cs =>
    simp only [Lexeme.ofHead?] at h
    split at h
    · rename_i hc
      cases h
      obtain ⟨rest, hrest, hends⟩ := numberAt_append (c :: cs)
      refine ⟨.number (numeral_numberAt hc cs), rest, ?_, ?_, hends⟩
      · rwa [Lexeme.text, String.toList_ofList]
      · rw [Lexeme.text, String.toList_ofList]
    split at h
    · rename_i hc
      cases h
      refine ⟨.name ⟨c, cs.takeWhile Lexeme.isNamePart, ?_, hc, fun x hx => ?_⟩,
        (c :: cs).dropWhile Lexeme.isNamePart, ?_, ?_, head?_dropWhile _ _⟩
      · rw [List.takeWhile_cons_of_pos (isNamePart_of_isNameStart hc)]
      · exact List.all_eq_true.1 List.all_takeWhile x hx
      · rw [Lexeme.text, String.toList_ofList, List.takeWhile_append_dropWhile]
      · rw [Lexeme.text, String.toList_ofList]
    split at h
    · cases h
    · split at h <;> cases h
      · exact ⟨.op rfl, cs, rfl, rfl, trivial⟩
      · exact ⟨.op rfl, cs, rfl, rfl, trivial⟩
      · exact ⟨.op rfl, cs, rfl, rfl, trivial⟩
      · exact ⟨.op rfl, cs, rfl, rfl, trivial⟩
      · exact ⟨.op rfl, cs, rfl, rfl, trivial⟩
      · exact ⟨.opening, cs, rfl, rfl, trivial⟩
      · exact ⟨.closing, cs, rfl, rfl, trivial⟩

/-- What is passed over at the head of a text is blank. -/
theorem exists_of_ofHead?_none {cs : List Char} {n : Nat}
    (h : Lexeme.ofHead? cs = some (none, n)) :
    ∃ blanks rest, cs = blanks ++ rest ∧ n = blanks.length ∧ ∀ c ∈ blanks, isBlank c := by
  cases cs with
  | nil => cases h
  | cons c cs =>
    simp only [Lexeme.ofHead?] at h
    split at h
    · cases h
    split at h
    · cases h
    split at h
    · cases h
      refine ⟨_, _, List.takeWhile_append_dropWhile.symm, rfl, ?_⟩
      exact fun c hc => List.all_eq_true.1 List.all_takeWhile c hc
    · split at h <;> cases h

theorem scanFrom_eq_ok {read : List Token} {position : Nat} {cs : List Char} {tokens : List Token}
    (h : Token.scanFrom read position cs = .ok tokens) :
    ∃ ts last, tokens = read.reverse ++ (ts ++ [⟨.finish, last⟩]) ∧
      ∀ t ∈ ts, Ordinary t.lexeme := by
  fun_induction Token.scanFrom read position cs with
  | case1 read position =>
    cases h
    exact ⟨[], position, by simp, by simp⟩
  | case2 => cases h
  | case3 _ _ _ _ _ _ ih => exact ih h
  | case4 read position c cs l n hl ih =>
    obtain ⟨ts, last, rfl, hts⟩ := ih h
    refine ⟨⟨l, position⟩ :: ts, last, by simp, ?_⟩
    exact List.forall_mem_cons.2 ⟨(exists_of_ofHead? hl).1, hts⟩

/-- The tokens of a formula end with the mark of its end, which stands nowhere else. -/
theorem scan_eq_ok {formula : String} {tokens : List Token} (h : Token.scan formula = .ok tokens) :
    ∃ ts last, tokens = ts ++ [⟨.finish, last⟩] ∧ ∀ t ∈ ts, Ordinary t.lexeme := by
  obtain ⟨ts, last, rfl, hts⟩ := scanFrom_eq_ok h
  exact ⟨ts, last, rfl, hts⟩

/-! ### Texts -/

/-- The characters make up the tokens, whatever was read before and whatever ends them. -/
structure Scans (cs : List Char) (position : Nat) (ts : List Token) : Prop where
  head : ∃ c tail, cs = c :: tail ∧ isBlank c = false
  scan : ∀ read rest, Stops rest → Token.scanFrom read position (cs ++ rest) =
    Token.scanFrom (ts.reverse ++ read) (position + cs.length) rest

section Scans
variable {cs ds : List Char} {position : Nat} {ts us : List Token}

theorem scanFrom_of_ofHead? {c : Char} {tail : List Char} {l : Option Lexeme} {n : Nat}
    {read : List Token} (h : Lexeme.ofHead? (c :: tail) = some (l, n)) :
    Token.scanFrom read position (c :: tail) =
      Token.scanFrom ((l.map (⟨·, position⟩)).toList ++ read) (position + n)
        ((c :: tail).drop n) := by
  rw [Token.scanFrom]
  split <;> rename_i hl <;> rw [h] at hl <;> cases hl <;> rfl

theorem scanFrom_append {l : Lexeme} {rest : List Char} {read : List Token} (hne : cs ≠ [])
    (h : Lexeme.ofHead? (cs ++ rest) = some (some l, cs.length)) :
    Token.scanFrom read position (cs ++ rest) =
      Token.scanFrom (⟨l, position⟩ :: read) (position + cs.length) rest := by
  obtain ⟨c, tail, rfl⟩ := List.exists_cons_of_ne_nil hne
  rw [List.cons_append] at h ⊢
  rw [scanFrom_of_ofHead? h, ← List.cons_append, List.drop_left]
  rfl

theorem scanFrom_cons {c : Char} {l : Lexeme} {rest : List Char} {read : List Token}
    (h : Lexeme.ofHead? (c :: rest) = some (some l, 1)) :
    Token.scanFrom read position (c :: rest) =
      Token.scanFrom (⟨l, position⟩ :: read) (position + 1) rest :=
  scanFrom_append (List.cons_ne_nil c []) h

theorem ofHead?_blank {c : Char} (h : isBlank c) (rest : List Char) :
    Lexeme.ofHead? (c :: rest) = some (none, (rest.takeWhile isBlank).length + 1) := by
  simp only [Lexeme.ofHead?, eq_false_of_isBlank isBlank_eq_false_of_isDigit h,
    eq_false_of_isBlank isBlank_eq_false_of_isNameStart h, h, List.takeWhile_cons,
    Bool.false_eq_true, if_false, if_true, List.length_cons]

/-- Blanks may be passed over one by one. -/
theorem scanFrom_blank {c : Char} {rest : List Char} {read : List Token} (h : isBlank c) :
    Token.scanFrom read position (c :: rest) = Token.scanFrom read (position + 1) rest := by
  rw [scanFrom_of_ofHead? (ofHead?_blank h rest), List.drop_succ_cons]
  cases rest with
  | nil => rfl
  | cons d rest =>
    by_cases hd : isBlank d
    · rw [scanFrom_of_ofHead? (ofHead?_blank hd rest), List.takeWhile_cons_of_pos hd,
        List.length_cons, Nat.add_comm _ 1, Nat.add_assoc, Nat.add_comm 1]
      rfl
    · rw [List.takeWhile_cons_of_neg hd]
      rfl

theorem Numeral.scans (h : Numeral cs) : Scans cs position [⟨.number cs, position⟩] := by
  obtain ⟨c, tail, rfl, hc⟩ := h.head
  refine ⟨⟨c, tail, rfl, isBlank_eq_false_of_isDigit hc⟩, fun read rest hrest => ?_⟩
  exact scanFrom_append (List.cons_ne_nil _ _) (h.ofHead? hrest)

/-- A minus right before a numeral. -/
theorem Numeral.scans_negative (h : Numeral cs) :
    Scans ('-' :: cs) position [⟨.op .sub, position⟩, ⟨.number cs, position + 1⟩] := by
  refine ⟨⟨'-', cs, rfl, by decide⟩, fun read rest hrest => ?_⟩
  rw [List.cons_append, scanFrom_cons rfl, h.scans.scan _ _ hrest, List.length_cons, Nat.add_assoc,
    Nat.add_comm 1]
  rfl

theorem Word.scans (h : Word cs) : Scans cs position [⟨.name cs, position⟩] := by
  obtain ⟨c, tail, rfl, hc, htail⟩ := h
  refine ⟨⟨c, tail, rfl, isBlank_eq_false_of_isNameStart hc⟩, fun read rest hrest => ?_⟩
  exact scanFrom_append (List.cons_ne_nil _ _) (Word.ofHead? ⟨c, tail, rfl, hc, htail⟩ hrest)

theorem Scans.scan_closing (h : Scans cs position ts) (read : List Token) (rest : List Char) :
    Token.scanFrom read position (cs ++ ')' :: rest) =
      Token.scanFrom (⟨.closing, position + cs.length⟩ :: (ts.reverse ++ read))
        (position + cs.length + 1) rest := by
  rw [h.scan _ _ (stops_cons (Or.inr (Or.inr rfl)))]
  exact scanFrom_cons rfl

/-- A text in brackets. -/
theorem Scans.bracket (h : Scans cs (position + 1) ts) : Scans ('(' :: (cs ++ [')'])) position
    (⟨.opening, position⟩ :: (ts ++ [⟨.closing, position + 1 + cs.length⟩])) := by
  refine ⟨⟨'(', _, rfl, by decide⟩, fun read rest _ => ?_⟩
  rw [List.cons_append, scanFrom_cons rfl, List.append_assoc, List.singleton_append,
    h.scan_closing]
  simp only [List.reverse_cons, List.reverse_append, List.append_assoc, List.length_cons,
    List.length_append, List.length_nil, List.reverse_nil, List.nil_append, List.cons_append]
  congr 1
  omega

/-- A function name and its argument in brackets. -/
theorem Word.scans_call {name : List Char} (hname : Word name)
    (h : Scans cs (position + name.length + 1) ts) :
    Scans (name ++ '(' :: (cs ++ [')'])) position
      (⟨.name name, position⟩ :: ⟨.opening, position + name.length⟩ ::
        (ts ++ [⟨.closing, position + name.length + 1 + cs.length⟩])) := by
  have hscans : Scans name position [⟨.name name, position⟩] := hname.scans
  obtain ⟨c, tail, rfl, hc⟩ := hscans.head
  refine ⟨⟨c, _, List.cons_append, hc⟩, fun read rest hrest => ?_⟩
  rw [List.append_assoc, hscans.scan _ _ (by exact stops_cons (Or.inr (Or.inl rfl))),
    h.bracket.scan _ _ hrest, List.length_append]
  simp only [List.reverse_cons, List.append_assoc, List.reverse_nil, List.nil_append,
    List.cons_append, Nat.add_assoc]

/-- Two operands with an operator between them. -/
theorem Scans.binary {op : Op} (hop : op.isBinary) (h : Scans cs position ts)
    (h' : Scans ds (position + cs.length + 3) us) :
    Scans (cs ++ ' ' :: (op.symbol.toList ++ ' ' :: ds)) position
      (ts ++ ⟨.op op, position + cs.length + 1⟩ :: us) := by
  obtain ⟨s, hs, -, hsymbol⟩ := ofHead?_symbol hop
  obtain ⟨c, tail, hcs, hc⟩ := h.head
  refine ⟨⟨c, _, by rw [hcs, List.cons_append], hc⟩, fun read rest hrest => ?_⟩
  have hspace : isBlank ' ' := by decide
  have hright := h'.scan (⟨.op op, position + cs.length + 1⟩ :: (ts.reverse ++ read)) rest hrest
  rw [hs, List.append_assoc, List.cons_append, h.scan _ _ (stops_cons (Or.inl rfl)),
    List.cons_append, List.cons_append, List.nil_append, scanFrom_blank hspace,
    scanFrom_cons (hsymbol _), List.cons_append, scanFrom_blank hspace]
  refine hright.trans ?_
  simp only [List.reverse_append, List.reverse_cons, List.append_assoc, List.cons_append,
    List.nil_append, List.length_append, List.length_cons]
  congr 1
  omega

/-- A text by itself. -/
theorem Scans.scan_eq_ok {text : String} (h : Scans text.toList 0 ts) :
    Token.scan text = .ok (ts ++ [⟨.finish, text.toList.length⟩]) := by
  have := h.scan [] [] stops_nil
  rw [List.append_nil, List.append_nil, Nat.zero_add] at this
  rw [Token.scan, this, Token.scanFrom, List.reverse_cons, List.reverse_reverse]

end Scans

end FormulaCalculus.Formula
