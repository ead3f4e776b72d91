import FormulaCalculus.Proofs.Decimal.PlainText

/-!
# Literals as numbers of a user

The reader of numbers that a user types takes the digits of a literal for the same double:
`readDouble?_of_numeral`. So no literal is refused, whichever decimal digits make it up.
-/

namespace FormulaCalculus.Decimal

open Text Formula

variable {cs ds rest : List Char} {c : Char}

theorem dropWhile_eq_self {p : Char → Bool} (h : ∀ c ∈ cs, p c = false) : cs.dropWhile p = cs := by
  cases cs with
  | nil => rfl
  | cons c cs => exact List.dropWhile_cons_of_neg (by simp [h c List.mem_cons_self])

theorem dropMargins_of_numeral (h : Numeral cs) : dropMargins cs = cs := by
  have hmargin : ∀ c ∈ cs, isMargin c = false := by
    intro c hc
    rcases h.isDigit_or_point c hc with hdigit | rfl
    · rw [isMargin, isBlank_eq_false_of_isDigit hdigit, Bool.false_and]
    · decide
  have hreverse : ∀ c ∈ cs.reverse, isMargin c = false :=
    fun c hc => hmargin c (List.mem_reverse.1 hc)
  rw [dropMargins, dropWhile_eq_self hmargin, dropWhile_eq_self hreverse, List.reverse_reverse]

theorem signed_of_isDigit (h : isDigit c) : signed (c :: cs) = (false, c :: cs) := by
  unfold signed
  split
  · rename_i heq
    cases heq
    exact absurd h (by decide)
  · rename_i heq
    cases heq
    exact absurd h (by decide)
  · rfl

theorem toLower_of_isDigit (h : isDigit c) : c.toLower = c := by
  have hapart : ¬(65 ≤ c.toNat ∧ c.toNat ≤ 90) := by
    have := isDigit_le h
    omega
  exact dif_neg hapart

/-- Digits are read up to something that is neither a digit nor an underscore. -/
theorem digitRun_append (hds : ∀ c ∈ ds, isDigit c)
    (hrest : ∀ c, rest.head? = some c → isDigit c = false ∧ c ≠ '_') :
    digitRun (ds ++ rest) = (ds.filterMap digit?, rest) := by
  induction ds with
  | nil =>
    cases rest with
    | nil => rfl
    | cons c rest =>
      have hnone : digit? c = none := by simpa [isDigit] using (hrest c rfl).1
      rw [List.nil_append, digitRun.eq_def]
      simp only [hnone, List.filterMap_nil]
  | cons d ds ih =>
    rw [List.forall_mem_cons] at hds
    obtain ⟨n, hn⟩ := Option.isSome_iff_exists.1 hds.1
    have hhead : ∀ tail, ds ++ rest ≠ '_' :: tail := by
      intro tail heq
      cases ds with
      | nil => exact (hrest '_' (by rw [← List.nil_append rest, heq]; rfl)).2 rfl
      | cons e ds =>
        cases heq
        exact absurd (hds.2 '_' List.mem_cons_self) (by decide)
    rw [List.cons_append, digitRun.eq_def]
    simp only [hn]
    split
    · rename_i heq
      exact absurd heq (hhead _)
    · rw [ih hds.2, List.filterMap_cons_some hn]

theorem length_digits (hds : ∀ c ∈ ds, isDigit c) : (ds.filterMap digit?).length = ds.length := by
  rw [List.length_filterMap_eq_countP, List.countP_eq_length]
  exact hds

theorem isEmpty_digits (hne : ds ≠ []) (hds : ∀ c ∈ ds, isDigit c) :
    (ds.filterMap digit?).isEmpty = false := by
  rw [List.isEmpty_eq_false_iff, ← List.length_pos_iff, length_digits hds]
  exact List.length_pos_of_ne_nil hne

theorem magnitude?_of_numeral (h : Numeral cs) : magnitude? cs = some (readLiteral cs) := by
  cases h with
  | whole hne h =>
    have hrun : digitRun (cs ++ []) = (cs.filterMap digit?, []) := digitRun_append h nofun
    rw [List.append_nil] at hrun
    simp only [magnitude?, hrun, isEmpty_digits hne h, Bool.false_and, Bool.false_eq_true, if_false,
      exponent?, List.append_nil, Option.map_some]
    rw [readLiteral_whole h]
    rfl
  | @point ds fs hne h hne' h' =>
    have hpoint : ∀ c, ('.' :: fs).head? = some c → isDigit c = false ∧ c ≠ '_' := by
      rintro _ ⟨⟩
      decide
    have hrun' : digitRun (fs ++ []) = (fs.filterMap digit?, []) := digitRun_append h' nofun
    rw [List.append_nil] at hrun'
    simp only [magnitude?, digitRun_append h hpoint, hrun', isEmpty_digits hne h, Bool.false_and,
      Bool.false_eq_true, if_false, exponent?, Option.map_some, length_digits h', Int.zero_sub,
      ← List.filterMap_append]
    rw [readLiteral_point h]
    rfl

theorem readDouble?_of_numeral (h : Numeral cs) :
    readDouble? (String.ofList cs) = some (readLiteral cs) := by
  obtain ⟨c, tail, rfl, hc⟩ := h.head
  have hword {word : String} (hhead : ∀ d, word.toList.head? = some d → isDigit d = false) :
      String.ofList ((c :: tail).map Char.toLower) ≠ word := by
    rintro rfl
    rw [String.toList_ofList, List.map_cons, toLower_of_isDigit hc] at hhead
    rw [hhead c rfl] at hc
    cases hc
  have hinf : String.ofList ((c :: tail).map Char.toLower) ≠ "inf" :=
    hword (by rintro _ ⟨⟩; decide)
  have hinfinity : String.ofList ((c :: tail).map Char.toLower) ≠ "infinity" :=
    hword (by rintro _ ⟨⟩; decide)
  have hnan : String.ofList ((c :: tail).map Char.toLower) ≠ "nan" :=
    hword (by rintro _ ⟨⟩; decide)
  unfold readDouble?
  simp only [String.toList_ofList, dropMargins_of_numeral h, signed_of_isDigit hc, hinf, hinfinity,
    hnan, or_self, if_false, magnitude?_of_numeral h, Option.map_some, Bool.false_eq_true]

end FormulaCalculus.Decimal
