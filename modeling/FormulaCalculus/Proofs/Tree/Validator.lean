import FormulaCalculus.Proofs.Tree.Validity

/-!
# What the validator decides

`validate_decides`: without a table the validator accepts the well-formed trees. With a table it
accepts those of them that mention no variable outside of it; the largest index decides that, unless
the size that is given is negative.
-/

namespace FormulaCalculus.Tree

variable {α : Type} {t : Tree α}

/-! ### Indices -/

theorem foldl_max_lt_iff (is : List Nat) (m n : Int) :
    is.foldl (fun (m : Int) (i : Nat) => max m i) m < n ↔ m < n ∧ ∀ i ∈ is, (i : Int) < n := by
  induction is generalizing m with
  | nil => simp
  | cons i is ih => rw [List.foldl_cons, ih, Int.max_lt, List.forall_mem_cons, and_assoc]

theorem maxIndex_lt_iff {n : Int} : t.maxIndex < n ↔ -1 < n ∧ ∀ i ∈ t.indices, (i : Int) < n :=
  foldl_max_lt_iff t.indices (-1) n

theorem neg_one_le_maxIndex (t : Tree α) : -1 ≤ t.maxIndex :=
  Int.not_lt.1 fun h => absurd (maxIndex_lt_iff.1 h).1 (Int.lt_irrefl _)

theorem mentions_eq_false_iff {i : Int} :
    t.mentions i = false ↔ ∀ j ∈ t.indices, (j : Int) ≠ i := by
  simp [mentions]

/-- No index reaches `n` exactly if no variable from `n` on occurs. -/
theorem forall_index_lt_iff {n : Int} :
    (∀ i ∈ t.indices, (i : Int) < n) ↔ ∀ i, n ≤ i → t.mentions i = false := by
  simp only [mentions_eq_false_iff]
  constructor
  · rintro h i hi j hj rfl
    exact absurd (h j hj) (Int.not_lt.2 hi)
  · intro h j hj
    exact Int.not_le.1 fun hle => h j hle j hj rfl

/-- Below 0 there is no index, so there must be no variable. -/
theorem forall_index_lt_iff_of_nonpos {n : Int} (hn : n ≤ 0) :
    (∀ i ∈ t.indices, (i : Int) < n) ↔ t.maxIndex = -1 := by
  have hmax : t.maxIndex = -1 ↔ t.maxIndex < 0 := by
    have := neg_one_le_maxIndex t
    omega
  rw [hmax, maxIndex_lt_iff, and_iff_right (by decide)]
  refine forall₂_congr fun i _ => ?_
  omega

/-! ### The validator -/

theorem valid_none_iff : t.Valid none ↔ t.WellFormed :=
  ⟨Valid.wellFormed, fun h => ⟨h, nofun⟩⟩

theorem WellFormed.valid_some_iff (h : t.WellFormed) {n : Int} :
    t.Valid (some n) ↔ ∀ i ∈ t.indices, (i : Int) < n :=
  ⟨fun hv => hv.index_lt n rfl, fun hi => ⟨h, fun _ hm => Option.some.inj hm ▸ hi⟩⟩

/-- The worklist decides well-formedness, and with the size of a table whether the variables of a
well-formed tree stay within it. A negative size leaves room for no variable. -/
theorem validate_decides (t : Tree α) : (t.validate none = .ok () ↔ t.WellFormed) ∧
    (t.WellFormed → ∀ n : Int,
      (t.validate (some n) = .ok () ↔ ∀ i, n ≤ i → t.mentions i = false) ∧
      (0 ≤ n → (t.validate (some n) = .ok () ↔ t.maxIndex < n)) ∧
      (n < 0 → (t.validate (some n) = .ok () ↔ t.maxIndex = -1))) := by
  refine ⟨validate_eq_ok_iff.trans valid_none_iff, fun h n => ?_⟩
  rw [validate_eq_ok_iff, h.valid_some_iff]
  refine ⟨forall_index_lt_iff, fun hn => ?_, fun hn => ?_⟩
  · rw [maxIndex_lt_iff, and_iff_right (by omega)]
  · exact forall_index_lt_iff_of_nonpos (Int.le_of_lt hn)

/-- A sum of two variables fits into a table of two names, but not into a smaller one. -/
theorem validate_decides_sum :
    let t : Tree Float := add (var 0) (var 1)
    t.WellFormed ∧ t.validate none = .ok () ∧ t.maxIndex = 1 ∧ t.validate (some 2) = .ok () ∧
      t.validate (some 1) ≠ .ok () ∧ t.validate (some (-1)) ≠ .ok () := by
  intro t
  obtain ⟨hnone, hsome⟩ := validate_decides t
  have h : t.WellFormed := ⟨rfl, trivial, trivial⟩
  have hmax : t.maxIndex = 1 := rfl
  refine ⟨h, hnone.2 h, hmax, ((hsome h 2).2.1 (by decide)).2 (hmax ▸ by decide), ?_, ?_⟩
  · intro hok
    have := ((hsome h 1).2.1 (by decide)).1 hok
    omega
  · intro hok
    have := ((hsome h (-1)).2.2 (by decide)).1 hok
    omega

/-- A number has no variable, so it fits into a table of any size, but its largest index, -1, is not
below the size -1. -/
theorem validate_accepts_negative_size :
    let t : Tree Float := num 1
    t.WellFormed ∧ t.validate (some (-1)) = .ok () ∧ ¬t.maxIndex < -1 := by
  refine ⟨trivial, ?_, by decide⟩
  rw [validate, validateAll, validateAll]

end FormulaCalculus.Tree
