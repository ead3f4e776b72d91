import FormulaCalculus.Proofs.Double.Rounding

/-!
# Shortest decimals are nearest

`nearest_shortest`: the double is nearest to its shortest decimal. What a grid gives is checked
before it is taken, so all that is to show is that one of the grids is fine enough for a point of it
to lie within half a unit of the double.
-/

namespace FormulaCalculus.Decimal

open Double

section Grids
variable {m n : Nat} {q e : Int}

theorem quarter_eq (q e : Int) : quarter q e = 2 ^ q.toNat * 10 ^ (-e).toNat := rfl

theorem step_eq (q e : Int) : step q e = 4 * 2 ^ (-q).toNat * 10 ^ e.toNat := rfl

theorem quarter_pos (q e : Int) : 0 < quarter q e := by
  rw [quarter_eq]
  positivity

theorem step_pos (q e : Int) : 0 < step q e := by
  rw [step_eq]
  positivity

/-- The grid's step in quarters of the double's step. -/
theorem step_div_quarter (q e : Int) : (step q e : ℚ) / quarter q e = 4 * (10 ^ e / 2 ^ q) := by
  rw [step_eq, quarter_eq]
  push_cast
  rw [pow_toNat two_ne_zero q, pow_toNat (by norm_num : (10 : ℚ) ≠ 0) e]
  field_simp

theorem quarters_eq (n : Nat) (q e : Int) :
    4 * ((n : ℚ) * 10 ^ e / 2 ^ q) = (n * step q e : Nat) / (quarter q e : ℚ) := by
  rw [Nat.cast_mul, mul_div_assoc (n : ℚ) (step q e : ℚ), step_div_quarter]
  ring

theorem le_quarters_iff {a : Nat} :
    (a : ℚ) ≤ 4 * (n * 10 ^ e / 2 ^ q) ↔ a * quarter q e ≤ n * step q e := by
  rw [quarters_eq, le_div_iff₀ (Nat.cast_pos.2 (quarter_pos q e))]
  exact_mod_cast Iff.rfl

theorem quarters_le_iff {a : Nat} :
    4 * ((n : ℚ) * 10 ^ e / 2 ^ q) ≤ a ↔ n * step q e ≤ a * quarter q e := by
  rw [quarters_eq, div_le_iff₀ (Nat.cast_pos.2 (quarter_pos q e))]
  exact_mod_cast Iff.rfl

theorem cast_low (hm : 0 < m) (b : Bool) : ((4 * m - (if b then 1 else 2) : Nat) : ℚ) =
    4 * (m : ℚ) - (if b then 1 else 2) := by
  rw [Nat.cast_sub (by split_ifs <;> omega)]
  cases b <;> push_cast <;> rfl

/-- What is taken for a decimal of a double is one. -/
theorem nearest_of_reads (hm : 0 < m) (h : reads m q e n) : Nearest m q (n * 10 ^ e) := by
  have hhigh : ((4 * m + 2 : Nat) : ℚ) = 4 * (m : ℚ) + 2 := by push_cast; rfl
  simp only [reads] at h
  split at h
  · rename_i heven
    simp only [Bool.and_eq_true, decide_eq_true_eq] at h
    refine ⟨?_, ?_, fun hodd => by omega⟩
    · rw [← cast_low hm, le_quarters_iff]
      exact h.1
    · rw [← hhigh, quarters_le_iff]
      exact h.2
  · simp only [Bool.and_eq_true, decide_eq_true_eq] at h
    have hlow : 4 * (m : ℚ) - (if isNarrow m q then 1 else 2) < 4 * (n * 10 ^ e / 2 ^ q) := by
      rw [← cast_low hm, ← not_le, quarters_le_iff, not_le]
      exact h.1
    have hlt : 4 * ((n : ℚ) * 10 ^ e / 2 ^ q) < 4 * m + 2 := by
      rw [← hhigh, ← not_le, le_quarters_iff, not_le]
      exact h.2
    exact ⟨hlow.le, hlt.le, fun _ => ⟨hlow, hlt⟩⟩

theorem roundDiv_cases (num den : Nat) :
    roundDiv num den = num / den ∨ roundDiv num den = num / den + 1 := by
  simp only [roundDiv]
  split
  · exact Or.inl rfl
  · exact Or.inr rfl
  · rcases Nat.mod_two_eq_zero_or_one (num / den) with h | h <;> rw [h]
    · exact Or.inl rfl
    · exact Or.inr rfl

theorem reads_of_pick? (h : pick? m q e = some n) : reads m q e n := by
  simp only [pick?] at h
  split at h
  · cases h
    rcases roundDiv_cases (4 * m * quarter q e) (step q e) with h | h <;> rw [h] <;> assumption
  · cases h; assumption
  · cases h; assumption
  · cases h

/-- A grid finer than half a unit of the double has a point that reads as the double. -/
theorem isSome_pick? (m : Nat) (h : step q e < 2 * quarter q e) : (pick? m q e).isSome := by
  have hstep := step_pos q e
  have hquarter := quarter_pos q e
  set x := 4 * m * quarter q e with hx
  have hdiv := Nat.div_add_mod x (step q e)
  have hmod := Nat.mod_lt x hstep
  have habove : reads m q e (x / step q e + 1) := by
    have hpoint : (x / step q e + 1) * step q e = step q e * (x / step q e) + step q e := by ring
    have hlow : (4 * m - if isNarrow m q then 1 else 2) * quarter q e ≤ x :=
      Nat.mul_le_mul_right _ (Nat.sub_le _ _)
    have hhigh : (4 * m + 2) * quarter q e = x + 2 * quarter q e := by rw [hx]; ring
    simp only [reads, hpoint, hhigh]
    split <;> simp only [Bool.and_eq_true, decide_eq_true_eq] <;> omega
  simp only [pick?, ← hx, habove]
  cases reads m q e (x / step q e) <;> rfl

theorem scan_reads {count : Nat} {i : Nat} (hi : i < count) (h : (pick? m q (e - i)).isSome) :
    reads m q (scan m q count e).exponent (scan m q count e).digits := by
  induction count generalizing e i with
  | zero => exact absurd hi (Nat.not_lt_zero i)
  | succ count ih =>
    rw [scan]
    split
    · exact reads_of_pick? ‹_›
    · rename_i hnone
      cases i with
      | zero =>
        rw [Int.ofNat_zero, Int.sub_zero, hnone] at h
        cases h
      | succ i =>
        refine ih (Nat.lt_of_succ_lt_succ hi) ?_
        rwa [show e - 1 - (i : Int) = e - (i + 1 : Nat) by omega]

end Grids

/-! ### The grids of a double -/

/-- An exponent whose grid is fine enough for every double with the exponent `q`. -/
def fineExponent (q : Int) : Int :=
  (53 + q) * 30103 / 100000 - 18

theorem step_fineExponent : ∀ i < 2046,
    step ((i : Nat) - 1074) (fineExponent (i - 1074)) <
      2 * quarter (i - 1074) (fineExponent (i - 1074)) := by
  decide +kernel

section Doubles
variable {m : Nat} {q e e' : Int}

theorem step_lt_of_le (he : e ≤ e') (h : step q e' < 2 * quarter q e') :
    step q e < 2 * quarter q e := by
  rw [← Nat.one_mul (step q e'), ← Nat.not_le, ← le_quarters_iff, not_le] at h
  rw [← Nat.one_mul (step q e), ← Nat.not_le, ← le_quarters_iff, not_le]
  refine lt_of_le_of_lt ?_ h
  have : (10 : ℚ) ^ e ≤ 10 ^ e' := zpow_le_zpow_right₀ (by norm_num) he
  have : (10 : ℚ) ^ e / 2 ^ q ≤ 10 ^ e' / 2 ^ q := div_le_div_of_nonneg_right this (by positivity)
  rw [Nat.cast_one, one_mul, one_mul]
  linarith

theorem startExponent_le (hc : Canonical m q) :
    startExponent m q - (19 : Nat) ≤ fineExponent q := by
  have hlog : m.log2 < 53 := (Nat.log2_lt hc.pos.ne').2 hc.lt
  simp only [startExponent, fineExponent]
  omega

theorem step_startExponent (hc : Canonical m q) :
    step q (startExponent m q - (19 : Nat)) < 2 * quarter q (startExponent m q - (19 : Nat)) := by
  have hleast := hc.least
  have hmost := hc.most
  refine step_lt_of_le (startExponent_le hc) ?_
  have := step_fineExponent (q + 1074).toNat (by omega)
  rwa [show ((q + 1074).toNat : Int) - 1074 = q by omega] at this

theorem trim_eq (d : Decimal) :
    (d.trim.digits : ℚ) * 10 ^ d.trim.exponent = d.digits * 10 ^ d.exponent := by
  fun_induction trim d with
  | case1 d h => rw [h, Nat.cast_zero, zero_mul, zero_mul]
  | case2 d h hmod ih =>
    have hdigits : (d.digits : ℚ) = 10 * (d.digits / 10 : Nat) := by
      have : d.digits = 10 * (d.digits / 10) := by omega
      exact_mod_cast this
    rw [ih, hdigits, zpow_add_one₀ (by norm_num)]
    ring
  | case3 => rfl

/-- A double is nearest to its shortest decimal. -/
theorem nearest_shortest (hc : Canonical m q) :
    Nearest m q ((shortest m q).digits * 10 ^ (shortest m q).exponent) := by
  have hpick := isSome_pick? m (step_startExponent hc)
  rw [shortest, trim_eq]
  exact nearest_of_reads hc.pos (scan_reads (by decide) hpick)

end Doubles

end FormulaCalculus.Decimal
