import FormulaCalculus.Decimal.Shortest
import Mathlib

/-!
# Rounding to doubles

A rounding operation keeps of the exact result a mantissa, the bit after it and whether anything
follows; `Locates` says what these determine. `roundWithAccuracy_eq`: a number that is nearest to a
double, ties with an even mantissa included, is rounded to it.
-/

namespace FormulaCalculus.Double

open Float.Model Float.Model.UnpackedFloat

/-! ### What is known of the exact result -/

/-- The mantissa and the bit after it, in half units. -/
def halves (em : ExtendedMantissa) : Nat :=
  2 * em.mantissa + em.roundBit.toNat

/-- Cutting `x` off after the round bit leaves `em`. -/
structure Locates (em : ExtendedMantissa) (x : ℚ) : Prop where
  le : (halves em : ℚ) ≤ 2 * x
  lt : 2 * x < halves em + 1
  sticky : em.stickyBit = true ↔ (halves em : ℚ) ≠ 2 * x

namespace Locates
variable {em : ExtendedMantissa} {x : ℚ} {n : Nat}

theorem mantissa_le (h : Locates em x) : (em.mantissa : ℚ) ≤ x := by
  have hle := h.le
  simp only [halves, Nat.cast_add, Nat.cast_mul, Nat.cast_ofNat] at hle
  have : (0 : ℚ) ≤ (em.roundBit.toNat : ℚ) := Nat.cast_nonneg _
  linarith

theorem lt_mantissa (h : Locates em x) : x < em.mantissa + 1 := by
  have hlt := h.lt
  simp only [halves, Nat.cast_add, Nat.cast_mul, Nat.cast_ofNat] at hlt
  have : (em.roundBit.toNat : ℚ) ≤ 1 := by exact_mod_cast Bool.toNat_le _
  linarith

theorem exact (m : Nat) : Locates (.ofMantissaAndAccuracy m .exact) m := by
  refine ⟨?_, ?_, ?_⟩ <;> simp [halves, ExtendedMantissa.ofMantissaAndAccuracy]

/-- A quotient, cut off to a whole number. -/
theorem quotient (a : Nat) {b : Nat} (hb : 0 < b) :
    Locates (.ofMantissaAndAccuracy (a / b) (accuracyOfFraction (a % b) b)) (a / b : ℚ) := by
  have hb' : (0 : ℚ) < b := Nat.cast_pos.2 hb
  have hdiv : (a / b : ℚ) = (a / b : Nat) + ((a % b : Nat) : ℚ) / b := by
    have := congrArg (Nat.cast : Nat → ℚ) (Nat.div_add_mod a b)
    push_cast at this
    field_simp
    linarith
  have hlt : ((a % b : Nat) : ℚ) / b < 1 := by
    rw [div_lt_one hb']
    exact_mod_cast Nat.mod_lt a hb
  have hnonneg : (0 : ℚ) ≤ ((a % b : Nat) : ℚ) / b := by positivity
  by_cases hzero : a % b = 0
  · rw [hdiv, hzero, accuracyOfFraction, if_pos rfl, Nat.cast_zero, zero_div, add_zero]
    exact exact _
  · have hpos : (0 : ℚ) < ((a % b : Nat) : ℚ) / b := by
      have : (0 : ℚ) < (a % b : Nat) := Nat.cast_pos.2 (Nat.pos_of_ne_zero hzero)
      positivity
    have hhalf : (2 * (((a % b : Nat) : ℚ) / b) < 1 ↔ 2 * (a % b) < b) ∧
        (2 * (((a % b : Nat) : ℚ) / b) = 1 ↔ 2 * (a % b) = b) := by
      rw [← mul_div_assoc, div_lt_one hb', div_eq_one_iff_eq hb'.ne']
      exact ⟨by exact_mod_cast Iff.rfl, by exact_mod_cast Iff.rfl⟩
    rw [hdiv, accuracyOfFraction, if_neg hzero]
    generalize ((a % b : Nat) : ℚ) / b = r at *
    cases hcmp : compare (2 * (a % b)) b with
    | lt =>
      have := hhalf.1.2 (Nat.compare_eq_lt.1 hcmp)
      refine ⟨?_, ?_, ?_⟩ <;> simp [halves, ExtendedMantissa.ofMantissaAndAccuracy] <;> linarith
    | eq =>
      have := hhalf.2.2 (Nat.compare_eq_eq.1 hcmp)
      refine ⟨?_, ?_, ?_⟩ <;> simp [halves, ExtendedMantissa.ofMantissaAndAccuracy] <;> linarith
    | gt =>
      have hgt := Nat.compare_eq_gt.1 hcmp
      have hlt : ¬ 2 * r < 1 := fun h => Nat.lt_asymm hgt (hhalf.1.1 h)
      have hne : ¬ 2 * r = 1 := fun h => Nat.ne_of_gt hgt (hhalf.2.1 h)
      have : 1 < 2 * r := lt_of_le_of_ne (not_lt.1 hlt) (Ne.symm hne)
      refine ⟨?_, ?_, ?_⟩ <;> simp [halves, ExtendedMantissa.ofMantissaAndAccuracy] <;> linarith

theorem shiftRightOne (h : Locates em x) : Locates em.shiftRightOne (x / 2) := by
  have hhalves : halves em.shiftRightOne = em.mantissa := by
    simp only [halves, ExtendedMantissa.shiftRightOne]
    rcases Nat.mod_two_eq_zero_or_one em.mantissa with hm | hm <;> simp [hm] <;> omega
  refine ⟨?_, ?_, ?_⟩
  · rw [hhalves]
    linarith [h.mantissa_le]
  · rw [hhalves]
    linarith [h.lt_mantissa]
  · rw [hhalves, mul_div_cancel₀ x two_ne_zero]
    have hle := h.le
    simp only [halves, Nat.cast_add, Nat.cast_mul, Nat.cast_ofNat] at hle
    have hsticky := h.sticky
    simp only [ExtendedMantissa.shiftRightOne, Bool.or_eq_true, hsticky, halves, Nat.cast_add,
      Nat.cast_mul, Nat.cast_ofNat]
    cases hr : em.roundBit with
    | false =>
      simp only [Bool.false_eq_true, false_or, Bool.toNat_false, Nat.cast_zero, add_zero, ne_eq]
      exact not_congr ⟨fun h => by linarith, fun h => by linarith⟩
    | true =>
      rw [hr] at hle
      simp only [true_or, true_iff, Bool.toNat_true, Nat.cast_one] at hle ⊢
      intro heq
      linarith

theorem shiftRight (h : Locates em x) (k : Nat) : Locates (em >>> k) (x / 2 ^ k) := by
  show Locates (k.repeat ExtendedMantissa.shiftRightOne em) _
  induction k with
  | zero => simpa [Nat.repeat] using h
  | succ k ih =>
    rw [Nat.repeat, pow_succ, ← div_div]
    exact ih.shiftRightOne

/-- A number within half a unit of `n` is rounded to it, at half a unit if `n` is even. -/
theorem roundedMantissa_eq (h : Locates em x) (hlow : 2 * (n : ℚ) ≤ 2 * x + 1)
    (hhigh : 2 * x ≤ 2 * n + 1)
    (htie : 2 * (n : ℚ) = 2 * x + 1 ∨ 2 * x = 2 * (n : ℚ) + 1 → n % 2 = 0) :
    em.roundedMantissa = n := by
  obtain ⟨m, r, s⟩ := em
  obtain ⟨hle, hlt, hsticky⟩ := h
  simp only [halves] at hle hlt hsticky
  cases r <;> cases s <;>
    simp only [Bool.toNat_false, Bool.toNat_true, Nat.add_zero, Nat.cast_add, Nat.cast_mul,
      Nat.cast_ofNat, Nat.cast_one, Bool.false_eq_true, false_iff, true_iff, not_not, ne_eq]
      at hle hlt hsticky
  · -- exactly `m`
    show m = n
    have : (2 * (n : ℚ) ≤ 2 * m + 1) ∧ (2 * (m : ℚ) ≤ 2 * n + 1) := ⟨by linarith, by linarith⟩
    have : 2 * n ≤ 2 * m + 1 ∧ 2 * m ≤ 2 * n + 1 := by exact_mod_cast this
    omega
  · -- between `m` and the half unit after it
    show m = n
    have hlt' : 2 * (m : ℚ) < 2 * x := lt_of_le_of_ne hle hsticky
    have : (2 * (m : ℚ) < 2 * n + 1) ∧ (2 * (n : ℚ) < 2 * m + 2) := ⟨by linarith, by linarith⟩
    have : 2 * m < 2 * n + 1 ∧ 2 * n < 2 * m + 2 := by exact_mod_cast this
    omega
  · -- half a unit after `m`
    show m + m % 2 = n
    have : (2 * (n : ℚ) ≤ 2 * m + 2) ∧ (2 * (m : ℚ) ≤ 2 * n) := ⟨by linarith, by linarith⟩
    have hn : 2 * n ≤ 2 * m + 2 ∧ 2 * m ≤ 2 * n := by exact_mod_cast this
    have heven : n % 2 = 0 := by
      rcases (by omega : n = m ∨ n = m + 1) with rfl | rfl
      · exact htie (Or.inr (by linarith))
      · exact htie (Or.inl (by push_cast; linarith))
    omega
  · -- between the half unit after `m` and `m + 1`
    show m + 1 = n
    have hlt' : 2 * (m : ℚ) + 1 < 2 * x := lt_of_le_of_ne hle hsticky
    have : (2 * (m : ℚ) + 1 < 2 * n + 1) ∧ (2 * (n : ℚ) < 2 * m + 3) := ⟨by linarith, by linarith⟩
    have : 2 * m + 1 < 2 * n + 1 ∧ 2 * n < 2 * m + 3 := by exact_mod_cast this
    omega

end Locates

/-! ### Rounding -/

/-- The mantissa and the exponent of a finite double other than zero. -/
structure Canonical (m : Nat) (q : Int) : Prop where
  pos : 0 < m
  lt : m < 2 ^ 53
  least : -1074 ≤ q
  most : q ≤ 971
  normal : 2 ^ 52 ≤ m ∨ q = -1074

/-- The double `m * 2 ^ q` is nearest to `v`. -/
structure Nearest (m : Nat) (q : Int) (v : ℚ) : Prop where
  low : 4 * (m : ℚ) - (if Decimal.isNarrow m q then 1 else 2) ≤ 4 * (v / 2 ^ q)
  high : 4 * (v / 2 ^ q) ≤ 4 * m + 2
  odd : m % 2 = 1 → 4 * (m : ℚ) - (if Decimal.isNarrow m q then 1 else 2) < 4 * (v / 2 ^ q) ∧
    4 * (v / 2 ^ q) < 4 * m + 2

theorem targetExponent_eq (t : Int) : Format.binary64.targetExponent t = max (t - 53) (-1074) :=
  rfl

theorem pow_toNat {a : ℚ} (ha : a ≠ 0) (i : Int) : a ^ i.toNat = a ^ i * a ^ (-i).toNat := by
  rw [← zpow_natCast, ← zpow_natCast, ← zpow_add₀ ha]
  congr 1
  omega

section Rounding
variable {m a : Nat} {q e : Int} {x : ℚ} {acc : Accuracy} {s : Sign}

theorem Nearest.low_le (h : Nearest m q x) : (m : ℚ) - 1 / 2 ≤ x / 2 ^ q := by
  have hlow := h.low
  split_ifs at hlow <;> linarith

theorem Nearest.pos (h : Nearest m q x) (hm : 0 < m) : 0 < x := by
  have hm' : (1 : ℚ) ≤ m := by exact_mod_cast hm
  have : 0 < x / 2 ^ q := by linarith [h.low_le]
  exact (div_pos_iff_of_pos_right (by positivity)).1 this

/-- Half a unit off a double only ever counts towards an even mantissa. -/
theorem Nearest.even_of_half (h : Nearest m q x)
    (hhalf : (m : ℚ) - 1 / 2 = x / 2 ^ q ∨ x / 2 ^ q = m + 1 / 2) : m % 2 = 0 := by
  rcases Nat.mod_two_eq_zero_or_one m with hm | hm
  · exact hm
  · obtain ⟨hlow, hhigh⟩ := h.odd hm
    rcases hhalf with hhalf | hhalf
    · split_ifs at hlow <;> linarith
    · linarith

theorem mantissa_ofMantissaAndAccuracy (a : Nat) (acc : Accuracy) :
    (ExtendedMantissa.ofMantissaAndAccuracy a acc).mantissa = a := by
  rcases acc with _ | ⟨_ | _ | _⟩ <;> rfl

theorem lt_two_zpow (hx : Locates (.ofMantissaAndAccuracy a acc) x) :
    x * 2 ^ e < 2 ^ ((a.log2 : Int) + 1 + e) := by
  have hlt := hx.lt_mantissa
  rw [mantissa_ofMantissaAndAccuracy] at hlt
  have ha : (a : ℚ) + 1 ≤ 2 ^ ((a.log2 : Int) + 1) := by
    have : a + 1 ≤ 2 ^ (a.log2 + 1) := Nat.lt_log2_self
    exact_mod_cast this
  rw [zpow_add₀ two_ne_zero]
  exact mul_lt_mul_of_pos_right (lt_of_lt_of_le hlt ha) (by positivity)

theorem two_zpow_le_of_pos (ha : 0 < a) (hx : Locates (.ofMantissaAndAccuracy a acc) x) :
    (2 : ℚ) ^ ((a.log2 : Int) + e) ≤ x * 2 ^ e := by
  have hle := hx.mantissa_le
  rw [mantissa_ofMantissaAndAccuracy] at hle
  have ha : (2 : ℚ) ^ (a.log2 : Int) ≤ a := by
    have : 2 ^ a.log2 ≤ a := Nat.log2_self_le ha.ne'
    exact_mod_cast this
  rw [zpow_add₀ two_ne_zero]
  exact mul_le_mul_of_nonneg_right (le_trans ha hle) (by positivity)

theorem two_zpow_add_div (i q : Int) : (2 : ℚ) ^ (i + q) / 2 ^ q = 2 ^ i := by
  rw [zpow_add₀ two_ne_zero, mul_div_cancel_right₀ _ (by positivity)]

section Target
variable (hc : Canonical m q) (hx : Locates (.ofMantissaAndAccuracy a acc) x)
  (hn : Nearest m q (x * 2 ^ e))
include hx hn

include hc in
theorem log2_lt (ha : 0 < a) : (a.log2 : Int) + e < 53 + q := by
  have hm : (m : ℚ) + 1 ≤ 2 ^ (53 : Int) := by
    have : m + 1 ≤ 2 ^ 53 := hc.lt
    exact_mod_cast this
  have hbelow : x * 2 ^ e < (2 : ℚ) ^ (53 + q) := by
    rw [← div_lt_div_iff_of_pos_right (by positivity : (0 : ℚ) < 2 ^ q), two_zpow_add_div]
    linarith [hn.high]
  exact (zpow_lt_zpow_iff_right₀ one_lt_two).1 (lt_of_le_of_lt (two_zpow_le_of_pos ha hx) hbelow)

theorem le_log2 (hm : 2 ^ 52 ≤ m) : 51 + q ≤ (a.log2 : Int) + e := by
  have hm' : (2 : ℚ) ^ (51 : Int) + 1 ≤ m := by
    have : 2 ^ 51 + 1 ≤ m := by omega
    exact_mod_cast this
  have habove : (2 : ℚ) ^ (51 + q) ≤ x * 2 ^ e := by
    rw [← div_le_div_iff_of_pos_right (by positivity : (0 : ℚ) < 2 ^ q), two_zpow_add_div]
    linarith [hn.low_le]
  have := (zpow_lt_zpow_iff_right₀ one_lt_two).1 (lt_of_le_of_lt habove (lt_two_zpow hx))
  omega

/-- A result that is smaller than its double by a power of two is nearest to that power. -/
theorem eq_of_log2_lt (hm : 2 ^ 52 ≤ m) (hlt : (a.log2 : Int) + e < 52 + q) :
    m = 2 ^ 52 ∧ x * 2 ^ e / 2 ^ q < 2 ^ 52 := by
  have hle : (2 : ℚ) ^ ((a.log2 : Int) + 1 + e) ≤ 2 ^ (52 + q) :=
    (zpow_le_zpow_iff_right₀ one_lt_two).2 (by omega)
  have hsmall : x * 2 ^ e / 2 ^ q < 2 ^ (52 : Int) := by
    rw [← two_zpow_add_div 52 q, div_lt_div_iff_of_pos_right (by positivity)]
    exact lt_of_lt_of_le (lt_two_zpow hx) hle
  have : (m : ℚ) < 2 ^ (52 : Int) + 1 := by linarith [hn.low_le]
  have hlt : m < 2 ^ 52 + 1 := by exact_mod_cast this
  exact ⟨by omega, by exact_mod_cast hsmall⟩

include hc in
/-- The exponent that a result is rounded to is the one of the double nearest to it, or the one
below if the double is a power of two and the result smaller. -/
theorem target_cases (he : e ≤ Format.binary64.targetExponent (totalExponent a e)) :
    Format.binary64.targetExponent (totalExponent a e) = q ∨
      Format.binary64.targetExponent (totalExponent a e) = q - 1 ∧ m = 2 ^ 52 ∧
        x * 2 ^ e / 2 ^ q < 2 ^ 52 ∧ -1074 < q := by
  rw [targetExponent_eq, totalExponent] at he ⊢
  have hlog : (a.log2 : Int) + e < 53 + q ∨ a.log2 = 0 := by
    rcases Nat.eq_zero_or_pos a with rfl | ha
    · exact Or.inr rfl
    · exact Or.inl (log2_lt hc hx hn ha)
  have hleast := hc.least
  rcases hc.normal with hm | rfl
  · have hlow := le_log2 hx hn hm
    by_cases htop : (a.log2 : Int) + e < 52 + q
    · obtain ⟨hpow, hsmall⟩ := eq_of_log2_lt hx hn hm htop
      by_cases hq : q = -1074
      · left
        omega
      · right
        exact ⟨by omega, hpow, hsmall, by omega⟩
    · left
      omega
  · left
    omega

end Target

theorem shiftToTargetExponent_eq {t : Int} {acc : Accuracy}
    (ht : Format.binary64.targetExponent (totalExponent a e) = t) (he : e ≤ t) :
    shiftToTargetExponent Format.binary64 a e acc =
      (ExtendedMantissa.ofMantissaAndAccuracy a acc >>> (t - e).toNat, t) := by
  rw [shiftToTargetExponent, ht, shiftToExponent]
  exact Prod.ext rfl (by show e + ((t - e).toNat : Int) = t; omega)

theorem Locates.shiftTo {em : ExtendedMantissa} {t : Int} (h : Locates em x) (he : e ≤ t) :
    Locates (em >>> (t - e).toNat) (x * 2 ^ e / 2 ^ t) := by
  have hshift := h.shiftRight (t - e).toNat
  have hpow : (2 : ℚ) ^ t = 2 ^ (t - e).toNat * 2 ^ e := by
    rw [← zpow_natCast, ← zpow_add₀ two_ne_zero, Int.toNat_of_nonneg (by omega), Int.sub_add_cancel]
  rwa [hpow, mul_div_mul_right _ _ (by positivity)]

theorem roundWithAccuracy_of_shift {em em' : ExtendedMantissa} {t : Int} (hm : 0 < m)
    (h : shiftToTargetExponent Format.binary64 a e acc = (em, t))
    (h' : shiftToTargetExponent Format.binary64 em.roundedMantissa t .exact = (em', q))
    (hem' : em'.mantissa = m) :
    roundWithAccuracy Format.binary64 s a e acc = .finite s m q hm := by
  subst hem'
  simp only [roundWithAccuracy, h, h', dif_neg hm.ne']

theorem Canonical.targetExponent_eq_self (hc : Canonical m q) :
    Format.binary64.targetExponent (totalExponent m q) = q := by
  have hlt : m.log2 < 53 := (Nat.log2_lt hc.pos.ne').2 hc.lt
  have hleast := hc.least
  rw [targetExponent_eq, totalExponent]
  rcases hc.normal with hnormal | hsub
  · have : 52 ≤ m.log2 := (Nat.le_log2 hc.pos.ne').2 hnormal
    omega
  · omega

theorem roundWithAccuracy_eq (hc : Canonical m q) (hx : Locates (.ofMantissaAndAccuracy a acc) x)
    (he : e ≤ Format.binary64.targetExponent (totalExponent a e))
    (hn : Nearest m q (x * 2 ^ e)) :
    roundWithAccuracy Format.binary64 s a e acc = .finite s m q hc.pos := by
  rcases target_cases hc hx hn he with ht | ⟨ht, rfl, hsmall, hq⟩
  · rw [ht] at he
    have hround : (ExtendedMantissa.ofMantissaAndAccuracy a acc >>> (q - e).toNat).roundedMantissa =
        m := by
      refine (hx.shiftTo he).roundedMantissa_eq (by linarith [hn.low_le]) (by linarith [hn.high]) ?_
      rintro (h | h)
      · exact hn.even_of_half (Or.inl (by linarith))
      · exact hn.even_of_half (Or.inr (by linarith))
    have hagain : shiftToTargetExponent Format.binary64 m q .exact =
        (.ofMantissaAndAccuracy m .exact, q) := by
      rw [shiftToTargetExponent_eq hc.targetExponent_eq_self (Int.le_refl q), Int.sub_self]
      rfl
    rw [← hround] at hagain
    exact roundWithAccuracy_of_shift hc.pos (shiftToTargetExponent_eq ht he) hagain hround
  · -- Just below a power of two the result is rounded on the finer grid, up to the power.
    rw [ht] at he
    have hpow : (2 : ℚ) ^ q = 2 ^ (q - 1) * 2 := by
      rw [zpow_sub_one₀ two_ne_zero, inv_mul_cancel_right₀ two_ne_zero]
    have hdouble : x * 2 ^ e / 2 ^ (q - 1) = 2 * (x * 2 ^ e / 2 ^ q) := by
      rw [hpow]
      field_simp
    have hnarrow : Decimal.isNarrow (2 ^ 52) q := by
      rw [Decimal.isNarrow, Bool.and_eq_true]
      exact ⟨beq_iff_eq.2 rfl, decide_eq_true hq⟩
    have hlow := hn.low
    rw [if_pos hnarrow] at hlow
    push_cast at hlow
    have hround : (ExtendedMantissa.ofMantissaAndAccuracy a acc >>>
        (q - 1 - e).toNat).roundedMantissa = 2 ^ 53 := by
      refine (hx.shiftTo he).roundedMantissa_eq ?_ ?_ (fun _ => by decide) <;>
        rw [hdouble] <;> push_cast <;> linarith
    have htop : Format.binary64.targetExponent (totalExponent (2 ^ 53) (q - 1)) = q := by
      rw [targetExponent_eq, totalExponent, Nat.log2_two_pow]
      omega
    have hagain : shiftToTargetExponent Format.binary64 (2 ^ 53) (q - 1) .exact =
        ((ExtendedMantissa.ofMantissaAndAccuracy (2 ^ 53) .exact).shiftRightOne, q) := by
      rw [shiftToTargetExponent_eq htop (by omega), show (q - (q - 1)).toNat = 1 by omega]
      rfl
    rw [← hround] at hagain
    refine roundWithAccuracy_of_shift hc.pos (shiftToTargetExponent_eq ht he) hagain ?_
    rw [hround]
    rfl

end Rounding

end FormulaCalculus.Double
