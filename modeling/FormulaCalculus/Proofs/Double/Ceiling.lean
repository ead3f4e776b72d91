import FormulaCalculus.Proofs.Double.Order
import FormulaCalculus.Proofs.Double.Reading
import FormulaCalculus.Tolerance

/-!
# Integers as tolerances

A double is compared to an integer by its exact value. `lt_bound_whole_iff`: the double that stands
for a tolerance that is an integer exceeds the same doubles as the integer does, however large the
integer is.
-/

namespace FormulaCalculus.Double

open Float.Model Float.Model.UnpackedFloat Tolerance

/-! ### Positive doubles by value -/

section Canonical

variable {m m₁ m₂ : ℕ} {q q₁ q₂ : Int}

theorem Canonical.lt_two_zpow (h : Canonical m q) : (m : ℚ) * 2 ^ q < 2 ^ (53 + q) := by
  have hm : (m : ℚ) < 2 ^ (53 : Int) := by exact_mod_cast h.lt
  rw [zpow_add₀ two_ne_zero]
  exact mul_lt_mul_of_pos_right hm (by positivity)

/-- Of two doubles the one with the larger exponent is larger. -/
theorem Canonical.value_lt_of_lt (h₁ : Canonical m₁ q₁) (h₂ : Canonical m₂ q₂) (hq : q₁ < q₂) :
    (m₁ : ℚ) * 2 ^ q₁ < m₂ * 2 ^ q₂ := by
  have hnormal : 2 ^ 52 ≤ m₂ := h₂.normal.resolve_right (by have := h₁.least; omega)
  have hm₂ : (2 : ℚ) ^ (52 : Int) ≤ m₂ := by exact_mod_cast hnormal
  calc (m₁ : ℚ) * 2 ^ q₁ < 2 ^ (53 + q₁) := h₁.lt_two_zpow
    _ ≤ 2 ^ (52 + q₂) := zpow_le_zpow_right₀ one_le_two (by omega)
    _ = 2 ^ (52 : Int) * 2 ^ q₂ := zpow_add₀ two_ne_zero _ _
    _ ≤ m₂ * 2 ^ q₂ := mul_le_mul_of_nonneg_right hm₂ (by positivity)

/-- The exponent bounds the digits of an integer that is not above the double. -/
theorem Canonical.log2_lt_of_le {n : ℕ} (h : Canonical m q) (hn : n ≠ 0)
    (hle : (n : ℚ) ≤ m * 2 ^ q) : (n.log2 : Int) < 53 + q := by
  have hself : (2 : ℚ) ^ (n.log2 : Int) ≤ n := by exact_mod_cast Nat.log2_self_le hn
  exact (zpow_lt_zpow_iff_right₀ one_lt_two).1 ((hself.trans hle).trans_lt h.lt_two_zpow)

/-- Exponents and then mantissas are compared as the values are. -/
theorem Canonical.compare_eq_lt_iff (h₁ : Canonical m₁ q₁) (h₂ : Canonical m₂ q₂) :
    (compare q₁ q₂).then (compare m₁ m₂) = .lt ↔ (m₁ : ℚ) * 2 ^ q₁ < m₂ * 2 ^ q₂ := by
  rcases Int.lt_trichotomy q₁ q₂ with hq | rfl | hq
  · rw [Int.compare_eq_lt.2 hq]
    exact iff_of_true rfl (h₁.value_lt_of_lt h₂ hq)
  · rw [Int.compare_eq_eq.2 rfl, Ordering.eq_then, Nat.compare_eq_lt,
      mul_lt_mul_iff_left₀ (by positivity), Nat.cast_lt]
  · rw [Int.compare_eq_gt.2 hq]
    exact iff_of_false nofun (h₂.value_lt_of_lt h₁ hq).not_gt

end Canonical

/-! ### Rounding up -/

section Rounding

variable {n : ℕ}

theorem roundedUp_eq (n : ℕ) : roundedUp n =
    (n + (2 ^ (n.log2 - 52) - 1)) / 2 ^ (n.log2 - 52) * 2 ^ (n.log2 - 52) :=
  rfl

theorem le_roundedUp (n : ℕ) : n ≤ roundedUp n := by
  have hunit : 0 < 2 ^ (n.log2 - 52) := by positivity
  have := Nat.lt_div_mul_add (a := n + (2 ^ (n.log2 - 52) - 1)) hunit
  rw [roundedUp_eq]
  omega

/-- Of the multiples of the unit none is less. -/
theorem roundedUp_le {k : ℕ} (h : n ≤ k * 2 ^ (n.log2 - 52)) :
    roundedUp n ≤ k * 2 ^ (n.log2 - 52) := by
  have hunit : 0 < 2 ^ (n.log2 - 52) := by positivity
  rw [roundedUp_eq]
  refine Nat.mul_le_mul_right _ (Nat.le_of_lt_succ ((Nat.div_lt_iff_lt_mul hunit).2 ?_))
  rw [Nat.succ_mul]
  omega

theorem roundedUp_of_lt (h : n < 2 ^ 53) : roundedUp n = n := by
  have hunit : n.log2 - 52 = 0 := by
    rcases Nat.eq_zero_or_pos n with rfl | hn
    · rfl
    · have := (Nat.log2_lt hn.ne').2 h
      omega
  rw [roundedUp_eq, hunit, pow_zero, Nat.div_one, Nat.mul_one, Nat.sub_self, Nat.add_zero]

/-- No double is between an integer and what it is rounded to. -/
theorem roundedUp_le_value {m : ℕ} {q : Int} (hc : Canonical m q) (h : (n : ℚ) ≤ m * 2 ^ q) :
    (roundedUp n : ℚ) ≤ m * 2 ^ q := by
  by_cases hsmall : n < 2 ^ 53
  · rwa [roundedUp_of_lt hsmall]
  have hn : n ≠ 0 := fun h => hsmall (h ▸ by decide)
  have hlog : 53 ≤ n.log2 := (Nat.le_log2 hn).2 (Nat.not_lt.1 hsmall)
  have hq : ((n.log2 - 52 : ℕ) : Int) ≤ q := by
    have := hc.log2_lt_of_le hn h
    omega
  -- the double is a multiple of the unit that the integer is rounded to
  have hvalue : (m : ℚ) * 2 ^ q =
      ((m * 2 ^ (q.toNat - (n.log2 - 52)) * 2 ^ (n.log2 - 52) : ℕ) : ℚ) := by
    rw [mul_assoc, ← pow_add, show q.toNat - (n.log2 - 52) + (n.log2 - 52) = q.toNat by omega,
      Nat.cast_mul, Nat.cast_pow, Nat.cast_ofNat, ← zpow_natCast, Int.toNat_of_nonneg (by omega)]
  rw [hvalue] at h ⊢
  exact Nat.cast_le.2 (roundedUp_le (Nat.cast_le.1 h))

/-- A large integer is rounded to 53 digits, or to the power of 2 that follows them. -/
theorem exists_roundedUp_eq_mul (h : 2 ^ 53 ≤ n) :
    ∃ c, 2 ^ 52 ≤ c ∧ c ≤ 2 ^ 53 ∧ roundedUp n = c * 2 ^ (n.log2 - 52) := by
  have hn : n ≠ 0 := fun h0 => by simp [h0] at h
  have hlog : 53 ≤ n.log2 := (Nat.le_log2 hn).2 h
  have hunit : 0 < 2 ^ (n.log2 - 52) := by positivity
  refine ⟨_, ?_, Nat.le_of_lt_succ ?_, roundedUp_eq n⟩
  · have hlow : 2 ^ 52 * 2 ^ (n.log2 - 52) ≤ n := by
      rw [← pow_add, show 52 + (n.log2 - 52) = n.log2 by omega]
      exact Nat.log2_self_le hn
    rw [Nat.le_div_iff_mul_le hunit]
    omega
  · have hhigh : n < 2 ^ 53 * 2 ^ (n.log2 - 52) := by
      rw [← pow_add, show 53 + (n.log2 - 52) = n.log2 + 1 by omega]
      exact Nat.lt_log2_self
    rw [Nat.div_lt_iff_lt_mul hunit, Nat.succ_mul]
    omega

/-- What an integer is rounded to is a double, if it is not too large. -/
theorem exists_canonical_roundedUp (hn : 0 < n) (h : (roundedUp n).log2 < 1024) :
    ∃ m q, Canonical m q ∧ (m : ℚ) * 2 ^ q = roundedUp n := by
  by_cases hsmall : n < 2 ^ 53
  · rw [roundedUp_of_lt hsmall]
    have := (Nat.log2_lt hn.ne').2 hsmall
    exact ⟨_, _, canonical_whole hn hsmall, cast_whole n (by omega)⟩
  obtain ⟨c, hlow, hhigh, hvalue⟩ := exists_roundedUp_eq_mul (Nat.not_lt.1 hsmall)
  obtain ⟨k, hk⟩ : ∃ k, n.log2 - 52 = k := ⟨_, rfl⟩
  rw [hk] at hvalue
  have hpos : roundedUp n ≠ 0 := (hn.trans_le (le_roundedUp n)).ne'
  have hexponent {j : ℕ} (hj : 2 ^ j ≤ c) : j + k < 1024 := by
    refine lt_of_le_of_lt ((Nat.le_log2 hpos).2 ?_) h
    rw [hvalue, pow_add]
    exact Nat.mul_le_mul_right _ hj
  rcases Nat.lt_or_eq_of_le hhigh with hlt | rfl
  · have hbound := hexponent hlow
    refine ⟨c, k, ⟨by omega, hlt, by omega, by omega, .inl hlow⟩, ?_⟩
    rw [hvalue, Nat.cast_mul, Nat.cast_pow, Nat.cast_ofNat, zpow_natCast]
  · have hbound := hexponent (Nat.le_refl (2 ^ 53))
    refine ⟨2 ^ 52, k + 1, ⟨by decide, by decide, by omega, by omega, .inl (Nat.le_refl _)⟩, ?_⟩
    rw [hvalue, zpow_add_one₀ two_ne_zero, zpow_natCast]
    push_cast
    ring

end Rounding

/-! ### The double of an integer -/

/-- Whether a double is less than an integer from 0 on, which need not be a double. -/
def IsBelow (x : Float) (n : ℕ) : Prop :=
  match x.toModel.unpack with
  | .notANumber => False
  | .infinity s => s = .negative
  | .zero _ => 0 < n
  | .finite s m q _ => (s.apply m : ℚ) * 2 ^ q < n

/-- What stands for an integer: zero, the positive double that it is rounded to, or infinity if that
exceeds the finite doubles. -/
theorem unpack_ceiling (n : ℕ) :
    n = 0 ∧ (ceiling n).toModel.unpack = .zero .positive ∨
      0 < n ∧ (∃ m q, ∃ hc : Canonical m q,
        (ceiling n).toModel.unpack = .finite .positive m q hc.pos ∧
          (m : ℚ) * 2 ^ q = roundedUp n) ∨
      0 < n ∧ 1024 ≤ (roundedUp n).log2 ∧ (ceiling n).toModel.unpack = .infinity .positive := by
  rcases Nat.eq_zero_or_pos n with rfl | hn
  · exact .inl ⟨rfl, rfl⟩
  by_cases hlimit : (roundedUp n).log2 < 1024
  · obtain ⟨m, q, hc, hvalue⟩ := exists_canonical_roundedUp hn hlimit
    refine .inr (.inl ⟨hn, m, q, hc, ?_, hvalue⟩)
    rw [ceiling, if_pos hlimit, unpack_ofNat_of_canonical hc hvalue]
  · refine .inr (.inr ⟨hn, Nat.not_lt.1 hlimit, ?_⟩)
    rw [ceiling, if_neg hlimit]
    rfl

theorem zero_le_ceiling (n : ℕ) : Float.le 0 (ceiling n) := by
  refine le_iff.2 ?_
  rw [show (0 : Float).toModel.unpack = .zero .positive from rfl]
  rcases unpack_ceiling n with ⟨-, h⟩ | ⟨-, m, q, hc, h, -⟩ | ⟨-, -, h⟩ <;> rw [h] <;> rfl

/-- A positive double is below what stands for an integer if and only if it is below the integer. -/
theorem finite_lt_ceiling_iff {m n : ℕ} {q : Int} (hc : Canonical m q) :
    (UnpackedFloat.finite .positive m q hc.pos).lt (ceiling n).toModel.unpack ↔
      (m : ℚ) * 2 ^ q < n := by
  have hvalue : (0 : ℚ) < m * 2 ^ q := by
    have : (0 : ℚ) < m := Nat.cast_pos.2 hc.pos
    positivity
  have hrounded : (n : ℚ) ≤ roundedUp n := Nat.cast_le.2 (le_roundedUp n)
  rcases unpack_ceiling n with ⟨rfl, h⟩ | ⟨-, m', q', hc', h, hvalue'⟩ | ⟨-, hlimit, h⟩
  · rw [h]
    exact iff_of_false nofun (by rw [Nat.cast_zero]; exact hvalue.not_gt)
  · rw [h, UnpackedFloat.lt, UnpackedFloat.compare, beq_iff_eq, Option.some.injEq,
      hc.compare_eq_lt_iff hc', hvalue']
    constructor
    · intro hlt
      by_contra hle
      exact (roundedUp_le_value hc (not_lt.1 hle)).not_gt hlt
    · exact fun hlt => hlt.trans_le hrounded
  · rw [h]
    refine iff_of_true rfl ?_
    by_contra hle
    have hle' := roundedUp_le_value hc (not_lt.1 hle)
    have hn : roundedUp n ≠ 0 := fun h0 => by
      rw [h0] at hlimit
      exact absurd hlimit (by decide)
    have := hc.log2_lt_of_le hn hle'
    have := hc.most
    omega

/-- A double is below what stands for an integer if and only if it is below the integer. -/
theorem lt_bound_whole_iff (x : Float) (n : ℕ) :
    Float.lt x (Tolerance.whole n).bound ↔ IsBelow x n := by
  show Float.lt x (ceiling n) = true ↔ _
  rw [lt_eq, IsBelow]
  cases hx : x.toModel.unpack with
  | notANumber => exact iff_of_false nofun id
  | infinity s =>
    cases s with
    | positive =>
      refine iff_of_false ?_ nofun
      rcases unpack_ceiling n with ⟨-, h⟩ | ⟨-, m', q', hc', h, -⟩ | ⟨-, -, h⟩ <;> rw [h] <;> nofun
    | negative =>
      refine iff_of_true ?_ rfl
      rcases unpack_ceiling n with ⟨-, h⟩ | ⟨-, m', q', hc', h, -⟩ | ⟨-, -, h⟩ <;> rw [h] <;> rfl
  | zero s =>
    rcases unpack_ceiling n with ⟨rfl, h⟩ | ⟨hn, m', q', hc', h, -⟩ | ⟨hn, -, h⟩ <;> rw [h]
    · exact iff_of_false nofun (Nat.lt_irrefl 0)
    · exact iff_of_true rfl hn
    · exact iff_of_true rfl hn
  | finite s m q hm =>
    have hc := canonical_of_unpack hx
    cases s with
    | positive => exact finite_lt_ceiling_iff hc
    | negative =>
      refine iff_of_true ?_ ?_
      · rcases unpack_ceiling n with ⟨-, h⟩ | ⟨-, m', q', hc', h, -⟩ | ⟨-, -, h⟩ <;> rw [h] <;> rfl
      · have : (0 : ℚ) < m * 2 ^ q := by
          have : (0 : ℚ) < m := Nat.cast_pos.2 hm
          positivity
        show ((-(m : Int) : Int) : ℚ) * 2 ^ q < n
        rw [Int.cast_neg, Int.cast_natCast, neg_mul]
        exact (neg_neg_of_pos this).trans_le (Nat.cast_nonneg n)

end FormulaCalculus.Double
