import FormulaCalculus.AlgebraTerm
import Mathlib

/-!
# The exact values of doubles

A finite double is a whole number of powers of two. What an algebra term takes for an integer is
that number.
-/

namespace FormulaCalculus

open Float.Model

/-- The number that a finite double stands for; the others have none, and are read as 0. -/
def Double.exact (x : Float) : ℚ :=
  match x.toModel.unpack with
  | .finite s m q _ => s.apply m * 2 ^ q
  | _ => 0

namespace Double

/-- Of the powers `2 ^ q⁺` and `2 ^ q⁻` one is 1. -/
theorem zpow_eq_div (q : Int) : (2 : ℚ) ^ q = 2 ^ q.toNat / 2 ^ (-q).toNat := by
  rw [eq_div_iff (pow_ne_zero _ two_ne_zero), ← zpow_natCast, ← zpow_natCast,
    ← zpow_add₀ two_ne_zero]
  congr 1
  omega

theorem cast_scaled {m : Nat} {q : Int} (h : m % 2 ^ (-q).toNat = 0) :
    ((m * 2 ^ q.toNat / 2 ^ (-q).toNat : Nat) : ℚ) = m * 2 ^ q := by
  have hdvd : 2 ^ (-q).toNat ∣ m * 2 ^ q.toNat :=
    Dvd.dvd.mul_right (Nat.dvd_of_mod_eq_zero h) _
  rw [Nat.cast_div hdvd (Nat.cast_ne_zero.2 (pow_ne_zero _ two_ne_zero)), zpow_eq_div,
    Nat.cast_mul, Nat.cast_pow, Nat.cast_pow, Nat.cast_ofNat, mul_div_assoc]

theorem cast_apply (s : UnpackedFloat.Sign) {m n : Nat} {v : ℚ} (h : (n : ℚ) = m * v) :
    ((s.apply n : Int) : ℚ) = s.apply m * v := by
  cases s with
  | positive => exact h
  | negative =>
    show ((-(n : Int) : Int) : ℚ) = ((-(m : Int) : Int) : ℚ) * v
    rw [Int.cast_neg, Int.cast_neg, Int.cast_natCast, Int.cast_natCast, h, neg_mul]

theorem exact_of_integer? {x : Float} {n : Int} (h : AlgebraTerm.integer? x = some n) :
    exact x = n := by
  rw [AlgebraTerm.integer?] at h
  rw [exact]
  cases hx : x.toModel.unpack with
  | zero s => rw [hx] at h; cases h; exact Int.cast_zero.symm
  | infinity s => rw [hx] at h; cases h
  | notANumber => rw [hx] at h; cases h
  | finite s m q hm =>
    simp only [hx, Nat.pow_eq] at h
    split at h
    · next hwhole =>
      cases h
      exact (cast_apply s (cast_scaled hwhole)).symm
    · cases h

end Double

end FormulaCalculus
