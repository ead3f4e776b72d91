import FormulaCalculus.Decimal.Reader
import FormulaCalculus.Proofs.Double.Order
import FormulaCalculus.Proofs.Double.Packing

/-!
# Reading decimals

`toDouble_eq`: a decimal is read as the double nearest to it. Reading divides exactly representable
doubles where there are such, and whole numbers of any size otherwise; the two agree, since both
round the exact quotient once.
-/

namespace FormulaCalculus.Double

open Float.Model Float.Model.UnpackedFloat

/-! ### Quotients and products -/

section Operations
variable {m m₁ m₂ : Nat} {q e₁ e₂ : Int} {s₁ s₂ : Sign}

/-- A quotient is cut off with enough bits to be rounded. -/
theorem le_targetExponent_quotient (h₁ : 0 < m₁) (h₂ : 0 < m₂) {t : Int} (ht : t ≤ e₁ - e₂)
    (ht' : t ≤ Format.binary64.targetExponent (totalExponent m₁ e₁ - totalExponent m₂ e₂)) :
    t ≤ Format.binary64.targetExponent
      (totalExponent (m₁ <<< (e₁ - e₂ - t).toNat / m₂) t) := by
  rw [targetExponent_eq, totalExponent, totalExponent] at ht'
  rw [targetExponent_eq, totalExponent]
  by_cases hleast : t ≤ -1074
  · omega
  · have hshift : m₂.log2 + 53 ≤ m₁.log2 + (e₁ - e₂ - t).toNat := by omega
    have hlarge : 2 ^ 52 ≤ m₁ <<< (e₁ - e₂ - t).toNat / m₂ := by
      rw [Nat.le_div_iff_mul_le h₂, Nat.shiftLeft_eq]
      calc 2 ^ 52 * m₂ ≤ 2 ^ 52 * 2 ^ (m₂.log2 + 1) :=
            Nat.mul_le_mul_left _ (Nat.le_of_lt Nat.lt_log2_self)
        _ = 2 ^ (m₂.log2 + 53) := by rw [← Nat.pow_add]; congr 1; omega
        _ ≤ 2 ^ (m₁.log2 + (e₁ - e₂ - t).toNat) := Nat.pow_le_pow_right (by decide) hshift
        _ ≤ m₁ * 2 ^ (e₁ - e₂ - t).toNat := by
            rw [Nat.pow_add]
            exact Nat.mul_le_mul_right _ (Nat.log2_self_le h₁.ne')
    have : 52 ≤ (m₁ <<< (e₁ - e₂ - t).toNat / m₂).log2 := (Nat.le_log2 (by omega)).2 hlarge
    omega

theorem div_eq (hc : Canonical m q) (h₁ : 0 < m₁) (h₂ : 0 < m₂)
    (hn : Nearest m q (m₁ * 2 ^ e₁ / (m₂ * 2 ^ e₂))) :
    UnpackedFloat.div Format.binary64 (.finite s₁ m₁ e₁ h₁) (.finite s₂ m₂ e₂ h₂) =
      .finite (s₁ / s₂) m q hc.pos := by
  set t := min (e₁ - e₂)
    (Format.binary64.targetExponent (totalExponent m₁ e₁ - totalExponent m₂ e₂)) with ht
  refine roundWithAccuracy_eq hc (Locates.quotient _ h₂)
    (le_targetExponent_quotient h₁ h₂ (min_le_left _ _) (min_le_right _ _)) ?_
  have hexact : ((m₁ <<< (e₁ - e₂ - t).toNat : Nat) : ℚ) / m₂ * 2 ^ t =
      m₁ * 2 ^ e₁ / (m₂ * 2 ^ e₂) := by
    have hpow : (2 : ℚ) ^ (e₁ - e₂ - t).toNat * 2 ^ t * 2 ^ e₂ = 2 ^ e₁ := by
      rw [← zpow_natCast, ← zpow_add₀ two_ne_zero, ← zpow_add₀ two_ne_zero]
      congr 1
      omega
    have : (m₂ : ℚ) ≠ 0 := Nat.cast_ne_zero.2 h₂.ne'
    rw [Nat.shiftLeft_eq, Nat.cast_mul, Nat.cast_pow, Nat.cast_ofNat, ← hpow]
    field_simp
  rwa [← hexact] at hn

theorem mul_eq (hc : Canonical m q) (h₁ : 0 < m₁) (h₂ : 0 < m₂) (hlarge : 2 ^ 52 ≤ m₁ * m₂)
    (hn : Nearest m q (m₁ * m₂ * 2 ^ (e₁ + e₂))) :
    UnpackedFloat.mul Format.binary64 (.finite s₁ m₁ e₁ h₁) (.finite s₂ m₂ e₂ h₂) =
      .finite (s₁ * s₂) m q hc.pos := by
  refine roundWithAccuracy_eq hc (Locates.exact _) ?_ (by rwa [Nat.cast_mul])
  have : 52 ≤ (m₁ * m₂).log2 := (Nat.le_log2 (by omega)).2 hlarge
  rw [targetExponent_eq, totalExponent]
  omega

theorem nearest_self (m : Nat) (q : Int) : Nearest m q (m * 2 ^ q) := by
  have hdiv : (m : ℚ) * 2 ^ q / 2 ^ q = m := mul_div_cancel_right₀ _ (by positivity)
  refine ⟨?_, ?_, fun _ => ⟨?_, ?_⟩⟩ <;> rw [hdiv] <;> (try split_ifs) <;> linarith

end Operations

/-! ### Exactly representable whole numbers -/

section Whole
variable {n : Nat}

theorem canonical_whole (hn : 0 < n) (hlt : n < 2 ^ 53) :
    Canonical (n <<< (52 - n.log2)) ((n.log2 : Int) - 52) := by
  have hlog : n.log2 < 53 := (Nat.log2_lt hn.ne').2 hlt
  have hself := Nat.log2_self_le hn.ne'
  have hupper : n < 2 ^ (n.log2 + 1) := Nat.lt_log2_self
  rw [Nat.shiftLeft_eq]
  refine ⟨by positivity, ?_, by omega, by omega, Or.inl ?_⟩
  · calc n * 2 ^ (52 - n.log2) < 2 ^ (n.log2 + 1) * 2 ^ (52 - n.log2) :=
          Nat.mul_lt_mul_of_pos_right hupper (by positivity)
      _ = 2 ^ 53 := by rw [← Nat.pow_add]; congr 1; omega
  · calc 2 ^ 52 = 2 ^ n.log2 * 2 ^ (52 - n.log2) := by rw [← Nat.pow_add]; congr 1; omega
      _ ≤ n * 2 ^ (52 - n.log2) := Nat.mul_le_mul_right _ hself

theorem cast_whole (n : Nat) (hlog : n.log2 ≤ 52) :
    ((n <<< (52 - n.log2) : Nat) : ℚ) * 2 ^ ((n.log2 : Int) - 52) = n := by
  have hpow : (2 : ℚ) ^ (52 - n.log2) * 2 ^ ((n.log2 : Int) - 52) = 1 := by
    rw [← zpow_natCast, ← zpow_add₀ two_ne_zero, show ((52 - n.log2 : Nat) : Int) +
      ((n.log2 : Int) - 52) = 0 by omega, zpow_zero]
  rw [Nat.shiftLeft_eq, Nat.cast_mul, Nat.cast_pow, Nat.cast_ofNat, mul_assoc, hpow, mul_one]

theorem unpack_toFloat (hn : 0 < n) (hlt : n < 2 ^ 53) :
    n.toUInt64.toFloat.toModel.unpack =
      .finite .positive (n <<< (52 - n.log2)) ((n.log2 : Int) - 52)
        (canonical_whole hn hlt).pos := by
  have hc := canonical_whole hn hlt
  have hlog : n.log2 < 53 := (Nat.log2_lt hn.ne').2 hlt
  have hword : n.toUInt64.toNat = n := by
    rw [Nat.toUInt64, UInt64.toNat_ofNat', Nat.mod_eq_of_lt (by omega)]
  have hround : UnpackedFloat.ofNat Format.binary64 n =
      .finite .positive (n <<< (52 - n.log2)) ((n.log2 : Int) - 52) hc.pos := by
    have ht : Format.binary64.targetExponent (totalExponent n 0) = (n.log2 : Int) - 52 := by
      rw [targetExponent_eq, totalExponent]
      omega
    have hshift : (0 - ((n.log2 : Int) - 52)).toNat = 52 - n.log2 := by omega
    have he : (0 : Int) - (52 - n.log2 : Nat) = (n.log2 : Int) - 52 := by omega
    rw [UnpackedFloat.ofNat, UnpackedFloat.ofInt, UnpackedFloat.normalize,
      Int.compare_eq_gt.2 (by omega)]
    simp only [UnpackedFloat.round, Int.toNat_natCast, ht, decreaseExponent, hshift, he]
    refine roundWithAccuracy_eq hc (Locates.exact _) ?_ (nearest_self _ _)
    rw [hc.targetExponent_eq_self]
  show (Float.Model.pack (UnpackedFloat.ofNat Format.binary64 n.toUInt64.toNat)).unpack = _
  rw [hword, hround]
  exact unpack_pack_finite hc

/-- Whether a double is a power of ten. -/
def isPowerOfTen (x : Float) (k : Nat) : Bool :=
  match x.toModel.unpack with
  | .finite .positive m q _ => m * 2 ^ q.toNat == 10 ^ k * 2 ^ (-q).toNat
  | _ => false

theorem isPowerOfTen_table : ∀ k : Fin Float.exactlyRepresentablePowersOfTen.size,
    isPowerOfTen Float.exactlyRepresentablePowersOfTen[k] k := by
  decide +kernel

/-- The table of powers of ten is exact. -/
theorem unpack_powerOfTen {k : Nat} (hk : k < Float.exactlyRepresentablePowersOfTen.size) :
    ∃ m q, ∃ hm : 0 < m, (Float.exactlyRepresentablePowersOfTen[k]).toModel.unpack =
      .finite .positive m q hm ∧ (m : ℚ) * 2 ^ q = 10 ^ k := by
  have hrow := isPowerOfTen_table ⟨k, hk⟩
  simp only [isPowerOfTen, Fin.getElem_fin] at hrow
  split at hrow
  · rename_i m q hm hunpack
    refine ⟨m, q, hm, hunpack, ?_⟩
    have hcast : (m : ℚ) * 2 ^ q.toNat = 10 ^ k * 2 ^ (-q).toNat := by
      exact_mod_cast beq_iff_eq.1 hrow
    rw [pow_toNat two_ne_zero, ← mul_assoc] at hcast
    exact mul_right_cancel₀ (by positivity) hcast
  · cases hrow

end Whole

/-! ### Decimals -/

section Decimals
variable {n k m : Nat} {q : Int}

/-- Reading through the table. -/
theorem ofScientific_fast (hn : 0 < n) (hc : Canonical m q) (hnear : Nearest m q (n / 10 ^ k))
    (hlt : n < 2 ^ 53) (hk : k < Float.exactlyRepresentablePowersOfTen.size) :
    n.toUInt64.toFloat / Float.exactlyRepresentablePowersOfTen[k] =
      .ofModel (.pack (.finite .positive m q hc.pos)) := by
  obtain ⟨a, b, ha, hunpack, hpower⟩ := unpack_powerOfTen hk
  have hlog : n.log2 < 53 := (Nat.log2_lt hn.ne').2 hlt
  show Float.ofModel (.pack (UnpackedFloat.div Format.binary64 n.toUInt64.toFloat.toModel.unpack
    (Float.exactlyRepresentablePowersOfTen[k]).toModel.unpack)) = _
  rw [unpack_toFloat hn hlt, hunpack, div_eq hc]
  · rfl
  · rwa [hpower, cast_whole n (by omega)]

theorem ofScientific_whole (hn : 0 < n) (hc : Canonical m q) (hnear : Nearest m q n)
    (hlt : n < 2 ^ 53) :
    n.toUInt64.toFloat * 1 = .ofModel (.pack (.finite .positive m q hc.pos)) := by
  have hlog : n.log2 < 53 := (Nat.log2_lt hn.ne').2 hlt
  show Float.ofModel (.pack (UnpackedFloat.mul Format.binary64 n.toUInt64.toFloat.toModel.unpack
    (1 : Float).toModel.unpack)) = _
  have hlarge : 2 ^ 52 ≤ n <<< (52 - n.log2) * 2 ^ 52 :=
    Nat.le_mul_of_pos_left _ (canonical_whole hn hlt).pos
  rw [unpack_toFloat hn hlt, unpack_one, mul_eq hc _ _ hlarge]
  · rfl
  · have hone : ((2 ^ 52 : Nat) : ℚ) * 2 ^ (-52 : Int) = 1 := by norm_num
    have hvalue : ((n <<< (52 - n.log2) : Nat) : ℚ) * (2 ^ 52 : Nat) *
        2 ^ ((n.log2 : Int) - 52 + -52) = n := by
      rw [zpow_add₀ two_ne_zero, mul_mul_mul_comm, cast_whole n (by omega), hone, mul_one]
    rwa [hvalue]

/-- Reading a whole number of any size. -/
theorem model_ofScientific_whole (hn : 0 < n) (hc : Canonical m q) (hnear : Nearest m q n) :
    UnpackedFloat.ofScientific Format.binary64 n 0 = .finite .positive m q hc.pos := by
  have hneg : ¬(0 : Int) < -((2 ^ Format.binary64.exponentBits : Int) + n.log2) := by
    have : (0 : Int) ≤ 2 ^ Format.binary64.exponentBits := by positivity
    omega
  rw [UnpackedFloat.ofScientific, dif_neg hn.ne', if_neg (by decide), if_neg hneg,
    if_pos (Int.le_refl 0)]
  refine mul_eq hc _ _ ?_ ?_
  · rw [Nat.shiftLeft_eq, Int.toNat_zero, Nat.pow_zero, Nat.mul_one]
    exact Nat.le_trans (by decide) (Nat.le_mul_of_pos_left _ hn)
  · have hpow : (2 : ℚ) ^ 53 * 2 ^ (-53 : Int) = 1 := by norm_num
    have hvalue : ((n <<< 53 : Nat) : ℚ) * ((10 ^ (0 : Int).toNat : Nat) : ℚ) *
        2 ^ (-((53 : Nat) : Int) + 0) = n := by
      rw [Nat.shiftLeft_eq, Int.toNat_zero, pow_zero, Nat.cast_one, mul_one, Nat.cast_mul,
        Nat.cast_pow, Nat.cast_ofNat, add_zero, mul_assoc, Nat.cast_ofNat, hpow, mul_one]
    rw [show Format.binary64.mantissaBits = 53 from rfl, hvalue]
    exact hnear

/-- A fraction that is nearest to a double is not so small that reading takes it for zero. -/
theorem le_log2_of_nearest (hc : Canonical m q) (hnear : Nearest m q (n / 10 ^ k)) :
    k ≤ 2048 + n.log2 := by
  have hupper : (n : ℚ) < 2 ^ ((n.log2 : Int) + 1) := by
    have : n < 2 ^ (n.log2 + 1) := Nat.lt_log2_self
    exact_mod_cast this
  have hten : (2 : ℚ) ^ (k : Int) ≤ 10 ^ k := by
    rw [zpow_natCast]
    exact pow_le_pow_left₀ (by norm_num) (by norm_num) k
  have htiny : (n : ℚ) / 10 ^ k < 2 ^ ((n.log2 : Int) + 1 - k) := by
    rw [zpow_sub₀ two_ne_zero]
    exact (div_lt_div_of_pos_right hupper (by positivity)).trans_le
      (div_le_div_of_nonneg_left (by positivity) (by positivity) hten)
  have hleast : (2 : ℚ) ^ (q - 1) ≤ n / 10 ^ k := by
    have hm : (1 : ℚ) ≤ m := by exact_mod_cast hc.pos
    have hlow : (1 : ℚ) / 2 ≤ n / 10 ^ k / 2 ^ q := by linarith [hnear.low_le]
    rw [le_div_iff₀ (by positivity)] at hlow
    rw [zpow_sub_one₀ two_ne_zero]
    linarith
  have := (zpow_lt_zpow_iff_right₀ one_lt_two).1 (lt_of_le_of_lt hleast htiny)
  have := hc.least
  omega

/-- Reading a fraction of any size. -/
theorem model_ofScientific_fraction (hn : 0 < n) (hk : 0 < k) (hc : Canonical m q)
    (hnear : Nearest m q (n / 10 ^ k)) :
    UnpackedFloat.ofScientific Format.binary64 n (-(k : Int)) = .finite .positive m q hc.pos := by
  have hsmall : ¬-(k : Int) < -((2 ^ Format.binary64.exponentBits : Int) + n.log2) := by
    have := le_log2_of_nearest hc hnear
    have : (2 ^ Format.binary64.exponentBits : Int) = 2048 := rfl
    omega
  have hlarge : ¬-(k : Int) > 2 ^ Format.binary64.exponentBits := by
    have : (0 : Int) ≤ 2 ^ Format.binary64.exponentBits := by positivity
    omega
  rw [UnpackedFloat.ofScientific, dif_neg hn.ne', if_neg hlarge, if_neg hsmall,
    if_neg (by omega)]
  refine div_eq hc _ _ ?_
  rw [neg_neg, Int.toNat_natCast, zpow_zero, mul_one, mul_one, Nat.cast_pow, Nat.cast_ofNat]
  exact hnear

/-- A decimal is read as the double nearest to it. -/
theorem toDouble_eq (hn : 0 < n) (hc : Canonical m q) (hnear : Nearest m q (n / 10 ^ k)) :
    Decimal.toDouble n (-(k : Int)) = .ofModel (.pack (.finite .positive m q hc.pos)) := by
  have hwhole (hk : k = 0) : Nearest m q n := by
    rwa [hk, pow_zero, div_one] at hnear
  rw [Decimal.toDouble, Int.natAbs_neg, Int.natAbs_natCast, Float.ofScientific]
  split
  · rename_i hfast
    by_cases hk : k = 0
    · subst hk
      exact ofScientific_whole hn hc (hwhole rfl) hfast.1
    · rw [decide_eq_true (by omega), if_pos rfl]
      exact ofScientific_fast hn hc hnear hfast.1 _
  · by_cases hk : k = 0
    · subst hk
      exact congrArg (Float.ofModel ∘ Float.Model.pack)
        (model_ofScientific_whole hn hc (hwhole rfl))
    · rw [decide_eq_true (by omega), if_pos rfl]
      have hneg : Int.negOfNat k = -(k : Int) := by
        cases k <;> rfl
      simp only [hneg, Float.Model.ofScientific]
      rw [model_ofScientific_fraction hn (Nat.pos_of_ne_zero hk) hc hnear]

/-- A whole number that is a double is read as itself. -/
theorem unpack_ofNat_of_canonical (hc : Canonical m q) (h : (m : ℚ) * 2 ^ q = n) :
    (Float.ofNat n).toModel.unpack = .finite .positive m q hc.pos := by
  have hn : 0 < n := by
    have hm : (0 : ℚ) < m := Nat.cast_pos.2 hc.pos
    have : (0 : ℚ) < n := h ▸ by positivity
    exact_mod_cast this
  have hnear : Nearest m q (n / 10 ^ 0) := by
    have := nearest_self m q
    rwa [h, ← div_one (n : ℚ), ← pow_zero (10 : ℚ)] at this
  have hread : Float.ofNat n = Decimal.toDouble n (-(0 : Nat)) := rfl
  rw [hread, toDouble_eq hn hc hnear]
  exact unpack_pack_finite hc

/-- A whole number below `2 ^ 53` is a double. -/
theorem unpack_ofNat (hn : 0 < n) (hlt : n < 2 ^ 53) :
    (Float.ofNat n).toModel.unpack = .finite .positive (n <<< (52 - n.log2)) ((n.log2 : Int) - 52)
      (canonical_whole hn hlt).pos := by
  have hlog : n.log2 < 53 := (Nat.log2_lt hn.ne').2 hlt
  exact unpack_ofNat_of_canonical (canonical_whole hn hlt) (cast_whole n (by omega))

end Decimals

end FormulaCalculus.Double
