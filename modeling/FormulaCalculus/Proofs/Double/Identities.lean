import FormulaCalculus.Proofs.Double.NotANumber
import FormulaCalculus.Proofs.Double.Reading

/-!
# Identities of doubles

Zero and one are neutral, up to the sign of a zero. A finite double less itself is zero, and over
itself it is one. A zero times a finite double, or over any double but zero and NaN, is zero.
-/

namespace FormulaCalculus.Double

open Float.Model Float.Model.UnpackedFloat

/-! ### Unpacked doubles -/

section Unpacked

variable {u : UnpackedFloat} {m : Nat} {q : Int}

/-- A finite double has canonical parts. -/
def IsCanonical : UnpackedFloat → Prop
  | .finite _ m q _ => Canonical m q
  | _ => True

theorem isCanonical_unpack (x : Float.Model) : IsCanonical x.unpack := by
  cases h : x.unpack with
  | finite s m q hm => exact canonical_of_unpack h
  | _ => trivial

theorem unpack_pack (h : IsCanonical u) : (Float.Model.pack u).unpack = u := by
  cases u with
  | finite s m q hm => exact unpack_pack_finite h
  | zero s => exact unpack_pack_zero s
  | infinity s => cases s <;> rfl
  | notANumber => rfl

theorem similar_add_zero (u : UnpackedFloat) (s : Sign) :
    Similar (UnpackedFloat.add Format.binary64 u (.zero s)) u := by
  cases u with
  | zero t => cases s <;> cases t <;> exact .zeros _ _
  | _ => exact .refl _

theorem similar_zero_add (u : UnpackedFloat) (s : Sign) :
    Similar (UnpackedFloat.add Format.binary64 (.zero s) u) u := by
  cases u with
  | zero t => cases s <;> cases t <;> exact .zeros _ _
  | _ => exact .refl _

theorem similar_sub_zero (u : UnpackedFloat) (s : Sign) :
    Similar (UnpackedFloat.sub Format.binary64 u (.zero s)) u := by
  cases u with
  | zero t => cases s <;> cases t <;> exact .zeros _ _
  | _ => exact .refl _

theorem sub_self_eq_zero (h : u.isFinite) :
    ∃ s, UnpackedFloat.sub Format.binary64 u u = .zero s := by
  cases u with
  | zero s => cases s <;> exact ⟨_, rfl⟩
  | finite s m q hm =>
    refine ⟨.positive, ?_⟩
    simp only [UnpackedFloat.sub, Int.sub_self, UnpackedFloat.normalize]
    rfl
  | _ => cases h

theorem mul_positive (s : Sign) : s * .positive = s := by
  cases s <;> rfl

theorem positive_mul (s : Sign) : .positive * s = s := by
  cases s <;> rfl

theorem div_positive (s : Sign) : s / .positive = s := by
  cases s <;> rfl

theorem sign_div_self (s : Sign) : s / s = .positive := by
  cases s <;> rfl

/-- The double 1 taken apart. -/
def unpackedOne : UnpackedFloat :=
  .finite .positive (2 ^ 52) (-52) (by decide)

theorem two_pow_mul_zpow : ((2 ^ 52 : Nat) : ℚ) * 2 ^ (-52 : Int) = 1 := by
  norm_num

theorem mul_one_eq (h : IsCanonical u) : UnpackedFloat.mul Format.binary64 u unpackedOne = u := by
  cases u with
  | finite s m q hm =>
    have hlarge : 2 ^ 52 ≤ m * 2 ^ 52 := Nat.le_mul_of_pos_left _ hm
    have hexact : (m : ℚ) * (2 ^ 52 : Nat) * 2 ^ (q + -52) = m * 2 ^ q := by
      rw [zpow_add₀ two_ne_zero, mul_mul_mul_comm, two_pow_mul_zpow, mul_one]
    exact (mul_eq h hm _ hlarge (hexact ▸ nearest_self m q)).trans (by rw [mul_positive])
  | zero s => exact congrArg UnpackedFloat.zero (mul_positive s)
  | infinity s => exact congrArg UnpackedFloat.infinity (mul_positive s)
  | notANumber => rfl

theorem one_mul_eq (h : IsCanonical u) : UnpackedFloat.mul Format.binary64 unpackedOne u = u := by
  cases u with
  | finite s m q hm =>
    have hlarge : 2 ^ 52 ≤ 2 ^ 52 * m := Nat.le_mul_of_pos_right _ hm
    have hexact : ((2 ^ 52 : Nat) : ℚ) * m * 2 ^ (-52 + q) = m * 2 ^ q := by
      rw [zpow_add₀ two_ne_zero, mul_mul_mul_comm, two_pow_mul_zpow, one_mul]
    exact (mul_eq h _ hm hlarge (hexact ▸ nearest_self m q)).trans (by rw [positive_mul])
  | zero s => exact congrArg UnpackedFloat.zero (positive_mul s)
  | infinity s => exact congrArg UnpackedFloat.infinity (positive_mul s)
  | notANumber => rfl

theorem div_one_eq (h : IsCanonical u) : UnpackedFloat.div Format.binary64 u unpackedOne = u := by
  cases u with
  | finite s m q hm =>
    have hexact : (m : ℚ) * 2 ^ q / ((2 ^ 52 : Nat) * 2 ^ (-52 : Int)) = m * 2 ^ q := by
      rw [two_pow_mul_zpow, div_one]
    refine (div_eq h hm _ ?_).trans (by rw [div_positive])
    rw [hexact]
    exact nearest_self m q
  | zero s => exact congrArg UnpackedFloat.zero (div_positive s)
  | infinity s => exact congrArg UnpackedFloat.infinity (div_positive s)
  | notANumber => rfl

theorem div_self_eq {s : Sign} {hm : 0 < m} :
    UnpackedFloat.div Format.binary64 (.finite s m q hm) (.finite s m q hm) = unpackedOne := by
  have hpos : (m : ℚ) * 2 ^ q ≠ 0 := by positivity
  have hexact : (m : ℚ) * 2 ^ q / (m * 2 ^ q) = (2 ^ 52 : Nat) * 2 ^ (-52 : Int) := by
    rw [div_self hpos, two_pow_mul_zpow]
  have hone : Canonical (2 ^ 52) (-52) := canonical_of_unpack unpack_one
  refine (div_eq hone hm hm ?_).trans (by rw [sign_div_self]; rfl)
  rw [hexact]
  exact nearest_self _ _

theorem zero_mul_eq_zero (s : Sign) (h : u.isFinite) :
    ∃ t, UnpackedFloat.mul Format.binary64 (.zero s) u = .zero t := by
  cases u with
  | zero | finite => exact ⟨_, rfl⟩
  | _ => cases h

theorem mul_zero_eq_zero (s : Sign) (h : u.isFinite) :
    ∃ t, UnpackedFloat.mul Format.binary64 u (.zero s) = .zero t := by
  cases u with
  | zero | finite => exact ⟨_, rfl⟩
  | _ => cases h

theorem zero_mul_eq_notANumber (s : Sign) (h : u.isFinite = false) :
    UnpackedFloat.mul Format.binary64 (.zero s) u = .notANumber := by
  cases u with
  | notANumber | infinity => rfl
  | _ => cases h

theorem mul_zero_eq_notANumber (s : Sign) (h : u.isFinite = false) :
    UnpackedFloat.mul Format.binary64 u (.zero s) = .notANumber := by
  cases u with
  | notANumber | infinity => rfl
  | _ => cases h

theorem zero_div_eq_zero (s : Sign) (hnan : u.isNaN = false) (hzero : ∀ t, u ≠ .zero t) :
    ∃ t, UnpackedFloat.div Format.binary64 (.zero s) u = .zero t := by
  cases u with
  | infinity | finite => exact ⟨_, rfl⟩
  | zero t => exact absurd rfl (hzero t)
  | notANumber => cases hnan

end Unpacked

/-! ### Doubles -/

section

variable {x y z : Float}

theorem alike_of_similar {u : UnpackedFloat} (h : Similar u x.toModel.unpack) :
    Alike (.ofModel (.pack u)) x := by
  refine (alike_pack h).trans (alike_iff.2 ?_)
  show Similar (Float.Model.pack x.toModel.unpack).unpack x.toModel.unpack
  rw [unpack_pack (isCanonical_unpack _)]
  exact .refl _

theorem alike_zero {u : UnpackedFloat} (h : ∃ s, u = .zero s) : Alike (.ofModel (.pack u)) 0 := by
  obtain ⟨s, rfl⟩ := h
  refine alike_of_similar ?_
  rw [unpack_zero]
  exact .zeros _ _

theorem exists_unpack_of_eq_zero (h : z == 0) : ∃ s, z.toModel.unpack = .zero s := by
  have hz : Alike z 0 := .inl h
  rw [alike_iff, unpack_zero] at hz
  generalize z.toModel.unpack = u at hz
  cases hz <;> exact ⟨_, rfl⟩

theorem unpack_ne_zero (h : (x == 0) = false) (s : Sign) : x.toModel.unpack ≠ .zero s := by
  intro hs
  rw [beq_eq, hs] at h
  cases h

theorem unpack_of_eq_one (h : z == 1) : z.toModel.unpack = unpackedOne := by
  have hz : Alike z 1 := .inl h
  rw [alike_iff, unpack_one] at hz
  generalize z.toModel.unpack = u at hz
  cases hz
  rfl

theorem alike_add_zero (h : z == 0) : Alike (x + z) x := by
  obtain ⟨s, hs⟩ := exists_unpack_of_eq_zero h
  exact alike_of_similar (hs ▸ similar_add_zero _ s)

theorem alike_zero_add (h : z == 0) : Alike (z + x) x := by
  obtain ⟨s, hs⟩ := exists_unpack_of_eq_zero h
  exact alike_of_similar (hs ▸ similar_zero_add _ s)

theorem alike_sub_zero (h : z == 0) : Alike (x - z) x := by
  obtain ⟨s, hs⟩ := exists_unpack_of_eq_zero h
  exact alike_of_similar (hs ▸ similar_sub_zero _ s)

theorem alike_sub_self (h : x.isFinite) : Alike (x - x) 0 :=
  alike_zero (sub_self_eq_zero h)

theorem alike_mul_one (h : z == 1) : Alike (x * z) x := by
  refine alike_of_similar ?_
  rw [unpack_of_eq_one h, mul_one_eq (isCanonical_unpack _)]
  exact .refl _

theorem alike_one_mul (h : z == 1) : Alike (z * x) x := by
  refine alike_of_similar ?_
  rw [unpack_of_eq_one h, one_mul_eq (isCanonical_unpack _)]
  exact .refl _

theorem alike_div_one (h : z == 1) : Alike (x / z) x := by
  refine alike_of_similar ?_
  rw [unpack_of_eq_one h, div_one_eq (isCanonical_unpack _)]
  exact .refl _

theorem alike_div_self (h : x.isFinite) (hzero : (x == 0) = false) : Alike (x / x) 1 := by
  refine alike_of_similar ?_
  rw [unpack_one]
  have hne := unpack_ne_zero hzero
  have h : x.toModel.unpack.isFinite := h
  generalize x.toModel.unpack = u at h hne
  cases u with
  | finite s m q hm => exact div_self_eq ▸ .refl _
  | zero s => exact absurd rfl (hne s)
  | _ => cases h

theorem alike_zero_mul (h : z == 0) (hx : x.isFinite) : Alike (z * x) 0 := by
  obtain ⟨s, hs⟩ := exists_unpack_of_eq_zero h
  exact alike_zero (hs ▸ zero_mul_eq_zero s hx)

theorem alike_mul_zero (h : z == 0) (hx : x.isFinite) : Alike (x * z) 0 := by
  obtain ⟨s, hs⟩ := exists_unpack_of_eq_zero h
  exact alike_zero (hs ▸ mul_zero_eq_zero s hx)

theorem alike_zero_div (h : z == 0) (hnan : x.isNaN = false) (hzero : (x == 0) = false) :
    Alike (z / x) 0 := by
  obtain ⟨s, hs⟩ := exists_unpack_of_eq_zero h
  exact alike_zero (hs ▸ zero_div_eq_zero s hnan (unpack_ne_zero hzero))

/-! ### Zeros -/

theorem Alike.beq_zero (h : Alike x 0) : x == 0 := by
  rw [h.beq_eq (.refl 0)]
  decide +kernel

theorem beq_zero_add (hx : x == 0) (hy : y == 0) : x + y == 0 :=
  ((alike_zero_add hx).trans (.inl hy)).beq_zero

theorem beq_zero_sub (hx : x == 0) (hy : y == 0) : x - y == 0 :=
  ((alike_sub_zero hy).trans (.inl hx)).beq_zero

/-- A product with a zero is a zero or NaN. -/
theorem beq_zero_mul (hz : z == 0) (h : x.isFinite ∨ (z * x).isNaN = false) : z * x == 0 := by
  refine (alike_zero_mul hz ?_).beq_zero
  rcases h with hx | hnan
  · exact hx
  by_contra hx
  obtain ⟨s, hs⟩ := exists_unpack_of_eq_zero hz
  have hproduct : (z * x).isNaN :=
    isNaN_pack (hs ▸ zero_mul_eq_notANumber s (Bool.eq_false_iff.2 hx))
  rw [hnan] at hproduct
  cases hproduct

theorem beq_mul_zero (hz : z == 0) (h : x.isFinite ∨ (x * z).isNaN = false) : x * z == 0 := by
  refine (alike_mul_zero hz ?_).beq_zero
  rcases h with hx | hnan
  · exact hx
  by_contra hx
  obtain ⟨s, hs⟩ := exists_unpack_of_eq_zero hz
  have hproduct : (x * z).isNaN :=
    isNaN_pack (hs ▸ mul_zero_eq_notANumber s (Bool.eq_false_iff.2 hx))
  rw [hnan] at hproduct
  cases hproduct

theorem isNaN_eq_false_of_isFinite (h : x.isFinite) : x.isNaN = false := by
  have h : x.toModel.unpack.isFinite := h
  rw [Bool.eq_false_iff, Ne, isNaN_iff]
  intro hx
  rw [hx] at h
  cases h

/-- A zero over anything but a zero is a zero or NaN. -/
theorem beq_zero_div (hz : z == 0) (hx : (x == 0) = false)
    (h : x.isFinite ∨ (z / x).isNaN = false) : z / x == 0 := by
  refine (alike_zero_div hz ?_ hx).beq_zero
  rcases h with hx | hnan
  · exact isNaN_eq_false_of_isFinite hx
  by_contra hx
  rw [isNaN_div (.inr (Bool.not_eq_false _ ▸ hx))] at hnan
  cases hnan

end

end FormulaCalculus.Double
