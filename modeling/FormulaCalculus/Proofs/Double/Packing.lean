import FormulaCalculus.Proofs.Double.Rounding

/-!
# Packing doubles

Taking a double apart and putting it together again changes nothing, in either order, and the parts
of a finite double are canonical.
-/

namespace FormulaCalculus.Double

open Float.Model Float.Model.UnpackedFloat

/-! ### The fields of a bit pattern -/

theorem toBitVec_ofBitVec (b : BitVec 1) : (Sign.ofBitVec b).toBitVec = b := by
  revert b
  decide

theorem ofBitVec_toBitVec (s : Sign) : Sign.ofBitVec s.toBitVec = s := by
  cases s <;> rfl

theorem unpackSign_packComponents (s : Sign) (e : BitVec 11) (m : BitVec 52) :
    unpackSign (packComponents Format.binary64 s e m) = s.toBitVec := by
  refine BitVec.eq_of_getLsbD_eq fun i hi => ?_
  obtain rfl : i = 0 := Nat.lt_one_iff.1 hi
  simp only [unpackSign, packComponents, BitVec.getLsbD_cast, BitVec.getLsbD_extractLsb,
    BitVec.getLsbD_append]
  rfl

theorem packComponents_unpack (b : BitVec Format.binary64.numBits) :
    packComponents Format.binary64 (Sign.ofBitVec (unpackSign b)) (unpackExponent b)
      (unpackMantissa b) = b := by
  rw [packComponents, toBitVec_ofBitVec]
  refine BitVec.eq_of_getLsbD_eq fun i hi => ?_
  have hi : i < 64 := hi
  simp only [BitVec.getLsbD_append, unpackMantissa, unpackExponent, unpackSign, BitVec.getLsbD_cast,
    BitVec.getLsbD_extractLsb]
  split
  · rename_i hm
    have : i < 52 := hm
    simp only [Nat.zero_add, Bool.and_eq_right_iff_imp, decide_eq_true_eq]
    omega
  · split
    · rename_i hm he
      have : ¬i < 52 := hm
      have : i - 52 < 11 := he
      rw [show 52 + (i - 52) = i by omega]
      simp only [Bool.and_eq_right_iff_imp, decide_eq_true_eq]
      omega
    · rename_i hm he
      have : ¬i < 52 := hm
      have : ¬i - 52 < 11 := he
      obtain rfl : i = 63 := by omega
      rfl

theorem toNat_implicit (b : BitVec 52) : (1#1 ++ b).toNat = 2 ^ 52 + b.toNat := by
  rw [BitVec.toNat_append, ← Nat.shiftLeft_add_eq_or_of_lt b.isLt]
  rfl

theorem ne_neg_one_iff {e : BitVec 11} : e ≠ -1#11 ↔ e.toNat < 2047 := by
  have hlt := e.isLt
  rw [ne_eq, ← BitVec.toNat_inj, show (-1#11).toNat = 2047 from rfl]
  omega

/-! ### Finite doubles -/

section Finite
variable {s : Sign} {m : Nat} {q : Int}

theorem pack_normal (hm : 0 < m) (hlow : 2 ^ 52 ≤ m) (hlt : m < 2 ^ 53) (hq : -1074 ≤ q)
    (hq' : q ≤ 971) : UnpackedFloat.pack Format.binary64 (.finite s m q hm) =
      packComponents Format.binary64 s (.ofNat 11 (q + 1075).toNat) (.ofNat 52 m) := by
  have hlog : m.log2 + 1 = Format.binary64.mantissaBits := by
    have : m.log2 < 53 := (Nat.log2_lt hm.ne').2 hlt
    have : 52 ≤ m.log2 := (Nat.le_log2 hm.ne').2 hlow
    rw [show Format.binary64.mantissaBits = 53 from rfl]
    omega
  have hbiased :
      (q + (Format.binary64.exponentBias : Int) + (52 : Nat)).toNat = (q + 1075).toNat := by
    rw [show Format.binary64.exponentBias = 1023 from rfl]
    omega
  simp only [UnpackedFloat.pack, hbiased]
  rw [if_neg (by omega), if_pos hlog]

theorem pack_subnormal (hm : 0 < m) (hlt : m < 2 ^ 52) :
    UnpackedFloat.pack Format.binary64 (.finite s m (-1074) hm) =
      packComponents Format.binary64 s 0#11 (.ofNat 52 m) := by
  have hlog : ¬m.log2 + 1 = Format.binary64.mantissaBits := by
    have : m.log2 < 52 := (Nat.log2_lt hm.ne').2 hlt
    rw [show Format.binary64.mantissaBits = 53 from rfl]
    omega
  simp only [UnpackedFloat.pack]
  rw [if_neg (by decide), if_neg hlog]

/-- The bit pattern of a finite double. -/
theorem unpack_eq_finite {b : BitVec Format.binary64.numBits} {hm : 0 < m}
    (h : UnpackedFloat.unpack Format.binary64 b = .finite s m q hm) :
    s = Sign.ofBitVec (unpackSign b) ∧
      ((unpackExponent b = 0#11 ∧ m = (unpackMantissa b).toNat ∧ q = -1074) ∨
        (unpackExponent b ≠ 0#11 ∧ (unpackExponent b).toNat < 2047 ∧
          m = 2 ^ 52 + (unpackMantissa b).toNat ∧ q = (unpackExponent b).toNat - 1075)) := by
  simp only [UnpackedFloat.unpack] at h
  split at h
  · split at h <;> cases h
  · rename_i hfinite
    split at h
    · rename_i hzero
      split at h
      · cases h
      · cases h
        refine ⟨rfl, Or.inl ⟨hzero, rfl, ?_⟩⟩
        rw [hzero]
        rfl
    · rename_i hzero
      cases h
      exact ⟨rfl, Or.inr ⟨hzero, ne_neg_one_iff.1 hfinite, toNat_implicit _, rfl⟩⟩

theorem unpackMantissa_lt (b : BitVec Format.binary64.numBits) :
    (unpackMantissa b).toNat < 2 ^ 52 :=
  BitVec.isLt _

theorem canonical_of_unpack {x : Float.Model} {hm : 0 < m} (h : x.unpack = .finite s m q hm) :
    Canonical m q := by
  have hlt := unpackMantissa_lt x.toBits.toBitVec
  obtain ⟨-, ⟨-, rfl, rfl⟩ | ⟨hzero, hfinite, rfl, rfl⟩⟩ := unpack_eq_finite h
  · exact ⟨hm, by omega, by omega, by omega, Or.inr rfl⟩
  · have hne := mt BitVec.toNat_inj.1 hzero
    rw [BitVec.toNat_zero] at hne
    exact ⟨hm, by omega, by omega, by omega, Or.inl (by omega)⟩

theorem ofNat_implicit (b : BitVec 52) : BitVec.ofNat 52 (2 ^ 52 + b.toNat) = b := by
  refine BitVec.eq_of_toNat_eq ?_
  rw [BitVec.toNat_ofNat, Nat.add_mod_left, Nat.mod_eq_of_lt b.isLt]

theorem pack_unpack_finite {x : Float.Model} {hm : 0 < m} (h : x.unpack = .finite s m q hm) :
    Float.Model.pack (.finite s m q hm) = x := by
  have hc := canonical_of_unpack h
  have hbits : UnpackedFloat.pack Format.binary64 (.finite s m q hm) = x.toBits.toBitVec := by
    obtain ⟨rfl, ⟨hzero, rfl, rfl⟩ | ⟨hzero, hfinite, rfl, rfl⟩⟩ := unpack_eq_finite h
    · rw [pack_subnormal hm (unpackMantissa_lt _), BitVec.ofNat_toNat, BitVec.setWidth_eq]
      exact (congrArg (packComponents Format.binary64 _ · _) hzero.symm).trans
        (packComponents_unpack x.toBits.toBitVec)
    · rw [pack_normal hm (Nat.le_add_right _ _) hc.lt hc.least hc.most, Int.sub_add_cancel,
        Int.toNat_natCast, BitVec.ofNat_toNat, BitVec.setWidth_eq, ofNat_implicit]
      exact packComponents_unpack x.toBits.toBitVec
  obtain ⟨bits, hvalid⟩ := x
  simp only [Float.Model.pack, hbits]

theorem pack_unpack_zero {x : Float.Model} (h : x.unpack = .zero s) :
    Float.Model.pack (.zero s) = x := by
  have hbits : UnpackedFloat.pack Format.binary64 (.zero s) = x.toBits.toBitVec := by
    simp only [Float.Model.unpack, UnpackedFloat.unpack] at h
    split at h
    · split at h <;> cases h
    · split at h
      · rename_i hexponent
        split at h
        · rename_i hmantissa
          cases h
          exact (congrArg₂ (packComponents Format.binary64 _) hexponent.symm hmantissa.symm).trans
            (packComponents_unpack x.toBits.toBitVec)
        · cases h
      · cases h
  obtain ⟨bits, hvalid⟩ := x
  simp only [Float.Model.pack, hbits]

theorem unpack_pack_finite (hc : Canonical m q) :
    (Float.Model.pack (.finite s m q hc.pos)).unpack = .finite s m q hc.pos := by
  obtain ⟨hm, hlt, hleast, hmost, hnormal⟩ := hc
  show UnpackedFloat.unpack Format.binary64 (UnpackedFloat.pack Format.binary64 _) = _
  by_cases hlow : 2 ^ 52 ≤ m
  · have hbiased : (BitVec.ofNat 11 (q + 1075).toNat).toNat = (q + 1075).toNat := by
      rw [BitVec.toNat_ofNat, Nat.mod_eq_of_lt (by omega)]
    have hfinite : BitVec.ofNat 11 (q + 1075).toNat ≠ -1#11 := ne_neg_one_iff.2 (by omega)
    have hzero : BitVec.ofNat 11 (q + 1075).toNat ≠ 0#11 := fun h => by
      rw [h] at hbiased
      have : (0#11).toNat = 0 := rfl
      omega
    have hmantissa : (1#1 ++ BitVec.ofNat 52 m).toNat = m := by
      rw [toNat_implicit, BitVec.toNat_ofNat]
      omega
    rw [pack_normal hm hlow hlt hleast hmost]
    simp only [UnpackedFloat.unpack, unpackMantissa_packComponents, unpackExponent_packComponents,
      unpackSign_packComponents, ofBitVec_toBitVec, if_neg hfinite, if_neg hzero, hbiased,
      hmantissa]
    congr 1
    rw [show Format.binary64.exponentBias = 1023 from rfl]
    omega
  · obtain rfl := hnormal.resolve_left hlow
    have hmantissa : (BitVec.ofNat 52 m).toNat = m := by
      rw [BitVec.toNat_ofNat, Nat.mod_eq_of_lt (by omega)]
    have hzero : BitVec.ofNat 52 m ≠ 0#52 := fun h => by
      rw [h] at hmantissa
      have : (0#52).toNat = 0 := rfl
      omega
    rw [pack_subnormal hm (by omega)]
    simp only [UnpackedFloat.unpack, unpackMantissa_packComponents, unpackExponent_packComponents,
      unpackSign_packComponents, ofBitVec_toBitVec, hmantissa]
    rw [if_neg (by decide), if_pos trivial, dif_neg hzero]
    rfl

end Finite

end FormulaCalculus.Double
