import FormulaCalculus.Proofs.Double.Order
import FormulaCalculus.Proofs.Double.Packing
import FormulaCalculus.Scalar

/-!
# Doubles that count as the same

`Alike`: equal in the sense of doubles, by which the two zeros are equal, or both NaN. Since there
is one NaN, alike doubles are the same but for the signs of zeros. Sums, differences, products and
roots of alike doubles are alike and the comparisons cannot tell them apart; quotients are alike if
the divisor is not zero.
-/

namespace FormulaCalculus.Double

open Float.Model Float.Model.UnpackedFloat

/-- Equal as doubles, or both NaN. -/
def Alike (x y : Float) : Prop :=
  x == y ∨ (x.isNaN ∧ y.isNaN)

instance (x y : Float) : Decidable (Alike x y) :=
  inferInstanceAs (Decidable (_ ∨ _))

/-! ### Unpacked doubles -/

/-- The same but for the sign of a zero. -/
inductive Similar : UnpackedFloat → UnpackedFloat → Prop
  | refl (u : UnpackedFloat) : Similar u u
  | zeros (s t : Sign) : Similar (.zero s) (.zero t)

namespace Similar

variable {u u' v v' : UnpackedFloat} {spec : Format}

theorem symm (h : Similar u v) : Similar v u := by
  cases h with
  | refl => exact .refl _
  | zeros s t => exact .zeros t s

theorem trans {w : UnpackedFloat} (h : Similar u v) (h' : Similar v w) : Similar u w := by
  cases h with
  | refl => exact h'
  | zeros s t => cases h' <;> exact .zeros _ _

/-- A function that is blind to the sign of a zero on either side. -/
theorem map₂ {f : UnpackedFloat → UnpackedFloat → UnpackedFloat}
    (hl : ∀ s t w, Similar (f (.zero s) w) (f (.zero t) w))
    (hr : ∀ w s t, Similar (f w (.zero s)) (f w (.zero t))) (h : Similar u u')
    (h' : Similar v v') : Similar (f u v) (f u' v') := by
  cases h with
  | refl => cases h' with
    | refl => exact .refl _
    | zeros s t => exact hr u s t
  | zeros s t => cases h' with
    | refl => exact hl s t v
    | zeros s' t' => exact (hl s t _).trans (hr _ s' t')

theorem add (h : Similar u u') (h' : Similar v v') :
    Similar (UnpackedFloat.add spec u v) (UnpackedFloat.add spec u' v') := by
  refine map₂ ?_ ?_ h h'
  · intro s t w
    cases w with
    | zero r => cases s <;> cases t <;> cases r <;> exact .zeros _ _
    | _ => exact .refl _
  · intro w s t
    cases w with
    | zero r => cases s <;> cases t <;> cases r <;> exact .zeros _ _
    | _ => exact .refl _

theorem sub (h : Similar u u') (h' : Similar v v') :
    Similar (UnpackedFloat.sub spec u v) (UnpackedFloat.sub spec u' v') := by
  refine map₂ ?_ ?_ h h'
  · intro s t w
    cases w with
    | zero r => cases s <;> cases t <;> cases r <;> exact .zeros _ _
    | _ => exact .refl _
  · intro w s t
    cases w with
    | zero r => cases s <;> cases t <;> cases r <;> exact .zeros _ _
    | _ => exact .refl _

theorem mul (h : Similar u u') (h' : Similar v v') :
    Similar (UnpackedFloat.mul spec u v) (UnpackedFloat.mul spec u' v') := by
  refine map₂ ?_ ?_ h h'
  · intro s t w
    cases w with
    | zero r => exact .zeros _ _
    | finite r => exact .zeros _ _
    | _ => exact .refl _
  · intro w s t
    cases w with
    | zero r => exact .zeros _ _
    | finite r => exact .zeros _ _
    | _ => exact .refl _

/-- By a zero a quotient depends on its sign. -/
theorem div (h : Similar u u') (h' : Similar v v') (hv : ∀ s, v ≠ .zero s) :
    Similar (UnpackedFloat.div spec u v) (UnpackedFloat.div spec u' v') := by
  cases h' with
  | zeros s t => exact absurd rfl (hv s)
  | refl => cases h with
    | refl => exact .refl _
    | zeros s t => cases v with
      | zero r => exact absurd rfl (hv r)
      | notANumber => exact .refl _
      | infinity r => exact .zeros _ _
      | finite r => exact .zeros _ _

theorem sqrt (h : Similar u u') :
    Similar (UnpackedFloat.sqrt spec u) (UnpackedFloat.sqrt spec u') := by
  cases h with
  | refl => exact .refl _
  | zeros s t => exact .zeros s t

theorem abs (h : Similar u u') : Similar u.abs u'.abs := by
  cases h <;> exact .refl _

theorem compare_eq (h : Similar u u') (h' : Similar v v') :
    UnpackedFloat.compare u v = UnpackedFloat.compare u' v' := by
  have hl : ∀ s t w, UnpackedFloat.compare (.zero s) w = UnpackedFloat.compare (.zero t) w := by
    intro s t w
    cases w with
    | infinity r | finite r => cases r <;> rfl
    | _ => rfl
  have hr : ∀ w s t, UnpackedFloat.compare w (.zero s) = UnpackedFloat.compare w (.zero t) := by
    intro w s t
    cases w with
    | infinity r | finite r => cases r <;> rfl
    | _ => rfl
  cases h with
  | refl => cases h' with
    | refl => rfl
    | zeros s t => exact hr u s t
  | zeros s t => cases h' with
    | refl => exact hl s t v
    | zeros s' t' => exact (hl s t _).trans (hr _ s' t')

theorem isNaN_eq (h : Similar u v) : u.isNaN = v.isNaN := by
  cases h <;> rfl

end Similar

theorem Similar.of_compare {u v : UnpackedFloat} (h : UnpackedFloat.compare u v = some .eq) :
    Similar u v := by
  cases u with
  | notANumber => cases h
  | infinity s => cases v with
    | infinity t => cases s <;> cases t <;> first | exact .refl _ | cases h
    | _ => cases s <;> cases h
  | zero s => cases v with
    | zero t => exact .zeros s t
    | notANumber => cases h
    | infinity t | finite t => cases t <;> cases h
  | finite s m q hm => cases v with
    | notANumber => cases h
    | infinity t => cases s <;> cases t <;> cases h
    | zero t => cases s <;> cases h
    | finite t n r hn =>
      have hsame : (compare q r).then (compare m n) = .eq → s = t →
          Similar (.finite s m q hm) (.finite t n r hn) := by
        rintro hcompare rfl
        rw [Ordering.then_eq_eq, Int.compare_eq_eq, Nat.compare_eq_eq] at hcompare
        obtain ⟨rfl, rfl⟩ := hcompare
        exact .refl _
      simp only [UnpackedFloat.compare] at h
      cases s <;> cases t
      · exact hsame (Ordering.swap_eq_eq.1 (Option.some.inj h)) rfl
      · cases h
      · cases h
      · exact hsame (Option.some.inj h) rfl

theorem compare_self {u : UnpackedFloat} (h : u.isNaN = false) :
    UnpackedFloat.compare u u = some .eq := by
  cases u with
  | notANumber => cases h
  | infinity s => cases s <;> rfl
  | zero s => rfl
  | finite s m q hm =>
    cases s <;> simp [UnpackedFloat.compare]

theorem similar_iff {u v : UnpackedFloat} :
    Similar u v ↔ UnpackedFloat.compare u v = some .eq ∨ (u.isNaN ∧ v.isNaN) := by
  constructor
  · intro h
    cases h with
    | refl => cases hu : u.isNaN with
      | false => exact .inl (compare_self hu)
      | true => exact .inr ⟨rfl, rfl⟩
    | zeros s t => exact .inl rfl
  · rintro (h | ⟨hu, hv⟩)
    · exact .of_compare h
    · cases u <;> cases hu
      cases v <;> cases hv
      exact .refl _

/-! ### Doubles -/

section

variable {x x' y y' : Float}

theorem beq_eq : (x == y) = (x.toModel.unpack.compare y.toModel.unpack == some .eq) :=
  rfl

theorem beq_self_of_isFinite (h : x.isFinite) : x == x := by
  have hnan : x.toModel.unpack.isNaN = false := by
    have h : x.toModel.unpack.isFinite := h
    cases hx : x.toModel.unpack with
    | notANumber => rw [hx] at h; cases h
    | _ => rfl
  rw [beq_eq, compare_self hnan]
  rfl

theorem le_eq : Float.le x y = x.toModel.unpack.le y.toModel.unpack := by
  show decide (x.toModel ≤ y.toModel) = _
  exact Bool.decide_eq_true

theorem alike_iff : Alike x y ↔ Similar x.toModel.unpack y.toModel.unpack := by
  rw [similar_iff, Alike, beq_eq, beq_iff_eq]
  rfl

theorem unpack_pack_zero (s : Sign) : (Float.Model.pack (.zero s)).unpack = .zero s := by
  cases s <;> rfl

theorem alike_pack {u v : UnpackedFloat} (h : Similar u v) :
    Alike (.ofModel (.pack u)) (.ofModel (.pack v)) := by
  rw [alike_iff]
  cases h with
  | refl => exact .refl _
  | zeros s t =>
    rw [unpack_pack_zero, unpack_pack_zero]
    exact .zeros s t

namespace Alike

theorem refl (x : Float) : Alike x x :=
  alike_iff.2 (.refl _)

theorem trans {z : Float} (h : Alike x y) (h' : Alike y z) : Alike x z :=
  alike_iff.2 ((alike_iff.1 h).trans (alike_iff.1 h'))

theorem symm (h : Alike x y) : Alike y x :=
  alike_iff.2 (alike_iff.1 h).symm

theorem of_isNaN (hx : x.isNaN) (hy : y.isNaN) : Alike x y :=
  .inr ⟨hx, hy⟩

theorem isNaN_eq (h : Alike x y) : x.isNaN = y.isNaN :=
  (alike_iff.1 h).isNaN_eq

theorem isWholeDouble_eq (h : Alike x y) : isWholeDouble x = isWholeDouble y := by
  have h := alike_iff.1 h
  unfold isWholeDouble
  generalize x.toModel.unpack = u at h ⊢
  generalize y.toModel.unpack = v at h ⊢
  cases h <;> rfl

theorem sqrt (h : Alike x y) : Alike x.sqrt y.sqrt :=
  alike_pack (alike_iff.1 h).sqrt

theorem abs (h : Alike x y) : Alike x.abs y.abs :=
  alike_pack (alike_iff.1 h).abs

variable (h : Alike x x') (h' : Alike y y')
include h h'

theorem add : Alike (x + y) (x' + y') :=
  alike_pack ((alike_iff.1 h).add (alike_iff.1 h'))

theorem sub : Alike (x - y) (x' - y') :=
  alike_pack ((alike_iff.1 h).sub (alike_iff.1 h'))

theorem mul : Alike (x * y) (x' * y') :=
  alike_pack ((alike_iff.1 h).mul (alike_iff.1 h'))

theorem compare_eq : x.toModel.unpack.compare y.toModel.unpack =
    x'.toModel.unpack.compare y'.toModel.unpack :=
  (alike_iff.1 h).compare_eq (alike_iff.1 h')

theorem beq_eq : (x == y) = (x' == y') := by
  rw [Double.beq_eq, Double.beq_eq, h.compare_eq h']

theorem lt_eq : Float.lt x y = Float.lt x' y' := by
  rw [Double.lt_eq, Double.lt_eq, UnpackedFloat.lt, UnpackedFloat.lt, h.compare_eq h']

theorem le_eq : Float.le x y = Float.le x' y' := by
  rw [Double.le_eq, Double.le_eq, UnpackedFloat.le, UnpackedFloat.le, h.compare_eq h']

theorem div (hy : (y == 0) = false) : Alike (x / y) (x' / y') := by
  refine alike_pack ((alike_iff.1 h).div (alike_iff.1 h') fun s hs => ?_)
  rw [Double.beq_eq, hs] at hy
  cases hy

end Alike

end

end FormulaCalculus.Double
