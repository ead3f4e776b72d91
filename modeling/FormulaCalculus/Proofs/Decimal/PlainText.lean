import FormulaCalculus.Decimal.Notation
import FormulaCalculus.Proofs.Decimal.Shortest
import FormulaCalculus.Proofs.Double.Reading
import FormulaCalculus.Proofs.Print.Spelling

/-!
# Plain text of numbers

The plain text of a finite double is a numeral, after a minus if the double is negative, and it is
read as the same double: `spells_plainText`.
-/

namespace FormulaCalculus.Decimal

open Text Formula

/-! ### Digits -/

section Digits
variable {cs ds fs : List Char} {c : Char} {k n : Nat}

theorem digit?_of_isDigit (h : c.isDigit) : digit? c = some (c.toNat - 48) := by
  simp only [Char.isDigit, Bool.and_eq_true, decide_eq_true_eq] at h
  have hlow : 48 ≤ c.toNat := h.1
  have hhigh : c.toNat ≤ 57 := h.2
  have hfind : digitZeros.find? (fun z => z ≤ c.toNat && c.toNat ≤ z + 9) = some 48 :=
    List.find?_cons_of_pos (by simp only [hlow, hhigh, decide_true, Bool.and_self])
  rw [digit?, hfind, Option.map_some]

theorem isDigit_of_isDigit (h : c.isDigit) : isDigit c := by
  rw [isDigit, digit?_of_isDigit h, Option.isSome_some]

theorem isDigit_toDigits (n : Nat) : ∀ c ∈ Nat.toDigits 10 n, c.isDigit :=
  fun _ hc => Nat.isDigit_of_mem_toDigits (by decide) (by decide) hc

theorem isDigit_zeros (k : Nat) : ∀ c ∈ zeros k, c.isDigit := by
  intro c hc
  rw [List.eq_of_mem_replicate hc]
  rfl

/-- Reading on from a number. -/
def readOn (n : Nat) (cs : List Char) : Nat :=
  (cs.filterMap digit?).foldl (fun n d => 10 * n + d) n

theorem numeral_append (cs ds : List Char) : numeral (cs ++ ds) = readOn (numeral cs) ds := by
  rw [numeral, List.filterMap_append, List.foldl_append]
  rfl

theorem readOn_zeros (n k : Nat) : readOn n (zeros k) = n * 10 ^ k := by
  induction k generalizing n with
  | zero => exact (Nat.mul_one n).symm
  | succ k ih =>
    have hstep : readOn n (zeros (k + 1)) = readOn (10 * n) (zeros k) := rfl
    rw [hstep, ih, Nat.pow_succ]
    ring

theorem readOn_toDigits (n : Nat) : readOn 0 (Nat.toDigits 10 n) = n := by
  have hmap : (Nat.toDigits 10 n).filterMap digit? = (Nat.toDigits 10 n).map (·.toNat - 48) := by
    rw [← List.filterMap_eq_map]
    exact List.filterMap_congr fun c hc => digit?_of_isDigit (isDigit_toDigits n c hc)
  rw [readOn, hmap, List.foldl_map]
  exact Nat.ofDigitChars_ten_toDigits

theorem numeral_toDigits (n : Nat) : numeral (Nat.toDigits 10 n) = n :=
  readOn_toDigits n

theorem ne_point (h : isDigit c) : (c != '.') = true := by
  rw [bne_iff_ne]
  rintro rfl
  exact absurd h (by decide)

theorem readLiteral_whole (h : ∀ c ∈ ds, isDigit c) :
    readLiteral ds = toDouble (numeral ds) (-(0 : Nat)) := by
  have hdrop : ds.dropWhile (· != '.') = [] := by
    exact List.dropWhile_eq_nil_iff.2 fun c hc => ne_point (h c hc)
  rw [readLiteral, hdrop]
  rfl

theorem readLiteral_point (h : ∀ c ∈ ds, isDigit c) :
    readLiteral (ds ++ '.' :: fs) = toDouble (numeral (ds ++ fs)) (-(fs.length : Nat)) := by
  have hdrop : (ds ++ '.' :: fs).dropWhile (· != '.') = '.' :: fs := by
    rw [List.dropWhile_append_of_pos fun c hc => ne_point (h c hc)]
    rfl
  have hnumeral : numeral (ds ++ '.' :: fs) = numeral (ds ++ fs) := by
    rw [numeral_append, numeral_append]
    rfl
  rw [readLiteral, hdrop, hnumeral]
  rfl

end Digits

/-! ### Positional notation -/

/-- The text is a numeral for the decimal. -/
structure Writes (d : Decimal) (cs : List Char) : Prop where
  numeral : Numeral cs
  value : ∃ n k : Nat, readLiteral cs = toDouble n (-(k : Int)) ∧
    (n : ℚ) / 10 ^ k = d.digits * 10 ^ d.exponent

theorem writes_whole {d : Decimal} {ds : List Char} (hne : ds ≠ []) (h : ∀ c ∈ ds, c.isDigit)
    (hvalue : (numeral ds : ℚ) = d.digits * 10 ^ d.exponent) : Writes d ds := by
  have hdigits : ∀ c ∈ ds, isDigit c := fun c hc => isDigit_of_isDigit (h c hc)
  refine ⟨.whole hne hdigits, Text.numeral ds, 0, readLiteral_whole hdigits, ?_⟩
  rw [pow_zero, div_one, hvalue]

theorem writes_point {d : Decimal} {ds fs : List Char} (hne : ds ≠ []) (h : ∀ c ∈ ds, c.isDigit)
    (hne' : fs ≠ []) (h' : ∀ c ∈ fs, c.isDigit) (hlength : d.exponent = -(fs.length : Int))
    (hvalue : Text.numeral (ds ++ fs) = d.digits) : Writes d (ds ++ '.' :: fs) := by
  have hdigits : ∀ c ∈ ds, isDigit c := fun c hc => isDigit_of_isDigit (h c hc)
  refine ⟨.point hne hdigits hne' fun c hc => isDigit_of_isDigit (h' c hc), Text.numeral (ds ++ fs),
    fs.length, readLiteral_point hdigits, ?_⟩
  rw [hvalue, hlength, zpow_neg, zpow_natCast, div_eq_mul_inv]

theorem plain_of_split {d : Decimal} {ds fs : List Char} (h : d.split = (ds, fs)) :
    d.plain = if fs = [] then ds else ds ++ '.' :: fs := by
  rw [plain, h]
  cases fs <;> rfl

theorem writes_plain (d : Decimal) : Writes d d.plain := by
  set ds := Nat.toDigits 10 d.digits with hds
  have hne : ds ≠ [] := Nat.toDigits_ne_nil
  have hdigits : ∀ c ∈ ds, c.isDigit := isDigit_toDigits d.digits
  by_cases hwhole : 0 ≤ d.exponent
  · have hsplit : d.split = (ds ++ zeros d.exponent.toNat, []) := by
      rw [split, if_pos hwhole]
    rw [plain_of_split hsplit, if_pos rfl]
    refine writes_whole (List.append_ne_nil_of_left_ne_nil hne _) ?_ ?_
    · exact List.forall_mem_append.2 ⟨hdigits, isDigit_zeros _⟩
    · rw [numeral_append, numeral_toDigits, readOn_zeros, Nat.cast_mul, Nat.cast_pow,
        Nat.cast_ofNat, ← zpow_natCast, Int.toNat_of_nonneg hwhole]
  · have hplaces : d.exponent = -(d.places : Int) := by
      rw [places]
      omega
    by_cases hpoint : d.places < ds.length
    · have hsplit : d.split = (ds.take (ds.length - d.places), ds.drop (ds.length - d.places)) := by
        rw [split, if_neg hwhole, if_pos hpoint]
        exact List.splitAt_eq ..
      have hlength : (ds.drop (ds.length - d.places)).length = d.places := by
        rw [List.length_drop]
        omega
      have hfraction : ds.drop (ds.length - d.places) ≠ [] := by
        rw [← List.length_pos_iff]
        omega
      rw [plain_of_split hsplit, if_neg hfraction]
      refine writes_point ?_ (fun c hc => hdigits c (List.mem_of_mem_take hc)) hfraction
        (fun c hc => hdigits c (List.mem_of_mem_drop hc)) (by rw [hlength, hplaces]) ?_
      · rw [← List.length_pos_iff, List.length_take]
        omega
      · rw [List.take_append_drop]
        exact numeral_toDigits d.digits
    · have hsplit : d.split = (['0'], zeros (d.places - ds.length) ++ ds) := by
        rw [split, if_neg hwhole, if_neg hpoint]
      have hfraction : zeros (d.places - ds.length) ++ ds ≠ [] :=
        List.append_ne_nil_of_right_ne_nil _ hne
      rw [plain_of_split hsplit, if_neg hfraction]
      refine writes_point (List.cons_ne_nil _ _) (List.forall_mem_singleton.2 rfl) hfraction
        (List.forall_mem_append.2 ⟨isDigit_zeros _, hdigits⟩) ?_ ?_
      · rw [List.length_append, zeros, List.length_replicate, hplaces]
        omega
      · rw [← List.append_assoc, numeral_append, numeral_append, readOn_zeros]
        exact (congrArg (readOn · ds) (Nat.zero_mul _)).trans (readOn_toDigits d.digits)

/-! ### Doubles -/

section Doubles

open Double Float.Model Float.Model.UnpackedFloat

variable {m : Nat} {q : Int} {s : Sign} {x : Float}

theorem readLiteral_plain_shortest (hc : Canonical m q) :
    readLiteral (shortest m q).plain = .ofModel (.pack (.finite .positive m q hc.pos)) := by
  obtain ⟨n, k, hread, hvalue⟩ := (writes_plain (shortest m q)).value
  have hnear := nearest_shortest hc
  rw [← hvalue] at hnear
  have hn : 0 < n := by
    have hpos := hnear.pos hc.pos
    rw [div_pos_iff_of_pos_right (by positivity)] at hpos
    exact_mod_cast hpos
  rw [hread, toDouble_eq hn hc hnear]

theorem neg_readLiteral_plain_shortest (hc : Canonical m q) :
    -readLiteral (shortest m q).plain = .ofModel (.pack (.finite .negative m q hc.pos)) := by
  rw [readLiteral_plain_shortest hc]
  show Float.ofModel (.pack (Float.Model.pack (.finite .positive m q hc.pos)).unpack.neg) = _
  rw [unpack_pack_finite hc]
  rfl

theorem numeral_zero : Numeral ['0'] :=
  .whole (List.cons_ne_nil _ _) (List.forall_mem_singleton.2 rfl)

/-- The plain text of a finite double spells it. -/
theorem spells_plainText (h : x.isFinite) : Spells (plainText none x).toList x := by
  have hfinite : x.toModel.unpack.isFinite := h
  rw [plainText, writeDouble, String.toList_ofList]
  cases hx : x.toModel.unpack with
  | notANumber =>
    rw [hx] at hfinite
    cases hfinite
  | infinity s =>
    rw [hx] at hfinite
    cases hfinite
  | zero s =>
    obtain rfl : x = .ofModel (.pack (.zero s)) := congrArg Float.ofModel (pack_unpack_zero hx).symm
    cases s with
    | positive => exact .plain numeral_zero
    | negative => exact .negative numeral_zero
  | finite s m q hm =>
    have hc := canonical_of_unpack hx
    obtain rfl : x = .ofModel (.pack (.finite s m q hm)) :=
      congrArg Float.ofModel (pack_unpack_finite hx).symm
    have hnumeral := (writes_plain (shortest m q)).numeral
    cases s with
    | positive =>
      rw [← readLiteral_plain_shortest hc]
      exact .plain hnumeral
    | negative =>
      rw [← neg_readLiteral_plain_shortest hc]
      exact .negative hnumeral

/-- A finite double is spelled if zero and the other magnitudes are written as numerals. -/
theorem exists_spells_writeDouble {zero : List Char} {write : Nat → Int → List Char}
    (hzero : Numeral zero) (hwrite : ∀ m q, Numeral (write m q)) (h : x.isFinite) :
    ∃ y, Spells (writeDouble zero write x).toList y := by
  have hfinite : x.toModel.unpack.isFinite := h
  rw [writeDouble, String.toList_ofList]
  cases hx : x.toModel.unpack with
  | notANumber =>
    rw [hx] at hfinite
    cases hfinite
  | infinity s =>
    rw [hx] at hfinite
    cases hfinite
  | zero s =>
    cases s with
    | positive => exact ⟨_, .plain hzero⟩
    | negative => exact ⟨_, .negative hzero⟩
  | finite s m q hm =>
    cases s with
    | positive => exact ⟨_, .plain (hwrite m q)⟩
    | negative => exact ⟨_, .negative (hwrite m q)⟩

/-- To any precision the magnitudes are written as numerals. -/
theorem plainText_eq_writeDouble (precision : Option Nat) :
    ∃ write, plainText precision = writeDouble ['0'] write ∧ ∀ m q, Numeral (write m q) := by
  refine ⟨_, rfl, fun m q => ?_⟩
  cases precision with
  | none => exact (writes_plain _).numeral
  | some p =>
    dsimp only
    split_ifs
    · exact (writes_plain _).numeral
    · exact (writes_plain _).numeral

/-- To any precision the plain text of a finite double spells a number. -/
theorem exists_spells_plainText (precision : Option Nat) (h : x.isFinite) :
    ∃ y, Spells (plainText precision x).toList y := by
  obtain ⟨write, hplain, hwrite⟩ := plainText_eq_writeDouble precision
  rw [hplain]
  exact exists_spells_writeDouble numeral_zero hwrite h

end Doubles

end FormulaCalculus.Decimal
