import FormulaCalculus.Decimal.Basic

/-!
# Shortest decimals

A positive double `m * 2 ^ q` stands for the numbers that round to it: the ones from half a step
below to half a step above, ends included when `m` is even. `shortest` is the decimal among them
with the fewest digits, and of those the nearest to the double. It goes through the grids of the
multiples of `10 ^ e` from coarse to fine; if a point of a grid rounds to the double, so does one
of the double's two neighbours on the grid.
-/

namespace FormulaCalculus.Decimal

/-- The least exponent of a double. -/
def leastExponent : Int := -1074

/-- Below a power of two the doubles lie twice as dense. -/
def isNarrow (m : Nat) (q : Int) : Bool :=
  m == Nat.pow 2 52 && leastExponent < q

/-- A quarter of the double's step, `2 ^ (q - 2)`, in the unit in which the grid has step `step`. -/
def quarter (q e : Int) : Nat :=
  Nat.pow 2 q.toNat * Nat.pow 10 (-e).toNat

def step (q e : Int) : Nat :=
  4 * Nat.pow 2 (-q).toNat * Nat.pow 10 e.toNat

/-- Whether `n * 10 ^ e` rounds to `m * 2 ^ q`. -/
def reads (m : Nat) (q e : Int) (n : Nat) : Bool :=
  let low := (4 * m - if isNarrow m q then 1 else 2) * quarter q e
  let high := (4 * m + 2) * quarter q e
  let x := n * step q e
  if m % 2 = 0 then low ≤ x && x ≤ high else low < x && x < high

/-- The nearest multiple of `10 ^ e` that rounds to `m * 2 ^ q`; of two equally near ones the
even. -/
def pick? (m : Nat) (q e : Int) : Option Nat :=
  let below := 4 * m * quarter q e / step q e
  match reads m q e below, reads m q e (below + 1) with
  | true, true => some (roundDiv (4 * m * quarter q e) (step q e))
  | true, false => some below
  | false, true => some (below + 1)
  | false, false => none

/-- The first of `count` grids from `10 ^ e` downwards with a point that rounds to `m * 2 ^ q`. -/
def scan (m : Nat) (q : Int) : (count : Nat) → (e : Int) → Decimal
  | 0, e => ⟨4 * m * quarter q e / step q e, e⟩
  | count + 1, e =>
    match pick? m q e with
    | some n => ⟨n, e⟩
    | none => scan m q count (e - 1)

/-- An exponent whose power of ten exceeds `m * 2 ^ q`, at most a hundredfold. -/
def startExponent (m : Nat) (q : Int) : Int :=
  (m.log2 + 1 + q) * 30103 / 100000 + 1

/-- Seventeen digits always suffice. -/
def shortest (m : Nat) (q : Int) : Decimal :=
  (scan m q 20 (startExponent m q)).trim

/-- `m * 2 ^ q` rounded to `p` digits after the point. -/
def rounded (m : Nat) (q : Int) (p : Nat) : Decimal :=
  trim ⟨roundDiv (m * Nat.pow 2 q.toNat * Nat.pow 10 p) (Nat.pow 2 (-q).toNat), -(p : Int)⟩

example : shortest (2 ^ 52) (-52) = ⟨1, 0⟩ := by decide +kernel
example : shortest 1 (-1074) = ⟨5, -324⟩ := by decide +kernel
example : shortest 7205759403792794 (-56) = ⟨1, -1⟩ := by decide +kernel
example : rounded 5 (-1) 0 = ⟨2, 0⟩ := by decide +kernel

end FormulaCalculus.Decimal
