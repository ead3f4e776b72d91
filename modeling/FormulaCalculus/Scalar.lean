import FormulaCalculus.Fault

/-!
# Numbers to compute with

Evaluation, simplification and differentiation share one reading of the operators, `Op.apply`. It
is stated over any numbers with the elementary functions, so the same rules can be read over
doubles, which is what runs, and over exact numbers. Batches of doubles have a rule of their own,
`Op.applyTotal`, which gives NaN instead of a fault.
-/

namespace FormulaCalculus

class Scalar (α : Type) where
  ofInt : Int → α
  /-- A divisor, unless it exceeds every number. -/
  ofNat? : Nat → Option α
  add : α → α → α
  sub : α → α → α
  mul : α → α → α
  div : α → α → α
  pow : α → α → α
  ln : α → α
  sqrt : α → α
  cos : α → α
  sin : α → α
  tan : α → α
  arcsin : α → α
  arccos : α → α
  arctan : α → α
  abs : α → α
  halfPi : α
  /-- Stands for the left operand of a function. -/
  absent : α
  eq : α → α → Bool
  lt : α → α → Bool
  le : α → α → Bool
  /-- Whether the number is an integer. -/
  isWhole : α → Bool

open Float.Model in
/-- Whether a double is finite and an integer. -/
def isWholeDouble (x : Float) : Bool :=
  match x.toModel.unpack with
  | .zero _ => true
  | .finite _ m q _ => m % Nat.pow 2 (-q).toNat == 0
  | _ => false

/-- The elementary functions of doubles. -/
class Elementary where
  pow : Float → Float → Float
  ln : Float → Float
  cos : Float → Float
  sin : Float → Float
  tan : Float → Float
  arcsin : Float → Float
  arccos : Float → Float
  arctan : Float → Float

instance : Elementary where
  pow := Float.pow
  ln := Float.log
  cos := Float.cos
  sin := Float.sin
  tan := Float.tan
  arcsin := Float.asin
  arccos := Float.acos
  arctan := Float.atan

/-- The power of doubles. The exponents -1, 1/2 and 2 take a single operation, which rounds once. -/
def powDouble [Elementary] (x y : Float) : Float :=
  if y == -1 then 1 / x
  else if y == 0.5 then x.sqrt
  else if y == 2 then x * x
  else Elementary.pow x y

/-- The double nearest to an integer. -/
def doubleOfInt (n : Int) : Float :=
  if n < 0 then -Float.ofNat n.natAbs else Float.ofNat n.natAbs

instance [Elementary] : Scalar Float where
  ofInt := doubleOfInt
  ofNat? n := some (Float.ofNat n) |>.filter Float.isFinite
  add := Float.add
  sub := Float.sub
  mul := Float.mul
  div := Float.div
  pow := powDouble
  ln := Elementary.ln
  sqrt := Float.sqrt
  cos := Elementary.cos
  sin := Elementary.sin
  tan := Elementary.tan
  arcsin := Elementary.arcsin
  arccos := Elementary.arccos
  arctan := Elementary.arctan
  abs := Float.abs
  halfPi := 1.5707963267948966
  absent := 0 / 0
  eq := Float.beq
  lt := Float.lt
  le := Float.le
  isWhole := isWholeDouble

namespace Op

open Scalar

variable {α : Type} [Scalar α]

/-- The value of an operator. A function reads its argument from the right operand. -/
def apply (op : Op) (x y : α) : Except DomainFault α :=
  match op with
  | add => .ok (Scalar.add x y)
  | sub => .ok (Scalar.sub x y)
  | mul => .ok (Scalar.mul x y)
  | div => if eq y (ofInt 0) then .error .divisionByZero else .ok (Scalar.div x y)
  | pow =>
    if eq x (ofInt 0) && lt y (ofInt 0) then .error .zeroToNegativePower
    else if lt x (ofInt 0) && !isWhole y then .error .negativeToFraction
    else .ok (Scalar.pow x y)
  | ln => if le y (ofInt 0) then .error .logOfNonPositive else .ok (Scalar.ln y)
  | sqrt => if lt y (ofInt 0) then .error .rootOfNegative else .ok (Scalar.sqrt y)
  | cos => .ok (Scalar.cos y)
  | sin => .ok (Scalar.sin y)
  | tg => if eq (Scalar.cos y) (ofInt 0) then .error .tangentPole else .ok (tan y)
  | ctg =>
    if eq (Scalar.sin y) (ofInt 0) then .error .cotangentPole
    else .ok (Scalar.div (Scalar.cos y) (Scalar.sin y))
  | arcsin =>
    if le (ofInt (-1)) y && le y (ofInt 1) then .ok (Scalar.arcsin y) else .error .arcsinOutside
  | arccos =>
    if le (ofInt (-1)) y && le y (ofInt 1) then .ok (Scalar.arccos y) else .error .arccosOutside
  | arctg => .ok (arctan y)
  | arcctg => .ok (Scalar.sub halfPi (arctan y))

/-- The value of an operator on doubles, NaN outside its domain. Only an exponent that equals no
integer and no infinity counts as a fraction. -/
def applyTotal [Elementary] (op : Op) (x y : Float) : Float :=
  let nan : Float := 0 / 0
  match op with
  | add => x + y
  | sub => x - y
  | mul => x * y
  | div => if y == 0 then nan else x / y
  | pow =>
    if x == 0 && y < 0 then nan
    else if x < 0 && !(isWholeDouble y || y.isInf) then nan
    else Elementary.pow x y
  | ln => if y > 0 then Elementary.ln y else nan
  | sqrt => if y ≥ 0 then y.sqrt else nan
  | cos => Elementary.cos y
  | sin => Elementary.sin y
  | tg => if Elementary.cos y == 0 then nan else Elementary.tan y
  | ctg => if Elementary.sin y == 0 then nan else Elementary.cos y / Elementary.sin y
  | arcsin => if -1 ≤ y && y ≤ 1 then Elementary.arcsin y else nan
  | arccos => if -1 ≤ y && y ≤ 1 then Elementary.arccos y else nan
  | arctg => Elementary.arctan y
  | arcctg => halfPi - Elementary.arctan y

end Op

end FormulaCalculus
