import StandardLp.Numeric.Binary

/-!
Shortest decimals. A decimal reads back as a given code when it lies in the interval of reals
that round to it. The shortest decimal of a code has the fewest digits that read back and, of
those, lies nearest to the exact value; of two equally near ones it is the larger. All
comparisons are between natural numbers, so nothing is rounded on the way.
-/

namespace StandardLp

/-- The number `digits * 10 ^ exponent`. -/
structure Decimal where
  digits : Nat
  exponent : Int
deriving DecidableEq, Repr

namespace Decimal

def stripped (d : Decimal) : Decimal :=
  if d.digits ≠ 0 ∧ d.digits % 10 = 0 then stripped ⟨d.digits / 10, d.exponent + 1⟩ else d
termination_by d.digits
decreasing_by omega

end Decimal

/-- The reals that round to one magnitude, and the magnitude itself, as numerators over a common
denominator. The ends belong to the interval when `closed`. -/
structure RoundingInterval where
  low : Nat
  value : Nat
  high : Nat
  denominator : Nat
  closed : Bool
deriving Repr

namespace RoundingInterval

/-- The interval reaches halfway to the neighbouring codes. A half rounds to the even code. -/
def ofCode (f : Format) (code : Nat) : RoundingInterval where
  low := f.units (code - 1) + f.units code
  value := 2 * f.units code
  high := f.units code + f.units (code + 1)
  denominator := Nat.pow 2 (f.scale + 1)
  closed := code % 2 == 0

def contains (i : RoundingInterval) (d : Decimal) : Bool :=
  let number := d.digits * Nat.pow 10 d.exponent.toNat * i.denominator
  let low := i.low * Nat.pow 10 (-d.exponent).toNat
  let high := i.high * Nat.pow 10 (-d.exponent).toNat
  if i.closed then low ≤ number && number ≤ high else low < number && number < high

/-- The exponent of the leading digit of the value, which is at least `10 ^ -places`. -/
def leadingExponent (i : RoundingInterval) (places : Nat) : Int :=
  (Nat.toDigits 10 (i.value * Nat.pow 10 places / i.denominator)).length - 1 - places

/-- The multiple of `10 ^ exponent` in the interval that is nearest to the value. -/
def nearest? (i : RoundingInterval) (exponent : Int) : Option Decimal :=
  let value := i.value * Nat.pow 10 (-exponent).toNat
  let step := i.denominator * Nat.pow 10 exponent.toNat
  let below : Decimal := ⟨value / step, exponent⟩
  let above : Decimal := ⟨value / step + 1, exponent⟩
  match i.contains below, i.contains above with
  | true, true => some (if 2 * (value % step) < step then below else above)
  | true, false => some below
  | false, true => some above
  | false, false => none

/-- The value itself, whose denominator is a power of two. -/
def exact (i : RoundingInterval) : Decimal :=
  let places := i.denominator.log2
  ⟨i.value * Nat.pow 5 places, -places⟩

end RoundingInterval

/-- The shortest decimal of a nonzero finite code. One digit more than the format has bits of
precision is always enough, so the exact value at the end is never needed. -/
def Decimal.shortest (f : Format) (code : Nat) : Decimal :=
  let i := RoundingInterval.ofCode f code
  let lead := i.leadingExponent (f.scale + 1)
  let found := (List.range (f.fractionBits + 2)).findSome? fun (n : Nat) => i.nearest? (lead - n)
  (found.getD i.exact).stripped

end StandardLp
