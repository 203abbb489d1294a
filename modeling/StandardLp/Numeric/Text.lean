import StandardLp.Numeric.Shortest

/-!
Text of floating-point values: the shortest decimal that reads back, written positionally when
its leading digit is near the point and with an exponent otherwise.
-/

namespace StandardLp

/-- Which leading exponents are written positionally: from `least` up to, and without, `limit`. -/
structure DecimalLayout where
  least : Int
  limit : Int
deriving Repr

namespace DecimalLayout

/-- Numbers from a ten-thousandth up to ten quadrillion are written positionally. -/
def numbers : DecimalLayout where
  least := -4
  limit := 16

end DecimalLayout

namespace Decimal

/-- Zeros fill the gap to the point, and there is a digit on either side of it. -/
def positional (d : Decimal) : String :=
  let digits := Nat.toDigits 10 d.digits
  let places := (-d.exponent).toNat
  let padded := List.replicate (places + 1 - digits.length) '0' ++ digits
    ++ List.replicate d.exponent.toNat '0'
  let whole := padded.length - places
  String.ofList (padded.take whole) ++ "."
    ++ (if places = 0 then "0" else String.ofList (padded.drop whole))

def lead (d : Decimal) : Int := d.exponent + (Nat.toDigits 10 d.digits).length - 1

/-- One digit before the point, and no point if no digit follows it. -/
def scientific (d : Decimal) : String :=
  let mantissa :=
    match Nat.toDigits 10 d.digits with
    | [] => ""
    | [digit] => String.ofList [digit]
    | digit :: rest => String.ofList (digit :: '.' :: rest)
  mantissa ++ "e" ++ toString d.lead

def text (layout : DecimalLayout) (d : Decimal) : String :=
  if layout.least ≤ d.lead ∧ d.lead < layout.limit then d.positional else d.scientific

end Decimal

namespace Binary

variable {f : Format}

/-- A NaN has no sign, all other values show theirs. -/
def text (x : Binary f) : String :=
  if x.isNaN then "NaN"
  else
    let magnitude :=
      if x.magnitude = 0 then "0.0"
      else if x.isFinite then (Decimal.shortest f x.magnitude).text .numbers
      else "inf"
    if x.negative then "-" ++ magnitude else magnitude

instance : ToString (Binary f) := ⟨text⟩

end Binary

end StandardLp
