/-!
Binary floating-point formats. A format is given by the widths of its exponent and fraction
fields. A magnitude is coded by the exponent field followed by the fraction field, read as one
number, so that larger codes stand for larger magnitudes; the codes above that of infinity are
the NaNs.
-/

namespace StandardLp

/-- Widths of the exponent and fraction fields of a binary floating-point format. -/
structure Format where
  exponentBits : Nat
  fractionBits : Nat
  two_le_exponentBits : 2 ≤ exponentBits := by decide
  one_le_fractionBits : 1 ≤ fractionBits := by decide
deriving DecidableEq, Repr

namespace Format

def binary32 : Format where
  exponentBits := 8
  fractionBits := 23

def binary64 : Format where
  exponentBits := 11
  fractionBits := 52

/-- Exponent field of the values in `[1, 2)`. -/
def bias (f : Format) : Nat := Nat.pow 2 (f.exponentBits - 1) - 1

/-- Number of codes that share an exponent field. -/
def binade (f : Format) : Nat := Nat.pow 2 f.fractionBits

def codes (f : Format) : Nat := Nat.pow 2 (f.exponentBits + f.fractionBits)

def oneCode (f : Format) : Nat := f.bias * f.binade

/-- Code of an infinite magnitude: all ones in the exponent, zeros in the fraction. -/
def infinityCode (f : Format) : Nat := (Nat.pow 2 f.exponentBits - 1) * f.binade

/-- The least positive value is `2 ^ -scale`, and every finite value is a multiple of it. -/
def scale (f : Format) : Nat := f.bias + f.fractionBits - 1

/-- The magnitude of a finite code, counted in least positive values. -/
def units (f : Format) (code : Nat) : Nat :=
  if code < f.binade then code
  else (f.binade + code % f.binade) * Nat.pow 2 (code / f.binade - 1)

/-- Code of the largest magnitude that is not above the whole number `n`. -/
def codeOfNat (f : Format) (n : Nat) : Nat :=
  if n = 0 then 0
  else (f.bias + n.log2) * f.binade + (n * f.binade / Nat.pow 2 n.log2 - f.binade)

theorem binade_pos (f : Format) : 0 < f.binade := Nat.two_pow_pos _

theorem codes_eq (f : Format) : f.codes = Nat.pow 2 f.exponentBits * f.binade :=
  Nat.pow_add ..

theorem infinityCode_add_binade (f : Format) : f.infinityCode + f.binade = f.codes := by
  have hpos : 0 < Nat.pow 2 f.exponentBits := Nat.two_pow_pos _
  rw [codes_eq, infinityCode, Nat.sub_mul, Nat.one_mul]
  exact Nat.sub_add_cancel (Nat.le_mul_of_pos_left _ hpos)

theorem infinityCode_lt_codes (f : Format) : f.infinityCode < f.codes := by
  have h := f.infinityCode_add_binade
  have hpos := f.binade_pos
  omega

theorem infinityCode_add_lt_codes (f : Format) : f.infinityCode + f.binade / 2 < f.codes := by
  have h := f.infinityCode_add_binade
  have hpos := f.binade_pos
  omega

theorem oneCode_lt_infinityCode (f : Format) : f.oneCode < f.infinityCode := by
  refine Nat.mul_lt_mul_of_pos_right ?_ f.binade_pos
  obtain ⟨e, he⟩ : ∃ e, f.exponentBits = e + 2 := ⟨_, (Nat.sub_add_cancel f.two_le_exponentBits).symm⟩
  have hpos : 0 < Nat.pow 2 (e + 1) := Nat.two_pow_pos (e + 1)
  have hnext : Nat.pow 2 (e + 2) = Nat.pow 2 (e + 1) * 2 := rfl
  simp only [bias, he, Nat.reduceSubDiff]
  omega

@[simp] theorem units_zero (f : Format) : f.units 0 = 0 := by
  simp [units, f.binade_pos]

end Format

end StandardLp
