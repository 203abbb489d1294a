import StandardLp.Numeric.Format

/-!
Floating-point values as a sign and the code of a magnitude. Comparison is that of arithmetic:
the two zeros are equal and a NaN is neither equal to nor comparable with anything, itself
included. Structural equality (`=`) tells all codes apart.
-/

namespace StandardLp

structure Binary (f : Format) where
  negative : Bool
  magnitude : Nat
  magnitude_lt : magnitude < f.codes
deriving DecidableEq

namespace Binary

variable {f : Format}

instance : Zero (Binary f) where
  zero := ⟨false, 0, Nat.two_pow_pos _⟩

instance : One (Binary f) where
  one := ⟨false, f.oneCode, Nat.lt_trans f.oneCode_lt_infinityCode f.infinityCode_lt_codes⟩

instance : Neg (Binary f) where
  neg x := { x with negative := !x.negative }

instance : Inhabited (Binary f) := ⟨0⟩

def infinity : Binary f := ⟨false, f.infinityCode, f.infinityCode_lt_codes⟩

/-- The NaN with the leading fraction bit set. -/
def nan : Binary f := ⟨false, f.infinityCode + f.binade / 2, f.infinityCode_add_lt_codes⟩

def isNaN (x : Binary f) : Bool := f.infinityCode < x.magnitude

def isFinite (x : Binary f) : Bool := x.magnitude < f.infinityCode

/-- Orders the values that are not NaN, with one place for both zeros. -/
def key (x : Binary f) : Int := if x.negative then -(x.magnitude : Int) else x.magnitude

instance : BEq (Binary f) where
  beq x y := !x.isNaN && !y.isNaN && x.key == y.key

instance : LE (Binary f) where
  le x y := x.isNaN = false ∧ y.isNaN = false ∧ x.key ≤ y.key

instance (x y : Binary f) : Decidable (x ≤ y) :=
  inferInstanceAs (Decidable (x.isNaN = false ∧ y.isNaN = false ∧ x.key ≤ y.key))

/-- The value whose sign and magnitude fields are the low bits of `bits`. -/
def ofBits (bits : Nat) : Binary f :=
  ⟨bits / f.codes % 2 == 1, bits % f.codes, Nat.mod_lt _ (Nat.two_pow_pos _)⟩

def toBits (x : Binary f) : Nat := (if x.negative then f.codes else 0) + x.magnitude

/-- A finite value is `units / 2 ^ scale`. -/
def units (x : Binary f) : Int :=
  if x.negative then -(f.units x.magnitude : Int) else f.units x.magnitude

/-- The value of a whole number. Up to `2 * f.binade` every whole number is a value, further out
they are refused. -/
def ofInt? (n : Int) : Option (Binary f) :=
  if h : n.natAbs ≤ 2 * f.binade ∧ f.codeOfNat n.natAbs < f.infinityCode then
    some ⟨decide (n < 0), f.codeOfNat n.natAbs, Nat.lt_trans h.2 f.infinityCode_lt_codes⟩
  else none

/-- The whole number that a value is, in the range of `ofInt?`. Negative zero is none. -/
def toInt? (x : Binary f) : Option Int :=
  if x.isFinite ∧ x ≠ -0 ∧ x.units.natAbs % Nat.pow 2 f.scale = 0
      ∧ x.units.natAbs / Nat.pow 2 f.scale ≤ 2 * f.binade then
    some (x.units.tdiv (Nat.pow 2 f.scale))
  else none

theorem neg_def (x : Binary f) : -x = { x with negative := !x.negative } := rfl

@[simp] theorem magnitude_zero : (0 : Binary f).magnitude = 0 := rfl

@[simp] theorem magnitude_neg (x : Binary f) : (-x).magnitude = x.magnitude := rfl

@[simp] theorem neg_neg (x : Binary f) : - -x = x := by
  simp [neg_def]

theorem ofBits_toBits (x : Binary f) : ofBits x.toBits = x := by
  obtain ⟨s, m, h⟩ := x
  have hpos : 0 < f.codes := Nat.two_pow_pos _
  cases s
  · simp [ofBits, toBits, Nat.div_eq_of_lt h, Nat.mod_eq_of_lt h]
  · simp [ofBits, toBits, Nat.add_div_left _ hpos, Nat.div_eq_of_lt h, Nat.mod_eq_of_lt h]

theorem beq_def (x y : Binary f) : (x == y) = (!x.isNaN && !y.isNaN && x.key == y.key) := rfl

/-- Exactly the two zeros compare equal to zero. -/
theorem beq_zero_iff (x : Binary f) : x == 0 ↔ x.magnitude = 0 := by
  have hkey : x.key = 0 ↔ x.magnitude = 0 := by
    unfold key
    split <;> omega
  have hzero : (0 : Binary f).key = 0 := rfl
  have hpos : (0 : Binary f).isNaN = false := by simp [isNaN]
  simp only [beq_def, hpos, hzero, Bool.not_false, Bool.and_true, Bool.and_eq_true,
    Bool.not_eq_true', beq_iff_eq, hkey, and_iff_right_iff_imp]
  intro h
  simp [isNaN, h]

end Binary

end StandardLp
