import Mathlib.Algebra.Order.Field.Rat
import Mathlib.Tactic.Positivity
import StandardLp.Proofs.Numeric.Comparison

/-!
The rational number that a finite floating-point value denotes, and what it means for a number
to respect a value as a bound.
-/

namespace StandardLp.Binary

variable {f : Format}

def value (x : Binary f) : ℚ := x.units / 2 ^ f.scale

theorem value_neg (x : Binary f) : (-x).value = -x.value := by
  have hunits : (-x).units = -x.units := by
    rw [neg_def, units, units]
    cases x.negative <;> simp
  rw [value, value, hunits, Int.cast_neg, neg_div]

@[simp] theorem value_zero : (0 : Binary f).value = 0 := by
  have hunits : (0 : Binary f).units = 0 := by
    show ((f.units 0 : ℕ) : ℤ) = 0
    simp
  simp [value, hunits]

theorem value_getD_map_neg (o : Option (Binary f)) :
    ((o.map (- ·)).getD 0).value = -(o.getD 0).value := by
  cases o with
  | none => simp
  | some x => exact value_neg x

theorem value_one : (1 : Binary f).value = 1 := by
  have hbias : 1 ≤ f.bias := f.bias_pos
  have hbinade : f.binade = 2 ^ f.fractionBits := rfl
  have hscale : f.scale = f.fractionBits + (f.bias - 1) := by
    unfold Format.scale
    omega
  have hunits : f.units f.oneCode = 2 ^ f.scale := by
    have hle : ¬ f.bias * f.binade < f.binade :=
      Nat.not_lt_of_le (Nat.le_mul_of_pos_left _ hbias)
    rw [Format.units, Format.oneCode, if_neg hle, Nat.mul_mod_left,
      Nat.mul_div_cancel _ f.binade_pos, hscale, pow_add, Nat.add_zero, hbinade]
    rfl
  have hone : (1 : Binary f).units = ((2 ^ f.scale : ℕ) : ℤ) := by
    rw [← hunits]
    rfl
  rw [value, hone]
  push_cast
  exact div_self (by positivity)

theorem value_eq_zero {x : Binary f} (h : (x == 0) = true) : x.value = 0 := by
  have hmagnitude := (beq_zero_iff x).mp h
  rw [value, units, hmagnitude]
  simp

@[simp] theorem isFinite_neg (x : Binary f) : (-x).isFinite = x.isFinite := rfl

theorem isFinite_zero : (0 : Binary f).isFinite = true :=
  decide_eq_true (Nat.lt_of_le_of_lt (Nat.zero_le _) f.oneCode_lt_infinityCode)

theorem isFinite_one : (1 : Binary f).isFinite = true :=
  decide_eq_true f.oneCode_lt_infinityCode

/-! ### Bounds -/

/-- The number `x` respects the lower bound `b`. -/
def AtLeast (b : Binary f) (x : ℚ) : Prop := b = -.infinity ∨ b.isFinite ∧ b.value ≤ x

/-- The number `x` respects the upper bound `b`. -/
def AtMost (b : Binary f) (x : ℚ) : Prop := b = .infinity ∨ b.isFinite ∧ x ≤ b.value

theorem isFinite_or_infinite {x : Binary f} (h : x.isNaN = false) :
    x.isFinite = true ∨ x = .infinity ∨ x = -.infinity := by
  by_cases hlt : x.magnitude < f.infinityCode
  · exact .inl (decide_eq_true hlt)
  · have hle : ¬ f.infinityCode < x.magnitude := of_decide_eq_false h
    have heq : x.magnitude = f.infinityCode := by omega
    obtain ⟨s, m, hm⟩ := x
    cases s with
    | false => exact .inr (.inl (by simpa [infinity] using heq))
    | true => exact .inr (.inr (by simpa [infinity, neg_def] using heq))

theorem not_isFinite_infinity : (.infinity : Binary f).isFinite = false :=
  decide_eq_false (Nat.lt_irrefl _)

theorem atLeast_zero_iff {b : Binary f} (h : (b == 0) = true) (t : ℚ) : b.AtLeast t ↔ 0 ≤ t := by
  have hmagnitude := (beq_zero_iff b).mp h
  have hfinite : b.isFinite = true := decide_eq_true (hmagnitude ▸ f.infinityCode_pos)
  rw [AtLeast, value_eq_zero h]
  constructor
  · rintro (hinf | ⟨-, hle⟩)
    · rw [hinf] at hmagnitude
      exact absurd hmagnitude (Nat.ne_of_gt f.infinityCode_pos)
    · exact hle
  · exact fun hle => .inr ⟨hfinite, hle⟩

end StandardLp.Binary
