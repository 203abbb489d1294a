import StandardLp.Program.Sense

/-!
Comparisons with particular values. A value that is neither NaN nor a zero compares equal to
itself and to nothing else.
-/

namespace StandardLp

variable {f : Format}

theorem Format.infinityCode_pos (f : Format) : 0 < f.infinityCode :=
  Nat.lt_of_le_of_lt (Nat.zero_le _) f.oneCode_lt_infinityCode

theorem Format.bias_pos (f : Format) : 0 < f.bias := by
  obtain ⟨e, he⟩ : ∃ e, f.exponentBits = e + 2 :=
    ⟨_, (Nat.sub_add_cancel f.two_le_exponentBits).symm⟩
  have hpos : 0 < Nat.pow 2 e := Nat.two_pow_pos e
  have hnext : Nat.pow 2 (e + 1) = Nat.pow 2 e * 2 := rfl
  simp only [Format.bias, he, Nat.reduceSubDiff]
  omega

namespace Binary

theorem isNaN_infinity : (.infinity : Binary f).isNaN = false := decide_eq_false (Nat.lt_irrefl _)

theorem isNaN_one : (1 : Binary f).isNaN = false :=
  decide_eq_false (Nat.lt_asymm f.oneCode_lt_infinityCode)

theorem beq_self_iff {x : Binary f} : (x == x) = true ↔ x.isNaN = false := by
  simp [beq_def]

theorem beq_self {x : Binary f} (h : x.isNaN = false) : (x == x) = true := beq_self_iff.mpr h

/-- Apart from the zeros, values in the same place are the same. -/
theorem eq_of_key_eq {x y : Binary f} (h : x.key = y.key) (hy : y.magnitude ≠ 0) : x = y := by
  obtain ⟨s, m, hm⟩ := x
  obtain ⟨t, n, hn⟩ := y
  cases s <;> cases t <;> simp [key] at h hy ⊢ <;> omega

theorem beq_iff_eq_of_ne_zero {x y : Binary f} (hnan : y.isNaN = false)
    (hzero : y.magnitude ≠ 0) : (x == y) = true ↔ x = y := by
  constructor
  · intro h
    rw [beq_def, Bool.and_eq_true, beq_iff_eq] at h
    exact eq_of_key_eq h.2 hzero
  · rintro rfl
    exact beq_self hnan

theorem beq_infinity_iff (x : Binary f) : (x == .infinity) = true ↔ x = .infinity :=
  beq_iff_eq_of_ne_zero isNaN_infinity (Nat.ne_of_gt f.infinityCode_pos)

theorem beq_neg_infinity_iff (x : Binary f) : (x == -.infinity) = true ↔ x = -.infinity :=
  beq_iff_eq_of_ne_zero isNaN_infinity (Nat.ne_of_gt f.infinityCode_pos)

theorem neg_beq_zero (x : Binary f) : (-x == 0) = (x == 0) := by
  rw [Bool.eq_iff_iff, beq_zero_iff, beq_zero_iff, magnitude_neg]

theorem zero_beq_zero : ((0 : Binary f) == 0) = true := (beq_zero_iff 0).mpr rfl

theorem magnitude_one_ne_zero : (1 : Binary f).magnitude ≠ 0 :=
  Nat.ne_of_gt (Nat.mul_pos f.bias_pos f.binade_pos)

theorem one_beq_zero : ((1 : Binary f) == 0) = false :=
  Bool.eq_false_iff.mpr fun h => magnitude_one_ne_zero ((beq_zero_iff 1).mp h)

theorem beq_one_iff (x : Binary f) : (x == 1) = true ↔ x = 1 :=
  beq_iff_eq_of_ne_zero isNaN_one magnitude_one_ne_zero

theorem beq_neg_one_iff (x : Binary f) : (x == -1) = true ↔ x = -1 :=
  beq_iff_eq_of_ne_zero isNaN_one magnitude_one_ne_zero

theorem one_beq_self : ((1 : Binary f) == 1) = true := beq_self isNaN_one

theorem neg_one_beq_self : ((-1 : Binary f) == -1) = true := beq_self isNaN_one

end Binary

theorem Side.slack_beq_zero (side : Side) : ((side.slack : Binary f) == 0) = false := by
  cases side with
  | lower => exact (Binary.neg_beq_zero 1).trans Binary.one_beq_zero
  | upper => exact Binary.one_beq_zero

end StandardLp
