import StandardLp.Proofs.Meaning.Points
import StandardLp.Proofs.Reduction.Chain
import StandardLp.Proofs.Reduction.Reachable

/-!
What the rows of a reduced program say. A row of the plan bounds its activity on one side, and in
the standard form a slack closes the gap. So the points that satisfy all rows of the plan are
what the solutions of the standard form stand for.
-/

namespace StandardLp

variable {f : Format}

theorem Side.slack_mul_slack (side : Side) :
    (side.slack : Binary f).value * (side.slack : Binary f).value = 1 := by
  cases side with
  | lower => simp [Side.slack, Binary.value_neg, Binary.value_one]
  | upper => simp [Side.slack, Binary.value_one]

namespace LinearProgram

variable (p : LinearProgram f)

def activityOf (r : RowOrigin) (x : ℕ → ℚ) : ℚ :=
  ∑ j ∈ Finset.range p.numVariables, ((p.storedAt r j).getD 0).value * x j

def RowHolds (r : RowOrigin) (x : ℕ → ℚ) : Prop :=
  (p.sideOf r).sense.Holds (p.activityOf r x) (p.rhsOf r).value

/-- How far the activity of a row is from its right-hand side. -/
def gap (r : RowOrigin) (x : ℕ → ℚ) : ℚ :=
  ((p.sideOf r).slack : Binary f).value * ((p.rhsOf r).value - p.activityOf r x)

variable {p}

theorem activityOf_congr {r : RowOrigin} {x y : ℕ → ℚ} (h : ∀ j, j < p.numVariables → x j = y j) :
    p.activityOf r x = p.activityOf r y :=
  Finset.sum_congr rfl fun j hj => by rw [h j (Finset.mem_range.mp hj)]

theorem rowHolds_congr {r : RowOrigin} {x y : ℕ → ℚ} (h : ∀ j, j < p.numVariables → x j = y j) :
    p.RowHolds r x ↔ p.RowHolds r y := by
  rw [RowHolds, RowHolds, activityOf_congr h]

theorem activityOf_given (i : ℕ) (x : ℕ → ℚ) : p.activityOf (.given i) x = p.activity i x := rfl

theorem activityOf_copy (i : ℕ) (x : ℕ → ℚ) : p.activityOf (.copy i) x = p.activity i x := rfl

theorem activityOf_bound (side : Side) {j : ℕ} (hj : j < p.numVariables) (x : ℕ → ℚ) :
    p.activityOf (.bound side j) x = x j := by
  rw [activityOf, Finset.sum_eq_single_of_mem j (Finset.mem_range.mpr hj)]
  · simp [storedAt, Binary.value_one]
  · intro k _ hk
    simp [storedAt, hk]

theorem gap_nonneg_iff {r : RowOrigin} {x : ℕ → ℚ} : 0 ≤ p.gap r x ↔ p.RowHolds r x := by
  rw [gap, RowHolds]
  cases p.sideOf r with
  | lower => simp [Side.slack, Side.sense, Sense.Holds, Binary.value_neg, Binary.value_one]
  | upper => simp [Side.slack, Side.sense, Sense.Holds, Binary.value_one]

/-- A slack closes the gap of its row, and only the gap does. -/
theorem activityOf_add_slack_iff {r : RowOrigin} {x : ℕ → ℚ} {t : ℚ} :
    p.activityOf r x + ((p.sideOf r).slack : Binary f).value * t = (p.rhsOf r).value ↔
      t = p.gap r x := by
  have hsquare := Side.slack_mul_slack (f := f) (p.sideOf r)
  rw [gap]
  constructor
  · intro heq
    rw [← heq, add_sub_cancel_left, ← mul_assoc, hsquare, one_mul]
  · rintro rfl
    rw [← mul_assoc, hsquare, one_mul, add_sub_cancel]

/-! ### The rows of the plan together -/

/-- A row and, if it is an equality, its copy hold exactly if the constraint does. -/
theorem rowHolds_constraint_iff {i : ℕ} {c : Constraint f} (hc : p.constraints[i]? = some c)
    {x : ℕ → ℚ} : (p.RowHolds (.given i) x ∧ (c.sense = .equal → p.RowHolds (.copy i) x)) ↔
      c.sense.Holds (p.activity i x) c.rhs.value := by
  rw [RowHolds, RowHolds, activityOf_given, activityOf_copy]
  cases hsense : c.sense with
  | equal =>
    simp only [sideOf, rhsOf, hc, hsense, Side.sense, Sense.Holds, Option.any_some,
      Option.elim_some, beq_iff_eq, reduceCtorEq, if_false, forall_const]
    exact le_antisymm_iff.symm
  | greater => simp [sideOf, rhsOf, hc, hsense, Side.sense, Sense.Holds]
  | less => simp [sideOf, rhsOf, hc, hsense, Side.sense, Sense.Holds]

theorem rowHolds_bound_iff {side : Side} {j : ℕ} {v : Variable f} (hv : p.vars[j]? = some v)
    {x : ℕ → ℚ} : p.RowHolds (.bound side j) x ↔ side.sense.Holds (x j) (v.bound side).value := by
  rw [RowHolds, activityOf_bound side (Array.getElem?_eq_some_iff.mp hv).1]
  simp [sideOf, rhsOf, hv]

theorem forall_rowHolds_constraints_iff {x : ℕ → ℚ} :
    (∀ r ∈ p.givenRows ++ p.copyRows, p.RowHolds r x) ↔ p.SatisfiesRows x := by
  simp only [List.mem_append]
  constructor
  · intro h i c hc
    refine (rowHolds_constraint_iff hc).mp ⟨?_, fun hsense => ?_⟩
    · exact h _ (.inl (mem_givenRows.mpr ⟨i, c, hc, rfl⟩))
    · exact h _ (.inr (mem_copyRows.mpr ⟨i, c, hc, hsense, rfl⟩))
  · rintro h r (hr | hr)
    · obtain ⟨i, c, hc, rfl⟩ := mem_givenRows.mp hr
      exact ((rowHolds_constraint_iff hc).mpr (h i c hc)).1
    · obtain ⟨i, c, hc, hsense, rfl⟩ := mem_copyRows.mp hr
      exact ((rowHolds_constraint_iff hc).mpr (h i c hc)).2 hsense

theorem forall_rowHolds_iff {x : ℕ → ℚ} :
    (∀ r ∈ p.plan, p.RowHolds r x) ↔ p.SatisfiesRows x ∧
      ∀ (j : ℕ) (v : Variable f), p.vars[j]? = some v → ∀ side ∈ v.enforcedSides,
        side.sense.Holds (x j) (v.bound side).value := by
  rw [plan, List.forall_mem_append, forall_rowHolds_constraints_iff]
  refine and_congr_right fun _ => ?_
  constructor
  · intro h j v hv side hside
    exact (rowHolds_bound_iff hv).mp (h _ (mem_boundRows.mpr ⟨j, v, side, hv, hside, rfl⟩))
  · intro h r hr
    obtain ⟨j, v, side, hv, hside, rfl⟩ := mem_boundRows.mp hr
    exact (rowHolds_bound_iff hv).mpr (h j v hv side hside)

end LinearProgram

end StandardLp
