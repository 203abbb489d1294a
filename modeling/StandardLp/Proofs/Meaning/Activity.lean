import StandardLp.Proofs.Meaning.Rows

/-!
Rows and costs of a reduced program at any stage, in terms of what its columns stand for. All
columns but the slacks amount to what the variables at first stand for.
-/

namespace StandardLp.Reduction.Depicts

variable {f : Format} {p : LinearProgram f} {s : Reduction f} {rows : List RowOrigin}
  {relaxed : List ℕ} {filled : Bool} {n : ℕ}

section Columns

variable (h : Depicts p ⟨rows, relaxed, fun _ => filled, n⟩ s)
include h

theorem value_entry_negative {j k : ℕ} (hk : s.splits.get? j = some k) (i : ℕ) :
    (s.program.matrix.entry i k).value =
      if filled then -(s.program.matrix.entry i j).value else 0 := by
  rw [SparseMatrix.entry_eq, SparseMatrix.entry_eq, h.stored_negative j k hk i]
  cases filled with
  | true => exact Binary.value_getD_map_neg _
  | false => exact Binary.value_zero

theorem value_costOf_negative {j k : ℕ} (hk : s.splits.get? j = some k) :
    (s.program.costOf k).value = if filled then -(s.program.costOf j).value else 0 := by
  have hj : j < s.program.vars.size := Nat.lt_trans (h.allotment.lt hk) (h.lt_numVariables hk)
  have hv := Array.getElem?_eq_getElem hj
  rw [LinearProgram.costOf, LinearProgram.costOf, h.var_negative j k _ hk hv, hv]
  cases filled with
  | true => exact Binary.value_neg _
  | false => exact Binary.value_zero

theorem costOf_given {j : ℕ} (hj : j < p.numVariables) : s.program.costOf j = p.costOf j := by
  have hv : p.vars[j]? = some p.vars[j] := Array.getElem?_eq_getElem hj
  rw [LinearProgram.costOf, h.var_given j _ hv, LinearProgram.costOf, hv, Option.elim_some,
    Option.elim_some]
  split
  · rfl
  · rfl

theorem costOf_slack {t : ℕ} (ht : t < n) :
    s.program.costOf (p.numVariables + s.splits.size + t) = 0 := by
  rw [LinearProgram.costOf, h.var_slack t ht]
  rfl

theorem costAt_eq (y : ℕ → ℚ) :
    s.program.costAt y = p.costAt (standsFor filled s.splits y) := by
  have hslacks : ∑ t ∈ Finset.range n,
      (s.program.costOf (p.numVariables + s.splits.size + t)).value *
        y (p.numVariables + s.splits.size + t) = 0 := by
    refine Finset.sum_eq_zero fun t ht => ?_
    rw [h.costOf_slack (Finset.mem_range.mp ht), Binary.value_zero, zero_mul]
  rw [LinearProgram.costAt, h.numVariables, Finset.sum_range_add, hslacks, add_zero,
    h.allotment.sum_eq_sum_standsFor fun j k hk => h.value_costOf_negative hk]
  refine Finset.sum_congr rfl fun j hj => ?_
  rw [h.costOf_given (Finset.mem_range.mp hj)]

end Columns

/-! ### Rows -/

/-- A row amounts to that of its origin, and to its slack if it has one. -/
theorem activity_eq (h : Depicts p ⟨rows, relaxed, fun _ => filled, n⟩ s) (hn : n ≤ rows.length)
    {i : ℕ} {r : RowOrigin} (hr : rows[i]? = some r) (y : ℕ → ℚ) :
    s.program.activity i y = p.activityOf r (standsFor filled s.splits y) +
      if i < n then ((p.sideOf r).slack : Binary f).value * y (p.numVariables + s.splits.size + i)
      else 0 := by
  -- of the slacks only that of the row itself has a coefficient in it
  have hslacks : ∀ t ∈ Finset.range n,
      (s.program.matrix.entry i (p.numVariables + s.splits.size + t)).value *
        y (p.numVariables + s.splits.size + t) =
      if i = t then ((p.sideOf r).slack : Binary f).value * y (p.numVariables + s.splits.size + t)
      else 0 := by
    intro t ht
    have hlt : t < n := Finset.mem_range.mp ht
    rw [SparseMatrix.entry_eq,
      h.stored_slack t _ hlt (List.getElem?_eq_getElem (Nat.lt_of_lt_of_le hlt hn)) i]
    by_cases hit : i = t
    · subst hit
      obtain ⟨-, rfl⟩ := List.getElem?_eq_some_iff.mp hr
      rw [if_pos rfl, if_pos rfl, Option.getD_some]
    · rw [if_neg hit, if_neg hit, Option.getD_none, Binary.value_zero, zero_mul]
  rw [LinearProgram.activity, h.numVariables, Finset.sum_range_add,
    Finset.sum_congr rfl hslacks, Finset.sum_ite_eq,
    h.allotment.sum_eq_sum_standsFor fun j k hk => h.value_entry_negative hk i]
  simp only [Finset.mem_range]
  congr 1
  refine Finset.sum_congr rfl fun j hj => ?_
  rw [SparseMatrix.entry_eq, h.stored_given i r hr j (Finset.mem_range.mp hj)]

theorem satisfiesRows_iff (h : Depicts p ⟨rows, relaxed, fun _ => filled, 0⟩ s) {y : ℕ → ℚ} :
    s.program.SatisfiesRows y ↔ ∀ r ∈ rows,
      (p.senseOf relaxed r).Holds (p.activityOf r (standsFor filled s.splits y))
        (p.rhsOf r).value := by
  have hrow : ∀ (i : ℕ) (r : RowOrigin), rows[i]? = some r →
      s.program.constraints[i]? = some ⟨p.senseOf relaxed r, p.rhsOf r⟩ ∧
        s.program.activity i y = p.activityOf r (standsFor filled s.splits y) := by
    intro i r hr
    have hconstraint := h.constraint i r hr
    rw [if_neg (Nat.not_lt_zero i)] at hconstraint
    refine ⟨hconstraint, ?_⟩
    rw [h.activity_eq (Nat.zero_le _) hr, if_neg (Nat.not_lt_zero i), add_zero]
  constructor
  · intro hrows r hmem
    obtain ⟨i, hi⟩ := List.mem_iff_getElem?.mp hmem
    obtain ⟨hconstraint, hactivity⟩ := hrow i r hi
    exact hactivity ▸ hrows i _ hconstraint
  · intro hrows i c hc
    have hi : i < rows.length := h.numConstraints ▸ (Array.getElem?_eq_some_iff.mp hc).1
    obtain ⟨hconstraint, hactivity⟩ := hrow i _ (List.getElem?_eq_getElem hi)
    rw [hc, Option.some.injEq] at hconstraint
    rw [hconstraint, hactivity]
    exact hrows _ (List.getElem_mem hi)

end StandardLp.Reduction.Depicts
