import StandardLp.Proofs.Meaning.Activity

/-!
Solutions of an exported standard form. What the columns stand for at a solution satisfies all
rows of the plan, and every point that does so, with nonnegative numbers for the variables that
are not split, is what some solution stands for.
-/

namespace StandardLp.Reduction.Depicts

variable {f : Format} {p : LinearProgram f} {s : Reduction f}

variable (h : Depicts p (p.stageAt .slacksAdded) s)
include h

theorem numVariables_final :
    s.form.numVariables = p.numVariables + s.splits.size + p.plan.length :=
  h.numVariables

theorem costAt_form (y : ℕ → ℚ) : s.form.costAt y = p.costAt (chainValue s.splits y) :=
  (form_costAt y).trans (costAt_eq h y)

theorem solves_iff {y : ℕ → ℚ} : s.form.Solves y ↔
    (∀ c, c < s.form.numVariables → 0 ≤ y c) ∧ ∀ (i : ℕ) (r : RowOrigin), p.plan[i]? = some r →
      y (p.numVariables + s.splits.size + i) = p.gap r (chainValue s.splits y) := by
  have hrow : ∀ (i : ℕ) (r : RowOrigin), p.plan[i]? = some r →
      (s.program.activity i y = (p.rhsOf r).value ↔
        y (p.numVariables + s.splits.size + i) = p.gap r (chainValue s.splits y)) := by
    intro i r hr
    rw [activity_eq h (Nat.le_refl _) hr, if_pos (List.getElem?_eq_some_iff.mp hr).1]
    exact LinearProgram.activityOf_add_slack_iff
  rw [form_solves_iff h.sound]
  refine and_congr_right fun _ => ?_
  constructor
  · intro hrows i r hr
    exact (hrow i r hr).mp (hrows i _ (h.constraint_final hr))
  · intro hslack i c hc
    have hi : i < p.plan.length := h.numConstraints ▸ (Array.getElem?_eq_some_iff.mp hc).1
    have hr : p.plan[i]? = some p.plan[i] := List.getElem?_eq_getElem hi
    rw [h.constraint_final hr, Option.some.injEq] at hc
    rw [← hc]
    exact (hrow i _ hr).mpr (hslack i _ hr)

/-! ### Both directions -/

theorem rowHolds_of_solves {y : ℕ → ℚ} (hy : s.form.Solves y) :
    ∀ r ∈ p.plan, p.RowHolds r (chainValue s.splits y) := by
  obtain ⟨hnonneg, hslack⟩ := h.solves_iff.mp hy
  intro r hr
  obtain ⟨i, hi, rfl⟩ := List.mem_iff_getElem.mp hr
  rw [← LinearProgram.gap_nonneg_iff, ← hslack i _ (List.getElem?_eq_getElem hi)]
  apply hnonneg
  rw [h.numVariables_final]
  omega

theorem chainValue_nonneg {y : ℕ → ℚ} (hy : s.form.Solves y) {j : ℕ} (hj : j < p.numVariables)
    (hnone : s.splits.get? j = none) : 0 ≤ chainValue s.splits y j := by
  rw [chainValue_of_none hnone]
  apply hy.nonneg
  rw [h.numVariables_final]
  omega

/-- The columns of a point are lifted along the chains, and the slacks are set to the gaps. -/
theorem exists_solves {x : ℕ → ℚ} (hrows : ∀ r ∈ p.plan, p.RowHolds r x)
    (hx : ∀ j, j < p.numVariables → s.splits.get? j = none → 0 ≤ x j) :
    ∃ y, s.form.Solves y ∧ ∀ j, j < p.numVariables → chainValue s.splits y j = x j := by
  obtain ⟨z, hz, hzx⟩ := h.allotment.exists_lift hx
  let base := p.numVariables + s.splits.size
  -- the lift for all columns but the slacks, and the gaps for these
  let y : ℕ → ℚ := fun c => if c < base then z c else
    p.plan[c - base]?.elim 0 (p.gap · x)
  have hchain : ∀ j, j < p.numVariables → chainValue s.splits y j = x j := by
    intro j hj
    rw [← hzx j hj]
    refine h.allotment.chainValue_eq (fun c hc => ?_) (by omega)
    rw [← h.allotment.eq_chainValue_add z c]
    exact if_pos hc
  have hslack : ∀ (i : ℕ) (r : RowOrigin), p.plan[i]? = some r → y (base + i) = p.gap r x := by
    intro i r hr
    have hnot : ¬ base + i < base := Nat.not_lt_of_le (Nat.le_add_right _ _)
    show (if base + i < base then _ else _) = _
    rw [if_neg hnot, Nat.add_sub_cancel_left, hr, Option.elim_some]
  refine ⟨y, h.solves_iff.mpr ⟨fun c hc => ?_, fun i r hr => ?_⟩, hchain⟩
  · by_cases hcb : c < base
    · have hyc : y c = z c := if_pos hcb
      rw [hyc]
      exact hz c hcb
    · obtain ⟨i, rfl⟩ : ∃ i, c = base + i := ⟨c - base, by omega⟩
      rw [h.numVariables_final] at hc
      have hi : i < p.plan.length := Nat.lt_of_add_lt_add_left hc
      rw [hslack i _ (List.getElem?_eq_getElem hi), LinearProgram.gap_nonneg_iff]
      exact hrows _ (List.getElem_mem hi)
  · rw [hslack i r hr, LinearProgram.gap, LinearProgram.gap,
      LinearProgram.activityOf_congr hchain]

end StandardLp.Reduction.Depicts
