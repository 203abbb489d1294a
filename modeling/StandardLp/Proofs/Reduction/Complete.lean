import StandardLp.Proofs.Reduction.Reachable

/-!
Complete reductions. Whatever was split by hand on the way, a reduction that has taken all four
steps leaves a program in standard form behind, and its slacks are a basis that passes the check.
No number is excluded: a bound that is NaN is neither zero nor infinite, so its variable is split
like any other that is bounded, and its bounds are reset.
-/

namespace StandardLp

variable {f : Format}

namespace LinearProgram

def IsUnitColumn (p : LinearProgram f) (i k : Nat) : Prop :=
  ∃ x : Binary f, (x = 1 ∨ x = -1) ∧ p.coefficients k = .ok ⟨[(i, x)]⟩

/-- The constraints read `A x = b`, the variables are bounded by `x ≥ 0` and nothing else, and
`basis` names a unit column for every row. The zero of a lower bound can have either sign. -/
structure IsStandard (p : LinearProgram f) (basis : Array Nat) : Prop where
  equality : ∀ i, i < p.numConstraints → ∃ c, p.constraintAt i = .ok c ∧ c.sense = .equal
  nonnegative : ∀ j, j < p.numVariables →
    ∃ v, p.variableAt j = .ok v ∧ v.lowerIsZero = true ∧ v.upper = .infinity
  size_basis : basis.size = p.numConstraints
  isUnitColumn : ∀ i k, basis[i]? = some k → p.IsUnitColumn i k
  checkBasis : p.checkBasis basis = .ok ()

end LinearProgram

namespace Variable

variable {v : Variable f}

theorem lowerIsZero_of_eq_zero (h : v.lower = 0) : v.lowerIsZero = true := by
  rw [lowerIsZero, h]
  exact Binary.zero_beq_zero

theorem not_isBounded_iff :
    v.isBounded = false ↔ v.lowerIsZero = true ∧ v.upper = .infinity := by
  rw [isBounded_eq_false_iff, upperIsInfinite, Binary.beq_infinity_iff]

end Variable

namespace Reduction

variable {p : LinearProgram f} {s : Reduction f} {i j : Nat}

theorem Depicts.columnAt_slack (h : Depicts p (p.stageAt .slacksAdded) s) {r : RowOrigin}
    (hr : p.plan[i]? = some r) :
    s.program.matrix.columnAt (p.numVariables + s.splits.size + i) = ⟨[(i, (p.sideOf r).slack)]⟩ := by
  have hi : i < p.plan.length := (List.getElem?_eq_some_iff.mp hr).1
  apply IndexMap.ext_get? (h.sound.matrix.sorted_column _) (List.pairwise_singleton _ _)
  intro t
  rw [h.sound.matrix.get?_columnAt, h.stored_slack i r hi hr t, IndexMap.get?_cons]
  rfl

theorem Depicts.isUnitColumn_slack (h : Depicts p (p.stageAt .slacksAdded) s) {r : RowOrigin}
    (hr : p.plan[i]? = some r) :
    s.program.IsUnitColumn i (p.numVariables + s.splits.size + i) := by
  have hi : i < p.plan.length := (List.getElem?_eq_some_iff.mp hr).1
  have hk : p.numVariables + s.splits.size + i < s.program.matrix.numColumns := by
    rw [h.sound.shaped.columns, h.numVariables]
    exact Nat.add_lt_add_left hi _
  refine ⟨(p.sideOf r).slack, ?_, ?_⟩
  · cases p.sideOf r with
    | lower => exact .inr rfl
    | upper => exact .inl rfl
  · rw [s.program.coefficients_eq hk, h.columnAt_slack hr]

theorem Reduces.nonnegative_of_filled (h : Reduces p s) (hphase : .negativesFilled ≤ s.phase)
    (hj : j < s.program.numVariables) :
    ∃ v, s.program.vars[j]? = some v ∧ v.lowerIsZero = true ∧ v.upper = .infinity := by
  obtain ⟨n, -, hs⟩ := h.exists_depicts_filled hphase
  have hv : s.program.vars[j]? = some s.program.vars[j] := Array.getElem?_eq_getElem hj
  refine ⟨_, hv, ?_⟩
  obtain hsame | ⟨hlower, hupper⟩ := hs.var_cases hv
  · rw [← Variable.not_isBounded_iff, ← Bool.not_eq_true]
    intro hbounded
    -- a variable with bounds has been split, so it is not as it was
    have hsplit := h.split_bounded (Nat.le_trans (by decide) hphase) j
      (p.mem_boundedVars.mpr ⟨_, hsame, hbounded⟩)
    have hfreed := hs.var_given j _ hsame
    rw [hsplit, hv, Option.some.injEq] at hfreed
    rw [hfreed] at hbounded
    cases Variable.isBounded_nonnegative.symm.trans hbounded
  · exact ⟨Variable.lowerIsZero_of_eq_zero hlower, hupper⟩

theorem Reduces.isStandard (h : Reduces p s) (hphase : s.phase = .slacksAdded) :
    s.program.IsStandard s.slackBasis where
  equality := by
    intro i hi
    have hs := h.depicts_of_phase hphase
    have hr : p.plan[i]? = some _ := List.getElem?_eq_getElem (hs.numConstraints ▸ hi)
    exact ⟨_, s.program.constraintAt_eq (hs.constraint_final hr), rfl⟩
  nonnegative := by
    intro j hj
    obtain ⟨v, hv, hbounds⟩ := h.nonnegative_of_filled (by rw [hphase]; decide) hj
    exact ⟨v, s.program.variableAt_eq hv, hbounds⟩
  size_basis := by
    have hs := h.depicts_of_phase hphase
    exact hs.size_slackBasis.trans hs.numConstraints.symm
  isUnitColumn := by
    intro i k hk
    have hs := h.depicts_of_phase hphase
    obtain ⟨hi, rfl⟩ := hs.getElem?_slackBasis.mp hk
    have hr : p.plan[i]? = some _ := List.getElem?_eq_getElem hi
    exact hs.isUnitColumn_slack hr
  checkBasis := (h.depicts_of_phase hphase).checkBasis_eq

/-- Every reduction that is complete has led to standard form, and taking all steps at once with
the check always succeeds. -/
theorem run_isStandard (hp : p.Reachable) :
    (∀ calls, ((start p).run calls).phase = .slacksAdded →
      ((start p).run calls).program.IsStandard ((start p).run calls).slackBasis) ∧
    ∃ s, (reduce true).run (start p) = .ok s.slackBasis s ∧ s.phase = .slacksAdded ∧
      s.program.IsStandard s.slackBasis := by
  constructor
  · intro calls hphase
    exact ((reduces_start hp.sound).run calls).isStandard hphase
  · obtain ⟨s, hrun, hphase, -⟩ := run_reduce (depicts_start hp.sound) rfl true
    have hs : Reduces p s := by
      have hkept := Keeps.reduce (p := p) true (start p) (reduces_start hp.sound)
      rwa [hrun] at hkept
    exact ⟨s, hrun, hphase, hs.isStandard hphase⟩

/-- An equality with an infinite coefficient in a variable whose bounds are NaN. It is split by
hand at first, and its negative part once the bounds are enforced. -/
theorem run_isStandard_nan :
    let p : LinearProgram .binary64 :=
      ((((LinearProgram.zero 1 1).edited (.setSense 0 .equal)).edited
        (.setCoefficient 0 0 .infinity)).edited (.setLower 0 .nan)).edited (.setUpper 0 .nan)
    let s := (start p).run
      [.split 0, .splitEqualities, .enforceBounds, .split 1, .fillNegatives, .addSlacks]
    s.phase = .slacksAdded ∧ s.slackBasis = #[3, 4, 5, 6] ∧ s.program.IsStandard s.slackBasis := by
  intro p s
  have hp : p.Reachable := .edited (.edited (.edited (.edited (.zero 1 1) _) _) _) _
  have hphase : s.phase = .slacksAdded := by decide +kernel
  exact ⟨hphase, by decide +kernel, (run_isStandard hp).1 _ hphase⟩

end Reduction

end StandardLp
