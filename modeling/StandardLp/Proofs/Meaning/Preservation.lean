import StandardLp.Proofs.Meaning.Projection

/-!
What a reduction without splits by hand does to the points of a program. No constraint, no upper
bound and no cost is lost, and no lower bound but one: a variable with a lower bound of zero and a
finite upper bound is split for the sake of its upper bound, and nothing keeps it from being
negative after that (`exists_solution_negative`).
-/

namespace StandardLp

variable {f : Format}

/-- The lower bound is zero, so it does not become a row, but the variable is split for its upper
bound. -/
def Variable.losesLower (v : Variable f) : Bool := v.lowerIsZero && !v.upperIsInfinite

namespace LinearProgram

/-- The point satisfies all constraints and respects all bounds, except for the lower bounds that
are lost. -/
def AlmostFeasible (p : LinearProgram f) (x : ℕ → ℚ) : Prop :=
  p.SatisfiesRows x ∧
    ∀ (j : ℕ) (v : Variable f), p.vars[j]? = some v →
      v.upper.AtMost (x j) ∧ (v.losesLower = false → v.lower.AtLeast (x j))

variable {p : LinearProgram f} {splits : IndexMap Nat} {x : ℕ → ℚ}

theorem feasible_iff : p.Feasible x ↔ p.AlmostFeasible x ∧
    ∀ (j : ℕ) (v : Variable f), p.vars[j]? = some v → v.losesLower = true → 0 ≤ x j := by
  constructor
  · rintro ⟨hrows, hbounds⟩
    refine ⟨⟨hrows, fun j v hv => ⟨(hbounds j v hv).2, fun _ => (hbounds j v hv).1⟩⟩, ?_⟩
    intro j v hv hloses
    exact (Binary.atLeast_zero_iff (Bool.and_eq_true_iff.mp hloses).1 _).mp (hbounds j v hv).1
  · rintro ⟨⟨hrows, hbounds⟩, hlost⟩
    refine ⟨hrows, fun j v hv => ⟨?_, (hbounds j v hv).1⟩⟩
    cases hloses : v.losesLower with
    | true =>
      exact (Binary.atLeast_zero_iff (Bool.and_eq_true_iff.mp hloses).1 _).mpr (hlost j v hv hloses)
    | false => exact (hbounds j v hv).2 hloses

theorem Admissible.relaxed_iff_almostFeasible (hp : p.Admissible)
    (hsplits : ∀ j, (splits.get? j).isSome ↔ j ∈ p.boundedVars) :
    p.Relaxed splits x ↔ p.AlmostFeasible x := by
  have hsplit : ∀ (j : ℕ) (v : Variable f), p.vars[j]? = some v →
      (splits.get? j = none ↔ v.lowerIsZero = true ∧ v.upperIsInfinite = true) := by
    intro j v hv
    rw [← Variable.isBounded_eq_false_iff, ← Option.not_isSome_iff_eq_none, hsplits,
      mem_boundedVars, hv, ← Bool.not_eq_true]
    simp
  constructor
  · rintro ⟨hrows, hlower, hupper, hnonneg⟩
    refine ⟨hrows, fun j v hv => ⟨?_, fun hloses => ?_⟩⟩
    · obtain hfinite | hinf := Variable.upper_cases (hp hv)
      · exact .inr ⟨hfinite, hupper j v hv hfinite⟩
      · exact .inl hinf
    · obtain hfinite | hinf := Variable.lower_cases (hp hv)
      -- a lower bound of zero that is kept is that of a variable that is not split
      · cases hzero : v.lowerIsZero with
        | false => exact .inr ⟨hfinite, hlower j v hv hfinite hzero⟩
        | true =>
          rw [Variable.losesLower, hzero, Bool.true_and, Bool.not_eq_false'] at hloses
          have hj := (Array.getElem?_eq_some_iff.mp hv).1
          exact (Binary.atLeast_zero_iff hzero _).mpr
            (hnonneg j hj ((hsplit j v hv).mpr ⟨hzero, hloses⟩))
      · exact .inl hinf
  · rintro ⟨hrows, hbounds⟩
    refine ⟨hrows, fun j v hv hfinite hzero => ?_, fun j v hv hfinite => ?_, fun j hj hnone => ?_⟩
    · obtain hinf | ⟨-, hle⟩ := (hbounds j v hv).2 (by rw [Variable.losesLower, hzero]; rfl)
      · rw [hinf, Binary.isFinite_neg, Binary.not_isFinite_infinity] at hfinite
        cases hfinite
      · exact hle
    · obtain hinf | ⟨-, hle⟩ := (hbounds j v hv).1
      · rw [hinf, Binary.not_isFinite_infinity] at hfinite
        cases hfinite
      · exact hle
    · have hv : p.vars[j]? = some p.vars[j] := Array.getElem?_eq_getElem hj
      obtain ⟨hzero, hinf⟩ := (hsplit j _ hv).mp hnone
      exact (Binary.atLeast_zero_iff hzero _).mp
        ((hbounds j _ hv).2 (by rw [Variable.losesLower, hinf, Bool.not_true, Bool.and_false]))

end LinearProgram

namespace Reduction

/-- The first `n` variables are read back from `y`: a split variable is its column less its
negative part, any other one is its column. -/
def ReadsBack (splits : IndexMap Nat) (n : ℕ) (y x : ℕ → ℚ) : Prop :=
  ∀ j, j < n → x j = y j - (splits.get? j).elim 0 y

variable {p : LinearProgram f} {x y : ℕ → ℚ}

/-- If only variables with bounds are split, the chains are as short as can be, since a negative
part has no bounds of its own. -/
theorem Allotment.chainValue_eq_sub {splits : IndexMap Nat} (h : Allotment splits p.numVariables)
    (hsplits : ∀ j, (splits.get? j).isSome → j ∈ p.boundedVars) (y : ℕ → ℚ) (j : ℕ) :
    chainValue splits y j = y j - (splits.get? j).elim 0 y := by
  cases hk : splits.get? j with
  | none => rw [chainValue_of_none hk, Option.elim_none, sub_zero]
  | some k =>
    have hlast : splits.get? k = none := by
      rw [← Option.not_isSome_iff_eq_none]
      intro hsome
      obtain ⟨v, hv, -⟩ := p.mem_boundedVars.mp (hsplits k hsome)
      exact absurd (Array.getElem?_eq_some_iff.mp hv).1 (Nat.not_lt_of_le (h.bounds hk).1)
    rw [h.chainValue_of_some hk, Option.elim_some, chainValue_of_none hlast]

theorem run_reduce_solutions (hp : p.Built) (hfinite : p.Finite) (check : Bool) :
    ∃ s F, (reduce check).run (start p) = .ok s.slackBasis s ∧ s.finished.1 = .ok F ∧
      F.Finite ∧
      (∀ x, (∃ y, F.Solves y ∧ ReadsBack s.splits p.numVariables y x) ↔ p.AlmostFeasible x) ∧
      ∀ x y, F.Solves y → ReadsBack s.splits p.numVariables y x → F.costAt y = p.costAt x := by
  obtain ⟨s, hrun, hphase, hreduces, hsplits⟩ := run_reduce_start hp.sound check
  have h := hreduces.depicts_of_phase hphase
  have hread : ∀ x y, ReadsBack s.splits p.numVariables y x ↔
      ∀ j, j < p.numVariables → chainValue s.splits y j = x j := by
    intro x y
    refine forall₂_congr fun j hj => ?_
    rw [h.allotment.chainValue_eq_sub fun j => (hsplits j).mp, eq_comm]
  have hfinished := form_finite h.sound (h.program_finite hfinite hp.admissible)
  refine ⟨s, s.form, hrun, ?_, hfinished, fun x => ?_, fun x y _ hyx => ?_⟩
  · rw [finished, run_finish hphase]
  · rw [← hp.admissible.relaxed_iff_almostFeasible hsplits, hp.admissible.relaxed_iff,
      ← h.exists_solves_iff]
    exact exists_congr fun y => and_congr_right fun _ => hread x y
  · rw [h.costAt_form]
    exact LinearProgram.costAt_congr ((hread x y).mp hyx)

/-- The reduction of a program keeps its points and their costs up to the lower bounds that are
lost. It keeps the feasible points as they are exactly if every lost lower bound follows from the
constraints and the other bounds. -/
theorem reduce_keeps_almostFeasible (hp : p.Built) (hfinite : p.Finite) (check : Bool) :
    ∃ s F, (reduce check).run (start p) = .ok s.slackBasis s ∧ s.finished.1 = .ok F ∧
      F.Finite ∧
      (∀ x, (∃ y, F.Solves y ∧ ReadsBack s.splits p.numVariables y x) ↔ p.AlmostFeasible x) ∧
      (∀ x y, F.Solves y → ReadsBack s.splits p.numVariables y x → F.costAt y = p.costAt x) ∧
      ((∀ x, p.Feasible x ↔ ∃ y, F.Solves y ∧ ReadsBack s.splits p.numVariables y x) ↔
        ∀ x, p.AlmostFeasible x → ∀ (j : ℕ) (v : Variable f), p.vars[j]? = some v →
          v.losesLower = true → 0 ≤ x j) := by
  obtain ⟨s, F, hrun, hfinish, hF, hsolves, hcost⟩ := run_reduce_solutions hp hfinite check
  refine ⟨s, F, hrun, hfinish, hF, hsolves, hcost, ?_⟩
  simp only [hsolves, LinearProgram.feasible_iff]
  exact forall_congr' fun x => and_iff_left_iff_imp

theorem reduce_keeps_almostFeasible_unit :
    let p : LinearProgram .binary64 := ⟨.zero 0 1, #[], #[⟨0, 1, 1⟩]⟩
    ∃ s F, (reduce true).run (start p) = .ok s.slackBasis s ∧ s.finished.1 = .ok F ∧
      F.Finite ∧
      (∀ x, (∃ y, F.Solves y ∧ ReadsBack s.splits p.numVariables y x) ↔ p.AlmostFeasible x) ∧
      (∀ x y, F.Solves y → ReadsBack s.splits p.numVariables y x → F.costAt y = p.costAt x) ∧
      ((∀ x, p.Feasible x ↔ ∃ y, F.Solves y ∧ ReadsBack s.splits p.numVariables y x) ↔
        ∀ x, p.AlmostFeasible x → ∀ (j : ℕ) (v : Variable .binary64), p.vars[j]? = some v →
          v.losesLower = true → 0 ≤ x j) := by
  intro p
  have hbuilt : LinearProgram.ofParts p.matrix #[] #[] #[(0, 1)] #[1] = .ok p := by
    decide +kernel
  have hp : p.Built := .ofParts (.zero 0 1) hbuilt
  have hfinite : p.Finite := ⟨by decide +kernel, by decide +kernel, by decide +kernel⟩
  exact reduce_keeps_almostFeasible hp hfinite true

/-- The lower bound of a variable between zero and one is lost: a solution stands for minus one. -/
theorem exists_solution_negative :
    let p : LinearProgram .binary64 := ⟨.zero 0 1, #[], #[⟨0, 1, 1⟩]⟩
    p.Built ∧ p.Finite ∧ ∃ s F, (reduce true).run (start p) = .ok s.slackBasis s ∧
      s.finished.1 = .ok F ∧ ∃ x y, F.Solves y ∧ ReadsBack s.splits p.numVariables y x ∧
        x 0 = -1 ∧ ¬ p.Feasible x := by
  intro p
  have hbuilt : LinearProgram.ofParts p.matrix #[] #[] #[(0, 1)] #[1] = .ok p := by
    decide +kernel
  have hp : p.Built := .ofParts (.zero 0 1) hbuilt
  have hfinite : p.Finite := ⟨by decide +kernel, by decide +kernel, by decide +kernel⟩
  have hvar : ∀ (j : ℕ) (v : Variable .binary64), p.vars[j]? = some v → v = ⟨0, 1, 1⟩ := by
    intro j v hv
    cases j with
    | zero => exact (Option.some.inj hv).symm
    | succ j => cases hv
  -- minus one is below the upper bound, and no row is there for the lower one
  have halmost : p.AlmostFeasible fun _ => -1 := by
    refine ⟨fun i c hc => (by cases hc), fun j v hv => ?_⟩
    rw [hvar j v hv]
    refine ⟨.inr ⟨Binary.isFinite_one, ?_⟩, fun hloses => ?_⟩
    · rw [Binary.value_one]
      norm_num
    · exact absurd hloses (by decide +kernel)
  obtain ⟨s, F, hrun, hfinish, -, hsolves, -⟩ := run_reduce_solutions hp hfinite true
  obtain ⟨y, hy, hyx⟩ := (hsolves _).mpr halmost
  refine ⟨hp, hfinite, s, F, hrun, hfinish, _, y, hy, hyx, rfl, fun hfeasible => ?_⟩
  have hlower := (hfeasible.2 0 ⟨0, 1, 1⟩ rfl).1
  rw [Binary.atLeast_zero_iff (by decide +kernel)] at hlower
  norm_num at hlower

end Reduction

end StandardLp
