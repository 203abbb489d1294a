import StandardLp.Proofs.Meaning.Preservation
import StandardLp.Proofs.Reduction.Complete

/-!
How the program that a reduction leaves behind, at whatever phase, encodes the program at first.
Every almost feasible point of the one stands for an almost feasible point of the other, with the
same cost, and all of these are reached. Encodings compose, since a variable that has been filled
and its negative part have no bounds that a later reduction would split them for.
-/

namespace StandardLp

variable {f : Format}

namespace LinearProgram

variable {p q : LinearProgram f} {x y : ℕ → ℚ}

/-! ### Points of a program -/

theorem almostFeasible_congr (h : ∀ j, j < p.numVariables → x j = y j) :
    p.AlmostFeasible x ↔ p.AlmostFeasible y := by
  have hrows : p.SatisfiesRows x ↔ p.SatisfiesRows y := by
    refine forall₃_congr fun i c _ => ?_
    rw [show p.activity i x = p.activity i y from activityOf_congr (r := .given i) h]
  refine and_congr hrows (forall₃_congr fun j v hv => ?_)
  rw [h j (Array.getElem?_eq_some_iff.mp hv).1]

theorem respects_iff_of_nonnegative {v : Variable f} (hlower : v.lowerIsZero = true)
    (hupper : v.upper = .infinity) (t : ℚ) :
    (v.upper.AtMost t ∧ (v.losesLower = false → v.lower.AtLeast t)) ↔ 0 ≤ t := by
  have hinf : v.upperIsInfinite = true := (Binary.beq_infinity_iff _).mpr hupper
  have hkept : v.losesLower = false := by
    rw [Variable.losesLower, hinf, Bool.not_true, Bool.and_false]
  rw [and_iff_right (.inl hupper), forall_prop_of_true hkept]
  exact Binary.atLeast_zero_iff hlower t

theorem Admissible.rowHolds_of_almostFeasible (hp : p.Admissible) (hx : p.AlmostFeasible x) :
    ∀ r ∈ p.plan, p.RowHolds r x := by
  have hsplits := Reduction.isSome_get?_allot_empty p.numVariables p.boundedVars
  exact (hp.relaxed_iff.mp ((hp.relaxed_iff_almostFeasible hsplits).mpr hx)).1

/-! ### Encodings -/

/-- The number of variable `j` at `y`: its column, less that of its negative part if it has one. -/
def partValue (part : ℕ → Option ℕ) (y : ℕ → ℚ) (j : ℕ) : ℚ := y j - (part j).elim 0 y

/-- The points of `q` stand for those of `p`, where variable `j` has the negative part `part j`. -/
structure Encodes (p q : LinearProgram f) (part : ℕ → Option ℕ) : Prop where
  numVariables_le : p.numVariables ≤ q.numVariables
  split_bounded : ∀ j k, part j = some k → j ∈ p.boundedVars ∧ k < q.numVariables
  split_free : ∀ j k, part j = some k → j ∉ q.boundedVars ∧ k ∉ q.boundedVars
  boundedVars_subset : q.boundedVars ⊆ p.boundedVars
  almostFeasible_iff : ∀ x, p.AlmostFeasible x ↔
    ∃ y, q.AlmostFeasible y ∧ ∀ j, j < p.numVariables → partValue part y j = x j
  costAt_eq : ∀ y, q.costAt y = p.costAt (partValue part y)

namespace Encodes

variable {r : LinearProgram f} {a b : ℕ → Option ℕ}

/-- What is split later has bounds in between, so it is not among what is split first. -/
theorem partValue_or (h : Encodes p q a) (h' : Encodes q r b) (y : ℕ → ℚ) :
    partValue (fun j => (a j).or (b j)) y = partValue a (partValue b y) := by
  funext j
  have hnone : ∀ i, i ∉ q.boundedVars → b i = none := by
    intro i hi
    cases hb : b i with
    | none => rfl
    | some k => exact absurd (h'.split_bounded i k hb).1 hi
  cases ha : a j with
  | none => simp [partValue, ha]
  | some k =>
    obtain ⟨hj, hk⟩ := h.split_free j k ha
    simp [partValue, ha, hnone j hj, hnone k hk]

theorem partValue_congr (h : Encodes p q a) (hxy : ∀ j, j < q.numVariables → x j = y j) {j : ℕ}
    (hj : j < p.numVariables) : partValue a x j = partValue a y j := by
  have hself := hxy j (hj.trans_le h.numVariables_le)
  cases ha : a j with
  | none => simp [partValue, ha, hself]
  | some k => simp [partValue, ha, hself, hxy k (h.split_bounded j k ha).2]

theorem trans (h : Encodes p q a) (h' : Encodes q r b) :
    Encodes p r fun j => (a j).or (b j) where
  numVariables_le := h.numVariables_le.trans h'.numVariables_le
  split_bounded j k hjk := by
    obtain ha | ⟨-, hb⟩ := Option.or_eq_some_iff.mp hjk
    · obtain ⟨hj, hk⟩ := h.split_bounded j k ha
      exact ⟨hj, hk.trans_le h'.numVariables_le⟩
    · obtain ⟨hj, hk⟩ := h'.split_bounded j k hb
      exact ⟨h.boundedVars_subset hj, hk⟩
  split_free j k hjk := by
    obtain ha | ⟨-, hb⟩ := Option.or_eq_some_iff.mp hjk
    · obtain ⟨hj, hk⟩ := h.split_free j k ha
      exact ⟨fun hmem => hj (h'.boundedVars_subset hmem),
        fun hmem => hk (h'.boundedVars_subset hmem)⟩
    · exact h'.split_free j k hb
  boundedVars_subset := fun _ hj => h.boundedVars_subset (h'.boundedVars_subset hj)
  almostFeasible_iff x := by
    rw [h.almostFeasible_iff]
    constructor
    -- the points of `q` in between are what the points of `r` stand for
    · rintro ⟨y, hy, hyx⟩
      obtain ⟨z, hz, hzy⟩ := (h'.almostFeasible_iff y).mp hy
      refine ⟨z, hz, fun j hj => ?_⟩
      rw [h.partValue_or h', h.partValue_congr hzy hj, hyx j hj]
    · rintro ⟨z, hz, hzx⟩
      refine ⟨partValue b z, (h'.almostFeasible_iff _).mpr ⟨z, hz, fun _ _ => rfl⟩, ?_⟩
      intro j hj
      rw [← h.partValue_or h', hzx j hj]
  costAt_eq y := by rw [h'.costAt_eq, h.costAt_eq, h.partValue_or h']

end Encodes

end LinearProgram

namespace Reduction

variable {p : LinearProgram f} {s : Reduction f} {x y : ℕ → ℚ}

theorem Depicts.numVariables_le {g : Stage} (h : Depicts p g s) :
    p.numVariables ≤ s.program.numVariables := by
  rw [h.numVariables, Nat.add_assoc]
  exact Nat.le_add_right _ _

/-! ### Bounds that are left -/

/-- What is appended has no bounds to enforce, and freeing a variable leaves it none. -/
theorem Depicts.boundedVars_subset {g : Stage} (h : Depicts p g s) :
    s.program.boundedVars ⊆ p.boundedVars := by
  intro j hj
  obtain ⟨v, hv, hbounded⟩ := s.program.mem_boundedVars.mp hj
  obtain hsame | ⟨hlower, hupper⟩ := h.var_cases hv
  · exact p.mem_boundedVars.mpr ⟨v, hsame, hbounded⟩
  · have hfree := Variable.not_isBounded_iff.mpr
      ⟨Variable.lowerIsZero_of_eq_zero hlower, hupper⟩
    cases hfree.symm.trans hbounded

theorem Reduces.not_mem_boundedVars (h : Reduces p s) (hphase : .negativesFilled ≤ s.phase)
    (j : ℕ) : j ∉ s.program.boundedVars := by
  intro hj
  obtain ⟨v, hv, hbounded⟩ := s.program.mem_boundedVars.mp hj
  obtain ⟨u, hu, hlower, hupper⟩ :=
    h.nonnegative_of_filled hphase (Array.getElem?_eq_some_iff.mp hv).1
  obtain rfl : u = v := Option.some.inj (hu.symm.trans hv)
  cases (Variable.not_isBounded_iff.mpr ⟨hlower, hupper⟩).symm.trans hbounded

/-! ### Points before the negative parts are filled -/

theorem Depicts.satisfiesRows_start (h : Depicts p (p.stageAt .start) s) :
    s.program.SatisfiesRows y ↔ p.SatisfiesRows y := by
  have hrow : ∀ (i : ℕ) (c : Constraint f), p.constraints[i]? = some c →
      ((p.senseOf [] (.given i)).Holds (p.activityOf (.given i) y) (p.rhsOf (.given i)).value ↔
        c.sense.Holds (p.activity i y) c.rhs.value) := by
    intro i c hc
    simp [LinearProgram.senseOf, LinearProgram.rhsOf, hc, LinearProgram.activityOf_given]
  rw [satisfiesRows_iff h]
  constructor
  · intro hrows i c hc
    exact (hrow i c hc).mp (hrows _ (LinearProgram.mem_givenRows.mpr ⟨i, c, hc, rfl⟩))
  · intro hrows r hr
    obtain ⟨i, c, hc, rfl⟩ := LinearProgram.mem_givenRows.mp hr
    exact (hrow i c hc).mpr (hrows i c hc)

theorem Depicts.satisfiesRows_iff_rowHolds {rows : List RowOrigin} {filled : Bool}
    (h : Depicts p ⟨rows, p.equalities, fun _ => filled, 0⟩ s) :
    s.program.SatisfiesRows y ↔ ∀ r ∈ rows, p.RowHolds r (standsFor filled s.splits y) := by
  rw [h.satisfiesRows_iff]
  refine forall₂_congr fun r _ => ?_
  rw [p.senseOf_equalities, LinearProgram.RowHolds]

/-- The constraints are all there in some form, and whatever else is there is in the plan. -/
theorem Depicts.satisfiesRows_early {phase : Phase} (h : Depicts p (p.stageAt phase) s)
    (hphase : ¬ .negativesFilled ≤ phase) :
    (s.program.SatisfiesRows y → p.SatisfiesRows y) ∧
      ((∀ r ∈ p.plan, p.RowHolds r y) → s.program.SatisfiesRows y) := by
  cases phase with
  | start =>
    exact ⟨h.satisfiesRows_start.mp,
      fun hrows => h.satisfiesRows_start.mpr (LinearProgram.forall_rowHolds_iff.mp hrows).1⟩
  | equalitiesSplit =>
    refine ⟨fun hrows => ?_, fun hrows => ?_⟩
    · exact LinearProgram.forall_rowHolds_constraints_iff.mp
        ((satisfiesRows_iff_rowHolds h).mp hrows)
    · exact (satisfiesRows_iff_rowHolds h).mpr fun r hr => hrows r (List.mem_append_left _ hr)
  | boundsEnforced =>
    refine ⟨fun hrows => ?_, fun hrows => (satisfiesRows_iff_rowHolds h).mpr hrows⟩
    exact (LinearProgram.forall_rowHolds_iff.mp ((satisfiesRows_iff_rowHolds h).mp hrows)).1
  | negativesFilled => exact absurd (by decide) hphase
  | slacksAdded => exact absurd (by decide) hphase

/-- Until they are filled, the negative parts are variables of their own that nothing depends on. -/
theorem Depicts.almostFeasible_early {phase : Phase} (h : Depicts p (p.stageAt phase) s)
    (hphase : ¬ .negativesFilled ≤ phase) (hp : p.Admissible) :
    s.program.AlmostFeasible y ↔ p.AlmostFeasible y ∧
      ∀ j k, s.splits.get? j = some k → 0 ≤ y k := by
  obtain ⟨hconstraints, hplan⟩ := h.satisfiesRows_early hphase (y := y)
  obtain ⟨rows, relaxed, hstage⟩ := p.exists_stageAt_eq_early hphase
  have hearly : Depicts p (.early rows relaxed) s := hstage ▸ h
  have hrespects := LinearProgram.respects_iff_of_nonnegative (v := (.nonnegative : Variable f))
    (Variable.lowerIsZero_of_eq_zero rfl) rfl
  constructor
  · rintro ⟨hrows, hbounds⟩
    refine ⟨⟨hconstraints hrows, fun j v hv =>
      hbounds j v (hearly.vars_given_early hv)⟩, fun j k hk => ?_⟩
    exact (hrespects (y k)).mp (hbounds k _ (hearly.vars_negative_early hk))
  · rintro ⟨hy, hparts⟩
    refine ⟨hplan (hp.rowHolds_of_almostFeasible hy), fun k u hu => ?_⟩
    -- a column is a variable of `p`, which is as it was, or a blank negative part
    obtain hlt | ⟨j, hj⟩ := hearly.column_cases_early (Array.getElem?_eq_some_iff.mp hu).1
    · have hv : p.vars[k]? = some p.vars[k] := Array.getElem?_eq_getElem hlt
      rw [hearly.vars_given_early hv, Option.some.injEq] at hu
      exact hu ▸ hy.2 k _ hv
    · rw [hearly.vars_negative_early hj, Option.some.injEq] at hu
      exact hu ▸ (hrespects (y k)).mpr (hparts j k hj)

/-! ### Points once they are filled -/

theorem Reduces.almostFeasible_filled (h : Reduces p s) (hphase : .negativesFilled ≤ s.phase) :
    s.program.AlmostFeasible y ↔ s.program.SatisfiesRows y ∧
      ∀ k, k < s.program.numVariables → 0 ≤ y k := by
  refine and_congr_right fun _ => ?_
  constructor
  · intro hbounds k hk
    obtain ⟨v, hv, hlower, hupper⟩ := h.nonnegative_of_filled hphase hk
    exact (LinearProgram.respects_iff_of_nonnegative hlower hupper _).mp (hbounds k v hv)
  · intro hnonneg k u hu
    have hk := (Array.getElem?_eq_some_iff.mp hu).1
    obtain ⟨v, hv, hlower, hupper⟩ := h.nonnegative_of_filled hphase hk
    obtain rfl : v = u := Option.some.inj (hv.symm.trans hu)
    exact (LinearProgram.respects_iff_of_nonnegative hlower hupper _).mpr (hnonneg k hk)

theorem Reduces.almostFeasible_iff_solves (h : Reduces p s) (hphase : s.phase = .slacksAdded) :
    s.program.AlmostFeasible y ↔ s.form.Solves y := by
  have hs := h.depicts_of_phase hphase
  have hequal : ∀ (i : ℕ) (c : Constraint f), s.program.constraints[i]? = some c →
      c.sense = .equal := by
    intro i c hc
    have hi : i < p.plan.length := hs.numConstraints ▸ (Array.getElem?_eq_some_iff.mp hc).1
    rw [hs.constraint_final (List.getElem?_eq_getElem hi), Option.some.injEq] at hc
    rw [← hc]
  rw [h.almostFeasible_filled (by rw [hphase]; decide), form_solves_iff hs.sound, and_comm]
  refine and_congr_right fun _ => forall₃_congr fun i c hc => ?_
  rw [hequal i c hc]
  exact Iff.rfl

/-- Without slacks the columns are lifted along the chains and nothing else is asked of them. -/
theorem Reduces.exists_almostFeasible_negativesFilled (h : Reduces p s)
    (hphase : s.phase = .negativesFilled) :
    (∃ y, s.program.AlmostFeasible y ∧
        ∀ j, j < p.numVariables → chainValue s.splits y j = x j) ↔
      (∀ r ∈ p.plan, p.RowHolds r x) ∧
        ∀ j, j < p.numVariables → s.splits.get? j = none → 0 ≤ x j := by
  have hs := h.depicts_of_phase hphase
  have hcount : s.program.numVariables = p.numVariables + s.splits.size := hs.numVariables
  have hiff : ∀ y, s.program.AlmostFeasible y ↔
      (∀ r ∈ p.plan, p.RowHolds r (chainValue s.splits y)) ∧
        ∀ k, k < s.program.numVariables → 0 ≤ y k := by
    intro y
    rw [h.almostFeasible_filled (by rw [hphase]; decide), hs.satisfiesRows_iff_rowHolds]
    rfl
  constructor
  · rintro ⟨y, hy, hyx⟩
    obtain ⟨hrows, hnonneg⟩ := (hiff y).mp hy
    refine ⟨fun r hr => (LinearProgram.rowHolds_congr hyx).mp (hrows r hr), ?_⟩
    intro j hj hnone
    rw [← hyx j hj, chainValue_of_none hnone]
    exact hnonneg j (by omega)
  · rintro ⟨hrows, hx⟩
    obtain ⟨y, hy, hyx⟩ := hs.allotment.exists_lift hx
    refine ⟨y, (hiff y).mpr ⟨fun r hr => ?_, fun k hk => hy k (hcount ▸ hk)⟩, hyx⟩
    exact (LinearProgram.rowHolds_congr hyx).mpr (hrows r hr)

theorem Reduces.exists_almostFeasible_filled (h : Reduces p s)
    (hphase : .negativesFilled ≤ s.phase) :
    (∃ y, s.program.AlmostFeasible y ∧
        ∀ j, j < p.numVariables → chainValue s.splits y j = x j) ↔
      (∀ r ∈ p.plan, p.RowHolds r x) ∧
        ∀ j, j < p.numVariables → s.splits.get? j = none → 0 ≤ x j := by
  obtain hfilled | hfinal := Phase.negativesFilled_le_iff.mp hphase
  · exact h.exists_almostFeasible_negativesFilled hfilled
  · rw [← (h.depicts_of_phase hfinal).exists_solves_iff]
    exact exists_congr fun y => and_congr_left fun _ => h.almostFeasible_iff_solves hfinal

/-! ### A reduction without splits by hand -/

/-- The negative part of variable `j`, if it has been filled. -/
def filledPart (s : Reduction f) (j : ℕ) : Option ℕ :=
  if .negativesFilled ≤ s.phase then s.splits.get? j else none

theorem Reduces.encodes_early (h : Reduces p s) (hphase : ¬ .negativesFilled ≤ s.phase)
    (hp : p.Admissible) : p.Encodes s.program (filledPart s) := by
  have hpart : filledPart s = fun _ => none := funext fun j => if_neg hphase
  have hvalue : ∀ y, LinearProgram.partValue (filledPart s) y = y := by
    intro y
    funext j
    rw [LinearProgram.partValue, hpart, Option.elim_none, sub_zero]
  have hnone : ∀ {j k}, ¬ filledPart s j = some k := by
    intro j k hk
    rw [hpart] at hk
    cases hk
  exact {
    numVariables_le := h.depicts.numVariables_le
    split_bounded := fun j k hk => absurd hk hnone
    split_free := fun j k hk => absurd hk hnone
    boundedVars_subset := h.depicts.boundedVars_subset
    almostFeasible_iff := by
      intro x
      simp only [hvalue, h.depicts.almostFeasible_early hphase hp]
      constructor
      · intro hx
        -- the negative parts are set to zero
        let y : ℕ → ℚ := fun j => if j < p.numVariables then x j else 0
        have hyx : ∀ j, j < p.numVariables → y j = x j := fun j hj => if_pos hj
        refine ⟨y, ⟨(LinearProgram.almostFeasible_congr hyx).mpr hx, fun j k hk => ?_⟩, hyx⟩
        have hzero : y k = 0 := if_neg (Nat.not_lt_of_le (h.depicts.allotment.bounds hk).1)
        exact hzero.ge
      · rintro ⟨y, ⟨hy, -⟩, hyx⟩
        exact (LinearProgram.almostFeasible_congr hyx).mp hy
    costAt_eq := by
      intro y
      obtain ⟨rows, relaxed, hearly⟩ := h.exists_depicts_early hphase
      rw [hvalue]
      exact Depicts.costAt_eq hearly y }

theorem Reduces.encodes_filled (h : Reduces p s) (hphase : .negativesFilled ≤ s.phase)
    (hp : p.Admissible) (hsplits : ∀ j, (s.splits.get? j).isSome ↔ j ∈ p.boundedVars) :
    p.Encodes s.program (filledPart s) := by
  have hpart : filledPart s = s.splits.get? := funext fun j => if_pos hphase
  have hvalue : ∀ y, LinearProgram.partValue (filledPart s) y = chainValue s.splits y := by
    intro y
    funext j
    rw [h.depicts.allotment.chainValue_eq_sub fun j => (hsplits j).mp, LinearProgram.partValue,
      hpart]
  exact {
    numVariables_le := h.depicts.numVariables_le
    split_bounded := by
      intro j k hk
      rw [hpart] at hk
      exact ⟨(hsplits j).mp (by rw [hk]; rfl), h.depicts.lt_numVariables hk⟩
    split_free := fun j k _ => ⟨h.not_mem_boundedVars hphase j, h.not_mem_boundedVars hphase k⟩
    boundedVars_subset := h.depicts.boundedVars_subset
    almostFeasible_iff := by
      intro x
      simp only [hvalue]
      rw [h.exists_almostFeasible_filled hphase, ← hp.relaxed_iff,
        hp.relaxed_iff_almostFeasible hsplits]
    costAt_eq := by
      intro y
      obtain ⟨n, -, hfilled⟩ := h.exists_depicts_filled hphase
      rw [hvalue]
      exact hfilled.costAt_eq y }

/-- Whatever its phase, a reduction in which only variables with bounds are split leaves an encoding
of its program behind. -/
theorem Reduces.encodes (h : Reduces p s) (hp : p.Admissible)
    (hsplits : ∀ j, (s.splits.get? j).isSome ↔ .boundsEnforced ≤ s.phase ∧ j ∈ p.boundedVars) :
    p.Encodes s.program (filledPart s) := by
  by_cases hphase : .negativesFilled ≤ s.phase
  · have henforced : Phase.boundsEnforced ≤ s.phase := Nat.le_trans (by decide) hphase
    exact h.encodes_filled hphase hp fun j => (hsplits j).trans (and_iff_right henforced)
  · exact h.encodes_early hphase hp

end Reduction

end StandardLp
