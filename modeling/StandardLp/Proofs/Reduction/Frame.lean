import StandardLp.Proofs.Reduction.Columns
import StandardLp.Proofs.Reduction.Renaming

/-!
What a reduction leaves alone. It appends rows and columns, and those that are there keep their
indices and their contents, with three exceptions: blank negative parts are filled, variables with
negative parts lose their bounds, and rows lose their senses. Each exception is tied to the step
that is for it.
-/

namespace StandardLp

variable {f : Format}

theorem LinearProgram.senseOf_equalities_cases (p : LinearProgram f) (r : RowOrigin) :
    p.senseOf p.equalities r = p.senseOf [] r ∨ p.senseOf [] r = .equal := by
  cases r with
  | copy i => exact .inl rfl
  | bound side j => exact .inl rfl
  | given i =>
    by_cases hi : i ∈ p.equalities
    · obtain ⟨c, hc, hsense⟩ := p.mem_equalities.mp hi
      exact .inr (by simp [senseOf, hc, hsense])
    · exact .inl (by simp [senseOf, hi])

namespace Reduction

variable {p : LinearProgram f} {s t : Reduction f} {c : Call} {i j k : Nat} {phase : Phase}

/-- The phases that a call can complete. -/
def Call.Completes : Call → Phase → Prop
  | .splitEqualities, phase => phase = .equalitiesSplit
  | .enforceBounds, phase => phase = .boundsEnforced
  | .fillNegatives, phase => phase = .negativesFilled
  | .addSlacks, phase => phase = .slacksAdded
  | .reduce _, phase => phase ≠ .start
  | .split _, _ => False

structure Passes (s t : Reduction f) (phase : Phase) : Prop where
  before : ¬ phase ≤ s.phase
  after : phase ≤ t.phase

/-- Between the moments `s` and `t` column `k`, which is a negative part, is filled. It was blank
and is the opposite of its variable then. -/
structure Fills (s t : Reduction f) (k : Nat) : Prop where
  passes : Passes s t .negativesFilled
  coefficients : s.program.coefficients k = .ok .empty
  variableAt : s.program.variableAt k = .ok .nonnegative
  opposite : ∃ j, s.splits.get? j = some k ∧ t.program.Opposite j k

/-- What the moment `t` shows of the rows and columns that there are at `s`. -/
structure Extends (p : LinearProgram f) (s t : Reduction f) : Prop where
  phase : s.phase ≤ t.phase
  numConstraints : s.program.numConstraints ≤ t.program.numConstraints
  numVariables : s.program.numVariables ≤ t.program.numVariables
  stored : ∀ i k, i < s.program.numConstraints → k < s.program.numVariables →
    t.program.matrix.stored i k = s.program.matrix.stored i k ∨ Fills s t k
  constraintAt : ∀ i, i < s.program.numConstraints →
    ∃ c d, s.program.constraintAt i = .ok c ∧ t.program.constraintAt i = .ok d ∧ d.rhs = c.rhs ∧
      (d.sense = c.sense ∨ Passes s t .slacksAdded ∨
        c.sense = .equal ∧ Passes s t .equalitiesSplit)
  variableAt : ∀ k, k < s.program.numVariables →
    ∃ v w, s.program.variableAt k = .ok v ∧ t.program.variableAt k = .ok w ∧
      (w.cost = v.cost ∨ Fills s t k) ∧
      (w.lower = v.lower ∧ w.upper = v.upper ∨
        k < p.numVariables ∧ (t.splits.get? k).isSome ∧ Passes s t .negativesFilled)

/-- The program at first stands in front of what was appended to it. -/
structure RetainsGiven (p : LinearProgram f) (s : Reduction f) : Prop where
  coefficient : ∀ i j, i < p.numConstraints → j < p.numVariables →
    ∃ x, p.coefficient i j = .ok x ∧ s.program.coefficient i j = .ok x
  constraintAt : ∀ i, i < p.numConstraints →
    ∃ c d, p.constraintAt i = .ok c ∧ s.program.constraintAt i = .ok d ∧ d.rhs = c.rhs ∧
      (c.sense ≠ .equal → d.sense = c.sense ∨ s.phase = .slacksAdded)
  variableAt : ∀ j, j < p.numVariables →
    ∃ v w, p.variableAt j = .ok v ∧ s.program.variableAt j = .ok w ∧ w.cost = v.cost ∧
      (w.lower = v.lower ∧ w.upper = v.upper ∨
        (s.splits.get? j).isSome ∧ .negativesFilled ≤ s.phase)
  rhs : p.constraints.toList.map (·.rhs) <+: s.form.rhs.toList
  cost : p.vars.toList.map (·.cost) <+: s.form.cost.toList

/-- What holds of the moment `s` and of whatever is called after it. -/
structure AppendsOnly (p : LinearProgram f) (s : Reduction f) : Prop where
  given : RetainsGiven p s
  later : ∀ more, Extends p s (s.run more)
  passes : ∀ c phase, Passes s (s.call c).2 phase → c.Completes phase
  reduce : ∀ check, s.phase = .start → ∃ log, (s.call (.reduce check)).2 =
    { s.run [.splitEqualities, .enforceBounds, .fillNegatives, .addSlacks] with log := log }

/-! ### From one moment to a later one -/

theorem Depicts.exists_row {g : Stage} (hs : Depicts p g s) (hi : i < s.program.numConstraints) :
    ∃ r, g.rows[i]? = some r :=
  ⟨_, List.getElem?_eq_getElem (hs.numConstraints ▸ hi)⟩

theorem Depicts.corresponds_self {g : Stage} (hs : Depicts p g s) (hsplits : t.splits = s.splits)
    (hbasis : s.slackBasis.toList <+: t.slackBasis.toList) (hk : k < s.program.numVariables) :
    Corresponds p s t k k := by
  induction k using Nat.strongRecOn with
  | ind k ih =>
    obtain hgiven | ⟨j, hj⟩ | ⟨i, hi, rfl⟩ := hs.column_cases hk
    · exact .given hgiven
    · have hjk := hs.allotment.lt hj
      exact .negative (ih j hjk (Nat.lt_trans hjk hk)) hj (hsplits ▸ hj)
    · have hslack := hs.getElem?_slackBasis.mpr ⟨hi, rfl⟩
      refine .slack hslack ?_
      rw [← Array.getElem?_toList] at hslack ⊢
      obtain ⟨rest, hrest⟩ := hbasis
      rw [← hrest, List.getElem?_append_left (List.getElem?_eq_some_iff.mp hslack).1, hslack]

namespace Precedes

theorem slacks_cases (h : Precedes s t) (p : LinearProgram f) :
    (p.stageAt t.phase).slacks = (p.stageAt s.phase).slacks ∨ Passes s t .slacksAdded := by
  by_cases hlast : .slacksAdded ≤ s.phase
  · left
    rw [Phase.slacksAdded_le_iff.mp hlast,
      Phase.slacksAdded_le_iff.mp (Nat.le_trans hlast h.phase)]
  · by_cases hlater : .slacksAdded ≤ t.phase
    · exact .inr ⟨hlast, hlater⟩
    · left
      rw [p.slacks_stageAt_of_ne (mt Phase.slacksAdded_le_iff.mpr hlast),
        p.slacks_stageAt_of_ne (mt Phase.slacksAdded_le_iff.mpr hlater)]

theorem relaxed_cases (h : Precedes s t) (p : LinearProgram f) :
    (p.stageAt t.phase).relaxed = (p.stageAt s.phase).relaxed ∨
      (p.stageAt s.phase).relaxed = [] ∧ (p.stageAt t.phase).relaxed = p.equalities ∧
        Passes s t .equalitiesSplit := by
  rw [p.relaxed_stageAt, p.relaxed_stageAt]
  by_cases hsplit : .equalitiesSplit ≤ s.phase
  · have hsplit' : .equalitiesSplit ≤ t.phase := Nat.le_trans hsplit h.phase
    rw [if_pos hsplit, if_pos hsplit']
    exact .inl rfl
  · by_cases hlater : .equalitiesSplit ≤ t.phase
    · rw [if_neg hsplit, if_pos hlater]
      exact .inr ⟨rfl, rfl, hsplit, hlater⟩
    · rw [if_neg hsplit, if_neg hlater]
      exact .inl rfl

end Precedes

namespace Reduces

section Moments

variable (hs : Reduces p s) (ht : Reduces p t) (h : Precedes s t)
include hs ht h

theorem column_eq_of_filled (hfilled : .negativesFilled ≤ s.phase)
    (hk : k < s.program.numVariables) :
    (∀ i, t.program.matrix.stored i k = s.program.matrix.stored i k) ∧
      t.program.vars[k]? = s.program.vars[k]? := by
  have hsplits := h.splits_filled hfilled
  have hself := hs.depicts.corresponds_self hsplits (hs.slackBasis_prefix ht h) hk
  obtain ⟨n, hn, hdepicts⟩ := hs.exists_depicts_filled hfilled
  obtain ⟨m, -, hdepicts'⟩ := ht.exists_depicts_filled (Nat.le_trans hfilled h.phase)
  constructor
  · intro i
    exact (hself.stored_eq hdepicts hdepicts' hn i).symm
  · exact (hself.vars_eq hdepicts hdepicts' fun j _ => by rw [hsplits]).symm

theorem fills (hpasses : Passes s t .negativesFilled) (hj : s.splits.get? j = some k) :
    Fills s t k := by
  obtain ⟨rows, relaxed, hearly⟩ := hs.exists_depicts_early hpasses.before
  have hempty : s.program.matrix.columnAt k = .empty := by
    apply IndexMap.ext_get? (hearly.sound.matrix.sorted_column k) List.Pairwise.nil
    intro i
    rw [hearly.sound.matrix.get?_columnAt, hearly.stored_early (hearly.allotment.bounds hj).1]
    rfl
  have hk := hearly.lt_numVariables hj
  exact {
    passes := hpasses
    coefficients :=
      hempty ▸ s.program.coefficients_eq (hearly.sound.shaped.columns.symm ▸ hk)
    variableAt := s.program.variableAt_eq (hearly.vars_negative_early hj)
    opposite := ⟨j, hj, ht.opposite hpasses.after (h.splits j k hj)⟩ }

theorem stored_cases (hi : i < s.program.numConstraints) (hk : k < s.program.numVariables) :
    t.program.matrix.stored i k = s.program.matrix.stored i k ∨ Fills s t k := by
  by_cases hfilled : .negativesFilled ≤ s.phase
  · exact .inl ((hs.column_eq_of_filled ht h hfilled hk).1 i)
  · obtain ⟨rows, relaxed, hearly⟩ := hs.exists_depicts_early hfilled
    obtain hgiven | ⟨j, hj⟩ := hearly.column_cases_early hk
    · obtain ⟨r, hr⟩ := hs.depicts.exists_row hi
      left
      rw [hs.depicts.stored_given i r hr k hgiven,
        ht.depicts.stored_given i r (p.getElem?_rows_stageAt h.phase hr) k hgiven]
    · by_cases hlater : .negativesFilled ≤ t.phase
      · exact .inr (hs.fills ht h ⟨hfilled, hlater⟩ hj)
      · obtain ⟨rows', relaxed', hearly'⟩ := ht.exists_depicts_early hlater
        have hle := (hearly.allotment.bounds hj).1
        exact .inl ((hearly'.stored_early hle i).trans (hearly.stored_early hle i).symm)

theorem constraintAt_cases (hi : i < s.program.numConstraints) :
    ∃ c d, s.program.constraintAt i = .ok c ∧ t.program.constraintAt i = .ok d ∧ d.rhs = c.rhs ∧
      (d.sense = c.sense ∨ Passes s t .slacksAdded ∨
        c.sense = .equal ∧ Passes s t .equalitiesSplit) := by
  obtain ⟨r, hr⟩ := hs.depicts.exists_row hi
  have hc := hs.depicts.constraint i r hr
  have hd := ht.depicts.constraint i r (p.getElem?_rows_stageAt h.phase hr)
  refine ⟨_, _, s.program.constraintAt_eq hc, t.program.constraintAt_eq hd, rfl, ?_⟩
  dsimp only
  obtain hslacks | hpasses := h.slacks_cases p
  · obtain hrelaxed | ⟨hnone, hall, hpasses⟩ := h.relaxed_cases p
    · left
      rw [hslacks, hrelaxed]
    · rw [hslacks, hnone, hall]
      by_cases hslack : i < (p.stageAt s.phase).slacks
      · rw [if_pos hslack, if_pos hslack]
        exact .inl rfl
      · rw [if_neg hslack, if_neg hslack]
        obtain hsame | hequal := p.senseOf_equalities_cases r
        · exact .inl hsame
        · exact .inr (.inr ⟨hequal, hpasses⟩)
  · exact .inr (.inl hpasses)

theorem variableAt_cases (hk : k < s.program.numVariables) :
    ∃ v w, s.program.variableAt k = .ok v ∧ t.program.variableAt k = .ok w ∧
      (w.cost = v.cost ∨ Fills s t k) ∧
      (w.lower = v.lower ∧ w.upper = v.upper ∨
        k < p.numVariables ∧ (t.splits.get? k).isSome ∧ Passes s t .negativesFilled) := by
  by_cases hfilled : .negativesFilled ≤ s.phase
  · have hv : s.program.vars[k]? = some _ := Array.getElem?_eq_getElem hk
    have hw := (hs.column_eq_of_filled ht h hfilled hk).2.trans hv
    exact ⟨_, _, s.program.variableAt_eq hv, t.program.variableAt_eq hw, .inl rfl, .inl ⟨rfl, rfl⟩⟩
  · obtain ⟨rows, relaxed, hearly⟩ := hs.exists_depicts_early hfilled
    obtain hgiven | ⟨j, hj⟩ := hearly.column_cases_early hk
    · obtain ⟨v, hv⟩ : ∃ v, p.vars[k]? = some v := ⟨_, Array.getElem?_eq_getElem hgiven⟩
      have hw := ht.depicts.var_given k v hv
      rw [p.filled_stageAt] at hw
      refine ⟨v, _, s.program.variableAt_eq (hearly.vars_given_early hv),
        t.program.variableAt_eq hw, ?_⟩
      -- a variable that is split is freed when its negative part is filled
      by_cases hfreed : (t.splits.get? k).isSome ∧ .negativesFilled ≤ t.phase
      · rw [hfreed.1, decide_eq_true hfreed.2, Bool.and_true, if_pos rfl]
        exact ⟨.inl rfl, .inr ⟨hgiven, rfl, hfilled, hfreed.2⟩⟩
      · rw [if_neg (by simpa using hfreed)]
        exact ⟨.inl rfl, .inl ⟨rfl, rfl⟩⟩
    · have hv := s.program.variableAt_eq (hearly.vars_negative_early hj)
      have hj' := h.splits j k hj
      by_cases hlater : .negativesFilled ≤ t.phase
      · obtain ⟨-, w, -, hw, -, -, hlower, hupper⟩ := (ht.opposite hlater hj').variableAt
        exact ⟨_, w, hv, hw, .inr (hs.fills ht h ⟨hfilled, hlater⟩ hj), .inl ⟨hlower, hupper⟩⟩
      · obtain ⟨rows', relaxed', hearly'⟩ := ht.exists_depicts_early hlater
        exact ⟨_, _, hv, t.program.variableAt_eq (hearly'.vars_negative_early hj'), .inl rfl,
          .inl ⟨rfl, rfl⟩⟩

theorem extends_of_precedes : Extends p s t where
  phase := h.phase
  numConstraints := by
    rw [hs.depicts.numConstraints, ht.depicts.numConstraints]
    exact (p.rows_stageAt_prefix h.phase).length_le
  numVariables := by
    apply Nat.le_of_not_lt
    intro hlt
    obtain ⟨v, w, -, hw, -⟩ := hs.variableAt_cases ht h hlt
    rw [t.program.variableAt_of_le (Nat.le_refl _)] at hw
    cases hw
  stored _ _ hi hk := hs.stored_cases ht h hi hk
  constraintAt _ hi := hs.constraintAt_cases ht h hi
  variableAt _ hk := hs.variableAt_cases ht h hk

end Moments

/-! ### Which call it is -/

theorem completes_of_passes (h : Reduces p s) (hpasses : Passes s (s.call c).2 phase) :
    c.Completes phase := by
  obtain ⟨hbefore, hafter⟩ := hpasses
  obtain ⟨horder, reply, s', hcall, hrank, -⟩ | ⟨e, hcall⟩ := h.call_cases c
  · rw [hcall] at hafter
    have hlt : s.phase.rank < phase.rank := Nat.lt_of_not_le hbefore
    have hle : phase.rank ≤ s.phase.rank + c.numSteps := hrank ▸ hafter
    have hnext : c.numSteps = 1 → s.phase = c.expected → phase.rank = c.expected.rank + 1 := by
      intro hone hexpected
      rw [hone, hexpected] at hle
      exact Nat.le_antisymm hle (hexpected ▸ hlt)
    -- a step passes the phase that it completes, and all of them pass every phase but the start
    cases c with
    | splitEqualities => exact Phase.rank_injective (hnext rfl horder)
    | enforceBounds => exact Phase.rank_injective (hnext rfl horder)
    | fillNegatives => exact Phase.rank_injective (hnext rfl horder)
    | addSlacks => exact Phase.rank_injective (hnext rfl horder)
    | reduce check =>
      rintro rfl
      exact Nat.not_lt_zero _ hlt
    | split j => exact absurd hlt (Nat.not_lt_of_le hle)
  · rw [hcall] at hafter
    exact absurd hafter hbefore

theorem call_reduce (h : Reduces p s) (hphase : s.phase = .start) (check : Bool) :
    ∃ log, (s.call (.reduce check)).2 =
      { s.run [.splitEqualities, .enforceBounds, .fillNegatives, .addSlacks] with log := log } := by
  obtain ⟨s₁, s₂, s₃, s₄, hrun₁, hrun₂, hrun₃, hrun₄, -, h₄, -⟩ :=
    run_steps (h.depicts_of_phase hphase) hphase
  obtain ⟨log, hrun⟩ := run_reduce_of_steps hrun₁ hrun₂ hrun₃ hrun₄ h₄ check
  have hsteps : s.run [.splitEqualities, .enforceBounds, .fillNegatives, .addSlacks] = s₄ := by
    rw [Reduction.run, List.foldl_cons, call_of_ok (run_bind_of_ok hrun₁), List.foldl_cons,
      call_of_ok (run_bind_of_ok hrun₂), List.foldl_cons, call_of_ok (run_bind_of_ok hrun₃),
      List.foldl_cons, call_of_ok (run_bind_of_ok hrun₄), List.foldl_nil]
  refine ⟨log, ?_⟩
  rw [hsteps, Reduction.call, perform, map_eq_pure_bind, run_bind_of_ok hrun]
  rfl

end Reduces

/-! ### From the start -/

theorem not_fills_start : ¬ Fills (start p) s k := by
  rintro ⟨-, -, -, j, hj, -⟩
  cases hj

/-- Nothing is split at first, so what a later moment shows of the program at first are its own
contents. -/
theorem Extends.retainsGiven (h : Extends p (start p) s) (hp : p.Sound) (hs : s.program.Sound) :
    RetainsGiven p s where
  coefficient i j hi hj := by
    have hi' : i < s.program.numConstraints := Nat.lt_of_lt_of_le hi h.numConstraints
    have hj' : j < s.program.numVariables := Nat.lt_of_lt_of_le hj h.numVariables
    have hstored : s.program.matrix.stored i j = p.matrix.stored i j :=
      (h.stored i j hi hj).resolve_right not_fills_start
    refine ⟨_, p.coefficient_eq (hp.shaped.rows ▸ hi) (hp.shaped.columns ▸ hj), ?_⟩
    rw [SparseMatrix.entry_eq, ← hstored, ← SparseMatrix.entry_eq]
    exact s.program.coefficient_eq (hs.shaped.rows ▸ hi') (hs.shaped.columns ▸ hj')
  constraintAt i hi := by
    obtain ⟨c, d, hc, hd, hrhs, hsense⟩ := h.constraintAt i hi
    refine ⟨c, d, hc, hd, hrhs, fun hne => ?_⟩
    -- only an equality is relaxed, and every row is an equality in the end
    obtain hsame | hlast | ⟨hequal, -⟩ := hsense
    · exact .inl hsame
    · exact .inr (Phase.slacksAdded_le_iff.mp hlast.after)
    · exact absurd hequal hne
  variableAt j hj := by
    obtain ⟨v, w, hv, hw, hcost, hbounds⟩ := h.variableAt j hj
    refine ⟨v, w, hv, hw, hcost.resolve_right not_fills_start, ?_⟩
    obtain hsame | ⟨-, hsplit, hpasses⟩ := hbounds
    · exact .inl hsame
    · exact .inr ⟨hsplit, hpasses.after⟩
  rhs := by
    rw [List.prefix_iff_getElem?]
    intro i hi
    rw [List.length_map, Array.length_toList] at hi
    obtain ⟨c, d, hc, hd, hrhs, -⟩ := h.constraintAt i hi
    have hget : p.constraints[i]? = some c := p.constraintAt_eq_ok_iff.mp hc
    rw [s.program.constraintAt_eq_ok_iff] at hd
    obtain ⟨_, rfl⟩ := Array.getElem?_eq_some_iff.mp hget
    simp [form, hd, hrhs]
  cost := by
    rw [List.prefix_iff_getElem?]
    intro j hj
    rw [List.length_map, Array.length_toList] at hj
    obtain ⟨v, w, hv, hw, hcost, -⟩ := h.variableAt j hj
    have hget : p.vars[j]? = some v := p.variableAt_eq_ok_iff.mp hv
    rw [s.program.variableAt_eq_ok_iff] at hw
    obtain ⟨_, rfl⟩ := Array.getElem?_eq_some_iff.mp hget
    simp [form, hw, hcost.resolve_right not_fills_start]

/-- At every moment of every run the program at first is as it was, and at every later moment so is
what there is by then, up to the blank columns that are filled, the bounds that become rows and the
senses that become slacks. -/
theorem run_appendsOnly (hp : p.Reachable) (calls : List Call) :
    AppendsOnly p ((start p).run calls) where
  given := by
    have hstart := reduces_start hp.sound
    have hs := hstart.run calls
    exact (hstart.extends_of_precedes hs (hstart.precedes_run calls)).retainsGiven hp.sound
      hs.depicts.sound
  later more := by
    have hs := (reduces_start hp.sound).run calls
    exact hs.extends_of_precedes (hs.run more) (hs.precedes_run more)
  passes c phase := ((reduces_start hp.sound).run calls).completes_of_passes
  reduce check hphase := ((reduces_start hp.sound).run calls).call_reduce hphase check

/-- One variable is split by hand and the other for its bound. What the negative part of the latter
receives was stored for the variable at first and in its bound row. -/
theorem run_appendsOnly_filled :
    let p : LinearProgram .binary64 :=
      ((LinearProgram.zero 1 2).edited (.setCoefficient 0 1 1)).edited (.setUpper 1 1)
    let s := (start p).run [.split 0, .splitEqualities, .addSlacks, .enforceBounds]
    let t := s.run [.fillNegatives, .fillNegatives, .addSlacks]
    AppendsOnly p s ∧ s.splits.entries = [(0, 2), (1, 3)] ∧ Fills s t 3 ∧
      t.program.coefficients 3 = .ok ⟨[(0, -1), (1, -1)]⟩ := by
  intro p s t
  have hp : p.Reachable := .edited (.edited (.zero 1 2) _) _
  have h : AppendsOnly p s := run_appendsOnly hp _
  have hlater : Extends p s t := h.later [.fillNegatives, .fillNegatives, .addSlacks]
  have hrow : 0 < s.program.numConstraints := by decide +kernel
  have hcolumn : 3 < s.program.numVariables := by decide +kernel
  have hchanged : t.program.matrix.stored 0 3 ≠ s.program.matrix.stored 0 3 := by decide +kernel
  have hfills : Fills s t 3 := (hlater.stored 0 3 hrow hcolumn).resolve_left hchanged
  exact ⟨h, by decide +kernel, hfills, by decide +kernel⟩

end Reduction

end StandardLp
