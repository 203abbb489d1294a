import Mathlib.Data.List.Basic
import Mathlib.Data.List.Induction
import StandardLp.Proofs.Reduction.Protocol

/-!
How a program grows under reduction. The census counts every row and every column that was
appended, once and under its kind, and what it counts is known from the program at first. The
negative parts are the exception: variables can be split by hand, before the bounds are enforced
as well as after that, and a variable that is asked for again has its negative part already.
-/

namespace StandardLp

variable {f : Format}

/-- Whether the bound on a side becomes a row: a lower bound does if it is neither zero nor
infinite, an upper bound if it is not infinite. -/
def Variable.enforces (v : Variable f) : Side → Bool
  | .lower => !v.lowerIsZero && !v.lowerIsInfinite
  | .upper => !v.upperIsInfinite

namespace LinearProgram

variable (p : LinearProgram f)

def numEqualities : Nat := p.constraints.countP (·.sense == .equal)

def numEnforced (side : Side) : Nat := p.vars.countP (·.enforces side)

/-! ### Rows of one kind -/

theorem length_equalities : p.equalities.length = p.numEqualities := by
  have hfst := congrArg (List.countP (·.sense == .equal))
    (List.zipIdx_map_fst 0 p.constraints.toList)
  rw [List.countP_map] at hfst
  rw [equalities, List.length_map, ← List.countP_eq_length_filter, numEqualities,
    ← Array.countP_toList]
  exact hfst

theorem countP_givenRows (kind : RowKind) : p.givenRows.countP (·.kind? == some kind) = 0 := by
  rw [givenRows, List.countP_map]
  exact List.countP_eq_zero.mpr fun _ _ => Bool.false_ne_true

theorem countP_copyRows (kind : RowKind) : p.copyRows.countP (·.kind? == some kind) =
    if kind = .equalityCopy then p.numEqualities else 0 := by
  rw [copyRows, List.countP_map, ← p.length_equalities]
  cases kind with
  | equalityCopy => exact List.countP_eq_length.mpr fun _ _ => rfl
  | bound side => exact List.countP_eq_zero.mpr fun _ _ => Bool.false_ne_true

theorem countP_boundRowsOf (side : Side) (j : Nat) :
    (p.boundRowsOf j).countP (·.kind? == some (.bound side)) =
      p.vars[j]?.toList.countP (·.enforces side) := by
  rw [boundRowsOf]
  cases p.vars[j]? with
  | none => rfl
  | some v =>
    rw [Option.elim_some, Option.toList_some, List.countP_map, Variable.enforcedSides]
    cases side <;> cases hz : v.lowerIsZero <;> cases hl : v.lowerIsInfinite <;>
      cases hu : v.upperIsInfinite <;> simp [Variable.enforces, RowOrigin.kind?, hz, hl, hu]

theorem countP_boundRowsBelow (side : Side) (n : Nat) :
    (p.boundRowsBelow n).countP (·.kind? == some (.bound side)) =
      (p.vars.toList.take n).countP (·.enforces side) := by
  induction n with
  | zero => rfl
  | succ n ih =>
    rw [p.boundRowsBelow_succ, List.countP_append, ih, p.countP_boundRowsOf, List.take_add_one,
      List.countP_append, Array.getElem?_toList]

theorem countP_boundRows (side : Side) :
    p.boundRows.countP (·.kind? == some (.bound side)) = p.numEnforced side := by
  rw [boundRows, p.countP_boundRowsBelow, numEnforced, ← Array.countP_toList, numVariables,
    ← Array.length_toList, List.take_length]

theorem countP_boundRows_equalityCopy :
    p.boundRows.countP (·.kind? == some .equalityCopy) = 0 := by
  refine List.countP_eq_zero.mpr fun r hr => ?_
  obtain ⟨j, v, side, -, -, rfl⟩ := mem_boundRows.mp hr
  exact Bool.false_ne_true

theorem length_boundRows :
    p.boundRows.length = p.numEnforced .lower + p.numEnforced .upper := by
  rw [List.length_eq_countP_add_countP (·.kind? == some (.bound .lower)), p.countP_boundRows,
    ← p.countP_boundRows .upper]
  congr 1
  refine List.countP_congr fun r hr => ?_
  obtain ⟨j, v, side, -, -, rfl⟩ := mem_boundRows.mp hr
  cases side with
  | lower => simp [RowOrigin.kind?]
  | upper => simp [RowOrigin.kind?]

theorem countP_plan_equalityCopy :
    p.plan.countP (·.kind? == some .equalityCopy) = p.numEqualities := by
  rw [plan, List.countP_append, List.countP_append, p.countP_givenRows, p.countP_copyRows,
    p.countP_boundRows_equalityCopy, if_pos rfl, Nat.zero_add, Nat.add_zero]

theorem countP_plan_bound (side : Side) :
    p.plan.countP (·.kind? == some (.bound side)) = p.numEnforced side := by
  rw [plan, List.countP_append, List.countP_append, p.countP_givenRows, p.countP_copyRows,
    p.countP_boundRows, if_neg (by simp), Nat.zero_add]

theorem count_stageAt_equalityCopy (phase : Phase) :
    (p.stageAt phase).count .equalityCopy =
      if .equalitiesSplit ≤ phase then p.numEqualities else 0 := by
  cases phase with
  | start => exact p.countP_givenRows _
  | equalitiesSplit =>
    show (p.givenRows ++ p.copyRows).countP _ = p.numEqualities
    rw [List.countP_append, p.countP_givenRows, p.countP_copyRows, if_pos rfl, Nat.zero_add]
  | boundsEnforced => exact p.countP_plan_equalityCopy
  | negativesFilled => exact p.countP_plan_equalityCopy
  | slacksAdded => exact p.countP_plan_equalityCopy

theorem count_stageAt_bound (side : Side) (phase : Phase) :
    (p.stageAt phase).count (.bound side) =
      if .boundsEnforced ≤ phase then p.numEnforced side else 0 := by
  cases phase with
  | start => exact p.countP_givenRows _
  | equalitiesSplit =>
    show (p.givenRows ++ p.copyRows).countP _ = 0
    rw [List.countP_append, p.countP_givenRows, p.countP_copyRows, if_neg (by simp)]
  | boundsEnforced => exact p.countP_plan_bound side
  | negativesFilled => exact p.countP_plan_bound side
  | slacksAdded => exact p.countP_plan_bound side

theorem length_givenRows : p.givenRows.length = p.numConstraints := by simp [givenRows]

theorem length_copyRows : p.copyRows.length = p.numEqualities := by
  rw [copyRows, List.length_map, p.length_equalities]

theorem length_plan : p.plan.length =
    p.numConstraints + p.numEqualities + p.numEnforced .lower + p.numEnforced .upper := by
  rw [plan, List.length_append, List.length_append, p.length_givenRows, p.length_copyRows,
    p.length_boundRows, Nat.add_assoc _ (p.numEnforced .lower)]

theorem length_rows_stageAt (phase : Phase) : (p.stageAt phase).rows.length =
    p.numConstraints + (p.stageAt phase).count .equalityCopy +
      (p.stageAt phase).count (.bound .lower) + (p.stageAt phase).count (.bound .upper) := by
  simp only [count_stageAt_equalityCopy, count_stageAt_bound]
  cases phase with
  | start => exact p.length_givenRows
  | equalitiesSplit =>
    show (p.givenRows ++ p.copyRows).length = p.numConstraints + p.numEqualities
    rw [List.length_append, p.length_givenRows, p.length_copyRows]
  | boundsEnforced => exact p.length_plan
  | negativesFilled => exact p.length_plan
  | slacksAdded => exact p.length_plan

end LinearProgram

namespace Reduction

variable {p : LinearProgram f} {s : Reduction f} {calls : List Call} {c : Call} {j : Nat}

/-! ### Variables that are split by hand -/

/-- One of the calls asks for a negative part of variable `j` by hand and receives it. -/
def SplitByHand (s : Reduction f) (calls : List Call) (j : Nat) : Prop :=
  ∃ before after reply, calls = before ++ .split j :: after ∧
    ((s.run before).call (.split j)).1 = .ok reply

theorem run_append_singleton (s : Reduction f) (calls : List Call) (c : Call) :
    s.run (calls ++ [c]) = ((s.run calls).call c).2 :=
  List.foldl_append ..

theorem not_splitByHand_nil : ¬ SplitByHand s [] j := by
  rintro ⟨before, after, reply, heq, -⟩
  simp at heq

theorem splitByHand_append_singleton_iff : SplitByHand s (calls ++ [c]) j ↔
    SplitByHand s calls j ∨ c = .split j ∧ ∃ reply, ((s.run calls).call c).1 = .ok reply := by
  constructor
  · rintro ⟨before, after, reply, heq, hok⟩
    obtain rfl | ⟨rest, last, rfl⟩ := List.eq_nil_or_concat' after
    · obtain ⟨rfl, hc⟩ := List.append_inj' heq rfl
      obtain rfl : c = .split j := by simpa using hc
      exact .inr ⟨rfl, reply, hok⟩
    · rw [← List.cons_append, ← List.append_assoc] at heq
      exact .inl ⟨before, rest, reply, (List.append_inj' heq rfl).1, hok⟩
  · rintro (⟨before, after, reply, rfl, hok⟩ | ⟨rfl, reply, hok⟩)
    · exact ⟨before, after ++ [c], reply, by simp, hok⟩
    · exact ⟨calls, [], reply, rfl, hok⟩

/-- A call in order splits the variable that it names, or those with bounds when it enforces
them. -/
theorem Call.split_or_boundsEnforced {phase : Phase} (horder : c.InOrder phase)
    (hj : j ∈ c.splitVars p) :
    c = .split j ∨ Phase.boundsEnforced.rank ≤ phase.rank + c.numSteps ∧ j ∈ p.boundedVars := by
  cases c with
  | split i => exact .inl (by rw [List.mem_singleton.mp hj])
  | enforceBounds =>
    obtain rfl : phase = .equalitiesSplit := horder
    exact .inr ⟨by decide, hj⟩
  | reduce check =>
    have hsteps : Phase.boundsEnforced.rank ≤ 4 := by decide
    exact .inr ⟨Nat.le_trans hsteps (Nat.le_add_left _ _), hj⟩
  | splitEqualities => cases hj
  | fillNegatives => cases hj
  | addSlacks => cases hj

theorem Reduces.isSome_splits_call (h : Reduces p s) (c : Call) (j : Nat) :
    ((s.call c).2.splits.get? j).isSome ↔
      (s.splits.get? j).isSome ∨ (c = .split j ∧ ∃ reply, (s.call c).1 = .ok reply) ∨
        .boundsEnforced ≤ (s.call c).2.phase ∧ j ∈ p.boundedVars := by
  have hafter := (h.call c).split_bounded
  obtain ⟨horder, reply, s', hcall, hrank, hsplits⟩ | ⟨e, hcall⟩ := h.call_cases c
  · rw [hcall] at hafter ⊢
    have hmem : (s'.splits.get? j).isSome ↔ (s.splits.get? j).isSome ∨ j ∈ c.splitVars p := by
      rw [hsplits, isSome_get?_allot]
    rw [hmem]
    constructor
    · rintro (hbefore | hj)
      · exact .inl hbefore
      · obtain rfl | ⟨hle, hbounded⟩ := Call.split_or_boundsEnforced horder hj
        · exact .inr (.inl ⟨rfl, reply, rfl⟩)
        · exact .inr (.inr ⟨Nat.le_trans hle (Nat.le_of_eq hrank.symm), hbounded⟩)
    · rintro (hbefore | ⟨rfl, -⟩ | ⟨hphase, hj⟩)
      · exact .inl hbefore
      · exact .inr (List.mem_singleton_self j)
      · -- once the bounds are enforced, all variables with bounds are split
        exact hmem.mp (hafter hphase j hj)
  · rw [hcall] at hafter ⊢
    constructor
    · exact .inl
    · rintro (hbefore | ⟨-, reply, hok⟩ | ⟨hphase, hj⟩)
      · exact hbefore
      · cases hok
      · exact hafter hphase j hj

theorem Reduces.phase_le_call (h : Reduces p s) (c : Call) : s.phase ≤ (s.call c).2.phase := by
  obtain ⟨-, reply, s', hcall, hrank, -⟩ | ⟨e, hcall⟩ := h.call_cases c
  · rw [hcall]
    exact Nat.le.intro hrank.symm
  · rw [hcall]
    exact Nat.le_refl _

/-- The variables that are split are those that were split by hand and, once the bounds are
enforced, those with bounds. The induction is on the last call. -/
theorem isSome_splits_run (hp : p.Sound) (calls : List Call) (j : Nat) :
    (((start p).run calls).splits.get? j).isSome ↔
      SplitByHand (start p) calls j ∨
        .boundsEnforced ≤ ((start p).run calls).phase ∧ j ∈ p.boundedVars := by
  induction calls using List.reverseRecOn with
  | nil =>
    have hphase : ¬ Phase.boundsEnforced ≤ .start := by decide
    constructor
    · intro hsome
      cases hsome
    · rintro (hhand | ⟨hle, -⟩)
      · exact absurd hhand not_splitByHand_nil
      · exact absurd hle hphase
  | append_singleton calls c ih =>
    have hreduces := (reduces_start hp).run calls
    have hmono := hreduces.phase_le_call c
    rw [run_append_singleton, hreduces.isSome_splits_call, ih, splitByHand_append_singleton_iff]
    constructor
    -- bounds that were enforced before the last call are so after it
    · rintro ((hhand | ⟨hle, hj⟩) | hnow | hbounded)
      · exact .inl (.inl hhand)
      · exact .inr ⟨Nat.le_trans hle hmono, hj⟩
      · exact .inl (.inr hnow)
      · exact .inr hbounded
    · rintro ((hhand | hnow) | hbounded)
      · exact .inl (.inl hhand)
      · exact .inr (.inl hnow)
      · exact .inr (.inr hbounded)

/-! ### Growth -/

/-- What has been added to `p` by now, in terms of `p` and of the variables that were split by
hand. -/
structure Grows (p : LinearProgram f) (byHand : Nat → Prop) (s : Reduction f) : Prop where
  numConstraints : s.census.numConstraints = s.program.numConstraints
  numVariables : s.census.numVariables = s.program.numVariables
  initialConstraints : s.census.initialConstraints = p.numConstraints
  initialVariables : s.census.initialVariables = p.numVariables
  equalityCopies : s.census.equalityCopies =
    if .equalitiesSplit ≤ s.phase then p.numEqualities else 0
  lowerBounds : s.census.lowerBounds =
    if .boundsEnforced ≤ s.phase then p.numEnforced .lower else 0
  upperBounds : s.census.upperBounds =
    if .boundsEnforced ≤ s.phase then p.numEnforced .upper else 0
  negativeParts : s.census.negativeParts = s.splits.size
  slacks : s.census.slacks = s.slackBasis.size
  isSome_splits_iff : ∀ j, (s.splits.get? j).isSome ↔ byHand j ∨ .boundsEnforced ≤ s.phase ∧
    ∃ v, p.vars[j]? = some v ∧ (v.lowerIsZero = false ∨ v.upperIsInfinite = false)
  final_numConstraints : s.phase = .slacksAdded → s.program.numConstraints =
    p.numConstraints + p.numEqualities + p.numEnforced .lower + p.numEnforced .upper
  final_numVariables : s.phase = .slacksAdded →
    s.program.numVariables = p.numVariables + s.splits.size + s.program.numConstraints

theorem Reduces.grows (h : Reduces p s) {byHand : Nat → Prop}
    (hsplits : ∀ j, (s.splits.get? j).isSome ↔
      byHand j ∨ .boundsEnforced ≤ s.phase ∧ j ∈ p.boundedVars) : Grows p byHand s where
  numConstraints := by
    rw [h.depicts.numConstraints, p.length_rows_stageAt, h.depicts.census, Census.numConstraints]
  numVariables := by
    rw [h.depicts.numVariables, h.depicts.census, Census.numVariables]
  initialConstraints := by rw [h.depicts.census]
  initialVariables := by rw [h.depicts.census]
  equalityCopies := by
    rw [h.depicts.census]
    exact p.count_stageAt_equalityCopy s.phase
  lowerBounds := by
    rw [h.depicts.census]
    exact p.count_stageAt_bound .lower s.phase
  upperBounds := by
    rw [h.depicts.census]
    exact p.count_stageAt_bound .upper s.phase
  negativeParts := by rw [h.depicts.census]
  slacks := by rw [h.depicts.census, h.depicts.size_slackBasis]
  isSome_splits_iff j := by
    rw [hsplits, LinearProgram.mem_boundedVars]
    simp only [Variable.isBounded_iff]
  final_numConstraints hphase :=
    (h.depicts_of_phase hphase).numConstraints.trans p.length_plan
  final_numVariables hphase := by
    have hs := h.depicts_of_phase hphase
    rw [hs.numVariables, hs.numConstraints]
    rfl

/-- The growth laws hold at every moment of every run, whatever was called and whatever failed. -/
theorem run_grows (hp : p.Reachable) (calls : List Call) :
    Grows p (SplitByHand (start p) calls) ((start p).run calls) :=
  ((reduces_start hp.sound).run calls).grows (isSome_splits_run hp.sound calls)

/-- Two of three variables are split by hand, one of them a second time. The third has an upper
bound, and by hand it is split too late. -/
theorem run_grows_twice :
    let p : LinearProgram .binary64 := {
      matrix := (SparseMatrix.zero 1 3).edited (.set 0 0 1)
      constraints := #[⟨.equal, 1⟩]
      vars := #[⟨-1, 1, 1⟩, .nonnegative, ⟨0, 1, 1⟩] }
    let calls : List Call := [.split 5, .split 0, .splitEqualities, .addSlacks, .split 1, .split 0,
      .enforceBounds, .fillNegatives, .split 2, .addSlacks]
    let s := (start p).run calls
    s.phase = .slacksAdded ∧ s.splits.entries = [(0, 3), (1, 4), (2, 5)] ∧
      Grows p (SplitByHand (start p) calls) s := by
  intro p calls s
  have hm : p.matrix.Reachable := .edited (.zero 1 3) (.set 0 0 1)
  have hbuilt : LinearProgram.ofParts p.matrix #[.equal] #[1] #[(-1, 1), (0, .infinity), (0, 1)]
      #[1, 0, 1] = .ok p := by decide +kernel
  have hp : p.Reachable := .built (.ofParts hm hbuilt)
  exact ⟨by decide +kernel, by decide +kernel, run_grows hp calls⟩

end Reduction

end StandardLp
