import StandardLp.Proofs.Reduction.Growth

/-!
The columns of a reduced program and what becomes of them. Every column is a variable of the
program at first, the negative part of one variable or the slack of one row, and never two of
these. What a call finds among the splits and in the slack basis, it leaves there.
-/

namespace StandardLp.Reduction

variable {f : Format} {p : LinearProgram f} {s t u : Reduction f} {c : Call} {j k : Nat}

/-! ### Later moments -/

/-- What the phase and the splits show when `t` is a later moment of the reduction `s`. -/
structure Precedes (s t : Reduction f) : Prop where
  phase : s.phase ≤ t.phase
  splits : ∀ j k, s.splits.get? j = some k → t.splits.get? j = some k
  splits_filled : .negativesFilled ≤ s.phase → t.splits = s.splits

namespace Precedes

theorem refl (s : Reduction f) : Precedes s s where
  phase := Nat.le_refl _
  splits _ _ h := h
  splits_filled _ := rfl

theorem trans (h : Precedes s t) (h' : Precedes t u) : Precedes s u where
  phase := Nat.le_trans h.phase h'.phase
  splits j k hk := h'.splits j k (h.splits j k hk)
  splits_filled hphase :=
    (h'.splits_filled (Nat.le_trans hphase h.phase)).trans (h.splits_filled hphase)

end Precedes

theorem Call.splitVars_of_filled {phase : Phase} (horder : c.InOrder phase)
    (hphase : .negativesFilled ≤ phase) : c.splitVars p = [] := by
  cases c with
  | split j => exact absurd hphase horder
  | enforceBounds =>
    obtain rfl : phase = .equalitiesSplit := horder
    exact absurd hphase (by decide)
  | reduce check =>
    obtain rfl : phase = .start := horder
    exact absurd hphase (by decide)
  | splitEqualities => rfl
  | fillNegatives => rfl
  | addSlacks => rfl

namespace Reduces

theorem precedes_call (h : Reduces p s) (c : Call) : Precedes s (s.call c).2 := by
  have hphase := h.phase_le_call c
  obtain ⟨horder, reply, s', hcall, -, hsplits⟩ | ⟨e, hcall⟩ := h.call_cases c
  · rw [hcall] at hphase ⊢
    refine ⟨hphase, fun j k hk => ?_, fun hfilled => ?_⟩
    · rw [hsplits]
      exact get?_allot_of_some hk _ _
    · rw [hsplits, Call.splitVars_of_filled horder hfilled, allot_nil]
  · rw [hcall]
    exact .refl s

theorem precedes_run (h : Reduces p s) (calls : List Call) : Precedes s (s.run calls) := by
  induction calls generalizing s with
  | nil => exact .refl s
  | cons c rest ih => exact (h.precedes_call c).trans (ih (h.call c))

theorem slackBasis_eq_empty (h : Reduces p s) (hphase : s.phase ≠ .slacksAdded) :
    s.slackBasis = #[] := by
  have hlist := h.depicts.slackBasis
  rw [p.slacks_stageAt_of_ne hphase] at hlist
  exact Array.toList_inj.mp hlist

theorem slackBasis_prefix (hs : Reduces p s) (ht : Reduces p t) (h : Precedes s t) :
    s.slackBasis.toList <+: t.slackBasis.toList := by
  by_cases hphase : s.phase = .slacksAdded
  · have hfilled : .negativesFilled ≤ s.phase := by
      rw [hphase]
      decide
    have hlast : t.phase = .slacksAdded := Phase.slacksAdded_le_iff.mp (hphase ▸ h.phase)
    have hlist : t.slackBasis.toList = s.slackBasis.toList := by
      rw [hs.depicts.slackBasis, ht.depicts.slackBasis, hphase, hlast, h.splits_filled hfilled]
    exact hlist ▸ List.prefix_rfl
  · rw [hs.slackBasis_eq_empty hphase]
    exact List.nil_prefix

end Reduces

/-! ### One part for every column -/

/-- No column is shared and none is lost: those below `p.numVariables`, the negative parts and the
slacks are all the columns there are, and they have none in common. -/
structure Partitioned (p : LinearProgram f) (s : Reduction f) : Prop where
  split_lt : ∀ j k, s.splits.get? j = some k → j < s.program.numVariables
  lt_negative : ∀ j k, s.splits.get? j = some k → j < k
  given_not_negative : ∀ j k, s.splits.get? j = some k → p.numVariables ≤ k
  negative_injective : ∀ i j k, s.splits.get? i = some k → s.splits.get? j = some k → i = j
  negative_not_slack : ∀ j k, s.splits.get? j = some k → k ∉ s.slackBasis
  given_not_slack : ∀ k ∈ s.slackBasis, p.numVariables ≤ k
  slack_increasing : s.slackBasis.toList.Pairwise (· < ·)
  slackBasis_early : s.phase ≠ .slacksAdded → s.slackBasis = #[]
  lt_numVariables_iff : ∀ c, c < s.program.numVariables ↔
    c < p.numVariables ∨ (∃ j, s.splits.get? j = some c) ∨ c ∈ s.slackBasis

theorem Depicts.mem_slackBasis_iff {g : Stage} (h : Depicts p g s) : k ∈ s.slackBasis ↔
    ∃ i, i < g.slacks ∧ k = p.numVariables + s.splits.size + i := by
  rw [Array.mem_iff_getElem?]
  exact exists_congr fun i => h.getElem?_slackBasis

theorem Reduces.partitioned (h : Reduces p s) : Partitioned p s where
  split_lt _ _ hk := Nat.lt_trans (h.depicts.allotment.lt hk) (h.depicts.lt_numVariables hk)
  lt_negative _ _ hk := h.depicts.allotment.lt hk
  given_not_negative _ _ hk := (h.depicts.allotment.bounds hk).1
  negative_injective _ _ _ hi hj := h.depicts.allotment.injective hi hj
  negative_not_slack j k hk hslack := by
    have hlast := (h.depicts.allotment.bounds hk).2
    obtain ⟨i, -, rfl⟩ := h.depicts.mem_slackBasis_iff.mp hslack
    omega
  given_not_slack k hslack := by
    obtain ⟨i, -, rfl⟩ := h.depicts.mem_slackBasis_iff.mp hslack
    omega
  slack_increasing := by
    rw [h.depicts.slackBasis, List.pairwise_map]
    exact List.pairwise_lt_range.imp fun hij => Nat.add_lt_add_left hij _
  slackBasis_early := h.slackBasis_eq_empty
  lt_numVariables_iff c := by
    have hcount := h.depicts.numVariables
    rw [h.depicts.mem_slackBasis_iff]
    constructor
    · exact h.depicts.column_cases
    · rintro (hgiven | ⟨j, hj⟩ | ⟨i, hi, rfl⟩)
      · omega
      · exact h.depicts.lt_numVariables hj
      · omega

/-- Splitting a split variable changes nothing. While variables can be split the answer is the
column that is there already, and after that it is the refusal that any split meets. -/
theorem Reduces.call_split_again (h : Reduces p s) (hk : s.splits.get? j = some k) :
    s.call (.split j) = (if .negativesFilled ≤ s.phase then
      .error (.phaseOrder "split a variable" .boundsEnforced s.phase) else .ok (.column k), s) := by
  by_cases hphase : .negativesFilled ≤ s.phase
  · rw [if_pos hphase]
    exact call_of_error (run_perform_out_of_order fun horder => horder hphase)
  · rw [if_neg hphase]
    apply call_of_ok
    rw [perform, map_eq_pure_bind,
      run_bind_of_ok (run_split_again hphase (h.partitioned.split_lt j k hk) hk)]
    rfl

/-- At every moment of every run the columns are partitioned. Whatever is called after that, the
splits and the slacks that are there stay, and to split a split variable changes nothing. -/
theorem run_partitioned (hp : p.Reachable) (calls : List Call) :
    Partitioned p ((start p).run calls) ∧
      (∀ more, (∀ j k, ((start p).run calls).splits.get? j = some k →
          (((start p).run calls).run more).splits.get? j = some k) ∧
        ((start p).run calls).slackBasis.toList <+:
          (((start p).run calls).run more).slackBasis.toList) ∧
      ∀ j k, ((start p).run calls).splits.get? j = some k →
        ((start p).run calls).call (.split j) =
          (if .negativesFilled ≤ ((start p).run calls).phase then
            .error (.phaseOrder "split a variable" .boundsEnforced ((start p).run calls).phase)
          else .ok (.column k), (start p).run calls) := by
  have h := (reduces_start hp.sound).run calls
  refine ⟨h.partitioned, fun more => ?_, fun j k hk => h.call_split_again hk⟩
  have hlater := h.precedes_run more
  exact ⟨hlater.splits, h.slackBasis_prefix (h.run more) hlater⟩

/-- A bounded variable is split by hand, and then its negative part is. -/
theorem run_partitioned_chain :
    let p : LinearProgram .binary64 := (LinearProgram.zero 1 2).edited (.setUpper 0 1)
    let s := (start p).run
      [.split 0, .split 0, .splitEqualities, .split 2, .enforceBounds, .split 9, .fillNegatives]
    let t := s.run [.split 0, .addSlacks]
    s.splits.entries = [(0, 2), (2, 3)] ∧ t.slackBasis = #[4, 5] ∧ Partitioned p s ∧
      t.splits.get? 2 = some 3 ∧
      s.call (.split 2) = (.error (.phaseOrder "split a variable" .boundsEnforced s.phase), s) := by
  intro p s t
  have hp : p.Reachable := .edited (.zero 1 2) _
  obtain ⟨hparts, hkept, hagain⟩ := run_partitioned hp
    [.split 0, .split 0, .splitEqualities, .split 2, .enforceBounds, .split 9, .fillNegatives]
  have hchain : s.splits.get? 2 = some 3 := by decide +kernel
  have hphase : .negativesFilled ≤ s.phase := by decide +kernel
  have hrefused := hagain 2 3 hchain
  rw [if_pos hphase] at hrefused
  exact ⟨by decide +kernel, by decide +kernel, hparts, (hkept _).1 2 3 hchain, hrefused⟩

/-- Once the negative parts are filled, the column of a negative part is not told again. -/
theorem split_again_refused :
    let p : LinearProgram .binary64 := .zero 0 1
    let s := (start p).run [.split 0, .splitEqualities, .enforceBounds, .fillNegatives]
    p.Reachable ∧ s.splits.get? 0 = some 1 ∧
      ¬ ∀ j k, s.splits.get? j = some k → s.call (.split j) = (.ok (.column k), s) := by
  intro p s
  have hk : s.splits.get? 0 = some 1 := by decide +kernel
  refine ⟨.zero 0 1, hk, fun hagain => ?_⟩
  exact absurd (congrArg Prod.fst (hagain 0 1 hk)) (by decide +kernel)

end StandardLp.Reduction
