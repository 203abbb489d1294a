import StandardLp.Proofs.Reduction.Account

/-!
The stages that the phases stand for, and the four steps between them. A step is a loop, and the
stage after some of its iterations is the invariant of the loop. The account of a step traces the
rows that the stage after it has more than the one before.
-/

namespace StandardLp

/-- The stage of a reduction that has completed a phase. -/
def LinearProgram.stageAt {f : Format} (p : LinearProgram f) : Phase → Reduction.Stage
  | .start => .early p.givenRows []
  | .equalitiesSplit => .early (p.givenRows ++ p.copyRows) p.equalities
  | .boundsEnforced => .early p.plan p.equalities
  | .negativesFilled => ⟨p.plan, p.equalities, fun _ => true, 0⟩
  | .slacksAdded => ⟨p.plan, p.equalities, fun _ => true, p.plan.length⟩

namespace LinearProgram

variable {f : Format} (p : LinearProgram f) {phase later : Phase}

theorem exists_stageAt_eq_early (h : ¬ .negativesFilled ≤ phase) :
    ∃ rows relaxed, p.stageAt phase = .early rows relaxed := by
  cases phase with
  | start => exact ⟨_, _, rfl⟩
  | equalitiesSplit => exact ⟨_, _, rfl⟩
  | boundsEnforced => exact ⟨_, _, rfl⟩
  | negativesFilled => exact absurd (by decide) h
  | slacksAdded => exact absurd (by decide) h

theorem exists_stageAt_eq_filled (h : .negativesFilled ≤ phase) :
    ∃ n, p.stageAt phase = ⟨p.plan, p.equalities, fun _ => true, n⟩ := by
  obtain rfl | rfl := Phase.negativesFilled_le_iff.mp h
  · exact ⟨_, rfl⟩
  · exact ⟨_, rfl⟩

theorem relaxed_stageAt (phase : Phase) :
    (p.stageAt phase).relaxed = if .equalitiesSplit ≤ phase then p.equalities else [] := by
  cases phase <;> rfl

theorem filled_stageAt (phase : Phase) (j : Nat) :
    (p.stageAt phase).filled j = decide (.negativesFilled ≤ phase) := by
  cases phase <;> rfl

theorem slacks_stageAt_of_ne (h : phase ≠ .slacksAdded) : (p.stageAt phase).slacks = 0 := by
  cases phase with
  | slacksAdded => exact absurd rfl h
  | _ => rfl

theorem slacks_stageAt_le (phase : Phase) :
    (p.stageAt phase).slacks ≤ (p.stageAt phase).rows.length := by
  cases phase with
  | slacksAdded => exact Nat.le_refl _
  | _ => exact Nat.zero_le _

theorem rows_stageAt_prefix (h : phase ≤ later) :
    (p.stageAt phase).rows <+: (p.stageAt later).rows := by
  have hcopies : p.givenRows <+: p.givenRows ++ p.copyRows := List.prefix_append ..
  have hbounds : p.givenRows ++ p.copyRows <+: p.plan := List.prefix_append ..
  cases phase <;> cases later <;> first
    | exact absurd h (by decide)
    | exact List.prefix_rfl
    | exact hcopies
    | exact hbounds
    | exact hcopies.trans hbounds

theorem getElem?_rows_stageAt (h : phase ≤ later) {i : Nat} {r : RowOrigin}
    (hr : (p.stageAt phase).rows[i]? = some r) : (p.stageAt later).rows[i]? = some r := by
  obtain ⟨rest, hrest⟩ := p.rows_stageAt_prefix h
  rw [← hrest, List.getElem?_append_left (List.getElem?_eq_some_iff.mp hr).1, hr]

theorem rows_stageAt_subset (phase : Phase) : (p.stageAt phase).rows ⊆ p.plan :=
  (p.rows_stageAt_prefix phase.le_slacksAdded).subset

end LinearProgram

namespace Reduction

variable {f : Format} {p : LinearProgram f} {g : Stage} {s : Reduction f}

/-! ### Parts of an allotment -/

theorem size_le_size_allot (splits : IndexMap Nat) (n : Nat) (l : List Nat) :
    splits.size ≤ (allot splits n l).size := by
  induction l generalizing splits with
  | nil => exact Nat.le_refl _
  | cons j rest ih =>
    rw [← List.singleton_append, allot_append]
    refine Nat.le_trans ?_ (ih _)
    cases hj : splits.get? j with
    | some k =>
      have hsame : allot splits n [j] = splits := allot_singleton_of_isSome (by simp [hj]) n
      exact Nat.le_of_eq (congrArg IndexMap.size hsame.symm)
    | none =>
      rw [allot_singleton_of_none hj, IndexMap.size_insert hj]
      exact Nat.le_succ _

theorem allot_pair (splits : IndexMap Nat) (n j : Nat) :
    allot splits n [j, j] = allot splits n [j] := by
  rw [← List.singleton_append, allot_append, allot_singleton_of_isSome]
  exact (isSome_get?_allot ..).mpr (.inr (List.mem_singleton_self j))

/-! ### Changes that do not show -/

namespace Depicts

/-- The phase and the log are no part of the picture. -/
theorem relabel (h : Depicts p g s) (phase : Phase) (log : Array (Record f)) :
    Depicts p g { s with phase := phase, log := log } :=
  { h with }

/-- Only which of the split variables are filled matters. -/
theorem congr_filled {rows : List RowOrigin} {relaxed : List Nat} {done done' : Nat → Bool}
    {n : Nat} (h : Depicts p ⟨rows, relaxed, done, n⟩ s)
    (heq : ∀ j k, s.splits.get? j = some k → done j = done' j) :
    Depicts p ⟨rows, relaxed, done', n⟩ s where
  sound := h.sound
  allotment := h.allotment
  numConstraints := h.numConstraints
  numVariables := h.numVariables
  slackBasis := h.slackBasis
  constraint := h.constraint
  stored_given := h.stored_given
  stored_negative j k hk i := by
    rw [h.stored_negative j k hk i]
    simp only [heq j k hk]
  stored_slack := h.stored_slack
  var_given j v hv := by
    rw [h.var_given j v hv]
    cases hk : s.splits.get? j with
    | none => rfl
    | some k => simp [heq j k hk]
  var_negative j k v hk hv := by
    rw [h.var_negative j k v hk hv]
    simp only [heq j k hk]
  var_slack := h.var_slack
  census := h.census

theorem constraints_eq (h : Depicts p (.early p.givenRows []) s) :
    s.program.constraints = p.constraints := by
  have hsize : s.program.constraints.size = p.constraints.size := by
    refine h.numConstraints.trans ?_
    simp [Stage.early, LinearProgram.givenRows, LinearProgram.numConstraints]
  apply Array.ext hsize
  intro i hi hi'
  have hc := h.constraint i (.given i) (p.getElem?_givenRows_eq_some.mpr ⟨hi', rfl⟩)
  rw [Array.getElem?_eq_getElem hi, Option.some.injEq] at hc
  have hget : p.constraints[i]? = some p.constraints[i] := Array.getElem?_eq_getElem hi'
  rw [hc]
  simp [Stage.early, LinearProgram.senseOf, LinearProgram.rhsOf, hget]

end Depicts

/-! ### Steps -/

/-- The first step: every equality is halved. -/
theorem account_splitEqualities (h : Depicts p (p.stageAt .start) s) (hphase : s.phase = .start) :
    ∃ l s', Account splitEqualities s (.starting "replace equality constraints"
        s.program.numConstraints s.program.numVariables :: l) () s' ∧
      s'.phase = .equalitiesSplit ∧ Depicts p (p.stageAt .equalitiesSplit) s' ∧
      s'.splits = s.splits ∧ Traces l p.copyRows := by
  have hlist : s.program.equalities = p.equalities := by
    rw [LinearProgram.equalities, h.constraints_eq]
    rfl
  -- the copies of the equalities in `done` stand at the end, in their order
  have loop := account_forM splitEquality s.program.equalities
    (fun done r t => t.phase = .start ∧
      Depicts p (.early (p.givenRows ++ done.map .copy) done) t ∧ t.splits = s.splits ∧
      Traces r (done.map .copy))
    (s := { s with
      log := s.log.push (.starting "replace equality constraints" s.program.numConstraints
        s.program.numVariables) }) ?_ ⟨hphase, ?_, rfl, .nil⟩
  · obtain ⟨l, s', haccount, hdepicts, hsplits, htraces⟩ := account_step (·.program.equalities)
      hphase rfl (fun log => rfl) loop
    rw [hlist] at hdepicts htraces
    exact ⟨l, _, haccount, rfl, hdepicts.relabel _ _, hsplits, htraces⟩
  · rintro done i rest r t hl ⟨htphase, ht, htsplits, htraces⟩
    have hmem : i ∈ p.equalities := by
      rw [← hlist, hl]
      simp
    obtain ⟨c, hc, hsense⟩ := p.mem_equalities.mp hmem
    have hi : i < p.numConstraints := (Array.getElem?_eq_some_iff.mp hc).1
    have hgiven : (p.givenRows ++ done.map RowOrigin.copy)[i]? = some (.given i) := by
      rw [List.getElem?_append_left (by simpa [LinearProgram.givenRows] using hi)]
      exact p.getElem?_givenRows_eq_some.mpr ⟨hi, rfl⟩
    have hnew : i ∉ done := by
      have hnodup := hlist ▸ p.nodup_equalities
      rw [hl] at hnodup
      exact fun hdone => (List.nodup_append.mp hnodup).2.2 i hdone i List.mem_cons_self rfl
    have hequal : t.program.constraints[i]? = some ⟨.equal, p.rhsOf (.given i)⟩ := by
      rw [ht.constraint i _ hgiven]
      simp [Stage.early, LinearProgram.senseOf, hnew, hc, hsense]
    refine ⟨_, _, account_splitEquality ht.sound htphase hequal, htphase, ?_, htsplits, ?_⟩
    · have hhalved := ht.halved hgiven ?_ hequal
      · simpa using hhalved
      · intro a ha
        by_cases hlt : a < p.givenRows.length
        · rw [List.getElem?_append_left hlt] at ha
          exact RowOrigin.given.inj (p.getElem?_givenRows_eq_some.mp ha).2.symm
        · rw [List.getElem?_append_right (Nat.le_of_not_lt hlt)] at ha
          simp at ha
    · rw [List.map_append]
      exact htraces.append .equalityCopied
  · simpa [LinearProgram.stageAt] using h.relabel s.phase _

theorem run_splitEqualities (h : Depicts p (p.stageAt .start) s) (hphase : s.phase = .start) :
    ∃ s', splitEqualities.run s = .ok () s' ∧ s'.phase = .equalitiesSplit ∧
      Depicts p (p.stageAt .equalitiesSplit) s' ∧ s'.splits = s.splits := by
  obtain ⟨l, s', haccount, hphase', hs', hsplits, -⟩ := account_splitEqualities h hphase
  exact ⟨s', haccount.run, hphase', hs', hsplits⟩

/-! ### Bounds -/

section Bounds

variable {rows : List RowOrigin} {relaxed : List Nat} {j : Nat} {v : Variable f}

theorem account_split (h : Depicts p (.early rows relaxed) s)
    (hphase : ¬ .negativesFilled ≤ s.phase) (hj : j < s.program.numVariables) :
    ∃ k l s', Account (split j) s l k s' ∧ s'.phase = s.phase ∧
      Depicts p (.early rows relaxed) s' ∧ s'.splits = allot s.splits p.numVariables [j] ∧
      Traces l [] := by
  cases hk : s.splits.get? j with
  | some k =>
    exact ⟨k, [], s, account_split_again hphase hj hk, rfl, h,
      (allot_singleton_of_isSome (by simp [hk]) _).symm, .nil⟩
  | none =>
    refine ⟨_, _, _, account_split_first h.sound hphase h.size_slackBasis hj hk, rfl,
      h.divided hj hk, ?_, .split⟩
    have hlast : s.program.numVariables = p.numVariables + s.splits.size := h.numVariables
    rw [allot_singleton_of_none hk, ← hlast]
    rfl

theorem run_split (h : Depicts p (.early rows relaxed) s) (hphase : ¬ .negativesFilled ≤ s.phase)
    (hj : j < s.program.numVariables) : ∃ k s', (split j).run s = .ok k s' ∧ s'.phase = s.phase ∧
      Depicts p (.early rows relaxed) s' ∧ s'.splits = allot s.splits p.numVariables [j] := by
  obtain ⟨k, l, s', haccount, hphase', hs', hsplits, -⟩ := account_split h hphase hj
  exact ⟨k, s', haccount.run, hphase', hs', hsplits⟩

theorem account_addBoundRow_early (h : Depicts p (.early rows relaxed) s)
    (hphase : s.phase = .equalitiesSplit) (hv : p.vars[j]? = some v) {side : Side}
    (hside : side ∈ v.enforcedSides) :
    ∃ l s', Account (addBoundRow side (v.bound side) j) s l () s' ∧ s'.phase = s.phase ∧
      Depicts p (.early (rows ++ [.bound side j]) relaxed) s' ∧ s'.splits = s.splits ∧
      Traces l [.bound side j] :=
  ⟨_, _, account_addBoundRow h.sound hphase (h.vars_given_early hv) hside, rfl,
    h.enforced hv side, rfl, .boundEnforced⟩

theorem account_enforceLower (h : Depicts p (.early rows relaxed) s)
    (hphase : s.phase = .equalitiesSplit) (hv : p.vars[j]? = some v) :
    ∃ l s', Account (enforceLower v j) s l () s' ∧ s'.phase = s.phase ∧
      Depicts p (.early (rows ++
        if v.lowerIsZero || v.lowerIsInfinite then [] else [.bound .lower j]) relaxed) s' ∧
      s'.splits = allot s.splits p.numVariables (if v.lowerIsZero then [] else [j]) ∧
      Traces l (if v.lowerIsZero || v.lowerIsInfinite then [] else [.bound .lower j]) := by
  have hj := h.lt_numVariables_of_given hv
  unfold enforceLower
  cases hzero : v.lowerIsZero with
  | true =>
    refine ⟨[], s, .pure () s, rfl, ?_, rfl, .nil⟩
    simpa using h
  | false =>
    obtain ⟨k, l, t, hsplit, htphase, ht, htsplits, htraces⟩ :=
      account_split h (by rw [hphase]; decide) hj
    rw [if_neg Bool.false_ne_true]
    cases hinf : v.lowerIsInfinite with
    | true =>
      refine ⟨l ++ [], t, hsplit.bind (.pure () t), htphase, ?_, htsplits, ?_⟩
      · simpa using ht
      · simpa using htraces
    | false =>
      have hside : .lower ∈ v.enforcedSides := by simp [Variable.enforcedSides, hzero, hinf]
      obtain ⟨l', s', hadd, hphase', hs', hsplits, htraces'⟩ :=
        account_addBoundRow_early ht (htphase.trans hphase) hv hside
      exact ⟨l ++ l', s', hsplit.bind hadd, hphase'.trans htphase, hs', hsplits.trans htsplits,
        htraces.append htraces'⟩

theorem account_enforceUpper (h : Depicts p (.early rows relaxed) s)
    (hphase : s.phase = .equalitiesSplit) (hv : p.vars[j]? = some v) :
    ∃ l s', Account (enforceUpper v j) s l () s' ∧ s'.phase = s.phase ∧
      Depicts p (.early (rows ++ if v.upperIsInfinite then [] else [.bound .upper j]) relaxed) s' ∧
      s'.splits = allot s.splits p.numVariables (if v.upperIsInfinite then [] else [j]) ∧
      Traces l (if v.upperIsInfinite then [] else [.bound .upper j]) := by
  have hj := h.lt_numVariables_of_given hv
  unfold enforceUpper
  cases hinf : v.upperIsInfinite with
  | true =>
    refine ⟨[], s, .pure () s, rfl, ?_, rfl, .nil⟩
    simpa using h
  | false =>
    have hside : .upper ∈ v.enforcedSides := by simp [Variable.enforcedSides, hinf]
    obtain ⟨k, l, t, hsplit, htphase, ht, htsplits, htraces⟩ :=
      account_split h (by rw [hphase]; decide) hj
    obtain ⟨l', s', hadd, hphase', hs', hsplits, htraces'⟩ :=
        account_addBoundRow_early ht (htphase.trans hphase) hv hside
    rw [if_neg Bool.false_ne_true]
    exact ⟨l ++ l', s', hsplit.bind hadd, hphase'.trans htphase, hs', hsplits.trans htsplits,
      htraces.append htraces'⟩

theorem account_variableAt (hv : s.program.vars[j]? = some v) :
    Account (consult (·.variableAt j)) s [] v s :=
  .silent (.consult _) (run_consult_of_ok (s.program.variableAt_eq hv)) (.idle s)

/-- A column beyond the program at first is a negative part, which has no bounds to enforce. -/
theorem account_enforceBoundsOf (h : Depicts p (.early rows relaxed) s)
    (hphase : s.phase = .equalitiesSplit) (hj : j < s.program.numVariables) :
    ∃ l s', Account (enforceBoundsOf j) s l () s' ∧ s'.phase = s.phase ∧
      Depicts p (.early (rows ++ p.boundRowsOf j) relaxed) s' ∧
      s'.splits = allot s.splits p.numVariables
        (if p.vars[j]?.any (·.isBounded) then [j] else []) ∧ Traces l (p.boundRowsOf j) := by
  obtain hgiven | ⟨i, hi⟩ := h.column_cases_early hj
  · have hv : p.vars[j]? = some p.vars[j] := Array.getElem?_eq_getElem hgiven
    generalize p.vars[j] = v at hv
    have hrows : p.boundRowsOf j =
        (if v.lowerIsZero || v.lowerIsInfinite then [] else [.bound .lower j]) ++
          if v.upperIsInfinite then [] else [.bound .upper j] := by
      rw [LinearProgram.boundRowsOf, hv, Option.elim_some, Variable.enforcedSides, List.map_append]
      congr 1 <;> split <;> rfl
    obtain ⟨l, t, hlower, htphase, ht, htsplits, htraces⟩ := account_enforceLower h hphase hv
    obtain ⟨l', s', hupper, hphase', hs', hsplits, htraces'⟩ :=
      account_enforceUpper ht (htphase.trans hphase) hv
    refine ⟨_, s', (account_variableAt (h.vars_given_early hv)).bind (hlower.bind hupper),
      hphase'.trans htphase, ?_, ?_, ?_⟩
    · rw [hrows, ← List.append_assoc]
      exact hs'
    · rw [hsplits, htsplits, ← allot_append, hv, Option.any_some, Variable.isBounded]
      cases v.lowerIsZero <;> cases v.upperIsInfinite <;> simp [allot_pair]
    · rw [hrows]
      exact htraces.append htraces'
  · have hle : p.numVariables ≤ j := (h.allotment.bounds hi).1
    have hbounded := Variable.isBounded_nonnegative (f := f)
    simp only [Variable.isBounded, Bool.or_eq_false_iff, Bool.not_eq_false'] at hbounded
    have hnothing : Account (enforceLower .nonnegative j >>= fun _ => enforceUpper .nonnegative j)
        s [] () s := by
      rw [enforceLower, enforceUpper, if_pos hbounded.1, if_pos hbounded.2]
      exact (Account.pure () s).bind (.pure () s)
    refine ⟨_, s, (account_variableAt (h.vars_negative_early hi)).bind hnothing, rfl, ?_, ?_, ?_⟩
    · rw [p.boundRowsOf_of_le hle, List.append_nil]
      exact h
    · rw [Array.getElem?_eq_none hle]
      rfl
    · rw [p.boundRowsOf_of_le hle]
      exact .nil

/-- The second step: the bounds other than `x ≥ 0` are rows, and their variables are split. -/
theorem account_enforceBounds (h : Depicts p (p.stageAt .equalitiesSplit) s)
    (hphase : s.phase = .equalitiesSplit) :
    ∃ l s', Account enforceBounds s (.starting "handle bounds" s.program.numConstraints
        s.program.numVariables :: l) () s' ∧ s'.phase = .boundsEnforced ∧
      Depicts p (p.stageAt .boundsEnforced) s' ∧
      s'.splits = allot s.splits p.numVariables p.boundedVars ∧ Traces l p.boundRows := by
  have hcount : s.program.numVariables = p.numVariables + s.splits.size := h.numVariables
  have hle : p.numVariables ≤ s.program.numVariables := by omega
  -- columns that were split by hand are visited as well, but not those that the loop appends
  have loop := account_forM_range enforceBoundsOf s.program.numVariables
    (fun n r t => t.phase = .equalitiesSplit ∧
      Depicts p (.early (p.givenRows ++ p.copyRows ++ p.boundRowsBelow n) p.equalities) t ∧
      t.splits = allot s.splits p.numVariables (p.boundedBelow n) ∧
      Traces r (p.boundRowsBelow n))
    (s := { s with
      log := s.log.push (.starting "handle bounds" s.program.numConstraints
        s.program.numVariables) }) ?_ ⟨hphase, ?_, rfl, .nil⟩
  · obtain ⟨l, s', haccount, hdepicts, hsplits, htraces⟩ := account_step
      (fun s => List.range s.program.numVariables) hphase rfl (fun log => rfl) loop
    rw [p.boundRowsBelow_of_le hle] at hdepicts htraces
    rw [p.boundedBelow_of_le hle] at hsplits
    exact ⟨l, _, haccount, rfl, hdepicts.relabel _ _, hsplits, htraces⟩
  · rintro j r t hj ⟨htphase, ht, htsplits, htraces⟩
    have htcount : t.program.numVariables = p.numVariables + t.splits.size := ht.numVariables
    have hsize := size_le_size_allot s.splits p.numVariables (p.boundedBelow j)
    rw [← htsplits] at hsize
    obtain ⟨l, s', haccount, hphase', hs', hsplits, htraces'⟩ :=
      account_enforceBoundsOf ht htphase (j := j) (by omega)
    refine ⟨l, s', haccount, hphase'.trans htphase, ?_, ?_, ?_⟩
    · rw [p.boundRowsBelow_succ, ← List.append_assoc]
      exact hs'
    · rw [hsplits, htsplits, ← allot_append, p.boundedBelow_succ]
    · rw [p.boundRowsBelow_succ]
      exact htraces.append htraces'
  · simpa [LinearProgram.stageAt, LinearProgram.boundRowsBelow] using h.relabel s.phase _

theorem run_enforceBounds (h : Depicts p (p.stageAt .equalitiesSplit) s)
    (hphase : s.phase = .equalitiesSplit) :
    ∃ s', enforceBounds.run s = .ok () s' ∧ s'.phase = .boundsEnforced ∧
      Depicts p (p.stageAt .boundsEnforced) s' ∧
      s'.splits = allot s.splits p.numVariables p.boundedVars := by
  obtain ⟨l, s', haccount, hphase', hs', hsplits, -⟩ := account_enforceBounds h hphase
  exact ⟨s', haccount.run, hphase', hs', hsplits⟩

end Bounds

/-! ### Negative parts and slacks -/

/-- The third step: every negative part is the opposite of its variable. -/
theorem account_fillNegatives (h : Depicts p (p.stageAt .boundsEnforced) s)
    (hphase : s.phase = .boundsEnforced) :
    ∃ l s', Account fillNegatives s (.starting "replace variables" s.program.numConstraints
        s.program.numVariables :: l) () s' ∧ s'.phase = .negativesFilled ∧
      Depicts p (p.stageAt .negativesFilled) s' ∧ s'.splits = s.splits ∧ Traces l [] := by
  -- the entries are in increasing order, so whatever is filled is below the next pair
  have loop := account_forM (fun e : Nat × Nat => fillNegative e.1 e.2) s.splits.entries
    (fun done r t => t.phase = .boundsEnforced ∧
      Depicts p ⟨p.plan, p.equalities, fun j => decide (j ∈ done.map Prod.fst), 0⟩ t ∧
      t.splits = s.splits ∧ Traces r [])
    (s := { s with
      log := s.log.push (.starting "replace variables" s.program.numConstraints
        s.program.numVariables) }) ?_ ⟨hphase, ?_, rfl, .nil⟩
  · obtain ⟨l, s', haccount, hdepicts, hsplits, htraces⟩ := account_step (·.splits.entries)
      hphase rfl (fun log => rfl) loop
    refine ⟨l, _, haccount, rfl, Depicts.congr_filled (hdepicts.relabel _ _) ?_, hsplits, htraces⟩
    intro j k hk
    change s'.splits.get? j = some k at hk
    rw [hsplits, IndexMap.get?_eq_some_iff h.allotment.sorted] at hk
    exact decide_eq_true (List.mem_map.mpr ⟨(j, k), hk, rfl⟩)
  · rintro done ⟨j, k⟩ rest r t hl ⟨htphase, ht, htsplits, htraces⟩
    have hsorted := h.allotment.sorted
    rw [IndexMap.Sorted, hl] at hsorted
    have hk : t.splits.get? j = some k := by
      rw [htsplits, IndexMap.get?_eq_some_iff h.allotment.sorted, hl]
      simp
    have hlt := ht.lt_numVariables hk
    have hv : t.program.vars[j]? = some _ :=
      Array.getElem?_eq_getElem (Nat.lt_trans (ht.allotment.lt hk) hlt)
    refine ⟨[], _, account_fillNegative ht.sound (by rw [htphase]; decide) hv hlt, htphase, ?_,
      htsplits, htraces.append .nil⟩
    refine (ht.filled hk hv ?_).congr_filled ?_
    · intro i l _ hi
      obtain ⟨e, he, rfl⟩ := List.mem_map.mp (of_decide_eq_true hi)
      exact (List.pairwise_append.mp hsorted).2.2 e he (j, k) List.mem_cons_self
    · intro i l _
      rw [Bool.eq_iff_iff]
      simp [List.mem_append, or_comm]
  · simpa [LinearProgram.stageAt, Stage.early] using h.relabel s.phase _

theorem run_fillNegatives (h : Depicts p (p.stageAt .boundsEnforced) s)
    (hphase : s.phase = .boundsEnforced) :
    ∃ s', fillNegatives.run s = .ok () s' ∧ s'.phase = .negativesFilled ∧
      Depicts p (p.stageAt .negativesFilled) s' ∧ s'.splits = s.splits := by
  obtain ⟨l, s', haccount, hphase', hs', hsplits, -⟩ := account_fillNegatives h hphase
  exact ⟨s', haccount.run, hphase', hs', hsplits⟩

/-- The last step: every row is an equality with a slack of its own. -/
theorem account_addSlacks (h : Depicts p (p.stageAt .negativesFilled) s)
    (hphase : s.phase = .negativesFilled) :
    ∃ l s', Account addSlacks s (.starting "handle sense" s.program.numConstraints
        s.program.numVariables :: l) () s' ∧ s'.phase = .slacksAdded ∧
      Depicts p (p.stageAt .slacksAdded) s' ∧ s'.splits = s.splits ∧ Traces l [] := by
  have loop := account_forM_range addSlack s.program.numConstraints
    (fun n r t => t.phase = .negativesFilled ∧
      Depicts p ⟨p.plan, p.equalities, fun _ => true, n⟩ t ∧ t.splits = s.splits ∧ Traces r [])
    (s := { s with
      log := s.log.push (.starting "handle sense" s.program.numConstraints
        s.program.numVariables) }) ?_ ⟨hphase, h.relabel _ _, rfl, .nil⟩
  · obtain ⟨l, s', haccount, hdepicts, hsplits, htraces⟩ := account_step
      (fun s => List.range s.program.numConstraints) hphase rfl (fun log => rfl) loop
    rw [h.numConstraints] at hdepicts
    exact ⟨l, _, haccount, rfl, hdepicts.relabel _ _, hsplits, htraces⟩
  · rintro i r t hi ⟨htphase, ht, htsplits, htraces⟩
    rw [h.numConstraints] at hi
    have hr : p.plan[i]? = some _ := List.getElem?_eq_getElem hi
    have hc := ht.constraint i _ hr
    rw [if_neg (Nat.lt_irrefl i)] at hc
    exact ⟨[], _, account_addSlack ht.sound (by rw [htphase]; decide) hc (p.side?_senseOf _), htphase,
      ht.slackened hr, htsplits, htraces.append .nil⟩

theorem run_addSlacks (h : Depicts p (p.stageAt .negativesFilled) s)
    (hphase : s.phase = .negativesFilled) :
    ∃ s', addSlacks.run s = .ok () s' ∧ s'.phase = .slacksAdded ∧
      Depicts p (p.stageAt .slacksAdded) s' ∧ s'.splits = s.splits := by
  obtain ⟨l, s', haccount, hphase', hs', hsplits, -⟩ := account_addSlacks h hphase
  exact ⟨s', haccount.run, hphase', hs', hsplits⟩

end Reduction

end StandardLp
