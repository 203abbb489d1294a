import StandardLp.Proofs.Reduction.Columns
import StandardLp.Proofs.Reduction.Lines

/-!
The log of a reduction. Every call that succeeds has an account, and its records are what the call
adds to the log; all other calls add nothing. Over a whole run the log therefore tells which rows
and which negative parts there are, in the order in which they were appended, and what they were
made from.
-/

namespace StandardLp.Reduction

variable {f : Format} {p : LinearProgram f} {s s' : Reduction f} {c : Call} {reply : Reply}

/-- What the calls that are made from now on add to the log. A step announces itself with the size
of the program just before it. To take all steps at once is to take one after the other, and then
the census is reported. A call that fails changes nothing at all. -/
structure Announces (s : Reduction f) : Prop where
  account : ∀ c reply s', s.call c = (.ok reply, s') →
    ∃ l, Account (perform c) s l reply s' ∧ s'.log.toList = s.log.toList ++ l
  step : ∀ c reply s', c.numSteps = 1 → s.call c = (.ok reply, s') →
    ∃ l, (∀ r ∈ l, r.level = .trace) ∧ s'.log.toList = s.log.toList ++
      .starting c.operation s.program.numConstraints s.program.numVariables :: l
  steps : ∀ check reply s', s.call (.reduce check) = (.ok reply, s') → ∃ s₁ s₂ s₃ s₄,
    s.call .splitEqualities = (.ok .done, s₁) ∧ s₁.call .enforceBounds = (.ok .done, s₂) ∧
    s₂.call .fillNegatives = (.ok .done, s₃) ∧ s₃.call .addSlacks = (.ok .done, s₄) ∧
    s' = { s₄ with log := s'.log } ∧
    s'.log.toList = s₄.log.toList ++ .reduced s₄.census :: if check then [.valid] else []
  split : ∀ j reply s', s.splits.get? j = none → s.call (.split j) = (.ok reply, s') →
    reply = .column s.program.numVariables ∧ Tells s s' (.split j s.program.numVariables) ∧
      s'.log.toList = s.log.toList ++ [.split j s.program.numVariables]
  again : ∀ j k, s.splits.get? j = some k → (s.call (.split j)).2 = s
  refused : ∀ c e, (s.call c).1 = .error e → (s.call c).2 = s
  finished : ∀ F, s.finished.1 = .ok F → s.finished.2.log.toList = s.log.toList ++
    [.starting "finish" s.program.numConstraints s.program.numVariables]
  unfinished : ∀ e, s.finished.1 = .error e → s.finished.2 = s

/-- What row `k` shows of its origin `r`: the sense, until it is an equality with a slack, the
right-hand side and the coefficients at the variables of `p`. Until negative parts are filled it is
as it was when it was appended, and stores nothing else. -/
structure MadeFrom (p : LinearProgram f) (r : RowOrigin) (k : Nat) (s : Reduction f) : Prop where
  constraintAt : s.program.constraintAt k =
    .ok ⟨if s.phase = .slacksAdded then .equal else p.senseOf p.equalities r, p.rhsOf r⟩
  coefficient : ∀ j < p.numVariables,
    s.program.coefficient k j = .ok ((p.storedAt r j).getD 0)
  row : ¬ .negativesFilled ≤ s.phase → s.program.matrix.row k = .ok (p.rowOf r)

/-- What the log tells of the program. The records of level trace name rows and pairs. The rows
are those that were appended, one after the other, and the pairs are those of the split map, which
is built up again by entering them. A copied row is an equality of `p`, and a bound is one of `p`
that calls for a row. All of this is in the lines of the log. -/
structure Told (p : LinearProgram f) (s : Reduction f) : Prop where
  traced : ∀ r ∈ s.log.toList, r.level = .trace ↔ r.row?.isSome ∨ r.pair?.isSome
  rows : s.log.toList.filterMap Record.row? =
    (s.log.toList.filterMap Record.origin?).zipIdx p.numConstraints
  origins : (p.stageAt s.phase).rows = p.givenRows ++ s.log.toList.filterMap Record.origin?
  count : s.program.numConstraints =
    p.numConstraints + (s.log.toList.filterMap Record.origin?).length
  madeFrom : ∀ r k, (r, k) ∈ s.log.toList.filterMap Record.row? → MadeFrom p r k s
  copied : ∀ i k, .equalityCopied i k ∈ s.log.toList → ∃ b, p.constraintAt i = .ok ⟨.equal, b⟩
  bounded : ∀ side b j k, .boundEnforced side b j k ∈ s.log.toList →
    ∃ v, p.variableAt j = .ok v ∧ side ∈ v.enforcedSides ∧ b = v.bound side
  columns : (s.log.toList.filterMap Record.pair?).map Prod.snd =
    List.range' p.numVariables s.splits.size
  pairs : ∀ j k, s.splits.get? j = some k ↔ (j, k) ∈ s.log.toList.filterMap Record.pair?
  splits : s.splits = (s.log.toList.filterMap Record.pair?).foldl (fun m e => m.insert e.1 e.2) .empty
  lines : ∀ l : List (Record f), l.map Record.line = s.log.toList.map Record.line →
    l.filterMap Record.row? = s.log.toList.filterMap Record.row? ∧
      l.filterMap Record.pair? = s.log.toList.filterMap Record.pair?

/-! ### Accounts of the calls -/

theorem Traces.account_call {x : ReduceM f Unit} {r : Record f} {l : List (Record f)}
    {rows : List RowOrigin} (htraces : Traces l rows) (haccount : Account x s (r :: l) () s')
    (hrows : (p.stageAt s'.phase).rows = (p.stageAt s.phase).rows ++ rows) :
    ∃ l s', Account (do x; return .done : ReduceM f Reply) s (r :: l) .done s' ∧
      (∀ r ∈ l, r.level = .trace) ∧ (p.stageAt s'.phase).rows =
        (p.stageAt s.phase).rows ++ l.filterMap Record.origin? := by
  have hdone := haccount.seq (.pure Reply.done s')
  rw [List.append_nil] at hdone
  exact ⟨l, s', hdone, htraces.level, htraces.origins.symm ▸ hrows⟩

theorem Reduces.account_step (h : Reduces p s) (hsteps : c.numSteps = 1)
    (horder : c.InOrder s.phase) : ∃ l s', Account (perform c) s (.starting c.operation
        s.program.numConstraints s.program.numVariables :: l) .done s' ∧
      (∀ r ∈ l, r.level = .trace) ∧ (p.stageAt s'.phase).rows =
        (p.stageAt s.phase).rows ++ l.filterMap Record.origin? := by
  cases c with
  | splitEqualities =>
    obtain ⟨l, s', haccount, hphase, -, -, htraces⟩ :=
      account_splitEqualities (h.depicts_of_phase horder) horder
    exact htraces.account_call haccount (by rw [hphase, horder]; rfl)
  | enforceBounds =>
    obtain ⟨l, s', haccount, hphase, -, -, htraces⟩ :=
      account_enforceBounds (h.depicts_of_phase horder) horder
    exact htraces.account_call haccount (by rw [hphase, horder]; rfl)
  | fillNegatives =>
    obtain ⟨l, s', haccount, hphase, -, -, htraces⟩ :=
      account_fillNegatives (h.depicts_of_phase horder) horder
    exact htraces.account_call haccount (by rw [hphase, horder, List.append_nil]; rfl)
  | addSlacks =>
    obtain ⟨l, s', haccount, hphase, -, -, htraces⟩ :=
      account_addSlacks (h.depicts_of_phase horder) horder
    exact htraces.account_call haccount (by rw [hphase, horder, List.append_nil]; rfl)
  | reduce check => cases hsteps
  | split j => cases hsteps

theorem account_perform_reduce (h : Depicts p (p.stageAt .start) s) (hphase : s.phase = .start)
    (check : Bool) : ∃ l s₁ s₂ s₃ s₄ log,
      s.call .splitEqualities = (.ok .done, s₁) ∧ s₁.call .enforceBounds = (.ok .done, s₂) ∧
      s₂.call .fillNegatives = (.ok .done, s₃) ∧ s₃.call .addSlacks = (.ok .done, s₄) ∧
      s₄.phase = .slacksAdded ∧
      log.toList = s₄.log.toList ++ .reduced s₄.census :: (if check then [.valid] else []) ∧
      Account (perform (.reduce check)) s l (.basis s₄.slackBasis) { s₄ with log := log } ∧
      l.filterMap Record.origin? = p.copyRows ++ p.boundRows := by
  obtain ⟨l₁, s₁, haccount₁, hphase₁, h₁, -, htraces₁⟩ := account_splitEqualities h hphase
  obtain ⟨l₂, s₂, haccount₂, hphase₂, h₂, -, htraces₂⟩ := account_enforceBounds h₁ hphase₁
  obtain ⟨l₃, s₃, haccount₃, hphase₃, h₃, -, htraces₃⟩ := account_fillNegatives h₂ hphase₂
  obtain ⟨l₄, s₄, haccount₄, hphase₄, h₄, -, htraces₄⟩ := account_addSlacks h₃ hphase₃
  obtain ⟨log, hreport⟩ := account_report h₄ check
  have haccount := haccount₁.seq (haccount₂.seq (haccount₃.seq (haccount₄.seq hreport)))
  refine ⟨_, s₁, s₂, s₃, s₄, log, call_of_ok (run_bind_of_ok haccount₁.run),
    call_of_ok (run_bind_of_ok haccount₂.run), call_of_ok (run_bind_of_ok haccount₃.run),
    call_of_ok (run_bind_of_ok haccount₄.run), hphase₄, hreport.log, haccount.map, ?_⟩
  have htail : (.reduced s₄.census :: if check then [.valid] else [] : List (Record f)).filterMap
      Record.origin? = [] := by
    cases check <;> rfl
  rw [List.filterMap_append, List.filterMap_append, List.filterMap_append, List.filterMap_append,
    htail]
  change l₁.filterMap Record.origin? ++ (l₂.filterMap Record.origin? ++
    (l₃.filterMap Record.origin? ++ (l₄.filterMap Record.origin? ++ []))) = _
  rw [htraces₁.origins, htraces₂.origins, htraces₃.origins, htraces₄.origins]
  simp

theorem Reduces.account_split_first (h : Reduces p s) {j : Nat}
    (horder : (Call.split j).InOrder s.phase) (hj : j < s.program.numVariables)
    (hnew : s.splits.get? j = none) :
    Account (perform (.split j)) s [.split j s.program.numVariables]
      (.column s.program.numVariables) (s.divided j) := by
  obtain ⟨rows, relaxed, hs⟩ := h.exists_depicts_early horder
  exact (Reduction.account_split_first hs.sound horder hs.size_slackBasis hj hnew).map

/-- A call that succeeds has an account, and it traces the rows that come up with it. -/
theorem Reduces.exists_account (h : Reduces p s) (hcall : s.call c = (.ok reply, s')) :
    ∃ l, Account (perform c) s l reply s' ∧ (p.stageAt s'.phase).rows =
      (p.stageAt s.phase).rows ++ l.filterMap Record.origin? := by
  suffices hperform : ∃ l reply s', Account (perform c) s l reply s' ∧ (p.stageAt s'.phase).rows =
      (p.stageAt s.phase).rows ++ l.filterMap Record.origin? by
    obtain ⟨l, reply', t, haccount, hrows⟩ := hperform
    cases (call_of_ok haccount.run).symm.trans hcall
    exact ⟨l, haccount, hrows⟩
  have horder : c.InOrder s.phase := by
    obtain ⟨horder, -⟩ | ⟨e, he⟩ := h.call_cases c
    · exact horder
    · cases he.symm.trans hcall
  by_cases hsteps : c.numSteps = 1
  · obtain ⟨l, t, haccount, -, hrows⟩ := h.account_step hsteps horder
    exact ⟨_, _, t, haccount, hrows⟩
  cases c with
  | reduce check =>
    obtain ⟨l, s₁, s₂, s₃, s₄, log, -, -, -, -, hphase, -, haccount, horigins⟩ :=
      account_perform_reduce (h.depicts_of_phase horder) horder check
    refine ⟨l, _, _, haccount, ?_⟩
    rw [hphase, horder, horigins]
    exact List.append_assoc ..
  | split j =>
    by_cases hj : j < s.program.numVariables
    · obtain ⟨rows, relaxed, hstage⟩ := p.exists_stageAt_eq_early horder
      obtain ⟨k, l, t, haccount, hphase, -, -, htraces⟩ :=
        account_split (hstage ▸ h.depicts) horder hj
      refine ⟨l, _, t, haccount.map, ?_⟩
      rw [hphase, htraces.origins, List.append_nil]
    · cases (call_of_error
        (run_perform_split_out_of_range horder (Nat.le_of_not_lt hj))).symm.trans hcall
  | _ => exact absurd rfl hsteps

theorem Reduces.announces (h : Reduces p s) : s.Announces where
  account c reply s' hcall := by
    obtain ⟨l, haccount, -⟩ := h.exists_account hcall
    exact ⟨l, haccount, haccount.log⟩
  step c reply s' hsteps hcall := by
    obtain ⟨horder, -⟩ | ⟨e, he⟩ := h.call_cases c
    · obtain ⟨l, t, haccount, hlevel, -⟩ := h.account_step hsteps horder
      cases (call_of_ok haccount.run).symm.trans hcall
      exact ⟨l, hlevel, haccount.log⟩
    · cases he.symm.trans hcall
  steps check reply s' hcall := by
    obtain ⟨horder, -⟩ | ⟨e, he⟩ := h.call_cases (.reduce check)
    · obtain ⟨l, s₁, s₂, s₃, s₄, log, h₁, h₂, h₃, h₄, -, hlog, haccount, -⟩ :=
        account_perform_reduce (h.depicts_of_phase horder) horder check
      cases (call_of_ok haccount.run).symm.trans hcall
      exact ⟨s₁, s₂, s₃, s₄, h₁, h₂, h₃, h₄, rfl, hlog⟩
    · cases he.symm.trans hcall
  split j reply s' hnew hcall := by
    obtain ⟨horder, -⟩ | ⟨e, he⟩ := h.call_cases (.split j)
    · by_cases hj : j < s.program.numVariables
      · obtain ⟨rows, relaxed, hs⟩ := h.exists_depicts_early horder
        have haccount := h.account_split_first horder hj hnew
        cases (call_of_ok haccount.run).symm.trans hcall
        exact ⟨rfl, tells_divided hs.sound horder hs.size_slackBasis hj hnew, haccount.log⟩
      · cases (call_of_error
          (run_perform_split_out_of_range horder (Nat.le_of_not_lt hj))).symm.trans hcall
    · cases he.symm.trans hcall
  again j k hk := by rw [h.call_split_again hk]
  refused c e he := by
    obtain ⟨-, reply, s', hcall, -⟩ | ⟨e', hcall⟩ := h.call_cases c
    · rw [hcall] at he
      cases he
    · rw [hcall]
  finished F hF := by
    by_cases hphase : s.phase = .slacksAdded
    · rw [Reduction.finished, run_finish hphase]
      exact Array.toList_push ..
    · rw [h.followsProtocol.unfinished hphase] at hF
      cases hF
  unfinished e he := by
    by_cases hphase : s.phase = .slacksAdded
    · rw [h.followsProtocol.finished hphase] at he
      cases he
    · rw [h.followsProtocol.unfinished hphase]

/-! ### Runs -/

theorem getElem?_rows_of_named {l : List (Record f)} {rows : List RowOrigin} {r : RowOrigin} {k : Nat}
    (hrows : l.filterMap Record.row? = (l.filterMap Record.origin?).zipIdx p.numConstraints)
    (horigins : rows = p.givenRows ++ l.filterMap Record.origin?)
    (hmem : (r, k) ∈ l.filterMap Record.row?) : rows[k]? = some r := by
  rw [hrows, List.mk_mem_zipIdx_iff_le_and_getElem?_sub] at hmem
  obtain ⟨hk, hr⟩ := hmem
  rw [horigins, List.getElem?_append_right (by rwa [p.length_givenRows]), p.length_givenRows]
  exact hr

/-- Before negative parts are filled a row stores what it was appended with. -/
theorem Depicts.row_early (hp : p.Sound) {rows : List RowOrigin} {relaxed : List Nat}
    (h : Depicts p (.early rows relaxed) s) {r : RowOrigin} {k : Nat} (hr : rows[k]? = some r)
    (hplan : r ∈ p.plan) : s.program.matrix.row k = .ok (p.rowOf r) := by
  have hk : k < s.program.matrix.numRows := by
    rw [h.sound.shaped.rows, h.numConstraints]
    exact (List.getElem?_eq_some_iff.mp hr).1
  -- beyond the columns of `p` the plan has nothing, and the negative parts are blank
  have hnothing : ∀ j, p.numVariables ≤ j → p.storedAt r j = none := by
    intro j hj
    cases r with
    | given i | copy i => exact hp.matrix.stored_of_le_column (hp.shaped.columns ▸ hj) i
    | bound side l =>
      obtain ⟨v, hv, -⟩ := LinearProgram.bound_mem_plan.mp hplan
      have hl : l < p.numVariables := (Array.getElem?_eq_some_iff.mp hv).1
      exact if_neg (by omega)
  have hsorted : (p.rowOf r).Sorted := by
    cases r with
    | given i | copy i => exact hp.matrix.sorted_row i
    | bound side l => exact List.pairwise_singleton ..
  rw [SparseMatrix.row_eq, if_pos hk]
  refine congrArg Except.ok (IndexMap.ext_get? (h.sound.matrix.sorted_row k) hsorted fun j => ?_)
  rw [p.get?_rowOf]
  by_cases hj : j < p.numVariables
  · exact h.stored_given k r hr j hj
  · rw [hnothing j (Nat.le_of_not_lt hj)]
    exact h.stored_early (Nat.le_of_not_lt hj) k

theorem Reduces.madeFrom (h : Reduces p s) (hp : p.Sound) {r : RowOrigin} {k : Nat}
    (hr : (p.stageAt s.phase).rows[k]? = some r) (hnew : ∀ i, r ≠ .given i) :
    MadeFrom p r k s where
  constraintAt := by
    have hsense : p.senseOf (p.stageAt s.phase).relaxed r = p.senseOf p.equalities r := by
      cases r with
      | given i => exact absurd rfl (hnew i)
      | _ => rfl
    -- rows get their slacks in one step, so either all of them have one or none has
    have hslack : k < (p.stageAt s.phase).slacks ↔ s.phase = .slacksAdded := by
      constructor
      · intro hk
        by_contra hne
        rw [p.slacks_stageAt_of_ne hne] at hk
        exact Nat.not_lt_zero k hk
      · intro hphase
        rw [hphase] at hr ⊢
        exact (List.getElem?_eq_some_iff.mp hr).1
    rw [s.program.constraintAt_eq (h.depicts.constraint k r hr), hsense, if_congr hslack rfl rfl]
  coefficient j hj := by
    have hk : k < s.program.matrix.numRows := by
      rw [h.depicts.sound.shaped.rows, h.depicts.numConstraints]
      exact (List.getElem?_eq_some_iff.mp hr).1
    have hcolumn : j < s.program.matrix.numColumns := by
      rw [h.depicts.sound.shaped.columns, h.depicts.numVariables]
      omega
    rw [s.program.coefficient_eq hk hcolumn, SparseMatrix.entry_eq,
      h.depicts.stored_given k r hr j hj]
  row hphase := by
    obtain ⟨rows, relaxed, hstage⟩ := p.exists_stageAt_eq_early hphase
    have hplan := p.rows_stageAt_subset s.phase (List.mem_of_getElem? hr)
    rw [hstage] at hr
    exact (hstage ▸ h.depicts).row_early hp hr hplan

theorem Reduces.told (h : Reduces p s) (hp : p.Sound)
    (hrows : s.log.toList.filterMap Record.row? =
      (s.log.toList.filterMap Record.origin?).zipIdx p.numConstraints)
    (horigins : (p.stageAt s.phase).rows = p.givenRows ++ s.log.toList.filterMap Record.origin?)
    (hbounds : ∀ side b j k, .boundEnforced side b j k ∈ s.log.toList → b = p.rhsOf (.bound side j))
    (hcolumns : (s.log.toList.filterMap Record.pair?).map Prod.snd =
      List.range' p.numVariables s.splits.size)
    (hpairs : ∀ j k, s.splits.get? j = some k ↔ (j, k) ∈ s.log.toList.filterMap Record.pair?)
    (hsplits : s.splits =
      (s.log.toList.filterMap Record.pair?).foldl (fun m e => m.insert e.1 e.2) .empty) :
    Told p s where
  traced _ _ := Record.level_eq_trace_iff
  rows := hrows
  origins := horigins
  count := by rw [h.depicts.numConstraints, horigins, List.length_append, p.length_givenRows]
  madeFrom r k hmem := by
    refine h.madeFrom hp (getElem?_rows_of_named hrows horigins hmem) ?_
    rintro i rfl
    obtain ⟨record, -, hrecord⟩ := List.mem_filterMap.mp hmem
    cases record <;> cases hrecord
  copied i k hmem := by
    have hnamed : (.copy i, k) ∈ s.log.toList.filterMap Record.row? :=
      List.mem_filterMap.mpr ⟨_, hmem, rfl⟩
    have hr := getElem?_rows_of_named hrows horigins hnamed
    obtain ⟨c, hc, hsense⟩ := LinearProgram.copy_mem_plan.mp
      (p.rows_stageAt_subset s.phase (List.mem_of_getElem? hr))
    exact ⟨c.rhs, hsense ▸ p.constraintAt_eq hc⟩
  bounded side b j k hmem := by
    have hnamed : (.bound side j, k) ∈ s.log.toList.filterMap Record.row? :=
      List.mem_filterMap.mpr ⟨_, hmem, rfl⟩
    have hr := getElem?_rows_of_named hrows horigins hnamed
    obtain ⟨v, hv, hside⟩ := LinearProgram.bound_mem_plan.mp
      (p.rows_stageAt_subset s.phase (List.mem_of_getElem? hr))
    refine ⟨v, p.variableAt_eq hv, hside, ?_⟩
    rw [hbounds side b j k hmem, LinearProgram.rhsOf, hv, Option.elim_some]
  columns := hcolumns
  pairs := hpairs
  splits := hsplits
  lines _ hlines := Record.filterMap_names_eq_of_lines_eq hlines

theorem told_start (hp : p.Sound) : Told p (start p) :=
  (reduces_start hp).told hp rfl (List.append_nil _).symm nofun rfl
    (fun _ _ => iff_of_false nofun List.not_mem_nil) rfl

/-- What is told stays told, and every call goes on where the one before has stopped. -/
theorem Told.call (htold : Told p s) (h : Reduces p s) (hp : p.Sound)
    (hcall : s.call c = (.ok reply, s')) : Told p s' := by
  have h' : Reduces p s' := by
    have hkept := h.call c
    rwa [hcall] at hkept
  obtain ⟨l, haccount, hstage⟩ := h.exists_account hcall
  have hrows : s'.log.toList.filterMap Record.row? =
      (s'.log.toList.filterMap Record.origin?).zipIdx p.numConstraints := by
    rw [haccount.log, List.filterMap_append, List.filterMap_append, htold.rows, haccount.rows.1,
      List.zipIdx_append, htold.count]
  have horigins : (p.stageAt s'.phase).rows =
      p.givenRows ++ s'.log.toList.filterMap Record.origin? := by
    rw [hstage, htold.origins, haccount.log, List.filterMap_append, List.append_assoc]
  -- the negative parts of this call come right after those that are there
  have hcolumns := haccount.columns (n := p.numVariables + s.splits.size)
    (by rw [h.depicts.numVariables, h.depicts.size_slackBasis])
  have hsize : s'.splits.size = s.splits.size + (l.filterMap Record.pair?).length := by
    have hcount := hcolumns.2
    have hslacks := h'.depicts.size_slackBasis
    have hnum' := h'.depicts.numVariables
    omega
  refine h'.told hp hrows horigins ?bounds ?columns ?pairs ?splits
  case bounds =>
    intro side b j k hmem
    have hnamed : (.bound side j, k) ∈ s'.log.toList.filterMap Record.row? :=
      List.mem_filterMap.mpr ⟨_, hmem, rfl⟩
    rw [haccount.log] at hmem
    obtain hbefore | hnow := List.mem_append.mp hmem
    · obtain ⟨v, hv, -, rfl⟩ := htold.bounded side b j k hbefore
      rw [LinearProgram.rhsOf, p.variableAt_eq_ok_iff.mp hv, Option.elim_some]
    · -- the record has the right-hand side of its row, which is that of the plan
      obtain ⟨sense, hc⟩ := haccount.bound hnow
      have hrow := h'.depicts.constraint k _ (getElem?_rows_of_named hrows horigins hnamed)
      rw [s'.program.constraintAt_eq hrow] at hc
      cases hc
      rfl
  case columns =>
    rw [haccount.log, List.filterMap_append, List.map_append, htold.columns, hcolumns.1, hsize]
    exact List.range'_append_1 ..
  case pairs =>
    intro j k
    rw [haccount.get?_splits, htold.pairs, haccount.log, List.filterMap_append, List.mem_append]
  case splits =>
    rw [haccount.splits, haccount.log, List.filterMap_append, List.foldl_append, ← htold.splits]

theorem Reduces.told_run (h : Reduces p s) (hp : p.Sound) (htold : Told p s)
    (calls : List Call) : Told p (s.run calls) := by
  induction calls generalizing s with
  | nil => exact htold
  | cons c rest ih =>
    have htold' : Told p (s.call c).2 := by
      obtain ⟨-, reply, s', hcall, -⟩ | ⟨e, hcall⟩ := h.call_cases c
      · rw [hcall]
        exact htold.call h hp hcall
      · rwa [hcall]
    exact ih (h.call c) htold'

/-- At every moment of every run the log tells of all that has been appended so far, and it goes on
so with every further call. -/
theorem run_told (hp : p.Reachable) (calls : List Call) :
    Told p ((start p).run calls) ∧ ((start p).run calls).Announces :=
  have h := reduces_start hp.sound
  ⟨h.told_run hp.sound (told_start hp.sound) calls, (h.run calls).announces⟩

/-- One variable is split by hand, before and after the equality is copied, and a call is out of
order. The other variable is bounded on both sides. -/
theorem run_told_bounded :
    let p : LinearProgram .binary64 := {
      matrix := (SparseMatrix.zero 1 2).edited (.set 0 1 1)
      constraints := #[⟨.equal, 1⟩]
      vars := #[⟨-1, 1, 1⟩, .nonnegative] }
    let s := (start p).run [.split 1, .addSlacks, .splitEqualities, .split 1, .enforceBounds]
    s.log = #[.split 1 2, .starting "replace equality constraints" 1 3, .equalityCopied 0 1,
      .starting "handle bounds" 2 3, .split 0 3, .boundEnforced .lower (-1) 0 2,
      .boundEnforced .upper 1 0 3] ∧
    Told p s ∧ s.Announces ∧ (s.call (.split 0)).2 = s ∧
      s.program.constraintAt 2 = .ok ⟨.greater, -1⟩ ∧ s.program.matrix.row 2 = .ok ⟨[(0, 1)]⟩ := by
  intro p s
  have hm : p.matrix.Reachable := .edited (.zero 1 2) (.set 0 1 1)
  have hbuilt : LinearProgram.ofParts p.matrix #[.equal] #[1] #[(-1, 1), (0, .infinity)] #[1, 0] =
      .ok p := by decide +kernel
  obtain ⟨htold, hannounces⟩ := run_told (.built (.ofParts hm hbuilt))
    [.split 1, .addSlacks, .splitEqualities, .split 1, .enforceBounds]
  have hlog : s.log = #[.split 1 2, .starting "replace equality constraints" 1 3,
      .equalityCopied 0 1, .starting "handle bounds" 2 3, .split 0 3,
      .boundEnforced .lower (-1) 0 2, .boundEnforced .upper 1 0 3] := by decide +kernel
  have hmade : MadeFrom p (.bound .lower 0) 2 s := by
    apply htold.madeFrom
    rw [hlog]
    decide +kernel
  have hpair : s.splits.get? 0 = some 3 := (htold.pairs 0 3).mpr (by rw [hlog]; decide +kernel)
  refine ⟨hlog, htold, hannounces, hannounces.again 0 3 hpair, ?_, ?_⟩
  · exact hmade.constraintAt.trans (by decide +kernel)
  · exact hmade.row (by decide +kernel)

end StandardLp.Reduction
