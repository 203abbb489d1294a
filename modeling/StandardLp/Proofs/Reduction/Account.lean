import StandardLp.Proofs.Reduction.Progress

/-!
Accounts of runs. An account goes through a piece of code action by action, as the code takes them,
and through the states in between. An action either leaves no record, and then it appends no row
and no negative part, or it leaves one record, and then the record tells what the action has done:
the indices in it are those that the new row or column was given, and the row holds what the record
says of it. What can be read from the records of a run follows from this for all code at once.
-/

namespace StandardLp

variable {f : Format}

namespace Record

def row? : Record f → Option (RowOrigin × Nat)
  | equalityCopied i k => some (.copy i, k)
  | boundEnforced side _ j k => some (.bound side j, k)
  | _ => none

def origin? (r : Record f) : Option RowOrigin := r.row?.map Prod.fst

/-- The variable that the record says is split, with the column of its negative part. -/
def pair? : Record f → Option (Nat × Nat)
  | split j k => some (j, k)
  | _ => none

/-- The records that name a row or a pair are those of level trace. -/
theorem level_eq_trace_iff {r : Record f} :
    r.level = .trace ↔ r.row?.isSome ∨ r.pair?.isSome := by
  cases r <;> simp [level, row?, pair?]

end Record

namespace Reduction

variable {s t u : Reduction f}

/-! ### What a record tells -/

/-- So many rows, columns and slacks are appended. Slacks are columns that are not counted as such. -/
structure GrowsBy (rows columns slacks : Nat) (s t : Reduction f) : Prop where
  numConstraints : t.program.numConstraints = s.program.numConstraints + rows
  numVariables : t.program.numVariables = s.program.numVariables + columns + slacks
  slackBasis : t.slackBasis.size = s.slackBasis.size + slacks

/-- The rows, constraints and variables that are there stay as they are. Only the constraints in
`changed` may differ. -/
structure Leaves (changed : List Nat) (s t : Reduction f) : Prop where
  phase : t.phase = s.phase
  slackBasis : t.slackBasis = s.slackBasis
  row : ∀ k, k < s.program.numConstraints → t.program.matrix.row k = s.program.matrix.row k
  constraintAt : ∀ k, k < s.program.numConstraints → k ∉ changed →
    t.program.constraintAt k = s.program.constraintAt k
  variableAt : ∀ j, j < s.program.numVariables →
    t.program.variableAt j = s.program.variableAt j

/-- What there is to know of the moments before and after a record was written. -/
inductive Tells (s t : Reduction f) : Record f → Prop
  | starting {operation : String} (hrest : t = { s with log := t.log }) :
    Tells s t (.starting operation s.program.numConstraints s.program.numVariables)
  | equalityCopied {i : Nat} {b : Binary f} {v : SparseVector (Binary f)}
    (hphase : s.phase = .start) (hgrows : GrowsBy 1 0 0 s t) (hleaves : Leaves [i] s t)
    (hsplits : t.splits = s.splits) (hbefore : s.program.constraintAt i = .ok ⟨.equal, b⟩)
    (hless : t.program.constraintAt i = .ok ⟨.less, b⟩)
    (hgreater : t.program.constraintAt s.program.numConstraints = .ok ⟨.greater, b⟩)
    (hrow : s.program.matrix.row i = .ok v)
    (hcopy : t.program.matrix.row s.program.numConstraints = .ok v) :
    Tells s t (.equalityCopied i s.program.numConstraints)
  | boundEnforced {side : Side} {j : Nat} {v : Variable f} (hphase : s.phase = .equalitiesSplit)
    (hgrows : GrowsBy 1 0 0 s t) (hleaves : Leaves [] s t) (hsplits : t.splits = s.splits)
    (hv : s.program.variableAt j = .ok v) (hside : side ∈ v.enforcedSides)
    (hconstraint : t.program.constraintAt s.program.numConstraints = .ok ⟨side.sense, v.bound side⟩)
    (hrow : t.program.matrix.row s.program.numConstraints = .ok ⟨[(j, 1)]⟩) :
    Tells s t (.boundEnforced side (v.bound side) j s.program.numConstraints)
  | split {j : Nat} (hphase : ¬ .negativesFilled ≤ s.phase) (hgrows : GrowsBy 0 1 0 s t)
    (hleaves : Leaves [] s t) (hslacks : s.slackBasis.size = 0)
    (hj : j < s.program.numVariables) (hnew : s.splits.get? j = none)
    (hsplits : t.splits = s.splits.insert j s.program.numVariables)
    (hcolumn : t.program.coefficients s.program.numVariables = .ok .empty) :
    Tells s t (.split j s.program.numVariables)
  | reduced (hrest : t = { s with log := t.log }) : Tells s t (.reduced s.census)
  | valid (hrest : t = { s with log := t.log })
    (hcheck : s.program.checkBasis s.slackBasis = .ok ()) : Tells s t .valid

/-- Nothing is recorded. As long as rows are appended, nothing else happens either, except that a
phase is completed. Afterwards there are no more rows and negative parts, and the right-hand sides
stay. -/
inductive Silent : Reduction f → Reduction f → Prop
  | idle (s : Reduction f) : Silent s s
  | advanced {s : Reduction f} {phase : Phase} (hnext : s.phase.next? = some phase) :
    Silent s { s with phase := phase }
  | rewritten {s t : Reduction f} {slacks : Nat} (hphase : .boundsEnforced ≤ s.phase)
    (hsame : t.phase = s.phase) (hgrows : GrowsBy 0 0 slacks s t) (hsplits : t.splits = s.splits)
    (hlog : t.log = s.log) (hrhs : ∀ k c, s.program.constraintAt k = .ok c →
      ∃ sense, t.program.constraintAt k = .ok { c with sense := sense }) :
    Silent s t

/-- What the calls are made of. An account does not take these apart. -/
inductive Action : {β : Type} → ReduceM f β → Prop
  | pure {β : Type} (b : β) : Action (Pure.pure b)
  | get : Action MonadState.get
  | consult {β : Type} (read : LinearProgram f → Except IndexError β) : Action (consult read)
  | record (r : Record f) : Action (record r)
  | enter (operation : String) (phase : Phase) : Action (enter operation phase)
  | advance : Action advance
  | splitEquality (i : Nat) : Action (splitEquality i)
  | split (j : Nat) : Action (split j)
  | addBoundRow (side : Side) (bound : Binary f) (j : Nat) : Action (addBoundRow side bound j)
  | fillNegative (j k : Nat) : Action (fillNegative j k)
  | addSlack (i : Nat) : Action (addSlack i)
  | validate : Action validate

/-- The records in `l` account for the run of `x` that takes `s` to `t`. -/
inductive Account : {β : Type} → ReduceM f β → Reduction f → List (Record f) → β → Reduction f → Prop
  | silent {β : Type} {x : ReduceM f β} {s t : Reduction f} {b : β} (hx : Action x)
    (hrun : x.run s = .ok b t) (h : Silent s t) : Account x s [] b t
  | told {β : Type} {x : ReduceM f β} {s t : Reduction f} {b : β} {r : Record f} (hx : Action x)
    (hrun : x.run s = .ok b t) (h : Tells s t r) (hlog : t.log = s.log.push r) :
    Account x s [r] b t
  | bind {β γ : Type} {x : ReduceM f β} {g : β → ReduceM f γ} {s t u : Reduction f} {b : β} {c : γ}
    {l l' : List (Record f)} (hx : Account x s l b t) (hg : Account (g b) t l' c u) :
    Account (x >>= g) s (l ++ l') c u

/-- Only records of level trace, of rows that were made from `rows`. -/
structure Traces (l : List (Record f)) (rows : List RowOrigin) : Prop where
  level : ∀ r ∈ l, r.level = .trace
  origins : l.filterMap Record.origin? = rows

theorem GrowsBy.refl (s : Reduction f) : GrowsBy 0 0 0 s s := ⟨rfl, rfl, rfl⟩

namespace Silent

theorem grows (h : Silent s t) : ∃ slacks, GrowsBy 0 0 slacks s t := by
  cases h with
  | idle => exact ⟨0, .refl s⟩
  | advanced => exact ⟨0, rfl, rfl, rfl⟩
  | rewritten _ _ hgrows => exact ⟨_, hgrows⟩

theorem splits (h : Silent s t) : t.splits = s.splits := by
  cases h with
  | rewritten _ _ _ hsplits => exact hsplits
  | _ => rfl

theorem log (h : Silent s t) : t.log = s.log := by
  cases h with
  | rewritten _ _ _ _ hlog => exact hlog
  | _ => rfl

theorem rhs (h : Silent s t) {k : Nat} {c : Constraint f} (hc : s.program.constraintAt k = .ok c) :
    ∃ sense, t.program.constraintAt k = .ok { c with sense := sense } := by
  cases h with
  | rewritten _ _ _ _ _ hrhs => exact hrhs k c hc
  | _ => exact ⟨c.sense, hc⟩

end Silent

/-! ### What an account says -/

namespace Account

variable {β : Type} {x : ReduceM f β} {l : List (Record f)} {b : β}

theorem pure (b : β) (s : Reduction f) : Account (Pure.pure b) s [] b s :=
  .silent (.pure b) rfl (.idle s)

theorem get (s : Reduction f) : Account MonadState.get s [] s s := .silent .get rfl (.idle s)

theorem seq {γ : Type} {x : ReduceM f Unit} {y : ReduceM f γ} {l l' : List (Record f)} {c : γ}
    (hx : Account x s l () t) (hy : Account y t l' c u) :
    Account (x >>= fun _ => y) s (l ++ l') c u :=
  hx.bind hy

theorem map {γ : Type} {g : β → γ} (h : Account x s l b t) : Account (g <$> x) s l (g b) t := by
  rw [map_eq_pure_bind, ← List.append_nil l]
  exact h.bind (pure (g b) t)

theorem run (h : Account x s l b t) : x.run s = .ok b t := by
  induction h with
  | silent _ hrun => exact hrun
  | told _ hrun => exact hrun
  | bind _ _ ihx ihg => rw [run_bind_of_ok ihx, ihg]

theorem log (h : Account x s l b t) : t.log.toList = s.log.toList ++ l := by
  induction h with
  | silent _ _ h => rw [h.log, List.append_nil]
  | told _ _ _ hlog => rw [hlog, Array.toList_push]
  | bind _ _ ihx ihg => rw [ihg, ihx, List.append_assoc]

/-- The rows are named in the order in which they are appended, none is left out and none is named
twice. -/
theorem rows (h : Account x s l b t) :
    l.filterMap Record.row? = (l.filterMap Record.origin?).zipIdx s.program.numConstraints ∧
      t.program.numConstraints =
        s.program.numConstraints + (l.filterMap Record.origin?).length := by
  induction h with
  | silent _ _ h =>
    obtain ⟨slacks, hgrows⟩ := h.grows
    exact ⟨rfl, hgrows.numConstraints⟩
  | told _ _ h =>
    cases h with
    | equalityCopied _ hgrows | boundEnforced _ hgrows | split _ hgrows =>
      exact ⟨rfl, hgrows.numConstraints⟩
    | starting hrest | reduced hrest | valid hrest => exact ⟨rfl, by rw [hrest]; rfl⟩
  | bind _ _ ihx ihg =>
    simp only [List.filterMap_append, List.zipIdx_append, List.length_append]
    rw [ihx.1, ihg.1, ihg.2, ihx.2, Nat.add_assoc]
    exact ⟨rfl, rfl⟩

theorem splits (h : Account x s l b t) :
    t.splits = (l.filterMap Record.pair?).foldl (fun m e => m.insert e.1 e.2) s.splits := by
  induction h with
  | silent _ _ h => exact h.splits
  | told _ _ h =>
    cases h with
    | equalityCopied _ _ _ hsplits | boundEnforced _ _ _ hsplits => exact hsplits
    | split _ _ _ _ _ _ hsplits => exact hsplits
    | starting hrest | reduced hrest | valid hrest => rw [hrest]; rfl
  | bind _ _ ihx ihg => rw [List.filterMap_append, List.foldl_append, ← ihx, ihg]

theorem get?_splits (h : Account x s l b t) {j k : Nat} :
    t.splits.get? j = some k ↔ s.splits.get? j = some k ∨ (j, k) ∈ l.filterMap Record.pair? := by
  induction h with
  | silent _ _ h => simp [h.splits]
  | told _ _ h =>
    cases h with
    | equalityCopied _ _ _ hsplits | boundEnforced _ _ _ hsplits => simp [hsplits, Record.pair?]
    | @split i _ _ _ _ _ hnew hsplits =>
      -- the variable had no pair, so none is overwritten
      rw [hsplits, IndexMap.get?_insert]
      by_cases hj : j = i
      · simp [hj, hnew, Record.pair?, eq_comm]
      · simp [hj, Record.pair?]
    | starting hrest | reduced hrest | valid hrest =>
      rw [hrest]
      simp [Record.pair?]
  | bind _ _ ihx ihg => rw [ihg, ihx, List.filterMap_append, List.mem_append, or_assoc]

/-- The negative parts are named in the order in which they are appended, none is left out and none
is named twice. The columns that are not named are slacks. -/
theorem columns (h : Account x s l b t) {n : Nat}
    (hn : s.program.numVariables = n + s.slackBasis.size) :
    (l.filterMap Record.pair?).map Prod.snd = List.range' n (l.filterMap Record.pair?).length ∧
      t.program.numVariables = n + (l.filterMap Record.pair?).length + t.slackBasis.size := by
  induction h generalizing n with
  | silent _ _ h =>
    obtain ⟨slacks, hgrows⟩ := h.grows
    refine ⟨rfl, ?_⟩
    rw [hgrows.numVariables, hgrows.slackBasis, hn]
    simp only [List.filterMap_nil, List.length_nil]
    omega
  | told _ _ h =>
    cases h with
    | equalityCopied _ hgrows | boundEnforced _ hgrows =>
      refine ⟨rfl, ?_⟩
      rw [hgrows.numVariables, hgrows.slackBasis, hn]
      rfl
    | split _ hgrows _ hslacks =>
      -- there are no slacks as long as variables are split
      rw [hslacks, Nat.add_zero] at hn
      subst hn
      refine ⟨rfl, ?_⟩
      rw [hgrows.numVariables, hgrows.slackBasis, hslacks]
      rfl
    | starting hrest | reduced hrest | valid hrest => exact ⟨rfl, by rw [hrest]; exact hn⟩
  | bind _ _ ihx ihg =>
    obtain ⟨hcolumns, hcount⟩ := ihx hn
    obtain ⟨hcolumns', hcount'⟩ := ihg hcount
    simp only [List.filterMap_append, List.map_append, List.length_append]
    rw [hcolumns, hcolumns', hcount', Nat.add_assoc n]
    exact ⟨List.range'_append_1 .., rfl⟩

/-- A row never changes its right-hand side. -/
theorem rhs (h : Account x s l b t) {k : Nat} {c : Constraint f}
    (hc : s.program.constraintAt k = .ok c) :
    ∃ sense, t.program.constraintAt k = .ok { c with sense := sense } := by
  induction h generalizing c with
  | silent _ _ h => exact h.rhs hc
  | @told _ _ s _ _ _ _ _ h =>
    have hk : k < s.program.numConstraints :=
      (Array.getElem?_eq_some_iff.mp ((LinearProgram.constraintAt_eq_ok_iff _).mp hc)).1
    cases h with
    | @equalityCopied i _ _ _ _ hleaves _ hbefore hless =>
      -- the equality that is copied keeps its right-hand side and becomes an inequality
      by_cases hi : k = i
      · subst hi
        cases hbefore.symm.trans hc
        exact ⟨.less, hless⟩
      · exact ⟨c.sense, (hleaves.constraintAt k hk (by simpa using hi)).trans hc⟩
    | boundEnforced _ _ hleaves | split _ _ hleaves =>
      exact ⟨c.sense, (hleaves.constraintAt k hk List.not_mem_nil).trans hc⟩
    | starting hrest | reduced hrest | valid hrest =>
      rw [hrest]
      exact ⟨c.sense, hc⟩
  | bind _ _ ihx ihg =>
    obtain ⟨sense, hc'⟩ := ihx hc
    have hkept := ihg hc'
    exact hkept

/-- The bound in a record is the right-hand side of the row that the record names. -/
theorem bound (h : Account x s l b t) {side : Side} {bound : Binary f} {j k : Nat}
    (hmem : .boundEnforced side bound j k ∈ l) :
    ∃ sense, t.program.constraintAt k = .ok ⟨sense, bound⟩ := by
  induction h with
  | silent => cases hmem
  | told _ _ h =>
    rw [List.mem_singleton] at hmem
    subst hmem
    cases h with
    | boundEnforced _ _ _ _ _ _ hconstraint => exact ⟨side.sense, hconstraint⟩
  | bind _ hg ihx ihg =>
    obtain hmem | hmem := List.mem_append.mp hmem
    · obtain ⟨sense, hc⟩ := ihx hmem
      exact hg.rhs hc
    · exact ihg hmem

end Account

/-! ### Loops and steps -/

section Loops

variable {ι : Type}

/-- The rule for loops: `P done r s` holds whenever the members of `done` have been visited and have
left the records in `r`. -/
theorem account_forM (act : ι → ReduceM f Unit) (l : List ι)
    (P : List ι → List (Record f) → Reduction f → Prop)
    (step : ∀ done x rest r s, l = done ++ x :: rest → P done r s →
      ∃ r' s', Account (act x) s r' () s' ∧ P (done ++ [x]) (r ++ r') s')
    (h : P [] [] s) : ∃ r s', Account (l.forM act) s r () s' ∧ P l r s' := by
  -- the induction is on what is left to visit
  have go : ∀ rest done r s, l = done ++ rest → P done r s →
      ∃ r' s', Account (rest.forM act) s r' () s' ∧ P l (r ++ r') s' := by
    intro rest
    induction rest with
    | nil =>
      intro done r s hl hP
      rw [List.append_nil] at hl
      exact ⟨[], s, .pure () s, by rwa [List.append_nil, hl]⟩
    | cons x rest ih =>
      intro done r s hl hP
      obtain ⟨r₁, middle, hx, hmiddle⟩ := step done x rest r s hl hP
      obtain ⟨r₂, s', hrest, hs'⟩ := ih (done ++ [x]) (r ++ r₁) middle (by simp [hl]) hmiddle
      exact ⟨r₁ ++ r₂, s', hx.bind hrest, by rwa [← List.append_assoc]⟩
  exact go l [] [] s rfl h

theorem account_forM_range (act : Nat → ReduceM f Unit) (n : Nat)
    (P : Nat → List (Record f) → Reduction f → Prop)
    (step : ∀ i r s, i < n → P i r s →
      ∃ r' s', Account (act i) s r' () s' ∧ P (i + 1) (r ++ r') s')
    (h : P 0 [] s) : ∃ r s', Account ((List.range n).forM act) s r () s' ∧ P n r s' := by
  have hloop := account_forM act (List.range n) (fun done r s => P done.length r s) ?_ h
  · simpa using hloop
  · intro done i rest r s hl hP
    have hi : (List.range n)[done.length]? = some i := by simp [hl]
    obtain ⟨hlt, hget⟩ := List.getElem?_eq_some_iff.mp hi
    rw [List.getElem_range] at hget
    rw [List.length_range] at hlt
    obtain ⟨r', s', hrun, hs'⟩ := step i r s (hget ▸ hlt) (hget ▸ hP)
    exact ⟨r', s', hrun, by simpa [hget] using hs'⟩

theorem account_enter {operation : String} {phase : Phase} (hphase : s.phase = phase) :
    Account (enter operation phase) s
      [.starting operation s.program.numConstraints s.program.numVariables] () { s with
        log := s.log.push (.starting operation s.program.numConstraints s.program.numVariables) } :=
  .told (.enter ..) ((run_enter ..).trans (if_pos hphase)) (.starting rfl) rfl

/-- A step that is entered in the right phase runs its loop and completes the next phase. -/
theorem account_step {operation : String} {act : ι → ReduceM f Unit}
    (visit : Reduction f → List ι) {Q : List (Record f) → Reduction f → Prop} {phase next : Phase}
    (hphase : s.phase = phase) (hnext : phase.next? = some next)
    (hvisit : ∀ log, visit { s with log := log } = visit s)
    (loop : ∃ l s', Account ((visit s).forM act) { s with
      log := s.log.push (.starting operation s.program.numConstraints s.program.numVariables) }
        l () s' ∧ s'.phase = phase ∧ Q l s') :
    ∃ l s', Account (do
      enter operation phase
      (visit (← get)).forM act
      advance : ReduceM f Unit) s
        (.starting operation s.program.numConstraints s.program.numVariables :: l) ()
        { s' with phase := next } ∧ Q l s' := by
  obtain ⟨l, s', hloop, hphase', hQ⟩ := loop
  have hadvance : Account advance s' [] () { s' with phase := next } := by
    refine .silent .advance ?_ (.advanced (hphase' ▸ hnext))
    rw [run_advance, hphase', hnext]
    rfl
  rw [← hvisit] at hloop
  have hrest := Account.bind (g := fun t => (visit t).forM act >>= fun _ => advance) (.get _)
    (hloop.bind hadvance)
  rw [List.nil_append, List.append_nil] at hrest
  exact ⟨l, s', (account_enter hphase).bind hrest, hQ⟩

end Loops

/-! ### Records of level trace -/

namespace Traces

variable {l l' : List (Record f)} {rows rows' : List RowOrigin}

theorem nil : Traces ([] : List (Record f)) [] := ⟨nofun, rfl⟩

theorem append (h : Traces l rows) (h' : Traces l' rows') : Traces (l ++ l') (rows ++ rows') where
  level r hr := (List.mem_append.mp hr).elim (h.level r) (h'.level r)
  origins := by rw [List.filterMap_append, h.origins, h'.origins]

theorem equalityCopied {i k : Nat} : Traces [(.equalityCopied i k : Record f)] [.copy i] :=
  ⟨by simp [Record.level], rfl⟩

theorem boundEnforced {side : Side} {b : Binary f} {j k : Nat} :
    Traces [.boundEnforced side b j k] [.bound side j] :=
  ⟨by simp [Record.level], rfl⟩

theorem split {j k : Nat} : Traces [(.split j k : Record f)] [] := ⟨by simp [Record.level], rfl⟩

end Traces

/-! ### Accounts of the actions -/

section Actions

variable {i j k : Nat}

theorem leaves_halved (hs : s.program.Sound) {c : Constraint f}
    (hc : s.program.constraints[i]? = some c) : Leaves [i] s (s.halved i c) where
  phase := rfl
  slackBasis := rfl
  row k hk := by
    rw [← hs.shaped.rows] at hk
    rw [halved, SparseMatrix.row_eq, SparseMatrix.row_eq, SparseMatrix.numRows_appendRow,
      SparseMatrix.rowAt_appendRow, if_pos (Nat.lt_succ_of_lt hk), if_pos hk,
      if_neg (Nat.ne_of_lt hk)]
  constraintAt k hk hne := by
    have hne' : k ≠ i := by simpa using hne
    have hget := getElem?_constraints_halved hc k
    rw [if_neg (Nat.ne_of_lt hk), if_neg hne'] at hget
    exact s.program.constraintAt_congr hk hget
  variableAt _ _ := rfl

theorem tells_halved (hs : s.program.Sound) (hphase : s.phase = .start) {b : Binary f}
    (hc : s.program.constraints[i]? = some ⟨.equal, b⟩) :
    Tells s (s.halved i ⟨.equal, b⟩) (.equalityCopied i s.program.numConstraints) := by
  have hi : i < s.program.numConstraints := (Array.getElem?_eq_some_iff.mp hc).1
  have hne : i ≠ s.program.numConstraints := Nat.ne_of_lt hi
  have hnum : s.program.matrix.numRows = s.program.numConstraints := hs.shaped.rows
  have hconstraint := getElem?_constraints_halved hc
  refine .equalityCopied (v := s.program.matrix.rowAt i) hphase ⟨?_, rfl, rfl⟩
    (leaves_halved hs hc) rfl ((LinearProgram.constraintAt_eq_ok_iff _).mpr hc) ?_ ?_ ?_ ?_
  · simp [halved, LinearProgram.numConstraints]
  · rw [LinearProgram.constraintAt_eq_ok_iff, hconstraint, if_neg hne, if_pos rfl]
  · rw [LinearProgram.constraintAt_eq_ok_iff, hconstraint, if_pos rfl]
  · rw [SparseMatrix.row_eq, if_pos (hnum ▸ hi)]
  · rw [← hnum, halved, SparseMatrix.row_eq, SparseMatrix.numRows_appendRow,
      SparseMatrix.rowAt_appendRow, if_pos (Nat.lt_succ_self _), if_pos rfl]

theorem leaves_enforced (hs : s.program.Sound) (side : Side) (b : Binary f) :
    Leaves [] s (s.enforced side b j) where
  phase := rfl
  slackBasis := rfl
  row k hk := by
    have hlast : s.program.numConstraints < s.program.matrix.addRow.2.numRows := by
      rw [SparseMatrix.numRows_addRow, hs.shaped.rows]
      exact Nat.lt_succ_self _
    rw [enforced, SparseMatrix.row_eq, SparseMatrix.row_eq, SparseMatrix.numRows_write,
      SparseMatrix.rowAt_write _ _ _ _ hlast, if_neg (Nat.ne_of_lt hk),
      SparseMatrix.rowAt_addRow, if_pos (Nat.lt_trans hk hlast), if_pos (hs.shaped.rows ▸ hk)]
  constraintAt _ hk _ :=
    s.program.constraintAt_congr hk (Array.getElem?_push.trans (if_neg (Nat.ne_of_lt hk)))
  variableAt _ _ := rfl

theorem tells_enforced (hs : s.program.Sound) (hphase : s.phase = .equalitiesSplit)
    {v : Variable f} (hv : s.program.vars[j]? = some v) {side : Side}
    (hside : side ∈ v.enforcedSides) :
    Tells s (s.enforced side (v.bound side) j)
      (.boundEnforced side (v.bound side) j s.program.numConstraints) := by
  have hlast : s.program.numConstraints < s.program.matrix.addRow.2.numRows := by
    rw [SparseMatrix.numRows_addRow, hs.shaped.rows]
    exact Nat.lt_succ_self _
  have hempty : s.program.matrix.rowAt s.program.numConstraints = .empty :=
    s.program.matrix.rowAt_of_le (Nat.le_of_eq hs.shaped.rows)
  refine .boundEnforced hphase ⟨?_, rfl, rfl⟩ (leaves_enforced hs side _) rfl
    ((LinearProgram.variableAt_eq_ok_iff _).mpr hv) hside ?_ ?_
  · simp [enforced, LinearProgram.numConstraints]
  · rw [LinearProgram.constraintAt_eq_ok_iff, enforced, LinearProgram.numConstraints,
      Array.getElem?_push_size]
  · rw [enforced, SparseMatrix.row_eq, SparseMatrix.numRows_write, if_pos hlast,
      SparseMatrix.rowAt_write _ _ _ _ hlast, if_pos rfl, SparseMatrix.rowAt_addRow, hempty,
      IndexMap.set, Binary.one_beq_zero]
    rfl

theorem leaves_divided (s : Reduction f) (j : Nat) : Leaves [] s (s.divided j) where
  phase := rfl
  slackBasis := rfl
  row _ _ := rfl
  constraintAt _ _ _ := rfl
  variableAt _ hk :=
    s.program.variableAt_congr hk (Array.getElem?_push.trans (if_neg (Nat.ne_of_lt hk)))

theorem tells_divided (hs : s.program.Sound) (hphase : ¬ .negativesFilled ≤ s.phase)
    (hslacks : s.slackBasis.size = 0) (hj : j < s.program.numVariables)
    (hnew : s.splits.get? j = none) :
    Tells s (s.divided j) (.split j s.program.numVariables) := by
  have hnum : s.program.matrix.numColumns = s.program.numVariables := hs.shaped.columns
  refine .split hphase ⟨rfl, ?_, rfl⟩ (leaves_divided s j) hslacks hj hnew rfl ?_
  · simp [divided, LinearProgram.addVariable, LinearProgram.numVariables]
  · have hlast : s.program.numVariables < s.program.addVariable.2.matrix.numColumns := by
      rw [hs.shaped.addVariable.columns]
      simp [LinearProgram.numVariables, LinearProgram.addVariable]
    rw [divided, LinearProgram.coefficients_eq _ hlast]
    have hempty := s.program.matrix.columnAt_of_le (Nat.le_of_eq hnum)
    exact congrArg Except.ok ((SparseMatrix.columnAt_addColumn ..).trans hempty)

theorem account_splitEquality (hs : s.program.Sound) (hphase : s.phase = .start) {b : Binary f}
    (hc : s.program.constraints[i]? = some ⟨.equal, b⟩) :
    Account (splitEquality i) s [.equalityCopied i s.program.numConstraints] ()
      (s.halved i ⟨.equal, b⟩) :=
  .told (.splitEquality i) (run_splitEquality hs hc) (tells_halved hs hphase hc) rfl

theorem account_addBoundRow (hs : s.program.Sound) (hphase : s.phase = .equalitiesSplit)
    {v : Variable f} (hv : s.program.vars[j]? = some v) {side : Side}
    (hside : side ∈ v.enforcedSides) :
    Account (addBoundRow side (v.bound side) j) s
      [.boundEnforced side (v.bound side) j s.program.numConstraints] ()
      (s.enforced side (v.bound side) j) :=
  .told (.addBoundRow ..) (run_addBoundRow hs side _ (Array.getElem?_eq_some_iff.mp hv).1)
    (tells_enforced hs hphase hv hside) rfl

theorem account_split_first (hs : s.program.Sound) (hphase : ¬ .negativesFilled ≤ s.phase)
    (hslacks : s.slackBasis.size = 0) (hj : j < s.program.numVariables)
    (hnew : s.splits.get? j = none) :
    Account (split j) s [.split j s.program.numVariables] s.program.numVariables (s.divided j) :=
  .told (.split j) (run_split_first hs hphase hj hnew) (tells_divided hs hphase hslacks hj hnew) rfl

theorem account_split_again (hphase : ¬ .negativesFilled ≤ s.phase)
    (hj : j < s.program.numVariables) (hk : s.splits.get? j = some k) :
    Account (split j) s [] k s :=
  .silent (.split j) (run_split_again hphase hj hk) (.idle s)

theorem account_fillNegative (hs : s.program.Sound) (hphase : .boundsEnforced ≤ s.phase)
    {v : Variable f} (hv : s.program.vars[j]? = some v) (hk : k < s.program.numVariables) :
    Account (fillNegative j k) s [] () (s.filled j k v) := by
  have hgrows : GrowsBy 0 0 0 s (s.filled j k v) :=
    ⟨rfl, by simp [filled, LinearProgram.numVariables], rfl⟩
  exact .silent (.fillNegative j k) (run_fillNegative hs hv hk)
    (.rewritten hphase rfl hgrows rfl rfl fun _ c hc => ⟨c.sense, hc⟩)

theorem account_addSlack (hs : s.program.Sound) (hphase : .boundsEnforced ≤ s.phase)
    {c : Constraint f} (hc : s.program.constraints[i]? = some c) {side : Side}
    (hside : c.sense.side? = some side) :
    Account (addSlack i) s [] () (s.slackened i side) := by
  have hgrows : GrowsBy 0 0 1 s (s.slackened i side) :=
    ⟨by simp [slackened, LinearProgram.numConstraints], Array.size_push _, Array.size_push _⟩
  refine .silent (.addSlack i) (run_addSlack hs hc hside)
    (.rewritten hphase rfl hgrows rfl rfl fun k d hd => ?_)
  -- the row that gets its slack becomes an equality, and no other row is touched
  rw [LinearProgram.constraintAt_eq_ok_iff] at hd
  simp only [slackened, LinearProgram.constraintAt_eq_ok_iff, Array.getElem?_modify, hd]
  split
  · exact ⟨.equal, rfl⟩
  · exact ⟨d.sense, rfl⟩

end Actions

end Reduction

end StandardLp
