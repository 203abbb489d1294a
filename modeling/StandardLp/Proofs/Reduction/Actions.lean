import StandardLp.Proofs.Program.Sound
import StandardLp.Proofs.Search
import StandardLp.Reduction.Call

/-!
The actions of a reduction as total functions. An action on a sound program whose indices are in
range cannot fail, so its run is described by the reduction that it leaves behind.
-/

namespace StandardLp.Reduction

variable {f : Format}

/-! ### What the actions leave behind -/

/-- Row `i`, which is `c`, bounds its activity from above and a copy of it from below. -/
def halved (s : Reduction f) (i : Nat) (c : Constraint f) : Reduction f :=
  { s with
    program := { s.program with
      matrix := s.program.matrix.appendRow (s.program.matrix.rowAt i)
      constraints := ((s.program.constraints.push c).modify i ({ · with sense := .less })).modify
        s.program.numConstraints ({ · with sense := .greater }) }
    census := s.census.addRow .equalityCopy
    log := s.log.push (.equalityCopied i s.program.numConstraints) }

def divided (s : Reduction f) (j : Nat) : Reduction f :=
  { s with
    program := s.program.addVariable.2
    splits := s.splits.insert j s.program.numVariables
    census := s.census.addColumn .negativePart
    log := s.log.push (.split j s.program.numVariables) }

def enforced (s : Reduction f) (side : Side) (bound : Binary f) (j : Nat) : Reduction f :=
  { s with
    program := { s.program with
      matrix := s.program.matrix.addRow.2.write s.program.numConstraints j 1
      constraints := s.program.constraints.push ⟨side.sense, bound⟩ }
    census := s.census.addRow (.bound side)
    log := s.log.push (.boundEnforced side bound j s.program.numConstraints) }

/-- The negated entries of `column` are written to column `k`. -/
def mirrored (m : SparseMatrix (Binary f)) (k : Nat) (column : List (Nat × Binary f)) :
    SparseMatrix (Binary f) :=
  column.foldl (fun m e => m.write e.1 k (-e.2)) m

/-- Variable `j`, which is `v`, has lost its bounds and column `k` is its opposite. -/
def filled (s : Reduction f) (j k : Nat) (v : Variable f) : Reduction f :=
  { s with
    program := { s.program with
      matrix := mirrored s.program.matrix k (s.program.matrix.columnAt j).entries
      vars := ((s.program.vars.modify j ({ · with lower := 0 })).modify j
        ({ · with upper := .infinity })).modify k ({ · with cost := -v.cost }) } }

/-- Row `i` is an equality with a new column as its slack. -/
def slackened (s : Reduction f) (i : Nat) (side : Side) : Reduction f :=
  { s with
    program := { s.program with
      matrix := s.program.matrix.addColumn.2.write i s.program.numVariables side.slack
      constraints := s.program.constraints.modify i ({ · with sense := .equal })
      vars := s.program.vars.push .nonnegative }
    slackBasis := s.slackBasis.push s.program.numVariables
    census := s.census.addColumn .slack }

/-! ### Runs in sequence -/

section Sequence

variable {ι β : Type} {s : Reduction f}

theorem run_enter_of_ne {operation : String} {expected : Phase} {rest : PUnit → ReduceM f β}
    (h : s.phase ≠ expected) :
    (enter operation expected >>= rest).run s =
      .error (.phaseOrder operation expected s.phase) s :=
  run_bind_of_error ((run_enter ..).trans (if_neg h))

theorem run_consult_of_ok {read : LinearProgram f → Except IndexError β} {b : β}
    (h : read s.program = .ok b) : (consult read).run s = .ok b s := by
  rw [run_consult, h]

theorem run_revise_of_ok {change : LinearProgram f → Except IndexError (β × LinearProgram f)}
    {b : β} {p : LinearProgram f} (h : change s.program = .ok (b, p)) :
    (revise change).run s = .ok b { s with program := p } := by
  rw [run_revise, h]

theorem run_edit_of_ok {change : LinearProgram f → Except IndexError (LinearProgram f)}
    {p : LinearProgram f} (h : change s.program = .ok p) :
    (edit change).run s = .ok () { s with program := p } := by
  rw [run_edit, h]

theorem run_forM_cons (act : ι → ReduceM f Unit) (x : ι) (l : List ι) :
    ((x :: l).forM act).run s = (act x >>= fun _ => l.forM act).run s := rfl

end Sequence

/-! ### Runs of the actions -/

section Actions

variable {s : Reduction f} {i j k : Nat}

theorem run_splitEquality (hs : s.program.Sound) {c : Constraint f}
    (hc : s.program.constraints[i]? = some c) :
    (splitEquality i).run s = .ok () (s.halved i c) := by
  have hi : i < s.program.numConstraints := (Array.getElem?_eq_some_iff.mp hc).1
  have hcopy := s.program.copyConstraint_eq hc (hs.shaped.rows ▸ hi)
  rw [hs.shaped.rows] at hcopy
  let copied : LinearProgram f := { s.program with
    matrix := s.program.matrix.appendRow (s.program.matrix.rowAt i)
    constraints := s.program.constraints.push c }
  have hcopied : copied.numConstraints = s.program.numConstraints + 1 := Array.size_push c
  have hless := copied.modifyConstraint_eq (i := i) ({ · with sense := .less }) (by omega)
  let less : LinearProgram f :=
    { copied with constraints := copied.constraints.modify i ({ · with sense := .less }) }
  have hsize : less.numConstraints = copied.numConstraints := Array.size_modify
  have hgreater := less.modifyConstraint_eq (i := s.program.numConstraints)
    ({ · with sense := .greater }) (by omega)
  rw [splitEquality, run_bind_of_ok (run_revise_of_ok hcopy),
    run_bind_of_ok (run_edit_of_ok hless), run_bind_of_ok (run_edit_of_ok hgreater),
    run_bind_of_ok (run_countRow _ _), run_record]
  rfl

theorem run_split_late (h : .negativesFilled ≤ s.phase) :
    (split j).run s = .error (.phaseOrder "split a variable" .boundsEnforced s.phase) s := by
  rw [split, run_bind_of_ok (EStateM.run_get s), if_pos h]
  rfl

theorem run_split_of_le (h : ¬ .negativesFilled ≤ s.phase) (hj : s.program.numVariables ≤ j) :
    (split j).run s = .error (.index ⟨.column, j, s.program.numVariables⟩) s := by
  rw [split, run_bind_of_ok (EStateM.run_get s), if_neg h, run_bind_of_error]
  rw [run_consult, s.program.variableAt_of_le hj]

theorem run_split_again (h : ¬ .negativesFilled ≤ s.phase) (hj : j < s.program.numVariables)
    (hk : s.splits.get? j = some k) : (split j).run s = .ok k s := by
  have hv := s.program.variableAt_eq (Array.getElem?_eq_getElem hj)
  rw [split, run_bind_of_ok (EStateM.run_get s), if_neg h, run_bind_of_ok (run_consult_of_ok hv),
    hk]
  rfl

theorem run_split_first (hs : s.program.Sound) (h : ¬ .negativesFilled ≤ s.phase)
    (hj : j < s.program.numVariables) (hk : s.splits.get? j = none) :
    (split j).run s = .ok s.program.numVariables (s.divided j) := by
  have hv := s.program.variableAt_eq (Array.getElem?_eq_getElem hj)
  have hcolumn : s.program.addVariable.1 = s.program.numVariables := hs.shaped.columns
  rw [split, run_bind_of_ok (EStateM.run_get s), if_neg h, run_bind_of_ok (run_consult_of_ok hv),
    hk]
  dsimp only
  rw [run_bind_of_ok (run_append _ _), hcolumn]
  rfl

theorem run_addBoundRow (hs : s.program.Sound) (side : Side) (bound : Binary f)
    (hj : j < s.program.numVariables) :
    (addBoundRow side bound j).run s = .ok () (s.enforced side bound j) := by
  have hrow : (s.program.addConstraint side.sense bound).1 = s.program.numConstraints :=
    hs.shaped.rows
  have hadd := (hs.shaped.addConstraint side.sense bound).rows
  have hi : s.program.numConstraints <
      (s.program.addConstraint side.sense bound).2.matrix.numRows := by
    rw [hadd]
    simp [LinearProgram.numConstraints, LinearProgram.addConstraint]
  have hcolumn : j < (s.program.addConstraint side.sense bound).2.matrix.numColumns :=
    hs.shaped.columns ▸ hj
  rw [addBoundRow, run_bind_of_ok (run_append _ _), hrow,
    run_bind_of_ok (run_edit_of_ok (LinearProgram.setCoefficient_eq _ _ hi hcolumn)),
    run_bind_of_ok (run_countRow _ _), run_record]
  rfl

/-- Entries can be written to a column in any number. -/
theorem run_forM_setCoefficient {l : List (Nat × Binary f)}
    (hl : ∀ e ∈ l, e.1 < s.program.matrix.numRows) (hk : k < s.program.matrix.numColumns) :
    (l.forM fun e => edit (·.setCoefficient e.1 k (-e.2)) : ReduceM f Unit).run s =
      .ok () { s with program := { s.program with matrix := mirrored s.program.matrix k l } } := by
  induction l generalizing s with
  | nil => rfl
  | cons e rest ih =>
    have hset := s.program.setCoefficient_eq (-e.2) (hl e List.mem_cons_self) hk
    rw [run_forM_cons, run_bind_of_ok (run_edit_of_ok hset), ih]
    · rfl
    · intro d hd
      simpa using hl d (List.mem_cons_of_mem _ hd)
    · simpa using hk

theorem run_fillNegative (hs : s.program.Sound) {v : Variable f}
    (hv : s.program.vars[j]? = some v) (hk : k < s.program.numVariables) :
    (fillNegative j k).run s = .ok () (s.filled j k v) := by
  have hj : j < s.program.numVariables := (Array.getElem?_eq_some_iff.mp hv).1
  have hcolumn : j < s.program.matrix.numColumns := hs.shaped.columns ▸ hj
  have hentries : ∀ e ∈ (s.program.matrix.columnAt j).entries, e.1 < s.program.matrix.numRows := by
    intro e he
    exact hs.matrix.lt_numRows ((IndexMap.get?_eq_some_iff (hs.matrix.sorted_column j)).mpr he)
  have hlower := s.program.modifyVariable_eq ({ · with lower := 0 }) hj
  -- the programs that the edits pass through, one after the other
  let raised : LinearProgram f :=
    { s.program with vars := s.program.vars.modify j ({ · with lower := 0 }) }
  have hraised : raised.numVariables = s.program.numVariables := Array.size_modify
  have hupper := raised.modifyVariable_eq (j := j) ({ · with upper := .infinity }) (by omega)
  let freed : LinearProgram f :=
    { raised with vars := raised.vars.modify j ({ · with upper := .infinity }) }
  have hread := freed.coefficients_eq hcolumn
  have hfill := run_forM_setCoefficient (s := { s with program := freed }) (k := k) hentries
    (hs.shaped.columns ▸ hk)
  let opposed : LinearProgram f := { freed with
    matrix := mirrored s.program.matrix k (s.program.matrix.columnAt j).entries }
  have hopposed : opposed.numVariables = s.program.numVariables :=
    Array.size_modify.trans hraised
  have hcost := opposed.variableAt_eq (j := j) (v := { v with lower := 0, upper := .infinity })
    (by simp [opposed, freed, raised, Array.getElem?_modify, hv])
  have hset := opposed.modifyVariable_eq (j := k) ({ · with cost := -v.cost }) (by omega)
  rw [fillNegative, run_bind_of_ok (run_edit_of_ok hlower),
    run_bind_of_ok (run_edit_of_ok hupper), run_bind_of_ok (run_consult_of_ok hread),
    run_bind_of_ok hfill, run_bind_of_ok (run_consult_of_ok hcost), run_edit_of_ok hset]
  rfl

theorem run_addSlack (hs : s.program.Sound) {c : Constraint f}
    (hc : s.program.constraints[i]? = some c) {side : Side} (hside : c.sense.side? = some side) :
    (addSlack i).run s = .ok () (s.slackened i side) := by
  have hi : i < s.program.numConstraints := (Array.getElem?_eq_some_iff.mp hc).1
  have hcolumn : s.program.addVariable.1 = s.program.numVariables := hs.shaped.columns
  have hadd := hs.shaped.addVariable
  have hk : s.program.numVariables < s.program.addVariable.2.matrix.numColumns := by
    rw [hadd.columns]
    simp [LinearProgram.numVariables, LinearProgram.addVariable]
  have hset := s.program.addVariable.2.setCoefficient_eq (i := i) side.slack (hs.shaped.rows ▸ hi) hk
  let joined : LinearProgram f := { s.program.addVariable.2 with
    matrix := s.program.addVariable.2.matrix.write i s.program.numVariables side.slack }
  have hequal := joined.modifyConstraint_eq ({ · with sense := .equal }) hi
  rw [addSlack, run_bind_of_ok (run_consult_of_ok (s.program.constraintAt_eq hc)), hside]
  dsimp only
  rw [run_bind_of_ok (run_append _ _), hcolumn, run_bind_of_ok (EStateM.run_modify _ _),
    run_bind_of_ok (run_edit_of_ok hset), run_bind_of_ok (run_edit_of_ok hequal), run_countColumn]
  rfl

end Actions

end StandardLp.Reduction
