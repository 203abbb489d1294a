import StandardLp.Program.Shape
import StandardLp.Proofs.Sparse.Stored

/-!
Sound linear programs: the matrix is well-formed and has the shape of the program. On a sound
program an edit succeeds exactly when its indices are in range, and what it returns is sound
again.
-/

namespace StandardLp.LinearProgram

variable {f : Format}

structure Sound (p : LinearProgram f) : Prop where
  shaped : p.Shaped
  matrix : p.matrix.WellFormed

/-! ### Edits with indices in range -/

section InRange

variable (p : LinearProgram f) {i j : Nat}

theorem constraintAt_eq {c : Constraint f} (h : p.constraints[i]? = some c) :
    p.constraintAt i = .ok c := by
  rw [constraintAt, h]

theorem variableAt_eq {v : Variable f} (h : p.vars[j]? = some v) : p.variableAt j = .ok v := by
  rw [variableAt, h]

theorem constraintAt_eq_ok_iff {c : Constraint f} :
    p.constraintAt i = .ok c ↔ p.constraints[i]? = some c := by
  rw [constraintAt]
  cases p.constraints[i]? <;> simp

theorem variableAt_eq_ok_iff {v : Variable f} :
    p.variableAt j = .ok v ↔ p.vars[j]? = some v := by
  rw [variableAt]
  cases p.vars[j]? <;> simp

theorem constraintAt_congr {q : LinearProgram f} (hi : i < p.numConstraints)
    (h : q.constraints[i]? = p.constraints[i]?) : q.constraintAt i = p.constraintAt i := by
  have hget := Array.getElem?_eq_getElem hi
  rw [p.constraintAt_eq hget, q.constraintAt_eq (h.trans hget)]

theorem variableAt_congr {q : LinearProgram f} (hj : j < p.numVariables)
    (h : q.vars[j]? = p.vars[j]?) : q.variableAt j = p.variableAt j := by
  have hget := Array.getElem?_eq_getElem hj
  rw [p.variableAt_eq hget, q.variableAt_eq (h.trans hget)]

theorem variableAt_of_le (h : p.numVariables ≤ j) :
    p.variableAt j = .error ⟨.column, j, p.numVariables⟩ := by
  rw [variableAt, Array.getElem?_eq_none h]

theorem modifyConstraint_eq (g : Constraint f → Constraint f) (hi : i < p.numConstraints) :
    p.modifyConstraint i g = .ok { p with constraints := p.constraints.modify i g } := by
  rw [modifyConstraint, Axis.check_bind, if_pos hi]
  rfl

theorem modifyVariable_eq (g : Variable f → Variable f) (hj : j < p.numVariables) :
    p.modifyVariable j g = .ok { p with vars := p.vars.modify j g } := by
  rw [modifyVariable, Axis.check_bind, if_pos hj]
  rfl

theorem setCoefficient_eq (x : Binary f) (hi : i < p.matrix.numRows)
    (hj : j < p.matrix.numColumns) :
    p.setCoefficient i j x = .ok { p with matrix := p.matrix.write i j x } := by
  rw [setCoefficient, SparseMatrix.set_eq, if_pos hi, if_pos hj]
  rfl

theorem coefficients_eq (hj : j < p.matrix.numColumns) :
    p.coefficients j = .ok (p.matrix.columnAt j) := by
  rw [coefficients, SparseMatrix.column_eq, if_pos hj]

theorem coefficient_eq (hi : i < p.matrix.numRows) (hj : j < p.matrix.numColumns) :
    p.coefficient i j = .ok (p.matrix.entry i j) := by
  rw [coefficient, SparseMatrix.get_eq, if_pos hi, if_pos hj]

theorem copyConstraint_eq {c : Constraint f} (hc : p.constraints[i]? = some c)
    (hi : i < p.matrix.numRows) :
    p.copyConstraint i = .ok (p.matrix.numRows, { p with
      matrix := p.matrix.appendRow (p.matrix.rowAt i)
      constraints := p.constraints.push c }) := by
  rw [copyConstraint, p.constraintAt_eq hc, SparseMatrix.copyRow_eq, if_pos hi]
  rfl

end InRange

namespace Sound

variable {p q : LinearProgram f}

theorem zero (m n : Nat) : (LinearProgram.zero m n : LinearProgram f).Sound where
  shaped := .zero m n
  matrix := .zero m n

theorem ofParts {matrix : SparseMatrix (Binary f)} {senses : Array Sense}
    {rhs : Array (Binary f)} {bounds : Array (Binary f × Binary f)} {costs : Array (Binary f)}
    (hm : matrix.WellFormed) (h : LinearProgram.ofParts matrix senses rhs bounds costs = .ok p) :
    p.Sound where
  shaped := .ofParts h
  matrix := by
    unfold LinearProgram.ofParts at h
    split at h
    · cases h
    · split at h
      · cases h
      · split at h
        · cases h
        · cases h
          exact hm

theorem modifyConstraint (h : p.Sound) {i : Nat} {g : Constraint f → Constraint f}
    (hq : p.modifyConstraint i g = .ok q) : q.Sound where
  shaped := h.shaped.modifyConstraint hq
  matrix := by
    rw [LinearProgram.modifyConstraint, Axis.check_bind] at hq
    split at hq <;> cases hq
    exact h.matrix

theorem modifyVariable (h : p.Sound) {j : Nat} {g : Variable f → Variable f}
    (hq : p.modifyVariable j g = .ok q) : q.Sound where
  shaped := h.shaped.modifyVariable hq
  matrix := by
    rw [LinearProgram.modifyVariable, Axis.check_bind] at hq
    split at hq <;> cases hq
    exact h.matrix

theorem setCoefficient (h : p.Sound) {i j : Nat} {x : Binary f}
    (hq : p.setCoefficient i j x = .ok q) : q.Sound where
  shaped := h.shaped.setCoefficient hq
  matrix := by
    rw [LinearProgram.setCoefficient, SparseMatrix.set_eq] at hq
    split at hq
    · rename_i hi
      split at hq
      · rename_i hj
        cases hq
        exact h.matrix.write hi hj x
      · cases hq
    · cases hq

theorem addVariable (h : p.Sound) : p.addVariable.2.Sound where
  shaped := h.shaped.addVariable
  matrix := h.matrix.addColumn

theorem addConstraint (h : p.Sound) (s : Sense) (rhs : Binary f) :
    (p.addConstraint s rhs).2.Sound where
  shaped := h.shaped.addConstraint s rhs
  matrix := h.matrix.addRow

theorem copyConstraint (h : p.Sound) {i k : Nat} (hq : p.copyConstraint i = .ok (k, q)) :
    q.Sound where
  shaped := h.shaped.copyConstraint hq
  matrix := by
    rw [LinearProgram.copyConstraint, SparseMatrix.copyRow_eq] at hq
    cases hc : p.constraintAt i with
    | error e =>
      rw [hc] at hq
      cases hq
    | ok c =>
      rw [hc] at hq
      by_cases hi : i < p.matrix.numRows
      · rw [if_pos hi] at hq
        cases hq
        exact h.matrix.appendRow i
      · rw [if_neg hi] at hq
        cases hq

theorem of_map_ok {x : Except IndexError (LinearProgram f)} {k : Option Nat}
    (hx : ∀ r, x = .ok r → r.Sound) (h : (none, ·) <$> x = .ok (k, q)) : q.Sound := by
  cases x with
  | error e => cases h
  | ok r =>
    cases h
    exact hx _ rfl

theorem apply (h : p.Sound) {e : Edit f} {k : Option Nat} (hq : p.apply e = .ok (k, q)) :
    q.Sound := by
  cases e with
  | setSense i s => exact of_map_ok (fun r hr => h.modifyConstraint hr) hq
  | setCoefficient i j x => exact of_map_ok (fun r hr => h.setCoefficient hr) hq
  | setCost j x => exact of_map_ok (fun r hr => h.modifyVariable hr) hq
  | setLower j x => exact of_map_ok (fun r hr => h.modifyVariable hr) hq
  | setUpper j x => exact of_map_ok (fun r hr => h.modifyVariable hr) hq
  | addVariable =>
    cases hq
    exact h.addVariable
  | addConstraint s rhs =>
    cases hq
    exact h.addConstraint s rhs
  | copyConstraint i =>
    cases hc : p.copyConstraint i with
    | error e =>
      rw [LinearProgram.apply, hc] at hq
      cases hq
    | ok r =>
      rw [LinearProgram.apply, hc] at hq
      cases hq
      exact h.copyConstraint hc

theorem edited (h : p.Sound) (e : Edit f) : (p.edited e).Sound := by
  unfold LinearProgram.edited
  split
  · rename_i hq
    exact h.apply hq
  · exact h

end Sound

end StandardLp.LinearProgram
