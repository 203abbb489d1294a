import StandardLp.Program.Build
import StandardLp.Program.Edit
import StandardLp.Sparse.Views

/-!
The shape of a linear program: the matrix has a row for every constraint and a column for every
variable. Programs are built in shape and every edit keeps them so.
-/

namespace StandardLp

theorem exists_of_map_eq_ok {ε β γ : Type} {x : Except ε β} {g : β → γ} {c : γ}
    (h : g <$> x = .ok c) : ∃ b, x = .ok b ∧ g b = c := by
  cases x with
  | error e => cases h
  | ok b =>
    cases h
    exact ⟨b, rfl, rfl⟩

namespace LinearProgram

variable {f : Format}

structure Shaped (p : LinearProgram f) : Prop where
  rows : p.matrix.numRows = p.numConstraints
  columns : p.matrix.numColumns = p.numVariables

namespace Shaped

variable {p q : LinearProgram f}

theorem zero (m n : Nat) : (LinearProgram.zero m n : LinearProgram f).Shaped where
  rows := by simp [LinearProgram.zero, numConstraints]
  columns := by simp [LinearProgram.zero, numVariables]

theorem ofParts {matrix : SparseMatrix (Binary f)} {senses : Array Sense}
    {rhs : Array (Binary f)} {bounds : Array (Binary f × Binary f)} {costs : Array (Binary f)}
    (h : LinearProgram.ofParts matrix senses rhs bounds costs = .ok p) : p.Shaped := by
  unfold LinearProgram.ofParts at h
  split at h
  · cases h
  · rename_i hrows
    split at h
    · cases h
    · rename_i hcolumns
      split at h
      · cases h
      · cases h
        constructor
        · simp only [numConstraints, Array.size_zipWith]
          omega
        · simp only [numVariables, Array.size_zipWith]
          omega

theorem modifyConstraint (h : p.Shaped) {i : Nat} {g : Constraint f → Constraint f}
    (hq : p.modifyConstraint i g = .ok q) : q.Shaped := by
  rw [LinearProgram.modifyConstraint, Axis.check_bind] at hq
  split at hq <;> cases hq
  exact ⟨by simpa [numConstraints] using h.rows, h.columns⟩

theorem modifyVariable (h : p.Shaped) {j : Nat} {g : Variable f → Variable f}
    (hq : p.modifyVariable j g = .ok q) : q.Shaped := by
  rw [LinearProgram.modifyVariable, Axis.check_bind] at hq
  split at hq <;> cases hq
  exact ⟨h.rows, by simpa [numVariables] using h.columns⟩

theorem setCoefficient (h : p.Shaped) {i j : Nat} {x : Binary f}
    (hq : p.setCoefficient i j x = .ok q) : q.Shaped := by
  rw [LinearProgram.setCoefficient, SparseMatrix.set_eq] at hq
  split at hq
  · split at hq <;> cases hq
    exact ⟨(SparseMatrix.numRows_write ..).trans h.rows,
      (SparseMatrix.numColumns_write ..).trans h.columns⟩
  · cases hq

theorem addVariable (h : p.Shaped) : p.addVariable.2.Shaped where
  rows := h.rows
  columns := by
    simpa [LinearProgram.addVariable, numVariables] using h.columns

theorem addConstraint (h : p.Shaped) (s : Sense) (rhs : Binary f) :
    (p.addConstraint s rhs).2.Shaped where
  rows := by
    simpa [LinearProgram.addConstraint, numConstraints] using h.rows
  columns := h.columns

theorem copyConstraint (h : p.Shaped) {i k : Nat} (hq : p.copyConstraint i = .ok (k, q)) :
    q.Shaped := by
  rw [LinearProgram.copyConstraint, SparseMatrix.copyRow_eq] at hq
  cases hc : p.constraintAt i with
  | error e =>
    rw [hc] at hq
    cases hq
  | ok c =>
    rw [hc] at hq
    by_cases hi : i < p.matrix.numRows
    · rw [if_pos hi] at hq
      cases hq
      exact ⟨by simpa [numConstraints] using h.rows, by simpa [numVariables] using h.columns⟩
    · rw [if_neg hi] at hq
      cases hq

theorem apply (h : p.Shaped) {e : Edit f} {k : Option Nat} (hq : p.apply e = .ok (k, q)) :
    q.Shaped := by
  cases e with
  | setSense i s =>
    obtain ⟨r, hr, heq⟩ := exists_of_map_eq_ok hq
    cases heq
    exact h.modifyConstraint hr
  | setCoefficient i j x =>
    obtain ⟨r, hr, heq⟩ := exists_of_map_eq_ok hq
    cases heq
    exact h.setCoefficient hr
  | setCost j x =>
    obtain ⟨r, hr, heq⟩ := exists_of_map_eq_ok hq
    cases heq
    exact h.modifyVariable hr
  | setLower j x =>
    obtain ⟨r, hr, heq⟩ := exists_of_map_eq_ok hq
    cases heq
    exact h.modifyVariable hr
  | setUpper j x =>
    obtain ⟨r, hr, heq⟩ := exists_of_map_eq_ok hq
    cases heq
    exact h.modifyVariable hr
  | addVariable =>
    cases hq
    exact h.addVariable
  | addConstraint s rhs =>
    cases hq
    exact h.addConstraint s rhs
  | copyConstraint i =>
    obtain ⟨r, hr, heq⟩ := exists_of_map_eq_ok hq
    cases heq
    exact h.copyConstraint hr

theorem edited (h : p.Shaped) (e : Edit f) : (p.edited e).Shaped := by
  unfold LinearProgram.edited
  split
  · rename_i hq
    exact h.apply hq
  · exact h

theorem run (h : p.Shaped) (edits : List (Edit f)) : (p.run edits).Shaped := by
  induction edits generalizing p with
  | nil => exact h
  | cons e rest ih => exact ih (h.edited e)

end Shaped

end LinearProgram

end StandardLp
