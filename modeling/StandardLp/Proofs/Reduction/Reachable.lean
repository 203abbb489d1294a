import StandardLp.Proofs.Reduction.Runs
import StandardLp.Proofs.Sparse.Reachable

/-!
The programs that there can be: those that are built, edited and reduced in any order. All of
them are sound.
-/

namespace StandardLp

namespace LinearProgram

variable {f : Format} {p : LinearProgram f}

inductive Built : LinearProgram f → Prop where
  | ofParts {matrix : SparseMatrix (Binary f)} {senses : Array Sense} {rhs : Array (Binary f)}
      {bounds : Array (Binary f × Binary f)} {costs : Array (Binary f)} {p : LinearProgram f}
      (hm : matrix.Reachable) (h : ofParts matrix senses rhs bounds costs = .ok p) : Built p
  | ofRows {numConstraints numVariables : Nat} {rows : Compressed (Binary f)}
      {bounds : Array (Binary f × Binary f)} {senses : Array Sense} {rhs costs : Array (Binary f)}
      {p : LinearProgram f}
      (h : ofRows numConstraints numVariables rows bounds senses rhs costs = .ok p) : Built p

/-- The program can come about. A reduction works on the program that it was given, so what it
leaves behind at any moment is a program again. -/
inductive Reachable : LinearProgram f → Prop where
  | zero (numConstraints numVariables : Nat) : Reachable (.zero numConstraints numVariables)
  | built {p : LinearProgram f} (h : p.Built) : Reachable p
  | edited {p : LinearProgram f} (h : Reachable p) (e : Edit f) : Reachable (p.edited e)
  | reduced {p : LinearProgram f} (h : Reachable p) (calls : List Reduction.Call) :
      Reachable ((Reduction.start p).run calls).program

theorem Built.exists_ofParts (h : p.Built) : ∃ (matrix : SparseMatrix (Binary f)) (senses : _)
    (rhs : _) (bounds : _) (costs : _), matrix.Reachable ∧
      LinearProgram.ofParts matrix senses rhs bounds costs = .ok p := by
  cases h with
  | ofParts hm h => exact ⟨_, _, _, _, _, hm, h⟩
  | @ofRows m n rows bounds senses rhs costs _ h =>
    rw [LinearProgram.ofRows] at h
    cases hmatrix : SparseMatrix.ofRows m n rows with
    | error e =>
      rw [hmatrix] at h
      cases h
    | ok matrix =>
      rw [hmatrix] at h
      exact ⟨_, _, _, _, _, .ofRows hmatrix, h⟩

theorem Built.sound (h : p.Built) : p.Sound := by
  obtain ⟨matrix, senses, rhs, bounds, costs, hm, hp⟩ := h.exists_ofParts
  exact .ofParts hm.wellFormed hp

theorem Reachable.sound (h : p.Reachable) : p.Sound := by
  induction h with
  | zero numConstraints numVariables => exact .zero numConstraints numVariables
  | built h => exact h.sound
  | edited _ e ih => exact ih.edited e
  | reduced _ calls ih => exact ((Reduction.reduces_start ih).run calls).depicts.sound

theorem Reachable.run (h : p.Reachable) (edits : List (Edit f)) : (p.run edits).Reachable := by
  induction edits generalizing p with
  | nil => exact h
  | cons e edits ih => exact ih (.edited h e)

end LinearProgram

end StandardLp
