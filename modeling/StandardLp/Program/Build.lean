import StandardLp.Numeric.Text
import StandardLp.Program.Basic

/-!
Building a linear program from the data of a reader. The lengths have to agree with the size of
the matrix, and the bounds of every variable have to leave room for a number.
-/

namespace StandardLp

/-- A pair of bounds admits a number when its ends are in order and not the same infinity. A NaN
is in order with nothing. -/
def Variable.admissible {f : Format} (lower upper : Binary f) : Bool :=
  lower ≤ upper && !(lower == .infinity) && !(upper == -.infinity)

namespace LinearProgram

variable {f : Format}

/-- Puts a matrix together with the senses and right-hand sides of its rows and the bounds and
costs of its columns. Of several bad pairs of bounds the first is reported. -/
def ofParts (matrix : SparseMatrix (Binary f)) (senses : Array Sense) (rhs : Array (Binary f))
    (bounds : Array (Binary f × Binary f)) (costs : Array (Binary f)) :
    Except (Inconsistency (Binary f)) (LinearProgram f) :=
  if senses.size ≠ matrix.numRows ∨ rhs.size ≠ matrix.numRows then
    .error (.rowData matrix.numRows senses.size rhs.size)
  else if bounds.size ≠ matrix.numColumns ∨ costs.size ≠ matrix.numColumns then
    .error (.columnData matrix.numColumns bounds.size costs.size)
  else
    match bounds.toList.zipIdx.find? fun b => !Variable.admissible b.1.1 b.1.2 with
    | some ((lower, upper), j) => .error (.emptyBounds j lower upper)
    | none => .ok {
        matrix
        constraints := Array.zipWith .mk senses rhs
        vars := Array.zipWith (fun b cost => ⟨b.1, b.2, cost⟩) bounds costs }

def ofRows (numConstraints numVariables : Nat) (rows : Compressed (Binary f))
    (bounds : Array (Binary f × Binary f)) (senses : Array Sense) (rhs : Array (Binary f))
    (costs : Array (Binary f)) : Except (Inconsistency (Binary f)) (LinearProgram f) := do
  let matrix ← SparseMatrix.ofRows numConstraints numVariables rows
  ofParts matrix senses rhs bounds costs

end LinearProgram

end StandardLp
