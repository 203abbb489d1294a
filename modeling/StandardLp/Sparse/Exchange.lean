import StandardLp.Inconsistency
import StandardLp.Sparse.Compressed
import StandardLp.Sparse.Matrix

/-!
Exchange of matrices in compressed storage. A matrix is read from the entries of its rows and
handed out as the entries of its columns.
-/

namespace StandardLp

namespace SparseMatrix

variable {α : Type}

/-- Reads a matrix from its rows, of which later entries overwrite earlier ones. The offsets are
checked before anything of the matrix's size is built. -/
def ofRows [Zero α] [BEq α] (numRows numColumns : Nat) (c : Compressed α) :
    Except (Inconsistency α) (SparseMatrix α) :=
  if c.values.size ≠ c.indices.size then
    .error (.entryCounts c.values.size c.indices.size)
  else if c.starts.size ≠ numRows + 1 then
    .error (.offsetCount numRows c.starts.size)
  else if c.starts[0]? ≠ some 0 ∨ c.starts[numRows]? ≠ some c.values.size then
    .error (.offsetEnds c.values.size)
  else if Compressed.nondecreasing c.starts.toList = false then
    .error .offsetOrder
  else
    match c.triples.find? fun t => numColumns ≤ t.2.1 with
    | some (i, j, _) => .error (.columnRange j i numColumns)
    | none => .ok (c.triples.foldl (fun m t => m.write t.1 t.2.1 t.2.2) (zero numRows numColumns))

def toColumns (m : SparseMatrix α) : Compressed α := .ofVectors m.columns.toList

end SparseMatrix

end StandardLp
