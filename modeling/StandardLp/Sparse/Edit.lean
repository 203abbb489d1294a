import StandardLp.Sparse.Matrix

/-!
Edits of a matrix as data. An edit that is refused changes nothing.
-/

namespace StandardLp

namespace SparseMatrix

inductive Edit (α : Type) where
  | set (i j : Nat) (x : α)
  | addRow
  | addColumn
  | copyRow (i : Nat)
deriving DecidableEq, Repr

variable {α : Type} [Zero α] [BEq α]

/-- Carries out one edit and returns the index that it appended, if any. -/
def apply (m : SparseMatrix α) : Edit α → Except IndexError (Option Nat × SparseMatrix α)
  | .set i j x => (none, ·) <$> m.set i j x
  | .addRow => .ok (m.addRow.map some id)
  | .addColumn => .ok (m.addColumn.map some id)
  | .copyRow i => Prod.map some id <$> m.copyRow i

/-- The matrix after an edit, which is the old one if the edit is refused. -/
def edited (m : SparseMatrix α) (e : Edit α) : SparseMatrix α :=
  match m.apply e with
  | .ok (_, m') => m'
  | .error _ => m

def run (m : SparseMatrix α) (edits : List (Edit α)) : SparseMatrix α := edits.foldl edited m

end SparseMatrix

end StandardLp
