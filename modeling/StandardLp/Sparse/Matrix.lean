import StandardLp.Index
import StandardLp.Sparse.Vector

/-!
Sparse matrices that grow in both directions. Every entry is stored twice, in the vector of its
row and in that of its column, so that both can be read without a search. Rows and columns are
appended and never removed, so an index that was handed out once stays valid.

The total operations (`entry`, `rowAt`, `columnAt`, `write`) read zeros outside the matrix; the
checked ones (`get`, `row`, `column`, `set`, `copyRow`) refuse such an index and look at the row
index first. The checks are debug assertions: a refusal is a panic, and it comes before any change,
in a build with debug assertions. Nothing is said of builds without them.
-/

namespace StandardLp

structure SparseMatrix (α : Type) where
  rows : Array (SparseVector α)
  columns : Array (SparseVector α)
deriving BEq, DecidableEq, Repr

namespace SparseMatrix

variable {α : Type}

def numRows (m : SparseMatrix α) : Nat := m.rows.size

def numColumns (m : SparseMatrix α) : Nat := m.columns.size

/-- The number of stored entries, counted by rows. -/
def numNonzeros (m : SparseMatrix α) : Nat := m.rows.toList.foldl (fun n v => n + v.size) 0

def zero (numRows numColumns : Nat) : SparseMatrix α :=
  ⟨Array.replicate numRows .empty, Array.replicate numColumns .empty⟩

instance : Inhabited (SparseMatrix α) := ⟨zero 0 0⟩

def rowAt (m : SparseMatrix α) (i : Nat) : SparseVector α := m.rows[i]?.getD .empty

def columnAt (m : SparseMatrix α) (j : Nat) : SparseVector α := m.columns[j]?.getD .empty

def entry [Zero α] (m : SparseMatrix α) (i j : Nat) : α := (m.rowAt i).value j

def write [Zero α] [BEq α] (m : SparseMatrix α) (i j : Nat) (x : α) : SparseMatrix α :=
  ⟨m.rows.modify i (·.set j x), m.columns.modify j (·.set i x)⟩

def addRow (m : SparseMatrix α) : Nat × SparseMatrix α :=
  (m.numRows, { m with rows := m.rows.push .empty })

def addColumn (m : SparseMatrix α) : Nat × SparseMatrix α :=
  (m.numColumns, { m with columns := m.columns.push .empty })

/-- Appends `v` as a row. The new row has the largest index, so its entries go to the ends of
their columns. -/
def appendRow (m : SparseMatrix α) (v : SparseVector α) : SparseMatrix α where
  rows := m.rows.push v
  columns := v.entries.foldl (fun cs e => cs.modify e.1 (·.push m.numRows e.2)) m.columns

def get [Zero α] (m : SparseMatrix α) (i j : Nat) : Except IndexError α := do
  Axis.row.check i m.numRows
  Axis.column.check j m.numColumns
  return m.entry i j

/-- Writes `x` after both assertions have passed. -/
def set [Zero α] [BEq α] (m : SparseMatrix α) (i j : Nat) (x : α) :
    Except IndexError (SparseMatrix α) := do
  Axis.row.check i m.numRows
  Axis.column.check j m.numColumns
  return m.write i j x

def row (m : SparseMatrix α) (i : Nat) : Except IndexError (SparseVector α) := do
  Axis.row.check i m.numRows
  return m.rowAt i

def column (m : SparseMatrix α) (j : Nat) : Except IndexError (SparseVector α) := do
  Axis.column.check j m.numColumns
  return m.columnAt j

/-- Appends a copy of row `i` and returns its index. -/
def copyRow (m : SparseMatrix α) (i : Nat) : Except IndexError (Nat × SparseMatrix α) := do
  Axis.row.check i m.numRows
  return (m.numRows, m.appendRow (m.rowAt i))

def toDense [Zero α] (m : SparseMatrix α) : List (List α) :=
  m.rows.toList.map (·.dense m.numColumns)

end SparseMatrix

end StandardLp
