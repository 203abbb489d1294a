import StandardLp.Sparse.Compressed
import StandardLp.Sparse.Edit

/-!
Grids: matrices as functions of row and column, without any storage. A grid takes the edits of a
sparse matrix one by one: every entry is zero at first, a write changes one entry, and what is
appended is zero or a copy.
-/

namespace StandardLp

structure Grid (α : Type) where
  numRows : Nat
  numColumns : Nat
  value : Nat → Nat → α

/-- What is read after `x` was written. All zeros are written as the one. -/
def written {α : Type} [Zero α] [BEq α] (x : α) : α := if x == 0 then 0 else x

namespace Grid

variable {α : Type} [Zero α] [BEq α]

def zero (numRows numColumns : Nat) : Grid α := ⟨numRows, numColumns, fun _ _ => 0⟩

/-- Of several values that are given for one entry, the last counts. -/
def ofRows (numRows numColumns : Nat) (rows : Compressed α) : Grid α where
  numRows := numRows
  numColumns := numColumns
  value i j :=
    (((rows.vector? i).getD []).reverse.find? (·.1 == j)).elim 0 fun e => written e.2

/-! ### Edits -/

def set (g : Grid α) (i j : Nat) (x : α) : Grid α :=
  { g with value := fun k l => if k = i ∧ l = j then written x else g.value k l }

def addRow (g : Grid α) : Grid α where
  numRows := g.numRows + 1
  numColumns := g.numColumns
  value i j := if i = g.numRows then 0 else g.value i j

def addColumn (g : Grid α) : Grid α where
  numRows := g.numRows
  numColumns := g.numColumns + 1
  value i j := if j = g.numColumns then 0 else g.value i j

def copyRow (g : Grid α) (i : Nat) : Grid α where
  numRows := g.numRows + 1
  numColumns := g.numColumns
  value k j := if k = g.numRows then g.value i j else g.value k j

/-- The grid after an edit. An edit out of range changes nothing. -/
def edited (g : Grid α) : SparseMatrix.Edit α → Grid α
  | .set i j x => if i < g.numRows ∧ j < g.numColumns then g.set i j x else g
  | .addRow => g.addRow
  | .addColumn => g.addColumn
  | .copyRow i => if i < g.numRows then g.copyRow i else g

def run (g : Grid α) (edits : List (SparseMatrix.Edit α)) : Grid α := edits.foldl edited g

/-! ### Entries other than zero -/

def stored (g : Grid α) (i j : Nat) : Option α :=
  if g.value i j == 0 then none else some (g.value i j)

def rowEntries (g : Grid α) (i : Nat) : List (Nat × α) :=
  (List.range g.numColumns).filterMap fun j => (g.stored i j).map (j, ·)

def columnEntries (g : Grid α) (j : Nat) : List (Nat × α) :=
  (List.range g.numRows).filterMap fun i => (g.stored i j).map (i, ·)

/-- The nonzero entries of the columns below `n`, one column after the other. -/
def entriesBelow (g : Grid α) (n : Nat) : List (Nat × α) := (List.range n).flatMap g.columnEntries

/-- The columns one after the other, and where each of them starts. -/
def toColumns (g : Grid α) : Compressed α where
  values := ((g.entriesBelow g.numColumns).map (·.2)).toArray
  indices := ((g.entriesBelow g.numColumns).map (·.1)).toArray
  starts := ((List.range (g.numColumns + 1)).map fun k => (g.entriesBelow k).length).toArray

def toDense (g : Grid α) : List (List α) :=
  (List.range g.numRows).map fun i => (List.range g.numColumns).map (g.value i)

end Grid

end StandardLp
