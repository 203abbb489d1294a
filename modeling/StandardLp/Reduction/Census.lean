import StandardLp.Program.Sense

/-!
A census of the rows and columns that a reduction appends, by what they are for.
-/

namespace StandardLp

/-- What a new row is for: it is half of an equality, or it enforces a bound. -/
inductive RowKind where
  | equalityCopy
  | bound (side : Side)
deriving DecidableEq, Repr

/-- What a new column is for. -/
inductive ColumnKind where
  | negativePart
  | slack
deriving DecidableEq, Repr

/-- The size of a program at first and what was appended since. -/
structure Census where
  initialConstraints : Nat
  initialVariables : Nat
  equalityCopies : Nat := 0
  lowerBounds : Nat := 0
  upperBounds : Nat := 0
  negativeParts : Nat := 0
  slacks : Nat := 0
deriving DecidableEq, Repr

namespace Census

def addRow (c : Census) : RowKind → Census
  | .equalityCopy => { c with equalityCopies := c.equalityCopies + 1 }
  | .bound .lower => { c with lowerBounds := c.lowerBounds + 1 }
  | .bound .upper => { c with upperBounds := c.upperBounds + 1 }

def addColumn (c : Census) : ColumnKind → Census
  | .negativePart => { c with negativeParts := c.negativeParts + 1 }
  | .slack => { c with slacks := c.slacks + 1 }

def numConstraints (c : Census) : Nat :=
  c.initialConstraints + c.equalityCopies + c.lowerBounds + c.upperBounds

def numVariables (c : Census) : Nat := c.initialVariables + c.negativeParts + c.slacks

def text (c : Census) : String :=
  s!"{c.initialConstraints} x {c.initialVariables} -> {c.numConstraints} x {c.numVariables} "
    ++ s!"(rows: {c.equalityCopies} equality copies, {c.lowerBounds} lower bounds, "
    ++ s!"{c.upperBounds} upper bounds; columns: {c.negativeParts} negative parts, "
    ++ s!"{c.slacks} slacks)"

@[simp] theorem numConstraints_addRow (c : Census) (k : RowKind) :
    (c.addRow k).numConstraints = c.numConstraints + 1 := by
  rcases k with _ | (_ | _) <;> simp only [addRow, numConstraints] <;> omega

@[simp] theorem numVariables_addRow (c : Census) (k : RowKind) :
    (c.addRow k).numVariables = c.numVariables := by
  rcases k with _ | (_ | _) <;> rfl

@[simp] theorem numConstraints_addColumn (c : Census) (k : ColumnKind) :
    (c.addColumn k).numConstraints = c.numConstraints := by
  cases k <;> rfl

@[simp] theorem numVariables_addColumn (c : Census) (k : ColumnKind) :
    (c.addColumn k).numVariables = c.numVariables + 1 := by
  cases k <;> simp only [addColumn, numVariables] <;> omega

end Census

end StandardLp
