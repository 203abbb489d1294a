import StandardLp.Program.Sense
import StandardLp.Sparse.Exchange

/-!
Linear programs: minimize a cost over variables with bounds, subject to constraints. Row `i` of
the matrix holds the coefficients of constraint `i` and column `j` those of variable `j`.
Constraints and variables are appended and never removed. An unbounded side of a variable is an
infinite bound.
-/

namespace StandardLp

/-- What a row has besides its coefficients. -/
structure Constraint (f : Format) where
  sense : Sense
  rhs : Binary f
deriving BEq, DecidableEq

/-- What a column has besides its coefficients. -/
structure Variable (f : Format) where
  lower : Binary f
  upper : Binary f
  cost : Binary f
deriving BEq, DecidableEq

namespace Variable

variable {f : Format}

/-- A variable without cost and without bounds other than `x ≥ 0`. -/
def nonnegative : Variable f := ⟨0, .infinity, 0⟩

def lowerIsZero (v : Variable f) : Bool := v.lower == 0

def lowerIsInfinite (v : Variable f) : Bool := v.lower == -.infinity

def upperIsInfinite (v : Variable f) : Bool := v.upper == .infinity

end Variable

/-- Two programs compare equal (`==`) when all their numbers do. -/
structure LinearProgram (f : Format) where
  matrix : SparseMatrix (Binary f)
  constraints : Array (Constraint f)
  vars : Array (Variable f)
deriving BEq, DecidableEq

namespace LinearProgram

variable {f : Format}

/-- The program of the given size in which every constraint reads `0 ≤ 0`. -/
def zero (numConstraints numVariables : Nat) : LinearProgram f where
  matrix := .zero numConstraints numVariables
  constraints := Array.replicate numConstraints ⟨.less, 0⟩
  vars := Array.replicate numVariables .nonnegative

instance : Inhabited (LinearProgram f) := ⟨zero 0 0⟩

def numConstraints (p : LinearProgram f) : Nat := p.constraints.size

def numVariables (p : LinearProgram f) : Nat := p.vars.size

def numNonzeros (p : LinearProgram f) : Nat := p.matrix.numNonzeros

/-! ### Reading -/

def constraintAt (p : LinearProgram f) (i : Nat) : Except IndexError (Constraint f) :=
  match p.constraints[i]? with
  | some c => .ok c
  | none => .error ⟨.row, i, p.numConstraints⟩

def variableAt (p : LinearProgram f) (j : Nat) : Except IndexError (Variable f) :=
  match p.vars[j]? with
  | some v => .ok v
  | none => .error ⟨.column, j, p.numVariables⟩

def coefficient (p : LinearProgram f) (i j : Nat) : Except IndexError (Binary f) :=
  p.matrix.get i j

/-- The nonzero coefficients of variable `j`, by constraint. -/
def coefficients (p : LinearProgram f) (j : Nat) : Except IndexError (SparseVector (Binary f)) :=
  p.matrix.column j

/-! ### Overwriting -/

def modifyConstraint (p : LinearProgram f) (i : Nat) (g : Constraint f → Constraint f) :
    Except IndexError (LinearProgram f) := do
  Axis.row.check i p.numConstraints
  return { p with constraints := p.constraints.modify i g }

def modifyVariable (p : LinearProgram f) (j : Nat) (g : Variable f → Variable f) :
    Except IndexError (LinearProgram f) := do
  Axis.column.check j p.numVariables
  return { p with vars := p.vars.modify j g }

def setSense (p : LinearProgram f) (i : Nat) (s : Sense) : Except IndexError (LinearProgram f) :=
  p.modifyConstraint i ({ · with sense := s })

def setCoefficient (p : LinearProgram f) (i j : Nat) (x : Binary f) :
    Except IndexError (LinearProgram f) := do
  let matrix ← p.matrix.set i j x
  return { p with matrix }

def setCost (p : LinearProgram f) (j : Nat) (x : Binary f) : Except IndexError (LinearProgram f) :=
  p.modifyVariable j ({ · with cost := x })

def setLower (p : LinearProgram f) (j : Nat) (x : Binary f) : Except IndexError (LinearProgram f) :=
  p.modifyVariable j ({ · with lower := x })

def setUpper (p : LinearProgram f) (j : Nat) (x : Binary f) : Except IndexError (LinearProgram f) :=
  p.modifyVariable j ({ · with upper := x })

/-! ### Appending -/

/-- Appends a nonnegative variable that occurs in no constraint and returns its index. -/
def addVariable (p : LinearProgram f) : Nat × LinearProgram f :=
  let (j, matrix) := p.matrix.addColumn
  (j, { p with matrix, vars := p.vars.push .nonnegative })

/-- Appends a constraint without coefficients and returns its index. -/
def addConstraint (p : LinearProgram f) (s : Sense) (rhs : Binary f) : Nat × LinearProgram f :=
  let (i, matrix) := p.matrix.addRow
  (i, { p with matrix, constraints := p.constraints.push ⟨s, rhs⟩ })

/-- Appends a copy of constraint `i`, coefficients included, and returns its index. -/
def copyConstraint (p : LinearProgram f) (i : Nat) : Except IndexError (Nat × LinearProgram f) := do
  let c ← p.constraintAt i
  let (k, matrix) ← p.matrix.copyRow i
  return (k, { p with matrix, constraints := p.constraints.push c })

end LinearProgram

end StandardLp
