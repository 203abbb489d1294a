import StandardLp.Program.Basic

/-!
Checking that a program is in standard form with a given basis: every constraint is an equality,
and for every constraint the basis names a column whose only nonzero is a one or minus one in
that constraint.
-/

namespace StandardLp

/-- A way in which a program and a basis fail to be in standard form. -/
inductive Violation where
  | inequality (constraint : Nat) (found : Sense)
  | basisLength (expected found : Nat)
  | columnRange (constraint column numVariables : Nat)
  | notUnit (constraint column : Nat)
  | outsideRow (constraint column other : Nat)
deriving DecidableEq, Repr

def Violation.message : Violation → String
  | inequality constraint found =>
    s!"constraint {constraint} has type {found.name}, expected an equality"
  | basisLength expected found =>
    s!"basis has {found} columns but there are {expected} constraints"
  | columnRange constraint column numVariables =>
    s!"basis column {column} for constraint {constraint} is out of range for {numVariables} variables"
  | notUnit constraint column =>
    s!"basis column {column} doesn't have a unit coefficient in constraint {constraint}"
  | outsideRow constraint column other =>
    s!"basis column {column} for constraint {constraint} has a nonzero in constraint {other}"

namespace LinearProgram

variable {f : Format}

/-- Checks that column `j` can be basic for constraint `i`. -/
def checkBasic (p : LinearProgram f) (i j : Nat) : Except Violation Unit :=
  if p.numVariables ≤ j then .error (.columnRange i j p.numVariables)
  else if !(p.matrix.entry i j == 1) && !(p.matrix.entry i j == -1) then .error (.notUnit i j)
  else
    match (p.matrix.columnAt j).entries.find? (·.1 != i) with
    | some (other, _) => .error (.outsideRow i j other)
    | none => .ok ()

/-- Reports the first violation: of the constraints, of the length of the basis, then of its
columns in order. -/
def checkBasis (p : LinearProgram f) (basis : Array Nat) : Except Violation Unit :=
  match p.constraints.toList.zipIdx.find? (·.1.sense != .equal) with
  | some (c, i) => .error (.inequality i c.sense)
  | none =>
    if basis.size ≠ p.numConstraints then .error (.basisLength p.numConstraints basis.size)
    else basis.toList.zipIdx.forM fun e => p.checkBasic e.2 e.1

end LinearProgram

end StandardLp
