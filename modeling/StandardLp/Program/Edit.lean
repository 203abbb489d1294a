import StandardLp.Program.Basic

/-!
Cells and edits of a linear program as data. An edit that is refused changes nothing.
-/

namespace StandardLp

namespace LinearProgram

/-- The places of a program that hold one value each, with the type of the value. -/
inductive Cell (f : Format) : Type → Type where
  | sense (i : Nat) : Cell f Sense
  | rhs (i : Nat) : Cell f (Binary f)
  | coefficient (i j : Nat) : Cell f (Binary f)
  | lower (j : Nat) : Cell f (Binary f)
  | upper (j : Nat) : Cell f (Binary f)
  | cost (j : Nat) : Cell f (Binary f)

inductive Edit (f : Format) where
  | setSense (i : Nat) (s : Sense)
  | setCoefficient (i j : Nat) (x : Binary f)
  | setCost (j : Nat) (x : Binary f)
  | setLower (j : Nat) (x : Binary f)
  | setUpper (j : Nat) (x : Binary f)
  | addVariable
  | addConstraint (s : Sense) (rhs : Binary f)
  | copyConstraint (i : Nat)
deriving DecidableEq

variable {f : Format}

def read (p : LinearProgram f) {β : Type} : Cell f β → Except IndexError β
  | .sense i => Constraint.sense <$> p.constraintAt i
  | .rhs i => Constraint.rhs <$> p.constraintAt i
  | .coefficient i j => p.coefficient i j
  | .lower j => Variable.lower <$> p.variableAt j
  | .upper j => Variable.upper <$> p.variableAt j
  | .cost j => Variable.cost <$> p.variableAt j

/-- Carries out one edit and returns the index that it appended, if any. -/
def apply (p : LinearProgram f) : Edit f → Except IndexError (Option Nat × LinearProgram f)
  | .setSense i s => (none, ·) <$> p.setSense i s
  | .setCoefficient i j x => (none, ·) <$> p.setCoefficient i j x
  | .setCost j x => (none, ·) <$> p.setCost j x
  | .setLower j x => (none, ·) <$> p.setLower j x
  | .setUpper j x => (none, ·) <$> p.setUpper j x
  | .addVariable => .ok (p.addVariable.map some id)
  | .addConstraint s rhs => .ok ((p.addConstraint s rhs).map some id)
  | .copyConstraint i => Prod.map some id <$> p.copyConstraint i

/-- The program after an edit, which is the old one if the edit is refused. -/
def edited (p : LinearProgram f) (e : Edit f) : LinearProgram f :=
  match p.apply e with
  | .ok (_, p') => p'
  | .error _ => p

def run (p : LinearProgram f) (edits : List (Edit f)) : LinearProgram f := edits.foldl edited p

end LinearProgram

end StandardLp
