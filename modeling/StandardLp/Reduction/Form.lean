import StandardLp.Reduction.Steps

/-!
The standard form: minimize a cost subject to `A x = b` and `x ≥ 0`, with a basis of slacks.
-/

namespace StandardLp

/-- A program in standard form, with the columns of its matrix in compressed storage. -/
structure StandardForm (f : Format) where
  columns : Compressed (Binary f)
  rhs : Array (Binary f)
  cost : Array (Binary f)
  numConstraints : Nat
  numVariables : Nat
  slackBasis : Array Nat
deriving BEq, DecidableEq

namespace Reduction

variable {f : Format}

/-- The present state of the program, in the shape of a standard form. -/
def form (s : Reduction f) : StandardForm f where
  columns := s.program.matrix.toColumns
  rhs := s.program.constraints.map (·.rhs)
  cost := s.program.vars.map (·.cost)
  numConstraints := s.program.numConstraints
  numVariables := s.program.numVariables
  slackBasis := s.slackBasis

def validate : ReduceM f Unit := do
  let s ← get
  match s.program.checkBasis s.slackBasis with
  | .ok () => record .valid
  | .error v =>
    record (.invalid v)
    throw (.invalid v)

/-- Takes all four steps and returns the slack basis, on request after a check of the result. -/
def reduce (check : Bool) : ReduceM f (Array Nat) := do
  splitEqualities
  enforceBounds
  fillNegatives
  addSlacks
  record (.reduced (← get).census)
  if check then validate
  return (← get).slackBasis

def finish : ReduceM f (StandardForm f) := do
  enter "finish" .slacksAdded
  return (← get).form

end Reduction

end StandardLp
