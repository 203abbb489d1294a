import StandardLp.Program.Basis
import StandardLp.Reduction.Phase

/-!
The ways in which a reduction to standard form can fail, and how they are told.
-/

namespace StandardLp

inductive ReductionError where
  | phaseOrder (operation : String) (expected found : Phase)
  | unexpectedEquality (constraint : Nat)
  | index (error : IndexError)
  | invalid (violation : Violation)
deriving DecidableEq, Repr

def ReductionError.message : ReductionError → String
  | phaseOrder operation expected found =>
    s!"cannot {operation} in phase {found.name}, expected phase {expected.name}"
  | unexpectedEquality constraint =>
    s!"unexpected constraint type Equal for constraint {constraint} while adding slacks"
  | index error => error.message
  | invalid violation => s!"standard form validation failed: {violation.message}"

end StandardLp
