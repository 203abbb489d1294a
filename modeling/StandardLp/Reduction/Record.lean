import StandardLp.Numeric.Text
import StandardLp.Program.Basis
import StandardLp.Reduction.Census

/-!
Records of a reduction. Every appended equality copy, bound row and negative part leaves a record
that names the rows and columns concerned, so the reduction can be followed from its log.
-/

namespace StandardLp

inductive Level where
  | trace
  | debug
  | info
  | warn
deriving DecidableEq, Repr

def Level.name : Level → String
  | trace => "TRACE"
  | debug => "DEBUG"
  | info => "INFO"
  | warn => "WARN"

inductive Record (f : Format) where
  | starting (operation : String) (numConstraints numVariables : Nat)
  | equalityCopied (constraint copy : Nat)
  | boundEnforced (side : Side) (bound : Binary f) (column constraint : Nat)
  | split (column negative : Nat)
  | reduced (census : Census)
  | invalid (violation : Violation)
  | valid
deriving DecidableEq

namespace Record

variable {f : Format}

def level : Record f → Level
  | starting .. => .debug
  | equalityCopied .. => .trace
  | boundEnforced .. => .trace
  | split .. => .trace
  | reduced _ => .info
  | invalid _ => .warn
  | valid => .debug

def text : Record f → String
  | starting operation numConstraints numVariables =>
    s!"Starting to {operation} with {numConstraints} constraints and {numVariables} variables"
  | equalityCopied constraint copy => s!"Equality constraint {constraint} copied to {copy}"
  | boundEnforced side bound column constraint =>
    s!"{side.name} bound {bound} of variable {column} is constraint {constraint}"
  | split column negative => s!"Variable {column} split, negative part is column {negative}"
  | reduced census => s!"Rewrote problem to standard form: {census.text}"
  | invalid violation => s!"Standard form is not valid: {violation.message}"
  | valid => "Standard form is valid"

def line (r : Record f) : String := r.level.name ++ " " ++ r.text

end Record

end StandardLp
