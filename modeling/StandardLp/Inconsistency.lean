/-!
The ways in which the data of a linear program can fail to fit together, and how they are told.
-/

namespace StandardLp

inductive Inconsistency (α : Type) where
  | entryCounts (values indices : Nat)
  | offsetCount (rows offsets : Nat)
  | offsetEnds (values : Nat)
  | offsetOrder
  | columnRange (column row columns : Nat)
  | rowData (rows senses rhs : Nat)
  | columnData (columns bounds costs : Nat)
  | emptyBounds (column : Nat) (lower upper : α)
  | other (description : String)
deriving DecidableEq, Repr

namespace Inconsistency

variable {α : Type} [ToString α]

def description : Inconsistency α → String
  | entryCounts values indices => s!"{values} values but {indices} column indices"
  | offsetCount rows offsets => s!"Expected {rows + 1} row offsets for {rows} rows, got {offsets}"
  | offsetEnds values => s!"Row offsets should start at 0 and end at {values}"
  | offsetOrder => "Row offsets are not non-decreasing"
  | columnRange column row columns =>
    s!"Column index {column} in row {row} is out of range for {columns} columns"
  | rowData rows senses rhs =>
    s!"Expected {rows} constraint types and right-hand sides, got {senses} and {rhs}"
  | columnData columns bounds costs =>
    s!"Expected {columns} bounds and costs, got {bounds} and {costs}"
  | emptyBounds column lower upper =>
    s!"Variable {column} has inconsistent bounds [{lower}, {upper}]"
  | other description => description

def message (e : Inconsistency α) : String := "InconsistencyError: " ++ e.description

end Inconsistency

end StandardLp
