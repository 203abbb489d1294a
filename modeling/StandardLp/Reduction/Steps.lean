import StandardLp.Reduction.Basic

/-!
The four steps to standard form.

1. An equality `a = b` becomes `a ≤ b` and a copy `a ≥ b`.
2. A variable with a lower bound other than zero or an upper bound other than infinity is split
   into a positive and a negative part, and these bounds become rows if they are not infinite.
3. The negative parts receive the negated coefficients and costs, and the bounds of the split
   variables become `x ≥ 0`.
4. Every row receives a slack that makes it an equality.

A step visits the rows or columns that are there when it starts, not those that it appends.
-/

namespace StandardLp

def LinearProgram.equalities {f : Format} (p : LinearProgram f) : List Nat :=
  (p.constraints.toList.zipIdx.filter (·.1.sense == .equal)).map (·.2)

namespace Reduction

variable {f : Format}

/-- Bounds the activity of row `i` from above and that of a copy from below. -/
def splitEquality (i : Nat) : ReduceM f Unit := do
  let copy ← revise (·.copyConstraint i)
  edit (·.setSense i .less)
  edit (·.setSense copy .greater)
  countRow .equalityCopy
  record (.equalityCopied i copy)

def splitEqualities : ReduceM f Unit := do
  enter "replace equality constraints" .start
  (← get).program.equalities.forM splitEquality
  advance

/-- Gives variable `j` a negative part, once, and returns its column. -/
def split (j : Nat) : ReduceM f Nat := do
  let s ← get
  if .negativesFilled ≤ s.phase then
    throw (.phaseOrder "split a variable" .boundsEnforced s.phase)
  else
    let _ ← consult (·.variableAt j)
    match s.splits.get? j with
    | some negative => return negative
    | none =>
      let negative ← append (·.addVariable)
      modify fun s => { s with splits := s.splits.insert j negative }
      countColumn .negativePart
      record (.split j negative)
      return negative

def addBoundRow (side : Side) (bound : Binary f) (j : Nat) : ReduceM f Unit := do
  let i ← append (·.addConstraint side.sense bound)
  edit (·.setCoefficient i j 1)
  countRow (.bound side)
  record (.boundEnforced side bound j i)

/-- A nonzero lower bound calls for a negative part and, unless it is infinite, for a row. -/
def enforceLower (v : Variable f) (j : Nat) : ReduceM f Unit :=
  if v.lowerIsZero then return
  else do
    let _ ← split j
    if v.lowerIsInfinite then return else addBoundRow .lower v.lower j

/-- An upper bound, unless it is infinite, calls for a negative part and a row. -/
def enforceUpper (v : Variable f) (j : Nat) : ReduceM f Unit :=
  if v.upperIsInfinite then return
  else do
    let _ ← split j
    addBoundRow .upper v.upper j

def enforceBoundsOf (j : Nat) : ReduceM f Unit := do
  let v ← consult (·.variableAt j)
  enforceLower v j
  enforceUpper v j

/-- The bounds themselves stay in place until the negative parts are filled in. -/
def enforceBounds : ReduceM f Unit := do
  enter "handle bounds" .equalitiesSplit
  (List.range (← get).program.numVariables).forM enforceBoundsOf
  advance

/-- Frees variable `j` of its bounds and makes column `negative`, which is empty, its opposite. -/
def fillNegative (j negative : Nat) : ReduceM f Unit := do
  edit (·.setLower j 0)
  edit (·.setUpper j .infinity)
  let column ← consult (·.coefficients j)
  column.entries.forM fun e => edit (·.setCoefficient e.1 negative (-e.2))
  let v ← consult (·.variableAt j)
  edit (·.setCost negative (-v.cost))

/-- Goes through the split variables in increasing order. A negative part that is itself split
has a larger index than its variable, so it is complete before its own negative part is filled. -/
def fillNegatives : ReduceM f Unit := do
  enter "replace variables" .boundsEnforced
  (← get).splits.entries.forM fun e => fillNegative e.1 e.2
  advance

/-- Makes row `i` an equality by a new column, which is basic for it. -/
def addSlack (i : Nat) : ReduceM f Unit := do
  let c ← consult (·.constraintAt i)
  match c.sense.side? with
  | none => throw (.unexpectedEquality i)
  | some side =>
    let slack ← append (·.addVariable)
    modify fun s => { s with slackBasis := s.slackBasis.push slack }
    edit (·.setCoefficient i slack side.slack)
    edit (·.setSense i .equal)
    countColumn .slack

/-- It is asserted that all rows have slacks then (see `Depicts.size_slackBasis_final`). -/
def addSlacks : ReduceM f Unit := do
  enter "handle sense" .negativesFilled
  (List.range (← get).program.numConstraints).forM addSlack
  advance

end Reduction

end StandardLp
