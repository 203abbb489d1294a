import StandardLp.Program.Build
import StandardLp.Program.Edit

/-!
The storage of a linear program: a matrix, and one vector for every kind of value that a row or a
column has besides its coefficients. An index is compared with the length of one vector and then
used in another or in the matrix, and what is appended goes to several of them in turn. So an
operation runs in place. It is refused when its index is out of range, and it panics when an access
is out of bounds or an assertion fails, which are checked as in a build with debug assertions. The
storage outlives both, with all that has been changed until then.
-/

namespace StandardLp

structure Store (f : Format) where
  matrix : SparseMatrix (Binary f)
  senses : Array Sense
  rhs : Array (Binary f)
  lower : Array (Binary f)
  upper : Array (Binary f)
  costs : Array (Binary f)
deriving BEq, DecidableEq

inductive Fault where
  | refused (e : IndexError)
  | panic
deriving DecidableEq, Repr

abbrev StoreM (f : Format) := EStateM Fault (Store f)

namespace Store

variable {f : Format} {α β : Type}

/-! ### Building -/

def zero (numConstraints numVariables : Nat) : Store f where
  matrix := .zero numConstraints numVariables
  senses := Array.replicate numConstraints .less
  rhs := Array.replicate numConstraints 0
  lower := Array.replicate numVariables 0
  upper := Array.replicate numVariables .infinity
  costs := Array.replicate numVariables 0

instance : Inhabited (Store f) := ⟨zero 0 0⟩

def ofParts (matrix : SparseMatrix (Binary f)) (senses : Array Sense) (rhs : Array (Binary f))
    (bounds : Array (Binary f × Binary f)) (costs : Array (Binary f)) :
    Except (Inconsistency (Binary f)) (Store f) :=
  if senses.size ≠ matrix.numRows ∨ rhs.size ≠ matrix.numRows then
    .error (.rowData matrix.numRows senses.size rhs.size)
  else if bounds.size ≠ matrix.numColumns ∨ costs.size ≠ matrix.numColumns then
    .error (.columnData matrix.numColumns bounds.size costs.size)
  else
    match bounds.toList.zipIdx.find? fun b => !Variable.admissible b.1.1 b.1.2 with
    | some ((lower, upper), j) => .error (.emptyBounds j lower upper)
    | none => .ok { matrix, senses, rhs, lower := bounds.map (·.1), upper := bounds.map (·.2), costs }

def ofRows (numConstraints numVariables : Nat) (rows : Compressed (Binary f))
    (bounds : Array (Binary f × Binary f)) (senses : Array Sense) (rhs : Array (Binary f))
    (costs : Array (Binary f)) : Except (Inconsistency (Binary f)) (Store f) := do
  let matrix ← SparseMatrix.ofRows numConstraints numVariables rows
  ofParts matrix senses rhs bounds costs

/-! ### Lengths -/

def numConstraints (s : Store f) : Nat := s.senses.size

def numVariables (s : Store f) : Nat := s.costs.size

def length (s : Store f) : Axis → Nat
  | .row => s.numConstraints
  | .column => s.numVariables

def check (axis : Axis) (i : Nat) : StoreM f Unit := do
  let s ← get
  match axis.check i (s.length axis) with
  | .ok () => return
  | .error e => throw (.refused e)

/-- Asserts that `k` is the last index. -/
def assertLast (axis : Axis) (k : Nat) : StoreM f Unit := do
  let s ← get
  if k + 1 = s.length axis then return else throw .panic

/-! ### Vectors -/

/-- One of the vectors, with the axis on which its indices are checked. -/
structure Field (f : Format) (α : Type) where
  axis : Axis
  values : Store f → Array α
  update : Array α → Store f → Store f

namespace Field

def sense : Field f Sense := ⟨.row, (·.senses), fun senses s => { s with senses }⟩

def rhs : Field f (Binary f) := ⟨.row, (·.rhs), fun rhs s => { s with rhs }⟩

def lower : Field f (Binary f) := ⟨.column, (·.lower), fun lower s => { s with lower }⟩

def upper : Field f (Binary f) := ⟨.column, (·.upper), fun upper s => { s with upper }⟩

def cost : Field f (Binary f) := ⟨.column, (·.costs), fun costs s => { s with costs }⟩

variable (x : Field f α)

/-- Reads without a check. -/
def fetch (i : Nat) : StoreM f α := do
  match (x.values (← get))[i]? with
  | some a => return a
  | none => throw .panic

/-- Overwrites without a check. -/
def assign (i : Nat) (a : α) : StoreM f Unit := do
  let s ← get
  if i < (x.values s).size then set (x.update ((x.values s).setIfInBounds i a) s)
  else throw .panic

def push (a : α) : StoreM f Unit := modify fun s => x.update ((x.values s).push a) s

def read (i : Nat) : StoreM f α := do
  check x.axis i
  x.fetch i

def overwrite (i : Nat) (a : α) : StoreM f Unit := do
  check x.axis i
  x.assign i a

end Field

/-! ### The matrix -/

/-- Reads from the matrix, where an index that is out of range fails an assertion. -/
def consult (g : SparseMatrix (Binary f) → Except IndexError β) : StoreM f β := do
  match g (← get).matrix with
  | .ok b => return b
  | .error _ => throw .panic

/-- Changes the matrix, where an index that is out of range fails an assertion. -/
def revise (g : SparseMatrix (Binary f) → Except IndexError (β × SparseMatrix (Binary f))) :
    StoreM f β := do
  match g (← get).matrix with
  | .ok (b, matrix) =>
    modify ({ · with matrix })
    return b
  | .error _ => throw .panic

def coefficient (i j : Nat) : StoreM f (Binary f) := do
  check .row i
  check .column j
  consult (·.get i j)

def coefficients (j : Nat) : StoreM f (SparseVector (Binary f)) := do
  check .column j
  consult (·.column j)

def setCoefficient (i j : Nat) (a : Binary f) : StoreM f Unit := do
  check .row i
  check .column j
  revise fun m => ((), ·) <$> m.set i j a

/-! ### Appending -/

def addVariable : StoreM f Nat := do
  let j ← revise fun m => .ok m.addColumn
  Field.lower.push 0
  Field.upper.push .infinity
  Field.cost.push 0
  assertLast .column j
  return j

def addConstraint (sense : Sense) (rhs : Binary f) : StoreM f Nat := do
  let i ← revise fun m => .ok m.addRow
  Field.sense.push sense
  Field.rhs.push rhs
  assertLast .row i
  return i

def copyConstraint (i : Nat) : StoreM f Nat := do
  check .row i
  let k ← revise (·.copyRow i)
  Field.sense.push (← Field.sense.fetch i)
  Field.rhs.push (← Field.rhs.fetch i)
  assertLast .row k
  return k

/-! ### Requests -/

/-- All that can be asked by index, and what appends, with the type of the answer. -/
inductive Request (f : Format) : Type → Type 1 where
  | value {β : Type} (c : LinearProgram.Cell f β) : Request f β
  | coefficients (j : Nat) : Request f (SparseVector (Binary f))
  | lowerIsZero (j : Nat) : Request f Bool
  | lowerIsInfinite (j : Nat) : Request f Bool
  | upperIsInfinite (j : Nat) : Request f Bool
  | edit (e : LinearProgram.Edit f) : Request f (Option Nat)

def fetch : LinearProgram.Cell f β → StoreM f β
  | .sense i => Field.sense.read i
  | .rhs i => Field.rhs.read i
  | .coefficient i j => coefficient i j
  | .lower j => Field.lower.read j
  | .upper j => Field.upper.read j
  | .cost j => Field.cost.read j

/-- Carries out one edit and returns the index that it appended, if any. -/
def apply : LinearProgram.Edit f → StoreM f (Option Nat)
  | .setSense i s => do Field.sense.overwrite i s; return none
  | .setCoefficient i j a => do setCoefficient i j a; return none
  | .setCost j a => do Field.cost.overwrite j a; return none
  | .setLower j a => do Field.lower.overwrite j a; return none
  | .setUpper j a => do Field.upper.overwrite j a; return none
  | .addVariable => some <$> addVariable
  | .addConstraint s b => some <$> addConstraint s b
  | .copyConstraint i => some <$> copyConstraint i

def perform : Request f β → StoreM f β
  | .value c => fetch c
  | .coefficients j => coefficients j
  | .lowerIsZero j => (· == 0) <$> Field.lower.read j
  | .lowerIsInfinite j => (· == -.infinity) <$> Field.lower.read j
  | .upperIsInfinite j => (· == .infinity) <$> Field.upper.read j
  | .edit e => apply e

/-- The storage after a request, also if it has been refused or has panicked. -/
def after (s : Store f) (r : Request f β) : Store f :=
  match (perform r).run s with
  | .ok _ t => t
  | .error _ t => t

def run (s : Store f) (edits : List (LinearProgram.Edit f)) : Store f :=
  edits.foldl (fun s e => s.after (.edit e)) s

/-- The value of a cell, if it can be read. -/
def read (s : Store f) (c : LinearProgram.Cell f β) : Except Fault β :=
  match (fetch c).run s with
  | .ok b _ => .ok b
  | .error e _ => .error e

/-! ### Programs -/

def program (s : Store f) : LinearProgram f where
  matrix := s.matrix
  constraints := Array.zipWith .mk s.senses s.rhs
  vars := Array.zipWith (fun b cost => ⟨b.1, b.2, cost⟩) (s.lower.zip s.upper) s.costs

def ofProgram (p : LinearProgram f) : Store f where
  matrix := p.matrix
  senses := p.constraints.map (·.sense)
  rhs := p.constraints.map (·.rhs)
  lower := p.vars.map (·.lower)
  upper := p.vars.map (·.upper)
  costs := p.vars.map (·.cost)

end Store

end StandardLp
