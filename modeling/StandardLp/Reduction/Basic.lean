import StandardLp.Program.Edit
import StandardLp.Reduction.Error
import StandardLp.Reduction.Record

/-!
Reductions: a linear program on its way to standard form, together with what is known about its
new rows and columns. Actions on a reduction run in a state monad with errors in which the state
outlives an error, so whether a failed action leaves its mark is a fact about the action.
-/

namespace StandardLp

/-- The map `splits` takes a split variable to the column of its negative part. Row `i` has the
slack `slackBasis[i]`. -/
structure Reduction (f : Format) where
  program : LinearProgram f
  splits : IndexMap Nat
  slackBasis : Array Nat
  phase : Phase
  census : Census
  log : Array (Record f)
deriving DecidableEq

abbrev ReduceM (f : Format) := EStateM ReductionError (Reduction f)

namespace Reduction

variable {f : Format} {β : Type}

def start (p : LinearProgram f) : Reduction f where
  program := p
  splits := .empty
  slackBasis := #[]
  phase := .start
  census := { initialConstraints := p.numConstraints, initialVariables := p.numVariables }
  log := #[]

def record (r : Record f) : ReduceM f Unit := modify fun s => { s with log := s.log.push r }

def consult (read : LinearProgram f → Except IndexError β) : ReduceM f β := do
  match read (← get).program with
  | .ok b => return b
  | .error e => throw (.index e)

/-- Changes the program by a step that can be refused and has a result. -/
def revise (change : LinearProgram f → Except IndexError (β × LinearProgram f)) : ReduceM f β := do
  match change (← get).program with
  | .ok (b, p) =>
    modify ({ · with program := p })
    return b
  | .error e => throw (.index e)

def edit (change : LinearProgram f → Except IndexError (LinearProgram f)) : ReduceM f Unit :=
  revise fun p => ((), ·) <$> change p

/-- Appends to the program and returns the new index. -/
def append (add : LinearProgram f → Nat × LinearProgram f) : ReduceM f Nat :=
  revise fun p => .ok (add p)

def countRow (kind : RowKind) : ReduceM f Unit :=
  modify fun s => { s with census := s.census.addRow kind }

def countColumn (kind : ColumnKind) : ReduceM f Unit :=
  modify fun s => { s with census := s.census.addColumn kind }

/-- Starts a step, which may only follow directly on phase `expected`. -/
def enter (operation : String) (expected : Phase) : ReduceM f Unit := do
  let s ← get
  if s.phase = expected then
    record (.starting operation s.program.numConstraints s.program.numVariables)
  else
    throw (.phaseOrder operation expected s.phase)

/-- Completes a step. It is asserted that there is a next phase (see `Call.exists_next?`). -/
def advance : ReduceM f Unit := modify fun s => { s with phase := s.phase.next?.getD s.phase }

/-! ### Runs -/

section Runs

variable (s : Reduction f)

@[simp] theorem run_record (r : Record f) :
    (record r).run s = .ok () { s with log := s.log.push r } := rfl

@[simp] theorem run_countRow (kind : RowKind) :
    (countRow kind).run s = .ok () { s with census := s.census.addRow kind } := rfl

@[simp] theorem run_countColumn (kind : ColumnKind) :
    (countColumn kind).run s = .ok () { s with census := s.census.addColumn kind } := rfl

@[simp] theorem run_advance :
    (advance : ReduceM f Unit).run s =
      .ok () { s with phase := s.phase.next?.getD s.phase } := rfl

@[simp] theorem run_append (add : LinearProgram f → Nat × LinearProgram f) :
    (append add).run s = .ok (add s.program).1 { s with program := (add s.program).2 } := rfl

theorem run_consult (read : LinearProgram f → Except IndexError β) :
    (consult read).run s =
      match read s.program with
      | .ok b => .ok b s
      | .error e => .error (.index e) s := by
  cases h : read s.program with
  | ok b => simp [consult, h]
  | error e =>
    simp only [consult, EStateM.run_bind, EStateM.run_get, h]
    rfl

/-- A refused change leaves the reduction as it was. -/
theorem run_revise (change : LinearProgram f → Except IndexError (β × LinearProgram f)) :
    (revise change).run s =
      match change s.program with
      | .ok (b, p) => .ok b { s with program := p }
      | .error e => .error (.index e) s := by
  cases h : change s.program <;>
  · simp only [revise, EStateM.run_bind, EStateM.run_get, h]
    rfl

theorem run_edit (change : LinearProgram f → Except IndexError (LinearProgram f)) :
    (edit change).run s =
      match change s.program with
      | .ok p => .ok () { s with program := p }
      | .error e => .error (.index e) s := by
  rw [edit, run_revise]
  cases change s.program <;> rfl

theorem run_enter (operation : String) (expected : Phase) :
    (enter operation expected).run s =
      if s.phase = expected then
        .ok () { s with
          log := s.log.push
            (.starting operation s.program.numConstraints s.program.numVariables) }
      else .error (.phaseOrder operation expected s.phase) s := by
  by_cases h : s.phase = expected <;> simp [enter, h]

end Runs

end Reduction

end StandardLp
