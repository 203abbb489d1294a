import StandardLp.Reduction.Form

/-!
Calls of a reduction as data, and runs of calls in any order. A run goes on after a call that
fails.
-/

namespace StandardLp

namespace Reduction

inductive Call where
  | splitEqualities
  | enforceBounds
  | fillNegatives
  | addSlacks
  | reduce (check : Bool)
  | split (j : Nat)
deriving DecidableEq, Repr

inductive Reply where
  | done
  | basis (columns : Array Nat)
  | column (index : Nat)
deriving DecidableEq, Repr

variable {f : Format}

def perform : Call → ReduceM f Reply
  | .splitEqualities => do splitEqualities; return .done
  | .enforceBounds => do enforceBounds; return .done
  | .fillNegatives => do fillNegatives; return .done
  | .addSlacks => do addSlacks; return .done
  | .reduce check => .basis <$> reduce check
  | .split j => .column <$> split j

/-- The outcome of a call and the reduction after it. -/
def call (s : Reduction f) (c : Call) : Except ReductionError Reply × Reduction f :=
  match (perform c).run s with
  | .ok reply s' => (.ok reply, s')
  | .error e s' => (.error e, s')

def finished (s : Reduction f) : Except ReductionError (StandardForm f) × Reduction f :=
  match finish.run s with
  | .ok form s' => (.ok form, s')
  | .error e s' => (.error e, s')

def run (s : Reduction f) (calls : List Call) : Reduction f := calls.foldl (fun s c => (s.call c).2) s

end Reduction

end StandardLp
