import StandardLp.Numeric.Binary

/-!
Senses of constraints and sides of bounds. An inequality bounds the activity of its row from one
side; an equality bounds it from both and so has no side of its own.
-/

namespace StandardLp

/-- How the activity `a` of a row compares with its right-hand side `b`: `a = b`, `a ≥ b` or
`a ≤ b`. -/
inductive Sense where
  | equal
  | greater
  | less
deriving DecidableEq, Repr

inductive Side where
  | lower
  | upper
deriving DecidableEq, Repr

namespace Sense

def name : Sense → String
  | equal => "Equal"
  | greater => "Greater"
  | less => "Less"

/-- The side on which the right-hand side bounds the activity. -/
def side? : Sense → Option Side
  | equal => none
  | greater => some .lower
  | less => some .upper

end Sense

namespace Side

def name : Side → String
  | lower => "Lower"
  | upper => "Upper"

def sense : Side → Sense
  | lower => .greater
  | upper => .less

/-- The coefficient of a nonnegative slack that closes the gap to a bound on this side. -/
def slack {f : Format} : Side → Binary f
  | lower => -1
  | upper => 1

@[simp] theorem side?_sense (s : Side) : s.sense.side? = some s := by cases s <;> rfl

theorem sense_of_side? {s : Sense} {side : Side} (h : s.side? = some side) : s = side.sense := by
  cases s with
  | equal => cases h
  | greater =>
    cases h
    rfl
  | less =>
    cases h
    rfl

end Side

end StandardLp
