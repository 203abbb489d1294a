/-!
Checked indices. Rows and columns are only ever appended, so an index is bad exactly when it is
not below the current length of its axis.
-/

namespace StandardLp

/-- Rows hold constraints and columns hold variables. -/
inductive Axis where
  | row
  | column
deriving DecidableEq, Repr

def Axis.noun : Axis → String
  | .row => "constraint"
  | .column => "variable"

/-- An index that is out of range, with the length of its axis at that time. -/
structure IndexError where
  axis : Axis
  index : Nat
  length : Nat
deriving DecidableEq, Repr

def IndexError.message (e : IndexError) : String :=
  s!"{e.axis.noun} index {e.index} is out of bounds for {e.length} {e.axis.noun}s"

def Axis.check (axis : Axis) (index length : Nat) : Except IndexError Unit :=
  if index < length then .ok () else .error ⟨axis, index, length⟩

theorem Axis.check_bind {β : Type} (axis : Axis) (index length : Nat)
    (next : Unit → Except IndexError β) :
    (axis.check index length >>= next) =
      if index < length then next () else .error ⟨axis, index, length⟩ := by
  unfold check
  split <;> rfl

end StandardLp
