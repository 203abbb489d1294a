/-!
Phases of the reduction to standard form. A phase is named for the last step that was completed;
the order of the phases is that of the steps.
-/

namespace StandardLp

inductive Phase where
  /-- No step is done. -/
  | start
  /-- Every equality is a pair of inequalities. -/
  | equalitiesSplit
  /-- Every bound other than `x ≥ 0` is a row. -/
  | boundsEnforced
  /-- Every negative part is the opposite of its variable. -/
  | negativesFilled
  /-- Every row is an equality with a slack of its own. -/
  | slacksAdded
deriving DecidableEq, Repr

namespace Phase

def name : Phase → String
  | start => "Start"
  | equalitiesSplit => "EqualitiesReplaced"
  | boundsEnforced => "BoundsHandled"
  | negativesFilled => "VariablesReplaced"
  | slacksAdded => "SenseHandled"

/-- How many steps are completed. -/
def rank : Phase → Nat
  | start => 0
  | equalitiesSplit => 1
  | boundsEnforced => 2
  | negativesFilled => 3
  | slacksAdded => 4

def next? : Phase → Option Phase
  | start => some equalitiesSplit
  | equalitiesSplit => some boundsEnforced
  | boundsEnforced => some negativesFilled
  | negativesFilled => some slacksAdded
  | slacksAdded => none

instance : Ord Phase := ⟨fun p q => compare p.rank q.rank⟩

instance : LE Phase := ⟨fun p q => p.rank ≤ q.rank⟩

instance (p q : Phase) : Decidable (p ≤ q) := inferInstanceAs (Decidable (p.rank ≤ q.rank))

theorem rank_injective {p q : Phase} (h : p.rank = q.rank) : p = q := by
  cases p <;> cases q <;> first | rfl | cases h

theorem next?_eq_some_iff (p q : Phase) : p.next? = some q ↔ q.rank = p.rank + 1 := by
  cases p <;> cases q <;> decide

theorem negativesFilled_le_iff {p : Phase} :
    .negativesFilled ≤ p ↔ p = .negativesFilled ∨ p = .slacksAdded := by
  cases p <;> decide

theorem le_slacksAdded (p : Phase) : p ≤ .slacksAdded := by cases p <;> decide

theorem slacksAdded_le_iff {p : Phase} : .slacksAdded ≤ p ↔ p = .slacksAdded := by
  cases p <;> decide

end Phase

end StandardLp
