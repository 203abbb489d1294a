import StandardLp.Proofs.Reduction.Actions
import StandardLp.Proofs.Reduction.Allotment
import StandardLp.Proofs.Reduction.Plan

/-!
What a reduction looks like at every moment. A stage says how far the reduction of a program has
come: which rows there are and what they were made from, which equalities have been split, which
negative parts have been filled and how many rows have a slack. `Depicts` says what the program
holds at a stage, row by row and column by column. Every action leads from one stage to another,
and there is one lemma for each of them.
-/

namespace StandardLp

def RowOrigin.kind? : RowOrigin → Option RowKind
  | .given _ => none
  | .copy _ => some .equalityCopy
  | .bound side _ => some (.bound side)

namespace Reduction

variable {f : Format}

structure Stage where
  rows : List RowOrigin
  relaxed : List Nat
  filled : Nat → Bool
  slacks : Nat

namespace Stage

/-- A stage before the first negative part is filled. -/
def early (rows : List RowOrigin) (relaxed : List Nat) : Stage := ⟨rows, relaxed, fun _ => false, 0⟩

def count (g : Stage) (kind : RowKind) : Nat := g.rows.countP (·.kind? == some kind)

end Stage

/-- The reduction `s` of `p` has come to stage `g`. -/
structure Depicts (p : LinearProgram f) (g : Stage) (s : Reduction f) : Prop where
  sound : s.program.Sound
  allotment : Allotment s.splits p.numVariables
  numConstraints : s.program.numConstraints = g.rows.length
  numVariables : s.program.numVariables = p.numVariables + s.splits.size + g.slacks
  slackBasis : s.slackBasis.toList =
    (List.range g.slacks).map (p.numVariables + s.splits.size + ·)
  constraint : ∀ i r, g.rows[i]? = some r → s.program.constraints[i]? =
    some (Constraint.mk (if i < g.slacks then .equal else p.senseOf g.relaxed r) (p.rhsOf r))
  stored_given : ∀ i r, g.rows[i]? = some r → ∀ j, j < p.numVariables →
    s.program.matrix.stored i j = p.storedAt r j
  stored_negative : ∀ j k, s.splits.get? j = some k → ∀ i, s.program.matrix.stored i k =
    if g.filled j then (s.program.matrix.stored i j).map (- ·) else none
  stored_slack : ∀ t r, t < g.slacks → g.rows[t]? = some r → ∀ i,
    s.program.matrix.stored i (p.numVariables + s.splits.size + t) =
      if i = t then some (p.sideOf r).slack else none
  var_given : ∀ j v, p.vars[j]? = some v → s.program.vars[j]? =
    some (if (s.splits.get? j).isSome && g.filled j then v.freed else v)
  var_negative : ∀ j k v, s.splits.get? j = some k → s.program.vars[j]? = some v →
    s.program.vars[k]? =
      some { Variable.nonnegative with cost := if g.filled j then -v.cost else 0 }
  var_slack : ∀ t, t < g.slacks →
    s.program.vars[p.numVariables + s.splits.size + t]? = some .nonnegative
  census : s.census = {
    initialConstraints := p.numConstraints
    initialVariables := p.numVariables
    equalityCopies := g.count .equalityCopy
    lowerBounds := g.count (.bound .lower)
    upperBounds := g.count (.bound .upper)
    negativeParts := s.splits.size
    slacks := g.slacks }

/-! ### Reading a changed matrix -/

section Matrix

variable {m : SparseMatrix (Binary f)}

@[simp] theorem numRows_mirrored (m : SparseMatrix (Binary f)) (k : Nat)
    (l : List (Nat × Binary f)) : (mirrored m k l).numRows = m.numRows := by
  induction l generalizing m with
  | nil => rfl
  | cons e rest ih => exact (ih _).trans (SparseMatrix.numRows_write ..)

@[simp] theorem numColumns_mirrored (m : SparseMatrix (Binary f)) (k : Nat)
    (l : List (Nat × Binary f)) : (mirrored m k l).numColumns = m.numColumns := by
  induction l generalizing m with
  | nil => rfl
  | cons e rest ih => exact (ih _).trans (SparseMatrix.numColumns_write ..)

theorem wellFormed_mirrored (h : m.WellFormed) {k : Nat} (hk : k < m.numColumns)
    {l : List (Nat × Binary f)} (hl : ∀ e ∈ l, e.1 < m.numRows) : (mirrored m k l).WellFormed := by
  induction l generalizing m with
  | nil => exact h
  | cons e rest ih =>
    apply ih (h.write (hl e List.mem_cons_self) hk _)
    · simpa using hk
    · intro d hd
      simpa using hl d (List.mem_cons_of_mem _ hd)

/-- What is written to a column replaces what was there. -/
theorem stored_mirrored_entries {v : SparseVector (Binary f)} (hv : v.Sorted)
    (hrow : ∀ e ∈ v.entries, e.1 < m.numRows) (hzero : ∀ e ∈ v.entries, (e.2 == 0) = false)
    (k i c : Nat) :
    (mirrored m k v.entries).stored i c =
      if c = k then ((v.get? i).map (- ·)).or (m.stored i k) else m.stored i c := by
  obtain ⟨l⟩ := v
  dsimp only at hrow hzero ⊢
  induction l generalizing m with
  | nil =>
    by_cases hc : c = k
    · subst hc
      rw [if_pos rfl]
      rfl
    · rw [if_neg hc]
      rfl
  | cons e rest ih =>
    -- the indices increase, so the entry that is written first is not written again
    obtain ⟨hlt, hrest⟩ := List.pairwise_cons.mp hv
    have hrow' : ∀ d ∈ rest, d.1 < (m.write e.1 k (-e.2)).numRows := by
      intro d hd
      simpa using hrow d (List.mem_cons_of_mem _ hd)
    have hzero' : ∀ d ∈ rest, (d.2 == 0) = false := fun d hd => hzero d (List.mem_cons_of_mem _ hd)
    show (mirrored (m.write e.1 k (-e.2)) k rest).stored i c = _
    rw [ih hrest hrow' hzero', IndexMap.get?_cons,
      SparseMatrix.stored_write (hrow e List.mem_cons_self),
      SparseMatrix.stored_write (hrow e List.mem_cons_self), Binary.neg_beq_zero,
      hzero e List.mem_cons_self]
    by_cases hc : c = k
    · by_cases hi : i = e.1
      · have hnone : (⟨rest⟩ : IndexMap (Binary f)).get? i = none := by
          cases hx : (⟨rest⟩ : IndexMap (Binary f)).get? i with
          | none => rfl
          | some x =>
            have := hlt _ ((IndexMap.get?_eq_some_iff hrest).mp hx)
            exact absurd this (by omega)
        simp [hc, hi, hi ▸ hnone]
      · simp [hc, hi]
    · simp [hc]

theorem stored_mirrored (h : m.WellFormed) {j k : Nat} (hempty : ∀ i, m.stored i k = none)
    (i c : Nat) :
    (mirrored m k (m.columnAt j).entries).stored i c =
      if c = k then (m.stored i j).map (- ·) else m.stored i c := by
  have hmem : ∀ e ∈ (m.columnAt j).entries, m.stored e.1 j = some e.2 := by
    intro e he
    exact h.mem_columnAt_iff.mp he
  rw [stored_mirrored_entries (h.sorted_column j)]
  · rw [h.get?_columnAt, hempty i, Option.or_none]
  · intro e he
    apply Nat.lt_of_not_le
    intro hle
    have := hmem e he
    rw [m.stored_of_le_row hle] at this
    cases this
  · intro e he
    exact h.nonzero _ _ _ (hmem e he)

end Matrix

end Reduction

end StandardLp
