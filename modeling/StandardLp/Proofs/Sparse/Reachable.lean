import StandardLp.Proofs.Sparse.Import
import StandardLp.Sparse.Edit

/-!
The matrices that there can be: those that are made of zeros or read from rows, and edited in any
order. All of them are well-formed.
-/

namespace StandardLp

namespace SparseMatrix

variable {α : Type} [Zero α] [BEq α]

inductive Reachable : SparseMatrix α → Prop where
  | zero (numRows numColumns : Nat) : Reachable (.zero numRows numColumns)
  | ofRows {numRows numColumns : Nat} {c : Compressed α} {m : SparseMatrix α}
      (h : ofRows numRows numColumns c = .ok m) : Reachable m
  | edited {m : SparseMatrix α} (h : Reachable m) (e : Edit α) : Reachable (m.edited e)

section Edited

variable (m : SparseMatrix α) (i j : Nat) (x : α)

theorem edited_set :
    m.edited (.set i j x) =
      if i < m.numRows ∧ j < m.numColumns then m.write i j x else m := by
  rw [edited, apply, set_eq]
  by_cases hi : i < m.numRows
  · by_cases hj : j < m.numColumns
    · rw [if_pos hi, if_pos hj, if_pos ⟨hi, hj⟩]
      rfl
    · rw [if_pos hi, if_neg hj, if_neg fun h => hj h.2]
      rfl
  · rw [if_neg hi, if_neg fun h => hi h.1]
    rfl

theorem edited_copyRow :
    m.edited (.copyRow i) = if i < m.numRows then m.appendRow (m.rowAt i) else m := by
  rw [edited, apply, copyRow_eq]
  by_cases hi : i < m.numRows
  · rw [if_pos hi, if_pos hi]
    rfl
  · rw [if_neg hi, if_neg hi]
    rfl

end Edited

/-- The row and the column that an edit names are there. -/
def Edit.InRange (m : SparseMatrix α) : Edit α → Prop
  | .set i j _ => i < m.numRows ∧ j < m.numColumns
  | .addRow | .addColumn => True
  | .copyRow i => i < m.numRows

theorem apply_out_of_range {m : SparseMatrix α} {e : Edit α} (h : ¬ e.InRange m) :
    ∃ refusal, m.apply e = .error refusal := by
  cases e with
  | set i j x =>
    rw [apply, set_eq]
    by_cases hi : i < m.numRows
    · rw [if_pos hi, if_neg fun hj => h ⟨hi, hj⟩]
      exact ⟨_, rfl⟩
    · rw [if_neg hi]
      exact ⟨_, rfl⟩
  | addRow | addColumn => exact absurd trivial h
  | copyRow i =>
    have hi : ¬ i < m.numRows := h
    rw [apply, copyRow_eq, if_neg hi]
    exact ⟨_, rfl⟩

theorem WellFormed.edited {m : SparseMatrix α} (h : m.WellFormed) (e : Edit α) :
    (m.edited e).WellFormed := by
  cases e with
  | addRow => exact h.addRow
  | addColumn => exact h.addColumn
  | set i j x =>
    rw [edited_set]
    split
    · rename_i hin
      exact h.write hin.1 hin.2 x
    · exact h
  | copyRow i =>
    rw [edited_copyRow]
    split
    · exact h.appendRow i
    · exact h

theorem Reachable.wellFormed {m : SparseMatrix α} (h : m.Reachable) : m.WellFormed := by
  induction h with
  | zero numRows numColumns => exact .zero numRows numColumns
  | ofRows h => exact .ofRows h
  | edited _ e ih => exact ih.edited e

end SparseMatrix

end StandardLp
