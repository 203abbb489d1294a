import StandardLp.Sparse.Views

/-!
Well-formed sparse matrices: all vectors are sorted, the rows and the columns store the same
entries, and no stored value is zero. Every operation keeps a matrix well-formed.
-/

namespace StandardLp.SparseMatrix

variable {α : Type} [Zero α] [BEq α]

structure WellFormed (m : SparseMatrix α) : Prop where
  sorted_row : ∀ i, (m.rowAt i).Sorted
  sorted_column : ∀ j, (m.columnAt j).Sorted
  agree : ∀ i j, (m.columnAt j).get? i = (m.rowAt i).get? j
  nonzero : ∀ i j x, (m.rowAt i).get? j = some x → (x == 0) = false

namespace WellFormed

variable {m : SparseMatrix α}

theorem lt_numRows (h : m.WellFormed) {i j : Nat} {x : α} (hx : (m.columnAt j).get? i = some x) :
    i < m.numRows := by
  apply Nat.lt_of_not_le
  intro hi
  rw [h.agree, rowAt_of_le m hi] at hx
  cases hx

theorem lt_numColumns (h : m.WellFormed) {i j : Nat} {x : α} (hx : (m.rowAt i).get? j = some x) :
    j < m.numColumns := by
  apply Nat.lt_of_not_le
  intro hj
  rw [← h.agree, columnAt_of_le m hj] at hx
  cases hx

theorem zero (r c : Nat) : (SparseMatrix.zero r c : SparseMatrix α).WellFormed where
  sorted_row i := by simpa using IndexMap.sorted_empty
  sorted_column j := by simpa using IndexMap.sorted_empty
  agree i j := by simp
  nonzero i j x hx := by simp at hx

theorem addRow (h : m.WellFormed) : m.addRow.2.WellFormed where
  sorted_row i := by simpa using h.sorted_row i
  sorted_column j := h.sorted_column j
  agree i j := by simpa using h.agree i j
  nonzero i j x hx := h.nonzero i j x (by simpa using hx)

theorem addColumn (h : m.WellFormed) : m.addColumn.2.WellFormed where
  sorted_row i := h.sorted_row i
  sorted_column j := by simpa using h.sorted_column j
  agree i j := by simpa using h.agree i j
  nonzero i j x hx := h.nonzero i j x (by simpa using hx)

theorem write (h : m.WellFormed) {i j : Nat} (hi : i < m.numRows) (hj : j < m.numColumns) (x : α) :
    (m.write i j x).WellFormed where
  sorted_row k := by
    rw [rowAt_write _ _ _ _ hi]
    split
    · exact (h.sorted_row i).set j x
    · exact h.sorted_row k
  sorted_column l := by
    rw [columnAt_write _ _ _ _ hj]
    split
    · exact (h.sorted_column j).set i x
    · exact h.sorted_column l
  agree k l := by
    rw [rowAt_write _ _ _ _ hi, columnAt_write _ _ _ _ hj]
    by_cases hk : k = i <;> by_cases hl : l = j <;> simp [hk, hl, IndexMap.get?_set, h.agree]
  nonzero k l y hy := by
    rw [rowAt_write _ _ _ _ hi] at hy
    by_cases hk : k = i
    · subst hk
      rw [if_pos rfl, IndexMap.get?_set] at hy
      -- a zero clears the entry, so what is stored is not zero
      split at hy
      · split at hy
        · cases hy
        · rename_i hx
          cases hy
          exact Bool.eq_false_iff.mpr hx
      · exact h.nonzero _ _ _ hy
    · rw [if_neg hk] at hy
      exact h.nonzero _ _ _ hy

/-- A row of the matrix can be appended once more. -/
theorem appendRow (h : m.WellFormed) (i : Nat) : (m.appendRow (m.rowAt i)).WellFormed where
  sorted_row k := by
    rw [rowAt_appendRow]
    split <;> exact h.sorted_row _
  sorted_column l := by
    by_cases hl : l < m.numColumns
    · rw [columnAt_appendRow _ _ (h.sorted_row i) hl]
      cases hx : (m.rowAt i).get? l with
      | none => exact h.sorted_column l
      | some x =>
        refine (h.sorted_column l).push (fun e he => ?_) x
        exact h.lt_numRows ((IndexMap.get?_eq_some_iff (h.sorted_column l)).mpr he)
    · rw [columnAt_of_le _ (by simpa using hl)]
      exact IndexMap.sorted_empty
  agree k l := by
    rw [rowAt_appendRow]
    by_cases hl : l < m.numColumns
    · have hbelow : ∀ e ∈ (m.columnAt l).entries, e.1 < m.numRows := fun e he =>
        h.lt_numRows ((IndexMap.get?_eq_some_iff (h.sorted_column l)).mpr he)
      rw [columnAt_appendRow _ _ (h.sorted_row i) hl]
      -- only the columns in which the row stores something are added to
      cases hx : (m.rowAt i).get? l with
      | none =>
        by_cases hk : k = m.numRows
        · rw [if_pos hk, hx, hk, Option.elim_none, h.agree, rowAt_of_le m (Nat.le_refl _)]
          rfl
        · rw [if_neg hk, Option.elim_none, h.agree]
      | some x =>
        rw [Option.elim_some, IndexMap.get?_push hbelow]
        by_cases hk : k = m.numRows
        · rw [if_pos hk, if_pos hk, hx]
        · rw [if_neg hk, if_neg hk, h.agree]
    · have hle := Nat.le_of_not_lt hl
      have hnone : ∀ k, (m.rowAt k).get? l = none := fun k => by
        rw [← h.agree, columnAt_of_le m hle]
        rfl
      rw [columnAt_of_le _ (by simpa using hle)]
      split <;> exact (hnone _).symm
  nonzero k l x hx := by
    rw [rowAt_appendRow] at hx
    split at hx <;> exact h.nonzero _ _ _ hx

end WellFormed

end StandardLp.SparseMatrix
