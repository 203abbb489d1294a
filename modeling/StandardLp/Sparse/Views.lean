import StandardLp.Sparse.Matrix

/-!
What every operation on a sparse matrix does to its size, its rows and its columns. An appended
empty row or column does not show in the vectors, since vectors outside the matrix read as empty.
-/

namespace StandardLp.SparseMatrix

variable {α : Type}

theorem rowAt_of_le (m : SparseMatrix α) {i : Nat} (h : m.numRows ≤ i) : m.rowAt i = .empty := by
  simp [rowAt, Array.getElem?_eq_none h]

theorem columnAt_of_le (m : SparseMatrix α) {j : Nat} (h : m.numColumns ≤ j) :
    m.columnAt j = .empty := by
  simp [columnAt, Array.getElem?_eq_none h]

section Zero

@[simp] theorem numRows_zero (r c : Nat) : (zero r c : SparseMatrix α).numRows = r := by
  simp [zero, numRows]

@[simp] theorem numColumns_zero (r c : Nat) : (zero r c : SparseMatrix α).numColumns = c := by
  simp [zero, numColumns]

@[simp] theorem rowAt_zero (r c i : Nat) : (zero r c : SparseMatrix α).rowAt i = .empty := by
  simp only [zero, rowAt, Array.getElem?_replicate]
  split <;> rfl

@[simp] theorem columnAt_zero (r c j : Nat) :
    (zero r c : SparseMatrix α).columnAt j = .empty := by
  simp only [zero, columnAt, Array.getElem?_replicate]
  split <;> rfl

end Zero

section Checked

variable (m : SparseMatrix α) (i j : Nat)

theorem get_eq [Zero α] :
    m.get i j =
      if i < m.numRows then
        if j < m.numColumns then .ok (m.entry i j) else .error ⟨.column, j, m.numColumns⟩
      else .error ⟨.row, i, m.numRows⟩ := by
  simp only [get, Axis.check_bind]
  rfl

theorem set_eq [Zero α] [BEq α] (x : α) :
    m.set i j x =
      if i < m.numRows then
        if j < m.numColumns then .ok (m.write i j x) else .error ⟨.column, j, m.numColumns⟩
      else .error ⟨.row, i, m.numRows⟩ := by
  simp only [set, Axis.check_bind]
  rfl

theorem row_eq :
    m.row i = if i < m.numRows then .ok (m.rowAt i) else .error ⟨.row, i, m.numRows⟩ := by
  simp only [row, Axis.check_bind]
  rfl

theorem column_eq :
    m.column j =
      if j < m.numColumns then .ok (m.columnAt j) else .error ⟨.column, j, m.numColumns⟩ := by
  simp only [column, Axis.check_bind]
  rfl

theorem copyRow_eq :
    m.copyRow i =
      if i < m.numRows then .ok (m.numRows, m.appendRow (m.rowAt i))
      else .error ⟨.row, i, m.numRows⟩ := by
  simp only [copyRow, Axis.check_bind]
  rfl

end Checked

section Write

variable [Zero α] [BEq α] (m : SparseMatrix α) (i j : Nat) (x : α)

@[simp] theorem numRows_write : (m.write i j x).numRows = m.numRows := by
  simp [write, numRows]

@[simp] theorem numColumns_write : (m.write i j x).numColumns = m.numColumns := by
  simp [write, numColumns]

theorem rowAt_write (hi : i < m.numRows) (k : Nat) :
    (m.write i j x).rowAt k = if k = i then (m.rowAt i).set j x else m.rowAt k := by
  unfold rowAt write
  rw [Array.getElem?_modify]
  by_cases hk : k = i
  · subst hk
    rw [if_pos rfl, if_pos rfl, Array.getElem?_eq_getElem hi]
    rfl
  · rw [if_neg hk, if_neg (Ne.symm hk)]

theorem columnAt_write (hj : j < m.numColumns) (k : Nat) :
    (m.write i j x).columnAt k = if k = j then (m.columnAt j).set i x else m.columnAt k := by
  unfold columnAt write
  rw [Array.getElem?_modify]
  by_cases hk : k = j
  · subst hk
    rw [if_pos rfl, if_pos rfl, Array.getElem?_eq_getElem hj]
    rfl
  · rw [if_neg hk, if_neg (Ne.symm hk)]

/-- A write changes one entry. Any zero reads back as zero. -/
theorem entry_write (hi : i < m.numRows) (k l : Nat) :
    (m.write i j x).entry k l =
      if k = i ∧ l = j then (if x == 0 then 0 else x) else m.entry k l := by
  unfold entry
  rw [rowAt_write _ _ _ _ hi]
  by_cases hk : k = i
  · subst hk
    rw [if_pos rfl, IndexMap.value_set]
    by_cases hl : l = j <;> simp [hl]
  · rw [if_neg hk, if_neg fun h => hk h.1]

end Write

section Push

variable (m : SparseMatrix α)

@[simp] theorem addRow_fst : m.addRow.1 = m.numRows := rfl

@[simp] theorem addColumn_fst : m.addColumn.1 = m.numColumns := rfl

@[simp] theorem numRows_addRow : m.addRow.2.numRows = m.numRows + 1 := by
  simp [addRow, numRows]

@[simp] theorem numColumns_addRow : m.addRow.2.numColumns = m.numColumns := rfl

@[simp] theorem numRows_addColumn : m.addColumn.2.numRows = m.numRows := rfl

@[simp] theorem numColumns_addColumn : m.addColumn.2.numColumns = m.numColumns + 1 := by
  simp [addColumn, numColumns]

@[simp] theorem rowAt_addRow (k : Nat) : m.addRow.2.rowAt k = m.rowAt k := by
  simp only [addRow, rowAt, Array.getElem?_push]
  split
  · rename_i hk
    rw [hk, Array.getElem?_size]
    rfl
  · rfl

@[simp] theorem columnAt_addRow (k : Nat) : m.addRow.2.columnAt k = m.columnAt k := rfl

@[simp] theorem rowAt_addColumn (k : Nat) : m.addColumn.2.rowAt k = m.rowAt k := rfl

@[simp] theorem columnAt_addColumn (k : Nat) : m.addColumn.2.columnAt k = m.columnAt k := by
  simp only [addColumn, columnAt, Array.getElem?_push]
  split
  · rename_i hk
    rw [hk, Array.getElem?_size]
    rfl
  · rfl

end Push

section Append

variable (m : SparseMatrix α) (v : SparseVector α)

private theorem size_foldl_push (n : Nat) (l : List (Nat × α)) (cs : Array (SparseVector α)) :
    (l.foldl (fun cs e => cs.modify e.1 (·.push n e.2)) cs).size = cs.size := by
  induction l generalizing cs with
  | nil => rfl
  | cons e rest ih => rw [List.foldl_cons, ih, Array.size_modify]

/-- Pushing the entries of a sorted list reaches every column at most once. -/
private theorem getElem?_foldl_push (n : Nat) (l : List (Nat × α))
    (hl : (⟨l⟩ : IndexMap α).Sorted) (cs : Array (SparseVector α)) (j : Nat) :
    (l.foldl (fun cs e => cs.modify e.1 (·.push n e.2)) cs)[j]? =
      cs[j]?.map fun c => ((⟨l⟩ : IndexMap α).get? j).elim c (c.push n) := by
  induction l generalizing cs with
  | nil => cases h : cs[j]? <;> simp [h, IndexMap.get?]
  | cons e rest ih =>
    obtain ⟨hlt, hrest⟩ := List.pairwise_cons.mp hl
    rw [List.foldl_cons, ih hrest, Array.getElem?_modify, IndexMap.get?_cons]
    by_cases hj : j = e.1
    · have hnone : (⟨rest⟩ : IndexMap α).get? j = none := by
        cases h : (⟨rest⟩ : IndexMap α).get? j with
        | none => rfl
        | some x =>
          have hmem := hlt _ ((IndexMap.get?_eq_some_iff hrest).mp h)
          exact absurd hj.symm (Nat.ne_of_lt hmem)
      rw [if_pos hj, if_pos hj.symm, hnone]
      cases cs[j]? <;> rfl
    · rw [if_neg hj, if_neg (Ne.symm hj)]

@[simp] theorem numRows_appendRow : (m.appendRow v).numRows = m.numRows + 1 := by
  simp [appendRow, numRows]

@[simp] theorem numColumns_appendRow : (m.appendRow v).numColumns = m.numColumns :=
  size_foldl_push ..

theorem rowAt_appendRow (k : Nat) :
    (m.appendRow v).rowAt k = if k = m.numRows then v else m.rowAt k := by
  simp only [appendRow, rowAt, Array.getElem?_push]
  change _ = if k = m.rows.size then v else _
  split <;> rfl

theorem columnAt_appendRow (hv : v.Sorted) {k : Nat} (hk : k < m.numColumns) :
    (m.appendRow v).columnAt k =
      (v.get? k).elim (m.columnAt k) ((m.columnAt k).push m.numRows) := by
  unfold columnAt appendRow
  rw [getElem?_foldl_push _ _ hv, Array.getElem?_eq_getElem hk]
  rfl

end Append

end StandardLp.SparseMatrix
