import StandardLp.Sparse.WellFormed

/-!
The stored entries of a matrix as a partial function of row and column. Every operation has one
equation for this function, and a well-formed matrix is determined by its size and its stored
entries (`SparseMatrix.eq_tabulate`).
-/

namespace StandardLp

namespace IndexMap

variable {α : Type}

/-- The map that holds what `g` gives below `n`. -/
def collect (n : Nat) (g : Nat → Option α) : IndexMap α :=
  ⟨(List.range n).filterMap fun i => (g i).map (i, ·)⟩

theorem mem_collect {n : Nat} {g : Nat → Option α} {e : Nat × α} :
    e ∈ (collect n g).entries ↔ e.1 < n ∧ g e.1 = some e.2 := by
  simp only [collect, List.mem_filterMap, List.mem_range, Option.map_eq_some_iff]
  constructor
  · rintro ⟨i, hi, x, hx, rfl⟩
    exact ⟨hi, hx⟩
  · intro h
    exact ⟨e.1, h.1, e.2, h.2, rfl⟩

theorem sorted_collect (n : Nat) (g : Nat → Option α) : (collect n g).Sorted := by
  refine List.Pairwise.filterMap _ ?_ List.pairwise_lt_range
  intro i k hik d hd e he
  simp only [Option.map_eq_some_iff] at hd he
  obtain ⟨x, -, rfl⟩ := hd
  obtain ⟨y, -, rfl⟩ := he
  exact hik

theorem get?_collect (n : Nat) (g : Nat → Option α) (i : Nat) :
    (collect n g).get? i = if i < n then g i else none := by
  apply Option.ext
  intro x
  rw [get?_eq_some_iff (sorted_collect n g), mem_collect]
  by_cases hi : i < n <;> simp [hi]

/-- A sorted map below `n` is collected from its own values. -/
theorem eq_collect {m : IndexMap α} (hm : m.Sorted) {n : Nat} {g : Nat → Option α}
    (hlt : ∀ i x, m.get? i = some x → i < n) (hg : ∀ i, i < n → m.get? i = g i) :
    m = collect n g := by
  apply ext_get? hm (sorted_collect n g)
  intro i
  rw [get?_collect]
  by_cases hi : i < n
  · rw [if_pos hi, hg i hi]
  · rw [if_neg hi]
    cases hx : m.get? i with
    | none => rfl
    | some x => exact absurd (hlt i x hx) hi

end IndexMap

namespace SparseMatrix

variable {α : Type}

def stored (m : SparseMatrix α) (i j : Nat) : Option α := (m.rowAt i).get? j

def tabulate (r c : Nat) (g : Nat → Nat → Option α) : SparseMatrix α where
  rows := Array.ofFn fun i : Fin r => IndexMap.collect c (g i)
  columns := Array.ofFn fun j : Fin c => IndexMap.collect r (g · j)

private theorem toList_eq_map_range {β : Type} (a : Array β) (b : β) :
    a.toList = (List.range a.size).map fun i => a[i]?.getD b := by
  apply List.ext_getElem
  · simp
  · intro i hi _
    rw [List.getElem_map, List.getElem_range, Array.getElem?_eq_getElem (by simpa using hi)]
    rfl

theorem toList_rows (m : SparseMatrix α) : m.rows.toList = (List.range m.numRows).map m.rowAt :=
  toList_eq_map_range ..

theorem toList_columns (m : SparseMatrix α) :
    m.columns.toList = (List.range m.numColumns).map m.columnAt :=
  toList_eq_map_range ..

theorem entry_eq [Zero α] (m : SparseMatrix α) (i j : Nat) :
    m.entry i j = (m.stored i j).getD 0 := rfl

@[simp] theorem entry_zero [Zero α] (r c i j : Nat) :
    (zero r c : SparseMatrix α).entry i j = 0 := by
  simp [entry]

theorem stored_of_le_row (m : SparseMatrix α) {i : Nat} (h : m.numRows ≤ i) (j : Nat) :
    m.stored i j = none := by
  rw [stored, rowAt_of_le m h, IndexMap.get?_empty]

@[simp] theorem stored_addRow (m : SparseMatrix α) (i j : Nat) :
    m.addRow.2.stored i j = m.stored i j := by
  simp [stored]

@[simp] theorem stored_addColumn (m : SparseMatrix α) (i j : Nat) :
    m.addColumn.2.stored i j = m.stored i j := rfl

@[simp] theorem entry_addRow [Zero α] (m : SparseMatrix α) (i j : Nat) :
    m.addRow.2.entry i j = m.entry i j := by
  simp [entry]

@[simp] theorem entry_addColumn [Zero α] (m : SparseMatrix α) (i j : Nat) :
    m.addColumn.2.entry i j = m.entry i j := rfl

theorem entry_of_le_row [Zero α] (m : SparseMatrix α) {i : Nat} (h : m.numRows ≤ i) (j : Nat) :
    m.entry i j = 0 := by
  rw [entry_eq, stored_of_le_row m h, Option.getD_none]

theorem stored_appendRow (m : SparseMatrix α) (v : SparseVector α) (i j : Nat) :
    (m.appendRow v).stored i j = if i = m.numRows then v.get? j else m.stored i j := by
  rw [stored, rowAt_appendRow]
  split <;> rfl

theorem entry_appendRow [Zero α] (m : SparseMatrix α) (v : SparseVector α) (i j : Nat) :
    (m.appendRow v).entry i j = if i = m.numRows then v.value j else m.entry i j := by
  rw [entry, rowAt_appendRow]
  split <;> rfl

theorem stored_write [Zero α] [BEq α] {m : SparseMatrix α} {i : Nat} (hi : i < m.numRows)
    (j : Nat) (x : α) (k l : Nat) :
    (m.write i j x).stored k l =
      if k = i ∧ l = j then (if x == 0 then none else some x) else m.stored k l := by
  unfold stored
  rw [rowAt_write _ _ _ _ hi]
  by_cases hk : k = i
  · subst hk
    rw [if_pos rfl, IndexMap.get?_set]
    by_cases hl : l = j <;> simp [hl]
  · rw [if_neg hk, if_neg fun h => hk h.1]

namespace WellFormed

variable [Zero α] [BEq α] {m : SparseMatrix α}

theorem get?_columnAt (h : m.WellFormed) (i j : Nat) :
    (m.columnAt j).get? i = m.stored i j :=
  h.agree i j

theorem mem_rowAt_iff (h : m.WellFormed) {i j : Nat} {x : α} :
    (j, x) ∈ (m.rowAt i).entries ↔ m.stored i j = some x :=
  (IndexMap.get?_eq_some_iff (h.sorted_row i)).symm

theorem mem_columnAt_iff (h : m.WellFormed) {i j : Nat} {x : α} :
    (i, x) ∈ (m.columnAt j).entries ↔ m.stored i j = some x := by
  rw [← h.get?_columnAt]
  exact (IndexMap.get?_eq_some_iff (h.sorted_column j)).symm

theorem stored_of_le_column (h : m.WellFormed) {j : Nat} (hj : m.numColumns ≤ j) (i : Nat) :
    m.stored i j = none := by
  rw [← h.get?_columnAt, columnAt_of_le m hj, IndexMap.get?_empty]

theorem entry_of_le_column (h : m.WellFormed) {j : Nat} (hj : m.numColumns ≤ j) (i : Nat) :
    m.entry i j = 0 := by
  rw [entry_eq, h.stored_of_le_column hj, Option.getD_none]

section Collect

variable (h : m.WellFormed) {g : Nat → Nat → Option α}
  (hg : ∀ i j, i < m.numRows → j < m.numColumns → m.stored i j = g i j)

include h hg

theorem rowAt_eq_collect {i : Nat} (hi : i < m.numRows) :
    m.rowAt i = IndexMap.collect m.numColumns (g i) := by
  refine IndexMap.eq_collect (h.sorted_row i) (fun j x hx => h.lt_numColumns hx) ?_
  intro j hj
  exact hg i j hi hj

theorem columnAt_eq_collect {j : Nat} (hj : j < m.numColumns) :
    m.columnAt j = IndexMap.collect m.numRows (g · j) := by
  refine IndexMap.eq_collect (h.sorted_column j) (fun i x hx => h.lt_numRows hx) ?_
  intro i hi
  rw [h.get?_columnAt]
  exact hg i j hi hj

end Collect

/-- A well-formed matrix is determined by its size and its stored entries. -/
theorem eq_tabulate (h : m.WellFormed) {g : Nat → Nat → Option α}
    (hg : ∀ i j, i < m.numRows → j < m.numColumns → m.stored i j = g i j) :
    m = tabulate m.numRows m.numColumns g := by
  have hrow := fun i => h.rowAt_eq_collect hg (i := i)
  have hcolumn := fun j => h.columnAt_eq_collect hg (j := j)
  obtain ⟨rows, columns⟩ := m
  simp only [tabulate, mk.injEq]
  constructor
  · apply Array.ext
    · simp [numRows]
    · intro i hi _
      have hi' := hrow i hi
      rw [rowAt, Array.getElem?_eq_getElem hi] at hi'
      simpa using hi'
  · apply Array.ext
    · simp [numColumns]
    · intro j hj _
      have hj' := hcolumn j hj
      rw [columnAt, Array.getElem?_eq_getElem hj] at hj'
      simpa using hj'

end WellFormed

end SparseMatrix

end StandardLp
