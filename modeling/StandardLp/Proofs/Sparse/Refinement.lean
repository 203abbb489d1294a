import Mathlib.Algebra.BigOperators.Intervals
import StandardLp.Proofs.Numeric.Comparison
import StandardLp.Proofs.Sparse.Export
import StandardLp.Proofs.Sparse.Reachable

/-!
Sparse matrices refine grids. A matrix that is edited reads like the grid that takes the same
edits, through its rows, through its columns and in every format that it is handed out in.
-/

namespace StandardLp

namespace Grid

variable {α : Type} [Zero α] [BEq α] (g : Grid α)

/-- The coordinates of the nonzero entries. -/
def support : Finset (Nat × Nat) :=
  (Finset.range g.numRows ×ˢ Finset.range g.numColumns).filter fun e =>
    (g.value e.1 e.2 == 0) = false

theorem length_rowEntries (i : Nat) :
    (g.rowEntries i).length =
      ((Finset.range g.numColumns).filter fun j => (g.value i j == 0) = false).card := by
  have hstored : ∀ j, ((g.stored i j).map (j, ·)).isSome =
      decide ((g.value i j == 0) = false) := by
    intro j
    unfold stored
    cases g.value i j == 0 <;> rfl
  simp only [rowEntries, List.length_filterMap_eq_countP, List.countP_eq_length_filter, hstored]
  rfl

theorem card_support :
    g.support.card = ((List.range g.numRows).map fun i => (g.rowEntries i).length).sum := by
  change _ = ∑ i ∈ Finset.range g.numRows, (g.rowEntries i).length
  simp only [support, length_rowEntries, Finset.card_filter, Finset.sum_product]

end Grid

namespace SparseMatrix

section Steps

variable {α : Type} [Zero α] [BEq α]

/-- A matrix stands for a grid of its size if they have the same entries. -/
structure Represents (m : SparseMatrix α) (g : Grid α) : Prop where
  wellFormed : m.WellFormed
  numRows : m.numRows = g.numRows
  numColumns : m.numColumns = g.numColumns
  entry : ∀ i j, i < g.numRows → j < g.numColumns → m.entry i j = g.value i j

/-- The matrix was just made, and reads like the grid. -/
inductive Begins : SparseMatrix α → Grid α → Prop where
  | zero (r c : Nat) : Begins (.zero r c) (.zero r c)
  | ofRows {r c : Nat} {rows : Compressed α} {m : SparseMatrix α}
      (h : ofRows r c rows = .ok m) : Begins m (.ofRows r c rows)

namespace Represents

variable {m : SparseMatrix α} {g : Grid α}

theorem of_begins (h : Begins m g) : m.Represents g := by
  cases h with
  | zero r c =>
    exact ⟨.zero r c, numRows_zero r c, numColumns_zero r c, fun i j _ _ => entry_zero r c i j⟩
  | @ofRows r c rows m h =>
    refine ⟨.ofRows h, ?_, ?_, fun i j hi _ => entry_ofRows h hi j⟩
    · rw [ofRows_eq_writeRows h, numRows_writeRows, numRows_zero]
      rfl
    · rw [ofRows_eq_writeRows h, numColumns_writeRows, numColumns_zero]
      rfl

theorem write (h : m.Represents g) {i j : Nat} (hi : i < g.numRows) (hj : j < g.numColumns)
    (x : α) : (m.write i j x).Represents (g.set i j x) where
  wellFormed := h.wellFormed.write (h.numRows ▸ hi) (h.numColumns ▸ hj) x
  numRows := (numRows_write ..).trans h.numRows
  numColumns := (numColumns_write ..).trans h.numColumns
  entry k l hk hl := by
    rw [entry_write _ _ _ _ (h.numRows ▸ hi), h.entry k l hk hl]
    rfl

theorem addRow (h : m.Represents g) : m.addRow.2.Represents g.addRow where
  wellFormed := h.wellFormed.addRow
  numRows := (numRows_addRow m).trans (congrArg (· + 1) h.numRows)
  numColumns := h.numColumns
  entry i j hi hj := by
    have hi : i < g.numRows + 1 := hi
    rw [entry_addRow]
    change _ = if i = g.numRows then 0 else g.value i j
    split
    · rename_i hlast
      exact entry_of_le_row m (h.numRows.trans hlast.symm).le j
    · exact h.entry i j (by omega) hj

theorem addColumn (h : m.Represents g) : m.addColumn.2.Represents g.addColumn where
  wellFormed := h.wellFormed.addColumn
  numRows := h.numRows
  numColumns := (numColumns_addColumn m).trans (congrArg (· + 1) h.numColumns)
  entry i j hi hj := by
    have hj : j < g.numColumns + 1 := hj
    rw [entry_addColumn]
    change _ = if j = g.numColumns then 0 else g.value i j
    split
    · rename_i hlast
      exact h.wellFormed.entry_of_le_column (h.numColumns.trans hlast.symm).le i
    · exact h.entry i j hi (by omega)

theorem appendRow (h : m.Represents g) {i : Nat} (hi : i < g.numRows) :
    (m.appendRow (m.rowAt i)).Represents (g.copyRow i) where
  wellFormed := h.wellFormed.appendRow i
  numRows := (numRows_appendRow ..).trans (congrArg (· + 1) h.numRows)
  numColumns := (numColumns_appendRow ..).trans h.numColumns
  entry k j hk hj := by
    have hk : k < g.numRows + 1 := hk
    rw [entry_appendRow, h.numRows]
    change _ = if k = g.numRows then g.value i j else g.value k j
    split
    · exact h.entry i j hi hj
    · exact h.entry k j (by omega) hj

/-- One edit of the matrix is the same edit of the grid. -/
theorem edited (h : m.Represents g) (e : Edit α) : (m.edited e).Represents (g.edited e) := by
  cases e with
  | set i j x =>
    rw [edited_set, Grid.edited, h.numRows, h.numColumns]
    split
    · rename_i hin
      exact h.write hin.1 hin.2 x
    · exact h
  | addRow => exact h.addRow
  | addColumn => exact h.addColumn
  | copyRow i =>
    rw [edited_copyRow, Grid.edited, h.numRows]
    split
    · rename_i hi
      exact h.appendRow hi
    · exact h

theorem run (h : m.Represents g) (edits : List (Edit α)) :
    (m.run edits).Represents (g.run edits) := by
  unfold SparseMatrix.run Grid.run
  induction edits generalizing m g with
  | nil => exact h
  | cons e rest ih => exact ih (h.edited e)

end Represents

end Steps

variable {f : Format} {m : SparseMatrix (Binary f)} {g : Grid (Binary f)}

/-- Everything that can be read from the matrix is what the grid holds. -/
structure Refines (m : SparseMatrix (Binary f)) (g : Grid (Binary f)) : Prop where
  numRows : m.numRows = g.numRows
  numColumns : m.numColumns = g.numColumns
  get : ∀ i j, i < g.numRows → j < g.numColumns → m.get i j = .ok (g.value i j)
  row : ∀ i, i < g.numRows → m.row i = .ok ⟨g.rowEntries i⟩
  column : ∀ j, j < g.numColumns → m.column j = .ok ⟨g.columnEntries j⟩
  numNonzeros : m.numNonzeros = g.support.card
  toDense : m.toDense = g.toDense
  toColumns : m.toColumns = g.toColumns

namespace Represents

theorem stored (h : m.Represents g) {i j : Nat} (hi : i < m.numRows) (hj : j < m.numColumns) :
    m.stored i j = g.stored i j := by
  have hentry := h.entry i j (h.numRows ▸ hi) (h.numColumns ▸ hj)
  rw [entry_eq] at hentry
  rw [Grid.stored, ← hentry]
  cases hx : m.stored i j with
  | none => simp [Binary.zero_beq_zero]
  | some x => simp [h.wellFormed.nonzero i j x hx]

theorem rowAt (h : m.Represents g) {i : Nat} (hi : i < g.numRows) :
    m.rowAt i = ⟨g.rowEntries i⟩ := by
  rw [h.wellFormed.rowAt_eq_collect (fun _ _ => h.stored) (h.numRows ▸ hi), h.numColumns]
  rfl

theorem columnAt (h : m.Represents g) {j : Nat} (hj : j < g.numColumns) :
    m.columnAt j = ⟨g.columnEntries j⟩ := by
  rw [h.wellFormed.columnAt_eq_collect (fun _ _ => h.stored) (h.numColumns ▸ hj), h.numRows]
  rfl

theorem toList_rows (h : m.Represents g) :
    m.rows.toList = (List.range g.numRows).map fun i => ⟨g.rowEntries i⟩ := by
  rw [SparseMatrix.toList_rows, h.numRows]
  exact List.map_congr_left fun i hi => h.rowAt (List.mem_range.mp hi)

theorem toList_columns (h : m.Represents g) :
    m.columns.toList = (List.range g.numColumns).map fun j => ⟨g.columnEntries j⟩ := by
  rw [SparseMatrix.toList_columns, h.numColumns]
  exact List.map_congr_left fun j hj => h.columnAt (List.mem_range.mp hj)

theorem numNonzeros (h : m.Represents g) : m.numNonzeros = g.support.card := by
  rw [SparseMatrix.numNonzeros, h.toList_rows, List.foldl_map, Grid.card_support,
    List.sum_eq_foldl, List.foldl_map]
  rfl

theorem toDense (h : m.Represents g) : m.toDense = g.toDense := by
  rw [SparseMatrix.toDense, SparseMatrix.toList_rows, List.map_map, h.numRows, h.numColumns]
  refine List.map_congr_left fun i hi => List.map_congr_left fun j hj => ?_
  exact h.entry i j (List.mem_range.mp hi) (List.mem_range.mp hj)

theorem toColumns (h : m.Represents g) : m.toColumns = g.toColumns := by
  have hlists : m.columns.toList.map (·.entries) =
      (List.range g.numColumns).map g.columnEntries := by
    simp [h.toList_columns, Function.comp_def]
  have hall : ((List.range g.numColumns).map g.columnEntries).flatten =
      g.entriesBelow g.numColumns := List.flatMap_def.symm
  have hstarts : Compressed.offsets 0 ((List.range g.numColumns).map g.columnEntries) =
      (List.range (g.numColumns + 1)).map fun k => (g.entriesBelow k).length := by
    rw [Compressed.offsets_eq, List.length_map, List.length_range]
    refine List.map_congr_left fun k hk => ?_
    rw [Nat.zero_add, ← List.map_take, List.take_range, ← List.flatMap_def, Nat.min_eq_left]
    · rfl
    · exact Nat.le_of_lt_succ (List.mem_range.mp hk)
  simp only [SparseMatrix.toColumns, Compressed.ofVectors, hlists, hall, hstarts, Grid.toColumns]

theorem refines (h : m.Represents g) : m.Refines g where
  numRows := h.numRows
  numColumns := h.numColumns
  get i j hi hj := by
    rw [get_eq, h.numRows, h.numColumns, if_pos hi, if_pos hj, h.entry i j hi hj]
  row i hi := by
    rw [row_eq, h.numRows, if_pos hi, h.rowAt hi]
  column j hj := by
    rw [column_eq, h.numColumns, if_pos hj, h.columnAt hj]
  numNonzeros := h.numNonzeros
  toDense := h.toDense
  toColumns := h.toColumns

end Represents

/-- A matrix that was just made and then edited refines the grid that took the same edits. -/
theorem run_refines (h : Begins m g) (edits : List (Edit (Binary f))) :
    (m.run edits).Refines (g.run edits) :=
  ((Represents.of_begins h).run edits).refines

/-- The last of three given entries is a negative zero, which clears the one before it. The copied
row keeps its infinity when the first row is overwritten with NaN. -/
theorem run_refines_copied :
    let rows : Compressed (Binary .binary64) := ⟨#[.infinity, 1, -0], #[0, 1, 1], #[0, 3]⟩
    let edits : List (Edit (Binary .binary64)) :=
      [.copyRow 0, .set 0 0 .nan, .addColumn, .set 1 2 1]
    ∃ m, ofRows 1 2 rows = .ok m ∧ (m.run edits).Refines ((Grid.ofRows 1 2 rows).run edits) ∧
      (m.run edits).get 1 0 = .ok .infinity ∧ (m.run edits).numNonzeros = 3 := by
  intro rows edits
  refine ⟨⟨#[⟨[(0, .infinity)]⟩], #[⟨[(0, .infinity)]⟩, .empty]⟩, ?_⟩
  have hrows : ofRows 1 2 rows = .ok ⟨#[⟨[(0, .infinity)]⟩], #[⟨[(0, .infinity)]⟩, .empty]⟩ := by
    decide +kernel
  exact ⟨hrows, run_refines (.ofRows hrows) edits, by decide +kernel, by decide +kernel⟩

end SparseMatrix

end StandardLp
