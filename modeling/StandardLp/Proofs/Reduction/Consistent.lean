import StandardLp.Proofs.Reduction.Reachable

/-!
The two storages of a matrix side by side. The rows and the columns list the same entries, each
vector in order and without zeros, whatever has been done to the matrix or to the program that
holds it.
-/

namespace StandardLp

/-- A list of entries in strictly increasing order, all of them below `n` and none of them zero. -/
structure IndexMap.Proper {α : Type} [Zero α] [BEq α] (v : IndexMap α) (n : Nat) : Prop where
  increasing : v.entries.Pairwise fun d e => d.1 < e.1
  below : ∀ e ∈ v.entries, e.1 < n
  nonzero : ∀ e ∈ v.entries, (e.2 == 0) = false

namespace SparseMatrix

variable {α : Type} [Zero α] [BEq α] {m : SparseMatrix α}

structure Consistent (m : SparseMatrix α) : Prop where
  rows : ∀ v ∈ m.rows.toList, v.Proper m.numColumns
  columns : ∀ v ∈ m.columns.toList, v.Proper m.numRows
  agree : ∀ i j x, (j, x) ∈ (m.rowAt i).entries ↔ (i, x) ∈ (m.columnAt j).entries

namespace WellFormed

theorem proper_rowAt (h : m.WellFormed) (i : Nat) : (m.rowAt i).Proper m.numColumns where
  increasing := h.sorted_row i
  below _ he := h.lt_numColumns (h.mem_rowAt_iff.mp he)
  nonzero e he := h.nonzero i e.1 e.2 (h.mem_rowAt_iff.mp he)

theorem proper_columnAt (h : m.WellFormed) (j : Nat) : (m.columnAt j).Proper m.numRows where
  increasing := h.sorted_column j
  below e he := by
    have hstored : m.stored e.1 j = some e.2 := h.mem_columnAt_iff.mp he
    exact h.lt_numRows ((h.get?_columnAt e.1 j).trans hstored)
  nonzero e he := h.nonzero e.1 j e.2 (h.mem_columnAt_iff.mp he)

theorem consistent (h : m.WellFormed) : m.Consistent where
  rows v hv := by
    rw [toList_rows] at hv
    obtain ⟨i, -, rfl⟩ := List.mem_map.mp hv
    exact h.proper_rowAt i
  columns v hv := by
    rw [toList_columns] at hv
    obtain ⟨j, -, rfl⟩ := List.mem_map.mp hv
    exact h.proper_columnAt j
  agree i j x := h.mem_rowAt_iff.trans h.mem_columnAt_iff.symm

end WellFormed

end SparseMatrix

/-- An edit out of range fails a debug assertion, before it has changed anything. Every matrix that
can be made, failed edits included, is consistent, and so is that of every program that can come
about. -/
theorem reachable_consistent {f : Format} :
    (∀ (m : SparseMatrix (Binary f)) (e : SparseMatrix.Edit (Binary f)), ¬ e.InRange m →
      (∃ refusal, m.apply e = .error refusal) ∧ m.edited e = m) ∧
    (∀ m : SparseMatrix (Binary f), m.Reachable → m.Consistent) ∧
      ∀ p : LinearProgram f, p.Reachable → p.matrix.Consistent := by
  refine ⟨?_, ?_, ?_⟩
  · intro m e he
    obtain ⟨refusal, happly⟩ := SparseMatrix.apply_out_of_range he
    refine ⟨⟨refusal, happly⟩, ?_⟩
    rw [SparseMatrix.edited, happly]
  · intro m hm
    exact hm.wellFormed.consistent
  · intro p hp
    exact hp.sound.matrix.consistent

/-- A NaN is copied and then cleared in the first row, and a column that is not there is refused.
The program is left between two steps, with a call refused before them. -/
theorem reachable_consistent_interrupted :
    let m : SparseMatrix (Binary .binary64) :=
      ((SparseMatrix.zero 1 2).edited (.set 0 1 .nan)).edited (.copyRow 0)
    let n := (m.edited (.set 0 2 1)).edited (.set 0 1 (-0))
    let p : LinearProgram .binary64 := (LinearProgram.zero 2 1).edited (.setCoefficient 0 0 1)
    let s := (Reduction.start p).run [.addSlacks, .splitEqualities, .split 0]
    m.edited (.set 0 2 1) = m ∧ n.columns = #[.empty, ⟨[(1, .nan)]⟩] ∧ n.Consistent ∧
      s.program.numVariables = 2 ∧ s.program.matrix.Consistent := by
  intro m n p s
  have hout : ¬ (SparseMatrix.Edit.set 0 2 1).InRange m := by
    intro h
    exact absurd h.2 (by decide +kernel)
  have hn : n.Reachable := .edited (.edited (.edited (.edited (.zero 1 2) _) _) _) _
  have hp : s.program.Reachable := .reduced (.edited (.zero 2 1) _) _
  exact ⟨(reachable_consistent.1 m _ hout).2, by decide +kernel, reachable_consistent.2.1 n hn,
    by decide +kernel, reachable_consistent.2.2 s.program hp⟩

end StandardLp
