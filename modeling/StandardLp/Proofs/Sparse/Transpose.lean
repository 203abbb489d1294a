import StandardLp.Proofs.Reduction.Reachable
import StandardLp.Proofs.Sparse.Acceptance
import StandardLp.Proofs.Sparse.Canonical

/-!
Transposes, and what comes of reading exported columns back. The columns of a matrix are the rows
of its transpose, so the export of a matrix is accepted as the rows of a matrix, and that is the
transpose. Nothing is lost on the way: the export of the transpose is read back as the matrix.
-/

namespace StandardLp

theorem IndexMap.Sorted.find?_reverse {α : Type} {v : IndexMap α} (h : v.Sorted) (i : Nat) :
    (v.entries.reverse.find? (·.1 == i)).map (·.2) = v.get? i := by
  cases hfind : v.entries.reverse.find? (·.1 == i) with
  | none =>
    cases hx : v.get? i with
    | none => rfl
    | some x =>
      have hmem := List.mem_reverse.mpr ((get?_eq_some_iff h).mp hx)
      simpa using List.find?_eq_none.mp hfind _ hmem
  | some e =>
    have hmem := List.mem_reverse.mp (List.mem_of_find?_eq_some hfind)
    have hi : e.1 = i := by simpa using List.find?_some hfind
    exact (hi ▸ (get?_eq_some_iff h).mpr hmem).symm

namespace Grid

variable {α : Type} [Zero α] [BEq α]

def transpose (g : Grid α) : Grid α := ⟨g.numColumns, g.numRows, fun i j => g.value j i⟩

theorem card_support_transpose (g : Grid α) : g.transpose.support.card = g.support.card := by
  refine Finset.card_equiv (Equiv.prodComm Nat Nat) fun e => ?_
  rw [support, support, Finset.mem_filter, Finset.mem_filter, Finset.mem_product,
    Finset.mem_product]
  exact and_congr_left' and_comm

end Grid

namespace SparseMatrix

section Storage

variable {α : Type}

def transpose (m : SparseMatrix α) : SparseMatrix α := ⟨m.columns, m.rows⟩

variable (m : SparseMatrix α)

@[simp] theorem transpose_transpose : m.transpose.transpose = m := rfl

@[simp] theorem numRows_transpose : m.transpose.numRows = m.numColumns := rfl

@[simp] theorem numColumns_transpose : m.transpose.numColumns = m.numRows := rfl

@[simp] theorem rowAt_transpose (j : Nat) : m.transpose.rowAt j = m.columnAt j := rfl

@[simp] theorem columnAt_transpose (i : Nat) : m.transpose.columnAt i = m.rowAt i := rfl

theorem packed_toColumns : m.toColumns.Packed m.numColumns := Compressed.packed_ofVectors _

theorem numNonzeros_toColumns : m.toColumns.numNonzeros = m.transpose.numNonzeros :=
  Compressed.numNonzeros_ofVectors _

variable [Zero α] [BEq α] {m}

namespace WellFormed

variable (h : m.WellFormed)
include h

theorem transpose : m.transpose.WellFormed where
  sorted_row := h.sorted_column
  sorted_column := h.sorted_row
  agree i j := (h.agree j i).symm
  nonzero j i x hx := h.nonzero i j x ((h.agree i j).symm.trans hx)

theorem lt_numRows_of_mem_triples {t : Nat × Nat × α} (ht : t ∈ m.toColumns.triples) :
    t.2.1 < m.numRows := by
  have hcount : m.toColumns.count? = some m.numColumns := Compressed.count?_ofVectors _
  rw [Compressed.triples, hcount, Option.getD_some, List.mem_flatMap] at ht
  obtain ⟨k, hk, hmem⟩ := ht
  rw [m.vector?_toColumns (List.mem_range.mp hk), Option.getD_some] at hmem
  obtain ⟨e, he, rfl⟩ := List.mem_map.mp hmem
  exact h.lt_numRows ((IndexMap.get?_eq_some_iff (h.sorted_column k)).mpr he)

end WellFormed

end Storage

variable {f : Format} {m n : SparseMatrix (Binary f)} {g : Grid (Binary f)}

namespace Represents

theorem transpose (h : m.Represents g) : m.transpose.Represents g.transpose where
  wellFormed := h.wellFormed.transpose
  numRows := h.numColumns
  numColumns := h.numRows
  entry j i hj hi := by
    have hentry := h.entry i j hi hj
    rw [entry_eq, ← h.wellFormed.get?_columnAt] at hentry
    exact hentry

end Represents

namespace WellFormed

variable (h : m.WellFormed)
include h

theorem numNonzeros_transpose : m.transpose.numNonzeros = m.numNonzeros := by
  rw [h.represents_entry.numNonzeros, h.represents_entry.transpose.numNonzeros,
    Grid.card_support_transpose]

/-- The exported columns, taken as rows, hold what the transpose holds. No column names a row
twice and no value is zero, so nothing that is written is lost. -/
theorem transpose_represents :
    m.transpose.Represents (Grid.ofRows m.numColumns m.numRows m.toColumns) where
  wellFormed := h.transpose
  numRows := rfl
  numColumns := rfl
  entry j i hj _ := by
    have hread := m.vector?_toColumns hj
    have hfind := (h.sorted_column j).find?_reverse i
    simp only [Grid.ofRows, hread, Option.getD_some, entry_eq, stored, rowAt_transpose, ← hfind]
    cases hcase : (m.columnAt j).entries.reverse.find? (·.1 == i) with
    | none => rfl
    | some e =>
      rw [hcase, h.agree] at hfind
      have hzero := h.nonzero i j e.2 hfind.symm
      show e.2 = written e.2
      rw [written, hzero, if_neg Bool.false_ne_true]

theorem ofRows_toColumns :
    SparseMatrix.ofRows m.numColumns m.numRows m.toColumns = .ok m.transpose := by
  obtain ⟨n, hn⟩ := exists_ofRows_eq_ok m.packed_toColumns fun _ => h.lt_numRows_of_mem_triples
  rw [hn, (Represents.of_begins (.ofRows hn)).unique h.transpose_represents]

end WellFormed

/-- Exporting a matrix loses nothing: the columns can be read one by one and all together, they are
accepted as the rows of the transpose, and the export of that is accepted as the rows of the
matrix. -/
structure Lossless (m : SparseMatrix (Binary f)) : Prop where
  count : m.toColumns.count? = some m.numColumns
  numNonzeros : m.toColumns.numNonzeros = m.numNonzeros
  vector : ∀ j, j < m.numColumns →
    ∃ v, m.column j = .ok v ∧ m.toColumns.vector? j = some v.entries
  size_indices : m.toColumns.indices.size = m.toColumns.values.size
  flatMap_vector : (List.range m.numColumns).flatMap (fun j => (m.toColumns.vector? j).getD []) =
    m.toColumns.indices.toList.zip m.toColumns.values.toList
  ofRows : SparseMatrix.ofRows m.numColumns m.numRows m.toColumns = .ok m.transpose
  ofRows_transpose :
    SparseMatrix.ofRows m.numRows m.numColumns m.transpose.toColumns = .ok m

theorem WellFormed.lossless (h : m.WellFormed) : m.Lossless where
  count := Compressed.count?_ofVectors _
  numNonzeros := m.numNonzeros_toColumns.trans h.numNonzeros_transpose
  vector j hj := ⟨_, by rw [column_eq, if_pos hj], m.vector?_toColumns hj⟩
  size_indices := m.packed_toColumns.size_indices
  flatMap_vector := Compressed.flatMap_vector?_ofVectors _
  ofRows := h.ofRows_toColumns
  ofRows_transpose := h.transpose.ofRows_toColumns

/-- Every matrix that can be made, and that of every program that can come about, is exported
without loss. -/
theorem reachable_lossless :
    (∀ m : SparseMatrix (Binary f), m.Reachable → m.Lossless) ∧
      ∀ p : LinearProgram f, p.Reachable → p.matrix.Lossless :=
  ⟨fun _ hm => hm.wellFormed.lossless, fun _ hp => hp.sound.matrix.lossless⟩

/-- An infinity and a NaN in one row, with an empty row above and an empty column between them. -/
theorem reachable_lossless_holes :
    let m : SparseMatrix (Binary .binary64) :=
      ((SparseMatrix.zero 2 3).edited (.set 1 2 .nan)).edited (.set 1 0 .infinity)
    m.toColumns = ⟨#[.infinity, .nan], #[1, 1], #[0, 1, 1, 2]⟩ ∧ m.Reachable ∧ m.Lossless ∧
      (LinearProgram.zero 0 2 : LinearProgram .binary64).matrix.Lossless := by
  intro m
  have hm : m.Reachable := .edited (.edited (.zero 2 3) _) _
  exact ⟨by decide +kernel, hm, reachable_lossless.1 m hm, reachable_lossless.2 _ (.zero 0 2)⟩

end SparseMatrix

end StandardLp
