import StandardLp.Proofs.Sparse.Grid
import StandardLp.Proofs.Sparse.Stored
import StandardLp.Sparse.Exchange

/-!
Reading a matrix from its rows. The entries of an accepted triple of arrays are written in the
order in which they are given, row by row, and within the size of the matrix.
-/

namespace StandardLp

theorem Compressed.lt_of_mem_triples {α : Type} {c : Compressed α} {n : Nat}
    (h : c.count? = some n) {t : Nat × Nat × α} (ht : t ∈ c.triples) : t.1 < n := by
  rw [triples, h, Option.getD_some, List.mem_flatMap] at ht
  obtain ⟨k, hk, hmem⟩ := ht
  obtain ⟨e, -, rfl⟩ := List.mem_map.mp hmem
  exact List.mem_range.mp hk

namespace SparseMatrix

variable {α : Type} [Zero α] [BEq α] {m : SparseMatrix α}

/-- What accepted rows are like, and the matrix that is made of them. -/
theorem ofRows_eq_ok {numRows numColumns : Nat} {c : Compressed α}
    (h : ofRows numRows numColumns c = .ok m) :
    c.count? = some numRows ∧ (∀ t ∈ c.triples, t.2.1 < numColumns) ∧
      m = c.triples.foldl (fun m t => m.write t.1 t.2.1 t.2.2) (zero numRows numColumns) := by
  unfold ofRows at h
  split at h
  · cases h
  · split at h
    · cases h
    · rename_i hstarts
      split at h
      · cases h
      · split at h
        · cases h
        · split at h
          · cases h
          · rename_i hfind
            cases h
            refine ⟨?_, ?_, rfl⟩
            · have hsize : c.starts.size = numRows + 1 := Decidable.not_not.mp hstarts
              simp [Compressed.count?, hsize]
            · intro t ht
              simpa using List.find?_eq_none.mp hfind t ht

namespace WellFormed

theorem foldl_write (h : m.WellFormed) {l : List (Nat × Nat × α)}
    (hrow : ∀ t ∈ l, t.1 < m.numRows) (hcolumn : ∀ t ∈ l, t.2.1 < m.numColumns) :
    (l.foldl (fun m t => m.write t.1 t.2.1 t.2.2) m).WellFormed := by
  induction l generalizing m with
  | nil => exact h
  | cons t rest ih =>
    apply ih (h.write (hrow t List.mem_cons_self) (hcolumn t List.mem_cons_self) _)
    · intro d hd
      simpa using hrow d (List.mem_cons_of_mem _ hd)
    · intro d hd
      simpa using hcolumn d (List.mem_cons_of_mem _ hd)

/-- A matrix that is read from its rows is written to within its size only. -/
theorem ofRows {numRows numColumns : Nat} {c : Compressed α}
    (h : SparseMatrix.ofRows numRows numColumns c = .ok m) : m.WellFormed := by
  obtain ⟨hcount, hcolumn, rfl⟩ := ofRows_eq_ok h
  apply (zero numRows numColumns).foldl_write
  · intro t ht
    rw [numRows_zero]
    exact Compressed.lt_of_mem_triples hcount ht
  · intro t ht
    rw [numColumns_zero]
    exact hcolumn t ht

end WellFormed

section Rows

def writeRow (m : SparseMatrix α) (i : Nat) (row : List (Nat × α)) : SparseMatrix α :=
  row.foldl (fun m e => m.write i e.1 e.2) m

def writeRows (m : SparseMatrix α) (rows : Nat → List (Nat × α)) (n : Nat) : SparseMatrix α :=
  (List.range n).foldl (fun m i => m.writeRow i (rows i)) m

@[simp] theorem numRows_writeRow (m : SparseMatrix α) (i : Nat) (row : List (Nat × α)) :
    (m.writeRow i row).numRows = m.numRows := by
  unfold writeRow
  induction row generalizing m with
  | nil => rfl
  | cons e rest ih => rw [List.foldl_cons, ih, numRows_write]

@[simp] theorem numColumns_writeRow (m : SparseMatrix α) (i : Nat) (row : List (Nat × α)) :
    (m.writeRow i row).numColumns = m.numColumns := by
  unfold writeRow
  induction row generalizing m with
  | nil => rfl
  | cons e rest ih => rw [List.foldl_cons, ih, numColumns_write]

theorem writeRows_succ (m : SparseMatrix α) (rows : Nat → List (Nat × α)) (n : Nat) :
    m.writeRows rows (n + 1) = (m.writeRows rows n).writeRow n (rows n) := by
  simp only [writeRows, List.range_succ, List.foldl_append, List.foldl_cons, List.foldl_nil]

@[simp] theorem numRows_writeRows (m : SparseMatrix α) (rows : Nat → List (Nat × α)) (n : Nat) :
    (m.writeRows rows n).numRows = m.numRows := by
  induction n with
  | zero => rfl
  | succ n ih => rw [writeRows_succ, numRows_writeRow, ih]

@[simp] theorem numColumns_writeRows (m : SparseMatrix α) (rows : Nat → List (Nat × α))
    (n : Nat) : (m.writeRows rows n).numColumns = m.numColumns := by
  induction n with
  | zero => rfl
  | succ n ih => rw [writeRows_succ, numColumns_writeRow, ih]

/-- The last entry that names a column is the one that stays there. -/
theorem entry_writeRow {i : Nat} (hi : i < m.numRows) (row : List (Nat × α)) (k l : Nat) :
    (m.writeRow i row).entry k l =
      if k = i then (row.reverse.find? (·.1 == l)).elim (m.entry k l) fun e => written e.2
      else m.entry k l := by
  unfold writeRow
  induction row generalizing m with
  | nil => simp
  | cons e rest ih =>
    rw [List.foldl_cons, ih (by simpa using hi), entry_write _ _ _ _ hi, List.reverse_cons,
      List.find?_append]
    by_cases hk : k = i
    · cases hfind : rest.reverse.find? (·.1 == l) with
      | some d => simp [hk]
      | none =>
        by_cases hl : l = e.1
        · simp [hk, hl, written]
        · simp [hk, hl, Ne.symm hl]
    · simp [hk]

/-- A row is not touched by those that are written after it. -/
theorem entry_writeRows (rows : Nat → List (Nat × α)) {n : Nat} (hn : n ≤ m.numRows)
    (k l : Nat) :
    (m.writeRows rows n).entry k l =
      if k < n then ((rows k).reverse.find? (·.1 == l)).elim (m.entry k l) fun e => written e.2
      else m.entry k l := by
  induction n with
  | zero => rfl
  | succ n ih =>
    have hsize : n < (m.writeRows rows n).numRows := by
      rw [numRows_writeRows]
      exact hn
    rw [writeRows_succ, entry_writeRow hsize, ih (by omega)]
    by_cases hk : k = n
    · subst hk
      simp
    · have hiff : k < n + 1 ↔ k < n := by omega
      simp [hk, hiff]

theorem foldl_triples (m : SparseMatrix α) (c : Compressed α) :
    c.triples.foldl (fun m t => m.write t.1 t.2.1 t.2.2) m =
      m.writeRows (fun i => (c.vector? i).getD []) (c.count?.getD 0) := by
  rw [Compressed.triples, List.foldl_flatMap]
  simp only [List.foldl_map]
  rfl

end Rows

theorem ofRows_eq_writeRows {numRows numColumns : Nat} {c : Compressed α}
    (h : ofRows numRows numColumns c = .ok m) :
    m = (zero numRows numColumns).writeRows (fun i => (c.vector? i).getD []) numRows := by
  obtain ⟨hcount, -, rfl⟩ := ofRows_eq_ok h
  rw [foldl_triples, hcount, Option.getD_some]

theorem entry_ofRows {numRows numColumns : Nat} {c : Compressed α}
    (h : ofRows numRows numColumns c = .ok m) {i : Nat} (hi : i < numRows) (j : Nat) :
    m.entry i j = (Grid.ofRows numRows numColumns c).value i j := by
  obtain rfl := ofRows_eq_writeRows h
  rw [entry_writeRows _ (by simp), if_pos hi, entry_zero]
  rfl

end SparseMatrix

end StandardLp
