import StandardLp.Proofs.Sparse.Canonical

/-!
Copies of rows. The vector of a row is appended as it stands, and the ends of the columns are the
places of its entries, since no row has a larger index. Reading the row value by value and writing
it to a new row takes a search for every value and comes to the same matrix, and after that the
two rows have nothing in common.
-/

namespace StandardLp

namespace SparseMatrix

section Paths

variable {α : Type} [Zero α] [BEq α]

/-- Appends a row and writes to it what is read from row `i`, a column at a time in the given
order. -/
def copyEntries (m : SparseMatrix α) (i : Nat) (order : List Nat) :
    Except IndexError (Nat × SparseMatrix α) := do
  let n ← order.foldlM (fun n j => do n.set m.addRow.1 j (← n.get i j)) m.addRow.2
  return (m.addRow.1, n)

/-- The matrix has `v` as row `i`, and its columns say the same of that row. -/
structure HasRow (m : SparseMatrix α) (i : Nat) (v : SparseVector α) : Prop where
  row : m.row i = .ok v
  column : ∀ j < m.numColumns, ∃ w, m.column j = .ok w ∧ w.get? i = v.get? j

/-- The matrix `n` is `m` with its row `i` copied to the end. It is the one that comes of copying
the values one by one, whatever order the columns are taken in, and either row keeps its values as
long as it is not itself written to: neither the other row nor a copy that is made later is seen
from it. -/
structure CopyOf (m : SparseMatrix α) (i : Nat) (n : SparseMatrix α) : Prop where
  plain : ∀ order : List Nat, (∀ j, j ∈ order ↔ j < m.numColumns) →
    ∃ n', m.copyEntries i order = .ok (m.numRows, n') ∧ n'.rows = n.rows ∧ n'.columns = n.columns
  original : ∀ edits : List (Edit α), (∀ j x, .set i j x ∉ edits) →
    (n.run edits).HasRow i (m.rowAt i)
  copy : ∀ edits : List (Edit α), (∀ j x, .set m.numRows j x ∉ edits) →
    (n.run edits).HasRow m.numRows (m.rowAt i)
  again : ∀ edits : List (Edit α), (∀ j x, .set m.numRows j x ∉ edits) →
    ∃ k n', (n.run edits).copyRow m.numRows = .ok (k, n') ∧ m.numRows < k ∧
      ∀ edits' : List (Edit α), (∀ j x, .set k j x ∉ edits') →
        (n'.run edits').HasRow k (m.rowAt i)

/-! ### Rows that are not written to -/

variable {m : SparseMatrix α} {r : Nat}

theorem numRows_le_edited (m : SparseMatrix α) (e : Edit α) : m.numRows ≤ (m.edited e).numRows := by
  cases e with
  | set i j x => rw [numRows_edited_set]
  | addRow => exact numRows_addRow m ▸ Nat.le_succ _
  | addColumn => exact Nat.le_refl _
  | copyRow i =>
    rw [edited_copyRow]
    split
    · exact numRows_appendRow m _ ▸ Nat.le_succ _
    · exact Nat.le_refl _

theorem numRows_le_run (m : SparseMatrix α) (edits : List (Edit α)) :
    m.numRows ≤ (m.run edits).numRows := by
  induction edits generalizing m with
  | nil => exact Nat.le_refl _
  | cons e edits ih => exact Nat.le_trans (m.numRows_le_edited e) (ih _)

theorem rowAt_edited {e : Edit α} (hr : r < m.numRows) (he : ∀ j x, e ≠ .set r j x) :
    (m.edited e).rowAt r = m.rowAt r := by
  cases e with
  | set i j x =>
    have hne : r ≠ i := fun h => he j x (h ▸ rfl)
    rw [edited_set]
    split
    · rename_i hin
      rw [rowAt_write _ _ _ _ hin.1, if_neg hne]
    · rfl
  | addRow => exact rowAt_addRow m r
  | addColumn => rfl
  | copyRow i =>
    rw [edited_copyRow]
    split
    · rw [rowAt_appendRow, if_neg (Nat.ne_of_lt hr)]
    · rfl

theorem rowAt_run {edits : List (Edit α)} (hr : r < m.numRows) (h : ∀ j x, .set r j x ∉ edits) :
    (m.run edits).rowAt r = m.rowAt r := by
  induction edits generalizing m with
  | nil => rfl
  | cons e edits ih =>
    have he : ∀ j x, e ≠ .set r j x := fun j x he => h j x (he ▸ List.mem_cons_self)
    have hrest : ∀ j x, .set r j x ∉ edits := fun j x hmem => h j x (List.mem_cons_of_mem _ hmem)
    have hr' := Nat.lt_of_lt_of_le hr (m.numRows_le_edited e)
    exact (ih hr' hrest).trans (rowAt_edited hr he)

theorem WellFormed.hasRow (h : m.WellFormed) (hr : r < m.numRows) : m.HasRow r (m.rowAt r) where
  row := by rw [row_eq, if_pos hr]
  column j hj := by
    refine ⟨m.columnAt j, ?_, h.agree r j⟩
    rw [column_eq, if_pos hj]

theorem WellFormed.run_hasRow (h : m.WellFormed) (hr : r < m.numRows) {edits : List (Edit α)}
    (hedits : ∀ j x, .set r j x ∉ edits) : (m.run edits).HasRow r (m.rowAt r) := by
  have hrow := (h.run edits).hasRow (Nat.lt_of_lt_of_le hr (m.numRows_le_run edits))
  rwa [rowAt_run hr hedits] at hrow

/-! ### Value by value -/

/-- What is written in the end: the values of row `i`, which no write to row `k` changes. -/
theorem foldlM_copy_eq {i k : Nat} {order : List Nat} (hi : i < m.numRows) (hk : k < m.numRows)
    (hne : i ≠ k) (horder : ∀ j ∈ order, j < m.numColumns) :
    order.foldlM (fun n j => do n.set k j (← n.get i j)) m =
      .ok (m.run (writes (order.map fun j => (k, j, m.entry i j)))) := by
  induction order generalizing m with
  | nil => rfl
  | cons j order ih =>
    obtain ⟨hj, hrest⟩ := List.forall_mem_cons.mp horder
    have hread : m.get i j = .ok (m.entry i j) := by rw [get_eq, if_pos hi, if_pos hj]
    have hwrite : m.set k j (m.entry i j) = .ok (m.edited (.set k j (m.entry i j))) := by
      rw [set_eq, if_pos hk, if_pos hj, edited_set, if_pos ⟨hk, hj⟩]
    have hentry : ∀ l, (m.edited (.set k j (m.entry i j))).entry i l = m.entry i l := fun l => by
      rw [entry, rowAt_edited hi fun j' x he => hne (Edit.set.inj he).1.symm]
      rfl
    have hcopy := ih (m := m.edited (.set k j (m.entry i j))) (by simpa using hi)
      (by simpa using hk) (by simpa using hrest)
    simp only [hentry] at hcopy
    rw [List.foldlM_cons, hread, List.map_cons, run_writes_cons, ← hcopy]
    change (m.set k j (m.entry i j) >>= _) = _
    rw [hwrite]
    rfl

omit [Zero α] [BEq α] in
/-- One value for every column of row `k`, however often and in whatever order it is written. -/
theorem lastAt?_map_row (k : Nat) (order : List Nat) (g : Nat → α) (r c : Nat) :
    lastAt? (order.map fun j => (k, j, g j)) r c =
      if k = r ∧ c ∈ order then some (g c) else none := by
  induction order with
  | nil => simp
  | cons j order ih =>
    rw [List.map_cons, lastAt?_cons, ih]
    by_cases hr : k = r
    · by_cases hc : c ∈ order
      · simp [hr, hc]
      · by_cases hj : j = c
        · simp [hr, hc, hj]
        · simp [hr, hc, hj, Ne.symm hj]
    · simp [hr]

end Paths

variable {f : Format} {m : SparseMatrix (Binary f)} {i : Nat}

/-- Both ways lead to a matrix with the same entries, and that settles how they are stored. -/
theorem WellFormed.copyEntries_eq (h : m.WellFormed) (hi : i < m.numRows) {order : List Nat}
    (horder : ∀ j, j ∈ order ↔ j < m.numColumns) :
    m.copyEntries i order = .ok (m.numRows, m.appendRow (m.rowAt i)) := by
  have hi' : i < m.addRow.2.numRows := by simpa using Nat.lt_succ_of_lt hi
  have hk : m.numRows < m.addRow.2.numRows := by simp
  have hfold := foldlM_copy_eq hi' hk (Nat.ne_of_lt hi) fun j hj => (horder j).mp hj
  have hsame : m.addRow.2.run (writes (order.map fun j => (m.numRows, j, m.addRow.2.entry i j))) =
      m.appendRow (m.rowAt i) := by
    apply (h.addRow.run _).ext_entry (h.appendRow i) (by simp) (by simp)
    intro r c hr hc
    rw [numRows_run_writes] at hr
    rw [numColumns_run_writes] at hc
    rw [entry_run_writes hr hc, lastAt?_map_row, entry_appendRow, entry_addRow, entry_addRow]
    by_cases hat : r = m.numRows
    · have hmem : c ∈ order := (horder c).mpr hc
      rw [if_pos ⟨hat.symm, hmem⟩, if_pos hat, Option.elim_some, h.written_entry]
      rfl
    · rw [if_neg fun hw => hat hw.1.symm, if_neg hat, Option.elim_none]
  rw [copyEntries, addRow_fst, hfold, hsame]
  rfl

theorem WellFormed.original_hasRow (h : m.WellFormed) (hi : i < m.numRows)
    {edits : List (Edit (Binary f))} (hedits : ∀ j x, .set i j x ∉ edits) :
    ((m.appendRow (m.rowAt i)).run edits).HasRow i (m.rowAt i) := by
  have hi' : i < (m.appendRow (m.rowAt i)).numRows := by simpa using Nat.lt_succ_of_lt hi
  have hrow := (h.appendRow i).run_hasRow hi' hedits
  rwa [rowAt_appendRow, if_neg (Nat.ne_of_lt hi)] at hrow

theorem WellFormed.copy_hasRow (h : m.WellFormed) (i : Nat) {edits : List (Edit (Binary f))}
    (hedits : ∀ j x, .set m.numRows j x ∉ edits) :
    ((m.appendRow (m.rowAt i)).run edits).HasRow m.numRows (m.rowAt i) := by
  have hrow := (h.appendRow i).run_hasRow (by simp) hedits
  rwa [rowAt_appendRow, if_pos rfl] at hrow

theorem WellFormed.copyOf (h : m.WellFormed) (hi : i < m.numRows) :
    m.CopyOf i (m.appendRow (m.rowAt i)) where
  plain order horder := ⟨_, h.copyEntries_eq hi horder, rfl, rfl⟩
  original edits hedits := h.original_hasRow hi hedits
  copy edits hedits := h.copy_hasRow i hedits
  again edits hedits := by
    -- The copy is copied out of a matrix that is well-formed in its turn, where it still is row `i`.
    have hk : m.numRows < (m.appendRow (m.rowAt i)).numRows := by simp
    have hlt := Nat.lt_of_lt_of_le hk (numRows_le_run _ edits)
    have hrow : ((m.appendRow (m.rowAt i)).run edits).rowAt m.numRows = m.rowAt i := by
      rw [rowAt_run hk hedits, rowAt_appendRow, if_pos rfl]
    refine ⟨_, _, (copyRow_eq _ _).trans (if_pos hlt), hlt, fun edits' hedits' => ?_⟩
    have hcopy := ((h.appendRow i).run edits).copy_hasRow m.numRows hedits'
    rwa [hrow] at hcopy ⊢

/-- On every matrix that can be made a row is copied to the next index, with the storage that
copying it value by value leads to, and the copy is its own from then on. -/
theorem copyRow_copyOf (hm : m.Reachable) (hi : i < m.numRows) :
    ∃ n, m.copyRow i = .ok (m.numRows, n) ∧ m.CopyOf i n :=
  ⟨_, (copyRow_eq m i).trans (if_pos hi), hm.wellFormed.copyOf hi⟩

/-- The row has a NaN and an entry that was cleared. Its copy is copied again after the original
was overwritten, and the plain way takes the columns backwards and one of them twice. -/
theorem copyRow_copyOf_cleared :
    let m : SparseMatrix (Binary .binary64) := (SparseMatrix.zero 2 3).run (writes
      [(0, 2, .nan), (1, 0, 1), (0, 1, 1), (0, 0, .infinity), (0, 1, -0)])
    ∃ n, m.copyRow 0 = .ok (2, n) ∧ m.CopyOf 0 n ∧
      m.copyEntries 0 [2, 1, 0, 2] = .ok (2, n) ∧
      (n.run [.set 0 0 0, .copyRow 2, .set 3 2 1]).HasRow 2 ⟨[(0, .infinity), (2, .nan)]⟩ := by
  intro m
  have hm : m.Reachable := .run (.zero 2 3) _
  obtain ⟨n, hn, hcopy⟩ := copyRow_copyOf (i := 0) hm (by decide +kernel)
  have hrows : m.numRows = 2 := by decide +kernel
  have hcolumns : m.numColumns = 3 := by decide +kernel
  have hrow : m.rowAt 0 = ⟨[(0, .infinity), (2, .nan)]⟩ := by decide +kernel
  rw [hrows] at hn
  refine ⟨n, hn, hcopy, ?_, ?_⟩
  · obtain ⟨n', hn', hr, hc⟩ := hcopy.plain [2, 1, 0, 2] (by rw [hcolumns]; simp; omega)
    cases n
    cases n'
    cases hr
    cases hc
    exact hrows ▸ hn'
  · have hkept := hcopy.copy [.set 0 0 0, .copyRow 2, .set 3 2 1] (by simp [hrows])
    rwa [hrow, hrows] at hkept

end SparseMatrix

end StandardLp
